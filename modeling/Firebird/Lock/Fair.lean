import Firebird.Lock.Safety

/-!
# The queue of a lock under lock ordering

With lock ordering `post_pending` grants a prefix of the queue and stops at the first request it
cannot grant. So after it the first pending request is not grantable, and nothing behind a request
that stays pending gets a level.
-/
namespace Firebird.Lock

open List

def FirstBlocked (l : Lbl) : Prop :=
  ∀ r ∈ l.requests.find? (·.pending), compatible r.requested (lockState (l.decCount r.state)) =
    false

instance (l : Lbl) : Decidable (FirstBlocked l) :=
  inferInstanceAs (Decidable (∀ r ∈ l.requests.find? (·.pending),
    compatible r.requested (lockState (l.decCount r.state)) = false))

variable {l : Lbl}

theorem lockState_decCount_congr {l' : Lbl} (h : l'.counts = l.counts) (s : Level) :
    lockState (l'.decCount s) = lockState (l.decCount s) := by
  refine lockState_congr fun x _ => ?_
  simp [Lbl.decCount, h]

def Lrq.claim (r : Lrq) : Option (Level × Level) :=
  if r.pending then some (r.requested, r.state) else none

theorem find?_pending_claim (rs : List Lrq) :
    (rs.find? (·.pending)).map (fun r => (r.requested, r.state)) = rs.findSome? Lrq.claim := by
  induction rs with
  | nil => rfl
  | cons r rs ih => cases hp : r.pending <;> simp [Lrq.claim, hp, ih]

theorem firstBlocked_iff : FirstBlocked l ↔ ∀ c ∈ l.requests.findSome? Lrq.claim,
    compatible c.1 (lockState (l.decCount c.2)) = false := by
  rw [← find?_pending_claim]
  simp [FirstBlocked]

theorem FirstBlocked.congr {l' : Lbl} (h : FirstBlocked l)
    (hreq : l'.requests.filterMap Lrq.claim = l.requests.filterMap Lrq.claim)
    (hcounts : l'.counts = l.counts) : FirstBlocked l' := by
  rw [firstBlocked_iff, ← head?_filterMap] at h ⊢
  intro c hc
  rw [lockState_decCount_congr hcounts]
  exact h c (hreq ▸ hc)

/-- The queue `rs` after `post_pending` under lock ordering: a prefix of it, none of which is
pending any more, and the untouched rest, which starts with a request that cannot be granted. -/
structure PostedFrom (rs : List Lrq) (l : Lbl) : Prop where
  split : ∃ front front' rest, rs = front ++ rest ∧ l.requests = front' ++ rest ∧
    List.Forall₂ Posts front front' ∧ (∀ r ∈ front', r.pending = false) ∧
    ∀ r ∈ rest.head?, r.pending = true ∧
      compatible r.requested (lockState (l.decCount r.state)) = false

variable {rs : List Lrq}

theorem PostedFrom.firstBlocked (h : PostedFrom rs l) : FirstBlocked l := by
  obtain ⟨front, front', rest, -, hreq, -, hfront, hrest⟩ := h.split
  intro r hr
  rw [hreq, find?_append] at hr
  have hnone : front'.find? (·.pending) = none := by simpa using hfront
  rw [hnone, Option.none_or] at hr
  cases rest with
  | nil => simp at hr
  | cons x rest =>
    obtain ⟨hp, hc⟩ := hrest x (by simp)
    obtain rfl : x = r := by simpa [hp] using hr
    exact hc

theorem postPendingLoop_prefix (pre rs : List Lrq) (l : Lbl) (h : Coherent (pre ++ rs) l) :
    ∃ front front' rest, rs = front ++ rest ∧
      (postPendingLoop true rs l).requests = front' ++ rest ∧ Forall₂ Posts front front' ∧
      (∀ r ∈ front', r.pending = false) ∧
      ∀ r ∈ rest.head?, r.pending = true ∧ compatible r.requested
        (lockState ((postPendingLoop true rs l).lock.decCount r.state)) = false := by
  induction rs generalizing pre l with
  | nil => exact ⟨[], [], [], rfl, rfl, .nil, by simp, by simp⟩
  | cons r rs ih =>
    -- A request that does not stop the loop goes to the front.
    have hstep : ∀ r' l', Posts r r' → r'.pending = false → Coherent (pre ++ r' :: rs) l' →
        ∃ front front' rest, r :: rs = front ++ rest ∧
          r' :: (postPendingLoop true rs l').requests = front' ++ rest ∧
          Forall₂ Posts front front' ∧ (∀ r ∈ front', r.pending = false) ∧
          ∀ r ∈ rest.head?, r.pending = true ∧ compatible r.requested
            (lockState ((postPendingLoop true rs l').lock.decCount r.state)) = false := by
      intro r' l' hposts hp hcoh
      obtain ⟨front, front', rest, h₁, h₂, h₃, h₄, h₅⟩ := ih (pre ++ [r']) l' (by simpa using hcoh)
      refine ⟨r :: front, r' :: front', rest, by simp [h₁], by simp [h₂], .cons hposts h₃, ?_, h₅⟩
      grind
    unfold postPendingLoop
    by_cases hp : r.pending = true
    · rw [if_pos hp]
      split
      · next r' l' hg =>
        have hcoh := ((h.perm perm_middle).grantPending hg).perm perm_middle.symm
        obtain ⟨rfl, -⟩ := grantPending_spec hg
        exact hstep _ l' ⟨r.justGranted, .inr ⟨hp, rfl⟩⟩ rfl hcoh
      · next hg =>
        refine ⟨[], [], r :: rs, rfl, rfl, .nil, by simp, ?_⟩
        intro x hx
        obtain rfl : r = x := by simpa using hx
        exact ⟨hp, grantPending_eq_none h hg⟩
    · rw [if_neg hp]
      exact hstep r l (.refl r) (by simpa using hp) h

theorem markJustGranted_append {front rest : List Lrq} (hfront : ∀ r ∈ front, r.pending = false)
    (hrest : ∀ r ∈ rest.head?, r.pending = true) :
    markJustGranted (front ++ rest) = markJustGranted front ++ rest := by
  induction front with
  | nil =>
    cases rest with
    | nil => rfl
    | cons x rest => simp [markJustGranted, hrest x (by simp)]
  | cons r front ih =>
    have hr := hfront r (by simp)
    simp [markJustGranted, hr, ih fun x hx => hfront x (by simp [hx])]

theorem postPending_postedFrom (h : LockOk l) : PostedFrom l.requests (postPending true l).1 := by
  unfold postPending
  split
  · next hzero =>
    have hnone : ∀ r ∈ l.requests, r.pending = false := by
      have hcount := h.coherent.pending
      rw [hzero] at hcount
      have hle := countP_le_length (p := fun r : Lrq => r.pending) (l := l.requests)
      have hpos := ofNat_ne_zero_iff (Nat.lt_of_le_of_lt hle h.coherent.small)
      intro r hr
      by_contra hp
      have : 0 < l.requests.countP fun r => r.pending :=
        countP_pos_iff.mpr ⟨r, hr, by simpa using hp⟩
      exact hpos.mpr this hcount.symm
    exact ⟨l.requests, l.requests, [], by simp, by simp,
      forall₂_same.mpr fun _ _ => .refl _, hnone, by simp⟩
  · obtain ⟨front, front', rest, h₁, h₂, h₃, h₄, h₅⟩ :=
      postPendingLoop_prefix [] l.requests l h.coherent
    dsimp only
    split
    · have hmark := markJustGranted_append h₄ fun r hr => (h₅ r hr).1
      have hposts := markJustGranted_posts front'
      refine ⟨front, markJustGranted front', rest, h₁, by simp [h₂, hmark],
        forall₂_posts_trans h₃ hposts, ?_, h₅⟩
      have := markJustGranted_map (·.pending) (fun _ _ => rfl) front'
      intro r hr
      have hmem : r.pending ∈ front'.map (·.pending) := this ▸ mem_map_of_mem hr
      grind
    · exact ⟨front, front', rest, h₁, h₂, h₃, h₄, h₅⟩

/-- The queue `rs` becomes `rs'`: requests leave it, others are granted, and behind one that is
still pending none gets another level. The flag says that such a request was seen. -/
inductive Serves : Bool → List Lrq → List Lrq → Prop where
  | nil {seen} : Serves seen [] []
  | drop {seen r rs rs'} (h : Serves seen rs rs') : Serves seen (r :: rs) rs'
  | keep {seen r r' rs rs'} (hr : Posts r r') (hs : seen = true → r'.state = r.state)
      (h : Serves (seen || r'.pending) rs rs') : Serves seen (r :: rs) (r' :: rs')

theorem Serves.refl (seen : Bool) (rs : List Lrq) : Serves seen rs rs := by
  induction rs generalizing seen with
  | nil => exact .nil
  | cons r rs ih => exact .keep (.refl r) (fun _ => rfl) (ih _)

theorem Posts.pending_imp {r r' : Lrq} (h : Posts r r') (hp : r'.pending = true) :
    r.pending = true := by
  obtain ⟨j, rfl | ⟨-, rfl⟩⟩ := h
  · exact hp
  · cases hp

variable {rs' : List Lrq}

theorem Serves.trans {b c : Bool} {rs'' : List Lrq} (h : Serves b rs rs')
    (h' : Serves c rs' rs'') (hcb : c = true → b = true) : Serves c rs rs'' := by
  induction h generalizing c rs'' with
  | nil =>
    cases h'
    exact .nil
  | drop _ ih => exact .drop (ih h' hcb)
  | keep hr hs _ ih =>
    cases h' with
    | drop h' => exact .drop (ih h' fun hc => by simp [hcb hc])
    | keep hr' hs' h' =>
      refine .keep (hr.trans hr') (fun hc => (hs' hc).trans (hs (hcb hc))) (ih h' ?_)
      intro hc
      rcases Bool.or_eq_true _ _ |>.mp hc with hc | hc
      · simp [hcb hc]
      · simp [hr'.pending_imp hc]

theorem Serves.filter (p : Lrq → Bool) (rs : List Lrq) (seen : Bool) :
    Serves seen rs (rs.filter p) := by
  induction rs generalizing seen with
  | nil => exact .nil
  | cons r rs ih =>
    rw [filter_cons]
    split
    · exact .keep (.refl r) (fun _ => rfl) (ih _)
    · exact .drop (ih _)

theorem PostedFrom.serves (h : PostedFrom rs l) : Serves false rs l.requests := by
  obtain ⟨front, front', rest, rfl, hreq, hposts, hfront, -⟩ := h.split
  rw [hreq]
  clear hreq h
  induction hposts with
  | nil => exact .refl _ _
  | cons hr _ ih =>
    refine .keep hr (by simp) ?_
    rw [hfront _ (by simp)]
    exact ih fun r hr => hfront r (by simp [hr])

/-- In `rs'` nobody at `LCK_none` in `rs`, or not in it, holds a level above `LCK_null` behind a
request that was pending in `rs` and still is. -/
def NoOvertaking (rs rs' : List Lrq) : Prop :=
  rs'.Pairwise fun p' r' => p'.pending = true → (∃ p ∈ rs, p.id = p'.id ∧ p.pending = true) →
    r'.state.rank > Level.null.rank → ∃ r ∈ rs, r.id = r'.id ∧ r.state ≠ .none

variable {seen : Bool}

theorem Serves.origin (h : Serves seen rs rs') :
    ∀ r' ∈ rs', ∃ r ∈ rs, Posts r r' ∧ (seen = true → r'.state = r.state) := by
  induction h with
  | nil => simp
  | drop _ ih =>
    intro r' hr'
    obtain ⟨r, hr, h⟩ := ih r' hr'
    exact ⟨r, by simp [hr], h⟩
  | keep hr hs _ ih =>
    intro x hx
    rcases mem_cons.mp hx with rfl | hx
    · exact ⟨_, by simp, hr, hs⟩
    · obtain ⟨r, hr, hp, hst⟩ := ih x hx
      exact ⟨r, by simp [hr], hp, fun hseen => hst (by simp [hseen])⟩

theorem Serves.behind_pending (h : Serves seen rs rs') :
    rs'.Pairwise fun p' r' => p'.pending = true → ∃ p r, [p, r].Sublist rs ∧ p.id = p'.id ∧
      p.pending = true ∧ r.id = r'.id ∧ r.state = r'.state := by
  induction h with
  | nil => exact .nil
  | drop _ ih =>
    refine ih.imp fun h hp => ?_
    obtain ⟨p, r, hsub, h⟩ := h hp
    exact ⟨p, r, hsub.cons _, h⟩
  | keep hr hs h ih =>
    refine pairwise_cons.mpr ⟨?_, ih.imp fun h hp => ?_⟩
    · intro r' hr' hp
      obtain ⟨r, hmem, hposts, hstate⟩ := h.origin r' hr'
      exact ⟨_, r, (singleton_sublist.mpr hmem).cons_cons _, hr.id_eq.symm, hr.pending_imp hp,
        hposts.id_eq.symm, (hstate (by simp [hp])).symm⟩
    · obtain ⟨p, r, hsub, h⟩ := h hp
      exact ⟨p, r, hsub.cons _, h⟩

theorem Serves.noOvertaking {rs₁ : List Lrq} (h : Serves seen rs₁ rs')
    (h₁ : rs₁.Pairwise fun p r => p.pending = true → r.state.rank > Level.null.rank →
      ∃ r₀ ∈ rs, r₀.id = r.id ∧ r₀.state ≠ .none) : NoOvertaking rs rs' := by
  refine h.behind_pending.imp fun {p' r'} h hp' _ hlevel => ?_
  obtain ⟨p, r, hsub, -, hp, hid, hstate⟩ := h hp'
  obtain ⟨r₀, hr₀, e, hne⟩ := pairwise_iff_forall_sublist.mp h₁ hsub hp (hstate ▸ hlevel)
  exact ⟨r₀, hr₀, e.trans hid, hne⟩

theorem state_ne_none {s : Level} (h : s.rank > Level.null.rank) : s ≠ .none := by
  rintro rfl
  exact absurd h (by decide)

theorem Serves.overtakes_nobody (h : Serves seen rs rs') : NoOvertaking rs rs' :=
  h.noOvertaking (Pairwise.imp_of_mem
    (fun {_ r} _ hr _ _ hlevel => ⟨r, hr, rfl, state_ne_none hlevel⟩)
    (pairwise_of_forall fun _ _ => trivial))

theorem noOvertaking_of_states
    (h : ∀ r' ∈ rs', r'.state ≠ .none → ∃ r ∈ rs, r.id = r'.id ∧ r.state ≠ .none) :
    NoOvertaking rs rs' := by
  refine Pairwise.imp_of_mem (fun {p' r'} _ hr' _ _ _ hlevel => h r' hr' ?_)
    (pairwise_of_forall fun _ _ => trivial)
  exact state_ne_none hlevel

end Firebird.Lock
