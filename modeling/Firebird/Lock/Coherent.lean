import Mathlib.Data.List.Pairwise
import Firebird.Lock.Block

/-!
# Coherent lock blocks

The counters of a lock block count its requests modulo `2 ^ 16`. As long as a lock has fewer than
`2 ^ 16` requests, its state is the highest level granted, and granting what is compatible with
that state keeps all granted levels compatible with each other.
-/
namespace Firebird.Lock

open List Function

/-- `counts` counts the requests at each level above `LCK_none`, modulo `2 ^ 16`. -/
def CountsMatch (rs : List Lrq) (counts : Level → UInt16) : Prop :=
  ∀ s, s ≠ .none → counts s = UInt16.ofNat (rs.countP fun r => r.state = s)

variable {rs rs' : List Lrq}

theorem CountsMatch.perm {counts : Level → UInt16}
    (h : CountsMatch rs counts) (hp : rs.Perm rs') : CountsMatch rs' counts := by
  intro s hs
  rw [h s hs, hp.countP_eq]

variable {r : Lrq} {l : Lbl}

theorem CountsMatch.decCount
    (h : CountsMatch (r :: rs) l.counts) : CountsMatch rs (l.decCount r.state).counts := by
  intro s hs
  have := h s hs
  by_cases e : r.state = s
  · subst e
    simp only [Lbl.decCount, this]
    simp
  · have hne : s ≠ r.state := fun e' => e e'.symm
    simpa [Lbl.decCount, update_of_ne hne, e] using this

theorem CountsMatch.incCount {s₀ : Level} (h : CountsMatch rs l.counts) (hs₀ : r.state = s₀) :
    CountsMatch (r :: rs) (l.incCount s₀).counts := by
  intro s hs
  have := h s hs
  by_cases e : r.state = s
  · obtain rfl : s = s₀ := e.symm.trans hs₀
    simp [Lbl.incCount, this, e]
  · have hne : s ≠ s₀ := fun e' => e (hs₀.trans e'.symm)
    simpa [Lbl.incCount, update_of_ne hne, e] using this

theorem ofNat_ne_zero_iff {n : Nat} (h : n < 65536) : UInt16.ofNat n ≠ 0 ↔ 0 < n := by
  rw [Ne, ← UInt16.toNat_inj, UInt16.toNat_ofNat_of_lt' (by simpa using h)]
  simp

/-- `top` is the highest level among the requests. -/
structure IsTop (top : Level) (rs : List Lrq) : Prop where
  le : ∀ r ∈ rs, r.state.rank ≤ top.rank
  mem : top = .none ∨ ∃ r ∈ rs, r.state = top

theorem rank_le_lockState {s : Level} (h : s ≠ .none → l.counts s ≠ 0) :
    s.rank ≤ (lockState l).rank := by
  cases s with
  | none => exact Nat.zero_le _
  | _ =>
    have hs := h (by decide)
    unfold lockState
    split_ifs <;> decide

theorem isTop_lockState (h : CountsMatch rs l.counts)
    (hsmall : rs.length < 65536) : IsTop (lockState l) rs := by
  have hcount : ∀ s, s ≠ .none → (l.counts s ≠ 0 ↔ ∃ r ∈ rs, r.state = s) := by
    intro s hs
    rw [h s hs, ofNat_ne_zero_iff (Nat.lt_of_le_of_lt countP_le_length hsmall)]
    simp
  have hle : ∀ r ∈ rs, r.state ≠ .none → l.counts r.state ≠ 0 :=
    fun r hr hs => (hcount _ hs).mpr ⟨r, hr, rfl⟩
  constructor
  · intro r hr
    exact rank_le_lockState (hle r hr)
  · unfold lockState
    split_ifs with h₁ h₂ h₃ h₄ h₅ h₆
    · exact .inr ((hcount _ (by decide)).mp h₁)
    · exact .inr ((hcount _ (by decide)).mp h₂)
    · exact .inr ((hcount _ (by decide)).mp h₃)
    · exact .inr ((hcount _ (by decide)).mp h₄)
    · exact .inr ((hcount _ (by decide)).mp h₅)
    · exact .inr ((hcount _ (by decide)).mp h₆)
    · exact .inl rfl

def AllCompatible (rs : List Lrq) : Prop :=
  rs.Pairwise fun r r' => compatible r.state r'.state = true

theorem AllCompatible.perm (h : AllCompatible rs) (hp : rs.Perm rs') : AllCompatible rs' :=
  (hp.pairwise_iff fun {_ _} hc => by rwa [compatible_comm]).mp h

theorem AllCompatible.tail (h : AllCompatible (r :: rs)) : AllCompatible rs :=
  (pairwise_cons.mp h).2

theorem AllCompatible.of_top {top x : Level} (h : AllCompatible rs)
    (htop : IsTop top rs) (hx : compatible x top = true) :
    ∀ r ∈ rs, compatible x r.state = true := by
  intro r hr
  rcases htop.mem with rfl | ⟨r₀, hr₀, rfl⟩
  · rw [Level.rank_eq_zero (htop.le r hr)]
    exact hx
  · by_cases e : r = r₀
    · rwa [e]
    · have hsymm : Std.Symm fun r r' : Lrq => compatible r.state r'.state = true :=
        ⟨fun _ _ hc => by rwa [compatible_comm]⟩
      exact compatible_of_compatible_top (htop.le r hr) (h.forall hr hr₀ e) hx

/-- What holds of the requests `rs` of a lock and its block. -/
structure Coherent (rs : List Lrq) (l : Lbl) : Prop where
  counts : CountsMatch rs l.counts
  pending : l.pendingLrqCount = UInt16.ofNat (rs.countP fun r => r.pending)
  state : l.state = lockState l
  compat : AllCompatible rs
  small : rs.length < 65536

theorem Coherent.perm (h : Coherent rs l) (hp : rs.Perm rs') : Coherent rs' l :=
  ⟨h.counts.perm hp, by rw [h.pending, hp.countP_eq], h.state, h.compat.perm hp,
    hp.length_eq ▸ h.small⟩

theorem Coherent.congr (h : Coherent rs l)
    (hs : rs'.map (fun r => (r.state, r.pending)) = rs.map fun r => (r.state, r.pending)) :
    Coherent rs' l := by
  have hstate : rs'.map (·.state) = rs.map (·.state) := by
    simpa [comp_def] using congrArg (List.map Prod.fst) hs
  have hpend : rs'.map (·.pending) = rs.map (·.pending) := by
    simpa [comp_def] using congrArg (List.map Prod.snd) hs
  refine ⟨?_, ?_, h.state, ?_, ?_⟩
  · intro s hs'
    have hmap : ∀ xs : List Lrq, xs.countP (fun r => r.state = s) =
        (xs.map (·.state)).countP fun x => x = s := by
      intro xs
      simp [comp_def]
    rw [h.counts s hs', hmap, hmap, hstate]
  · have hmap : ∀ xs : List Lrq, xs.countP (fun r => r.pending) =
        (xs.map (·.pending)).countP fun x => x := by
      intro xs
      simp [comp_def]
    rw [h.pending, hmap, hmap, hpend]
  · have hmap : ∀ xs : List Lrq, AllCompatible xs ↔
        (xs.map (·.state)).Pairwise fun a b => compatible a b = true := by
      intro xs
      simp [AllCompatible, pairwise_map]
    rw [hmap, hstate, ← hmap]
    exact h.compat
  · have := congrArg List.length hs
    simp only [length_map] at this
    rw [this]
    exact h.small

theorem Coherent.isTop_decCount (h : Coherent (r :: rs) l) :
    IsTop (lockState (l.decCount r.state)) rs :=
  isTop_lockState h.counts.decCount (by have := h.small; simp at this; omega)

@[simp] theorem lockState_decCount_none (l : Lbl) : lockState (l.decCount .none) = lockState l := by
  simp [lockState, Lbl.decCount]

@[simp] theorem grant_request (r : Lrq) (l : Lbl) :
    (grant r l).1 = { r with state := r.requested, data := 0, pending := false } := rfl

theorem grant_counts (r : Lrq) (l : Lbl) :
    (grant r l).2.counts = (l.incCount r.requested).counts := by
  dsimp only [grant]
  split_ifs <;> rfl

theorem grant_state (r : Lrq) (l : Lbl) : (grant r l).2.state = lockState (grant r l).2 := by
  dsimp only [grant]
  split_ifs <;> rfl

theorem grant_pendingLrqCount (r : Lrq) (l : Lbl) : (grant r l).2.pendingLrqCount =
    if r.pending then l.pendingLrqCount - 1 else l.pendingLrqCount := by
  dsimp only [grant]
  split_ifs <;> rfl

variable {l' : Lbl}

theorem grant_coherent (h : Coherent (r :: rs) l)
    (hcounts : CountsMatch rs l'.counts) (hpend : l'.pendingLrqCount = l.pendingLrqCount)
    (hcomp : ∀ r' ∈ rs, compatible r.requested r'.state = true) :
    Coherent ((grant r l').1 :: rs) (grant r l').2 := by
  refine ⟨?_, ?_, grant_state r l', ?_, ?_⟩
  · rw [grant_counts]
    exact hcounts.incCount rfl
  · rw [grant_pendingLrqCount, hpend, h.pending]
    cases hp : r.pending <;> simp [hp]
  · exact pairwise_cons.mpr ⟨hcomp, h.compat.tail⟩
  · simpa using h.small

theorem Coherent.convert (h : Coherent (r :: rs) l)
    (hc : compatible r.requested (lockState (l.decCount r.state)) = true) :
    Coherent ((grant r (l.decCount r.state)).1 :: rs) (grant r (l.decCount r.state)).2 :=
  grant_coherent h h.counts.decCount rfl
    (h.compat.tail.of_top h.isTop_decCount hc)

theorem Coherent.grant (h : Coherent (r :: rs) l)
    (hnone : r.state = .none) (hc : compatible r.requested l.state = true) :
    Coherent ((grant r l).1 :: rs) (Lock.grant r l).2 := by
  have htop : IsTop l.state rs := by
    have := h.isTop_decCount
    rwa [hnone, lockState_decCount_none, ← h.state] at this
  refine grant_coherent h ?_ rfl (h.compat.tail.of_top htop hc)
  have := h.counts.decCount
  intro s hs
  rw [← this s hs, hnone]
  simp [Lbl.decCount, update_of_ne hs]

/-- What `post_pending` may do to a request: grant it if it is pending, and mark it. -/
def Posts (r r' : Lrq) : Prop :=
  ∃ j, r' = { r with justGranted := j } ∨
    (r.pending = true ∧
      r' = { r with state := r.requested, data := 0, pending := false, justGranted := j })

theorem Posts.refl (r : Lrq) : Posts r r := ⟨r.justGranted, .inl rfl⟩

variable {r' : Lrq}

theorem Posts.id_eq (h : Posts r r') : r'.id = r.id := by
  obtain ⟨j, rfl | ⟨-, rfl⟩⟩ := h <;> rfl

theorem Posts.owner_eq (h : Posts r r') : r'.owner = r.owner := by
  obtain ⟨j, rfl | ⟨-, rfl⟩⟩ := h <;> rfl

/-- `l'` is the lock `l` with other requests, counters and state. -/
def SameLock (l l' : Lbl) : Prop := l'.id = l.id ∧ l'.resource = l.resource

theorem SameLock.trans {l'' : Lbl} (h : SameLock l l') (h' : SameLock l' l'') : SameLock l l'' :=
  ⟨h'.1.trans h.1, h'.2.trans h.2⟩

theorem grant_sameLock (r : Lrq) (l : Lbl) : SameLock l (grant r l).2 := by
  dsimp only [grant]
  split_ifs <;> exact ⟨rfl, rfl⟩

theorem grantPending_spec (h : grantPending r l = some (r', l')) :
    r' = { r with state := r.requested, data := 0, pending := false } ∧ SameLock l l' := by
  unfold grantPending at h
  split_ifs at h
  · cases h
    exact ⟨rfl, grant_sameLock r (l.decCount r.state)⟩
  · cases h
    exact ⟨rfl, grant_sameLock r l⟩

theorem Coherent.grantPending (h : Coherent (r :: rs) l) (hg : grantPending r l = some (r', l')) :
    Coherent (r' :: rs) l' := by
  unfold Lock.grantPending at hg
  split_ifs at hg with hs hc hc
  · cases hg
    exact h.convert hc
  · cases hg
    exact h.grant (by simpa using hs) hc

theorem grantPending_eq_none (h : Coherent rs l) (hg : grantPending r l = none) :
    compatible r.requested (lockState (l.decCount r.state)) = false := by
  unfold grantPending at hg
  split_ifs at hg with hs hc hc
  · simpa using hc
  · rw [Ne, not_not] at hs
    rw [hs, lockState_decCount_none, ← h.state]
    simpa using hc

theorem postPendingLoop_posts (ordering : Bool) (rs : List Lrq) (l : Lbl) :
    Forall₂ Posts rs (postPendingLoop ordering rs l).requests ∧
      SameLock l (postPendingLoop ordering rs l).lock := by
  induction rs generalizing l with
  | nil => exact ⟨.nil, rfl, rfl⟩
  | cons r rs ih =>
    unfold postPendingLoop
    by_cases hp : r.pending = true
    · rw [if_pos hp]
      split
      · next r' l' hg =>
        obtain ⟨rfl, hsame⟩ := grantPending_spec hg
        obtain ⟨hposts, hsame'⟩ := ih l'
        exact ⟨.cons ⟨r.justGranted, .inr ⟨hp, rfl⟩⟩ hposts, hsame.trans hsame'⟩
      · split
        · exact ⟨.cons (.refl r) (forall₂_same.mpr fun _ _ => .refl _), rfl, rfl⟩
        · exact ⟨.cons (.refl r) (ih l).1, (ih l).2⟩
    · rw [if_neg hp]
      exact ⟨.cons (.refl r) (ih l).1, (ih l).2⟩

theorem postPendingLoop_coherent (ordering : Bool) (pre rs : List Lrq) (l : Lbl)
    (h : Coherent (pre ++ rs) l) :
    Coherent (pre ++ (postPendingLoop ordering rs l).requests)
      (postPendingLoop ordering rs l).lock := by
  induction rs generalizing pre l with
  | nil => exact h
  | cons r rs ih =>
    have hstep : ∀ r' l', Coherent (pre ++ r' :: rs) l' →
        Coherent (pre ++ r' :: (postPendingLoop ordering rs l').requests)
          (postPendingLoop ordering rs l').lock := by
      intro r' l' h'
      have := ih (pre ++ [r']) l' (by simpa using h')
      simpa using this
    unfold postPendingLoop
    split
    · split
      · next r' l' hg =>
        refine hstep r' l' ?_
        have := (h.perm perm_middle).grantPending hg
        exact this.perm perm_middle.symm
      · split
        · exact h
        · exact hstep r l h
    · exact hstep r l h

theorem markJustGranted_posts (rs : List Lrq) : Forall₂ Posts rs (markJustGranted rs) := by
  induction rs with
  | nil => exact .nil
  | cons r rs ih =>
    unfold markJustGranted
    split
    · exact .cons (.refl r) (forall₂_same.mpr fun _ _ => .refl _)
    · refine .cons ?_ ih
      split
      · exact ⟨true, .inl rfl⟩
      · exact .refl r

theorem markJustGranted_map {β : Type} (f : Lrq → β)
    (hf : ∀ r j, f { r with justGranted := j } = f r) (rs : List Lrq) :
    (markJustGranted rs).map f = rs.map f := by
  induction rs with
  | nil => rfl
  | cons r rs ih =>
    unfold markJustGranted
    split
    · rfl
    · rw [map_cons, map_cons, ih]
      split
      · rw [hf]
      · rfl

theorem Posts.trans {r'' : Lrq} (h : Posts r r') (h' : Posts r' r'') : Posts r r'' := by
  obtain ⟨j, rfl | ⟨hp, rfl⟩⟩ := h <;> obtain ⟨j', rfl | ⟨hp', rfl⟩⟩ := h'
  · exact ⟨j', .inl rfl⟩
  · exact ⟨j', .inr ⟨hp', rfl⟩⟩
  · exact ⟨j', .inr ⟨hp, rfl⟩⟩
  · exact absurd hp' (by simp)

theorem forall₂_posts_trans {rs'' : List Lrq} (h : Forall₂ Posts rs rs')
    (h' : Forall₂ Posts rs' rs'') : Forall₂ Posts rs rs'' := by
  induction h generalizing rs'' with
  | nil => exact h'
  | cons hr _ ih =>
    cases h' with
    | cons hr' h' => exact .cons (hr.trans hr') (ih h')

theorem postPending_posts (ordering : Bool) (l : Lbl) :
    Forall₂ Posts l.requests (postPending ordering l).1.requests ∧
      SameLock l (postPending ordering l).1 := by
  unfold postPending
  split
  · exact ⟨forall₂_same.mpr fun _ _ => .refl _, rfl, rfl⟩
  · obtain ⟨hposts, hsame⟩ := postPendingLoop_posts ordering l.requests l
    refine ⟨?_, hsame⟩
    dsimp only
    split
    · exact forall₂_posts_trans hposts (markJustGranted_posts _)
    · exact hposts

theorem postPending_coherent (ordering : Bool) (h : Coherent l.requests l) :
    Coherent (postPending ordering l).1.requests (postPending ordering l).1 := by
  unfold postPending
  split
  · exact h
  · have hloop := postPendingLoop_coherent ordering [] l.requests l h
    dsimp only
    split
    · have := hloop.congr (markJustGranted_map _ (fun _ _ => rfl) _)
      exact ⟨this.counts, this.pending, this.state, this.compat, this.small⟩
    · exact ⟨hloop.counts, hloop.pending, hloop.state, hloop.compat, hloop.small⟩

end Firebird.Lock
