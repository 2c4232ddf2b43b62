import Firebird.Lock.Fair

/-!
# Requests, owners and waiting calls

Which request belongs to which owner, and which call waits for it: the requests on the locks are
exactly those on the queues of the owners, every pending request has a call that waits for it, and
a call that has left `wait_for_request` has a request that is not pending.
-/
namespace Firebird.Lock

open List Function

def Lrq.pair (r : Lrq) : RequestId × OwnerId := (r.id, r.owner)

/-- The requests `rs` become `rs'`: none comes or goes, and none gets pending. -/
structure Updates (rs rs' : List Lrq) : Prop where
  pairs : (rs'.map Lrq.pair).Perm (rs.map Lrq.pair)
  pending : ∀ r' ∈ rs', r'.pending = true → ∃ r ∈ rs, r.id = r'.id ∧ r.pending = true

namespace Updates

variable {rs rs₁ rs₂ rs' : List Lrq}

theorem of_perm (h : rs.Perm rs') : Updates rs rs' :=
  ⟨h.symm.map _, fun r hr hp => ⟨r, h.mem_iff.mpr hr, rfl, hp⟩⟩

theorem trans (h : Updates rs rs₁) (h' : Updates rs₁ rs') : Updates rs rs' := by
  refine ⟨h'.pairs.trans h.pairs, fun r' hr' hp => ?_⟩
  obtain ⟨r₁, hr₁, e₁, hp₁⟩ := h'.pending r' hr' hp
  obtain ⟨r, hr, e, hp⟩ := h.pending r₁ hr₁ hp₁
  exact ⟨r, hr, e.trans e₁, hp⟩

theorem append (h : Updates rs rs₁) (h' : Updates rs₂ rs') :
    Updates (rs ++ rs₂) (rs₁ ++ rs') := by
  refine ⟨by simpa using h.pairs.append h'.pairs, fun r hr hp => ?_⟩
  rcases mem_append.mp hr with hr | hr
  · obtain ⟨x, hx, e⟩ := h.pending r hr hp
    exact ⟨x, by simp [hx], e⟩
  · obtain ⟨x, hx, e⟩ := h'.pending r hr hp
    exact ⟨x, by simp [hx], e⟩

theorem of_posts (h : Forall₂ Posts rs rs') : Updates rs rs' := by
  induction h with
  | nil => exact of_perm .nil
  | @cons r r' _ _ hr _ ih =>
    have hhead : Updates [r] [r'] := by
      constructor
      · obtain ⟨j, rfl | ⟨-, rfl⟩⟩ := hr <;> exact Perm.refl _
      · simpa using fun hp => ⟨hr.id_eq.symm, hr.pending_imp hp⟩
    exact hhead.append ih

theorem of_map (h : rs'.map (fun r => (r.id, r.owner, r.pending)) =
    rs.map fun r => (r.id, r.owner, r.pending)) : Updates rs rs' := by
  constructor
  · have := congrArg (List.map fun p : RequestId × OwnerId × Bool => (p.1, p.2.1)) h
    simp only [map_map] at this
    exact .of_eq this
  · intro r' hr' hp
    have hmem : (r'.id, r'.owner, r'.pending) ∈ rs'.map fun r => (r.id, r.owner, r.pending) :=
      mem_map_of_mem hr'
    rw [h] at hmem
    obtain ⟨r, hr, e⟩ := mem_map.mp hmem
    simp only [Prod.mk.injEq] at e
    exact ⟨r, hr, e.1, e.2.2.trans hp⟩

theorem filter (h : Updates rs rs') (p : RequestId → Bool) :
    Updates (rs.filter fun r => p r.id) (rs'.filter fun r => p r.id) := by
  constructor
  · have := h.pairs.filter fun x => p x.1
    simpa [filter_map, comp_def, Lrq.pair] using this
  · intro r' hr' hp
    obtain ⟨hr', hid⟩ := mem_filter.mp hr'
    obtain ⟨r, hr, e, hp⟩ := h.pending r' hr' hp
    exact ⟨r, mem_filter.mpr ⟨hr, e ▸ hid⟩, e, hp⟩

theorem ids (h : Updates rs rs') : (rs'.map Lrq.id).Perm (rs.map Lrq.id) := by
  simpa [Lrq.pair, comp_def] using h.pairs.map Prod.fst

theorem forth (h : Updates rs rs') {r : Lrq} (hr : r ∈ rs) :
    ∃ r' ∈ rs', r'.id = r.id ∧ r'.owner = r.owner := by
  obtain ⟨r', hr', e⟩ := mem_map.mp (h.pairs.mem_iff.mpr (mem_map_of_mem hr))
  simp only [Lrq.pair, Prod.mk.injEq] at e
  exact ⟨r', hr', e⟩

theorem back (h : Updates rs rs') {r' : Lrq} (hr' : r' ∈ rs') :
    ∃ r ∈ rs, r.id = r'.id ∧ r.owner = r'.owner := by
  obtain ⟨r, hr, e⟩ := mem_map.mp (h.pairs.mem_iff.mp (mem_map_of_mem hr'))
  simp only [Lrq.pair, Prod.mk.injEq] at e
  exact ⟨r, hr, e⟩

end Updates

/-- The requests `rs` of all locks, the queues `qs` of the owners and the waiting calls `ws`. -/
structure Linked (rs : List Lrq) (qs : List (OwnerId × List RequestId)) (ws : List Wait) :
    Prop where
  ids : (rs.map Lrq.id).Nodup
  owners : (qs.map Prod.fst).Nodup
  queues : ∀ o q, (o, q) ∈ qs → ∀ id, id ∈ q ↔ ∃ r ∈ rs, r.id = id ∧ r.owner = o
  owned : ∀ r ∈ rs, ∃ q, (r.owner, q) ∈ qs
  waits : ∀ w ∈ ws, ∃ r ∈ rs, r.id = w.request ∧ r.owner = w.owner
  pending : ∀ r ∈ rs, r.pending = true → ∃ w ∈ ws, w.request = r.id
  left : ∀ w ∈ ws, w.left = true → ∀ r ∈ rs, r.id = w.request → r.pending = false

namespace Linked

variable {rs rs' : List Lrq} {qs : List (OwnerId × List RequestId)} {ws : List Wait}

theorem eq_of_id (h : Linked rs qs ws) {r r' : Lrq} (hr : r ∈ rs) (hr' : r' ∈ rs)
    (hid : r.id = r'.id) : r = r' :=
  inj_on_of_nodup_map h.ids hr hr' hid

theorem update (h : Linked rs qs ws) (hup : Updates rs rs') : Linked rs' qs ws := by
  refine ⟨hup.ids.nodup_iff.mpr h.ids, h.owners, ?_, ?_, ?_, ?_, ?_⟩
  · intro o q hq id
    rw [h.queues o q hq id]
    grind [hup.forth, hup.back]
  · intro r' hr'
    obtain ⟨r, hr, -, e⟩ := hup.back hr'
    exact e ▸ h.owned r hr
  · intro w hw
    obtain ⟨r, hr, e₁, e₂⟩ := h.waits w hw
    obtain ⟨r', hr', e₃, e₄⟩ := hup.forth hr
    exact ⟨r', hr', e₃.trans e₁, e₄.trans e₂⟩
  · intro r' hr' hp
    obtain ⟨r, hr, e, hp⟩ := hup.pending r' hr' hp
    exact e ▸ h.pending r hr hp
  · intro w hw hleft r' hr' hid
    by_contra hp
    obtain ⟨r, hr, e, hp⟩ := hup.pending r' hr' (by simpa using hp)
    simp [h.left w hw hleft r hr (e.trans hid)] at hp

theorem wait (h : Linked rs qs ws) (hpairs : (rs'.map Lrq.pair).Perm (rs.map Lrq.pair))
    {w : Wait} (hpend : ∀ r' ∈ rs', r'.pending = true →
      r'.id = w.request ∨ ∃ r ∈ rs, r.id = r'.id ∧ r.pending = true)
    (hreq : ∃ r ∈ rs, r.id = w.request ∧ r.owner = w.owner)
    (hidle : ∀ w' ∈ ws, w'.request ≠ w.request) (hleft : w.left = false) :
    Linked rs' qs (ws ++ [w]) := by
  -- First all flags of `w.request` are put aside.
  set rs₀ := rs'.map fun r => if r.id = w.request then { r with pending := false } else r with hrs₀
  have hpairs₀ : rs₀.map Lrq.pair = rs'.map Lrq.pair := by
    rw [hrs₀, map_map]
    refine map_congr_left fun r _ => ?_
    dsimp only [Function.comp]
    split <;> rfl
  have h₀ : Linked rs₀ qs ws := by
    refine h.update ⟨hpairs₀ ▸ hpairs, fun r₀ hr₀ hp => ?_⟩
    obtain ⟨r', hr', rfl⟩ := mem_map.mp hr₀
    by_cases e : r'.id = w.request
    · simp [e] at hp
    · simp only [e] at hp ⊢
      exact (hpend r' hr' hp).resolve_left e
  have hback : ∀ r' ∈ rs', ∃ r₀ ∈ rs₀, r₀.id = r'.id ∧ r₀.owner = r'.owner ∧
      (r'.id ≠ w.request → r₀ = r') := by
    intro r' hr'
    refine ⟨_, mem_map_of_mem hr', ?_, ?_, fun e => if_neg e⟩ <;> split <;> rfl
  have hids : rs'.map Lrq.id = rs₀.map Lrq.id := by
    simpa [Lrq.pair, comp_def] using (congrArg (List.map Prod.fst) hpairs₀).symm
  refine ⟨hids ▸ h₀.ids, h₀.owners, ?_, ?_, ?_, ?_, ?_⟩
  · intro o q hq id
    rw [h₀.queues o q hq id]
    grind
  · intro r' hr'
    obtain ⟨r, hr, -, e, -⟩ := hback r' hr'
    exact e ▸ h₀.owned r hr
  · intro w' hw'
    have hex : ∃ r ∈ rs, r.id = w'.request ∧ r.owner = w'.owner := by
      rcases mem_append.mp hw' with hw' | hw'
      · exact h.waits w' hw'
      · obtain rfl := mem_singleton.mp hw'
        exact hreq
    obtain ⟨r, hr, e₁, e₂⟩ := hex
    obtain ⟨r', hr', e⟩ := mem_map.mp (hpairs.mem_iff.mpr (mem_map_of_mem hr))
    simp only [Lrq.pair, Prod.mk.injEq] at e
    exact ⟨r', hr', e.1.trans e₁, e.2.trans e₂⟩
  · intro r' hr' hp
    by_cases e : r'.id = w.request
    · exact ⟨w, by simp, e.symm⟩
    · obtain ⟨r₀, hr₀, -, -, heq⟩ := hback r' hr'
      obtain rfl := heq e
      obtain ⟨w', hw', e'⟩ := h₀.pending r₀ hr₀ hp
      exact ⟨w', by simp [hw'], e'⟩
  · intro w' hw' hl r' hr' hid
    rcases mem_append.mp hw' with hw' | hw'
    · obtain ⟨r₀, hr₀, -, -, heq⟩ := hback r' hr'
      obtain rfl := heq (hid ▸ hidle w' hw')
      exact h₀.left w' hw' hl r₀ hr₀ hid
    · obtain rfl := mem_singleton.mp hw'
      rw [hleft] at hl
      cases hl

theorem removeWait (h : Linked rs qs ws) {id : RequestId}
    (hnot : ∀ r ∈ rs, r.id = id → r.pending = false) :
    Linked rs qs (ws.filter fun w => w.request ≠ id) := by
  refine ⟨h.ids, h.owners, h.queues, h.owned, fun w hw => h.waits w (mem_of_mem_filter hw), ?_,
    fun w hw => h.left w (mem_of_mem_filter hw)⟩
  intro r hr hp
  obtain ⟨w, hw, e⟩ := h.pending r hr hp
  refine ⟨w, mem_filter.mpr ⟨hw, ?_⟩, e⟩
  simp only [decide_eq_true_eq]
  intro e'
  simp [hnot r hr (e.symm.trans e')] at hp

theorem leave (h : Linked rs qs ws) {id : RequestId}
    (hnot : ∀ r ∈ rs, r.id = id → r.pending = false) :
    Linked rs qs (ws.map fun w => if w.request = id then { w with left := true } else w) := by
  refine ⟨h.ids, h.owners, h.queues, h.owned, ?_, ?_, ?_⟩
  · intro w' hw'
    obtain ⟨w, hw, rfl⟩ := mem_map.mp hw'
    split <;> exact h.waits w hw
  · intro r hr hp
    obtain ⟨w, hw, e⟩ := h.pending r hr hp
    exact ⟨_, mem_map_of_mem hw, by split <;> exact e⟩
  · intro w' hw' hl r hr hid
    obtain ⟨w, hw, rfl⟩ := mem_map.mp hw'
    split at hl
    · next e => exact hnot r hr (by rw [if_pos e] at hid; exact hid.trans e)
    · next e => exact h.left w hw hl r hr (by rw [if_neg e] at hid; exact hid)

theorem release {r : Lrq} (h : Linked (r :: rs) qs ws) (hidle : ∀ w ∈ ws, w.request ≠ r.id) :
    Linked rs (qs.map fun p => if p.1 = r.owner then (p.1, p.2.filter (· ≠ r.id)) else p) ws := by
  have hids := nodup_cons.mp h.ids
  refine ⟨hids.2, ?_, ?_, ?_, ?_, ?_, ?_⟩
  · rw [map_map]
    have : (Prod.fst ∘ fun p : OwnerId × List RequestId =>
        if p.1 = r.owner then (p.1, p.2.filter (· ≠ r.id)) else p) = Prod.fst := by
      funext p
      dsimp only [Function.comp]
      split <;> rfl
    rw [this]
    exact h.owners
  · intro o q hq id
    obtain ⟨⟨o', q'⟩, hp, e⟩ := mem_map.mp hq
    have hmem := h.queues o' q' hp id
    split at e
    · next ho =>
      cases e
      grind
    · next ho =>
      cases e
      grind
  · intro x hx
    obtain ⟨q, hq⟩ := h.owned x (by simp [hx])
    by_cases e : x.owner = r.owner
    · exact ⟨q.filter (· ≠ r.id), mem_map.mpr ⟨_, hq, by simp [e]⟩⟩
    · exact ⟨q, mem_map.mpr ⟨_, hq, by simp [e]⟩⟩
  · intro w hw
    obtain ⟨x, hx, e₁, e₂⟩ := h.waits w hw
    rcases mem_cons.mp hx with rfl | hx
    · exact absurd e₁.symm (hidle w hw)
    · exact ⟨x, hx, e₁, e₂⟩
  · exact fun x hx hp => h.pending x (by simp [hx]) hp
  · exact fun w hw hl x hx => h.left w hw hl x (by simp [hx])

theorem add (h : Linked rs qs ws) {r : Lrq} (hfresh : ∀ x ∈ rs, x.id ≠ r.id)
    (howner : ∃ q, (r.owner, q) ∈ qs) (hnot : r.pending = false) :
    Linked (r :: rs) (qs.map fun p => if p.1 = r.owner then (p.1, p.2 ++ [r.id]) else p) ws := by
  refine ⟨?_, ?_, ?_, ?_, ?_, ?_, ?_⟩
  · refine nodup_cons.mpr ⟨fun hm => ?_, h.ids⟩
    obtain ⟨x, hx, e⟩ := mem_map.mp hm
    exact hfresh x hx e
  · rw [map_map]
    have : (Prod.fst ∘ fun p : OwnerId × List RequestId =>
        if p.1 = r.owner then (p.1, p.2 ++ [r.id]) else p) = Prod.fst := by
      funext p
      dsimp only [Function.comp]
      split <;> rfl
    rw [this]
    exact h.owners
  · intro o q hq id
    obtain ⟨⟨o', q'⟩, hp, e⟩ := mem_map.mp hq
    have hmem := h.queues o' q' hp id
    split at e
    · next ho =>
      cases e
      grind
    · next ho =>
      cases e
      grind
  · intro x hx
    have hex : ∃ q, (x.owner, q) ∈ qs := by
      rcases mem_cons.mp hx with rfl | hx
      · exact howner
      · exact h.owned x hx
    obtain ⟨q, hq⟩ := hex
    by_cases e : x.owner = r.owner
    · exact ⟨q ++ [r.id], mem_map.mpr ⟨_, hq, by simp [e]⟩⟩
    · exact ⟨q, mem_map.mpr ⟨_, hq, by simp [e]⟩⟩
  · intro w hw
    obtain ⟨x, hx, e⟩ := h.waits w hw
    exact ⟨x, by simp [hx], e⟩
  · intro x hx hp
    rcases mem_cons.mp hx with rfl | hx
    · simp [hnot] at hp
    · exact h.pending x hx hp
  · intro w hw hl x hx hid
    rcases mem_cons.mp hx with rfl | hx
    · exact hnot
    · exact h.left w hw hl x hx hid

theorem newOwner (h : Linked rs qs ws) {o : OwnerId} (hne : ∀ p ∈ qs, p.1 ≠ o) :
    Linked rs (qs ++ [(o, [])]) ws := by
  refine ⟨h.ids, ?_, ?_, ?_, h.waits, h.pending, h.left⟩
  · rw [map_append, nodup_append]
    refine ⟨h.owners, by simp, ?_⟩
    simpa using fun o' q hq => hne (o', q) hq
  · intro o' q hq id
    rcases mem_append.mp hq with hq | hq
    · exact h.queues o' q hq id
    · obtain ⟨rfl, rfl⟩ : o' = o ∧ q = [] := by simpa using hq
      -- A request of the new owner would have had an owner before.
      refine ⟨fun hid => (by simp at hid), ?_⟩
      rintro ⟨r, hr, -, e⟩
      obtain ⟨q, hq⟩ := h.owned r hr
      exact absurd e (hne _ hq)
  · intro r hr
    obtain ⟨q, hq⟩ := h.owned r hr
    exact ⟨q, by simp [hq]⟩

theorem purge (h : Linked rs qs ws) (o : OwnerId) :
    Linked (rs.filter fun r => r.owner ≠ o) (qs.filter fun p => p.1 ≠ o)
      (ws.filter fun w => w.owner ≠ o) := by
  refine ⟨h.ids.sublist (filter_sublist.map _), h.owners.sublist (filter_sublist.map _),
    ?_, ?_, ?_, ?_, ?_⟩
  · intro o' q hq id
    have hmem := h.queues o' q (mem_of_mem_filter hq) id
    grind
  · intro r hr
    obtain ⟨q, hq⟩ := h.owned r (mem_of_mem_filter hr)
    exact ⟨q, by grind⟩
  · intro w hw
    obtain ⟨r, hr, e₁, e₂⟩ := h.waits w (mem_of_mem_filter hw)
    exact ⟨r, by grind, e₁, e₂⟩
  · intro r hr hp
    obtain ⟨w, hw, e⟩ := h.pending r (mem_of_mem_filter hr) hp
    obtain ⟨r', hr', e₁, e₂⟩ := h.waits w hw
    obtain rfl := h.eq_of_id hr' (mem_of_mem_filter hr) (e₁.trans e)
    exact ⟨w, by grind, e⟩
  · exact fun w hw hl r hr => h.left w (mem_of_mem_filter hw) hl r (mem_of_mem_filter hr)

end Linked

end Firebird.Lock
