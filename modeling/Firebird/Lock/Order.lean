import Firebird.Lock.Links

/-!
# No forgotten waiter

With lock ordering the first pending request of a lock can never be granted as things are, unless
a rejected request of that lock still waits for its call to clean up; and nobody overtakes a
pending request. The exception is `convert`, which grants a request at `LCK_none` without a look
at the queue.
-/
namespace Firebird.Lock

open List Function

def RejectedOn (ws : List Wait) (l : Lbl) : Prop :=
  ∃ r ∈ l.requests, r.rejected = true ∧ r.pending = false ∧ ∃ w ∈ ws, w.request = r.id

instance (ws : List Wait) (l : Lbl) : Decidable (RejectedOn ws l) :=
  inferInstanceAs (Decidable (∃ r ∈ l.requests, r.rejected = true ∧ r.pending = false ∧
    ∃ w ∈ ws, w.request = r.id))

structure Orderly (t : Table) : Prop where
  ok : LocksOk t.locks
  linked : Linked t.requests t.queues t.waits
  settled : ∀ l ∈ t.locks, FirstBlocked l ∨ RejectedOn t.waits l

/-- Nobody overtakes a pending request on the way from `t` to `t'`. -/
def KeepsOrder (t t' : Table) : Prop :=
  ∀ l ∈ t.locks, ∀ l' ∈ t'.locks, l'.id = l.id → NoOvertaking l.requests l'.requests

variable {id : RequestId} {t t' : Table}

theorem getRequest_none (h : t.getRequest id = none) : ∀ r ∈ t.requests, r.id ≠ id := by
  intro r hr e
  obtain ⟨l, hl, hr⟩ := mem_flatMap.mp hr
  have hfind := findSome?_eq_none_iff.mp h l hl
  rw [Option.map_eq_none_iff, Lbl.find, find?_eq_none] at hfind
  exact hfind r hr (by simpa using e)

variable {l l' : Lbl}

theorem mem_setLock {x : Lbl} (hx : x ∈ (t.setLock l').locks) :
    x = l' ∨ x ∈ t.locks ∧ x.id ≠ l'.id := by
  obtain ⟨y, hy, rfl⟩ := mem_map.mp hx
  split
  · exact .inl rfl
  · next e => exact .inr ⟨hy, e⟩

theorem setLock_setLock (t : Table) (hid : l'.id = l.id) :
    (t.setLock l).setLock l' = t.setLock l' := by
  simp only [Table.setLock, map_map]
  congr 1
  refine map_congr_left fun x _ => ?_
  by_cases e : x.id = l.id <;> simp [e, hid]

theorem LocksOk.requests_perm (h : LocksOk t.locks) (hl : l ∈ t.locks) :
    ∃ rest, t.requests.Perm (l.requests ++ rest) ∧ (t.removeLock l.id).requests.Perm rest ∧
      ∀ l', l'.id = l.id → (t.setLock l').requests.Perm (l'.requests ++ rest) := by
  obtain ⟨pre, post, hsplit⟩ := append_of_mem hl
  have hpair := h.distinct
  rw [hsplit, pairwise_append, pairwise_cons] at hpair
  obtain ⟨-, ⟨hpost, -⟩, hpre⟩ := hpair
  have hpre' : ∀ x ∈ pre, x.id ≠ l.id := fun x hx => (hpre x hx l (by simp)).1
  have hpost' : ∀ x ∈ post, x.id ≠ l.id := fun x hx => (hpost x hx).1.symm
  have hmid : ∀ l' : Lbl, ((pre ++ l' :: post).flatMap Lbl.requests).Perm
      (l'.requests ++ (pre ++ post).flatMap Lbl.requests) := fun l' =>
    perm_middle.flatMap_right _
  refine ⟨(pre ++ post).flatMap Lbl.requests, ?_, ?_, fun l' hid => ?_⟩
  · rw [Table.requests, hsplit]
    exact hmid l
  · rw [Table.requests, Table.removeLock, hsplit]
    simp only [filter_append, filter_cons, ne_eq, not_true_eq_false, decide_false,
      Bool.false_eq_true, if_false]
    rw [filter_eq_self.mpr (by simpa using hpre'), filter_eq_self.mpr (by simpa using hpost')]
  · rw [Table.requests, Table.setLock, hsplit]
    simp only [map_append, map_cons, if_pos hid.symm]
    have hkeep : ∀ ls : List Lbl, (∀ x ∈ ls, x.id ≠ l.id) →
        ls.map (fun x => if x.id = l'.id then l' else x) = ls := fun ls hls =>
      (map_congr_left fun x hx => if_neg (hid ▸ hls x hx)).trans (map_id _)
    rw [hkeep pre hpre', hkeep post hpost']
    exact hmid l'

theorem LocksOk.setLock_updates (h : LocksOk t.locks) (hl : l ∈ t.locks)
    (hsame : SameLock l l') (hup : Updates l.requests l'.requests) :
    Updates t.requests (t.setLock l').requests := by
  obtain ⟨rest, hperm, -, hset⟩ := h.requests_perm hl
  exact (Updates.of_perm hperm).trans ((hup.append (.of_perm .rfl)).trans
    (.of_perm (hset l' hsame.1).symm))

variable {r : Lrq}

theorem LocksOk.eq_of_request (h : LocksOk t.locks)
    (hids : (t.requests.map Lrq.id).Nodup) {r' : Lrq} (hl : l ∈ t.locks)
    (hl' : l' ∈ t.locks) (hr : r ∈ l.requests) (hr' : r' ∈ l'.requests) (hid : r.id = r'.id) :
    l.id = l'.id := by
  by_contra hne
  obtain ⟨rest, hperm, hremove, -⟩ := h.requests_perm hl'
  have hnodup := (hperm.map Lrq.id).nodup_iff.mp hids
  rw [map_append, nodup_append] at hnodup
  have hrest : r ∈ rest := hremove.mem_iff.mp
    (mem_requests (mem_filter.mpr ⟨hl, by simpa using hne⟩) hr)
  exact hnodup.2.2 r'.id (mem_map_of_mem hr') r.id (mem_map_of_mem hrest) hid.symm

theorem releaseRequest_updates (ordering : Bool) (id : RequestId)
    (h : LocksOk t.locks) (hids : (t.requests.map Lrq.id).Nodup) :
    Updates (t.requests.filter fun r => r.id ≠ id) (releaseRequest ordering id t).requests := by
  unfold releaseRequest
  split
  · next hget =>
    rw [filter_eq_self.mpr (by simpa using getRequest_none hget)]
    exact .of_perm .rfl
  · next l r hget =>
    obtain ⟨hl, hr, rfl⟩ := getRequest_mem hget
    obtain ⟨rest, hperm, hremove, hset⟩ := h.requests_perm hl
    have hrest : rest.filter (fun x => x.id ≠ r.id) = rest := by
      have hnodup := (hperm.map Lrq.id).nodup_iff.mp hids
      rw [map_append, nodup_append] at hnodup
      refine filter_eq_self.mpr fun x hx => ?_
      simpa using (hnodup.2.2 r.id (mem_map_of_mem hr) x.id (mem_map_of_mem hx)).symm
    have hfilter : (t.requests.filter fun x => x.id ≠ r.id).Perm
        ((l.removeRequest r.id).requests ++ rest) := by
      have := hperm.filter fun x => x.id ≠ r.id
      rwa [filter_append, hrest] at this
    refine (Updates.of_perm hfilter).trans ?_
    dsimp only
    split
    · next hnone =>
      unfold releaseFromLock at hnone
      split_ifs at hnone with hempty
      change (l.removeRequest r.id).requests = [] at hempty
      rw [hempty, nil_append]
      exact .of_perm hremove.symm
    · next l' woken hsome =>
      obtain rfl := releaseFromLock_some hsome
      have hposts := (postPending_posts ordering (dropLevel r.state (unlinkRequest r l))).1
      rw [dropLevel_requests] at hposts
      have hid : (postPending ordering (dropLevel r.state (unlinkRequest r l))).1.id = l.id :=
        (postPending_posts ordering _).2.1.trans (dropLevel_sameLock _ _).1
      exact ((Updates.of_posts hposts).append (.of_perm .rfl)).trans
        (.of_perm (hset _ hid).symm)

def Released (t : Table) (ids : List RequestId) (l' : Lbl) : Prop :=
  (l' ∈ t.locks ∧ ∀ r ∈ l'.requests, r.id ∉ ids) ∨
    ∃ l ∈ t.locks, SameLock l l' ∧ FirstBlocked l' ∧ Serves false l.requests l'.requests

theorem releaseRequest_locks (id : RequestId) (h : LocksOk t.locks)
    (hids : (t.requests.map Lrq.id).Nodup) :
    ∀ l' ∈ (releaseRequest true id t).locks, Released t [id] l' := by
  intro l' hl'
  unfold releaseRequest at hl'
  split at hl'
  · next hget =>
    refine .inl ⟨hl', fun r hr => ?_⟩
    simpa using getRequest_none hget r (mem_requests hl' hr)
  · next l r hget =>
    obtain ⟨hl, hr, rfl⟩ := getRequest_mem hget
    -- The request is on no other lock.
    have hother : ∀ x ∈ t.locks, x.id ≠ l.id → ∀ r' ∈ x.requests, r'.id ∉ [r.id] := by
      intro x hx hne r' hr' e
      exact hne (h.eq_of_request hids hx hl hr' hr (mem_singleton.mp e))
    dsimp only at hl'
    split at hl'
    · obtain ⟨hx, hne⟩ := mem_filter.mp hl'
      exact .inl ⟨hx, hother l' hx (by simpa using hne)⟩
    · next l₁ woken hrel =>
      have hsame := ((h.ok l hl).release hr hrel).2
      rcases mem_setLock hl' with rfl | ⟨hx, hne⟩
      · obtain rfl := releaseFromLock_some hrel
        have hposted := postPending_postedFrom ((h.ok l hl).unlink hr)
        refine .inr ⟨l, hl, hsame, hposted.firstBlocked, ?_⟩
        rw [dropLevel_requests] at hposted
        have hfilter : Serves false l.requests (unlinkRequest r l).requests := .filter _ _ _
        exact hfilter.trans hposted.serves id
      · exact .inl ⟨hx, hother l' hx (hsame.1 ▸ hne)⟩

theorem Released.keepsOrder {ids : List RequestId} (h : LocksOk t.locks)
    (hrel : ∀ l' ∈ t'.locks, Released t ids l') : KeepsOrder t t' := by
  intro l hl l' hl' hid
  obtain ⟨hx, -⟩ | ⟨l₀, hl₀, hsame, -, hserves⟩ := hrel l' hl'
  · obtain rfl := h.eq_of_id hx hl hid
    exact (Serves.refl false _).overtakes_nobody
  · obtain rfl := h.eq_of_id hl₀ hl (hsame.1.symm.trans hid)
    exact hserves.overtakes_nobody

theorem releaseRequest_none (ordering : Bool)
    (hget : t.getRequest id = none) : releaseRequest ordering id t = t := by
  unfold releaseRequest
  rw [hget]

theorem releaseRequest_waits (ordering : Bool) (id : RequestId) (t : Table) :
    (releaseRequest ordering id t).waits = t.waits := by
  unfold releaseRequest
  split
  · rfl
  · dsimp only
    split <;> rfl

theorem releaseRequest_queues (ordering : Bool)
    (hget : t.getRequest id = some (l, r)) : (releaseRequest ordering id t).queues =
      t.queues.map fun p => if p.1 = r.owner then (p.1, p.2.filter (· ≠ id)) else p := by
  have hmod := modifyOwner_queues (t := t) r.owner (fun o =>
    { o with
      requests := o.requests.filter (· ≠ id)
      blocks := if r.blocking then o.blocks.filter (· ≠ id) else o.blocks })
    (fun _ => rfl) (fun q => q.filter (· ≠ id)) (fun _ => rfl)
  unfold releaseRequest
  rw [hget]
  dsimp only
  split
  · exact hmod
  · rw [postWakeup_queues]
    exact hmod

theorem perm_cons_filter {rs : List Lrq} (hids : (rs.map Lrq.id).Nodup) (hr : r ∈ rs) :
    rs.Perm (r :: rs.filter fun x => x.id ≠ r.id) := by
  obtain ⟨pre, post, rfl⟩ := append_of_mem hr
  rw [map_append, map_cons, nodup_append, nodup_cons] at hids
  have hpre : pre.filter (fun x => x.id ≠ r.id) = pre := filter_eq_self.mpr fun x hx => by
    simpa using hids.2.2 x.id (mem_map_of_mem hx) r.id (by simp)
  have hpost : post.filter (fun x => x.id ≠ r.id) = post := filter_eq_self.mpr fun x hx => by
    have hne : x.id ≠ r.id := fun e => hids.2.1.1 (e ▸ mem_map_of_mem hx)
    simpa using hne
  rw [filter_append, filter_cons_of_neg (by simp), hpre, hpost]
  exact perm_middle

theorem releaseRequest_orderly (hok : LocksOk t.locks)
    (hlinked : Linked t.requests t.queues t.waits)
    (hsettled : ∀ l ∈ t.locks, (∀ r ∈ l.requests, r.id ≠ id) →
      FirstBlocked l ∨ RejectedOn t.waits l)
    (hidle : ∀ w ∈ t.waits, w.request ≠ id) :
    Orderly (releaseRequest true id t) ∧ KeepsOrder t (releaseRequest true id t) := by
  have hlocks := releaseRequest_locks id hok hlinked.ids
  refine ⟨⟨releaseRequest_ok true id hok, ?_, ?_⟩, Released.keepsOrder hok hlocks⟩
  · rw [releaseRequest_waits]
    cases hget : t.getRequest id with
    | none =>
      rw [releaseRequest_none true hget]
      exact hlinked
    | some p =>
      obtain ⟨l, r⟩ := p
      obtain ⟨hl, hr, rfl⟩ := getRequest_mem hget
      rw [releaseRequest_queues true hget]
      have hperm := perm_cons_filter hlinked.ids (mem_requests hl hr)
      exact ((hlinked.update (.of_perm hperm)).release hidle).update
        (releaseRequest_updates true r.id hok hlinked.ids)
  · intro l' hl'
    rw [releaseRequest_waits]
    obtain ⟨hx, hno⟩ | ⟨l, -, -, hblocked, -⟩ := hlocks l' hl'
    · exact hsettled l' hx (by simpa using hno)
    · exact .inl hblocked

variable {o : OwnerId}

theorem releaseAll_spec (ids : List RequestId) (h : LocksOk t.locks)
    (hids : (t.requests.map Lrq.id).Nodup)
    (howner : ∀ r ∈ t.requests, r.id ∈ ids → r.owner = o) :
    Updates (t.requests.filter fun r => r.id ∉ ids)
        (ids.foldl (fun t r => releaseRequest true r t) t).requests ∧
      (∀ l' ∈ (ids.foldl (fun t r => releaseRequest true r t) t).locks, Released t ids l') ∧
      (ids.foldl (fun t r => releaseRequest true r t) t).waits = t.waits ∧
      (ids.foldl (fun t r => releaseRequest true r t) t).queues.filter (fun p => p.1 ≠ o) =
        t.queues.filter fun p => p.1 ≠ o := by
  induction ids generalizing t with
  | nil => exact ⟨.of_perm (by simp), fun l' hl' => .inl ⟨hl', by simp⟩, rfl, rfl⟩
  | cons i ids ih =>
    have hup := releaseRequest_updates true i h hids
    have hlocks := releaseRequest_locks i h hids
    have hids₁ : ((releaseRequest true i t).requests.map Lrq.id).Nodup :=
      hup.ids.nodup_iff.mpr (hids.sublist (filter_sublist.map _))
    have howner₁ : ∀ r ∈ (releaseRequest true i t).requests, r.id ∈ ids → r.owner = o := by
      intro r hr hid
      obtain ⟨x, hx, e₁, e₂⟩ := hup.back hr
      exact e₂ ▸ howner x (mem_of_mem_filter hx) (by simp [e₁, hid])
    obtain ⟨ih₁, ih₂, ih₃, ih₄⟩ := ih (releaseRequest_ok true i h) hids₁ howner₁
    refine ⟨?_, ?_, ih₃.trans (releaseRequest_waits true i t), ih₄.trans ?_⟩
    · have hfilter := hup.filter fun id => id ∉ ids
      rw [filter_filter] at hfilter
      refine .trans (.of_perm (.of_eq ?_)) (hfilter.trans ih₁)
      exact filter_congr fun r _ => by simp [Bool.and_comm]
    · intro l' hl'
      obtain ⟨hx, hno⟩ | ⟨l₁, hl₁, hsame, hblocked, hserves⟩ := ih₂ l' hl'
      · obtain ⟨hx, hno'⟩ | hposted := hlocks l' hx
        · exact .inl ⟨hx, fun r hr => by simpa using ⟨by simpa using hno' r hr, hno r hr⟩⟩
        · exact .inr hposted
      · obtain ⟨hx, -⟩ | ⟨l, hl, hsame', -, hserves'⟩ := hlocks l₁ hl₁
        · exact .inr ⟨l₁, hx, hsame, hblocked, hserves⟩
        · exact .inr ⟨l, hl, hsame'.trans hsame, hblocked, hserves'.trans hserves id⟩
    · cases hget : t.getRequest i with
      | none =>
        rw [releaseRequest_none true hget]
      | some p =>
        obtain ⟨l, r⟩ := p
        obtain ⟨hl, hr, rfl⟩ := getRequest_mem hget
        rw [releaseRequest_queues true hget, howner r (mem_requests hl hr) (by simp)]
        clear * -
        induction t.queues with
        | nil => rfl
        | cons p ps ih => by_cases e : p.1 = o <;> simp_all

theorem purgeOwner_orderly (h : Orderly t) :
    Orderly (purgeOwner true o t) ∧ KeepsOrder t (purgeOwner true o t) := by
  cases hget : t.getOwner o with
  | none =>
    have : purgeOwner true o t = t := by
      unfold purgeOwner
      rw [hget]
    rw [this]
    refine ⟨h, fun l hl l' hl' hid => ?_⟩
    obtain rfl := h.ok.eq_of_id hl' hl hid
    exact (Serves.refl false _).overtakes_nobody
  | some owner =>
    have hown : owner ∈ t.owners ∧ owner.id = o :=
      ⟨mem_of_find?_eq_some hget, by simpa using find?_some hget⟩
    have hqueue : (o, owner.requests) ∈ t.queues := mem_map.mpr ⟨owner, hown.1, by simp [hown.2]⟩
    have hmem : ∀ r ∈ t.requests, r.id ∈ owner.requests ↔ r.owner = o := by
      intro r hr
      rw [h.linked.queues o owner.requests hqueue]
      constructor
      · rintro ⟨x, hx, e, ho⟩
        exact h.linked.eq_of_id hx hr e ▸ ho
      · exact fun ho => ⟨r, hr, rfl, ho⟩
    obtain ⟨hup, hlocks, hwaits, hqueues⟩ :=
      releaseAll_spec owner.requests h.ok h.linked.ids fun r hr => (hmem r hr).mp
    set t₁ := owner.requests.foldl (fun t r => releaseRequest true r t) t with ht₁
    have hpurge : purgeOwner true o t =
        { t₁ with
          owners := t₁.owners.filter fun o' => o'.id ≠ o
          waits := t₁.waits.filter fun w => w.owner ≠ o } := by
      unfold purgeOwner
      rw [hget]
    have hlocks' : (purgeOwner true o t).locks = t₁.locks := by rw [hpurge]
    refine ⟨⟨purgeOwner_ok true o h.ok, ?_, ?_⟩, Released.keepsOrder h.ok (hlocks' ▸ hlocks)⟩
    · have hq : (purgeOwner true o t).queues = t.queues.filter fun p => p.1 ≠ o := by
        rw [hpurge, ← hqueues]
        simp [Table.queues, filter_map, comp_def]
      have hw : (purgeOwner true o t).waits = t.waits.filter fun w => w.owner ≠ o := by
        rw [hpurge, ← hwaits]
      rw [hq, hw]
      refine (h.linked.purge o).update ?_
      have hfilter : (t.requests.filter fun r => r.id ∉ owner.requests) =
          t.requests.filter fun r => r.owner ≠ o :=
        filter_congr fun r hr => by simp [hmem r hr]
      rw [← hfilter, hpurge]
      exact hup
    · intro l' hl'
      rw [hlocks'] at hl'
      obtain ⟨hx, hno⟩ | ⟨l, -, -, hblocked, -⟩ := hlocks l' hl'
      · refine (h.settled l' hx).imp_right ?_
        rintro ⟨r, hr, hrej, hp, w, hw, e⟩
        -- The call is one of another owner: the purged one has no request on this lock.
        obtain ⟨x, hx', e₁, e₂⟩ := h.linked.waits w hw
        obtain rfl := h.linked.eq_of_id hx' (mem_requests hx hr) (e₁.trans e)
        have hne : w.owner ≠ o := fun e' =>
          hno x hr ((hmem x (mem_requests hx hr)).mpr (e₂.trans e'))
        refine ⟨x, hr, hrej, hp, w, ?_, e⟩
        rw [hpurge]
        exact mem_filter.mpr ⟨hwaits ▸ hw, by simpa using hne⟩
      · exact .inl hblocked

/-! ## Changes that nobody waits for -/

/-- What of a request matters to the order of the queue. -/
structure Core where
  id : RequestId
  owner : OwnerId
  state : Level
  pending : Bool
  rejected : Bool
  claim : Option (Level × Level)

def Lrq.core (r : Lrq) : Core := ⟨r.id, r.owner, r.state, r.pending, r.rejected, r.claim⟩

/-- The lock changes in the level a request not pending once asked for, or in other flags. -/
structure Touches (l l' : Lbl) : Prop where
  same : SameLock l l'
  counts : l'.counts = l.counts
  requests : l'.requests.map Lrq.core = l.requests.map Lrq.core

namespace Touches

variable {l l' : Lbl}

theorem refl (l : Lbl) : Touches l l := ⟨⟨rfl, rfl⟩, rfl, rfl⟩

theorem modify (l : Lbl) (id : RequestId) (f : Lrq → Lrq)
    (hf : ∀ r ∈ l.requests, r.id = id → (f r).core = r.core) :
    Touches l (l.modifyRequest id f) := by
  refine ⟨⟨rfl, rfl⟩, rfl, ?_⟩
  rw [Lbl.modifyRequest, map_map]
  refine map_congr_left fun r hr => ?_
  dsimp only [Function.comp]
  split
  · next e => exact hf r hr e
  · rfl

theorem updates (h : Touches l l') : Updates l.requests l'.requests := by
  refine .of_map ?_
  have := congrArg (List.map fun c : Core => (c.id, c.owner, c.pending)) h.requests
  simpa only [map_map, comp_def, Lrq.core] using this

theorem firstBlocked (h : Touches l l') (hb : FirstBlocked l) : FirstBlocked l' := by
  refine hb.congr ?_ h.counts
  have := congrArg (List.filterMap Core.claim) h.requests
  simpa only [filterMap_map, comp_def, Lrq.core] using this

theorem back (h : Touches l l') {r' : Lrq} (hr' : r' ∈ l'.requests) :
    ∃ r ∈ l.requests, r.core = r'.core :=
  mem_map.mp (h.requests ▸ mem_map_of_mem hr')

theorem forth (h : Touches l l') {r : Lrq} (hr : r ∈ l.requests) :
    ∃ r' ∈ l'.requests, r'.core = r.core :=
  mem_map.mp (h.requests.symm ▸ mem_map_of_mem hr)

theorem rejectedOn (h : Touches l l') {ws : List Wait} (hrej : RejectedOn ws l) :
    RejectedOn ws l' := by
  obtain ⟨r, hr, hrej, hp, w, hw, e⟩ := hrej
  obtain ⟨r', hr', hcore⟩ := h.forth hr
  simp only [Lrq.core, Core.mk.injEq] at hcore
  exact ⟨r', hr', by simp [hcore, hrej], by simp [hcore, hp], w, hw, by simp [hcore, e]⟩

theorem noOvertaking (h : Touches l l') {rs : List Lrq} (ho : NoOvertaking rs l.requests) :
    NoOvertaking rs l'.requests := by
  have hmap : (l.requests.map Lrq.core).Pairwise fun p r : Core => p.pending = true →
      (∃ x ∈ rs, x.id = p.id ∧ x.pending = true) → r.state.rank > Level.null.rank →
        ∃ x ∈ rs, x.id = r.id ∧ x.state ≠ .none := pairwise_map.mpr ho
  rw [← h.requests] at hmap
  exact pairwise_map.mp hmap

theorem noOvertaking_left (h : Touches l l') {rs : List Lrq} (ho : NoOvertaking l'.requests rs) :
    NoOvertaking l.requests rs := by
  refine Pairwise.imp (fun {p' r'} hpr hp' hex hlevel => ?_) ho
  obtain ⟨p, hp, e, hpend⟩ := hex
  obtain ⟨p₁, hp₁, hcore⟩ := h.forth hp
  simp only [Lrq.core, Core.mk.injEq] at hcore
  obtain ⟨r₁, hr₁, e₁, hne⟩ := hpr hp' ⟨p₁, hp₁, hcore.1.trans e, hcore.2.2.2.1.trans hpend⟩ hlevel
  obtain ⟨r, hr, hcore⟩ := h.back hr₁
  simp only [Lrq.core, Core.mk.injEq] at hcore
  exact ⟨r, hr, hcore.1.trans e₁, hcore.2.2.1 ▸ hne⟩

end Touches

theorem KeepsOrder.refl (h : LocksOk t.locks) : KeepsOrder t t := by
  intro l hl l' hl' hid
  obtain rfl := h.eq_of_id hl' hl hid
  exact (Serves.refl false _).overtakes_nobody

/-- Tables that differ in locks that are touched, and in owners but not their queues. -/
structure TouchesAll (t t' : Table) : Prop where
  locks : List.Forall₂ Touches t.locks t'.locks
  queues : t'.queues = t.queues
  waits : t'.waits = t.waits

namespace TouchesAll

variable {t t' : Table}

theorem of_locks (hlocks : t'.locks = t.locks) (hqueues : t'.queues = t.queues)
    (hwaits : t'.waits = t.waits) : TouchesAll t t' :=
  ⟨hlocks ▸ forall₂_same.mpr fun _ _ => .refl _, hqueues, hwaits⟩

theorem setLock (h : LocksOk t.locks) {l l' : Lbl} (hl : l ∈ t.locks) (ht : Touches l l') :
    TouchesAll t (t.setLock l') := by
  refine ⟨?_, rfl, rfl⟩
  rw [Table.setLock, forall₂_map_right_iff, forall₂_same]
  intro x hx
  split
  · next e =>
    obtain rfl := h.eq_of_id hx hl (e.trans ht.same.1)
    exact ht
  · exact .refl x

theorem trans {t'' : Table} (h : TouchesAll t t') (hl : t''.locks = t'.locks)
    (hq : t''.queues = t'.queues) (hw : t''.waits = t'.waits) : TouchesAll t t'' :=
  ⟨hl ▸ h.locks, hq.trans h.queues, hw.trans h.waits⟩

theorem back (h : TouchesAll t t') {l' : Lbl} (hl' : l' ∈ t'.locks) :
    ∃ l ∈ t.locks, Touches l l' := by
  have := h.locks
  generalize t.locks = ls at this ⊢
  generalize t'.locks = ls' at this hl'
  induction this with
  | nil => simp at hl'
  | cons hhead _ ih =>
    rcases mem_cons.mp hl' with rfl | hl'
    · exact ⟨_, by simp, hhead⟩
    · obtain ⟨l, hl, ht⟩ := ih hl'
      exact ⟨l, by simp [hl], ht⟩

theorem forth (h : TouchesAll t t') {l : Lbl} (hl : l ∈ t.locks) :
    ∃ l' ∈ t'.locks, Touches l l' := by
  have := h.locks
  generalize t.locks = ls at this hl
  generalize t'.locks = ls' at this ⊢
  induction this with
  | nil => simp at hl
  | cons hhead _ ih =>
    rcases mem_cons.mp hl with rfl | hl
    · exact ⟨_, by simp, hhead⟩
    · obtain ⟨l, hl, ht⟩ := ih hl
      exact ⟨l, by simp [hl], ht⟩

theorem updates (h : TouchesAll t t') : Updates t.requests t'.requests := by
  have hlocks := h.locks
  unfold Table.requests
  generalize t.locks = ls, t'.locks = ls' at hlocks
  induction hlocks with
  | nil => exact .of_perm .rfl
  | cons hhead _ ih =>
    rw [flatMap_cons, flatMap_cons]
    exact hhead.updates.append ih

theorem orderly (h : TouchesAll t t') (ht : Orderly t) (hok : LocksOk t'.locks) : Orderly t' := by
  refine ⟨hok, ?_, fun l' hl' => ?_⟩
  · rw [h.queues, h.waits]
    exact ht.linked.update h.updates
  · obtain ⟨l, hl, htouch⟩ := h.back hl'
    rw [h.waits]
    exact (ht.settled l hl).imp htouch.firstBlocked htouch.rejectedOn

theorem keepsOrder {t₀ : Table} (h : TouchesAll t t') (ho : KeepsOrder t₀ t) :
    KeepsOrder t₀ t' := by
  intro l hl l' hl' hid
  obtain ⟨l₁, hl₁, htouch⟩ := h.back hl'
  exact htouch.noOvertaking (ho l hl l₁ hl₁ (htouch.same.1.symm.trans hid))

theorem keepsOrder_left {t'' : Table} (h : TouchesAll t t')
    (ho : KeepsOrder t' t'') : KeepsOrder t t'' := by
  intro l hl l'' hl'' hid
  obtain ⟨l', hl', htouch⟩ := h.forth hl
  exact htouch.noOvertaking_left (ho l' hl' l'' hl'' (hid.trans htouch.same.1.symm))

end TouchesAll

theorem postBlockage_touches (id : RequestId) (h : LocksOk t.locks) :
    TouchesAll t (postBlockage id t) := by
  unfold postBlockage
  split
  · exact .of_locks rfl rfl rfl
  · next l r hget =>
    obtain ⟨hl, -, -⟩ := getRequest_mem hget
    have htouch : Touches l { l with requests := (postBlockageLoop r l.requests).requests } :=
      ⟨⟨rfl, rfl⟩, rfl, postBlockageLoop_map r _ (fun _ _ _ _ => rfl) _⟩
    refine (TouchesAll.setLock h hl htouch).trans rfl ?_ rfl
    simp [Table.queues]

theorem blockingAction2_touches (id : OwnerId) (h : LocksOk t.locks) :
    TouchesAll t (blockingAction2 id t) := by
  unfold blockingAction2
  split
  · exact .of_locks rfl rfl rfl
  · split
    · exact .of_locks rfl (modifyOwner_queues_eq _ _ (fun _ => rfl) fun _ => rfl) rfl
    · next b bs _ =>
      set t₁ := t.modifyOwner id fun o => { o with blocks := bs } with ht₁
      have htouch : TouchesAll t t₁ :=
        .of_locks rfl (modifyOwner_queues_eq _ _ (fun _ => rfl) fun _ => rfl) rfl
      dsimp only
      split
      · exact htouch
      · next l r hget =>
        obtain ⟨hl, -, -⟩ := getRequest_mem hget
        split
        · have hset : TouchesAll t₁ (t₁.setLock (l.modifyRequest b fun r =>
              { r with blocking := false, blockingSeen := true })) :=
            TouchesAll.setLock (t := t₁) h hl (.modify l b _ fun _ _ _ => rfl)
          exact ⟨hset.locks, hset.queues.trans htouch.queues, hset.waits.trans htouch.waits⟩
        · exact htouch

theorem removeRequest_modifyRequest (l : Lbl) (id : RequestId) (f : Lrq → Lrq)
    (hf : ∀ r ∈ l.requests, r.id = id → (f r).id = id) :
    ((l.modifyRequest id f).removeRequest id).requests = (l.removeRequest id).requests := by
  simp only [Lbl.removeRequest, Lbl.modifyRequest, filter_map]
  have hcomp : l.requests.filter ((fun r : Lrq => decide (r.id ≠ id)) ∘
      fun r => if r.id = id then f r else r) = l.requests.filter fun r => decide (r.id ≠ id) := by
    refine filter_congr fun r hr => ?_
    dsimp only [Function.comp]
    split
    · next e => simp [e, hf r hr e]
    · rfl
  rw [hcomp]
  refine (map_congr_left fun r hr => if_neg ?_).trans (map_id _)
  simpa using (mem_filter.mp hr).2

theorem queueRequest_requests (h : LockOk l) (hr : r ∈ l.requests) :
    ∃ pre post, l.requests.Perm (pre ++ r :: post) ∧
      l.requests.filter (fun x => x.id ≠ r.id) = pre ++ post ∧
      (queueRequest true r l).requests = pre ++ r.waiting :: post ∧
      (r.state = .none → post = []) := by
  obtain ⟨pre, post, hsplit, hmod, hremove⟩ := h.split hr
  have hfilter : l.requests.filter (fun x => x.id ≠ r.id) = pre ++ post := hremove
  by_cases hnone : r.state = .none
  · refine ⟨pre ++ post, [], ?_, by simpa using hfilter, ?_, fun _ => rfl⟩
    · rw [hsplit]
      exact perm_middle.trans (perm_append_singleton _ _).symm
    · have hqueue : (queueRequest true r l).requests =
          ((l.modifyRequest r.id fun _ => r.waiting).removeRequest r.id).requests ++
            [r.waiting] := by
        simp [queueRequest, hnone, Lbl.removeRequest]
      rw [hqueue, removeRequest_modifyRequest l r.id (fun _ => r.waiting) fun _ _ _ => rfl, hremove]
  · refine ⟨pre, post, .of_eq hsplit, hfilter, ?_, fun e => absurd e hnone⟩
    rw [← hmod fun _ => r.waiting]
    simp [queueRequest, hnone]

theorem queueRequest_counts (ordering : Bool) (r : Lrq) (l : Lbl) :
    (queueRequest ordering r l).counts = l.counts := by
  unfold queueRequest
  dsimp only
  split <;> rfl

theorem queueRequest_firstBlocked (h : LockOk l) (hr : r ∈ l.requests)
    (hnot : r.pending = false) (hb : FirstBlocked l)
    (hblock : compatible r.requested (lockState (l.decCount r.state)) = false ∨
      r.state = .none ∧ ∃ p ∈ l.requests, p.pending = true) :
    FirstBlocked (queueRequest true r l) := by
  obtain ⟨pre, post, -, hfilter, hqueue, htail⟩ := queueRequest_requests h hr
  have hclaims : l.requests.filterMap Lrq.claim = (pre ++ post).filterMap Lrq.claim := by
    rw [← hfilter, filterMap_filter]
    refine filterMap_congr fun x hx => ?_
    split
    · rfl
    · next e =>
      obtain rfl : x = r := inj_on_of_nodup_map h.ids hx hr (by simpa using e)
      simp [Lrq.claim, hnot]
  rw [firstBlocked_iff, ← head?_filterMap] at hb ⊢
  intro c hc
  rw [lockState_decCount_congr (queueRequest_counts true r l)]
  rw [hclaims, filterMap_append] at hb
  rw [hqueue, filterMap_append, filterMap_cons_some (by rfl)] at hc
  cases hpre : pre.filterMap Lrq.claim with
  | cons a as =>
    rw [hpre] at hc hb
    exact hb c hc
  | nil =>
    rw [hpre] at hc
    obtain rfl : (r.requested, r.state) = c := by simpa [Lrq.waiting] using hc
    rcases hblock with hblock | ⟨hnone, p, hp, hpend⟩
    · exact hblock
    · have hmem : (p.requested, p.state) ∈ l.requests.filterMap Lrq.claim :=
        mem_filterMap.mpr ⟨p, hp, by simp [Lrq.claim, hpend]⟩
      rw [hclaims, htail hnone, append_nil, hpre] at hmem
      cases hmem

theorem waitForRequest_orderly (caller : Caller) (lckWait : Int)
    (h : Orderly t) (hl : l ∈ t.locks) (hr : r ∈ l.requests) (hnot : r.pending = false)
    (hidle : ∀ w ∈ t.waits, w.request ≠ r.id)
    (hblock : compatible r.requested (lockState (l.decCount r.state)) = false ∨
      r.state = .none ∧ ∃ p ∈ l.requests, p.pending = true) :
    Orderly (waitForRequest true r l caller lckWait t) ∧
      KeepsOrder t (waitForRequest true r l caller lckWait t) := by
  have hok := h.ok.ok l hl
  have hsame := queueRequest_sameLock true r l
  obtain ⟨pre, post, hperm, hfilter, hqueue, -⟩ := queueRequest_requests hok hr
  obtain ⟨rest, hall, -, hset⟩ := h.ok.requests_perm hl
  have hset := hset (queueRequest true r l) hsame.1
  set w : Wait := ⟨r.id, r.owner, l.id, caller, lckWait, false⟩ with hw
  set t₁ : Table := { (t.setLock (queueRequest true r l)).modifyOwner r.owner fun o =>
    { o with
      pendingRequest := some r.id
      scanned := false
      wakeup := false
      timeout := decide (lckWait < 0)
      semaphore := true } with waits := t.waits ++ [w] } with ht₁
  have hreqs : t₁.requests.Perm (pre ++ r.waiting :: post ++ rest) := hqueue ▸ hset
  have hreqs₀ : t.requests.Perm (pre ++ r :: post ++ rest) := hall.trans (hperm.append_right rest)
  have hmem : ∀ x ∈ pre ++ post, x ∈ l.requests := fun x hx =>
    mem_of_mem_filter (hfilter ▸ hx)
  have h₁ : Orderly t₁ := by
    refine ⟨h.ok.set hl hsame (hok.queueRequest true hr hnot), ?_, ?_⟩
    · have hqueues : t₁.queues = t.queues :=
        modifyOwner_queues_eq (t := t.setLock (queueRequest true r l)) _ _ (fun _ => rfl)
          fun _ => rfl
      rw [hqueues]
      refine h.linked.wait ?_ (fun r' hr' hp => ?_) ⟨r, mem_requests hl hr, rfl, rfl⟩ hidle rfl
      · refine (hreqs.map _).trans (.trans ?_ (hreqs₀.map _).symm)
        simp [Lrq.pair, Lrq.waiting]
      · have hr' := hreqs.mem_iff.mp hr'
        by_cases e : r' = r.waiting
        · exact .inl (by simp [e, Lrq.waiting, hw])
        · exact .inr ⟨r', hreqs₀.mem_iff.mpr (by grind), rfl, hp⟩
    · intro x hx
      rcases mem_setLock hx with rfl | ⟨hx, -⟩
      · refine (h.settled l hl).imp
          (fun hb => queueRequest_firstBlocked hok hr hnot hb hblock) ?_
        rintro ⟨x, hx, hrej, hp, w', hw', e⟩
        exact ⟨x, by rw [hqueue]; grind, hrej, hp, w', mem_append_left _ hw', e⟩
      · refine (h.settled x hx).imp_right ?_
        rintro ⟨y, hy, hrej, hp, w', hw', e⟩
        exact ⟨y, hy, hrej, hp, w', mem_append_left _ hw', e⟩
  have hkeeps : KeepsOrder t t₁ := by
    intro x hx x' hx' hid
    rcases mem_setLock hx' with rfl | ⟨hx', -⟩
    · obtain rfl := h.ok.eq_of_id hx hl (hid.symm.trans hsame.1)
      refine noOvertaking_of_states fun r' hr' hne => ?_
      by_cases e : r' = r.waiting
      · exact ⟨r, hr, by simp [e, Lrq.waiting], by rwa [e] at hne⟩
      · exact ⟨r', hmem r' (by grind), rfl, hne⟩
    · obtain rfl := h.ok.eq_of_id hx' hx hid
      exact (Serves.refl false _).overtakes_nobody
  have htouch := postBlockage_touches r.id h₁.ok
  exact ⟨htouch.orderly h₁ (postBlockage_ok r.id h₁.ok), htouch.keepsOrder hkeeps⟩

theorem setLock_orderly (hok : LocksOk t.locks)
    (hlinked : Linked t.requests t.queues t.waits)
    (hsettled : ∀ x ∈ t.locks, x.id ≠ l.id → FirstBlocked x ∨ RejectedOn t.waits x)
    (hl : l ∈ t.locks) (hsame : SameLock l l') (hok' : LockOk l')
    (hup : Updates l.requests l'.requests) (hset : FirstBlocked l' ∨ RejectedOn t.waits l') :
    Orderly (t.setLock l') := by
  refine ⟨hok.set hl hsame hok', hlinked.update (hok.setLock_updates hl hsame hup), ?_⟩
  intro x hx
  rcases mem_setLock hx with rfl | ⟨hx, hne⟩
  · exact hset
  · exact hsettled x hx (hsame.1 ▸ hne)

theorem Orderly.setLock (h : Orderly t) (hl : l ∈ t.locks)
    (hsame : SameLock l l') (hok : LockOk l') (hup : Updates l.requests l'.requests)
    (hset : FirstBlocked l' ∨ RejectedOn t.waits l') : Orderly (t.setLock l') :=
  setLock_orderly h.ok h.linked (fun x hx _ => h.settled x hx) hl hsame hok hup hset

theorem Orderly.postWakeup {t₀ : Table} (woken : List OwnerId)
    (h : Orderly t ∧ KeepsOrder t₀ t) :
    Orderly (t.postWakeup woken) ∧ KeepsOrder t₀ (t.postWakeup woken) := by
  have htouch : TouchesAll t (t.postWakeup woken) := .of_locks rfl (postWakeup_queues woken) rfl
  exact ⟨htouch.orderly h.1 h.1.ok, htouch.keepsOrder h.2⟩

theorem KeepsOrder.setLock (h : LocksOk t.locks) (hl : l ∈ t.locks)
    (hsame : SameLock l l') (ho : NoOvertaking l.requests l'.requests) :
    KeepsOrder t (t.setLock l') := by
  intro x hx x' hx' hid
  rcases mem_setLock hx' with rfl | ⟨hx', -⟩
  · obtain rfl := h.eq_of_id hx hl (hid.symm.trans hsame.1)
    exact ho
  · obtain rfl := h.eq_of_id hx' hx hid
    exact (Serves.refl false _).overtakes_nobody

theorem rejectRequest_orderly (h : Orderly t) (hp : t.Pending id) :
    Orderly (rejectRequest id t) ∧ KeepsOrder t (rejectRequest id t) := by
  have hok := rejectRequest_ok h.ok hp
  obtain ⟨⟨l, r⟩, hget, hpend⟩ := hp
  obtain ⟨hl, hr, rfl⟩ := getRequest_mem hget
  unfold rejectRequest at hok ⊢
  rw [Option.mem_def.mp hget] at hok ⊢
  set l' : Lbl := { l.modifyRequest r.id fun r => { r with rejected := true, pending := false } with
    pendingLrqCount := l.pendingLrqCount - 1 } with hl'
  change Orderly (t.setLock l') ∧ KeepsOrder t (t.setLock l')
  obtain ⟨pre, post, hsplit, hmod, -⟩ := (h.ok.ok l hl).split hr
  have hreq : l'.requests = pre ++ { r with rejected := true, pending := false } :: post := hmod _
  refine ⟨h.setLock hl ⟨rfl, rfl⟩ (hok.ok l' (mem_map.mpr ⟨l, hl, if_pos rfl⟩)) ?_ (.inr ?_),
    .setLock h.ok hl ⟨rfl, rfl⟩ (noOvertaking_of_states fun r' hr' hne => ?_)⟩
  · rw [hreq, hsplit]
    refine ⟨by simp [Lrq.pair], fun r' hr' hp' => ?_⟩
    exact ⟨r', by grind, rfl, hp'⟩
  · obtain ⟨w, hw, e⟩ := h.linked.pending r (mem_requests hl hr) hpend
    exact ⟨{ r with rejected := true, pending := false }, by simp [hreq], rfl, rfl, w, hw, e⟩
  · rw [hreq] at hr'
    grind

theorem RejectedOn.removeWait {ws : List Wait} (h : RejectedOn ws l)
    (hnot : ∀ r ∈ l.requests, r.id = id → r.rejected = false) :
    RejectedOn (ws.filter fun w => w.request ≠ id) l := by
  obtain ⟨r, hr, hrej, hp, w, hw, e⟩ := h
  refine ⟨r, hr, hrej, hp, w, mem_filter.mpr ⟨hw, ?_⟩, e⟩
  simp only [decide_eq_true_eq]
  intro e'
  simp [hnot r hr (e.symm.trans e')] at hrej

theorem finishWait_orderly {w : Wait} (h : Orderly t) (hw : w ∈ t.waits)
    (hleft : w.left = true) :
    Orderly (finishWait true w t) ∧ KeepsOrder t (finishWait true w t) := by
  unfold finishWait
  split
  · next hget =>
    obtain ⟨r, hr, e, -⟩ := h.linked.waits w hw
    exact absurd e (getRequest_none hget r hr)
  · next l r hget =>
    obtain ⟨hl, hr, hid⟩ := getRequest_mem hget
    have hnot : ∀ x ∈ t.requests, x.id = w.request → x.pending = false := h.linked.left w hw hleft
    have hunique : ∀ x ∈ t.requests, x.id = w.request → x = r := fun x hx e =>
      h.linked.eq_of_id hx (mem_requests hl hr) (e.trans hid.symm)
    set t₀ := t.removeWait w.request with ht₀
    have hok₀ : LocksOk t₀.locks := h.ok
    have hlinked₀ : Linked t₀.requests t₀.queues t₀.waits := h.linked.removeWait hnot
    -- Without the rejected request the other locks are settled as before.
    have hsettled₀ : ∀ x ∈ t.locks, (∀ r' ∈ x.requests, r'.id = w.request → r'.rejected = false) →
        FirstBlocked x ∨ RejectedOn t₀.waits x := fun x hx hx' =>
      (h.settled x hx).imp_right fun hrej => hrej.removeWait hx'
    have horderly₀ : r.rejected = false → Orderly t₀ := fun hrej =>
      ⟨hok₀, hlinked₀, fun x hx => hsettled₀ x hx fun r' hr' e =>
        hunique r' (mem_requests hx hr') e ▸ hrej⟩
    have hkeeps₀ : KeepsOrder t t₀ := KeepsOrder.refl h.ok
    split
    · split
      · refine releaseRequest_orderly (t := t₀) hok₀ hlinked₀ (fun x hx hno => ?_)
          (fun w' hw' => ?_)
        · exact hsettled₀ x hx fun r' hr' e => absurd (e.trans hid.symm) (hno r' hr')
        · rw [hid]
          simpa using (mem_filter.mp hw').2
      · next hrej => exact ⟨horderly₀ (by simpa using hrej), hkeeps₀⟩
    · next ast _ =>
      split
      · have hposted := postPending_postedFrom (h.ok.ok l hl)
        have hposts := postPending_posts true l
        set l₁ := (postPending true l).1 with hl₁
        have htouch : Touches l₁ (l₁.modifyRequest r.id fun r =>
          { r with requested := r.state }) := by
          refine .modify l₁ r.id _ fun x hx e => ?_
          have hp : x.pending = false := by
            by_contra hp
            obtain ⟨y, hy, e₁, hp⟩ := (Updates.of_posts hposts.1).pending x hx (by simpa using hp)
            simp [hnot y (mem_requests hl hy) (e₁.trans (e.trans hid))] at hp
          simp [Lrq.core, Lrq.claim, hp]
        refine Orderly.postWakeup _ ⟨setLock_orderly (t := t₀) hok₀ hlinked₀ (fun x hx hne => ?_) hl
          (hposts.2.trans htouch.same) ?_ ((Updates.of_posts hposts.1).trans htouch.updates)
          (.inl (htouch.firstBlocked hposted.firstBlocked)), ?_⟩
        · refine hsettled₀ x hx fun r' hr' e => ?_
          exact absurd (h.ok.eq_of_request h.linked.ids hx hl hr' hr (e.trans hid.symm)) hne
        · exact ((h.ok.ok l hl).postPending true).modify r.id _ fun _ _ _ => ⟨rfl, rfl, rfl⟩
        · exact .setLock hok₀ hl (hposts.2.trans htouch.same)
            (htouch.noOvertaking hposted.serves.overtakes_nobody)
      · next hrej =>
        have htouch : TouchesAll t₀ (t₀.setLock (l.modifyRequest r.id fun r =>
            { r with ast := ast })) :=
          .setLock hok₀ hl (.modify l r.id _ fun _ _ _ => rfl)
        refine ⟨htouch.orderly (horderly₀ (by simpa using hrej)) ?_, htouch.keepsOrder hkeeps₀⟩
        exact hok₀.set hl ⟨rfl, rfl⟩ ((h.ok.ok l hl).modify r.id _ fun _ _ _ => ⟨rfl, rfl, rfl⟩)

theorem modifyRequest_modifyRequest (l : Lbl) (id : RequestId) (f g : Lrq → Lrq)
    (hf : ∀ r, r.id = id → (f r).id = id) :
    (l.modifyRequest id f).modifyRequest id g = l.modifyRequest id fun r => g (f r) := by
  simp only [Lbl.modifyRequest, map_map]
  congr 1
  refine map_congr_left fun r _ => ?_
  by_cases e : r.id = id
  · simp [e, hf r e]
  · simp [e]

/-- `convert` grants a request at `LCK_none` though others wait before it. -/
def TakesCut (id : RequestId) (type : Level) (t : Table) : Prop :=
  ∃ p ∈ t.getRequest id, p.2.state = .none ∧ type.rank > Level.null.rank ∧
    compatible type p.1.state = true ∧
    ∃ q ∈ p.1.requests.takeWhile (fun r => r.id ≠ id), q.pending = true

instance (id : RequestId) (type : Level) (t : Table) : Decidable (TakesCut id type t) :=
  inferInstanceAs (Decidable (∃ p ∈ t.getRequest id, p.2.state = .none ∧
    type.rank > Level.null.rank ∧ compatible type p.1.state = true ∧
    ∃ q ∈ p.1.requests.takeWhile (fun r => r.id ≠ id), q.pending = true))

theorem takeWhile_eq {pre post : List Lrq} (hids : ((pre ++ r :: post).map Lrq.id).Nodup) :
    (pre ++ r :: post).takeWhile (fun x => x.id ≠ r.id) = pre := by
  rw [map_append, map_cons, nodup_append] at hids
  have hpre : ∀ x ∈ pre, decide (x.id ≠ r.id) = true := fun x hx => by
    simpa using hids.2.2 x.id (mem_map_of_mem hx) r.id (by simp)
  rw [takeWhile_append_of_pos hpre]
  simp

theorem convert_orderly {type : Level} {lckWait : Int}
    {ast : Option Ast} (h : Orderly t) (hidle : t.Idle id) (hcut : ¬ TakesCut id type t) :
    Orderly (convert true id type lckWait ast t) ∧
      KeepsOrder t (convert true id type lckWait ast t) := by
  unfold convert
  split
  · exact ⟨h, .refl h.ok⟩
  · next l r hget =>
    obtain ⟨hl, hr, rfl⟩ := getRequest_mem hget
    have hok := h.ok.ok l hl
    have hnot : r.pending = false := by
      by_contra hp
      exact hidle.2.1 ⟨(l, r), hget, by simpa using hp⟩
    dsimp only
    set r₁ : Lrq := { r with requested := type, blockingSeen := false } with hr₁
    set l₁ := l.modifyRequest r.id fun _ => r₁ with hl₁
    obtain ⟨hok₁, hmem⟩ : LockOk l₁ ∧ r₁ ∈ l₁.requests := hok.overwrite hr rfl rfl rfl
    obtain ⟨pre, post, hsplit, hmod, -⟩ := hok.split hr
    have htouch₁ : Touches l l₁ := by
      refine .modify l r.id _ fun x hx e => ?_
      obtain rfl : x = r := inj_on_of_nodup_map hok.ids hx hr e
      simp [Lrq.core, Lrq.claim, hnot, hr₁]
    split
    · next hc =>
      set g := grant { r₁ with ast := ast } (l₁.decCount r₁.state) with hg
      set l₂ := g.2.modifyRequest r.id fun _ => g.1 with hl₂
      have hok₂ : LockOk l₂ := LockOk.grantConvert (r := r₁) hok₁ hmem rfl rfl rfl hc
      have hreq₂ : l₂.requests = pre ++ g.1 :: post := by
        have hreqs : l₂.requests = (l₁.modifyRequest r.id fun _ => g.1).requests := by
          simp only [hl₂, Lbl.modifyRequest, hg, grant_requests]
          rfl
        rw [hreqs, hl₁, modifyRequest_modifyRequest l r.id (fun _ => r₁) _ fun _ _ => rfl]
        exact hmod fun _ => g.1
      have hposted := postPending_postedFrom hok₂
      have hposts := postPending_posts true l₂
      have hsame : SameLock l (postPending true l₂).1 :=
        (SameLock.trans ⟨rfl, rfl⟩ (grant_sameLock _ (l₁.decCount r₁.state))).trans hposts.2
      have hup : Updates l.requests l₂.requests := by
        refine .of_map ?_
        rw [hreq₂, hsplit]
        simp [hg, hr₁, hnot]
      refine Orderly.postWakeup _ ⟨h.setLock hl hsame (hok₂.postPending true)
        (hup.trans (.of_posts hposts.1)) (.inl hposted.firstBlocked), .setLock h.ok hl hsame ?_⟩
      -- Only the converted request may have got a level; it is behind nobody who waits.
      refine hposted.serves.noOvertaking ?_
      rw [hreq₂]
      have hold : ∀ x ∈ pre ++ post, x ∈ l.requests := by grind
      have hpre : r.state = .none → type.rank > Level.null.rank → ∀ q ∈ pre, q.pending = false := by
        intro hnone hrank q hq
        by_contra hp
        have hstate : compatible type l.state = true := by
          rw [hok.coherent.state]
          have hcounts : l₁.counts = l.counts := rfl
          rwa [lockState_decCount_congr hcounts, hnone, lockState_decCount_none] at hc
        refine hcut ⟨(l, r), hget, hnone, hrank, hstate, q, ?_, by simpa using hp⟩
        rwa [hsplit, takeWhile_eq (hsplit ▸ hok.ids)]
      have hkeep : ∀ x ∈ pre ++ post, x.state.rank > Level.null.rank →
          ∃ r₀ ∈ l.requests, r₀.id = x.id ∧ r₀.state ≠ .none := fun x hx hrank =>
        ⟨x, hold x hx, rfl, state_ne_none hrank⟩
      refine pairwise_append.mpr ⟨?_, pairwise_cons.mpr ⟨?_, ?_⟩, ?_⟩
      · exact pairwise_of_forall_mem_list fun _ _ x hx _ => hkeep x (by simp [hx])
      · exact fun x hx _ => hkeep x (by simp [hx])
      · exact pairwise_of_forall_mem_list fun _ _ x hx _ => hkeep x (by simp [hx])
      · intro q hq x hx hp hrank
        rcases mem_cons.mp hx with rfl | hx
        · by_cases hnone : r.state = .none
          · simp [hpre hnone hrank q hq] at hp
          · exact ⟨r, hr, rfl, hnone⟩
        · exact hkeep x (by simp [hx]) hrank
    · next hc =>
      have htouch : TouchesAll t (t.setLock l₁) := .setLock h.ok hl htouch₁
      split
      · have horderly := htouch.orderly h (h.ok.set hl ⟨rfl, rfl⟩ hok₁)
        have hl₁' : l₁ ∈ (t.setLock l₁).locks := mem_map.mpr ⟨l, hl, if_pos rfl⟩
        obtain ⟨h₁, h₂⟩ := waitForRequest_orderly (.convert ast) lckWait horderly hl₁' hmem hnot
          hidle.2.2 (.inl (by simpa using hc))
        exact ⟨h₁, htouch.keepsOrder_left h₂⟩
      · have htouch₂ : Touches l (l₁.modifyRequest r.id fun r =>
          { r with requested := r.state }) := by
          rw [hl₁, modifyRequest_modifyRequest l r.id (fun _ => r₁) _ fun _ _ => rfl]
          refine .modify l r.id _ fun x hx e => ?_
          obtain rfl : x = r := inj_on_of_nodup_map hok.ids hx hr e
          simp [Lrq.core, Lrq.claim, hnot, hr₁]
        have htouch' := TouchesAll.setLock h.ok hl htouch₂
        refine ⟨htouch'.orderly h ?_, htouch'.keepsOrder (.refl h.ok)⟩
        exact h.ok.set hl ⟨rfl, rfl⟩ (hok₁.modify r.id _ fun _ _ _ => ⟨rfl, rfl, rfl⟩)

theorem lockDowngrade_orderly (h : Orderly t) (hidle : t.Idle id) :
    Orderly (lockDowngrade true id t) ∧ KeepsOrder t (lockDowngrade true id t) := by
  unfold lockDowngrade
  split
  · exact ⟨h, .refl h.ok⟩
  · next l r hget =>
    dsimp only
    split
    · exact releaseRequest_orderly h.ok h.linked (fun x hx _ => h.settled x hx) hidle.2.2
    · next hstate =>
      refine convert_orderly h hidle ?_
      rintro ⟨p, hp, hnone, -⟩
      obtain rfl : (l, r) = p := by simpa [hget] using hp
      -- A request at `LCK_none` is not converted but released.
      refine hstate (.inl ?_)
      rw [show r.state = .none from hnone]
      rfl

theorem NoOvertaking.of_append {rs rs' : List Lrq} (hnone : r.state = .none)
    (h : NoOvertaking (rs ++ [r]) rs') : NoOvertaking rs rs' := by
  refine Pairwise.imp (fun {p' r'} hpr hp' hex hlevel => ?_) h
  obtain ⟨p, hp, e⟩ := hex
  obtain ⟨x, hx, e', hne⟩ := hpr hp' ⟨p, by simp [hp], e⟩ hlevel
  rcases mem_append.mp hx with hx | hx
  · exact ⟨x, hx, e', hne⟩
  · exact absurd (mem_singleton.mp hx ▸ hnone) hne

theorem Enq.linkRequest_queues (a : Enq) (id : RequestId) (t : Table) :
    (a.linkRequest id t).queues =
      t.queues.map fun p => if p.1 = a.owner then (p.1, p.2 ++ [id]) else p :=
  modifyOwner_queues (t := t) a.owner (fun o => { o with requests := o.requests ++ [id] })
    (fun _ => rfl) (fun q => q ++ [id]) fun _ => rfl

theorem grantOrQue_some {woken : List OwnerId}
    (h : grantOrQue true r l = some (l', woken)) :
    compatible r.requested l.state = true ∧ (r.requested = .null ∨ l.pendingLrqCount = 0) ∧
      l' = (postPending true ((grant r l).2.modifyRequest r.id fun _ => (grant r l).1)).1 := by
  unfold grantOrQue at h
  split at h
  · next hc =>
    refine ⟨hc.1, by simpa using hc.2, ?_⟩
    exact (congrArg Prod.fst (Option.some.inj h)).symm
  · cases h

theorem grantOrQue_none (h : grantOrQue true r l = none) :
    compatible r.requested l.state = false ∨ l.pendingLrqCount ≠ 0 := by
  unfold grantOrQue at h
  split at h
  · cases h
  · next hc =>
    by_contra hcon
    simp only [not_or, Bool.not_eq_false, not_not] at hcon
    exact hc ⟨hcon.1, .inr (.inr hcon.2)⟩

theorem LockOk.pending_iff (h : LockOk l) :
    l.pendingLrqCount ≠ 0 ↔ ∃ r ∈ l.requests, r.pending = true := by
  have hle := countP_le_length (p := fun r : Lrq => r.pending) (l := l.requests)
  rw [h.coherent.pending, ofNat_ne_zero_iff (Nat.lt_of_le_of_lt hle h.coherent.small),
    countP_pos_iff]

theorem Enq.existing_orderly (a : Enq) (h : Orderly t)
    (hfew : FewRequests t.locks) (hl : l ∈ t.locks) (hfresh : ∀ r ∈ t.requests, r.id ≠ id)
    (howner : ∃ o ∈ t.owners, o.id = a.owner) :
    Orderly (a.existing true id l (a.linkRequest id t)) ∧
      KeepsOrder t (a.existing true id l (a.linkRequest id t)) := by
  set r := newRequest id a a.data with hr
  set l₁ : Lbl := { l with requests := l.requests ++ [r] } with hl₁
  set t₁ := (a.linkRequest id t).setLock l₁ with ht₁
  have hok₁ : LockOk l₁ := (h.ok.ok l hl).append rfl rfl
    (fun x hx => hfresh x (mem_requests hl hx)) (hfew l hl)
  have hmem : r ∈ l₁.requests := by simp [hl₁]
  have hmem₁ : l₁ ∈ t₁.locks := mem_map.mpr ⟨l, hl, if_pos rfl⟩
  have hidle : ∀ w ∈ t.waits, w.request ≠ r.id := by
    intro w hw e
    obtain ⟨x, hx, e', -⟩ := h.linked.waits w hw
    exact hfresh x hx (e'.trans e)
  have htouch : l₁.requests.filterMap Lrq.claim = l.requests.filterMap Lrq.claim := by
    simp [hl₁, hr, Lrq.claim, newRequest]
  -- The new request is linked, but neither pending nor granted.
  have h₁ : Orderly t₁ := by
    refine ⟨h.ok.set hl ⟨rfl, rfl⟩ hok₁, ?_, fun x hx => ?_⟩
    · obtain ⟨rest, hperm, -, hset⟩ := h.ok.requests_perm hl
      have hset : t₁.requests.Perm (l₁.requests ++ rest) := hset l₁ rfl
      have hadd : t₁.requests.Perm (r :: t.requests) := by
        refine hset.trans (.trans ?_ (hperm.cons r).symm)
        rw [hl₁]
        simp
      have hqueues : t₁.queues = (a.linkRequest id t).queues := rfl
      rw [hqueues, a.linkRequest_queues]
      refine (h.linked.add (r := r) hfresh ?_ rfl).update (.of_perm hadd.symm)
      obtain ⟨o, ho, e⟩ := howner
      exact ⟨o.requests, mem_map.mpr ⟨o, ho, by simp [e, hr, newRequest]⟩⟩
    · rcases mem_setLock hx with rfl | ⟨hx, -⟩
      · refine (h.settled l hl).imp (fun hb => hb.congr htouch rfl) ?_
        rintro ⟨y, hy, hrej⟩
        exact ⟨y, by simp [hl₁, hy], hrej⟩
      · exact h.settled x hx
  have hkeeps : ∀ t', KeepsOrder t₁ t' → KeepsOrder t t' := by
    intro t' ht' x hx x' hx' hid
    by_cases e : x.id = l.id
    · obtain rfl := h.ok.eq_of_id hx hl e
      exact (ht' l₁ hmem₁ x' hx' hid).of_append rfl
    · exact ht' x (mem_map.mpr ⟨x, hx, if_neg e⟩) x' hx' hid
  unfold existing
  dsimp only
  split
  · next l' woken hg =>
    obtain ⟨hc, hlineup, rfl⟩ := grantOrQue_some hg
    set l₂ := (grant r l₁).2.modifyRequest r.id fun _ => (grant r l₁).1 with hl₂
    have hok₂ : LockOk l₂ := hok₁.grantNew hmem rfl hc
    have hreq₂ : l₂.requests = l.requests ++ [(grant r l₁).1] := by
      have hne : ∀ x ∈ l.requests, x.id ≠ r.id := fun x hx => hfresh x (mem_requests hl hx)
      rw [hl₂, Lbl.modifyRequest, grant_requests]
      rw [map_append, map_modify_of_ne _ hne]
      simp
    have hposted := postPending_postedFrom hok₂
    have hposts := postPending_posts true l₂
    have hsame : SameLock l₁ (postPending true l₂).1 := (grant_sameLock r l₁).trans hposts.2
    have hup : Updates l₁.requests l₂.requests := by
      refine .of_map ?_
      rw [hreq₂, hl₁]
      simp [hr, newRequest]
    have hnext : KeepsOrder t₁ (t₁.setLock (postPending true l₂).1) := by
      refine .setLock h₁.ok hmem₁ hsame (hposted.serves.noOvertaking ?_)
      rw [hreq₂]
      refine pairwise_of_forall_mem_list fun p hp x hx hpend hrank => ?_
      rcases mem_append.mp hx with hx | hx
      · exact ⟨x, by simp [hl₁, hx], rfl, state_ne_none hrank⟩
      · -- The new request is granted `LCK_null`, or nobody waits.
        obtain rfl := mem_singleton.mp hx
        rcases hlineup with hnull | hzero
        · rw [show (grant r l₁).1.state = .null from hnull] at hrank
          exact absurd hrank (by decide)
        · have hp : p ∈ l.requests := by
            rcases mem_append.mp hp with hp | hp
            · exact hp
            · rw [mem_singleton.mp hp] at hpend
              cases hpend
          exact absurd hzero (hok₁.pending_iff.mpr ⟨p, by simp [hl₁, hp], hpend⟩)
    have hset : (a.linkRequest id t).setLock (postPending true l₂).1 =
        t₁.setLock (postPending true l₂).1 := (setLock_setLock _ hsame.1).symm
    rw [hset]
    exact Orderly.postWakeup _ ⟨h₁.setLock hmem₁ hsame (hok₂.postPending true)
      (hup.trans (.of_posts hposts.1)) (.inl hposted.firstBlocked), hkeeps _ hnext⟩
  · next hg =>
    split
    · have hblock : compatible r.requested (lockState (l₁.decCount r.state)) = false ∨
          r.state = .none ∧ ∃ p ∈ l₁.requests, p.pending = true := by
        refine (grantOrQue_none hg).imp (fun hc => ?_) fun hp => ⟨rfl, hok₁.pending_iff.mp hp⟩
        rw [show r.state = .none from rfl, lockState_decCount_none, ← hok₁.coherent.state]
        exact hc
      obtain ⟨h₂, h₃⟩ :=
        waitForRequest_orderly .grantOrQue a.lckWait h₁ hmem₁ hmem rfl hidle hblock
      exact ⟨h₂, hkeeps _ h₃⟩
    · obtain ⟨h₂, h₃⟩ := releaseRequest_orderly h₁.ok h₁.linked
        (fun x hx _ => h₁.settled x hx) hidle
      exact ⟨h₂, hkeeps _ h₃⟩

theorem Enq.fresh_orderly (a : Enq) (parent : Option LockId)
    (h : Orderly t) (hok : LocksOk (a.fresh id parent (a.linkRequest id t)).locks)
    (hfresh : ∀ r ∈ t.requests, r.id ≠ id) (howner : ∃ o ∈ t.owners, o.id = a.owner)
    (hnew : ∀ lockId ∈ a.lock, ∀ l ∈ t.locks, l.id ≠ lockId) :
    Orderly (a.fresh id parent (a.linkRequest id t)) ∧
      KeepsOrder t (a.fresh id parent (a.linkRequest id t)) := by
  unfold fresh at hok ⊢
  split
  · -- The block of the request is given back, and the queue of the owner is as before.
    have htouch : TouchesAll t ((a.linkRequest id t).modifyOwner a.owner fun o =>
        { o with requests := o.requests.filter (· ≠ id) }) := by
      refine .of_locks rfl ?_ rfl
      rw [modifyOwner_queues (t := a.linkRequest id t) a.owner
        (fun o => { o with requests := o.requests.filter (· ≠ id) }) (fun _ => rfl)
        (fun q => q.filter (· ≠ id)) (fun _ => rfl), a.linkRequest_queues, map_map]
      refine (map_congr_left fun p hp => ?_).trans (map_id _)
      obtain ⟨o, q⟩ := p
      have hq : id ∉ q := fun hid => by
        obtain ⟨r, hr, e, -⟩ := (h.linked.queues o q hp id).mp hid
        exact hfresh r hr e
      by_cases e : o = a.owner
      · have : q.filter (fun x => x ≠ id) = q :=
          filter_eq_self.mpr fun x hx => by
            have hne : x ≠ id := fun e' => hq (e' ▸ hx)
            simpa using hne
        simp only [Function.comp, e, if_true, filter_append, this]
        simp
      · simp [e]
    exact ⟨htouch.orderly h h.ok, htouch.keepsOrder (.refl h.ok)⟩
  · next lockId hlock =>
    rw [hlock] at hok
    dsimp only at hok ⊢
    set r := newRequest id a 0 with hr
    set l := (grant r (newLock lockId parent a r)).2.modifyRequest id
      fun _ => (grant r (newLock lockId parent a r)).1 with hl
    have hreq : l.requests = [(grant r (newLock lockId parent a r)).1] := by
      rw [hl, Lbl.modifyRequest, grant_requests]
      simp [newLock, hr, newRequest]
    refine Orderly.postWakeup _ ⟨⟨hok, ?_, fun x hx => ?_⟩, fun x hx x' hx' hid => ?_⟩
    · set r' := (grant r (newLock lockId parent a r)).1 with hr'
      have hadd : (t.locks ++ [l]).flatMap Lbl.requests = t.requests ++ [r'] := by
        simp [Table.requests, hreq]
      change Linked ((t.locks ++ [l]).flatMap Lbl.requests) (a.linkRequest id t).queues t.waits
      rw [hadd, a.linkRequest_queues]
      refine (h.linked.add (r := r') hfresh ?_ rfl).update
        (.of_perm (perm_append_singleton _ _).symm)
      obtain ⟨o, ho, e⟩ := howner
      exact ⟨o.requests, mem_map.mpr ⟨o, ho, by simp [e, hr', hr, newRequest]⟩⟩
    · rcases mem_append.mp hx with hx | hx
      · exact h.settled x hx
      · obtain rfl := mem_singleton.mp hx
        refine .inl fun y hy => ?_
        rw [hreq] at hy
        simp at hy
    · rcases mem_append.mp hx' with hx' | hx'
      · obtain rfl := h.ok.eq_of_id hx' hx hid
        exact (Serves.refl false _).overtakes_nobody
      · obtain rfl := mem_singleton.mp hx'
        have hid' : l.id = lockId := (grant_sameLock r (newLock lockId parent a r)).1
        exact absurd (hid.symm.trans hid') (hnew lockId hlock x hx)

/-- The table in which the new request of an action arrives: `LOCK_enq` first releases the prior
request. -/
def Action.released : Action → Table → Table
  | .enq a, t => a.afterPrior true t
  | _, t => t

theorem Enq.afterPrior_owners (a : Enq) (t : Table) :
    (a.afterPrior true t).queues.map Prod.fst = t.queues.map Prod.fst := by
  unfold afterPrior
  split
  · next prior _ =>
    unfold dequeue
    cases hget : t.getRequest prior with
    | none => rw [releaseRequest_none true hget]
    | some p =>
      rw [releaseRequest_queues true hget, map_map]
      refine map_congr_left fun q _ => ?_
      dsimp only [Function.comp]
      split <;> rfl
  · rfl

theorem Enq.afterPrior_orderly (a : Enq) (h : Orderly t)
    (hprior : ∀ p ∈ a.priorRequest, t.Idle p) :
    Orderly (a.afterPrior true t) ∧ KeepsOrder t (a.afterPrior true t) := by
  unfold afterPrior
  split
  · next prior heq =>
    exact releaseRequest_orderly h.ok h.linked (fun x hx _ => h.settled x hx)
      (hprior prior heq).2.2
  · exact ⟨h, .refl h.ok⟩

theorem lockEnq_orderly {a : Enq} (h : Orderly t) (hfew : FewRequests t.locks)
    (hlegal : (Action.enq a).Legal true t) :
    Orderly (lockEnq true a t) ∧ KeepsOrder (a.afterPrior true t) (lockEnq true a t) := by
  have hok := lockEnq_ok true a h.ok hfew hlegal
  obtain ⟨-, -, ⟨o, ho, hid⟩, hprior, -, hfresh, hnew⟩ := hlegal
  have h₁ := (a.afterPrior_orderly h hprior).1
  have hfew₁ := a.afterPrior_few true hfew
  have howner : ∃ o ∈ (a.afterPrior true t).owners, o.id = a.owner := by
    have hmem : a.owner ∈ t.queues.map Prod.fst :=
      mem_map.mpr ⟨(o.id, o.requests), mem_map_of_mem ho, hid⟩
    rw [← a.afterPrior_owners] at hmem
    obtain ⟨p, hp, e⟩ := mem_map.mp hmem
    obtain ⟨o', ho', rfl⟩ := mem_map.mp hp
    exact ⟨o', ho', e⟩
  unfold lockEnq at hok ⊢
  dsimp only at hok ⊢
  split
  · exact ⟨h₁, .refl h₁.ok⟩
  · next id heq =>
    rw [heq] at hok
    dsimp only at hok
    have hfresh' := (hfresh id heq).1
    split
    · next l hfind => exact a.existing_orderly h₁ hfew₁ (findLock_mem hfind) hfresh' howner
    · next hfind =>
      rw [hfind] at hok
      exact a.fresh_orderly _ h₁ hok hfresh' howner hnew

theorem Marked.touches (h : Marked t t') : TouchesAll t t' :=
  .of_locks h.locks h.queues h.waits

theorem TouchesAll.step {t'' : Table} (h : TouchesAll t t') (ht : LocksOk t'.locks)
    (h' : Orderly t' → Orderly t'' ∧ KeepsOrder t' t'') (horderly : Orderly t) :
    Orderly t'' ∧ KeepsOrder t t'' :=
  ⟨(h' (h.orderly horderly ht)).1, h.keepsOrder_left (h' (h.orderly horderly ht)).2⟩

theorem postBlockage_orderly (id : RequestId) (h : Orderly t) :
    Orderly (postBlockage id t) ∧ KeepsOrder t (postBlockage id t) := by
  have htouch := postBlockage_touches id h.ok
  exact ⟨htouch.orderly h (postBlockage_ok id h.ok), htouch.keepsOrder (.refl h.ok)⟩

theorem wakeUp_orderly (timedOut woken : Bool) (w : Wait) (h : Orderly t)
    (hp : t.Pending w.request) :
    Orderly (wakeUp true timedOut woken w t) ∧ KeepsOrder t (wakeUp true timedOut woken w t) := by
  obtain ⟨t₁, t₂, h₁, h₂, hacts⟩ := wakeUp_cases true timedOut woken w hp
  have hok₁ : LocksOk t₁.locks := h₁.locks ▸ h.ok
  obtain ⟨hordered, hkeeps⟩ : Orderly t₂ ∧ KeepsOrder t t₂ := by
    refine (h₁.touches.step hok₁ fun horderly => ?_) h
    rcases hacts with rfl | rfl | ⟨victim, hvictim, rfl⟩
    · exact ⟨horderly, .refl hok₁⟩
    · exact postBlockage_orderly w.request horderly
    · exact rejectRequest_orderly horderly hvictim
  exact ⟨h₂.touches.orderly hordered (h₂.locks ▸ hordered.ok), h₂.touches.keepsOrder hkeeps⟩

theorem leaveWait_orderly {w : Wait} (h : Orderly t) (hp : ¬ t.Pending w.request) :
    Orderly (leaveWait w t) ∧ KeepsOrder t (leaveWait w t) := by
  have hnot : ∀ r ∈ t.requests, r.id = w.request → r.pending = false := by
    intro r hr hid
    by_contra hpend
    cases hget : t.getRequest w.request with
    | none => exact getRequest_none hget r hr hid
    | some p =>
      obtain ⟨hl, hr', hid'⟩ := getRequest_mem hget
      obtain rfl := h.linked.eq_of_id (mem_requests hl hr') hr (hid'.trans hid.symm)
      exact hp ⟨p, hget, by simpa using hpend⟩
  refine ⟨⟨h.ok, ?_, fun l hl => ?_⟩, .refl h.ok⟩
  · have hqueues : (leaveWait w t).queues = t.queues :=
      modifyOwner_queues_eq (t := t) _ _ (fun _ => rfl) fun _ => rfl
    rw [hqueues]
    exact h.linked.leave hnot
  · refine (h.settled l hl).imp_right ?_
    rintro ⟨r, hr, hrej, hpend, w', hw', e⟩
    refine ⟨r, hr, hrej, hpend, _, mem_map_of_mem hw', ?_⟩
    split <;> exact e

theorem createOwner_orderly (h : Orderly t) (hnew : t.getOwner o = none) :
    Orderly (createOwner o t) ∧ KeepsOrder t (createOwner o t) := by
  refine ⟨⟨h.ok, ?_, h.settled⟩, .refl h.ok⟩
  have hqueues : (createOwner o t).queues = t.queues ++ [(o, [])] := by
    simp [Table.queues, createOwner]
  have hne : ∀ p ∈ t.queues, p.1 ≠ o := by
    intro p hp e
    obtain ⟨o', ho', rfl⟩ := mem_map.mp hp
    have := find?_eq_none.mp hnew o' ho'
    exact this (by simpa using e)
  rw [hqueues]
  exact h.linked.newOwner hne

def NoCut (a : Action) (t : Table) : Prop :=
  match a with
  | .convert id type _ _ => ¬ TakesCut id type t
  | _ => True

instance : (a : Action) → (t : Table) → Decidable (NoCut a t)
  | .convert id type _ _, t => inferInstanceAs (Decidable (¬ TakesCut id type t))
  | .createOwner _, _ | .enq _, _ | .downgrade _, _ | .deq _, _ | .wakeUp _ _ _, _
  | .leaveWait _, _ | .finishWait _, _ | .purgeOwner _, _ | .blockingAction _, _
  | .rePost _ _, _ => isTrue trivial

theorem Action.apply_orderly {a : Action} (h : Orderly t) (hfew : FewRequests t.locks)
    (hcut : NoCut a t) (hlegal : a.Legal true t) :
    Orderly (a.apply true t) ∧ KeepsOrder t (a.released t) ∧
      KeepsOrder (a.released t) (a.apply true t) := by
  have hstep : a.released t = t → Orderly (a.apply true t) ∧ KeepsOrder t (a.apply true t) →
      Orderly (a.apply true t) ∧ KeepsOrder t (a.released t) ∧
        KeepsOrder (a.released t) (a.apply true t) := by
    intro hreleased hnext
    rw [hreleased]
    exact ⟨hnext.1, .refl h.ok, hnext.2⟩
  cases a with
  | createOwner owner => exact hstep rfl (createOwner_orderly h hlegal)
  | enq args =>
    obtain ⟨h₁, h₂⟩ := lockEnq_orderly h hfew hlegal
    exact ⟨h₁, (args.afterPrior_orderly h hlegal.2.2.2.1).2, h₂⟩
  | convert id type lckWait ast => exact hstep rfl (convert_orderly h hlegal.1 hcut)
  | downgrade id => exact hstep rfl (lockDowngrade_orderly h hlegal)
  | deq id =>
    exact hstep rfl
      (releaseRequest_orderly h.ok h.linked (fun x hx _ => h.settled x hx) hlegal.2.2)
  | wakeUp timedOut woken w => exact hstep rfl (wakeUp_orderly timedOut woken w h hlegal.2.2)
  | leaveWait w => exact hstep rfl (leaveWait_orderly h hlegal.2.2)
  | finishWait w => exact hstep rfl (finishWait_orderly h hlegal.1 hlegal.2)
  | purgeOwner owner => exact hstep rfl (purgeOwner_orderly h)
  | blockingAction owner =>
    have htouch := blockingAction2_touches owner h.ok
    exact hstep rfl ⟨htouch.orderly h (blockingAction2_ok owner h.ok),
      htouch.keepsOrder (.refl h.ok)⟩
  | rePost owner id =>
    have htouch : TouchesAll t (lockRePost owner id t) :=
      .of_locks rfl (modifyOwner_queues_eq _ _ (fun _ => rfl) fun _ => rfl) rfl
    exact hstep rfl ⟨htouch.orderly h h.ok, htouch.keepsOrder (.refl h.ok)⟩

/-- On a lock without leftovers of a rejection the first pending request cannot be granted. -/
def NoForgottenWaiter (t : Table) : Prop :=
  ∀ l ∈ t.locks, ¬ RejectedOn t.waits l → FirstBlocked l

def FairRun : List Action → Table → Prop
  | [], t => NoForgottenWaiter t
  | a :: as, t => NoForgottenWaiter t ∧ KeepsOrder t (a.released t) ∧
      KeepsOrder (a.released t) (a.apply true t) ∧ FairRun as (a.apply true t)

theorem Orderly.noForgottenWaiter (h : Orderly t) : NoForgottenWaiter t :=
  fun l hl hnot => (h.settled l hl).resolve_right hnot

theorem initTable_orderly : Orderly initTable := by
  refine ⟨initTable_ok, ⟨?_, ?_, ?_, ?_, ?_, ?_, ?_⟩, ?_⟩ <;>
    simp [initTable, Table.requests, Table.queues]

theorem Orderly.fairRun {as : List Action} (h : Orderly t)
    (hlegal : LegalRun true (fun a t => FewRequests t.locks ∧ NoCut a t) as t) : FairRun as t := by
  induction as generalizing t with
  | nil => exact h.noForgottenWaiter
  | cons a as ih =>
    obtain ⟨ha, ⟨hfew, hcut⟩, has⟩ := hlegal
    obtain ⟨h₁, h₂, h₃⟩ := a.apply_orderly h hfew hcut ha
    exact ⟨h.noForgottenWaiter, h₂, h₃, ih h₁ has⟩

/-- With lock ordering nobody is forgotten or overtaken in a run in which no lock gets as many
requests as its counters can hold and no conversion from `LCK_none` takes a cut. -/
theorem lock_queues_fair (as : List Action)
    (h : LegalRun true (fun a t => FewRequests t.locks ∧ NoCut a t) as initTable) :
    FairRun as initTable :=
  initTable_orderly.fairRun h

/-- An exclusive conversion waits for a shared request, and a later request for the conversion. -/
theorem lock_queues_fair_conversion :
    FairRun [.createOwner 1, .createOwner 2, .createOwner 3, simpleEnq 1 10 (some 0) .sr 0,
      simpleEnq 2 20 none .sr 0, .convert 20 .ex 1 none, simpleEnq 3 30 none .sr 1, .deq 10]
      initTable :=
  lock_queues_fair _ (by decide)

/-- Request 20 waits for its conversion to `LCK_EX`. Request 30, behind it at `LCK_none`, is
converted to `LCK_SR` at once. -/
def cutRun : List Action :=
  [.createOwner 1, .createOwner 2, .createOwner 3, simpleEnq 1 10 (some 0) .sr 0,
    simpleEnq 2 20 none .sr 0, simpleEnq 3 30 none .none 0, .convert 20 .ex 1 none,
    .convert 30 .sr 0 none]

instance (rs rs' : List Lrq) : Decidable (NoOvertaking rs rs') :=
  inferInstanceAs (Decidable (rs'.Pairwise _))

instance (t t' : Table) : Decidable (KeepsOrder t t') :=
  inferInstanceAs (Decidable (∀ l ∈ t.locks, ∀ l' ∈ t'.locks, l'.id = l.id →
    NoOvertaking l.requests l'.requests))

instance (t : Table) : Decidable (NoForgottenWaiter t) :=
  inferInstanceAs (Decidable (∀ l ∈ t.locks, ¬ RejectedOn t.waits l → FirstBlocked l))

instance decidableFairRun : (as : List Action) → (t : Table) → Decidable (FairRun as t)
  | [], t => inferInstanceAs (Decidable (NoForgottenWaiter t))
  | a :: as, t =>
    have := decidableFairRun as (a.apply true t)
    inferInstanceAs (Decidable (_ ∧ _ ∧ _ ∧ FairRun as (a.apply true t)))

theorem conversion_takes_cut :
    LegalRun true (fun _ t => FewRequests t.locks) cutRun initTable ∧ ¬ FairRun cutRun
      initTable := by
  decide

end Firebird.Lock
