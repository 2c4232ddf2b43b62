import Firebird.Lock.Whole

/-!
# Changing the owner of a request

`LOCK_set_owner_handle` and `LOCK_write_data`, and runs of the lock manager with them. The check
for another request of the new owner goes along the requests of the lock, but takes the links for
those of the other queue that runs through a request block.
-/
namespace Firebird.Lock

open List

def lrqOwner : Nat := 8

def lrqOwnRequests : Nat := 20

def lrqLblRequests : Nat := 28

/-- The longwords of a request block on a lock in front of its queues: `lrq_owner`, `lrq_lock` and
`lrq_data`. -/
def Lrq.longword (lock : LockId) (r : Lrq) : Nat → Option Int
  | 8 => some r.owner
  | 12 => some lock
  | 16 => some r.data
  | _ => none

/-- `granted_request->lrq_owner`, for the block that is found from its link `lrq_lbl_requests` by
`OFFSET(LRQ, lrq_own_requests)`. -/
def Lrq.ownerFromLink (lock : LockId) (r : Lrq) : Option Int :=
  r.longword lock (lrqLblRequests - lrqOwnRequests + lrqOwner)

theorem Lrq.ownerFromLink_eq (lock : LockId) (r : Lrq) : r.ownerFromLink lock = some r.data := rfl

/-- `release`, when `active` has acquired the table. -/
def release (active owner : OwnerId) (result : Bool) (t : Table) : Except String (Bool × Table) :=
  if active ≠ owner then .error "release when not owner" else .ok (result, t)

/-- `LOCK_set_owner_handle`. The new owner acquires the table. -/
def lockSetOwnerHandle (id : RequestId) (newOwner : OwnerId) (t : Table) :
    Except String (Bool × Table) :=
  match t.getRequest id with
  | none => .error "invalid lock id"
  | some (l, r) =>
    if r.owner = newOwner then .ok (true, t)
    else if l.requests.any fun g => g.ownerFromLink l.id = some (newOwner : Int) then
      release newOwner r.owner false t
    else
      let t := t.modifyOwner r.owner fun o => { o with requests := o.requests.filter (· ≠ id) }
      let t := t.setLock (l.modifyRequest id fun r => { r with owner := newOwner })
      let t := t.modifyOwner newOwner fun o => { o with requests := o.requests ++ [id] }
      release newOwner newOwner true t

def lockWriteData (id : RequestId) (data : Int) (t : Table) : Table :=
  match t.getRequest id with
  | none => t
  | some (l, _) => t.setLock { l with data }

/-- What happens to the table. A process that runs into a `bug` is gone, and leaves the table as it
was. -/
inductive Step where
  | act (a : Action)
  | setOwnerHandle (request : RequestId) (newOwner : OwnerId)
  | writeData (request : RequestId) (data : Int)
  deriving DecidableEq

namespace Step

def Legal (ordering : Bool) (t : Table) : Step → Prop
  | act a => a.Legal ordering t
  | setOwnerHandle request newOwner => t.Idle request ∧ ∃ o ∈ t.owners, o.id = newOwner
  | writeData request _ => (t.getRequest request).isSome

instance (ordering : Bool) (t : Table) : (s : Step) → Decidable (s.Legal ordering t)
  | act a => inferInstanceAs (Decidable (a.Legal ordering t))
  | setOwnerHandle _ _ => inferInstanceAs (Decidable (_ ∧ _))
  | writeData request _ => inferInstanceAs (Decidable ((t.getRequest request).isSome = true))

def apply (ordering : Bool) (t : Table) : Step → Table
  | act a => a.apply ordering t
  | setOwnerHandle request newOwner =>
    match lockSetOwnerHandle request newOwner t with
    | .ok (_, t) => t
    | .error _ => t
  | writeData request data => lockWriteData request data t

end Step

def runSteps (ordering : Bool) (ss : List Step) (t : Table) : Table :=
  ss.foldl (Step.apply ordering) t

def LegalSteps (ordering : Bool) : List Step → Table → Prop
  | [], _ => True
  | s :: ss, t => s.Legal ordering t ∧ LegalSteps ordering ss (s.apply ordering t)

instance decidableLegalSteps (ordering : Bool) :
    (ss : List Step) → (t : Table) → Decidable (LegalSteps ordering ss t)
  | [], _ => isTrue trivial
  | s :: ss, t =>
    have := decidableLegalSteps ordering ss (s.apply ordering t)
    inferInstanceAs (Decidable (s.Legal ordering t ∧ _))

variable {t : Table} {l : Lbl} {r : Lrq} {id : RequestId} {newOwner : OwnerId}

def moveRequest (id : RequestId) (newOwner : OwnerId) (l : Lbl) (r : Lrq) (t : Table) : Table :=
  ((t.modifyOwner r.owner fun o => { o with requests := o.requests.filter (· ≠ id) }).setLock
    (l.modifyRequest id fun r => { r with owner := newOwner })).modifyOwner newOwner
      fun o => { o with requests := o.requests ++ [id] }

theorem moveRequest_queues (id : RequestId) (newOwner : OwnerId) (l : Lbl) (r : Lrq) (t : Table) :
    (moveRequest id newOwner l r t).queues =
      (t.queues.map fun p => if p.1 = r.owner then (p.1, p.2.filter (· ≠ id)) else p).map
        fun p => if p.1 = newOwner then (p.1, p.2 ++ [id]) else p := by
  refine (modifyOwner_queues newOwner (fun o => { o with requests := o.requests ++ [id] })
    (fun _ => rfl) (fun q => q ++ [id]) fun _ => rfl).trans (congrArg _ ?_)
  exact modifyOwner_queues r.owner (fun o => { o with requests := o.requests.filter (· ≠ id) })
    (fun _ => rfl) (fun q => q.filter (· ≠ id)) fun _ => rfl

theorem lockSetOwnerHandle_eq (hget : t.getRequest id = some (l, r)) (hne : r.owner ≠ newOwner) :
    lockSetOwnerHandle id newOwner t =
      if ∃ g ∈ l.requests, g.data = newOwner then .error "release when not owner"
      else .ok (true, moveRequest id newOwner l r t) := by
  unfold lockSetOwnerHandle
  rw [hget]
  simp only [if_neg hne, any_eq_true, decide_eq_true_eq, Lrq.ownerFromLink_eq, Option.some.injEq,
    release, Ne, Ne.symm hne]
  rfl

theorem ids_modifyRequest (l : Lbl) (id : RequestId) (f : Lrq → Lrq) (hf : ∀ r, (f r).id = r.id) :
    (l.modifyRequest id f).requests.map Lrq.id = l.requests.map Lrq.id := by
  dsimp only [Lbl.modifyRequest]
  rw [map_map]
  refine map_congr_left fun r _ => ?_
  dsimp only [Function.comp]
  split
  · exact hf r
  · rfl

theorem moveRequest_tidy (ht : t.Tidy) (hget : t.getRequest id = some (l, r))
    (hnew : newOwner ∈ t.queues.map Prod.fst) : (moveRequest id newOwner l r t).Tidy := by
  obtain ⟨hl, hr, rfl⟩ := getRequest_mem hget
  obtain ⟨pre, post, hsplit, hpre, hpost⟩ :=
    split_holdings (Whole.locks ht) (mem_map_of_mem hl : l.holds ∈ t.holdings)
  have hlocks := Whole.locks ht
  rw [hsplit, map_append, map_cons] at hlocks
  have hids := ht.ids hl
  -- the request is off its lock, and then on it again with the other owner
  set rest := (l.removeRequest r.id).holds.2 with hrest
  have hremove : l.holds.2 = r.pair ::ₘ rest := holds_removeRequest hids hr
  set l' := l.modifyRequest r.id fun r => { r with owner := newOwner } with hl'
  have hadd : l'.holds.2 = (r.id, newOwner) ::ₘ rest := by
    have hids' : (l'.requests.map Lrq.id).Nodup := by
      rw [hl', ids_modifyRequest l r.id (fun r => { r with owner := newOwner }) fun _ => rfl]
      exact hids
    have hr' : { r with owner := newOwner } ∈ l'.requests :=
      mem_map.mpr ⟨r, hr, if_pos rfl⟩
    have hrem := holds_removeRequest hids' hr'
    have hsame : (l'.removeRequest r.id).requests = (l.removeRequest r.id).requests :=
      removeRequest_modifyRequest l r.id _ fun _ _ e => e
    have hholds : (l'.removeRequest r.id).holds.2 = rest := by
      rw [hrest, Lbl.holds, Lbl.holds, hsame]
    rw [← hholds]
    exact hrem
  have hout : Whole (pre ++ (l.id, rest) :: post) (t.queues.map fun p =>
      if p.1 = r.owner then (p.1, p.2.filter (· ≠ r.id)) else p) := by
    refine Whole.release ht (by rw [map_append, map_cons]; exact hlocks) ?_
    rw [hsplit, members_split, members_split, ← Multiset.cons_add]
    exact congrArg (· + _) hremove
  have hin : (moveRequest r.id newOwner l r t).holdings =
      pre ++ (l.id, (r.id, newOwner) ::ₘ rest) :: post := by
    rw [← hadd]
    change (t.setLock l').holdings = _
    rw [holdings_setLock, hsplit]
    exact map_replace hpre hpost _ _
  rw [Table.Tidy, hin, moveRequest_queues]
  refine hout.add (by rw [map_append, map_cons]; exact hlocks) ?_ ?_ ?_
  · rw [members_split, members_split, Multiset.cons_add]
  · have hall := Whole.ids ht
    have hcons : members (pre ++ l.holds :: post) = r.pair ::ₘ (rest + members (pre ++ post)) := by
      rw [members_split, hremove, Multiset.cons_add]
    rw [hsplit] at hall
    change ((members (pre ++ l.holds :: post)).map Prod.fst).Nodup at hall
    rw [hcons, Multiset.map_cons, Multiset.nodup_cons] at hall
    intro p hp e
    rw [members_split] at hp
    exact hall.1 (Multiset.mem_map.mpr ⟨p, hp, e⟩)
  · rw [map_map, map_congr_left (g := Prod.fst)]
    · exact hnew
    · intro p _
      dsimp only [Function.comp]
      split <;> rfl

theorem lockWriteData_same (id : RequestId) (data : Int) (ht : t.Tidy) :
    Same t (lockWriteData id data t) := by
  unfold lockWriteData
  split
  · exact .refl t
  · next l r hget => exact (Same.refl t).setLock ht (getRequest_mem hget).1 (holds_eq rfl rfl)

theorem Step.apply_tidy {ordering : Bool} {s : Step} (ht : t.Tidy) (hlegal : s.Legal ordering t) :
    (s.apply ordering t).Tidy := by
  cases s with
  | act a => exact Action.apply_tidy ht hlegal
  | setOwnerHandle request newOwner =>
    obtain ⟨⟨hlive, -⟩, o, ho, hid⟩ := hlegal
    obtain ⟨⟨l, r⟩, hget⟩ := Option.isSome_iff_exists.mp hlive
    by_cases hne : r.owner = newOwner
    · have hsame : lockSetOwnerHandle request newOwner t = .ok (true, t) := by
        unfold lockSetOwnerHandle
        rw [hget]
        exact if_pos hne
      simp only [Step.apply, hsame]
      exact ht
    · simp only [Step.apply, lockSetOwnerHandle_eq hget hne]
      split_ifs
      · exact ht
      · exact moveRequest_tidy ht hget (mem_map.mpr ⟨(o.id, o.requests), mem_map_of_mem ho, hid⟩)
  | writeData request data => exact (lockWriteData_same request data ht).tidy ht

theorem runSteps_tidy {ordering : Bool} {ss : List Step} (ht : t.Tidy)
    (hlegal : LegalSteps ordering ss t) : (runSteps ordering ss t).Tidy := by
  induction ss generalizing t with
  | nil => exact ht
  | cons s ss ih => exact ih (Step.apply_tidy ht hlegal.1) hlegal.2

/-- What is expected of `LOCK_set_owner_handle` for a request `r` on `l`. -/
def OwnerSet (id : RequestId) (newOwner : OwnerId) (l : Lbl) (t : Table) :
    Except String (Bool × Table) → Prop
  | .ok (true, t') =>
    (∀ r ∈ l.requests, r.id ≠ id → r.owner ≠ newOwner) ∧
      (∃ o ∈ t'.owners, o.id = newOwner ∧ id ∈ o.requests) ∧
      (∀ o ∈ t'.owners, o.id ≠ newOwner → id ∉ o.requests) ∧
      t'.locks = t.locks.map (fun l' =>
        if l'.id = l.id then l.modifyRequest id fun r => { r with owner := newOwner } else l') ∧
      t'.owners.map (fun o => { o with requests := o.requests.filter (· ≠ id) }) =
        t.owners.map (fun o => { o with requests := o.requests.filter (· ≠ id) })
  | .ok (false, t') => (∃ r ∈ l.requests, r.id ≠ id ∧ r.owner = newOwner) ∧ t' = t
  | .error _ => False

theorem moveRequest_owners (ht : t.Tidy) (hget : t.getRequest id = some (l, r))
    (hnew : ∃ o ∈ t.owners, o.id = newOwner) :
    (∃ o ∈ (moveRequest id newOwner l r t).owners, o.id = newOwner ∧ id ∈ o.requests) ∧
      ∀ o ∈ (moveRequest id newOwner l r t).owners, o.id ≠ newOwner → id ∉ o.requests := by
  obtain ⟨o, ho, hid⟩ := hnew
  have hin : newOwner ∈ t.queues.map Prod.fst :=
    mem_map.mpr ⟨(o.id, o.requests), mem_map_of_mem ho, hid⟩
  have htidy := moveRequest_tidy ht hget hin
  obtain ⟨hl, hr, rfl⟩ := getRequest_mem hget
  have hmem : (r.id, newOwner) ∈ members (moveRequest r.id newOwner l r t).holdings := by
    refine mem_members.mpr ⟨{ r with owner := newOwner }, ?_, rfl⟩
    exact mem_requests (l := l.modifyRequest r.id fun r => { r with owner := newOwner })
      (mem_map.mpr ⟨l, hl, if_pos rfl⟩) (mem_map.mpr ⟨r, hr, if_pos rfl⟩)
  have hqueue : ∀ o ∈ (moveRequest r.id newOwner l r t).owners,
      (o.id, o.requests) ∈ (moveRequest r.id newOwner l r t).queues :=
    fun o ho => mem_map_of_mem ho
  refine ⟨?_, fun o ho hne hin => ?_⟩
  · obtain ⟨q, hq⟩ := Whole.owned htidy _ hmem
    obtain ⟨o', ho', e⟩ := mem_map.mp hq
    cases e
    exact ⟨o', ho', rfl, ((Whole.queues htidy _ _ hq).2 _).mpr hmem⟩
  · exact hne (Whole.owner_eq htidy (((Whole.queues htidy _ _ (hqueue o ho)).2 _).mp hin) hmem)

/-- In every table that can be reached, a request changes its owner as it should exactly if the new
owner has no other request on the lock, and no request on the lock carries data that are taken for
the new owner. -/
theorem lockSetOwnerHandle_right {ordering : Bool} {ss : List Step} {id : RequestId}
    {newOwner : OwnerId} {l : Lbl} {r : Lrq} (hlegal : LegalSteps ordering ss initTable)
    (hget : (runSteps ordering ss initTable).getRequest id = some (l, r))
    (hnew : ∃ o ∈ (runSteps ordering ss initTable).owners, o.id = newOwner)
    (hne : r.owner ≠ newOwner) :
    OwnerSet id newOwner l (runSteps ordering ss initTable)
        (lockSetOwnerHandle id newOwner (runSteps ordering ss initTable)) ↔
      (∀ g ∈ l.requests, g.data ≠ newOwner) ∧
        ∀ r ∈ l.requests, r.id ≠ id → r.owner ≠ newOwner := by
  have ht := runSteps_tidy initTable_tidy hlegal
  generalize runSteps ordering ss initTable = t at hget hnew ht
  rw [lockSetOwnerHandle_eq hget hne]
  split_ifs with hdata
  · obtain ⟨g, hg, e⟩ := hdata
    exact iff_of_false not_false fun h => h.1 g hg e
  · have hnodata : ∀ g ∈ l.requests, g.data ≠ newOwner := fun g hg e => hdata ⟨g, hg, e⟩
    obtain ⟨hon, hoff⟩ := moveRequest_owners ht hget hnew
    refine ⟨fun h => ⟨hnodata, h.1⟩, fun h => ⟨h.2, hon, hoff, rfl, ?_⟩⟩
    simp only [moveRequest, Table.modifyOwner, Table.setLock, map_map]
    refine map_congr_left fun o _ => ?_
    dsimp only [Function.comp]
    split_ifs <;> simp

def spareRun : List Step :=
  [.act (.createOwner 1), .act (.createOwner 2), .act (simpleEnq 1 10 (some 0) .sr 0)]

theorem lockSetOwnerHandle_right_spare :
    ∃ l r, (runSteps true spareRun initTable).getRequest 10 = some (l, r) ∧
      (OwnerSet 10 2 l (runSteps true spareRun initTable)
          (lockSetOwnerHandle 10 2 (runSteps true spareRun initTable)) ↔
        (∀ g ∈ l.requests, g.data ≠ (2 : OwnerId)) ∧
          ∀ r ∈ l.requests, r.id ≠ 10 → r.owner ≠ 2) :=
  ⟨_, _, rfl, lockSetOwnerHandle_right (by decide) rfl (by decide) (by decide)⟩

def bothRun : List Step := spareRun ++ [.act (simpleEnq 2 20 none .sr 0)]

/-- The new owner has two requests on the lock afterwards, and is told that it is the owner. -/
theorem second_request_unnoticed :
    LegalSteps true bothRun initTable ∧
      (runSteps true bothRun initTable).Idle 10 ∧
      ∃ p ∈ (runSteps true bothRun initTable).getRequest 10,
        ∃ t, lockSetOwnerHandle 10 2 (runSteps true bothRun initTable) = .ok (true, t) ∧
          ¬OwnerSet 10 2 p.1 (runSteps true bothRun initTable) (.ok (true, t)) := by
  refine ⟨by decide, by decide, _, rfl, _, rfl, fun h => ?_⟩
  have hone : ∃ p ∈ (runSteps true bothRun initTable).getRequest 10,
      ∃ r ∈ p.1.requests, r.id ≠ 10 ∧ r.owner = 2 := by decide
  obtain ⟨p, hp, r, hr, hid, howner⟩ := hone
  cases hp
  exact h.1 r hr hid howner

/-- In every table that can be reached, the locks and the owners agree: no request is on the locks
twice, each is once in the queue of its owner and in no other, and the queues have no others. -/
theorem requests_queued {ordering : Bool} {ss : List Step}
    (hlegal : LegalSteps ordering ss initTable) :
    let t := runSteps ordering ss initTable
    (t.locks.map Lbl.id).Nodup ∧ (t.owners.map Own.id).Nodup ∧ (t.requests.map Lrq.id).Nodup ∧
      (∀ r ∈ t.requests, ∃ o ∈ t.owners, o.id = r.owner ∧ r.id ∈ o.requests) ∧
      ∀ o ∈ t.owners, o.requests.Nodup ∧
        ∀ id ∈ o.requests, ∃ l r, t.getRequest id = some (l, r) ∧ r.owner = o.id := by
  have ht := runSteps_tidy initTable_tidy hlegal
  generalize runSteps ordering ss initTable = t at ht ⊢
  have hqueue : ∀ o ∈ t.owners, (o.id, o.requests) ∈ t.queues := fun o ho => mem_map_of_mem ho
  refine ⟨ht.locks, ?_, ht.requests, fun r hr => ?_, fun o ho => ?_⟩
  · have howners := Whole.owners ht
    rwa [Table.queues, map_map] at howners
  · have hmem := mem_members.mpr ⟨r, hr, rfl⟩
    obtain ⟨q, hq⟩ := Whole.owned ht r.pair hmem
    obtain ⟨o, ho, e⟩ := mem_map.mp hq
    obtain ⟨hid, rfl⟩ := Prod.mk.inj e
    exact ⟨o, ho, hid, ((Whole.queues ht _ _ hq).2 _).mpr hmem⟩
  · obtain ⟨hnodup, hmem⟩ := Whole.queues ht _ _ (hqueue o ho)
    refine ⟨hnodup, fun id hid => ?_⟩
    have hin := (hmem id).mp hid
    cases hget : t.getRequest id with
    | none => exact absurd rfl (mem_of_getRequest_none hget _ hin)
    | some p =>
      obtain ⟨l, r⟩ := p
      obtain ⟨hl, hr, rfl⟩ := getRequest_mem hget
      have hpair : r.pair ∈ members t.holdings := mem_members.mpr ⟨r, mem_requests hl hr, rfl⟩
      exact ⟨l, r, rfl, Whole.owner_eq ht hpair hin⟩

theorem requests_queued_both :
    ((runSteps true bothRun initTable).requests.map Lrq.id).Nodup ∧
      ∀ o ∈ (runSteps true bothRun initTable).owners, o.requests.Nodup := by
  have hlegal : LegalSteps true bothRun initTable := by decide
  obtain ⟨-, -, hids, -, hqueues⟩ := requests_queued hlegal
  exact ⟨hids, fun o ho => (hqueues o ho).1⟩

end Firebird.Lock
