import Firebird.Lib.Dfs
import Firebird.Lock.Safety

/-!
# What the deadlock scan finds

`deadlock_walk` is a depth-first search over pending requests. The scan always ends, and it finds a
victim exactly if the request leads to a cycle of requests that stand in each other's way by their
levels. A request that waits only because others have been waiting longer is in nobody's way then:
the scan misses cycles that go through such a wait.
-/
namespace Firebird.Lock

open Lib List

/-- `block` stands in the way of `r` on their lock: with an incompatible level granted, or, if `r`
is new and lock ordering is on, before `r` in the queue with an incompatible level granted or asked
for. -/
def InTheWay (ordering : Bool) (l : Lbl) (r block : Lrq) : Prop :=
  if ordering = true ∧ r.state.rank ≤ Level.null.rank then
    block ∈ l.requests.takeWhile (fun b => b.id ≠ r.id) ∧
      compatible r.requested block.claimed = false
  else
    block ∈ l.requests ∧ block.id ≠ r.id ∧ compatible r.requested block.state = false

/-- The owner has nothing left to process, and waits without a time-out. -/
def Own.Stalled (o : Own) : Prop := o.timeout = false ∧ o.signaled = false ∧ o.blocks = []

/-- The pending request `id` waits for the owner of the pending request `id'`. -/
def Stalls (ordering : Bool) (t : Table) (id id' : RequestId) : Prop :=
  ∃ l r block owner, t.getRequest id = some (l, r) ∧ InTheWay ordering l r block ∧
    block.justGranted = false ∧ t.getOwner block.owner = some owner ∧ owner.Stalled ∧
    owner.pendingRequest = some id' ∧ t.Pending id'

variable {ordering : Bool} {t : Table} {id id' : RequestId}

theorem Stalls.pending (h : Stalls ordering t id id') : t.Pending id' := by
  obtain ⟨l, r, block, owner, -, -, -, -, -, -, hp⟩ := h
  exact hp

def Pursuit.request? : Pursuit → Option RequestId
  | skip => none
  | maybe => none
  | target r => some r.id

/-- The requests the walk goes to from the request `id`. -/
def walkTargets (ordering : Bool) (t : Table) (id : RequestId) : List RequestId :=
  match t.getRequest id with
  | none => []
  | some (l, r) => (blockers ordering r l.requests).filterMap fun b => (pursue t b).request?

variable {r : Lrq}

theorem mem_blockers {l : Lbl} {block : Lrq} :
    block ∈ blockers ordering r l.requests ↔ InTheWay ordering l r block := by
  unfold blockers InTheWay
  cases ordering with
  | false => simp
  | true =>
    by_cases hconv : r.state.rank ≤ Level.null.rank
    · simp [Nat.not_lt.mpr hconv]
    · simp [Nat.not_le.mp hconv]

theorem pursue_request? {block : Lrq} :
    (pursue t block).request? = some id ↔ block.justGranted = false ∧
      ∃ owner, t.getOwner block.owner = some owner ∧ owner.Stalled ∧
        owner.pendingRequest = some id ∧ t.Pending id := by
  unfold pursue
  split
  · next hnone => simp [Pursuit.request?, hnone]
  · next owner hown =>
    simp only [hown, Option.some.injEq, exists_eq_left', Own.Stalled]
    split_ifs with htimeout hbusy
    · simp [Pursuit.request?, htimeout]
    · simp only [Bool.or_eq_true] at hbusy
      simp only [Pursuit.request?]
      grind
    · simp only [Bool.or_eq_true, decide_eq_true_eq, not_or] at hbusy htimeout
      simp only [hbusy, htimeout, true_and, not_not.mp hbusy.1.2]
      split
      · next hnone =>
        simp only [Pursuit.request?, reduceCtorEq, false_iff]
        rintro ⟨e, p, hp, -⟩
        simp [e, Option.mem_def.mp hp] at hnone
      · next l target hget =>
        obtain ⟨id', e, hget⟩ := Option.bind_eq_some_iff.mp hget
        obtain ⟨-, -, rfl⟩ := getRequest_mem hget
        split_ifs with hp
        · simp only [Pursuit.request?, Option.some.injEq, e]
          refine ⟨fun h => ⟨h, h ▸ ⟨_, hget, hp⟩⟩, fun h => h.1⟩
        · simp only [Pursuit.request?, reduceCtorEq, false_iff, e, Option.some.injEq]
          rintro ⟨rfl, p, hp', hpend⟩
          obtain rfl : (l, target) = p := by simpa [hget] using hp'
          exact hp hpend

theorem mem_walkTargets : id' ∈ walkTargets ordering t id ↔ Stalls ordering t id id' := by
  unfold walkTargets Stalls
  split
  · next hnone => simp [hnone]
  · next l r hget =>
    simp only [mem_filterMap, mem_blockers, pursue_request?]
    grind

def Walk.marks (st : Walk) : Dfs.Marks RequestId := ⟨st.deadlock, st.scanned⟩

def searchResult (p : Option (Option RequestId × Walk)) : Dfs.Result RequestId :=
  p.map fun p => (p.1, p.2.marks)

theorem walkLoop_eq {walk : Lrq → Walk → Option (Option RequestId × Walk)}
    {f : RequestId → Dfs.Marks RequestId → Dfs.Result RequestId}
    (hwalk : ∀ r st, (∃ l, t.getRequest r.id = some (l, r)) →
      searchResult (walk r st) = f r.id st.marks) (bs : List Lrq) (st : Walk) :
    searchResult (walkLoop t walk bs st) =
      Dfs.searchAll f (bs.filterMap fun b => (pursue t b).request?) st.marks := by
  induction bs generalizing st with
  | nil => rfl
  | cons b bs ih =>
    unfold walkLoop
    split
    · next hp =>
      rw [filterMap_cons_none (by rw [hp]; rfl)]
      exact ih st
    · next hp =>
      rw [filterMap_cons_none (by rw [hp]; rfl)]
      exact ih { st with maybeDeadlock := true }
    · next r hp =>
      obtain ⟨l, hget, -⟩ := pursue_pending hp
      have hr := hwalk r st ⟨l, hget⟩
      rw [filterMap_cons_some (b := r.id) (by rw [hp]; rfl), Dfs.searchAll, ← hr]
      cases hres : walk r st with
      | none => rfl
      | some p =>
        obtain ⟨v, st'⟩ := p
        cases v with
        | none => exact ih st'
        | some v => rfl

theorem deadlockWalk_eq (ordering : Bool) (t : Table) (fuel : Nat) (st : Walk)
    (hr : ∃ l, t.getRequest r.id = some (l, r)) :
    searchResult (deadlockWalk ordering t fuel r st) =
      Dfs.search (walkTargets ordering t) fuel r.id st.marks := by
  induction fuel generalizing r st with
  | zero => rfl
  | succ fuel ih =>
    obtain ⟨l, hget⟩ := hr
    have htargets : walkTargets ordering t r.id =
        (blockers ordering r l.requests).filterMap fun b => (pursue t b).request? := by
      rw [walkTargets, hget]
    unfold deadlockWalk Dfs.search
    change _ = if st.scanned r.id = true then _ else if st.deadlock r.id = true then _ else _
    split_ifs with hscanned hdead
    · rfl
    · rfl
    · rw [hget, htargets]
      dsimp only [Option.elim]
      have hloop := walkLoop_eq (fun r st hr => ih st hr) (blockers ordering r l.requests)
        { st with deadlock := Function.update st.deadlock r.id true }
      change _ = Dfs.searchAll _ _ ⟨Function.update st.marks.path r.id true, st.marks.done⟩ at hloop
      rw [← hloop]
      cases hres : walkLoop t (deadlockWalk ordering t fuel) (blockers ordering r l.requests)
          { st with deadlock := Function.update st.deadlock r.id true } with
      | none => rfl
      | some p =>
        obtain ⟨v, st'⟩ := p
        cases v <;> rfl

/-- The marks after `deadlock_clear`. -/
def clearMarks (t : Table) : Dfs.Marks RequestId :=
  ⟨(deadlockClear t).deadlock, (deadlockClear t).scanned⟩

theorem deadlockScan_eq (ordering : Bool) (owner : OwnerId)
    (hr : ∃ l, t.getRequest r.id = some (l, r)) :
    (deadlockScan ordering owner r t).map (fun p => (p.1, p.2.deadlock)) =
      (Dfs.search (walkTargets ordering t) (t.requests.length + 1) r.id (clearMarks t)).map
        fun p => (p.1, p.2.path) := by
  have hsearch : Dfs.search (walkTargets ordering t) (t.requests.length + 1) r.id (clearMarks t) =
      searchResult (deadlockWalk ordering (deadlockClear t) (t.requests.length + 1) r
        ⟨(deadlockClear t).deadlock, (deadlockClear t).scanned, false⟩) := by
    rw [deadlockWalk_eq ordering (deadlockClear t) _ _ hr]
    rfl
  rw [hsearch]
  unfold deadlockScan
  dsimp only
  rw [show (deadlockClear t).requests.length = t.requests.length from rfl]
  cases deadlockWalk ordering (deadlockClear t) (t.requests.length + 1) r
    ⟨(deadlockClear t).deadlock, (deadlockClear t).scanned, false⟩ with
  | none => rfl
  | some p =>
    dsimp only
    split_ifs <;> rfl

theorem pending_mem_requests (h : t.Pending id) : id ∈ t.requests.map Lrq.id := by
  obtain ⟨p, hget, -⟩ := h
  obtain ⟨hl, hr, rfl⟩ := getRequest_mem hget
  exact mem_map_of_mem (mem_requests hl hr)

theorem walkTargets_mem (h : id' ∈ walkTargets ordering t id) : id' ∈ t.requests.map Lrq.id :=
  pending_mem_requests (mem_walkTargets.mp h).pending

theorem clearMarks_clear (hown : ∃ o ∈ t.owners, o.pendingRequest = some id)
    (h : Relation.ReflTransGen (Dfs.Edge (walkTargets ordering t)) id id') :
    (clearMarks t).path id' = false ∧ (clearMarks t).done id' = false := by
  have hex : ∃ o ∈ t.owners, o.pendingRequest = some id' := by
    cases h with
    | refl => exact hown
    | tail _ hedge =>
      obtain ⟨l, r, block, owner, -, -, -, hget, -, hp, -⟩ := mem_walkTargets.mp hedge
      exact ⟨owner, mem_of_find?_eq_some hget, hp⟩
  have hpend : t.owners.any (fun o => o.pendingRequest = some id') = true := by
    simpa using hex
  simp [clearMarks, deadlockClear, hpend]

theorem edge_walkTargets (ordering : Bool) (t : Table) :
    Dfs.Edge (walkTargets ordering t) = Stalls ordering t := by
  funext id id'
  exact propext mem_walkTargets

/-- The scan ends. A request it returns is pending and on a cycle of requests that wait for each
other; if it returns none, it leaves no mark of its own. -/
theorem deadlockScan_sound (ordering : Bool) (owner : OwnerId) (r : Lrq) (t : Table)
    (hr : ∃ l, t.getRequest r.id = some (l, r)) (hp : r.pending = true)
    (hown : ∃ o ∈ t.owners, o.pendingRequest = some r.id) :
    ∃ v t', deadlockScan ordering owner r t = some (v, t') ∧
      (∀ id ∈ v, t.Pending id ∧ Relation.TransGen (Stalls ordering t) id id) ∧
      (v = none → t'.deadlock = (deadlockClear t).deadlock) := by
  have hlive : r.id ∈ t.requests.map Lrq.id := by
    obtain ⟨l, hget⟩ := hr
    exact pending_mem_requests ⟨(l, r), hget, hp⟩
  have hclosed : ∀ x ∈ t.requests.map Lrq.id, ∀ y ∈ walkTargets ordering t x,
      y ∈ t.requests.map Lrq.id := fun x _ y hy => walkTargets_mem hy
  have hsome := Dfs.search_isSome (m := clearMarks t) hclosed hlive
    (Nat.lt_succ_of_le (countP_le_length (l := t.requests.map Lrq.id)))
  obtain ⟨⟨v, m⟩, hsearch⟩ := Option.isSome_iff_exists.mp hsome
  rw [length_map] at hsearch
  have hscan := deadlockScan_eq ordering owner hr
  rw [hsearch] at hscan
  obtain ⟨⟨v', t'⟩, hres, he⟩ := Option.map_eq_some_iff.mp hscan
  simp only [Prod.mk.injEq] at he
  obtain ⟨rfl, hmarks⟩ := he
  refine ⟨v', t', hres, fun id hid => ?_, fun hnone => ?_⟩
  · obtain rfl := Option.mem_def.mp hid
    have hcycle := (Dfs.search_some (S := Relation.ReflTransGen (Dfs.Edge _) r.id)
      (fun y z hy hz => hy.tail hz) .refl
      (fun y hy hpath => by simp [(clearMarks_clear hown hy).1] at hpath) hsearch).2
    rw [edge_walkTargets] at hcycle
    obtain ⟨x, -, hlast⟩ := Relation.TransGen.tail'_iff.mp hcycle
    exact ⟨hlast.pending, hcycle⟩
  · subst hnone
    rw [hmarks, (Dfs.search_none (S := fun _ => True) (fun _ _ _ _ => trivial) hsearch).1.path]
    rfl

def crossRun : List Action :=
  [.createOwner 1, .createOwner 2, seriesEnq 1 10 1 (some 0) .ex 0, seriesEnq 2 20 2 (some 1) .ex 0,
    seriesEnq 1 11 2 none .ex 1, seriesEnq 2 21 1 none .ex 1]

/-- The request `id` of the table. -/
def Table.request (id : RequestId) (t : Table) : Option Lrq := (t.getRequest id).map (·.2)

theorem deadlockScan_sound_cross :
    ∃ r ∈ (runActions true crossRun initTable).request 21,
      ∃ v t', deadlockScan true 2 r (runActions true crossRun initTable) = some (v, t') ∧
        (∀ id ∈ v, (runActions true crossRun initTable).Pending id ∧
          Relation.TransGen (Stalls true (runActions true crossRun initTable)) id id) ∧
        (v = none → t'.deadlock = (deadlockClear
          (runActions true crossRun initTable)).deadlock) := by
  refine ⟨_, rfl, deadlockScan_sound true 2 _ _ ⟨_, rfl⟩ rfl ?_⟩
  decide

/-- The request `id` waits for the owner `o`: another request of `o` on its lock is granted at an
incompatible level, or the request is no conversion and one of `o` is pending before it. -/
def WaitsFor (t : Table) (id : RequestId) (o : OwnerId) : Prop :=
  ∃ p ∈ t.getRequest id, ∃ q ∈ p.1.requests, q.id ≠ id ∧ q.owner = o ∧
    (compatible p.2.requested q.state = false ∨
      p.2.state.rank ≤ Level.null.rank ∧ q.pending = true ∧
        q ∈ p.1.requests.takeWhile fun b => b.id ≠ id)

/-- The owner `o` waits for the request `id` and no other, without a time-out, with nothing left to
process and nothing just granted. -/
def Hangs (t : Table) (o : OwnerId) (id : RequestId) : Prop :=
  ∃ own ∈ t.getOwner o, own.pendingRequest = some id ∧ own.timeout = false ∧ own.blocks = [] ∧
    own.signaled = false ∧ own.wakeup = false ∧
    (∃ p ∈ t.getRequest id, p.2.owner = o ∧ p.2.pending = true) ∧
    ∀ r ∈ t.requests, r.owner = o → (r.pending = true → r.id = id) ∧ r.justGranted = false

def HangsOn (t : Table) (o o' : OwnerId) : Prop := ∃ id, Hangs t o id ∧ WaitsFor t id o'

instance (t : Table) (id : RequestId) (o : OwnerId) : Decidable (WaitsFor t id o) :=
  inferInstanceAs (Decidable (∃ p ∈ t.getRequest id, ∃ q ∈ p.1.requests, q.id ≠ id ∧ q.owner = o ∧
    (compatible p.2.requested q.state = false ∨
      p.2.state.rank ≤ Level.null.rank ∧ q.pending = true ∧
        q ∈ p.1.requests.takeWhile fun b => b.id ≠ id)))

instance (t : Table) (o : OwnerId) (id : RequestId) : Decidable (Hangs t o id) :=
  inferInstanceAs (Decidable (∃ own ∈ t.getOwner o, own.pendingRequest = some id ∧
    own.timeout = false ∧ own.blocks = [] ∧ own.signaled = false ∧ own.wakeup = false ∧
    (∃ p ∈ t.getRequest id, p.2.owner = o ∧ p.2.pending = true) ∧
    ∀ r ∈ t.requests, r.owner = o → (r.pending = true → r.id = id) ∧ r.justGranted = false))

/-- For owners that hang in a circle the scan finds a victim exactly if their request leads to a
cycle of requests that stand in each other's way by their levels. -/
theorem deadlockScan_complete_iff (t : Table) (o : OwnerId) (l : Lbl) (r : Lrq)
    (hget : t.getRequest r.id = some (l, r)) (hhangs : Hangs t o r.id) :
    Relation.TransGen (HangsOn t) o o →
      ((∃ v t', deadlockScan true o r t = some (some v, t')) ↔
        ∃ c, Relation.ReflTransGen (Stalls true t) r.id c ∧
          Relation.TransGen (Stalls true t) c c) := by
  intro _
  obtain ⟨own, hown, hpend, -, -, -, -, ⟨p, hp, -, hpp⟩, -⟩ := hhangs
  obtain rfl : (l, r) = p := by simpa [hget] using hp
  rw [← edge_walkTargets true t, ← Dfs.search_iff (U := t.requests.map Lrq.id) (m := clearMarks t)
    (fun x _ y hy => walkTargets_mem hy) (pending_mem_requests ⟨(l, r), hget, hpp⟩)
    fun y hy => clearMarks_clear ⟨own, mem_of_find?_eq_some hown, hpend⟩ hy, length_map]
  have hscan := deadlockScan_eq true o ⟨l, hget⟩
  constructor
  · rintro ⟨v, t', h⟩
    rw [h] at hscan
    obtain ⟨⟨v', m⟩, hsearch, e⟩ := Option.map_eq_some_iff.mp hscan.symm
    simp only [Prod.mk.injEq] at e
    obtain ⟨rfl, -⟩ := e
    exact ⟨v, m, hsearch⟩
  · rintro ⟨v, m, h⟩
    rw [h] at hscan
    obtain ⟨⟨v', t'⟩, hres, e⟩ := Option.map_eq_some_iff.mp hscan
    simp only [Prod.mk.injEq] at e
    obtain ⟨rfl, -⟩ := e
    exact ⟨v, t', hres⟩

/-- Owner 2 waits for `LCK_PR` on lock 1, and owner 3 behind it for `LCK_SR`, which is compatible
with that and with what owner 1 holds there. Owner 1 waits for owner 3 on lock 2. -/
def lineupRun : List Action :=
  [.createOwner 1, .createOwner 2, .createOwner 3, seriesEnq 1 10 1 (some 0) .sw 0,
    seriesEnq 3 30 2 (some 1) .ex 0, seriesEnq 2 20 1 none .pr 1, seriesEnq 3 31 1 none .sr 1,
    seriesEnq 1 11 2 none .ex 1]

/-- The two owners of `crossRun` hang in a circle, and the scan finds a victim. -/
theorem deadlockScan_complete_iff_cross :
    ∃ r ∈ (runActions true crossRun initTable).request 21,
      (∃ v t', deadlockScan true 2 r (runActions true crossRun initTable) = some (some v, t')) ↔
        ∃ c, Relation.ReflTransGen (Stalls true (runActions true crossRun initTable)) r.id c ∧
          Relation.TransGen (Stalls true (runActions true crossRun initTable)) c c := by
  have h₁ : HangsOn (runActions true crossRun initTable) 2 1 := ⟨21, by decide, by decide⟩
  have h₂ : HangsOn (runActions true crossRun initTable) 1 2 := ⟨11, by decide, by decide⟩
  exact ⟨_, rfl, deadlockScan_complete_iff _ 2 _ _ rfl (by decide) (.head h₁ (.single h₂))⟩

theorem missed_deadlock :
    LegalRun true (fun _ t => FewRequests t.locks) lineupRun initTable ∧
      Relation.TransGen (HangsOn (runActions true lineupRun initTable)) 3 3 ∧
      Hangs (runActions true lineupRun initTable) 3 31 ∧
      ∃ r ∈ (runActions true lineupRun initTable).request 31,
        (deadlockScan true 3 r (runActions true lineupRun initTable)).map (·.1) = some none := by
  refine ⟨by decide, ?_, by decide, _, rfl, by decide⟩
  have h₁ : HangsOn (runActions true lineupRun initTable) 3 2 := ⟨31, by decide, by decide⟩
  have h₂ : HangsOn (runActions true lineupRun initTable) 2 1 := ⟨20, by decide, by decide⟩
  have h₃ : HangsOn (runActions true lineupRun initTable) 1 3 := ⟨11, by decide, by decide⟩
  exact .head h₁ (.head h₂ (.single h₃))

end Firebird.Lock
