import Firebird.Jrd.Nbak
import Mathlib.Tactic.MkIffOfInductiveProp

/-!
# What a backup leaves locked

`begin_backup` and `end_backup` with the calls that may raise. A call that takes something takes
nothing if it raises; one that gives something back has given it back: `CCH_RELEASE` unwinds the
cache before it raises. The check for a raw device comes before anything is taken.
-/
namespace Firebird.Jrd.Nbak

inductive HdrState
  | normal
  | stalled
  | merge
  deriving DecidableEq

/-- What the caller holds, with its flags `header_locked` and `database_locked`. No `backupState` is
`nbak_state_unknown`. -/
structure Holder where
  backupState : Option HdrState
  header : HdrState
  sharedLock : Bool
  writeLock : Bool
  backupWriteLocked : Bool
  endLock : Bool
  fetched : Nat
  released : Nat
  headerLocked : Bool
  databaseLocked : Bool

/-- The calls that may raise. `work` is what is done to files and tables. -/
inductive LockCall
  | endLock
  | lockShared
  | unlockShared
  | flush
  | lock
  | fetch
  | work
  | mark
  | replaceEntry
  | release
  | unlock
  | endUnlock
  deriving DecidableEq

inductive Exit
  | returned
  | raised

/-- At most one call of the `try` blocks raises. -/
@[simp] def failing (fails : Option LockCall) (c : LockCall) : Bool := fails = some c

/-- A part of a function that goes on, or has left it. -/
abbrev Part := Except (Exit × Holder) Holder

def Holder.call (s : Holder) (raises : LockCall → Bool) (c : LockCall) : Part :=
  if raises c then .error (.raised, s) else .ok s

def Part.last : Part → Holder
  | .ok s => s
  | .error (_, s) => s

/-- A `try` block with its `catch` block, which throws again. -/
def Part.catching (body : Part) (handler : Holder → Part) : Part :=
  match body with
  | .error (.raised, s) => .error (.raised, (handler s).last)
  | part => part

/-- `endLock` is a local variable, whose destructor releases the lock. -/
@[simps] def Holder.leave (s : Holder) : Holder := { s with endLock := false }

section

variable (raises again : LockCall → Bool)

/-- The lock on the database has been taken. The state is the one that the header has; it may be
unknown still if the lock was cached. -/
@[simp] def Holder.actualized (s : Holder) (found : Option HdrState) : Holder :=
  { s with backupState := found, header := found.getD s.header }

@[simp] def lockCleanDatabase (found : Option HdrState) (s : Holder) : Part := do
  let s ← s.call raises .flush
  let s ← s.call raises .lock
  let s := { s.actualized found with writeLock := true, backupWriteLocked := true }
  let s ← s.call raises .fetch
  return { s with fetched := s.fetched + 1 }

@[simp] def unlockCleanDatabase (s : Holder) : Part :=
  Holder.call { s with backupWriteLocked := false, writeLock := false } raises .unlock

@[simp] def lockSharedDatabase (found : Option HdrState) (s : Holder) : Part :=
  if s.backupWriteLocked then .ok s
  else do
    let s ← s.call raises .lockShared
    return { s.actualized found with sharedLock := true }

@[simp] def unlockSharedDatabase (s : Holder) : Part :=
  if s.backupWriteLocked then .ok s
  else Holder.call { s with sharedLock := false } raises .unlockShared

/-- `CCH_RELEASE` of the header page -/
@[simp] def releaseHeader (s : Holder) : Part :=
  Holder.call { s with released := s.released + 1 } raises .release

def unlockEnd (s : Holder) : Part := s.leave.call raises .endUnlock

/-- What the `catch` blocks give back by the flags. -/
@[simp] def releaseLocked (s : Holder) : Part := do
  let s ← if s.headerLocked then releaseHeader again s else .ok s
  if s.databaseLocked then unlockCleanDatabase again s else .ok s

def beginBackup (found : Option HdrState) (s : Holder) : Part :=
  Part.catching (do
    let s ← lockCleanDatabase raises found s
    let s := { s with databaseLocked := true, headerLocked := true }
    if s.backupState ≠ some .normal then
      let s ← releaseHeader raises s
      let s ← unlockCleanDatabase raises s
      .error (.returned, s)
    else
      let s ← s.call raises .work
      let s ← s.call raises .mark
      let s ← Holder.call { s with header := .stalled } raises .replaceEntry
      let s ← releaseHeader raises { s with headerLocked := false }
      unlockCleanDatabase raises { s with backupState := some .stalled, databaseLocked := false })
    fun s => releaseLocked again { s with backupState := none }

/-- Whether the state lets `end_backup` go on. -/
def mayEnd (recover : Bool) (state : Option HdrState) : Bool :=
  !((recover || state ≠ some .stalled) && state ≠ some .merge)

/-- The first step of `end_backup`: the state in the header becomes `nbak_state_merge`. -/
def toMerge (recover : Bool) (found recheck : Option HdrState) (s : Holder) : Part :=
  Part.catching (do
    let s ← lockSharedDatabase raises found s
    if mayEnd recover s.backupState then
      let s ← unlockSharedDatabase raises s
      let s ← lockCleanDatabase raises recheck s
      let s := { s with databaseLocked := true }
      if mayEnd recover s.backupState then
        let s := { s with headerLocked := true, backupState := some .merge }
        let s ← s.call raises .mark
        let s ← releaseHeader raises { s with header := .merge }
        let s ← unlockCleanDatabase raises { s with headerLocked := false }
        return { s with databaseLocked := false }
      else
        let s ← unlockEnd raises s
        let s ← unlockCleanDatabase raises s
        .error (.returned, s)
    else
      let s ← unlockEnd raises s
      let s ← unlockSharedDatabase raises s
      .error (.returned, s))
    fun s => do
      let s ← releaseLocked again { s with backupState := none }
      unlockEnd again s

def mergePages (found : Option HdrState) (s : Holder) : Part := do
  let s ← lockSharedDatabase raises found s
  let s := { s with databaseLocked := true }
  Part.catching (do
    let s ← s.call raises .work
    let s ← unlockSharedDatabase raises s
    return { s with databaseLocked := false })
    fun s => do
      let s ← unlockEnd again s
      if s.databaseLocked then unlockSharedDatabase again s else .ok s

/-- The third step: the state in the header becomes `nbak_state_normal`. -/
def toNormal (found : Option HdrState) (s : Holder) : Part :=
  Part.catching (do
    let s ← lockCleanDatabase raises found s
    let s := { s with databaseLocked := true, headerLocked := true, backupState := some .normal }
    let s ← s.call raises .mark
    let s ← releaseHeader raises { s with header := .normal }
    let s := { s with headerLocked := false }
    let s ← s.call raises .work
    let s ← if s.databaseLocked then unlockCleanDatabase raises s else .ok s
    unlockEnd raises s)
    fun s => do
      let s ← unlockEnd again { s with backupState := none }
      releaseLocked again s

end

/-- The steps of `end_backup`. -/
inductive Phase
  | toMerge
  | mergePages
  | toNormal
  deriving DecidableEq

/-- What a run of `end_backup` meets: the answer of `endLock.lock`, the states that it finds each
time it has locked the database, the call that raises and those that raise in the `catch` block. -/
structure EndRun where
  recover : Bool
  granted : Bool
  found : Nat → Option HdrState
  fails : Option (Phase × LockCall)
  again : LockCall → Bool

def EndRun.failsIn (e : EndRun) (phase : Phase) : Option LockCall :=
  e.fails.bind fun p => if p.1 = phase then some p.2 else none

def EndRun.raising (e : EndRun) (phase : Phase) : LockCall → Bool := failing (e.failsIn phase)

def endBackup (e : EndRun) (s : Holder) : Holder :=
  let part : Part := do
    let s ← s.call (e.raising .toMerge) .endLock
    if e.granted then
      let s := { s with endLock := true }
      let s ← toMerge (e.raising .toMerge) e.again e.recover (e.found 0) (e.found 1) s
      let s ← mergePages (e.raising .mergePages) e.again (e.found 2) s
      toNormal (e.raising .toNormal) e.again (e.found 3) s
    else .error (.returned, s)
  part.last.leave

/-- A caller that holds nothing on the database, after `n` fetches of the header page. -/
def atRest (backupState : Option HdrState) (header : HdrState) (endLock : Bool) (n : Nat) :
    Holder :=
  { backupState, header, endLock, sharedLock := false, writeLock := false, fetched := n
    released := n, backupWriteLocked := false, headerLocked := false, databaseLocked := false }

def entry (header : HdrState) (known : Bool) : Holder :=
  atRest (if known then some header else none) header false 0

/-- Nothing is left locked, and the state is the one in the header or unknown. -/
@[mk_iff]
structure Holder.Clean (s : Holder) : Prop where
  pages : s.released = s.fetched
  locks : s.sharedLock = false ∧ s.writeLock = false ∧ s.endLock = false
  flag : s.backupWriteLocked = false
  state : s.backupState = none ∨ s.backupState = some s.header

/-- What `begin_backup` has to be spared. -/
@[mk_iff]
structure BeginSpared (fails : Option LockCall) (again : LockCall → Bool)
    (found : Option HdrState) : Prop where
  fetch : fails ≠ some .fetch
  invalid : found ≠ some .normal → fails ≠ some .release ∧ fails ≠ some .unlock
  release : found = some .normal → again .release = true →
    fails ≠ some .work ∧ fails ≠ some .mark ∧ fails ≠ some .replaceEntry

/-- The calls of a step of `end_backup` that must not raise. -/
@[simp] def Spared (again : LockCall → Bool) : Phase → LockCall → Prop
  | .toMerge, .fetch | .toMerge, .release | .toNormal, .fetch | .toNormal, .release => False
  | .toMerge, .mark => again .release = false
  | .mergePages, .work | .toNormal, .work => again .endUnlock = false
  | .toNormal, .mark => again .endUnlock = false ∧ again .release = false
  | _, _ => True

/-- What `end_backup` has to be spared. -/
@[mk_iff]
structure EndSpared (e : EndRun) : Prop where
  first : e.granted = true → mayEnd e.recover (e.found 0) = false →
    e.fails ≠ some (.toMerge, .endUnlock)
  second : e.granted = true → mayEnd e.recover (e.found 0) = true →
    mayEnd e.recover (e.found 1) = false → ∃ c, e.fails = some (.toMerge, c) ∧
      (c = .endLock ∨ c = .lockShared ∨ c = .unlockShared ∨ c = .flush ∨ c = .lock)
  steps : e.granted = true → mayEnd e.recover (e.found 0) = true →
    mayEnd e.recover (e.found 1) = true →
    ∀ phase c, e.fails = some (phase, c) → Spared e.again phase c

/-! ## Parts -/

variable {raises again : LockCall → Bool} {s : Holder}

@[simp] theorem ok_bind (f : Holder → Part) : ((.ok s : Part) >>= f) = f s := rfl

@[simp] theorem error_bind (x : Exit × Holder) (f : Holder → Part) :
    ((.error x : Part) >>= f) = .error x := rfl

@[simp] theorem pure_eq : (pure s : Part) = .ok s := rfl

@[simp] theorem catching_ok (handler : Holder → Part) : Part.catching (.ok s) handler = .ok s := rfl

@[simp] theorem catching_returned (handler : Holder → Part) :
    Part.catching (.error (.returned, s)) handler = .error (.returned, s) := rfl

@[simp] theorem catching_raised (handler : Holder → Part) :
    Part.catching (.error (.raised, s)) handler = .error (.raised, (handler s).last) := rfl

@[simp] theorem last_ok : Part.last (.ok s) = s := rfl

@[simp] theorem last_error (exit : Exit) : Part.last (.error (exit, s)) = s := rfl

@[simp] theorem last_call (c : LockCall) : (s.call raises c).last = s := by
  unfold Holder.call
  split_ifs <;> rfl

@[simp] theorem call_of_true {c : LockCall} (h : raises c = true) :
    s.call raises c = .error (.raised, s) := if_pos h

@[simp] theorem call_of_false {c : LockCall} (h : raises c = false) : s.call raises c = .ok s :=
  if_neg (Bool.eq_false_iff.1 h)

@[simp] theorem last_unlockEnd : (unlockEnd again s).last = s.leave := last_call _

@[simp] theorem unlockEnd_of_true (h : raises .endUnlock = true) :
    unlockEnd raises s = .error (.raised, s.leave) := call_of_true h

@[simp] theorem unlockEnd_of_false (h : raises .endUnlock = false) :
    unlockEnd raises s = .ok s.leave := call_of_false h

@[simp] theorem leave_unlockEnd (part : Part) :
    (Part.last (part >>= unlockEnd again)).leave = part.last.leave := by
  cases part with
  | ok s => rw [ok_bind, last_unlockEnd]; rfl
  | error x => rfl

@[simp] theorem leave_leave : s.leave.leave = s.leave := rfl

@[simp] theorem clean_leave : s.leave.Clean ↔ s.released = s.fetched ∧ s.sharedLock = false ∧
    s.writeLock = false ∧ s.backupWriteLocked = false ∧
    (s.backupState = none ∨ s.backupState = some s.header) :=
  ⟨fun ⟨hp, hl, hf, hs⟩ => ⟨hp, hl.1, hl.2.1, hf, hs⟩,
    fun ⟨hp, hr, hw, hf, hs⟩ => ⟨hp, ⟨hr, hw, rfl⟩, hf, hs⟩⟩

variable {fails : Option LockCall} {c : LockCall} {recover : Bool} {header : HdrState}
  {b found recheck : Option HdrState} {e : Bool} {n : Nat} {spared : LockCall → Prop}

/-- A step goes on, or a call in it raises and what is left is clean under a condition. -/
def Leaves (s : Holder) (fails : Option LockCall) (spared : LockCall → Prop) : Part → Prop
  | .ok s' => s' = s ∧ ∀ c ∈ fails, spared c
  | .error (_, s') => ∃ c ∈ fails, (s'.leave.Clean ↔ spared c)

@[simp] theorem leaves_ok {s' : Holder} :
    Leaves s fails spared (.ok s') ↔ s' = s ∧ ∀ c ∈ fails, spared c := .rfl

@[simp] theorem leaves_error {s' : Holder} {exit : Exit} :
    Leaves s fails spared (.error (exit, s')) ↔ ∃ c ∈ fails, (s'.leave.Clean ↔ spared c) := .rfl

theorem Leaves.clean {part : Part} (h : Leaves s fails spared part) (hs : s.leave.Clean) :
    part.last.leave.Clean ↔ ∀ c ∈ fails, spared c := by
  cases part with
  | ok s' =>
    obtain ⟨rfl, hspared⟩ := h
    exact iff_of_true hs hspared
  | error x =>
    obtain ⟨c, hc, hclean⟩ := h
    refine hclean.trans ⟨fun hs d hd => ?_, fun hs => hs c hc⟩
    rwa [← Option.mem_unique hc hd]

theorem Leaves.clean_iff {part : Part} (h : Leaves s fails spared part) {f : Holder → Part}
    {rest : Prop} (hf : (f s).last.leave.Clean ↔ rest) (hrest : ∀ c ∈ fails, rest) :
    (Part.last (part >>= f)).leave.Clean ↔ (∀ c ∈ fails, spared c) ∧ rest := by
  cases part with
  | ok s' =>
    obtain ⟨rfl, hspared⟩ := h
    exact hf.trans (and_iff_right hspared).symm
  | error x =>
    obtain ⟨c, hc, hclean⟩ := h
    refine hclean.trans ⟨fun hs => ⟨fun d hd => ?_, hrest c hc⟩, fun hs => hs.1 c hc⟩
    rwa [← Option.mem_unique hc hd]

@[simp] theorem unknown_or_found : found = none ∨ found = some (found.getD header) := by
  cases found <;> simp

theorem toMerge_first (hfound : mayEnd recover found = false) (f : Holder → Part) :
    (Part.last (toMerge (failing fails) again recover found recheck (atRest b header e n) >>=
      f)).leave.Clean ↔ fails ≠ some .endUnlock := by
  rcases fails with _ | c
  · simp [toMerge, atRest, hfound]
  · cases c <;> simp [toMerge, atRest, hfound]

theorem toMerge_second (hfound : mayEnd recover found = true)
    (hrecheck : mayEnd recover recheck = false) (f : Holder → Part) :
    (Part.last (toMerge (failing fails) again recover found recheck (atRest b header e n) >>=
      f)).leave.Clean ↔
      ∃ c, fails = some c ∧ (c = .lockShared ∨ c = .unlockShared ∨ c = .flush ∨ c = .lock) := by
  rcases fails with _ | c
  · simp [toMerge, atRest, hfound, hrecheck]
  · cases c <;> simp [toMerge, atRest, hfound, hrecheck]

theorem toMerge_leaves (hfound : mayEnd recover found = true)
    (hrecheck : mayEnd recover recheck = true) :
    Leaves (atRest (some .merge) .merge e (n + 1)) fails (Spared again .toMerge)
      (toMerge (failing fails) again recover found recheck (atRest b header e n)) := by
  rcases fails with _ | c
  · simp [toMerge, atRest, hfound, hrecheck]
  · cases hr : again .release <;> cases c <;> simp [toMerge, atRest, hfound, hrecheck, hr]

theorem mergePages_leaves :
    Leaves (atRest found (found.getD header) e n) fails (Spared again .mergePages)
      (mergePages (failing fails) again found (atRest (some header) header e n)) := by
  rcases fails with _ | c
  · simp [mergePages, atRest]
  · cases he : again .endUnlock <;> cases c <;> simp [mergePages, atRest, he]

theorem toNormal_leaves :
    Leaves (Holder.leave { atRest (some .normal) .normal e (n + 1) with databaseLocked := true })
      fails (Spared again .toNormal)
      (toNormal (failing fails) again found (atRest b header e n)) := by
  rcases fails with _ | c
  · simp [toNormal, atRest]
  · cases he : again .endUnlock <;> cases hr : again .release <;> cases c <;>
      simp [toNormal, atRest, he, hr]

theorem beginBackup_clean (header : HdrState) (known : Bool) :
    (beginBackup (failing fails) again found (entry header known)).last.Clean ↔
      BeginSpared fails again found := by
  rw [Holder.clean_iff, beginSpared_iff]
  by_cases hfound : found = some .normal
  · subst hfound
    rcases fails with _ | c
    · simp [beginBackup, entry, atRest]
    · cases hr : again .release <;> cases c <;> simp [beginBackup, entry, atRest, hr]
  · rcases fails with _ | c
    · simp [beginBackup, entry, atRest, hfound]
    · cases hr : again .release <;> cases c <;> simp [beginBackup, entry, atRest, hfound, hr]

theorem mem_failsIn {e : EndRun} {phase : Phase} : c ∈ e.failsIn phase ↔
    e.fails = some (phase, c) := by
  unfold EndRun.failsIn
  rcases e.fails with _ | ⟨phase', c'⟩
  · simp
  · rw [Option.bind_some, Option.mem_def]
    split_ifs with h
    · subst h
      simp
    · simp [h]

theorem EndRun.spared_iff (e : EndRun) :
    ((∀ c ∈ e.failsIn .toMerge, Spared e.again .toMerge c) ∧
      (∀ c ∈ e.failsIn .mergePages, Spared e.again .mergePages c) ∧
      ∀ c ∈ e.failsIn .toNormal, Spared e.again .toNormal c) ↔
    ∀ phase c, e.fails = some (phase, c) → Spared e.again phase c := by
  simp only [mem_failsIn]
  refine ⟨fun ⟨h₁, h₂, h₃⟩ phase => ?_, fun h => ⟨h .toMerge, h .mergePages, h .toNormal⟩⟩
  cases phase with
  | toMerge => exact h₁
  | mergePages => exact h₂
  | toNormal => exact h₃

theorem EndRun.spared_of_mem {e : EndRun} {phase phase' : Phase} (hne : phase ≠ phase')
    (hc : c ∈ e.failsIn phase) : ∀ d ∈ e.failsIn phase', Spared e.again phase' d := fun d hd => by
  have h := (mem_failsIn.1 hc).symm.trans (mem_failsIn.1 hd)
  cases h
  exact absurd rfl hne

theorem EndRun.mergePages_clean (e : EndRun) :
    (Part.last (mergePages (e.raising .mergePages) e.again (e.found 2)
      (atRest (some .merge) .merge true 1) >>=
        toNormal (e.raising .toNormal) e.again (e.found 3))).leave.Clean ↔
      (∀ c ∈ e.failsIn .mergePages, Spared e.again .mergePages c) ∧
        ∀ c ∈ e.failsIn .toNormal, Spared e.again .toNormal c :=
  mergePages_leaves.clean_iff (toNormal_leaves.clean (by simp [atRest])) fun _ hc =>
    by exact EndRun.spared_of_mem (by decide) hc

theorem endBackup_clean (e : EndRun) (header : HdrState) (known : Bool) :
    (endBackup e (entry header known)).Clean ↔ EndSpared e := by
  have hentry : (entry header known).leave.Clean := by
    cases known <;> simp [entry, atRest]
  rw [endSpared_iff]
  unfold endBackup
  dsimp only
  cases hend : e.raising .toMerge .endLock with
  | true =>
    have hfails : e.fails = some (.toMerge, .endLock) := mem_failsIn.1 (of_decide_eq_true hend)
    rw [call_of_true hend, error_bind]
    exact iff_of_true hentry (by simp [hfails])
  | false =>
    have hne : e.fails ≠ some (.toMerge, .endLock) := fun h =>
      of_decide_eq_false hend (mem_failsIn.2 h)
    rw [call_of_false hend, ok_bind]
    split_ifs with hgranted
    · simp only [hgranted, true_imp_iff]
      cases hfound : mayEnd e.recover (e.found 0) with
      | false =>
        refine (toMerge_first (e := true) (n := 0) hfound _).trans ?_
        simp [← mem_failsIn]
      | true =>
        cases hrecheck : mayEnd e.recover (e.found 1) with
        | false =>
          refine (toMerge_second (e := true) (n := 0) hfound hrecheck _).trans ?_
          refine ⟨fun ⟨c, hc, h⟩ => ⟨nofun, fun _ _ => ⟨c, mem_failsIn.1 hc, .inr h⟩, nofun⟩,
            fun ⟨_, h, _⟩ => ?_⟩
          obtain ⟨c, hc, rfl | h⟩ := h rfl rfl
          · exact absurd hc hne
          · exact ⟨c, mem_failsIn.2 hc, h⟩
        | true =>
          have hfirst : Leaves (atRest (some .merge) .merge true 1) (e.failsIn .toMerge)
              (Spared e.again .toMerge) (toMerge (e.raising .toMerge) e.again e.recover (e.found 0)
                (e.found 1) (atRest (if known then some header else none) header true 0)) :=
            toMerge_leaves hfound hrecheck
          refine (hfirst.clean_iff e.mergePages_clean fun c hc => ?_).trans ?_
          · exact ⟨EndRun.spared_of_mem (by decide) hc, EndRun.spared_of_mem (by decide) hc⟩
          · exact e.spared_iff.trans (by simp)
    · exact iff_of_true hentry (by simp [hgranted])

/-- When `begin_backup` and `end_backup` leave nothing locked. -/
theorem backup_clean_iff (header : HdrState) (known : Bool) (e : EndRun) :
    ((beginBackup (failing fails) again found (entry header known)).last.Clean ↔
      BeginSpared fails again found) ∧
    ((endBackup e (entry header known)).Clean ↔ EndSpared e) :=
  ⟨beginBackup_clean header known, endBackup_clean e header known⟩

/-- The fetch of the header page raises. -/
theorem lock_not_released :
    ¬(beginBackup (failing (some .fetch)) (fun _ => false) (some .normal)
      (entry .normal true)).last.Clean := by
  rw [Holder.clean_iff]
  decide

end Firebird.Jrd.Nbak
