import Mathlib.Data.List.Perm.Basic
import Firebird.Lock.Level

/-!
# The global read/write lock

`GlobalRWLock`: logical owners of one process share one lock of the lock manager, `cached_lock`.
Where they get in each other's way every one of them asks the lock manager for a lock of its own,
outside the mutex of the counters, and the last one granted becomes the cached lock.
-/
namespace Firebird.Jrd

open List

open Lock (Level compatible)

inductive LockMode where
  | read | write
  deriving DecidableEq

/-- `LCK_read` is `LCK_PR`, and `LCK_write` is `LCK_EX`. -/
def LockMode.level : LockMode → Level
  | read => .pr
  | write => .ex

structure ObjectOwnerData where
  ownerHandle : Int
  entryCount : UInt32
  deriving DecidableEq

structure GlobalRWLock where
  /-- `cached_lock->lck_physical` -/
  physical : Level
  /-- `cached_lock->lck_owner_handle` -/
  cachedOwner : Int
  internalBlocking : Int
  externalBlocking : Bool
  physicalLockOwner : Int
  lockCaching : Bool
  readers : List ObjectOwnerData
  writer : ObjectOwnerData

namespace GlobalRWLock

def findReader (owner : Int) (s : GlobalRWLock) : Option ObjectOwnerData :=
  s.readers.find? fun d => d.ownerHandle = owner

def insertReader (d : ObjectOwnerData) : List ObjectOwnerData → List ObjectOwnerData
  | [] => [d]
  | x :: xs => if d.ownerHandle ≤ x.ownerHandle then d :: x :: xs else x :: insertReader d xs

/-- `readers[n].entry_count++` -/
def enterReader (owner : Int) : List ObjectOwnerData → List ObjectOwnerData
  | [] => []
  | x :: xs =>
    if x.ownerHandle = owner then { x with entryCount := x.entryCount + 1 } :: xs
    else x :: enterReader owner xs

/-- `readers[n].entry_count--`, and the reader goes when its count is zero. -/
def leaveReader (owner : Int) : List ObjectOwnerData → List ObjectOwnerData
  | [] => []
  | x :: xs =>
    if x.ownerHandle = owner then
      if x.entryCount - 1 = 0 then xs else { x with entryCount := x.entryCount - 1 } :: xs
    else x :: leaveReader owner xs

def register (mode : LockMode) (owner : Int) (s : GlobalRWLock) : GlobalRWLock :=
  match mode with
  | .read => { s with readers := insertReader ⟨owner, 1⟩ s.readers }
  | .write => { s with writer := ⟨owner, s.writer.entryCount + 1⟩ }

/-- `LCK_release(tdbb, cached_lock)` -/
def release (s : GlobalRWLock) : GlobalRWLock := { s with physical := .none }

/-- `LCK_downgrade(tdbb, cached_lock)`; the lock manager answers with the level that is left. -/
def downgrade (level : Level) (s : GlobalRWLock) : GlobalRWLock :=
  if s.physical = .none then s else { s with physical := level }

/-- The first scope of `lock`. It is done if the owner is in already, or if nobody is in the way;
otherwise the lock manager has to be asked. -/
def lockFirst (mode : LockMode) (owner : Int) (s : GlobalRWLock) : Bool × GlobalRWLock :=
  if mode = .read ∧ (s.findReader owner).isSome then
    (true, { s with readers := enterReader owner s.readers })
  else if mode = .write ∧ s.writer.ownerHandle = owner then
    (true, { s with writer := ⟨s.writer.ownerHandle, s.writer.entryCount + 1⟩ })
  else
    let allCompatible := s.writer.entryCount = 0 ∧ (mode = .read ∨ s.readers = [])
    if s.physical.rank ≥ mode.level.rank ∧ allCompatible ∧ s.internalBlocking = 0 ∧
        s.externalBlocking = false then
      (true, s.register mode owner)
    else
      let s :=
        if s.physical.rank > 0 ∧ s.writer.entryCount = 0 ∧ s.readers = [] then
          { s.release with externalBlocking := false }
        else s
      (false, { s with internalBlocking := s.internalBlocking + 1 })

/-- The second scope of `lock`, for a call that has been granted its level. `fetched` says that
`fetch` threw nothing. -/
def lockSecond (mode : LockMode) (owner : Int) (fetched ownerSet : Bool) (s : GlobalRWLock) :
    Bool × GlobalRWLock :=
  let s := { s with internalBlocking := s.internalBlocking - 1 }
  if fetched = false then (false, s)
  else
    let s := s.register mode owner
    if mode.level.rank > s.physical.rank then
      let s := { s with physical := mode.level, cachedOwner := owner }
      if ownerSet then (true, { s with cachedOwner := s.physicalLockOwner })
      else (false, s.release)
    else (true, s)

/-- The end of `unlock`, when the last one is gone. -/
def settle (left : Level) (s : GlobalRWLock) : GlobalRWLock :=
  if s.readers = [] ∧ s.writer.entryCount = 0 then
    if s.internalBlocking ≠ 0 ∨ s.lockCaching = false then
      { s.release with externalBlocking := false }
    else if s.externalBlocking then { s.downgrade left with externalBlocking := false }
    else s
  else s

/-- `unlock`. `converted` is what `LCK_convert` returned. -/
def unlock (mode : LockMode) (owner : Int) (converted : Bool) (left : Level) (s : GlobalRWLock) :
    GlobalRWLock :=
  match mode with
  | .read =>
    if (s.findReader owner).isSome then
      { s with readers := leaveReader owner s.readers }.settle left
    else s
  | .write =>
    let s := { s with writer := ⟨0, 0⟩ }
    if s.internalBlocking = 0 ∧ s.externalBlocking = false ∧ s.lockCaching then
      if converted then { s with physical := LockMode.read.level } else s
    else s.settle left

def blockingAstHandler (left : Level) (s : GlobalRWLock) : GlobalRWLock :=
  if s.internalBlocking = 0 ∧ s.readers = [] ∧ s.writer.entryCount = 0 then
    let s := s.downgrade left
    if s.physical.rank < LockMode.read.level.rank then { s with externalBlocking := false } else s
  else { s with externalBlocking := true }

def changeLockOwner (mode : LockMode) (old new : Int) (s : GlobalRWLock) : GlobalRWLock :=
  if old = new then s
  else
    match mode with
    | .read =>
      if (s.findReader old).isSome then
        let s := { s with readers := leaveReader old s.readers }
        if (s.findReader new).isSome then { s with readers := enterReader new s.readers }
        else { s with readers := insertReader ⟨new, 1⟩ s.readers }
      else s
    | .write => { s with writer := { s.writer with ownerHandle := new } }

def tryReleaseLock (s : GlobalRWLock) : Bool × GlobalRWLock :=
  if s.writer.entryCount = 0 ∧ s.readers = [] then (true, s.release) else (false, s)

end GlobalRWLock

/-- A call of `lock` between its two scopes; `granted` once `LCK_lock` has returned. -/
structure LockCall where
  mode : LockMode
  owner : Int
  granted : Bool
  deriving DecidableEq

/-- The lock, the calls under way, and the levels at which other processes hold the resource. -/
structure RWWorld where
  rw : GlobalRWLock
  calls : List LockCall
  foreign : List Level

namespace RWWorld

def others (w : RWWorld) : List Level :=
  (w.calls.filter (·.granted)).map (·.mode.level) ++ w.foreign

/-- The lock manager can let the cached lock have `level`. -/
def Fits (level : Level) (w : RWWorld) : Prop := ∀ x ∈ w.others, compatible level x = true

instance (level : Level) (w : RWWorld) : Decidable (w.Fits level) :=
  inferInstanceAs (Decidable (∀ x ∈ w.others, compatible level x = true))

end RWWorld

/-- What happens in one critical section, or in the lock manager. -/
inductive RWAction where
  | lock (mode : LockMode) (owner : Int)
  | lckLock (call : LockCall) (granted : Bool)
  | enter (call : LockCall) (fetched ownerSet : Bool)
  | unlock (mode : LockMode) (owner : Int) (left : Level)
  | blockingAst (left : Level)
  | changeLockOwner (mode : LockMode) (old new : Int)
  | tryReleaseLock
  | foreign (levels : List Level)
  deriving DecidableEq

namespace RWAction

/-- What callers and the lock manager promise: owners have handles, and what is granted at the same
time is compatible. A downgrade leaves a level that is no higher and fits. -/
def Legal (w : RWWorld) : RWAction → Prop
  | lock _ owner => owner ≠ 0
  | lckLock call granted => call ∈ w.calls ∧ call.granted = false ∧
      (granted = true → compatible call.mode.level w.rw.physical = true ∧ w.Fits call.mode.level)
  | enter call _ _ => call ∈ w.calls ∧ call.granted = true
  | unlock _ _ left => left.rank ≤ w.rw.physical.rank ∧ w.Fits left
  | blockingAst left => left.rank ≤ w.rw.physical.rank ∧ w.Fits left
  | changeLockOwner _ _ _ => True
  | tryReleaseLock => True
  | foreign levels =>
      (w.rw.physical :: { w with foreign := levels }.others).Pairwise fun x y =>
        compatible x y = true

instance (w : RWWorld) : (a : RWAction) → Decidable (a.Legal w)
  | lock _ owner => inferInstanceAs (Decidable (owner ≠ 0))
  | lckLock _ _ => inferInstanceAs (Decidable (_ ∧ _ ∧ (_ → _ ∧ _)))
  | enter _ _ _ => inferInstanceAs (Decidable (_ ∧ _))
  | unlock _ _ _ => inferInstanceAs (Decidable (_ ∧ _))
  | blockingAst _ => inferInstanceAs (Decidable (_ ∧ _))
  | changeLockOwner _ _ _ => isTrue trivial
  | tryReleaseLock => isTrue trivial
  | foreign _ => inferInstanceAs (Decidable (List.Pairwise _ _))

def apply (w : RWWorld) : RWAction → RWWorld
  | lock mode owner =>
    let r := w.rw.lockFirst mode owner
    { w with rw := r.2, calls := if r.1 then w.calls else ⟨mode, owner, false⟩ :: w.calls }
  | lckLock call granted =>
    { w with calls :=
        if granted then { call with granted := true } :: w.calls.erase call
        else w.calls.erase call }
  | enter call fetched ownerSet =>
    { w with
      rw := (w.rw.lockSecond call.mode call.owner fetched ownerSet).2
      calls := w.calls.erase call }
  | unlock mode owner left =>
    let converted := w.rw.physical ≠ .none ∧ w.Fits LockMode.read.level
    { w with rw := w.rw.unlock mode owner (decide converted) left }
  | blockingAst left => { w with rw := w.rw.blockingAstHandler left }
  | changeLockOwner mode old new => { w with rw := w.rw.changeLockOwner mode old new }
  | tryReleaseLock => { w with rw := w.rw.tryReleaseLock.2 }
  | foreign levels => { w with foreign := levels }

/-- The lock manager refuses nothing, the owner of a writer is changed only while there is one, and
no writer comes in `2 ^ 32` times. -/
def Smooth (w : RWWorld) : RWAction → Prop
  | lckLock _ granted => granted = true
  | enter call fetched ownerSet =>
    fetched = true → call.mode.level.rank > w.rw.physical.rank → ownerSet = true
  | changeLockOwner .write old new => old ≠ new → w.rw.writer.entryCount ≠ 0
  | lock .write owner => w.rw.writer.ownerHandle = owner → w.rw.writer.entryCount ≠ 0xffffffff
  | _ => True

end RWAction

/-! ## The invariant -/

/-- What the counters and the cached lock have to do with each other. -/
structure GlobalRWLock.Ok (s : GlobalRWLock) : Prop where
  writer : s.writer.entryCount ≠ 0 → s.physical = .ex ∧ s.readers = []
  readers : s.readers ≠ [] → Level.pr.rank ≤ s.physical.rank
  nobody : s.writer.entryCount = 0 → s.writer.ownerHandle = 0

namespace GlobalRWLock

variable {s : GlobalRWLock}

variable {owner : Int}

theorem ne_nil_of_findReader (h : (s.findReader owner).isSome) : s.readers ≠ [] := by
  intro e
  simp [findReader, e] at h

theorem Ok.setPhysical (h : s.Ok) (hw : s.writer.entryCount = 0) (hr : s.readers = [])
    (level : Level) : { s with physical := level }.Ok :=
  ⟨fun hne => absurd hw hne, fun hne => absurd hr hne, h.nobody⟩

theorem Ok.blocking (h : s.Ok) (i : Int) (e : Bool) :
    { s with internalBlocking := i, externalBlocking := e }.Ok := ⟨h.writer, h.readers, h.nobody⟩

theorem Ok.downgrade (h : s.Ok) (hw : s.writer.entryCount = 0) (hr : s.readers = [])
    (left : Level) : (s.downgrade left).Ok := by
  unfold GlobalRWLock.downgrade
  split
  · exact h
  · exact h.setPhysical hw hr left

theorem Ok.register_read (h : s.Ok) (owner : Int) (hw : s.writer.entryCount = 0)
    (hp : Level.pr.rank ≤ s.physical.rank) : (s.register .read owner).Ok :=
  ⟨fun hne => absurd hw hne, fun _ => hp, h.nobody⟩

theorem Ok.register_write (h : s.Ok) (owner : Int) (hw : s.writer.entryCount = 0)
    (hr : s.readers = []) (hp : s.physical = .ex) : (s.register .write owner).Ok := by
  refine ⟨fun _ => ⟨hp, hr⟩, h.readers, fun he => ?_⟩
  simp [register, hw] at he

theorem eq_max_of_add_one {n : UInt32} (h : n + 1 = 0) : n = 0xffffffff := by
  have : n = n + 1 - 1 := (UInt32.add_sub_cancel n 1).symm
  rw [this, h]
  rfl

theorem eq_ex_of_le_rank {level : Level} (h : Level.ex.rank ≤ level.rank) : level = .ex := by
  revert h
  revert level
  decide

variable {mode : LockMode}

theorem Ok.lockFirst (h : s.Ok) (howner : owner ≠ 0)
    (hroom : mode = .write → s.writer.ownerHandle = owner → s.writer.entryCount ≠ 0xffffffff) :
    (s.lockFirst mode owner).2.Ok := by
  unfold GlobalRWLock.lockFirst
  split
  · next hread =>
    have hne := ne_nil_of_findReader hread.2
    exact ⟨fun hw => absurd (h.writer hw).2 hne, fun _ => h.readers hne, h.nobody⟩
  split
  · -- A writer is in already: nobody else has a handle of zero.
    next hwrite =>
    have hin : s.writer.entryCount ≠ 0 := fun e => howner (hwrite.2 ▸ h.nobody e)
    refine ⟨fun _ => h.writer hin, h.readers, fun he => ?_⟩
    exact absurd (eq_max_of_add_one he) (hroom hwrite.1 hwrite.2)
  dsimp only
  split
  · next hfast =>
    obtain ⟨hlevel, ⟨hw, hr⟩, -, -⟩ := hfast
    cases mode with
    | read => exact h.register_read owner hw hlevel
    | write =>
      exact h.register_write owner hw (hr.resolve_left (by simp)) (eq_ex_of_le_rank hlevel)
  · split
    · next hrelease => exact (h.setPhysical hrelease.2.1 hrelease.2.2 .none).blocking _ _
    · exact h.blocking _ s.externalBlocking

theorem Ok.settle (h : s.Ok) (left : Level) : (s.settle left).Ok := by
  unfold GlobalRWLock.settle
  split_ifs with hempty
  · exact (h.setPhysical hempty.2 hempty.1 .none).blocking s.internalBlocking false
  · exact (h.downgrade hempty.2 hempty.1 left).blocking _ false
  · exact h
  · exact h

theorem Ok.alone (h : s.Ok) (hc : compatible mode.level s.physical = true) :
    s.writer.entryCount = 0 ∧ (mode = .write → s.readers = [] ∧ s.physical.rank <
      Level.ex.rank) := by
  have hnot : s.physical ≠ .ex := by
    intro e
    rw [e] at hc
    cases mode <;> exact absurd hc (by decide)
  refine ⟨?_, ?_⟩
  · by_contra hw
    exact hnot (h.writer hw).1
  · rintro rfl
    have hlow : s.physical.rank < Level.pr.rank := by
      revert hc
      cases s.physical <;> decide
    refine ⟨?_, Nat.lt_trans hlow (by decide)⟩
    by_contra hr
    exact absurd (h.readers hr) (Nat.not_le.mpr hlow)

theorem Ok.lockSecond (h : s.Ok) (fetched : Bool) (hc : compatible mode.level s.physical = true) :
    (s.lockSecond mode owner fetched true).2.Ok := by
  obtain ⟨hw, hwrite⟩ := h.alone hc
  have h₁ := h.blocking (s.internalBlocking - 1) s.externalBlocking
  unfold GlobalRWLock.lockSecond
  dsimp only
  split
  · exact h₁
  · cases mode with
    | read =>
      split
      · exact ⟨fun hne => absurd hw hne, fun _ => Nat.le_refl _, h.nobody⟩
      · next hlevel => exact h₁.register_read owner hw (Nat.not_lt.mp hlevel)
    | write =>
      obtain ⟨hr, hlt⟩ := hwrite rfl
      split
      · refine ⟨fun _ => ⟨rfl, hr⟩, fun hne => absurd hr hne, fun he => ?_⟩
        simp [register, hw] at he
      · next hlevel => exact absurd hlt hlevel

theorem Ok.unlock (h : s.Ok) (mode : LockMode) (owner : Int) (converted : Bool) (left : Level) :
    (s.unlock mode owner converted left).Ok := by
  unfold GlobalRWLock.unlock
  cases mode with
  | read =>
    dsimp only
    split
    · next hfind =>
      have hne := ne_nil_of_findReader hfind
      have h₁ : { s with readers := leaveReader owner s.readers }.Ok :=
        ⟨fun hw => absurd (h.writer hw).2 hne, fun _ => h.readers hne, h.nobody⟩
      exact h₁.settle left
    · exact h
  | write =>
    have h₁ : { s with writer := ⟨0, 0⟩ }.Ok := ⟨fun hne => absurd rfl hne, h.readers, fun _ => rfl⟩
    dsimp only
    split
    · split
      · exact ⟨fun hne => absurd rfl hne, fun _ => Nat.le_refl _, fun _ => rfl⟩
      · exact h₁
    · exact h₁.settle left

theorem Ok.blockingAstHandler (h : s.Ok) (left : Level) : (s.blockingAstHandler left).Ok := by
  unfold GlobalRWLock.blockingAstHandler
  split
  · next hempty =>
    have h₁ := h.downgrade hempty.2.2 hempty.2.1 left
    dsimp only
    split
    · exact h₁.blocking _ false
    · exact h₁
  · exact h.blocking s.internalBlocking true

theorem Ok.changeLockOwner (h : s.Ok) {old new : Int}
    (hin : mode = .write → old ≠ new → s.writer.entryCount ≠ 0) :
    (s.changeLockOwner mode old new).Ok := by
  unfold GlobalRWLock.changeLockOwner
  split
  · exact h
  · next hne =>
    cases mode with
    | read =>
      dsimp only
      split
      · next hfind =>
        have hr := ne_nil_of_findReader hfind
        have hw : s.writer.entryCount = 0 := by
          by_contra hw
          exact hr (h.writer hw).2
        split <;> exact ⟨fun hw' => absurd hw hw', fun _ => h.readers hr, h.nobody⟩
      · exact h
    | write => exact ⟨h.writer, h.readers, fun he => absurd he (hin rfl hne)⟩

theorem Ok.tryReleaseLock (h : s.Ok) : s.tryReleaseLock.2.Ok := by
  unfold GlobalRWLock.tryReleaseLock
  split
  · next hempty => exact h.setPhysical hempty.1 hempty.2 .none
  · exact h

end GlobalRWLock

namespace GlobalRWLock

/-- The cached lock stays, or gets one of the levels; as many calls wait as before. -/
def Moves (levels : List Level) (s s' : GlobalRWLock) : Prop :=
  s'.physical ∈ s.physical :: levels ∧ s'.internalBlocking = s.internalBlocking

variable (s : GlobalRWLock)

theorem lockFirst_moves (mode : LockMode) (owner : Int) :
    Moves [.none] s { (s.lockFirst mode owner).2 with internalBlocking := s.internalBlocking } ∧
      (s.lockFirst mode owner).2.internalBlocking =
        s.internalBlocking + if (s.lockFirst mode owner).1 then 0 else 1 := by
  unfold GlobalRWLock.lockFirst Moves
  cases mode <;> dsimp only <;> split_ifs <;> simp_all [register, release]

theorem lockSecond_moves (mode : LockMode) (owner : Int) (fetched : Bool) :
    Moves [mode.level] { s with internalBlocking := s.internalBlocking - 1 }
      (s.lockSecond mode owner fetched true).2 := by
  unfold GlobalRWLock.lockSecond Moves
  cases mode <;> dsimp only <;> split_ifs <;> simp_all [register]

theorem lockSecond_ownerSet {mode : LockMode} (owner : Int) {fetched ownerSet : Bool}
    (h : fetched = true → mode.level.rank > s.physical.rank → ownerSet = true) :
    s.lockSecond mode owner fetched ownerSet = s.lockSecond mode owner fetched true := by
  have hphysical : (register mode owner { s with
      internalBlocking := s.internalBlocking - 1 }).physical = s.physical := by
    cases mode <;> rfl
  unfold GlobalRWLock.lockSecond
  dsimp only
  rw [hphysical]
  split_ifs <;> simp_all

theorem downgrade_moves (left : Level) : Moves [left] s (s.downgrade left) := by
  unfold GlobalRWLock.downgrade Moves
  split_ifs <;> simp

theorem settle_moves (left : Level) : Moves [.none, left] s (s.settle left) := by
  have := s.downgrade_moves left
  unfold Moves at this ⊢
  unfold GlobalRWLock.settle
  split_ifs <;> grind [release]

theorem unlock_moves (mode : LockMode) (owner : Int) (converted : Bool) (left : Level) :
    Moves ([.none, left] ++ if converted then [.pr] else []) s
      (s.unlock mode owner converted left) := by
  unfold GlobalRWLock.unlock Moves
  cases mode with
  | read =>
    have := { s with readers := leaveReader owner s.readers }.settle_moves left
    unfold Moves at this
    grind
  | write =>
    have := { s with writer := ⟨0, 0⟩ }.settle_moves left
    unfold Moves at this
    dsimp only [LockMode.level]
    grind

theorem blockingAstHandler_moves (left : Level) : Moves [left] s (s.blockingAstHandler left) := by
  have := s.downgrade_moves left
  unfold Moves at this ⊢
  unfold GlobalRWLock.blockingAstHandler
  dsimp only
  grind

theorem changeLockOwner_moves (mode : LockMode) (old new : Int) :
    Moves [] s (s.changeLockOwner mode old new) := by
  unfold GlobalRWLock.changeLockOwner Moves
  cases mode <;> dsimp only <;> split_ifs <;> simp

theorem tryReleaseLock_moves : Moves [.none] s s.tryReleaseLock.2 := by
  unfold GlobalRWLock.tryReleaseLock Moves
  split_ifs <;> simp [release]

end GlobalRWLock

/-- The invariant of the lock together with the calls under way and the lock manager. -/
structure RWWorld.Ok (w : RWWorld) : Prop where
  rw : w.rw.Ok
  fits : w.Fits w.rw.physical
  others : w.others.Pairwise fun x y => compatible x y = true
  blocking : w.rw.internalBlocking = w.calls.length

namespace RWWorld

variable {w : RWWorld}

theorem fits_none (w : RWWorld) : w.Fits .none := fun x _ => Lock.compatible_none_left x

theorem Ok.moves (h : w.Ok) {levels : List Level} {s : GlobalRWLock} (hs : s.Ok)
    (hm : GlobalRWLock.Moves levels w.rw s) (hlevels : ∀ x ∈ levels, w.Fits x) :
    { w with rw := s }.Ok := by
  refine ⟨hs, ?_, h.others, hm.2.trans h.blocking⟩
  rcases mem_cons.mp hm.1 with e | hmem
  · exact e ▸ h.fits
  · exact hlevels _ hmem

variable {call : LockCall}

theorem erase_calls (hcall : call ∈ w.calls) :
    w.others.Perm ((if call.granted then [call.mode.level] else []) ++
      { w with calls := w.calls.erase call }.others) := by
  have hperm := (perm_cons_erase hcall).filter (·.granted)
  have hmap := (hperm.map (·.mode.level)).append_right w.foreign
  refine hmap.trans (.of_eq ?_)
  cases hg : call.granted <;> simp [others, hg]

theorem length_erase (hcall : call ∈ w.calls) :
    ((w.calls.erase call).length : Int) = w.calls.length - 1 := by
  have := length_erase_of_mem hcall
  have := length_pos_of_mem hcall
  omega

theorem pairwise_symm : Std.Symm fun x y : Level => compatible x y = true :=
  ⟨fun x y h => Lock.compatible_comm x y ▸ h⟩

theorem Ok.lock (h : w.Ok) {mode : LockMode} {owner : Int} (howner : owner ≠ 0)
    (hroom : mode = .write → w.rw.writer.ownerHandle = owner →
      w.rw.writer.entryCount ≠ 0xffffffff) : ((RWAction.lock mode owner).apply w).Ok := by
  obtain ⟨hm, hblock⟩ := w.rw.lockFirst_moves mode owner
  have hnone : ∀ x ∈ [Level.none], w.Fits x := by simpa using w.fits_none
  have hok := h.rw.lockFirst howner hroom
  have h₁ := h.moves (hok.blocking w.rw.internalBlocking _) hm hnone
  -- A call that has to wait holds nothing yet.
  have hothers : ((RWAction.lock mode owner).apply w).others = w.others := by
    unfold RWAction.apply RWWorld.others
    dsimp only
    split_ifs <;> simp
  refine ⟨hok, fun x hx => h₁.fits x (hothers ▸ hx), hothers ▸ h.others, ?_⟩
  change (w.rw.lockFirst mode owner).2.internalBlocking = _
  rw [hblock, h.blocking]
  unfold RWAction.apply
  dsimp only
  split_ifs <;> simp

theorem Ok.lckLock (h : w.Ok) (hcall : call ∈ w.calls)
    (hg : call.granted = false) (hc : compatible call.mode.level w.rw.physical = true)
    (hfits : w.Fits call.mode.level) : ((RWAction.lckLock call true).apply w).Ok := by
  have hperm := erase_calls hcall
  simp only [hg] at hperm
  have hothers : ((RWAction.lckLock call true).apply w).others =
      call.mode.level :: { w with calls := w.calls.erase call }.others := rfl
  have hmem : ∀ x, x ∈ { w with calls := w.calls.erase call }.others ↔ x ∈ w.others :=
    fun x => hperm.mem_iff.symm
  refine ⟨h.rw, ?_, ?_, ?_⟩
  · intro x hx
    rcases mem_cons.mp hx with rfl | hx
    · exact Lock.compatible_comm _ _ ▸ hc
    · exact h.fits x ((hmem x).mp hx)
  · rw [hothers]
    refine pairwise_cons.mpr ⟨fun x hx => hfits x ((hmem x).mp hx), ?_⟩
    exact hperm.pairwise h.others (fun hxy => pairwise_symm.symm _ _ hxy)
  · have := length_erase hcall
    simp only [RWAction.apply, if_true, length_cons, h.blocking]
    omega

theorem Ok.enter (h : w.Ok) (hcall : call ∈ w.calls) (hg : call.granted = true) (fetched : Bool) :
    ((RWAction.enter call fetched true).apply w).Ok := by
  have hperm := erase_calls hcall
  simp only [hg] at hperm
  set w₁ : RWWorld := { w with calls := w.calls.erase call } with hw₁
  have hpair : (call.mode.level :: w₁.others).Pairwise fun x y => compatible x y = true :=
    hperm.pairwise h.others (fun hxy => pairwise_symm.symm _ _ hxy)
  have hfits : w₁.Fits w.rw.physical := fun x hx =>
    h.fits x (hperm.mem_iff.mpr (mem_cons_of_mem _ hx))
  have hc : compatible call.mode.level w.rw.physical = true := by
    rw [Lock.compatible_comm]
    exact h.fits _ (hperm.mem_iff.mpr (by simp))
  have hm := w.rw.lockSecond_moves call.mode call.owner fetched
  refine ⟨h.rw.lockSecond fetched hc, ?_, (pairwise_cons.mp hpair).2, ?_⟩
  · change w₁.Fits (w.rw.lockSecond call.mode call.owner fetched true).2.physical
    rcases mem_cons.mp hm.1 with e | hmem
    · rw [e]
      exact hfits
    · rw [mem_singleton.mp hmem]
      exact (pairwise_cons.mp hpair).1
  · have := length_erase hcall
    change (w.rw.lockSecond call.mode call.owner fetched true).2.internalBlocking = _
    rw [hm.2, show ((RWAction.enter call fetched true).apply w).calls = w.calls.erase call from rfl,
      this, h.blocking]

end RWWorld

theorem RWAction.apply_ok {w : RWWorld} {a : RWAction} (h : w.Ok) (hlegal : a.Legal w)
    (hsmooth : a.Smooth w) : (a.apply w).Ok := by
  cases a with
  | lock mode owner =>
    refine h.lock hlegal fun hmode hown => ?_
    subst hmode
    exact hsmooth hown
  | lckLock call granted =>
    obtain ⟨hcall, hg, hgrant⟩ := hlegal
    obtain rfl : granted = true := hsmooth
    exact h.lckLock hcall hg (hgrant rfl).1 (hgrant rfl).2
  | enter call fetched ownerSet =>
    have hset : RWAction.apply w (.enter call fetched ownerSet) =
        RWAction.apply w (.enter call fetched true) := by
      simp [RWAction.apply, w.rw.lockSecond_ownerSet call.owner hsmooth]
    rw [hset]
    exact h.enter hlegal.1 hlegal.2 fetched
  | unlock mode owner left =>
    refine h.moves (h.rw.unlock mode owner _ left) (w.rw.unlock_moves mode owner _ left) ?_
    intro x hx
    have hx : x = .none ∨ x = left ∨
        (w.rw.physical ≠ .none ∧ w.Fits LockMode.read.level) ∧ x = .pr := by
      split_ifs at hx with hconv <;> grind
    rcases hx with rfl | rfl | ⟨⟨-, hfits⟩, rfl⟩
    · exact w.fits_none
    · exact hlegal.2
    · exact hfits
  | blockingAst left =>
    exact h.moves (h.rw.blockingAstHandler left) (w.rw.blockingAstHandler_moves left)
      (by simpa using hlegal.2)
  | changeLockOwner mode old new =>
    refine h.moves (h.rw.changeLockOwner fun hmode hne => ?_)
      (w.rw.changeLockOwner_moves mode old new) (by simp)
    subst hmode
    exact hsmooth hne
  | tryReleaseLock =>
    exact h.moves h.rw.tryReleaseLock w.rw.tryReleaseLock_moves (by simpa using w.fits_none)
  | foreign levels =>
    obtain ⟨hfits, hpair⟩ := pairwise_cons.mp hlegal
    exact ⟨h.rw, hfits, hpair, h.blocking⟩

/-- Every action is legal when its turn comes, and satisfies the further condition `G` then. -/
def RWRun (G : RWWorld → RWAction → Prop) : List RWAction → RWWorld → Prop
  | [], _ => True
  | a :: as, w => a.Legal w ∧ G w a ∧ RWRun G as (a.apply w)

def runRW (as : List RWAction) (w : RWWorld) : RWWorld := as.foldl (fun w a => a.apply w) w

def GlobalRWLock.new (physicalLockOwner : Int) (lockCaching : Bool) : GlobalRWLock :=
  { physical := .none, cachedOwner := 0, internalBlocking := 0, externalBlocking := false,
    physicalLockOwner := physicalLockOwner, lockCaching := lockCaching, readers := [],
    writer := ⟨0, 0⟩ }

def RWWorld.init (physicalLockOwner : Int) (lockCaching : Bool) : RWWorld :=
  ⟨.new physicalLockOwner lockCaching, [], []⟩

theorem RWWorld.init_ok (physicalLockOwner : Int) (lockCaching : Bool) :
    (RWWorld.init physicalLockOwner lockCaching).Ok := by
  refine ⟨⟨fun h => absurd rfl h, fun h => absurd rfl h, fun _ => rfl⟩, ?_, .nil, rfl⟩
  simp [RWWorld.Fits, RWWorld.others, init]

/-- Mutual exclusion, a cached lock for everybody who is in, and the count of waiting calls. -/
structure RWWorld.Safe (w : RWWorld) : Prop where
  exclusive : w.rw.writer.entryCount ≠ 0 →
    ∀ d ∈ w.rw.readers, d.ownerHandle = w.rw.writer.ownerHandle
  reading : w.rw.readers ≠ [] → LockMode.read.level.rank ≤ w.rw.physical.rank
  writing : w.rw.writer.entryCount ≠ 0 → LockMode.write.level.rank ≤ w.rw.physical.rank
  blocking : w.rw.internalBlocking = w.calls.length

theorem RWWorld.Ok.safe {w : RWWorld} (h : w.Ok) : w.Safe := by
  refine ⟨fun hw d hd => ?_, h.rw.readers, fun hw => ?_, h.blocking⟩
  · rw [(h.rw.writer hw).2] at hd
    cases hd
  · rw [(h.rw.writer hw).1]
    exact Nat.le_refl _

theorem runRW_ok {as : List RWAction} {w : RWWorld} (h : w.Ok)
    (hrun : RWRun (fun w a => a.Smooth w) as w) : (runRW as w).Ok := by
  induction as generalizing w with
  | nil => exact h
  | cons a as ih => exact ih (a.apply_ok h hrun.1 hrun.2.1) hrun.2.2

/-- In every run in which the lock manager refuses nothing, writers change their owner only while
there is one, and no writer comes in `2 ^ 32` times, the lock is safe. -/
theorem globalRWLock_safe (physicalLockOwner : Int) (lockCaching : Bool) (as : List RWAction)
    (h : RWRun (fun w a => a.Smooth w) as (.init physicalLockOwner lockCaching)) :
    (runRW as (.init physicalLockOwner lockCaching)).Safe :=
  (runRW_ok (RWWorld.init_ok physicalLockOwner lockCaching) h).safe

instance (w : RWWorld) : (a : RWAction) → Decidable (a.Smooth w)
  | .lckLock _ granted => inferInstanceAs (Decidable (granted = true))
  | .enter _ _ _ => inferInstanceAs (Decidable (_ → _ → _))
  | .changeLockOwner .write old new =>
    inferInstanceAs (Decidable (old ≠ new → w.rw.writer.entryCount ≠ 0))
  | .lock .write owner => inferInstanceAs (Decidable (w.rw.writer.ownerHandle = owner →
      w.rw.writer.entryCount ≠ 0xffffffff))
  | .lock .read _ | .unlock _ _ _ | .blockingAst _ | .changeLockOwner .read _ _ | .tryReleaseLock
  | .foreign _ => isTrue trivial

instance decidableRWRun (G : RWWorld → RWAction → Prop) [inst : ∀ w a, Decidable (G w a)] :
    (as : List RWAction) → (w : RWWorld) → Decidable (RWRun G as w)
  | [], _ => isTrue trivial
  | a :: as, w =>
    have := decidableRWRun G as (a.apply w)
    inferInstanceAs (Decidable (a.Legal w ∧ G w a ∧ _))

/-- A writer waits for a reader, gets in, and hands the lock back. -/
theorem globalRWLock_safe_handover :
    (runRW [.lock .read 1, .lckLock ⟨.read, 1, false⟩ true, .enter ⟨.read, 1, true⟩ true true,
      .lock .write 2, .blockingAst .pr, .unlock .read 1 .pr, .lckLock ⟨.write, 2, false⟩ true,
      .enter ⟨.write, 2, true⟩ true true, .unlock .write 2 .ex] (.init 9 true)).Safe :=
  globalRWLock_safe 9 true _ (by decide)

/-- Another process reads, and the lock manager refuses a writer: its call is over, and still
counted as waiting. -/
theorem refused_call_keeps_blocking :
    RWRun (fun _ _ => True) [.foreign [.pr], .lock .write 1, .lckLock ⟨.write, 1, false⟩ false]
        (.init 9 true) ∧
      ¬ (runRW [.foreign [.pr], .lock .write 1, .lckLock ⟨.write, 1, false⟩ false]
        (.init 9 true)).Safe := by
  refine ⟨by decide, fun h => ?_⟩
  have := h.blocking
  revert this
  decide

end Firebird.Jrd
