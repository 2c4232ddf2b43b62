import Mathlib.Algebra.BigOperators.Group.List.Basic
import Firebird.Jrd.GlobalRWLock

/-!
# Calls of `lock` and their lock objects

The lock objects of one `GlobalRWLock`: `cached_lock`, and the one that each call of `lock` asks the
lock manager for between its two scopes. A call has three parts, and other threads run between them.
-/
namespace Firebird.Jrd

open List Function

open Lock (Level)

/-- What a `Lock` has of the lock manager. -/
structure LockObject where
  lckPhysical : Level
  lckOwnerHandle : Int

/-- A `GlobalRWLock` with the lock objects that have not been deleted. -/
structure SharedLock where
  objects : Nat → Option LockObject
  /-- Where the next object is made. -/
  next : Nat
  cachedLock : Nat
  internalBlocking : Int
  externalBlocking : Bool
  physicalLockOwner : Int
  lockCaching : Bool
  readers : List ObjectOwnerData
  writer : ObjectOwnerData

namespace SharedLock

def physical (p : Nat) (s : SharedLock) : Level := (s.objects p).elim .none (·.lckPhysical)

def view (s : SharedLock) : GlobalRWLock where
  physical := s.physical s.cachedLock
  cachedOwner := (s.objects s.cachedLock).elim 0 (·.lckOwnerHandle)
  internalBlocking := s.internalBlocking
  externalBlocking := s.externalBlocking
  physicalLockOwner := s.physicalLockOwner
  lockCaching := s.lockCaching
  readers := s.readers
  writer := s.writer

def modify (p : Nat) (f : LockObject → LockObject) (s : SharedLock) : SharedLock :=
  { s with objects := Function.update s.objects p ((s.objects p).map f) }

def put (g : GlobalRWLock) (s : SharedLock) : SharedLock :=
  { s.modify s.cachedLock fun _ => ⟨g.physical, g.cachedOwner⟩ with
    internalBlocking := g.internalBlocking
    externalBlocking := g.externalBlocking
    physicalLockOwner := g.physicalLockOwner
    lockCaching := g.lockCaching
    readers := g.readers
    writer := g.writer }

/-- `FB_NEW_RPT(..) Lock` -/
def new (owner : Int) (s : SharedLock) : SharedLock :=
  { s with objects := Function.update s.objects s.next (some ⟨.none, owner⟩), next := s.next + 1 }

def delete (p : Nat) (s : SharedLock) : SharedLock :=
  { s with objects := Function.update s.objects p none }

def lckRelease (p : Nat) (s : SharedLock) : SharedLock :=
  s.modify p fun l => { l with lckPhysical := .none }

def lockFirst (mode : LockMode) (owner : Int) (s : SharedLock) : Bool × SharedLock :=
  ((s.view.lockFirst mode owner).1, s.put (s.view.lockFirst mode owner).2)

def request (mode : LockMode) (owner : Int) (granted : Bool) (s : SharedLock) : SharedLock :=
  if granted then (s.new owner).modify s.next fun l => { l with lckPhysical := mode.level }
  else (s.new owner).delete s.next

def lockSecond (mode : LockMode) (owner : Int) (newLock : Nat) (fetched ownerSet : Bool)
    (s : SharedLock) : Bool × SharedLock :=
  let s := { s with internalBlocking := s.internalBlocking - 1 }
  if (s.physical newLock).rank ≥ LockMode.read.level.rank ∧ fetched = false then
    (false, (s.lckRelease newLock).delete newLock)
  else
    let s := s.put (s.view.register mode owner)
    if (s.physical newLock).rank > (s.physical s.cachedLock).rank then
      let s := (s.lckRelease s.cachedLock).delete s.cachedLock
      let s := { s with cachedLock := newLock }
      if ownerSet then
        (true, s.modify newLock fun l => { l with lckOwnerHandle := s.physicalLockOwner })
      else (false, s.lckRelease newLock)
    else (true, (s.lckRelease newLock).delete newLock)

end SharedLock

/-- A call of `lock` between its parts. -/
inductive CallState
  | waiting (mode : LockMode) (owner : Int)
  | granted (mode : LockMode) (owner : Int) (newLock : Nat)
  deriving DecidableEq

/-- The lock of a process, and the calls of its threads. -/
structure RWProcess where
  lock : SharedLock
  calls : Nat → Option CallState

/-- One section of a thread, with what the lock manager and `fetch` answer. -/
inductive RWStep
  | first (thread : Nat) (mode : LockMode) (owner : Int)
  | request (thread : Nat) (granted : Bool)
  | second (thread : Nat) (fetched ownerSet : Bool)
  | unlock (mode : LockMode) (owner : Int) (converted : Bool) (left : Level)
  | blockingAst (left : Level)
  | changeLockOwner (mode : LockMode) (old new : Int)
  | tryReleaseLock
  deriving DecidableEq

/-- The thread that is in `lock`. -/
def RWStep.caller : RWStep → Option Nat
  | first thread _ _ | request thread _ | second thread _ _ => some thread
  | _ => none

namespace RWProcess

/-- A section that does not belong to `lock`. -/
def critical (f : GlobalRWLock → GlobalRWLock) (w : RWProcess) : RWProcess :=
  { w with lock := w.lock.put (f w.lock.view) }

def step (w : RWProcess) : RWStep → RWProcess
  | .first thread mode owner =>
    match w.calls thread with
    | none =>
      let r := w.lock.lockFirst mode owner
      ⟨r.2, Function.update w.calls thread (if r.1 then none else some (.waiting mode owner))⟩
    | some _ => w
  | .request thread granted =>
    match w.calls thread with
    | some (.waiting mode owner) =>
      ⟨w.lock.request mode owner granted, Function.update w.calls thread
        (if granted then some (.granted mode owner w.lock.next) else none)⟩
    | _ => w
  | .second thread fetched ownerSet =>
    match w.calls thread with
    | some (.granted mode owner newLock) =>
      ⟨(w.lock.lockSecond mode owner newLock fetched ownerSet).2,
        Function.update w.calls thread none⟩
    | _ => w
  | .unlock mode owner converted left => w.critical (·.unlock mode owner converted left)
  | .blockingAst left => w.critical (·.blockingAstHandler left)
  | .changeLockOwner mode old new => w.critical (·.changeLockOwner mode old new)
  | .tryReleaseLock => w.critical (·.tryReleaseLock.2)

def run (as : List RWStep) (w : RWProcess) : RWProcess := as.foldl step w

def init (physicalLockOwner : Int) (lockCaching : Bool) : RWProcess where
  lock :=
    { objects := Function.update (fun _ => none) 0 (some ⟨.none, 0⟩)
      next := 1
      cachedLock := 0
      internalBlocking := 0
      externalBlocking := false
      physicalLockOwner := physicalLockOwner
      lockCaching := lockCaching
      readers := []
      writer := ⟨0, 0⟩ }
  calls _ := none

end RWProcess

/-- What a call meets: the answers to it, and what the other threads do between its parts. -/
structure LockAnswers (thread : Nat) where
  waiting : List RWStep
  granted : Bool
  holding : List RWStep
  fetched : Bool
  ownerSet : Bool
  others : ∀ a ∈ waiting ++ holding, a.caller ≠ some thread

/-- What a call has done: its result, the states around each of its parts, and the lock object that
it has made. -/
structure LockTrace where
  result : Bool
  parts : List (RWProcess × RWProcess)
  last : RWProcess
  newLock : Option Nat

namespace RWProcess

def beforeRequest (thread : Nat) (mode : LockMode) (owner : Int) (answers : LockAnswers thread)
    (w : RWProcess) : RWProcess := (w.step (.first thread mode owner)).run answers.waiting

def beforeSecond (thread : Nat) (mode : LockMode) (owner : Int) (answers : LockAnswers thread)
    (w : RWProcess) : RWProcess :=
  ((w.beforeRequest thread mode owner answers).step (.request thread true)).run answers.holding

/-- `lock`, by a thread among others. -/
def lockCall (thread : Nat) (mode : LockMode) (owner : Int) (answers : LockAnswers thread)
    (w : RWProcess) : LockTrace :=
  let w₁ := w.step (.first thread mode owner)
  if (w.lock.lockFirst mode owner).1 then ⟨true, [(w, w₁)], w₁, none⟩
  else
    let w₂ := w.beforeRequest thread mode owner answers
    let w₃ := w₂.step (.request thread answers.granted)
    if answers.granted = false then ⟨false, [(w, w₁), (w₂, w₃)], w₃, some w₂.lock.next⟩
    else
      let w₄ := w.beforeSecond thread mode owner answers
      let w₅ := w₄.step (.second thread answers.fetched answers.ownerSet)
      ⟨(w₄.lock.lockSecond mode owner w₂.lock.next answers.fetched answers.ownerSet).1,
        [(w, w₁), (w₂, w₃), (w₄, w₅)], w₅, some w₂.lock.next⟩

end RWProcess

/-- Nothing is left of a call: its own parts change neither the readers nor the writer nor,
together, the count of waiting calls; its lock is not held, and the cached lock is there. -/
structure LockTrace.NoTrace (t : LockTrace) : Prop where
  readers : ∀ p ∈ t.parts, p.2.lock.readers = p.1.lock.readers
  writer : ∀ p ∈ t.parts, p.2.lock.writer = p.1.lock.writer
  blocking :
    (t.parts.map fun p => p.2.lock.internalBlocking - p.1.lock.internalBlocking).sum = 0
  released : ∀ p ∈ t.newLock, t.last.lock.physical p = .none
  cached : (t.last.lock.objects t.last.lock.cachedLock).isSome

/-- The owner is in already, or nobody is in the way. -/
def GlobalRWLock.Admits (mode : LockMode) (owner : Int) (s : GlobalRWLock) : Prop :=
  (mode = .read ∧ (s.findReader owner).isSome) ∨ (mode = .write ∧ s.writer.ownerHandle = owner) ∨
    (mode.level.rank ≤ s.physical.rank ∧ s.writer.entryCount = 0 ∧
      (mode = .read ∨ s.readers = []) ∧ s.internalBlocking = 0 ∧ s.externalBlocking = false)

theorem GlobalRWLock.lockFirst_true {s : GlobalRWLock} {mode : LockMode} {owner : Int} :
    (s.lockFirst mode owner).1 = true ↔ s.Admits mode owner := by
  unfold lockFirst Admits
  dsimp only
  split_ifs <;> simp_all

theorem GlobalRWLock.lockFirst_false {s : GlobalRWLock} {mode : LockMode} {owner : Int}
    (h : (s.lockFirst mode owner).1 = false) :
    (s.lockFirst mode owner).2.readers = s.readers ∧ (s.lockFirst mode owner).2.writer = s.writer ∧
      (s.lockFirst mode owner).2.internalBlocking = s.internalBlocking + 1 := by
  revert h
  unfold lockFirst
  dsimp only
  split_ifs <;> simp [release]

theorem length_insertReader (d : ObjectOwnerData) (ds : List ObjectOwnerData) :
    (GlobalRWLock.insertReader d ds).length = ds.length + 1 := by
  induction ds with
  | nil => rfl
  | cons x xs ih =>
    rw [GlobalRWLock.insertReader]
    split_ifs
    · rfl
    · rw [length_cons, ih, length_cons]

theorem GlobalRWLock.register_ne (mode : LockMode) (owner : Int) (s : GlobalRWLock) :
    (s.register mode owner).readers ≠ s.readers ∨ (s.register mode owner).writer ≠ s.writer := by
  cases mode with
  | read =>
    refine .inl fun h => ?_
    have := congrArg List.length h
    simp only [register, length_insertReader] at this
    omega
  | write =>
    refine .inr fun h => ?_
    have hcount := congrArg (·.entryCount.toNat) h
    simp only [register, UInt32.toNat_add, UInt32.reduceToNat] at hcount
    omega

theorem read_le_level (mode : LockMode) : LockMode.read.level.rank ≤ mode.level.rank := by
  cases mode <;> decide

namespace SharedLock

open GlobalRWLock (register release)

variable {s : SharedLock} {mode : LockMode} {owner : Int} {p q newLock : Nat}

theorem physical_eq {l : LockObject} (h : s.objects p = some l) : s.physical p = l.lckPhysical := by
  rw [physical, h]
  rfl

@[simp]
theorem put_objects_of_ne (g : GlobalRWLock) (h : p ≠ s.cachedLock) :
    (s.put g).objects p = s.objects p := update_of_ne h ..

theorem put_cachedLock (g : GlobalRWLock) (s : SharedLock) :
    (s.put g).cachedLock = s.cachedLock := rfl

theorem put_isSome (g : GlobalRWLock) (p : Nat) :
    ((s.put g).objects p).isSome = (s.objects p).isSome := by
  by_cases h : p = s.cachedLock
  · subst h
    change (update s.objects _ _ _).isSome = _
    rw [update_self, Option.isSome_map]
  · rw [put_objects_of_ne g h]

theorem view_put (g : GlobalRWLock) (h : (s.objects s.cachedLock).isSome) : (s.put g).view = g := by
  obtain ⟨l, hl⟩ := Option.isSome_iff_exists.1 h
  simp [view, put, modify, physical, hl]

theorem lockSecond_cases {fetched ownerSet : Bool}
    (hnew : s.objects newLock = some ⟨mode.level, owner⟩) (hne : newLock ≠ s.cachedLock)
    (hcached : (s.objects s.cachedLock).isSome) :
    (fetched = false ∧ s.lockSecond mode owner newLock fetched ownerSet =
      (false, { s with
        internalBlocking := s.internalBlocking - 1
        objects := update s.objects newLock none })) ∨
    ∃ s', fetched = true ∧
      s' = { s with internalBlocking := s.internalBlocking - 1 }.put
        ({ s with internalBlocking := s.internalBlocking - 1 }.view.register mode owner) ∧
      ((s.physical s.cachedLock).rank < mode.level.rank ∧
          s.lockSecond mode owner newLock fetched ownerSet =
            (ownerSet, { s' with
              cachedLock := newLock
              objects := update (update s'.objects s.cachedLock none) newLock
                (some (if ownerSet then ⟨mode.level, s.physicalLockOwner⟩ else ⟨.none, owner⟩)) }) ∨
        mode.level.rank ≤ (s.physical s.cachedLock).rank ∧
          s.lockSecond mode owner newLock fetched ownerSet =
            (true, { s' with objects := update s'.objects newLock none })) := by
  have hlevel : (s.physical newLock).rank ≥ LockMode.read.level.rank := by
    rw [physical_eq hnew]
    exact read_le_level mode
  generalize hs₁ : { s with internalBlocking := s.internalBlocking - 1 } = s₁
  have hnew₁ : s₁.objects newLock = some ⟨mode.level, owner⟩ := hs₁ ▸ hnew
  have hne₁ : newLock ≠ s₁.cachedLock := hs₁ ▸ hne
  have hcached₁ : (s₁.objects s₁.cachedLock).isSome := hs₁ ▸ hcached
  have hphysical : s.physical s.cachedLock = s₁.physical s₁.cachedLock := hs₁ ▸ rfl
  have hold : s.cachedLock = s₁.cachedLock ∧ s.physicalLockOwner = s₁.physicalLockOwner :=
    hs₁ ▸ ⟨rfl, rfl⟩
  have hview := view_put (s₁.view.register mode owner) hcached₁
  unfold lockSecond
  rw [hs₁]
  dsimp only
  rw [hphysical, hold.1, hold.2]
  have hlevel₁ : (s₁.physical newLock).rank ≥ LockMode.read.level.rank := hs₁ ▸ hlevel
  cases fetched with
  | false =>
    refine .inl ⟨rfl, ?_⟩
    rw [if_pos ⟨hlevel₁, rfl⟩]
    simp [lckRelease, delete, modify, ← hs₁]
  | true =>
    refine .inr ⟨_, rfl, rfl, ?_⟩
    generalize hs₂ : s₁.put (s₁.view.register mode owner) = s₂ at hview
    have hnew₂ : s₂.objects newLock = some ⟨mode.level, owner⟩ :=
      hs₂ ▸ (put_objects_of_ne _ hne₁).trans hnew₁
    have hcached₂ : s₂.cachedLock = s₁.cachedLock := hs₂ ▸ rfl
    have hrank : s₂.physical s₂.cachedLock = s₁.physical s₁.cachedLock := by
      have := congrArg GlobalRWLock.physical hview
      cases mode <;> exact this
    have howner : s₂.physicalLockOwner = s₁.physicalLockOwner := by
      have := congrArg GlobalRWLock.physicalLockOwner hview
      cases mode <;> exact this
    rw [hrank, hcached₂, physical_eq hnew₂]
    by_cases hgt : mode.level.rank > (s₁.physical s₁.cachedLock).rank
    · refine .inl ⟨hgt, ?_⟩
      rw [if_pos hgt]
      cases ownerSet <;>
        simp [lckRelease, delete, modify, update_of_ne hne₁, hnew₂, howner]
    · refine .inr ⟨Nat.not_lt.1 hgt, ?_⟩
      rw [if_neg hgt]
      simp [lckRelease, delete, modify, hcached₂]

theorem request_true (mode : LockMode) (owner : Int) (s : SharedLock) :
    s.request mode owner true = { s with
      objects := update s.objects s.next (some ⟨mode.level, owner⟩), next :=
        s.next + 1 } := by
  simp [request, new, modify]

theorem request_false (mode : LockMode) (owner : Int) (s : SharedLock) :
    s.request mode owner false = { s with
      objects := update s.objects s.next none, next := s.next + 1 } := by
  simp [request, new, delete]

end SharedLock

namespace RWProcess

/-- The cached lock is there, and so is the lock of every call that has been granted one; these are
different objects. -/
structure Ok (w : RWProcess) : Prop where
  cached : (w.lock.objects w.lock.cachedLock).isSome
  below : ∀ p, (w.lock.objects p).isSome → p < w.lock.next
  own : ∀ t mode owner p, w.calls t = some (.granted mode owner p) →
    w.lock.objects p = some ⟨mode.level, owner⟩ ∧ p ≠ w.lock.cachedLock
  distinct : ∀ t t' mode mode' owner owner' p, w.calls t = some (.granted mode owner p) →
    w.calls t' = some (.granted mode' owner' p) → t = t'

variable {w : RWProcess} {thread : Nat} {mode : LockMode} {owner : Int} {newLock : Nat}

theorem Ok.put (h : w.Ok) (g : GlobalRWLock) {calls : Nat → Option CallState}
    (hcalls : ∀ t mode owner p, calls t = some (.granted mode owner p) →
      w.calls t = some (.granted mode owner p)) : Ok ⟨w.lock.put g, calls⟩ where
  cached := (SharedLock.put_isSome g w.lock.cachedLock).trans h.cached
  below p hp := h.below p ((SharedLock.put_isSome g p).symm.trans hp)
  own t mode owner p hp := by
    obtain ⟨hobject, hne⟩ := h.own t mode owner p (hcalls _ _ _ _ hp)
    exact ⟨(SharedLock.put_objects_of_ne g hne).trans hobject, hne⟩
  distinct t t' mode mode' owner owner' p hp hp' :=
    h.distinct t t' mode mode' owner owner' p (hcalls _ _ _ _ hp) (hcalls _ _ _ _ hp')

theorem granted_update {c : Option CallState} (hc : ∀ mode owner p, c ≠ some
    (.granted mode owner p))
    (t : Nat) (mode : LockMode) (owner : Int) (p : Nat)
    (h : update w.calls thread c t = some (.granted mode owner p)) :
    w.calls t = some (.granted mode owner p) ∧ t ≠ thread := by
  by_cases ht : t = thread
  · rw [ht, update_self] at h
    exact absurd h (hc _ _ _)
  · rw [update_of_ne ht] at h
    exact ⟨h, ht⟩

theorem Ok.request_true (h : w.Ok) :
    Ok ⟨w.lock.request mode owner true,
      update w.calls thread (some (.granted mode owner w.lock.next))⟩ := by
  rw [SharedLock.request_true]
  have hcached := h.below _ h.cached
  have hfresh : ∀ t m o p, w.calls t = some (.granted m o p) → p ≠ w.lock.next := by
    intro t m o p hp
    have := h.below p (by rw [(h.own t m o p hp).1]; rfl)
    omega
  have hold : ∀ t m o p, t ≠ thread →
      update w.calls thread (some (.granted mode owner w.lock.next)) t =
        some (.granted m o p) → w.calls t = some (.granted m o p) := by
    intro t m o p ht hp
    rwa [update_of_ne ht] at hp
  have hown : ∀ m o p, update w.calls thread (some (.granted mode owner w.lock.next))
    thread =
      some (.granted m o p) → mode = m ∧ owner = o ∧ w.lock.next = p := by
    intro m o p hp
    rw [update_self] at hp
    cases hp
    exact ⟨rfl, rfl, rfl⟩
  refine ⟨?_, fun p hp => ?_, fun t m o p hp => ?_, fun t t' m m' o o' p hp hp' => ?_⟩
  · dsimp only
    rw [update_of_ne hcached.ne]
    exact h.cached
  · dsimp only at hp ⊢
    by_cases hnext : p = w.lock.next
    · omega
    · rw [update_of_ne hnext] at hp
      exact Nat.lt_succ_of_lt (h.below p hp)
  · dsimp only at hp ⊢
    by_cases ht : t = thread
    · subst ht
      obtain ⟨rfl, rfl, rfl⟩ := hown _ _ _ hp
      exact ⟨update_self .., hcached.ne'⟩
    · have hp := hold t m o p ht hp
      rw [update_of_ne (hfresh t m o p hp)]
      exact h.own t m o p hp
  · dsimp only at hp hp'
    by_cases ht : t = thread <;> by_cases ht' : t' = thread
    · exact ht.trans ht'.symm
    · subst ht
      obtain ⟨-, -, rfl⟩ := hown _ _ _ hp
      exact absurd rfl (hfresh t' _ _ _ (hold _ _ _ _ ht' hp'))
    · subst ht'
      obtain ⟨-, -, rfl⟩ := hown _ _ _ hp'
      exact absurd rfl (hfresh t _ _ _ (hold _ _ _ _ ht hp))
    · exact h.distinct t t' m m' o o' p (hold _ _ _ _ ht hp) (hold _ _ _ _ ht' hp')

theorem Ok.delete (h : w.Ok) {calls : Nat → Option CallState} {s : SharedLock}
    (hle : w.lock.next ≤ s.next) (hcached : (s.objects s.cachedLock).isSome)
    (hbelow : ∀ p, (s.objects p).isSome → (w.lock.objects p).isSome)
    (hcalls : ∀ t mode owner p, calls t = some (.granted mode owner p) →
      w.calls t = some (.granted mode owner p) ∧ s.objects p = w.lock.objects p ∧
        p ≠ s.cachedLock) : Ok ⟨s, calls⟩ := by
  refine ⟨hcached, fun p hp => (h.below p (hbelow p hp)).trans_le hle, fun t m o p hp => ?_,
    fun t t' m m' o o' p hp hp' => ?_⟩
  · obtain ⟨hcall, hobject, hne⟩ := hcalls t m o p hp
    exact ⟨hobject.trans (h.own t m o p hcall).1, hne⟩
  · exact h.distinct t t' m m' o o' p (hcalls _ _ _ _ hp).1 (hcalls _ _ _ _ hp').1

theorem Ok.request_false (h : w.Ok) :
    Ok ⟨w.lock.request mode owner false, update w.calls thread none⟩ := by
  rw [SharedLock.request_false]
  have hcached := h.below _ h.cached
  refine h.delete (Nat.le_succ _) ?_ (fun p hp => ?_) fun t m o p hp => ?_ <;> dsimp only at *
  · rw [update_of_ne hcached.ne]
    exact h.cached
  · by_cases hnext : p = w.lock.next
    · rw [hnext, update_self] at hp
      cases hp
    · rwa [update_of_ne hnext] at hp
  · obtain ⟨hcall, -⟩ := granted_update (fun _ _ _ => by simp) t m o p hp
    obtain ⟨hobject, hne⟩ := h.own t m o p hcall
    have := h.below p (by rw [hobject]; rfl)
    exact ⟨hcall, update_of_ne this.ne .., hne⟩

theorem Ok.lockSecond (h : w.Ok) (hcall : w.calls thread = some (.granted mode owner newLock))
    (fetched ownerSet : Bool) :
    Ok ⟨(w.lock.lockSecond mode owner newLock fetched ownerSet).2,
      update w.calls thread none⟩ := by
  obtain ⟨hnew, hne⟩ := h.own _ _ _ _ hcall
  -- The locks of the other calls.
  have hothers : ∀ t m o p, update w.calls thread none t = some (.granted m o p) →
      w.calls t = some (.granted m o p) ∧ p ≠ newLock ∧ p ≠ w.lock.cachedLock := by
    intro t m o p hp
    obtain ⟨hp, ht⟩ := granted_update (fun _ _ _ => by simp) t m o p hp
    refine ⟨hp, ?_, (h.own t m o p hp).2⟩
    rintro rfl
    exact ht (h.distinct _ _ _ _ _ _ _ hp hcall)
  have hsome : ∀ (f : Nat → Option LockObject) p, (update f newLock none p).isSome →
      (f p).isSome := by
    intro f p hp
    by_cases heq : p = newLock
    · rw [heq, update_self] at hp
      cases hp
    · rwa [update_of_ne heq] at hp
  obtain ⟨-, heq⟩ | ⟨s', -, rfl, ⟨-, heq⟩ | ⟨-, heq⟩⟩ :=
    @SharedLock.lockSecond_cases w.lock mode owner newLock fetched ownerSet hnew hne h.cached
  · rw [heq]
    refine h.delete (Nat.le_refl _) ?_ (hsome _) fun t m o p hp => ?_ <;> dsimp only at *
    · rw [update_of_ne hne.symm]
      exact h.cached
    · obtain ⟨hp, hnot, hcached⟩ := hothers t m o p hp
      exact ⟨hp, update_of_ne hnot .., hcached⟩
  · rw [heq]
    refine h.delete (Nat.le_refl _) ?_ (fun p hp => ?_) fun t m o p hp => ?_ <;> dsimp only at *
    · rw [update_self]
      rfl
    · by_cases hp' : p = newLock
      · rw [hp', hnew]
        rfl
      · rw [update_of_ne hp'] at hp
        by_cases hcached : p = w.lock.cachedLock
        · exact hcached ▸ h.cached
        · rw [update_of_ne hcached] at hp
          exact (SharedLock.put_isSome _ p).symm.trans hp
    · obtain ⟨hp, hnot, hcached⟩ := hothers t m o p hp
      refine ⟨hp, ?_, hnot⟩
      rw [update_of_ne hnot, update_of_ne hcached]
      exact SharedLock.put_objects_of_ne _ hcached
  · rw [heq]
    refine h.delete (Nat.le_refl _) ?_ (fun p hp => ?_) fun t m o p hp => ?_ <;> dsimp only at *
    · rw [SharedLock.put_cachedLock, update_of_ne hne.symm]
      exact (SharedLock.put_isSome _ _).trans h.cached
    · exact (SharedLock.put_isSome _ p).symm.trans (hsome _ p hp)
    · obtain ⟨hp, hnot, hcached⟩ := hothers t m o p hp
      refine ⟨hp, ?_, hcached⟩
      rw [update_of_ne hnot]
      exact SharedLock.put_objects_of_ne _ hcached

theorem Ok.step (h : w.Ok) (a : RWStep) : (w.step a).Ok := by
  cases a with
  | first t mode owner =>
    simp only [RWProcess.step]
    cases w.calls t with
    | some c => exact h
    | none =>
      refine h.put _ fun t' m o p hp => (granted_update (fun _ _ _ hc => ?_) t' m o p hp).1
      split_ifs at hc
      cases hc
  | request t granted =>
    simp only [RWProcess.step]
    cases w.calls t with
    | none => exact h
    | some c =>
      cases c with
      | granted => exact h
      | waiting mode owner =>
        cases granted with
        | true => exact h.request_true
        | false => exact h.request_false
  | second t fetched ownerSet =>
    simp only [RWProcess.step]
    cases hc : w.calls t with
    | none => exact h
    | some c =>
      cases c with
      | waiting => exact h
      | granted mode owner newLock => exact h.lockSecond hc fetched ownerSet
  | unlock | blockingAst | changeLockOwner | tryReleaseLock => exact h.put _ fun _ _ _ _ hp => hp

theorem Ok.run (h : w.Ok) (as : List RWStep) : (w.run as).Ok := by
  induction as generalizing w with
  | nil => exact h
  | cons a as ih => exact ih (h.step a)

theorem init_ok (physicalLockOwner : Int) (lockCaching : Bool) :
    (init physicalLockOwner lockCaching).Ok := by
  refine ⟨rfl, fun p hp => ?_, fun t m o p hp => ?_, fun t t' m m' o o' p hp => ?_⟩
  · by_cases h : p = 0
    · exact h ▸ Nat.one_pos
    · unfold init at hp
      dsimp only at hp
      rw [update_of_ne h] at hp
      cases hp
  · cases hp
  · cases hp

theorem step_calls {a : RWStep} (h : a.caller ≠ some thread) :
    (w.step a).calls thread = w.calls thread := by
  have hne : ∀ t, a.caller = some t → thread ≠ t := by
    rintro t ht rfl
    exact h ht
  cases a with
  | first t mode owner =>
    simp only [RWProcess.step]
    cases w.calls t with
    | some c => rfl
    | none => exact update_of_ne (hne t rfl) ..
  | request t granted =>
    simp only [RWProcess.step]
    split
    · exact update_of_ne (hne t rfl) ..
    · rfl
  | second t fetched ownerSet =>
    simp only [RWProcess.step]
    split
    · exact update_of_ne (hne t rfl) ..
    · rfl
  | unlock | blockingAst | changeLockOwner | tryReleaseLock => rfl

theorem run_calls {as : List RWStep} (h : ∀ a ∈ as, a.caller ≠ some thread) :
    (w.run as).calls thread = w.calls thread := by
  induction as generalizing w with
  | nil => rfl
  | cons a as ih =>
    change ((w.step a).run as).calls thread = _
    rw [ih fun b hb => h b (mem_cons_of_mem a hb), step_calls (h a mem_cons_self)]

/-- The call is refused by nobody but `fetch`. -/
def Harmless (thread : Nat) (mode : LockMode) (owner : Int) (answers : LockAnswers thread)
    (w : RWProcess) : Prop :=
  w.lock.view.Admits mode owner ∨
    answers.granted = true ∧ (answers.fetched = false ∨ answers.ownerSet = true ∨
      let s := (w.beforeSecond thread mode owner answers).lock
      mode.level.rank ≤ (s.physical s.cachedLock).rank)

section Call

variable {answers : LockAnswers thread}

theorem step_first (hidle : w.calls thread = none)
    (hwait : (w.lock.lockFirst mode owner).1 = false) :
    (w.step (.first thread mode owner)).calls thread = some (.waiting mode owner) ∧
      (w.step (.first thread mode owner)).lock.readers = w.lock.readers ∧
      (w.step (.first thread mode owner)).lock.writer = w.lock.writer ∧
      (w.step (.first thread mode owner)).lock.internalBlocking = w.lock.internalBlocking + 1 := by
  obtain ⟨hreaders, hwriter, hblocking⟩ := GlobalRWLock.lockFirst_false hwait
  simp only [RWProcess.step, hidle, hwait, Bool.false_eq_true, if_false, update_self, true_and]
  exact ⟨hreaders, hwriter, hblocking⟩

theorem beforeRequest_calls (hidle : w.calls thread = none)
    (hwait : (w.lock.lockFirst mode owner).1 = false) :
    (w.beforeRequest thread mode owner answers).calls thread = some (.waiting mode owner) :=
  (run_calls fun a ha => answers.others a (mem_append_left _ ha)).trans
    (step_first hidle hwait).1

theorem step_request (hcall : w.calls thread = some (.waiting mode owner)) (granted : Bool) :
    w.step (.request thread granted) = ⟨w.lock.request mode owner granted,
      update w.calls thread
        (if granted then some (.granted mode owner w.lock.next) else none)⟩ := by
  simp [RWProcess.step, hcall]

theorem request_counters (s : SharedLock) (granted : Bool) :
    (s.request mode owner granted).readers = s.readers ∧
      (s.request mode owner granted).writer = s.writer ∧
      (s.request mode owner granted).internalBlocking = s.internalBlocking ∧
      (s.request mode owner granted).cachedLock = s.cachedLock := by
  unfold SharedLock.request
  split_ifs <;> exact ⟨rfl, rfl, rfl, rfl⟩

theorem beforeSecond_calls (hidle : w.calls thread = none)
    (hwait : (w.lock.lockFirst mode owner).1 = false) :
    (w.beforeSecond thread mode owner answers).calls thread =
      some (.granted mode owner (w.beforeRequest thread mode owner answers).lock.next) := by
  refine (run_calls fun a ha => answers.others a (mem_append_right _ ha)).trans ?_
  rw [step_request (beforeRequest_calls hidle hwait)]
  exact update_self ..

theorem Ok.beforeRequest (h : w.Ok) : (w.beforeRequest thread mode owner answers).Ok :=
  (h.step _).run _

theorem Ok.beforeSecond (h : w.Ok) : (w.beforeSecond thread mode owner answers).Ok :=
  (h.beforeRequest.step _).run _

theorem not_noTrace_refused (hidle : w.calls thread = none)
    (hwait : (w.lock.lockFirst mode owner).1 = false) (hrefused : answers.granted = false) :
    (w.lockCall thread mode owner answers).result = false ∧
      ¬(w.lockCall thread mode owner answers).NoTrace := by
  have hfirst := (step_first hidle hwait).2.2.2
  have hrequest := step_request (@beforeRequest_calls w thread mode owner answers hidle hwait)
    answers.granted
  have hcounters := @request_counters mode owner (w.beforeRequest thread mode owner answers).lock
    answers.granted
  unfold lockCall
  rw [hwait, if_neg Bool.false_ne_true, if_pos hrefused]
  refine ⟨rfl, fun htrace => ?_⟩
  have hblocking := htrace.blocking
  simp only [map_cons, map_nil, sum_cons, sum_nil] at hblocking
  rw [hrequest, hfirst] at hblocking
  dsimp only at hblocking
  omega

theorem lockCall_eq (hwait : (w.lock.lockFirst mode owner).1 = false)
    (hgranted : answers.granted = true) :
    w.lockCall thread mode owner answers =
      let w₁ := w.step (.first thread mode owner)
      let w₂ := w.beforeRequest thread mode owner answers
      let w₃ := w₂.step (.request thread answers.granted)
      let w₄ := w.beforeSecond thread mode owner answers
      let w₅ := w₄.step (.second thread answers.fetched answers.ownerSet)
      ⟨(w₄.lock.lockSecond mode owner w₂.lock.next answers.fetched answers.ownerSet).1,
        [(w, w₁), (w₂, w₃), (w₄, w₅)], w₅, some w₂.lock.next⟩ := by
  unfold lockCall
  rw [hwait, if_neg Bool.false_ne_true, if_neg (by rw [hgranted]; decide)]

theorem noTrace_second_iff (h : w.Ok) (hidle : w.calls thread = none)
    (hwait : (w.lock.lockFirst mode owner).1 = false) (hgranted : answers.granted = true)
    (hresult : (w.lockCall thread mode owner answers).result = false) :
    (w.lockCall thread mode owner answers).NoTrace ↔ answers.fetched = false := by
  obtain ⟨-, hreaders, hwriter, hblocking⟩ := step_first hidle hwait
  have hrequest := step_request (@beforeRequest_calls w thread mode owner answers hidle hwait)
    answers.granted
  have hcounters := @request_counters mode owner (w.beforeRequest thread mode owner answers).lock
    answers.granted
  have hcall := @beforeSecond_calls w thread mode owner answers hidle hwait
  have hok := @Ok.beforeSecond w thread mode owner answers h
  rw [lockCall_eq hwait hgranted] at hresult ⊢
  dsimp only at hresult ⊢
  generalize w.step (.first thread mode owner) = w₁ at *
  generalize w.beforeRequest thread mode owner answers = w₂ at *
  generalize w.beforeSecond thread mode owner answers = w₄ at *
  obtain ⟨hnew, hne⟩ := hok.own _ _ _ _ hcall
  have hsecond : w₄.step (.second thread answers.fetched answers.ownerSet) =
      ⟨(w₄.lock.lockSecond mode owner w₂.lock.next answers.fetched answers.ownerSet).2,
        update w₄.calls thread none⟩ := by
    simp [RWProcess.step, hcall]
  rw [hrequest, hsecond]
  obtain ⟨hfetched, heq⟩ | ⟨s', hfetched, rfl, ⟨-, heq⟩ | ⟨-, heq⟩⟩ :=
    @SharedLock.lockSecond_cases w₄.lock mode owner w₂.lock.next answers.fetched answers.ownerSet
      hnew hne hok.cached
  · -- The counter is lowered again, and the new lock goes.
    rw [heq]
    refine iff_of_true ⟨?_, ?_, ?_, ?_, ?_⟩ hfetched
    · simp [hreaders, hcounters]
    · simp [hwriter, hcounters]
    · simp [hblocking, hcounters]
    · simp [SharedLock.physical]
    · simpa [update_of_ne hne.symm] using hok.cached
  · rw [heq] at hresult ⊢
    refine iff_of_false (fun hno => ?_) (by rw [hfetched]; decide)
    have hreaders' := (forall_mem_cons.1 (forall_mem_cons.1 hno.readers).2).2
    have hwriter' := (forall_mem_cons.1 (forall_mem_cons.1 hno.writer).2).2
    obtain hreg | hreg := GlobalRWLock.register_ne mode owner
      { w₄.lock with internalBlocking := w₄.lock.internalBlocking - 1 }.view
    · exact hreg (hreaders' _ mem_cons_self)
    · exact hreg (hwriter' _ mem_cons_self)
  · rw [heq] at hresult
    cases hresult

theorem result_second (h : w.Ok) (hidle : w.calls thread = none)
    (hwait : (w.lock.lockFirst mode owner).1 = false) (hgranted : answers.granted = true) :
    (w.lockCall thread mode owner answers).result = false ↔
      answers.fetched = false ∨ answers.ownerSet = false ∧
        ((w.beforeSecond thread mode owner answers).lock.physical
          (w.beforeSecond thread mode owner answers).lock.cachedLock).rank < mode.level.rank := by
  have hcall := @beforeSecond_calls w thread mode owner answers hidle hwait
  have hok := @Ok.beforeSecond w thread mode owner answers h
  obtain ⟨hnew, hne⟩ := hok.own _ _ _ _ hcall
  rw [lockCall_eq hwait hgranted]
  dsimp only
  obtain ⟨hfetched, heq⟩ | ⟨s', hfetched, -, ⟨hlt, heq⟩ | ⟨hle, heq⟩⟩ :=
    @SharedLock.lockSecond_cases _ mode owner _ answers.fetched answers.ownerSet hnew hne hok.cached
  · rw [heq]
    simp [hfetched]
  · rw [heq]
    simp [hfetched, hlt]
  · rw [heq]
    simp [hfetched, Nat.not_lt.2 hle]

theorem noTrace_iff (h : w.Ok) (hidle : w.calls thread = none) :
    ((w.lockCall thread mode owner answers).result = false →
        (w.lockCall thread mode owner answers).NoTrace) ↔
      w.Harmless thread mode owner answers := by
  unfold Harmless
  rw [← GlobalRWLock.lockFirst_true, show (w.lock.view.lockFirst mode owner).1 =
    (w.lock.lockFirst mode owner).1 from rfl]
  cases hwait : (w.lock.lockFirst mode owner).1 with
  | true =>
    refine iff_of_true (fun hresult => ?_) (.inl rfl)
    unfold lockCall at hresult
    rw [hwait, if_pos rfl] at hresult
    cases hresult
  | false =>
    cases hgranted : answers.granted with
    | false =>
      obtain ⟨hresult, htrace⟩ := not_noTrace_refused hidle hwait hgranted
      exact iff_of_false (fun hno => htrace (hno hresult)) (by simp)
    | true =>
      have hresult := result_second h hidle hwait hgranted
      have htrace := noTrace_second_iff h hidle hwait hgranted
      rw [← Nat.not_lt]
      constructor
      · intro hno
        refine .inr ⟨rfl, ?_⟩
        by_contra hbad
        simp only [not_or, not_not, Bool.not_eq_true] at hbad
        have hfails := hresult.2 (.inr hbad.2)
        rw [(htrace hfails).1 (hno hfails)] at hbad
        exact absurd hbad.1 (by decide)
      · rintro hharmless hfails
        obtain hharmless | ⟨-, hharmless⟩ := hharmless
        · cases hharmless
        refine (htrace hfails).2 ?_
        obtain hfetched | ⟨howner, hlt⟩ := hresult.1 hfails
        · exact hfetched
        · simpa [howner, hlt] using hharmless

end Call

end RWProcess

/-- In every run, a call of `lock` that fails leaves nothing behind if and only if the lock manager
has granted its request and it does not fail because of `LCK_set_owner_handle`. -/
theorem failed_lock_no_trace_iff (physicalLockOwner : Int) (lockCaching : Bool) (as : List RWStep)
    (thread : Nat) (mode : LockMode) (owner : Int) (answers : LockAnswers thread)
    (hidle : ((RWProcess.init physicalLockOwner lockCaching).run as).calls thread = none) :
    let w := (RWProcess.init physicalLockOwner lockCaching).run as
    ((w.lockCall thread mode owner answers).result = false →
        (w.lockCall thread mode owner answers).NoTrace) ↔
      w.Harmless thread mode owner answers :=
  RWProcess.noTrace_iff ((RWProcess.init_ok physicalLockOwner lockCaching).run as) hidle

/-- Another thread reads. `fetch` fails for a writer. -/
theorem failed_lock_no_trace_iff_fetch :
    let as : List RWStep := [.first 1 .read 5, .request 1 true, .second 1 true true]
    let w := (RWProcess.init 9 true).run as
    let answers : LockAnswers 2 :=
      ⟨[.unlock .read 5 true .pr], true, [.blockingAst .none], false, true, by decide⟩
    ((w.lockCall 2 .write 7 answers).result = false → (w.lockCall 2 .write 7 answers).NoTrace) ↔
      w.Harmless 2 .write 7 answers :=
  failed_lock_no_trace_iff 9 true _ 2 .write 7 _ rfl

/-- The lock manager refuses the first request, or it grants it and the owner of the lock cannot be
set. -/
theorem failed_lock_leaves_trace :
    let w := RWProcess.init 9 true
    let refused : LockAnswers 1 := ⟨[], false, [], true, true, by decide⟩
    let ownerless : LockAnswers 1 := ⟨[], true, [], true, false, by decide⟩
    ((w.lockCall 1 .read 5 refused).result = false ∧ ¬(w.lockCall 1 .read 5 refused).NoTrace) ∧
      (w.lockCall 1 .read 5 ownerless).result = false ∧
        ¬(w.lockCall 1 .read 5 ownerless).NoTrace := by
  refine ⟨⟨rfl, fun h => ?_⟩, rfl, fun h => ?_⟩
  · exact absurd h.blocking (by decide)
  · have := (forall_mem_cons.1 (forall_mem_cons.1 h.readers).2).2 _ mem_cons_self
    exact absurd this (by decide)

end Firebird.Jrd
