import Mathlib.Data.List.Pairwise
import Firebird.Jrd.TraOptionItems

/-!
# The order of options

Which options exclude one another does not depend on their order, nor does what they come to.
-/
namespace Firebird.Jrd.Tpb

open List

namespace Item

def isIsolation (i : Item) : Bool :=
  i = option .tpbConsistency || i = option .tpbConcurrency || i = option .tpbReadCommitted

def isRecVersion (i : Item) : Bool := i = option .tpbRecVersion || i = option .tpbNoRecVersion

def isWait (i : Item) : Bool := i = option .tpbWait || i = option .tpbNowait

def isAccess (i : Item) : Bool := i = option .tpbRead || i = option .tpbWrite

def timeoutValue : Item → Option (List UInt8)
  | timeout value => some value
  | _ => none

def isTimeout (i : Item) : Bool := i.timeoutValue.isSome

def locks (rel : Relations) : Item → Option (List (Nat × Level))
  | reserve write name mode => (rel.lookup name).bind fun relation =>
    (rel.expandViewLock relation).map fun relations => relations.map (·, level write mode)
  | _ => some []

def Good (rel : Relations) : Item → Prop
  | option op => ¬ op.HasValue ∧ ¬ op.Mode
  | other _ => False
  | i => (i.locks rel).isSome

structure Compatible (i j : Item) : Prop where
  isolation : i.isIsolation → j.isIsolation → False
  recVersion : i.isRecVersion → j.isRecVersion → False
  wait : i.isWait → j.isWait → False
  access : i.isAccess → j.isAccess → False
  timeout : i.isTimeout → j.isTimeout → False
  nowait : i = option .tpbNowait → j.isTimeout → False
  nowait' : i.isTimeout → j = option .tpbNowait → False
  readCommitted : i.isIsolation → i ≠ option .tpbReadCommitted → j.isRecVersion → False

end Item

def timeoutOf (items : List Item) : Int :=
  match items.filterMap Item.timeoutValue with
  | value :: _ => lockTimeout value
  | [] => if items.any (· = .option .tpbNowait) then 0 else -1

/-- The state of `transaction_options` after items that it has accepted. -/
def after (rel : Relations) (items : List Item) : Options where
  traFlags :=
    { degree3 := items.any (· = .option .tpbConsistency)
      readCommitted := items.any (· = .option .tpbReadCommitted)
      recVersion := items.any (· = .option .tpbRecVersion)
      readonly := items.any (· = .option .tpbRead)
      ignoreLimbo := items.any (· = .option .tpbIgnoreLimbo)
      noAutoUndo := items.any (· = .option .tpbNoAutoUndo)
      autocommit := items.any (· = .option .tpbAutocommit)
      restartRequests := items.any (· = .option .tpbRestartRequests) }
  traLockTimeout := timeoutOf items
  traRelationLocks := items.flatMap fun i => (i.locks rel).getD []
  wait := ⟨items.any Item.isWait, items.any (· = .option .tpbWait)⟩
  lockTimeout := ⟨items.any Item.isTimeout, items.any Item.isTimeout⟩
  isolation := ⟨items.any Item.isIsolation, items.any Item.isIsolation⟩
  readOnly := ⟨items.any Item.isAccess, items.any (· = .option .tpbRead)⟩
  recVersion := ⟨items.any Item.isRecVersion, items.any (· = .option .tpbRecVersion)⟩

variable {rel : Relations} {items : List Item} {i : Item}

theorem filterMap_timeoutValue (h : items.any Item.isTimeout = false) :
    items.filterMap Item.timeoutValue = [] := by
  rw [filterMap_eq_nil_iff]
  intro i hi
  have := any_eq_false.mp h i hi
  simpa [Item.isTimeout] using this

theorem timeoutOf_option {op : Op} (h : op ≠ .tpbNowait) :
    timeoutOf (items ++ [.option op]) = timeoutOf items := by
  have hnil : [Item.option op].filterMap Item.timeoutValue = [] := rfl
  unfold timeoutOf
  rw [filterMap_append, hnil, append_nil]
  simp [h]

theorem timeoutOf_other (h : i.timeoutValue = none) (h' : i ≠ .option .tpbNowait) :
    timeoutOf (items ++ [i]) = timeoutOf items := by
  unfold timeoutOf
  rw [filterMap_append, filterMap_cons_none h, filterMap_nil, append_nil]
  simp [h']

theorem timeoutOf_nowait (h : items.any Item.isTimeout = false) :
    timeoutOf (items ++ [.option .tpbNowait]) = 0 := by
  unfold timeoutOf
  rw [filterMap_append, filterMap_timeoutValue h]
  simp only [any_append, any_cons, decide_true, Bool.true_or, Bool.or_true]
  rfl

theorem timeoutOf_timeout {value : List UInt8} (h : items.any Item.isTimeout = false) :
    timeoutOf (items ++ [.timeout value]) = lockTimeout value := by
  unfold timeoutOf
  rw [filterMap_append, filterMap_timeoutValue h]
  rfl

theorem any_eq_false_of {p q : Item → Bool} (h : items.any q = false) (hpq : ∀ i, p i → q i) :
    items.any p = false := by
  rw [any_eq_false] at h ⊢
  exact fun i hi hp => h i hi (hpq i hp)

theorem all_compatible_iff : (∀ d ∈ items, Item.Compatible d i) ↔
    (i.isIsolation → items.any Item.isIsolation = false) ∧
    (i.isRecVersion → items.any Item.isRecVersion = false) ∧
    (i.isWait → items.any Item.isWait = false) ∧
    (i.isAccess → items.any Item.isAccess = false) ∧
    (i.isTimeout → items.any Item.isTimeout = false) ∧
    (i.isTimeout → .option .tpbNowait ∉ items) ∧
    (i = .option .tpbNowait → items.any Item.isTimeout = false) ∧
    (i.isRecVersion → ∀ d ∈ items, d.isIsolation → d = .option .tpbReadCommitted) := by
  simp only [any_eq_false]
  constructor
  · intro h
    refine ⟨fun hi d hd hdi => (h d hd).isolation hdi hi, fun hi d hd hdi => (h d hd).recVersion hdi
      hi,
      fun hi d hd hdi => (h d hd).wait hdi hi, fun hi d hd hdi => (h d hd).access hdi hi,
      fun hi d hd hdi => (h d hd).timeout hdi hi, fun hi hd => (h _ hd).nowait rfl hi,
      fun hi d hd hdi => (h d hd).nowait' hdi hi, fun hi d hd hdi => ?_⟩
    by_contra hne
    exact (h d hd).readCommitted hdi hne hi
  · rintro ⟨h1, h2, h3, h4, h5, h6, h7, h8⟩ d hd
    exact ⟨fun hdi hi => h1 hi d hd hdi, fun hdi hi => h2 hi d hd hdi, fun hdi hi => h3 hi d hd hdi,
      fun hdi hi => h4 hi d hd hdi, fun hdi hi => h5 hi d hd hdi, fun hdi hi => h6 hi (hdi ▸ hd),
      fun hdi hi => h7 hi d hd hdi, fun hdi hne hi => hne (h8 hi d hd hdi)⟩

section Apply

attribute [local simp] Item.isIsolation Item.isRecVersion Item.isWait Item.isAccess Item.isTimeout
  Item.timeoutValue Item.locks TriState.assignOnce TriState.isAssigned TriState.asBool option
  Item.apply timeoutOf_option timeoutOf_nowait timeoutOf_timeout

/-- The items after which `i` can come, by what `i` is. -/
def Allowed (rel : Relations) (items : List Item) (i : Item) : Prop :=
  i.apply rel (after rel items) = some (after rel (items ++ [i])) ∧
    (∀ d ∈ items, Item.Compatible d i) ∨
  i.apply rel (after rel items) = none ∧ ¬ ∀ d ∈ items, Item.Compatible d i

theorem allowed_isolation {op : Op} (h : (Item.option op).isIsolation) :
    Allowed rel items (.option op) := by
  have hcompat : (∀ d ∈ items, Item.Compatible d (.option op)) ↔
      items.any Item.isIsolation = false := by
    rw [all_compatible_iff]
    cases op <;> simp at h ⊢
  unfold Allowed
  rw [hcompat]
  by_cases hiso : items.any Item.isIsolation = true
  · refine .inr ⟨?_, by simp [hiso]⟩
    cases op <;> simp [after, hiso] at h ⊢
  · rw [Bool.not_eq_true] at hiso
    refine .inl ⟨?_, hiso⟩
    have hrc := @any_eq_false_of items (· = .option .tpbReadCommitted) _ hiso (by simp)
    have hcons := @any_eq_false_of items (· = .option .tpbConsistency) _ hiso (by simp)
    cases op <;> simp [after, hiso, hrc, hcons] at h ⊢

theorem isolation_unique (hpair : items.Pairwise Item.Compatible)
    (hrc : items.any (· = .option .tpbReadCommitted) = true) {d : Item} (hd : d ∈ items)
    (hiso : d.isIsolation) : d = .option .tpbReadCommitted := by
  by_contra hne
  have hmem : Item.option .tpbReadCommitted ∈ items := by simpa using hrc
  have hsymm : items.Pairwise fun i j => ¬ (i.isIsolation ∧ j.isIsolation) :=
    hpair.imp fun h hij => h.isolation hij.1 hij.2
  have : Std.Symm fun i j : Item => ¬ (i.isIsolation ∧ j.isIsolation) :=
    ⟨fun i j h hij => h hij.symm⟩
  exact hsymm.forall hd hmem hne ⟨hiso, rfl⟩

theorem allowed_recVersion (hpair : items.Pairwise Item.Compatible) {op : Op}
    (h : (Item.option op).isRecVersion) : Allowed rel items (.option op) := by
  have hcompat : (∀ d ∈ items, Item.Compatible d (.option op)) ↔
      items.any Item.isRecVersion = false ∧
        ∀ d ∈ items, d.isIsolation → d = .option .tpbReadCommitted := by
    rw [all_compatible_iff]
    cases op <;> simp at h ⊢
  -- What the code tests says the same of the isolation level.
  have hiso : (items.any Item.isIsolation && !items.any (· = .option .tpbReadCommitted)) = false ↔
      ∀ d ∈ items, d.isIsolation → d = .option .tpbReadCommitted := by
    constructor
    · intro htest d hd hdi
      have hany : items.any Item.isIsolation = true := any_eq_true.mpr ⟨d, hd, hdi⟩
      rw [hany, Bool.true_and, Bool.not_eq_false'] at htest
      exact isolation_unique hpair htest hd hdi
    · intro hall
      by_contra htest
      rw [Bool.not_eq_false, Bool.and_eq_true_iff, any_eq_true] at htest
      obtain ⟨⟨d, hd, hdi⟩, hnone⟩ := htest
      have := hall d hd hdi
      subst this
      simp only [Bool.not_eq_true', any_eq_false] at hnone
      exact hnone _ hd rfl
  unfold Allowed
  rw [hcompat, ← hiso]
  cases htest : items.any Item.isIsolation && !items.any (· = .option .tpbReadCommitted) with
  | true =>
    refine .inr ⟨?_, fun hall => Bool.noConfusion hall.2⟩
    cases op <;> simp [after, htest] at h ⊢
  | false =>
    by_cases hrec : items.any Item.isRecVersion = true
    · refine .inr ⟨?_, by simp [hrec]⟩
      cases op <;> simp [after, hrec] at h ⊢
    · rw [Bool.not_eq_true] at hrec
      refine .inl ⟨?_, hrec, rfl⟩
      have hr := @any_eq_false_of items (· = .option .tpbRecVersion) _ hrec (by simp)
      cases op <;> simp [after, htest, hrec, hr] at h ⊢

theorem allowed_wait : Allowed rel items (.option .tpbWait) := by
  have hcompat : (∀ d ∈ items, Item.Compatible d (.option .tpbWait)) ↔
      items.any Item.isWait = false := by
    rw [all_compatible_iff]
    simp
  unfold Allowed
  rw [hcompat]
  by_cases hwait : items.any Item.isWait = true
  · exact .inr ⟨by simp [after, hwait], by simp [hwait]⟩
  · rw [Bool.not_eq_true] at hwait
    exact .inl ⟨by simp [after, hwait], hwait⟩

theorem allowed_nowait : Allowed rel items (.option .tpbNowait) := by
  have hcompat : (∀ d ∈ items, Item.Compatible d (.option .tpbNowait)) ↔
      items.any Item.isWait = false ∧ items.any Item.isTimeout = false := by
    rw [all_compatible_iff]
    simp
  unfold Allowed
  rw [hcompat]
  by_cases htimeout : items.any Item.isTimeout = true
  · exact .inr ⟨by simp [after, htimeout], by simp [htimeout]⟩
  by_cases hwait : items.any Item.isWait = true
  · exact .inr ⟨by simp [after, hwait], by simp [hwait]⟩
  · rw [Bool.not_eq_true] at hwait htimeout
    have hw := @any_eq_false_of items (· = .option .tpbWait) _ hwait (by simp)
    exact .inl ⟨by simp [after, htimeout, hwait, hw], hwait, htimeout⟩

theorem allowed_access {op : Op} (h : (Item.option op).isAccess) :
    Allowed rel items (.option op) := by
  have hcompat : (∀ d ∈ items, Item.Compatible d (.option op)) ↔
      items.any Item.isAccess = false := by
    rw [all_compatible_iff]
    cases op <;> simp at h ⊢
  unfold Allowed
  rw [hcompat]
  by_cases hacc : items.any Item.isAccess = true
  · refine .inr ⟨?_, by simp [hacc]⟩
    cases op <;> simp [after, hacc] at h ⊢
  · rw [Bool.not_eq_true] at hacc
    refine .inl ⟨?_, hacc⟩
    have hread := @any_eq_false_of items (· = .option .tpbRead) _ hacc (by simp)
    cases op <;> simp [after, hacc, hread] at h ⊢

theorem allowed_other {op : Op} (hval : ¬ op.HasValue) (hmode : ¬ op.Mode)
    (hiso : (Item.option op).isIsolation = false) (hrec : (Item.option op).isRecVersion = false)
    (hwait : (Item.option op).isWait = false) (hacc : (Item.option op).isAccess = false) :
    Allowed rel items (.option op) := by
  refine .inl ⟨?_, ?_⟩
  · cases op <;> simp [after, Op.HasValue, Op.Mode] at hiso hrec hwait hacc hval hmode ⊢
  · rw [all_compatible_iff]
    cases op <;> simp at hiso hrec hwait hacc ⊢

theorem allowed_time (commit : Bool) (value : List UInt8) :
    Allowed rel items (.time commit value) := by
  refine .inl ⟨?_, ?_⟩
  · have htimeout := @timeoutOf_other items (.time commit value) rfl (by simp)
    simp [after, htimeout]
  · rw [all_compatible_iff]
    simp

theorem not_wait_iff (hpair : items.Pairwise Item.Compatible) :
    (items.any Item.isWait && !(items.any Item.isWait && items.any (· = .option .tpbWait))) = true ↔
      .option .tpbNowait ∈ items := by
  have hsymm : items.Pairwise fun i j => ¬ (i.isWait ∧ j.isWait) :=
    hpair.imp fun h hij => h.wait hij.1 hij.2
  have : Std.Symm fun i j : Item => ¬ (i.isWait ∧ j.isWait) := ⟨fun i j h hij => h hij.symm⟩
  constructor
  · intro htest
    obtain ⟨hwait, hnot⟩ := Bool.and_eq_true_iff.mp htest
    rw [hwait, Bool.true_and, Bool.not_eq_true', any_eq_false] at hnot
    obtain ⟨d, hd, hdw⟩ := any_eq_true.mp hwait
    have hne := hnot d hd
    simp at hdw hne
    exact hdw.resolve_left hne ▸ hd
  · intro hmem
    have hwait : items.any Item.isWait = true := any_eq_true.mpr ⟨_, hmem, rfl⟩
    have hnot : items.any (· = .option .tpbWait) = false := by
      rw [any_eq_false]
      intro d hd hdw
      rw [decide_eq_true_eq] at hdw
      subst hdw
      exact hsymm.forall hd hmem (by simp) ⟨rfl, rfl⟩
    rw [hwait, hnot]
    rfl

theorem allowed_timeout (hpair : items.Pairwise Item.Compatible) (value : List UInt8) :
    Allowed rel items (.timeout value) := by
  have hcompat : (∀ d ∈ items, Item.Compatible d (.timeout value)) ↔
      items.any Item.isTimeout = false ∧ .option .tpbNowait ∉ items := by
    rw [all_compatible_iff]
    simp
  have htest := not_wait_iff hpair
  unfold Allowed
  rw [hcompat]
  by_cases hmem : Item.option .tpbNowait ∈ items
  · exact .inr ⟨by simp only [Item.apply, after, TriState.isAssigned, TriState.asBool, htest.mpr
      hmem, if_true], fun h => h.2 hmem⟩
  rw [← htest, Bool.not_eq_true] at hmem
  by_cases htimeout : items.any Item.isTimeout = true
  · refine .inr ⟨?_, by simp [htimeout]⟩
    simp only [Item.apply, after, TriState.isAssigned, TriState.asBool, hmem, htimeout]
    rfl
  · rw [Bool.not_eq_true] at htimeout
    refine .inl ⟨?_, htimeout, fun h => Bool.noConfusion ((htest.mpr h).symm.trans hmem)⟩
    simp only [Item.apply, after, TriState.isAssigned, TriState.asBool, hmem]
    simp [htimeout]

theorem allowed_reserve {write : Bool} {name : List UInt8} {mode : Option Op}
    (h : ((Item.reserve write name mode).locks rel).isSome) :
    Allowed rel items (.reserve write name mode) := by
  refine .inl ⟨?_, ?_⟩
  · have htimeout := @timeoutOf_other items (.reserve write name mode) rfl (by simp)
    simp only [Item.locks] at h
    cases hlookup : rel.lookup name with
    | none =>
      rw [hlookup] at h
      cases h
    | some relation =>
      rw [hlookup, Option.bind_some] at h
      cases hexpand : rel.expandViewLock relation with
      | none =>
        rw [hexpand] at h
        cases h
      | some relations => simp [reserve, hlookup, hexpand, after, htimeout]
  · rw [all_compatible_iff]
    simp

theorem allowed (hpair : items.Pairwise Item.Compatible) (hgood : i.Good rel) :
    Allowed rel items i := by
  cases i with
  | option op =>
    obtain ⟨hval, hmode⟩ := hgood
    cases hiso : (Item.option op).isIsolation with
    | true => exact allowed_isolation hiso
    | false =>
      cases hrec : (Item.option op).isRecVersion with
      | true => exact allowed_recVersion hpair hrec
      | false =>
        cases hacc : (Item.option op).isAccess with
        | true => exact allowed_access hacc
        | false =>
          by_cases hw : op = .tpbWait
          · exact hw ▸ allowed_wait
          by_cases hn : op = .tpbNowait
          · exact hn ▸ allowed_nowait
          · exact allowed_other hval hmode hiso hrec (by simp [hw, hn]) hacc
  | other b => exact False.elim hgood
  | time commit value => exact allowed_time commit value
  | timeout value => exact allowed_timeout hpair value
  | reserve write name mode => exact allowed_reserve hgood

theorem apply_of_not_good {t : Options} (hwf : i.WellFormed) (h : ¬ i.Good rel) :
    i.apply rel t = none := by
  cases i with
  | option op =>
    have hmode : op.Mode := by
      by_contra hmode
      exact h ⟨hwf, hmode⟩
    obtain rfl | rfl | rfl := hmode <;> rfl
  | other b => rfl
  | time commit value => exact absurd rfl h
  | timeout value => exact absurd rfl h
  | reserve write name mode =>
    change ¬ ((rel.lookup name).bind fun relation =>
      (rel.expandViewLock relation).map fun relations =>
        relations.map (·, Item.level write mode)).isSome at h
    simp only [Item.apply, reserve]
    cases hlookup : rel.lookup name with
    | none => rfl
    | some relation =>
      rw [hlookup, Option.bind_some] at h
      cases hexpand : rel.expandViewLock relation with
      | none => simp only [hexpand, Option.map_none]
      | some relations =>
        rw [hexpand] at h
        exact absurd rfl h

end Apply

theorem applyAll_after {more : List Item} (hwf : ∀ i ∈ more, i.WellFormed) (t : Options) :
    ∀ {items : List Item}, items.Pairwise Item.Compatible →
      (applyAll rel (after rel items) more = some t ↔
        (∀ i ∈ more, i.Good rel) ∧ (items ++ more).Pairwise Item.Compatible ∧
          t = after rel (items ++ more)) := by
  induction more with
  | nil =>
    intro items hpair
    simp only [applyAll, Option.some.injEq, append_nil, not_mem_nil, false_implies,
      implies_true, true_and, hpair]
    exact eq_comm
  | cons i more ih =>
    intro items hpair
    have hwf' : ∀ j ∈ more, j.WellFormed := fun j hj => hwf j (mem_cons_of_mem i hj)
    have happend : items ++ i :: more = items ++ [i] ++ more := by simp
    rw [applyAll, happend]
    by_cases hgood : i.Good rel
    · obtain ⟨happly, hall⟩ | ⟨happly, hall⟩ := allowed hpair hgood
      · have hpair' : (items ++ [i]).Pairwise Item.Compatible := by
          rw [pairwise_append]
          exact ⟨hpair, pairwise_singleton _ _, fun d hd j hj => by
            rw [mem_singleton.mp hj]
            exact hall d hd⟩
        rw [happly, Option.bind_some, ih hwf' hpair', forall_mem_cons]
        simp [hgood]
      · rw [happly, Option.bind_none]
        refine ⟨fun h => (by cases h), fun h => absurd (fun d hd => ?_) hall⟩
        have hp := h.2.1
        rw [append_assoc, pairwise_append] at hp
        exact hp.2.2 d hd i (by simp)
    · rw [apply_of_not_good (hwf i mem_cons_self) hgood, Option.bind_none]
      exact ⟨fun h => (by cases h), fun h => absurd (h.1 i mem_cons_self) hgood⟩

end Firebird.Jrd.Tpb
