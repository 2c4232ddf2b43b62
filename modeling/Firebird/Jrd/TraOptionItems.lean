import Mathlib.Data.List.Basic
import Firebird.Jrd.TraOptions

/-!
# The items of a transaction parameter block

A block is taken apart into items, each an option with what belongs to it. An item is accepted if
it is compatible with those before it, and the state of `transaction_options` is a function of the
items it has accepted.
-/
namespace Firebird.Jrd.Tpb

open List

/-- An option with what belongs to it, or a byte that is none. -/
inductive Item where
  | option (op : Op)
  | other (b : UInt8)
  | time (commit : Bool) (value : List UInt8)
  | timeout (value : List UInt8)
  | reserve (write : Bool) (name : List UInt8) (mode : Option Op)
  deriving DecidableEq

namespace Op

def HasValue (op : Op) : Prop :=
  op = tpbLockWrite ∨ op = tpbLockRead ∨ op = tpbVerbTime ∨ op = tpbCommitTime ∨ op = tpbLockTimeout

def Mode (op : Op) : Prop := op = tpbShared ∨ op = tpbProtected ∨ op = tpbExclusive

instance (op : Op) : Decidable op.HasValue := inferInstanceAs (Decidable (_ ∨ _))

instance (op : Op) : Decidable op.Mode := inferInstanceAs (Decidable (_ ∨ _))

end Op

namespace Item

def code : Item → UInt8
  | option op => op.code
  | other b => b
  | time commit _ => (if commit then Op.tpbCommitTime else .tpbVerbTime).code
  | timeout _ => Op.tpbLockTimeout.code
  | reserve write _ _ => (if write then Op.tpbLockWrite else .tpbLockRead).code

def value : Item → List UInt8
  | option _ | other _ => []
  | time _ value | timeout value => .ofNat value.length :: value
  | reserve _ name mode => .ofNat name.length :: (name ++ mode.toList.map Op.code)

def encode (i : Item) : List UInt8 := i.code :: i.value

/-- Items as they can stand in a block, complete with their values. -/
def WellFormed : Item → Prop
  | option op => ¬ op.HasValue
  | other b => Op.ofByte b = none
  | time _ value | timeout value => value.length ≤ 255
  | reserve _ name mode => name.length ≤ maxSqlIdentifierLen ∧ ∀ op ∈ mode, op.Mode

def Plain : Item → Prop
  | reserve _ _ _ => False
  | _ => True

def level (write : Bool) : Option Op → Level
  | some .tpbProtected | some .tpbExclusive => if write then .ex else .pr
  | _ => if write then .sw else .none

/-- What an item does to the state of `transaction_options`. -/
def apply (rel : Relations) (t : Options) : Item → Option Options
  | option op => Tpb.option op t
  | other _ => none
  | time _ _ => some t
  | timeout value =>
    if t.wait.isAssigned && !t.wait.asBool then none
    else (t.lockTimeout.assignOnce true).map fun lockTimeout =>
      { t with lockTimeout, traLockTimeout := Tpb.lockTimeout value }
  | reserve write name mode => Tpb.reserve rel name (level write mode) t

def Open : Item → Prop
  | timeout value => value = []
  | reserve _ name mode => name = [] ∧ mode = none
  | _ => False

/-- An item can stand before the bytes `tail`. -/
def Before (tail : List UInt8) (i : Item) : Prop :=
  (i.Open → tail ≠ []) ∧
    ∀ write name, i = reserve write name none → ∀ b ∈ tail.head?, ∀ op : Op, op.Mode → b ≠ op.code

end Item

def applyAll (rel : Relations) (t : Options) : List Item → Option Options
  | [] => some t
  | i :: items => (i.apply rel t).bind fun t => applyAll rel t items

def Chained (rest : List UInt8) : List Item → Prop
  | [] => True
  | i :: items => i.Before (items.flatMap Item.encode ++ rest) ∧ Chained rest items

section Step

variable {rel : Relations} {fuel : Nat} {t : Options} {rest : List UInt8}

theorem toNat_ofNat_length {l : List UInt8} (h : l.length ≤ 255) :
    (UInt8.ofNat l.length).toNat = l.length := by
  rw [UInt8.toNat_ofNat']
  exact Nat.mod_eq_of_lt (by omega)

theorem lockLevel_some (write : Bool) {op : Op} (h : op.Mode) (tail : List UInt8) :
    lockLevel write (op.code :: tail) = (Item.level write (some op), true) := by
  obtain rfl | rfl | rfl := h <;> rfl

theorem lockLevel_none (write : Bool) (h : ∀ b ∈ rest.head?, ∀ op : Op, op.Mode → b ≠ op.code) :
    lockLevel write rest = (Item.level write none, false) := by
  cases rest with
  | nil => rfl
  | cons b rest =>
    have h := h b rfl
    unfold lockLevel
    dsimp only
    rw [if_neg (h _ (.inl rfl)), if_neg (not_or.mpr ⟨h _ (.inr (.inl rfl)), h _ (.inr (.inr rfl))⟩)]
    rfl

theorem optionsLoop_encode {i : Item} (hi : i.WellFormed) (hb : i.Before rest) :
    optionsLoop rel (fuel + 1) t (i.encode ++ rest) =
      match i.apply rel t with
      | none => .rejected
      | some t => optionsLoop rel fuel t rest := by
  rw [Item.encode, cons_append]
  conv_lhs => unfold optionsLoop
  cases i with
  | option op =>
    change ¬ op.HasValue at hi
    unfold Op.HasValue at hi
    push Not at hi
    obtain ⟨h1, h2, h3, h4, h5⟩ := hi
    simp only [Item.code, Op.ofByte_code, h1, h2, h3, h4, h5]
    rfl
  | other b =>
    change Op.ofByte b = none at hi
    simp only [Item.code, hi]
    rfl
  | time commit value =>
    have hlen := toNat_ofNat_length hi
    cases commit <;>
      simp [Item.code, Op.ofByte_code, Item.value, Item.apply, hlen]
  | timeout value =>
    have hlen := toNat_ofNat_length hi
    have hne : ¬ (value ++ rest = [] ∨ (value ++ rest).length < value.length) := by
      rw [not_or, append_eq_nil_iff, length_append]
      exact ⟨fun h => hb.1 h.1 h.2, by omega⟩
    simp only [Item.code, Op.ofByte_code, Item.value, Item.apply, reduceCtorEq, or_self, if_false,
      if_true, cons_append]
    split_ifs with hwait
    · rfl
    · cases t.lockTimeout.assignOnce true with
      | none => rfl
      | some lockTimeout =>
        dsimp only [Option.map_some]
        rw [hlen, if_neg hne, take_left, drop_left]
  | reserve write name mode =>
    obtain ⟨hname, hmode⟩ := hi
    have hlen := toNat_ofNat_length (hname.trans (by decide))
    have hop : (if write = true then Op.tpbLockWrite else .tpbLockRead) = .tpbLockWrite ∨
        (if write = true then Op.tpbLockWrite else .tpbLockRead) = .tpbLockRead := by
      cases write
      · exact .inr rfl
      · exact .inl rfl
    have hwrite : decide ((if write = true then Op.tpbLockWrite else .tpbLockRead) =
      .tpbLockWrite) =
        write := by
      cases write <;> rfl
    simp only [Item.code, Op.ofByte_code]
    rw [if_pos hop]
    simp only [Item.value, cons_append, append_assoc, hlen, take_left, drop_left, hwrite]
    rw [if_neg (Nat.not_lt.mpr hname), if_neg]
    · cases mode with
      | none =>
        simp only [Option.toList_none, map_nil, nil_append, lockLevel_none write (hb.2 _ _ rfl)]
        rfl
      | some op =>
        simp only [Option.toList_some, map_cons, cons_append, lockLevel_some write (hmode op rfl)]
        rfl
    · rw [not_or, append_eq_nil_iff, append_eq_nil_iff, length_append]
      refine ⟨fun h => hb.1 ⟨h.1, ?_⟩ h.2.2, by omega⟩
      cases mode with
      | none => rfl
      | some op => cases h.2.1

theorem optionsLoop_timeout_nil :
    optionsLoop rel fuel t (Item.timeout []).encode = .rejected ∨ fuel = 0 := by
  cases fuel with
  | zero => exact .inr rfl
  | succ fuel =>
    left
    rw [Item.encode]
    unfold optionsLoop
    simp only [Item.code, Op.ofByte_code, reduceCtorEq, or_self, if_false, if_true]
    split_ifs
    · rfl
    · cases t.lockTimeout.assignOnce true with
      | none => rfl
      | some lockTimeout => rfl

end Step

theorem optionsLoop_items {rel : Relations} {rest : List UInt8} {items : List Item} :
    ∀ {fuel : Nat} {t : Options}, (∀ i ∈ items, i.WellFormed) → Chained rest items →
      items.length ≤ fuel →
      optionsLoop rel fuel t (items.flatMap Item.encode ++ rest) =
        match applyAll rel t items with
        | none => .rejected
        | some t => optionsLoop rel (fuel - items.length) t rest := by
  induction items with
  | nil => exact fun _ _ _ => rfl
  | cons i items ih =>
    intro fuel t hwf hchain hfuel
    obtain ⟨fuel, rfl⟩ := Nat.exists_eq_succ_of_ne_zero (Nat.ne_of_gt (Nat.zero_lt_of_lt hfuel))
    rw [flatMap_cons, append_assoc, optionsLoop_encode (hwf i mem_cons_self) hchain.1, applyAll]
    cases i.apply rel t with
    | none => rfl
    | some t =>
      have hwf' := fun j hj => hwf j (mem_cons_of_mem i hj)
      have hrest := ih (t := t) hwf' hchain.2 (Nat.le_of_succ_le_succ hfuel)
      rw [Option.bind_some, length_cons, Nat.succ_sub_succ]
      exact hrest

end Firebird.Jrd.Tpb
