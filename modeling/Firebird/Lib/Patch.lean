import Mathlib.Data.List.Basic
import Mathlib.Data.List.TakeDrop

/-!
# Patches over a base string

A patch walks along a base string and either keeps the next letters of the base or
replaces them. Encoded, a kept stretch is one control letter with a negative count and a
replacement is a positive count followed by its letters. `Covers` says which target a
patch describes when only a front part of the base is known.
-/
namespace Firebird.Lib.Patch

open List

inductive Token (α : Type*) where
  | keep (count : Nat)
  | replace (letters : List α)

variable {α : Type*}

namespace Token

def span : Token α → Nat
  | keep n => n
  | replace ls => ls.length

def encode (ctl : Int → α) : Token α → List α
  | keep n => [ctl (-n)]
  | replace ls => ctl ls.length :: ls

/-- The span is nonzero and fits a count of `m`. -/
def Within (m : Nat) (t : Token α) : Prop := 1 ≤ t.span ∧ t.span ≤ m

end Token

def encode (ctl : Int → α) (ts : List (Token α)) : List α := ts.flatMap (Token.encode ctl)

@[simp] theorem encode_nil (ctl : Int → α) : encode ctl [] = [] := rfl
@[simp] theorem encode_cons (ctl : Int → α) (t : Token α) (ts : List (Token α)) :
    encode ctl (t :: ts) = t.encode ctl ++ encode ctl ts := by simp [encode]
@[simp] theorem encode_append (ctl : Int → α) (ts us : List (Token α)) :
    encode ctl (ts ++ us) = encode ctl ts ++ encode ctl us := by simp [encode]

/-- Over a base that starts with `a`, the patch yields exactly the letters `b`. -/
def Covers : List (Token α) → List α → List α → Prop
  | [], _, b => b = []
  | .keep n :: ts, a, b =>
    n ≤ a.length ∧ n ≤ b.length ∧ a.take n = b.take n ∧ Covers ts (a.drop n) (b.drop n)
  | .replace ls :: ts, a, b => ∃ b', b = ls ++ b' ∧ Covers ts (a.drop ls.length) b'

theorem Covers.append {ts us : List (Token α)} {a b c : List α} (h : Covers ts a b)
    (g : Covers us (a.drop b.length) c) : Covers (ts ++ us) a (b ++ c) := by
  induction ts generalizing a b with
  | nil => obtain rfl : b = [] := h; simpa using g
  | cons t ts ih =>
    cases t with
    | keep n =>
      obtain ⟨ha, hb, heq, h⟩ := h
      refine ⟨ha, by simp; omega, by rw [take_append_of_le_length hb]; exact heq, ?_⟩
      rw [drop_append_of_le_length hb]
      refine ih h ?_
      rwa [drop_drop, length_drop, Nat.add_sub_cancel' hb]
    | replace ls =>
      obtain ⟨b', rfl, h⟩ := h
      refine ⟨b' ++ c, by simp, ih h ?_⟩
      rwa [drop_drop, ← length_append]

theorem Covers.keep {a b : List α} {n : Nat} (ha : n ≤ a.length) (hb : b.length = n)
    (h : a.take n = b) : Covers [.keep n] a b :=
  ⟨ha, by omega, by rw [h, ← hb, take_length], by simp [Covers, hb]⟩

theorem Covers.replace (a ls : List α) : Covers [.replace ls] a ls := ⟨[], by simp, rfl⟩

end Firebird.Lib.Patch
