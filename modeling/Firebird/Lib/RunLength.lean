import Mathlib.Data.List.Basic
import Mathlib.Tactic.Linarith

/-!
# Run-length token streams

A packed string is a sequence of tokens: a literal stretch, or one letter with a
repetition count. On the wire every token is a control letter followed by its
payload; the control letter carries a positive count for a literal and a negative one
for a repetition. Nothing here fixes the alphabet, the longest token or the way a
count becomes a letter.
-/
namespace Firebird.Lib.RunLength

open List

/-- One token: letters copied as they are, or a single letter repeated. -/
inductive Token (α : Type*) where
  | literal (letters : List α)
  | repeated (count : Nat) (letter : α)

variable {α : Type*}

namespace Token

def expand : Token α → List α
  | literal ls => ls
  | repeated n a => List.replicate n a

def control : Token α → Int
  | literal ls => ls.length
  | repeated n _ => -n

def payload : Token α → List α
  | literal ls => ls
  | repeated _ a => [a]

def size (t : Token α) : Nat := 1 + t.payload.length

/-- A token whose count is nonzero and at most `lit` (literals) or `rep` (repetitions). -/
def Within (lit rep : Nat) : Token α → Prop
  | literal ls => 1 ≤ ls.length ∧ ls.length ≤ lit
  | repeated n _ => 1 ≤ n ∧ n ≤ rep

def AtMost (lit rep : Nat) : Token α → Prop
  | literal ls => ls.length ≤ lit
  | repeated n _ => 1 ≤ n ∧ n ≤ rep

theorem Within.atMost {lit rep : Nat} {t : Token α} (h : t.Within lit rep) : t.AtMost lit rep := by
  cases t with
  | literal ls => exact h.2
  | repeated n a => exact h

end Token

def expand (ts : List (Token α)) : List α := ts.flatMap Token.expand

def size (ts : List (Token α)) : Nat := (ts.map Token.size).sum

/-- The packed string, `ctl` turning a count into a control letter. -/
def encode (ctl : Int → α) (ts : List (Token α)) : List α :=
  ts.flatMap fun t => ctl t.control :: t.payload

@[simp] theorem expand_nil : expand ([] : List (Token α)) = [] := rfl
@[simp] theorem expand_cons (t : Token α) (ts : List (Token α)) :
    expand (t :: ts) = t.expand ++ expand ts := by simp [expand]
@[simp] theorem expand_append (ts us : List (Token α)) :
    expand (ts ++ us) = expand ts ++ expand us := by simp [expand]

@[simp] theorem size_nil : size ([] : List (Token α)) = 0 := rfl
@[simp] theorem size_cons (t : Token α) (ts : List (Token α)) :
    size (t :: ts) = t.size + size ts := by simp [size]
@[simp] theorem size_append (ts us : List (Token α)) :
    size (ts ++ us) = size ts + size us := by simp [size]

@[simp] theorem encode_nil (ctl : Int → α) : encode ctl [] = [] := rfl
@[simp] theorem encode_cons (ctl : Int → α) (t : Token α) (ts : List (Token α)) :
    encode ctl (t :: ts) = ctl t.control :: (t.payload ++ encode ctl ts) := by simp [encode]

@[simp] theorem length_encode (ctl : Int → α) (ts : List (Token α)) :
    (encode ctl ts).length = size ts := by
  induction ts with
  | nil => rfl
  | cons t ts ih => simp [Token.size]; omega

/-- The stream that fills exactly `space` letters of the packed form: a literal that does not fit
is shortened, and a single letter left over becomes an empty literal. -/
def cut : Nat → List (Token α) → List (Token α)
  | 0, _ => []
  | _ + 1, [] => []
  | 1, _ :: _ => [.literal []]
  | space + 2, .repeated n a :: ts => .repeated n a :: cut space ts
  | space + 2, .literal ls :: ts =>
    if ls.length ≤ space + 1 then .literal ls :: cut (space + 1 - ls.length) ts
    else [.literal (ls.take (space + 1))]

theorem size_cut {space : Nat} {ts : List (Token α)} (h : space ≤ size ts) :
    size (cut space ts) = space := by
  fun_induction cut space ts with
  | case1 => rfl
  | case2 => simp at h
  | case3 => rfl
  | case4 space n a ts ih =>
    simp only [size_cons, Token.size, Token.payload, length_singleton] at h ⊢
    omega
  | case5 space ls ts hfit ih =>
    simp only [size_cons, Token.size, Token.payload] at h ⊢
    omega
  | case6 space ls ts hfit =>
    simp only [size_cons, size_nil, Token.size, Token.payload, length_take]
    omega

theorem expand_cut (space : Nat) (ts : List (Token α)) :
    expand (cut space ts) <+: expand ts := by
  fun_induction cut space ts with
  | case1 => exact nil_prefix
  | case2 => exact nil_prefix
  | case3 => exact nil_prefix
  | case4 space n a ts ih => simpa using ih
  | case5 space ls ts hfit ih => simpa using ih
  | case6 space ls ts hfit =>
    have hfront (n : Nat) : ls.take n <+: ls := take_prefix n ls
    simpa [Token.expand] using (hfront _).trans (prefix_append ls (expand ts))

theorem atMost_cut {lit rep space : Nat} {ts : List (Token α)} (h : ∀ t ∈ ts, t.Within lit rep) :
    ∀ t ∈ cut space ts, t.AtMost lit rep := by
  fun_induction cut space ts with
  | case1 => simp
  | case2 => simp
  | case3 => simp [Token.AtMost]
  | case4 space n a ts ih =>
    rw [forall_mem_cons] at h ⊢
    exact ⟨h.1.atMost, ih h.2⟩
  | case5 space ls ts hfit ih =>
    rw [forall_mem_cons] at h ⊢
    exact ⟨h.1.atMost, ih h.2⟩
  | case6 space ls ts hfit =>
    rw [forall_mem_cons] at h
    have hls : ls.length ≤ lit := h.1.2
    simp only [mem_singleton, forall_eq, Token.AtMost, length_take]
    omega

theorem expand_cut_ne_nil {lit rep space : Nat} {t : Token α} (h : t.Within lit rep)
    (ts : List (Token α)) : expand (cut (space + 2) (t :: ts)) ≠ [] := by
  cases t with
  | repeated n a =>
    have hn : 1 ≤ n := h.1
    simp only [cut, expand_cons, Token.expand, ne_eq, append_eq_nil_iff, replicate_eq_nil_iff]
    omega
  | literal ls =>
    have hls : 1 ≤ ls.length := h.1
    have hne : ls ≠ [] := length_pos_iff.mp hls
    rw [cut]
    split <;> simp [Token.expand, hne]

end Firebird.Lib.RunLength
