import Mathlib.Data.List.Basic

/-!
# Encoding forms

A code gives a word of units to each symbol, and no word is the start of another one. A string is
converted from one code to another symbol by symbol, as far as there is room.
-/
namespace Firebird.Lib.Encoding

open List

variable {γ α β : Type*}

/-- A code in which no word is the start of another one. -/
structure Code (γ α : Type*) where
  word : γ → List α
  ne_nil : ∀ c, word c ≠ []
  unique : ∀ {c d x y}, word c ++ x = word d ++ y → c = d

namespace Code

variable (A : Code γ α) (B : Code γ β)

def encode (cs : List γ) : List α := cs.flatMap A.word

@[simp] theorem encode_nil : A.encode [] = [] := rfl

@[simp] theorem encode_cons (c : γ) (cs : List γ) : A.encode (c :: cs) = A.word c ++ A.encode cs :=
  rfl

@[simp] theorem encode_append (cs ds : List γ) : A.encode (cs ++ ds) = A.encode cs ++ A.encode ds :=
  flatMap_append

theorem length_pos (c : γ) : 0 < (A.word c).length := length_pos_iff.2 (A.ne_nil c)

theorem encode_eq_nil {cs : List γ} (h : A.encode cs = []) : cs = [] := by
  cases cs with
  | nil => rfl
  | cons c cs => exact absurd (append_eq_nil_iff.1 h).1 (A.ne_nil c)

theorem encode_append_eq {cs ds : List γ} {x : List α} (h : A.encode cs ++ x = A.encode ds) :
    ∃ es, ds = cs ++ es ∧ x = A.encode es := by
  induction cs generalizing ds with
  | nil => exact ⟨ds, rfl, h⟩
  | cons c cs ih =>
    cases ds with
    | nil => exact absurd (append_eq_nil_iff.1 (append_eq_nil_iff.1 h).1).1 (A.ne_nil c)
    | cons d ds =>
      rw [encode_cons, append_assoc, encode_cons] at h
      obtain rfl := A.unique h
      obtain ⟨es, rfl, rfl⟩ := ih (append_cancel_left h)
      exact ⟨es, rfl, rfl⟩

theorem encode_injective : Function.Injective A.encode := by
  intro cs ds h
  obtain ⟨es, rfl, hes⟩ := A.encode_append_eq ((append_nil _).trans h)
  rw [A.encode_eq_nil hes.symm, append_nil]

inductive Status
  | ok
  | bad
  | truncated
  deriving DecidableEq

def Ends (room : Nat) (cs : List γ) (rest : List α) : Status → Prop
  | .ok => rest = []
  | .bad => rest ≠ [] ∧ ∀ c, ¬A.word c <+: rest
  | .truncated => rest ≠ [] ∧ ((B.encode cs).length = room ∨
      ∃ c, A.word c <+: rest ∧ room < (B.encode cs).length + (B.word c).length)

/-- The symbols that have been converted, and what is left. -/
structure Stops (src : List α) (room : Nat) (cs : List γ) (rest : List α) (status : Status) :
    Prop where
  src_eq : src = A.encode cs ++ rest
  fits : (B.encode cs).length ≤ room
  ends : Ends A B room cs rest status

variable {A B} {src rest : List α} {room : Nat} {cs : List γ} {status : Status}

theorem stops_nil : Stops A B [] room [] [] .ok := ⟨rfl, Nat.zero_le _, rfl⟩

theorem stops_full (hsrc : src ≠ []) : Stops A B src 0 [] src .truncated :=
  ⟨rfl, Nat.le_refl _, hsrc, .inl rfl⟩

theorem stops_long {c : γ} (hword : A.word c <+: src) (hroom : room < (B.word c).length) :
    Stops A B src room [] src .truncated := by
  refine ⟨rfl, Nat.zero_le _, ?_, .inr ⟨c, hword, by simpa using hroom⟩⟩
  rintro rfl
  exact A.ne_nil c (prefix_nil.1 hword)

theorem stops_bad (hsrc : src ≠ []) (hword : ∀ c, ¬A.word c <+: src) :
    Stops A B src room [] src .bad := ⟨rfl, Nat.zero_le _, hsrc, hword⟩

theorem Stops.cons {c : γ} (hroom : (B.word c).length ≤ room)
    (h : Stops A B src (room - (B.word c).length) cs rest status) :
    Stops A B (A.word c ++ src) room (c :: cs) rest status := by
  have hfits := h.fits
  refine ⟨by rw [encode_cons, append_assoc, ← h.src_eq], ?_, ?_⟩
  · rw [encode_cons, length_append]
    omega
  · have hends := h.ends
    cases status with
    | ok => exact hends
    | bad => exact hends
    | truncated =>
      refine ⟨hends.1, hends.2.imp (fun heq => ?_) fun ⟨d, hd, hlt⟩ => ⟨d, hd, ?_⟩⟩
      · rw [encode_cons, length_append]
        omega
      · rw [encode_cons, length_append]
        omega

theorem Stops.ok_iff (h : Stops A B src room cs rest status) :
    status = .ok ↔ ∃ ds, src = A.encode ds ∧ (B.encode ds).length ≤ room := by
  have hends := h.ends
  constructor
  · rintro rfl
    obtain rfl : rest = [] := hends
    exact ⟨cs, by simpa using h.src_eq, h.fits⟩
  · rintro ⟨ds, hsrc, hfits⟩
    obtain ⟨es, rfl, rfl⟩ := A.encode_append_eq (h.src_eq.symm.trans hsrc)
    cases status with
    | ok => rfl
    | bad =>
      obtain ⟨hne, hword⟩ := hends
      cases es with
      | nil => exact absurd rfl hne
      | cons e es => exact absurd (prefix_append _ _) (hword e)
    | truncated =>
      obtain ⟨hne, hlong⟩ := hends
      cases es with
      | nil => exact absurd rfl hne
      | cons e es =>
        rw [encode_append, length_append, encode_cons, length_append] at hfits
        obtain heq | ⟨c, ⟨x, hx⟩, hlt⟩ := hlong
        · have := B.length_pos e
          omega
        · rw [encode_cons] at hx
          obtain rfl := A.unique hx
          omega

end Code

end Firebird.Lib.Encoding
