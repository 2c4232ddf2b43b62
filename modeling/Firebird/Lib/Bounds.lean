import Mathlib.Data.List.Basic

/-!
# Arrays whose indices are watched

A computation on arrays gives its result and whether every index that it used lay in its array.
-/
namespace Firebird.Lib.Bounds

universe u

structure Watched (β : Type u) where
  value : β
  within : Bool

namespace Watched

instance : Monad Watched where
  pure v := ⟨v, true⟩
  bind m f := ⟨(f m.value).value, m.within && (f m.value).within⟩

variable {β γ : Type u}

@[simp] theorem value_pure (v : β) : (pure v : Watched β).value = v := rfl

@[simp] theorem within_pure (v : β) : (pure v : Watched β).within = true := rfl

@[simp] theorem value_bind (m : Watched β) (f : β → Watched γ) :
    (m >>= f).value = (f m.value).value := rfl

@[simp] theorem within_bind (m : Watched β) (f : β → Watched γ) :
    (m >>= f).within = (m.within && (f m.value).within) := rfl

@[ext] theorem ext {m n : Watched β} (hv : m.value = n.value) (hw : m.within = n.within) :
    m = n := by
  cases m
  cases n
  cases hv
  cases hw
  rfl

instance : LawfulMonad Watched :=
  .mk' Watched (fun m => by ext <;> simp [Functor.map]) (fun v f => by ext <;> simp)
    (fun m f g => by ext <;> simp [Bool.and_assoc])

end Watched

variable {β : Type u} {xs : List β} {i : Nat}

def read (xs : List β) (i : Nat) : Watched (Option β) := ⟨xs[i]?, i < xs.length⟩

def write (xs : List β) (i : Nat) (v : β) : Watched (List β) := ⟨xs.set i v, i < xs.length⟩

theorem read_of_lt (h : i < xs.length) : read xs i = pure xs[i]? :=
  Watched.ext rfl (decide_eq_true h)

theorem write_of_lt (h : i < xs.length) (v : β) : write xs i v = pure (xs.set i v) :=
  Watched.ext rfl (decide_eq_true h)

end Firebird.Lib.Bounds
