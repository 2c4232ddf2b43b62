import Firebird.Jrd.Sdl

/-!
# Programs of the slice description language

The syntax of an element of a slice description, its bytes, and the code `compile` generates for
them.
-/
namespace Firebird.Jrd.Sdl

open List

inductive Expr
  | var (v : UInt8)
  | literal (l : Literal)
  | arith (a : Arith) (left right : Expr)
  deriving DecidableEq

/-- The bounds of a loop, as `do1`, `do2` and `do3` give them. -/
inductive Bounds
  | do1 (upper : Expr)
  | do2 (lower upper : Expr)
  | do3 (lower upper increment : Expr)
  deriving DecidableEq

inductive Program
  | element (field : UInt8) (subscripts : List Expr)
  | loop (v : UInt8) (bounds : Bounds) (body : Program)
  deriving DecidableEq

def Bounds.upper : Bounds → Expr
  | do1 upper => upper
  | do2 _ upper => upper
  | do3 _ upper _ => upper

def Bounds.lower : Bounds → Expr
  | do1 _ => .literal (.tiny 1)
  | do2 lower _ => lower
  | do3 lower _ _ => lower

def Bounds.increment : Bounds → Expr
  | do1 _ => .literal (.tiny 1)
  | do2 _ _ => .literal (.tiny 1)
  | do3 _ _ increment => increment

def Literal.bytes : Literal → List UInt8
  | tiny b₀ => [9, b₀]
  | short b₀ b₁ => [10, b₀, b₁]
  | long b₀ b₁ b₂ b₃ => [11, b₀, b₁, b₂, b₃]

def Expr.bytes : Expr → List UInt8
  | var v => [7, v]
  | literal l => l.bytes
  | arith a left right => a.byte :: (left.bytes ++ right.bytes)

def Bounds.op : Bounds → UInt8
  | do1 _ => 35
  | do2 _ _ => 34
  | do3 _ _ _ => 33

def Bounds.lowerBytes : Bounds → List UInt8
  | do1 _ => []
  | do2 lower _ => lower.bytes
  | do3 lower _ _ => lower.bytes

def Bounds.incrementBytes : Bounds → List UInt8
  | do1 _ => []
  | do2 _ _ => []
  | do3 _ _ increment => increment.bytes

def Bounds.bytes (v : UInt8) (bounds : Bounds) : List UInt8 :=
  bounds.op :: v :: (bounds.lowerBytes ++ (bounds.upper.bytes ++ bounds.incrementBytes))

def scalarBytes (field : UInt8) (subscripts : List Expr) : List UInt8 :=
  8 :: field :: UInt8.ofNat subscripts.length :: subscripts.flatMap Expr.bytes

def Program.bytes : Program → List UInt8
  | element field subscripts => 36 :: 1 :: scalarBytes field subscripts
  | loop v bounds body => bounds.bytes v ++ body.bytes

def Expr.code : Expr → List Int
  | var v => [opVariable, v.toNat]
  | literal l => [opLiteral, l.value]
  | arith a left right => left.code ++ right.code ++ [a.word]

def subscriptsCode : List Expr → List Int
  | [] => []
  | e :: subscripts => subscriptsCode subscripts ++ e.code

def scalarCode (field : UInt8) (subscripts : List Expr) : List Int :=
  subscriptsCode subscripts ++ [opScalar, field.toNat, subscripts.length]

def Bounds.code (bounds : Bounds) : List Int :=
  bounds.upper.code ++ bounds.increment.code ++ bounds.lower.code ++ [opLoop]

def Program.code : Program → Nat → List Int
  | element field subscripts, _ => scalarCode field subscripts ++ [opElement, 1]
  | loop v bounds body, start =>
    let label := start + bounds.code.length
    let code := body.code (label + 3)
    bounds.code ++ [opIterate, v.toNat, (label + 3 + code.length + 2 : Nat)] ++ code ++
      [opGoto, label]

def Program.Dimensions (dimensions : Nat) : Program → Prop
  | element _ subscripts => subscripts.length = dimensions
  | loop _ _ body => body.Dimensions dimensions

/-! ## `compile` generates the code -/

def emit (words : List Int) (arg : Arg) : Arg := arg.map (· ++ words)

def Fits (words : List Int) (arg : Arg) : Prop :=
  ∀ code ∈ arg, code.length + words.length ≤ compileSize

variable {desc : ArrayDesc} {sdlLen n : Nat} {arg : Arg} {rest : List UInt8}
    {words words' : List Int}

@[simp]
theorem emit_none : emit words none = none := rfl

@[simp]
theorem emit_some (code : List Int) : emit words (some code) = some (code ++ words) := rfl

theorem emit_emit : emit words' (emit words arg) = emit (words ++ words') arg := by
  cases arg <;> simp

@[simp]
theorem fits_none : Fits words none := fun _ h => by cases h

theorem fits_some {code : List Int} :
    Fits words (some code) ↔ code.length + words.length ≤ compileSize := by
  simp [Fits]

theorem fits_append (h : Fits (words ++ words') arg) :
    Fits words arg ∧ Fits words' (emit words arg) := by
  cases arg with
  | none => simp
  | some code =>
    simp only [fits_some, emit_some, length_append] at h ⊢
    omega

theorem stuff_of_fits {word : Int} (h : Fits [word] arg) :
    stuff word arg = .ok (emit [word] arg) := by
  cases arg with
  | none => rfl
  | some code =>
    rw [fits_some, length_singleton] at h
    exact if_pos h

theorem stuffAll_of_fits (h : Fits words arg) : stuffAll words arg = .ok (emit words arg) := by
  induction words generalizing arg with
  | nil => cases arg <;> simp [stuffAll]
  | cons word words ih =>
    obtain ⟨h₁, h₂⟩ := fits_append (show Fits ([word] ++ words) arg from h)
    rw [stuffAll, stuff_of_fits h₁]
    exact (ih h₂).trans (congrArg _ emit_emit)

theorem ok_bind {α β : Type} (a : α) (f : α → Except Error β) : (Except.ok a >>= f) = f a := rfl

theorem Literal.length_bytes (l : Literal) : 0 < l.bytes.length := by
  cases l <;> simp [Literal.bytes]

theorem Literal.compile_bytes (l : Literal) (h : Fits [opLiteral, l.value] arg) :
    compile desc sdlLen (n + 1) (l.bytes ++ rest) arg =
      .ok (rest, emit [opLiteral, l.value] arg) := by
  have hl : compileLiteral l rest arg = .ok (rest, emit [opLiteral, l.value] arg) := by
    rw [compileLiteral, stuffAll_of_fits h]
    rfl
  cases l <;> exact hl

theorem compile_arith (a : Arith) (p : List UInt8) (arg : Arg) :
    compile desc sdlLen (n + 1) (a.byte :: p) arg =
      compileArith (compile desc sdlLen n) a p arg := by
  cases a <;> rfl

theorem Expr.compile_bytes (e : Expr) (hn : e.bytes.length ≤ n) (h : Fits e.code arg) :
    compile desc sdlLen n (e.bytes ++ rest) arg = .ok (rest, emit e.code arg) := by
  induction e generalizing n arg rest with
  | var v =>
    obtain ⟨n, rfl⟩ := Nat.exists_eq_add_of_le' (show 1 ≤ n from Nat.le_of_succ_le hn)
    rw [Expr.code] at h ⊢
    rw [show Expr.bytes (.var v) ++ rest = 7 :: v :: rest from rfl, compile, stuffAll_of_fits h]
    rfl
  | literal l =>
    obtain ⟨n, rfl⟩ := Nat.exists_eq_add_of_le' (show 1 ≤ n from Nat.le_trans l.length_bytes hn)
    exact l.compile_bytes h
  | arith a left right ihl ihr =>
    rw [Expr.bytes, length_cons, length_append] at hn
    obtain ⟨n, rfl⟩ := Nat.exists_eq_add_of_le' (show 1 ≤ n by omega)
    rw [Expr.code, append_assoc] at h
    obtain ⟨hl, hr⟩ := fits_append h
    obtain ⟨hr, ha⟩ := fits_append hr
    rw [Expr.bytes, cons_append, compile_arith, compileArith, append_assoc, ihl (by omega) hl]
    simp only [ok_bind]
    rw [ihr (by omega) hr, ok_bind]
    rw [stuff_of_fits ha, ok_bind, emit_emit, emit_emit, Expr.code, append_assoc]
    rfl

/-- Expressions one after another, the last one in front of the given bytes. -/
def pointers (rest : List UInt8) : List Expr → List (List UInt8)
  | [] => []
  | e :: exprs => (e.bytes ++ (exprs.flatMap Expr.bytes ++ rest)) :: pointers rest exprs

theorem skipExpressions_bytes (exprs : List Expr) (hn : (exprs.flatMap Expr.bytes).length ≤ n) :
    skipExpressions (compile desc sdlLen n) exprs.length (exprs.flatMap Expr.bytes ++ rest) =
      .ok (pointers rest exprs, rest) := by
  induction exprs with
  | nil => rfl
  | cons e exprs ih =>
    rw [flatMap_cons, length_append] at hn
    rw [flatMap_cons, append_assoc, length_cons, skipExpressions,
      e.compile_bytes (by omega) fits_none, ok_bind]
    simp only
    rw [ih (by omega), ok_bind]
    rfl

theorem compileReversed_pointers (exprs : List Expr) (hn : (exprs.flatMap Expr.bytes).length ≤ n)
    (h : Fits (subscriptsCode exprs) arg) :
    compileReversed (compile desc sdlLen n) (pointers rest exprs) arg =
      .ok (emit (subscriptsCode exprs) arg) := by
  induction exprs generalizing arg with
  | nil => cases arg <;> simp [pointers, compileReversed, subscriptsCode]
  | cons e exprs ih =>
    rw [flatMap_cons, length_append] at hn
    obtain ⟨h₁, h₂⟩ := fits_append h
    rw [pointers, compileReversed, ih (by omega) h₁, ok_bind, e.compile_bytes (by omega) h₂,
      ok_bind, emit_emit]
    rfl

theorem compile_scalarBytes (field : UInt8) (subscripts : List Expr)
    (hdim : subscripts.length = desc.iadDimensions) (hn : (scalarBytes field subscripts).length ≤ n)
    (h : Fits (scalarCode field subscripts) arg) :
    compile desc sdlLen n (scalarBytes field subscripts ++ rest) arg =
      .ok (rest, emit (scalarCode field subscripts) arg) := by
  have hto : (UInt8.ofNat subscripts.length).toNat = subscripts.length := by
    refine Nat.mod_eq_of_lt ?_
    rw [hdim]
    exact Nat.lt_of_le_of_lt desc.dimensions_le (by decide)
  rw [scalarBytes, length_cons, length_cons, length_cons] at hn
  obtain ⟨n, rfl⟩ := Nat.exists_eq_add_of_le' (show 1 ≤ n by omega)
  obtain ⟨h₁, h₂⟩ := fits_append h
  have hc : ¬(arg.isSome ∧ (UInt8.ofNat subscripts.length).toNat ≠ desc.iadDimensions) := by
    rw [hto]
    exact fun hc => hc.2 hdim
  calc
    _ = compileScalar (compile desc sdlLen n) desc (field :: UInt8.ofNat subscripts.length ::
          (subscripts.flatMap Expr.bytes ++ rest)) arg := rfl
    _ = _ := by
      rw [compileScalar, if_neg hc, hto, skipExpressions_bytes subscripts (by omega), ok_bind]
      simp only
      rw [compileReversed_pointers subscripts (by omega) h₁, ok_bind, stuffAll_of_fits h₂, ok_bind,
        emit_emit]
      rfl

theorem one_fits (h : Fits (Expr.code (.literal (.tiny 1))) arg) :
    stuffAll [opLiteral, 1] arg = .ok (emit (Expr.code (.literal (.tiny 1))) arg) :=
      stuffAll_of_fits h

theorem Bounds.skipLower_bytes (bounds : Bounds) (hn : bounds.lowerBytes.length ≤ n) :
    ∃ ptr1, skipLower (compile desc sdlLen n) bounds.op (bounds.lowerBytes ++ rest) =
      .ok (ptr1, rest) ∧ ∀ arg, Fits bounds.lower.code arg →
        compileInitial (compile desc sdlLen n) ptr1 arg = .ok (emit bounds.lower.code arg) := by
  -- A given bound is first skipped and then compiled from the same place.
  have hgiven (op : UInt8) (hop : op ≠ 35) (lower : Expr) (hn : lower.bytes.length ≤ n) :
      ∃ ptr1, skipLower (compile desc sdlLen n) op (lower.bytes ++ rest) =
        .ok (ptr1, rest) ∧ ∀ arg, Fits lower.code arg →
          compileInitial (compile desc sdlLen n) ptr1 arg = .ok (emit lower.code arg) := by
    refine ⟨some (lower.bytes ++ rest), ?_, fun arg h => ?_⟩
    · rw [skipLower, if_neg hop, lower.compile_bytes hn fits_none]
      rfl
    · rw [compileInitial, lower.compile_bytes hn h]
      rfl
  cases bounds with
  | do1 upper => exact ⟨none, rfl, fun arg h => one_fits h⟩
  | do2 lower upper => exact hgiven 34 (by decide) lower hn
  | do3 lower upper increment => exact hgiven 33 (by decide) lower hn

theorem Bounds.compileIncrement_bytes (bounds : Bounds) (hn : bounds.incrementBytes.length ≤ n)
    (h : Fits bounds.increment.code arg) :
    compileIncrement (compile desc sdlLen n) bounds.op (bounds.incrementBytes ++ rest) arg =
      .ok (rest, emit bounds.increment.code arg) := by
  have hone (op : UInt8) (hop : op ≠ 33) (h : Fits (Expr.code (.literal (.tiny 1))) arg) :
      compileIncrement (compile desc sdlLen n) op rest arg =
        .ok (rest, emit (Expr.code (.literal (.tiny 1))) arg) := by
    rw [compileIncrement, if_neg hop, one_fits h]
    rfl
  cases bounds with
  | do1 upper => exact hone 35 (by decide) h
  | do2 lower upper => exact hone 34 (by decide) h
  | do3 lower upper increment => exact increment.compile_bytes hn h

theorem Bounds.compile_op (bounds : Bounds) (p : List UInt8) :
    compile desc sdlLen (n + 1) (bounds.op :: p) arg =
      compileDo (compile desc sdlLen n) bounds.op p arg := by
  cases bounds <;> rfl

theorem Bounds.compile_bytes (v : UInt8) (bounds : Bounds) (hn : (bounds.bytes v).length ≤ n + 1)
    (h : Fits bounds.code arg) :
    compile desc sdlLen (n + 1) (bounds.bytes v ++ rest) arg =
      compileBody (compile desc sdlLen n) v rest (emit bounds.code arg) := by
  simp only [Bounds.bytes, length_cons, length_append] at hn
  simp only [Bounds.code, append_assoc] at h
  obtain ⟨hupper, h⟩ := fits_append h
  obtain ⟨hincrement, h⟩ := fits_append h
  obtain ⟨hlower, hloop⟩ := fits_append h
  obtain ⟨ptr1, hskip, hinitial⟩ := @Bounds.skipLower_bytes desc sdlLen n
    (bounds.upper.bytes ++ (bounds.incrementBytes ++ rest)) bounds (by omega)
  simp only [Bounds.bytes, cons_append, append_assoc]
  rw [bounds.compile_op, compileDo, hskip, ok_bind]
  simp only
  rw [bounds.upper.compile_bytes (by omega) hupper, ok_bind]
  rw [bounds.compileIncrement_bytes (by omega) hincrement, ok_bind]
  rw [hinitial _ hlower, ok_bind, stuff_of_fits hloop, ok_bind]
  simp [emit_emit, Bounds.code]

theorem patch_code (label : Nat) (code body : List Int) (v : Int) (hlabel : code.length = label) :
    patch label (code ++ [opIterate, v, 0] ++ body ++ [opGoto, label]) =
      code ++ ([opIterate, v, (label + 3 + body.length + 2 : Nat)] ++ body ++ [opGoto, label]) := by
  subst hlabel
  simp only [patch, length_append]
  simp [Nat.add_assoc]

theorem compileBody_code (v : UInt8) (code body : List Int) (p : List UInt8)
    (hfits : Fits ([opIterate, v.toNat, 0] ++ (body ++ [opGoto, code.length])) (some code))
    (hbody : compile desc sdlLen n p (some (code ++ [opIterate, v.toNat, 0])) =
      .ok (rest, some (code ++ [opIterate, v.toNat, 0] ++ body))) :
    compileBody (compile desc sdlLen n) v p (some code) = .ok (rest, some (code ++
      ([opIterate, v.toNat, (code.length + 3 + body.length + 2 : Nat)] ++ body ++
        [opGoto, code.length]))) := by
  obtain ⟨h₁, h₂⟩ := fits_append hfits
  obtain ⟨-, h₃⟩ := fits_append h₂
  rw [compileBody, Option.getD_some, stuffAll_of_fits h₁, ok_bind, emit_some, hbody, ok_bind]
  simp only
  rw [emit_some, emit_some] at h₃
  rw [stuffAll_of_fits h₃, ok_bind, emit_some, ← patch_code code.length code body v.toNat rfl]
  rfl

theorem Program.compile_bytes (s : Program) (code : List Int)
    (hdim : s.Dimensions desc.iadDimensions)
    (hn : s.bytes.length ≤ n)
    (h : Fits (s.code code.length) (some code)) :
    compile desc sdlLen n (s.bytes ++ rest) (some code) =
      .ok (rest, some (code ++ s.code code.length)) := by
  induction s generalizing n code with
  | element field subscripts =>
    rw [Program.bytes, length_cons, length_cons] at hn
    obtain ⟨n, rfl⟩ := Nat.exists_eq_add_of_le' (show 1 ≤ n by omega)
    obtain ⟨h₁, h₂⟩ := fits_append h
    have hscalar (arg : Arg) (h : Fits (scalarCode field subscripts) arg) :
        compile desc sdlLen n (scalarBytes field subscripts ++ rest) arg =
          .ok (rest, emit (scalarCode field subscripts) arg) :=
      compile_scalarBytes field subscripts hdim (by omega) h
    calc
      _ = compileElement (compile desc sdlLen n) (1 :: (scalarBytes field subscripts ++ rest))
            (some code) := rfl
      _ = _ := by
        rw [compileElement, if_neg (by simp), show (1 : UInt8).toNat = 0 + 1 from rfl,
          skipExpressions, hscalar none fits_none, ok_bind]
        simp only [skipExpressions, ok_bind, compileReversed, pure_bind]
        rw [hscalar _ h₁, ok_bind]
        simp only [pure_bind]
        rw [show ((0 + 1 : Nat) : Int) = 1 from rfl, stuffAll_of_fits h₂, ok_bind, emit_emit]
        rfl
  | loop v bounds body ih =>
    have hpos : 0 < (bounds.bytes v).length := Nat.succ_pos _
    rw [Program.bytes, length_append] at hn
    obtain ⟨n, rfl⟩ := Nat.exists_eq_add_of_le' (show 1 ≤ n by omega)
    simp only [Program.code, append_assoc] at h
    obtain ⟨h₁, h₂⟩ := fits_append h
    rw [Program.bytes, append_assoc, bounds.compile_bytes v (by omega) h₁, emit_some]
    have hlabel : (code ++ bounds.code).length = code.length + bounds.code.length :=
      length_append
    have hthree : (code ++ bounds.code ++ [opIterate, (v.toNat : Int), 0]).length =
        code.length + bounds.code.length + 3 := by
      rw [length_append, hlabel]
      rfl
    rw [emit_some, fits_some] at h₂
    have hbody := ih (code ++ bounds.code ++ [opIterate, (v.toNat : Int), 0]) hdim (n := n)
      (by omega) (by
      rw [fits_some, hthree]
      simp only [length_append, length_cons] at h₂ ⊢
      omega)
    rw [hthree] at hbody
    rw [compileBody_code v _ _ _ ?_ hbody, hlabel]
    · simp [Program.code]
    · rw [fits_some]
      simp only [length_append] at h₂ ⊢
      omega

end Firebird.Jrd.Sdl
