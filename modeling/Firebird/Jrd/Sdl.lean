import Mathlib.Logic.Function.Basic
import Firebird.Lib.Machine

/-!
# The slice description language

The functions of `sdl.cpp` that compile an element of a slice description and execute it. The
compiled code is the list of its words, and an address is an index into it. What the source does
not define, such as a read behind the end of a string or a write behind the end of the code, is an
error here.
-/
namespace Firebird.Jrd.Sdl

def compileSize : Nat := 256

/-- The size of the stack of `execute`. -/
def stackSize : Nat := 64

/-- The size of the array of variables that the callers of `SDL_walk` give to it. -/
def variableCount : Nat := 64

def slong (x : Int) : Int := (x + 2 ^ 31) % 2 ^ 32 - 2 ^ 31

inductive Error
  | invalidDimension (dimensions count : Nat)
  | datnotsup
  | invalidSdl (offset : Nat)
  | undefined
  deriving DecidableEq

/-- The address in the descriptor of a field, and the bounds of a dimension. -/
structure IadRepeat where
  dscAddress : Int
  iadLower : Int
  iadUpper : Int
  iadLength : Int

def maxArrayDimensions : Nat := 16

/-- The descriptor of an array. There is an entry for each dimension and for each field. -/
structure ArrayDesc where
  iadDimensions : Nat
  iadRpt : List IadRepeat
  iadElementLength : Int
  dimensions_le : iadDimensions ≤ maxArrayDimensions
  le_length : iadDimensions ≤ iadRpt.length

/-- The entries in front of `range_end`. -/
def ArrayDesc.ranges (desc : ArrayDesc) : List IadRepeat := desc.iadRpt.take desc.iadDimensions

@[simp] theorem ArrayDesc.length_ranges (desc : ArrayDesc) :
    desc.ranges.length = desc.iadDimensions :=
  List.length_take_of_le desc.le_length

inductive Arith
  | add
  | subtract
  | multiply
  | divide
  deriving DecidableEq

/-- The byte of `isc_sdl_add` and its siblings. -/
def Arith.byte : Arith → UInt8
  | add => 13
  | subtract => 14
  | multiply => 15
  | divide => 16

/-- The word of `op_add` and its siblings. -/
def Arith.word : Arith → Int
  | add => 3
  | subtract => 4
  | multiply => 5
  | divide => 6

/-- What an operator makes of two values; nothing for a division by zero or one whose quotient is
no `SLONG`. -/
def Arith.apply : Arith → Int → Int → Option Int
  | add, x, y => some (slong (x + y))
  | subtract, x, y => some (slong (x - y))
  | multiply, x, y => some (slong (x * y))
  | divide, x, y => if y = 0 ∨ x = -2 ^ 31 ∧ y = -1 then none else some (slong (x.tdiv y))

def opLiteral : Int := 1
def opVariable : Int := 2
def opIterate : Int := 7
def opGoto : Int := 8
def opElement : Int := 9
def opLoop : Int := 10
def opExit : Int := 11
def opScalar : Int := 12

inductive Literal
  | tiny (b₀ : UInt8)
  | short (b₀ b₁ : UInt8)
  | long (b₀ b₁ b₂ b₃ : UInt8)
  deriving DecidableEq

def Literal.value : Literal → Int
  | tiny b₀ => (b₀.toNat + 2 ^ 7) % 2 ^ 8 - 2 ^ 7
  | short b₀ b₁ => (b₀.toNat + b₁.toNat * 2 ^ 8 + 2 ^ 15) % 2 ^ 16 - 2 ^ 15
  | long b₀ b₁ b₂ b₃ =>
    slong (b₀.toNat + b₁.toNat * 2 ^ 8 + b₂.toNat * 2 ^ 16 + b₃.toNat * 2 ^ 24)

abbrev Arg := Option (List Int)

def stuff (word : Int) : Arg → Except Error Arg
  | none => .ok none
  | some code =>
    if code.length < compileSize then .ok (some (code ++ [word])) else .error .undefined

def stuffAll : List Int → Arg → Except Error Arg
  | [], arg => .ok arg
  | word :: words, arg => do
    let arg ← stuff word arg
    stuffAll words arg

/-- The type of `compile`: what is left of the string, and the code. -/
abbrev Compiler := List UInt8 → Arg → Except Error (List UInt8 × Arg)

def skipExpressions (compile : Compiler) :
    Nat → List UInt8 → Except Error (List (List UInt8) × List UInt8)
  | 0, p => .ok ([], p)
  | n + 1, p => do
    let (q, _) ← compile p none
    let (exprs, q) ← skipExpressions compile n q
    return (p :: exprs, q)

def compileReversed (compile : Compiler) : List (List UInt8) → Arg → Except Error Arg
  | [], arg => .ok arg
  | p :: exprs, arg => do
    let arg ← compileReversed compile exprs arg
    let (_, arg) ← compile p arg
    return arg

def skipLower (compile : Compiler) (op : UInt8) (p : List UInt8) :
    Except Error (Option (List UInt8) × List UInt8) :=
  if op = 35 then .ok (none, p)
  else do
    let (q, _) ← compile p none
    return (some p, q)

def compileIncrement (compile : Compiler) (op : UInt8) (p : List UInt8) (arg : Arg) :
    Except Error (List UInt8 × Arg) :=
  if op = 33 then compile p arg
  else do
    let arg ← stuffAll [opLiteral, 1] arg
    return (p, arg)

def compileInitial (compile : Compiler) (ptr1 : Option (List UInt8)) (arg : Arg) :
    Except Error Arg :=
  match ptr1 with
  | some p => do
    let (_, arg) ← compile p arg
    return arg
  | none => stuffAll [opLiteral, 1] arg

/-- `label[2] = (IPTR) arg->sdl_arg_next` -/
def patch (label : Nat) (code : List Int) : List Int := code.set (label + 2) code.length

def compileBody (compile : Compiler) (v : UInt8) : Compiler := fun p arg => do
  let label := (arg.getD []).length
  let arg ← stuffAll [opIterate, v.toNat, 0] arg
  let (p, arg) ← compile p arg
  let arg ← stuffAll [opGoto, label] arg
  return (p, arg.map (patch label))

def compileDo (compile : Compiler) (op : UInt8) : Compiler
  | [], _ => .error .undefined
  | v :: p, arg => do
    let (ptr1, p) ← skipLower compile op p
    let (p, arg) ← compile p arg
    let (p, arg) ← compileIncrement compile op p arg
    let arg ← compileInitial compile ptr1 arg
    let arg ← stuff opLoop arg
    compileBody compile v p arg

def compileLiteral (l : Literal) (p : List UInt8) (arg : Arg) :
    Except Error (List UInt8 × Arg) := do
  let arg ← stuffAll [opLiteral, l.value] arg
  return (p, arg)

def compileArith (compile : Compiler) (a : Arith) : Compiler := fun p arg => do
  let (p, arg) ← compile p arg
  let (p, arg) ← compile p arg
  let arg ← stuff a.word arg
  return (p, arg)

def compileScalar (compile : Compiler) (desc : ArrayDesc) : Compiler
  | op :: count :: p, arg =>
    if arg.isSome ∧ count.toNat ≠ desc.iadDimensions then
      .error (.invalidDimension desc.iadDimensions count.toNat)
    else do
      let (exprs, p) ← skipExpressions compile count.toNat p
      let arg ← compileReversed compile exprs arg
      let arg ← stuffAll [opScalar, op.toNat, count.toNat] arg
      return (p, arg)
  | _, _ => .error .undefined

def compileElement (compile : Compiler) : Compiler
  | count :: p, arg =>
    if arg.isSome ∧ count ≠ 1 then .error .datnotsup
    else do
      let (exprs, p) ← skipExpressions compile count.toNat p
      let arg ← compileReversed compile exprs arg
      let arg ← stuffAll [opElement, count.toNat] arg
      return (p, arg)
  | [], _ => .error .undefined

/-- `compile`; `n` is a bound for the depth of the calls, and `sdlLen` the length of the whole
string. -/
def compile (desc : ArrayDesc) (sdlLen : Nat) : Nat → Compiler
  | 0, _, _ => .error .undefined
  | _ + 1, [], _ => .error .undefined
  | n + 1, op :: p, arg =>
    match op with
    | 33 | 34 | 35 => compileDo (compile desc sdlLen n) op p arg
    | 7 =>
      match p with
      | v :: p => do
        let arg ← stuffAll [opVariable, v.toNat] arg
        return (p, arg)
      | [] => .error .undefined
    | 9 =>
      match p with
      | b₀ :: p => compileLiteral (.tiny b₀) p arg
      | _ => .error .undefined
    | 10 =>
      match p with
      | b₀ :: b₁ :: p => compileLiteral (.short b₀ b₁) p arg
      | _ => .error .undefined
    | 11 =>
      match p with
      | b₀ :: b₁ :: b₂ :: b₃ :: p => compileLiteral (.long b₀ b₁ b₂ b₃) p arg
      | _ => .error .undefined
    | 13 => compileArith (compile desc sdlLen n) .add p arg
    | 14 => compileArith (compile desc sdlLen n) .subtract p arg
    | 15 => compileArith (compile desc sdlLen n) .multiply p arg
    | 16 => compileArith (compile desc sdlLen n) .divide p arg
    | 8 => compileScalar (compile desc sdlLen n) desc p arg
    | 36 => compileElement (compile desc sdlLen n) p arg
    | _ => if arg.isSome then .error (.invalidSdl (sdlLen - p.length - 1)) else .error .undefined

/-- `element_desc`: the field whose descriptor it is a copy of, with its own address. -/
structure ElementDesc where
  field : Nat
  dscAddress : Int

/-- The `array_slice`, as far as `execute` knows it. -/
structure ArraySlice (τ : Type) where
  writing : Bool
  sliceHighWater : Int
  sliceAddress : Int
  sliceElementLength : Int
  others : τ

/-- What `execute` is called with, beside the code. -/
structure SdlArg (τ : Type) where
  desc : ArrayDesc
  array : Int
  callback : ArraySlice τ → Int → ElementDesc → ArraySlice τ

/-- The state of `execute`; `vars` is its array `variables`, of which only the first 64 exist. -/
structure State (τ : Type) where
  next : Nat
  stack : List Int
  vars : Nat → Int
  elementDesc : Option ElementDesc
  slice : ArraySlice τ

/-- How `execute` ends: it returns true, or false with an error for a subscript. -/
inductive Outcome (τ : Type)
  | exit (vars : Nat → Int) (slice : ArraySlice τ)
  | outOfBounds (vars : Nat → Int) (slice : ArraySlice τ)
  | undefined

variable {τ : Type}

/-- `*--stack_ptr = value` -/
def State.push (s : State τ) (next : Nat) (value : Int) : State τ ⊕ Outcome τ :=
  if s.stack.length < stackSize then .inl { s with next := next, stack := value :: s.stack }
  else .inr .undefined

def State.arith (s : State τ) (a : Arith) : State τ ⊕ Outcome τ :=
  match s.stack with
  | y :: x :: stack =>
    match a.apply x y with
    | some z => .inl { s with next := s.next + 1, stack := z :: stack }
    | none => .inr .undefined
  | _ => .inr .undefined

/-- The end of `op_loop` and `op_iterate`: to the exit if the variable is over the bound. -/
def State.branch (s : State τ) (v : Nat) (value : Int) (stack : List Int) (exit : Int)
    (body : Nat) :
    State τ ⊕ Outcome τ :=
  if v < variableCount then
    match stack with
    | _ :: upper :: rest =>
      let vars := Function.update s.vars v value
      if value > upper then .inl { s with next := exit.toNat, stack := rest, vars := vars }
      else .inl { s with next := body, stack := stack, vars := vars }
    | _ => .inr .undefined
  else .inr .undefined

/-- The loop of `op_scalar`: the subscript, with what is left of the stack. -/
def subscript : List IadRepeat → List Int → Int → Option (Option (Int × List Int))
  | [], stack, x => some (some (x, stack))
  | range :: ranges, n :: stack, x =>
    if n < range.iadLower ∨ n > range.iadUpper then some none
    else subscript ranges stack (slong (x + (n - range.iadLower) * range.iadLength))
  | _ :: _, [], _ => none

/-- The descriptor of an element of a field, if there is an entry for the field. -/
def SdlArg.elementDesc (arg : SdlArg τ) (field : Nat) (x : Int) : Option ElementDesc :=
  arg.desc.iadRpt[field]?.map fun range =>
    ⟨field, arg.array + range.dscAddress + arg.desc.iadElementLength * x⟩

def State.scalar (s : State τ) (arg : SdlArg τ) (value : Nat) : State τ ⊕ Outcome τ :=
  match subscript arg.desc.ranges s.stack 0 with
  | some (some (x, stack)) =>
    match arg.elementDesc value x with
    | some e => .inl { s with next := s.next + 3, stack := stack, elementDesc := some e }
    | none => .inr .undefined
  | some none => .inr (.outOfBounds s.vars s.slice)
  | none => .inr .undefined

/-- What happens with an element: an element behind the high-water mark is not fetched. -/
def SdlArg.visit (arg : SdlArg τ) (count : Int) (slice : ArraySlice τ) (e : ElementDesc) :
    ArraySlice τ :=
  if slice.writing ∨ e.dscAddress < slice.sliceHighWater then arg.callback slice count e
  else { slice with sliceAddress := slice.sliceAddress + slice.sliceElementLength }

def State.element (s : State τ) (arg : SdlArg τ) (count : Int) : State τ ⊕ Outcome τ :=
  match s.elementDesc with
  | some e => .inl { s with next := s.next + 2, slice := arg.visit count s.slice e }
  | none => .inr .undefined

/-- One turn of the loop of `execute`. -/
def step (arg : SdlArg τ) (code : List Int) (s : State τ) : State τ ⊕ Outcome τ :=
  match code[s.next]? with
  | some 1 =>
    match code[s.next + 1]? with
    | some value => s.push (s.next + 2) value
    | none => .inr .undefined
  | some 2 =>
    match code[s.next + 1]? with
    | some v =>
      if v.toNat < variableCount then s.push (s.next + 2) (s.vars v.toNat) else .inr .undefined
    | none => .inr .undefined
  | some 3 => s.arith .add
  | some 4 => s.arith .subtract
  | some 5 => s.arith .multiply
  | some 6 => s.arith .divide
  | some 8 =>
    match code[s.next + 1]? with
    | some label => .inl { s with next := label.toNat }
    | none => .inr .undefined
  | some 10 =>
    match s.stack, code[s.next + 2]?, code[s.next + 3]? with
    | value :: stack, some v, some exit => s.branch v.toNat value stack exit (s.next + 4)
    | _, _, _ => .inr .undefined
  | some 7 =>
    match s.stack, code[s.next + 1]?, code[s.next + 2]? with
    | increment :: stack, some v, some exit =>
      s.branch v.toNat (slong (s.vars v.toNat + increment)) (increment :: stack) exit (s.next + 3)
    | _, _, _ => .inr .undefined
  | some 12 =>
    match code[s.next + 1]? with
    | some value => s.scalar arg value.toNat
    | none => .inr .undefined
  | some 9 =>
    match code[s.next + 1]? with
    | some count => s.element arg count
    | none => .inr .undefined
  | some 11 => .inr (.exit s.vars s.slice)
  | _ => .inr .undefined

/-- `execute`, for so many turns of its loop. -/
def execute (arg : SdlArg τ) (code : List Int) (vars : Nat → Int) (slice : ArraySlice τ)
    (n : Nat) : Option (Outcome τ) :=
  Lib.Machine.run (step arg code) n ⟨0, [], vars, none, slice⟩

/-- The code of an element of `SDL_walk`, with its exit, and what is left of the string. -/
def compileWalk (desc : ArrayDesc) (sdl : List UInt8) : Except Error (List UInt8 × List Int) := do
  let (p, arg) ← compile desc sdl.length sdl.length sdl (some [])
  let arg ← stuff opExit arg
  return (p, arg.getD [])

end Firebird.Jrd.Sdl
