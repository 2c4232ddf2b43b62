import Firebird.Jrd.SdlSyntax
import Mathlib.Data.List.Basic

/-!
# Walking a slice

The direct interpretation of a program of the slice description language, and the proof that the
code of the program visits the same elements.
-/
namespace Firebird.Jrd.Sdl

open Lib.Machine List

/-- The value of an expression; nothing if it has a variable that is not there, or an operator gives
nothing. -/
def Expr.eval (vars : Nat → Int) : Expr → Option Int
  | var v => if v.toNat < variableCount then some (vars v.toNat) else none
  | literal l => some l.value
  | arith a left right => do
    let x ← left.eval vars
    let y ← right.eval vars
    a.apply x y

/-- The values of the subscripts, in the order in which they are written. -/
def evalAll (vars : Nat → Int) : List Expr → Option (List Int)
  | [] => some []
  | e :: exprs => do
    let n ← e.eval vars
    let ns ← evalAll vars exprs
    return n :: ns

def InBounds (ranges : List IadRepeat) (ns : List Int) : Prop :=
  ∀ p ∈ ranges.zip ns, p.1.iadLower ≤ p.2 ∧ p.2 ≤ p.1.iadUpper

instance (ranges : List IadRepeat) (ns : List Int) : Decidable (InBounds ranges ns) :=
  inferInstanceAs (Decidable (∀ p ∈ ranges.zip ns, _))

def elementNumber (ranges : List IadRepeat) (ns : List Int) : Int :=
  (List.zipWith (fun range n => (n - range.iadLower) * range.iadLength) ranges ns).sum

variable {τ : Type}

def SdlArg.elementAt (arg : SdlArg τ) (field : UInt8) (ns : List Int) : Option ElementDesc :=
  arg.elementDesc field.toNat (slong (elementNumber arg.desc.ranges ns))

/-- How an interpretation ends, with the elements that it visits. It may run out of its fuel, come
to something without a meaning (an expression without a value, a loop over a variable that is not
there, a field without an entry), meet a subscript that is out of bounds, or be done. -/
inductive Result
  | timeout
  | undefined
  | outOfBounds (vars : Nat → Int) (elements : List ElementDesc)
  | done (vars : Nat → Int) (elements : List ElementDesc)

def Result.after (elements : List ElementDesc) : Result → Result
  | outOfBounds vars elements' => outOfBounds vars (elements ++ elements')
  | done vars elements' => done vars (elements ++ elements')
  | r => r

/-- A loop whose variable has the given value next, for so many turns. -/
def iterate (body : (Nat → Int) → Result) (v : Nat) (upper increment : Int) :
    Nat → Int → (Nat → Int) → Result
  | 0, _, _ => .timeout
  | n + 1, value, vars =>
    if value > upper then .done (Function.update vars v value) []
    else
      match body (Function.update vars v value) with
      | .done vars elements =>
        (iterate body v upper increment n (slong (vars v + increment)) vars).after elements
      | r => r

def Program.interpret (arg : SdlArg τ) (fuel : Nat) : Program → (Nat → Int) → Result
  | element field subscripts, vars =>
    match evalAll vars subscripts with
    | some ns =>
      if InBounds arg.desc.ranges ns then
        match arg.elementAt field ns with
        | some e => .done vars [e]
        | none => .undefined
      else .outOfBounds vars []
    | none => .undefined
  | loop v bounds body, vars =>
    match bounds.upper.eval vars, bounds.increment.eval vars, bounds.lower.eval vars with
    | some upper, some increment, some lower =>
      if v.toNat < variableCount then
        iterate (body.interpret arg fuel) v.toNat upper increment fuel lower vars
      else .undefined
    | _, _, _ => .undefined

def Expr.depth : Expr → Nat
  | var _ => 1
  | literal _ => 1
  | arith _ left right => max left.depth (right.depth + 1)

def depthAll : List Expr → Nat
  | [] => 0
  | e :: exprs => max (depthAll exprs) (e.depth + exprs.length)

/-- The bounds of a loop are evaluated above each other; its body finds two of them on the stack. -/
def Program.depth : Program → Nat
  | element _ subscripts => depthAll subscripts
  | loop _ bounds body =>
    max bounds.upper.depth (max (bounds.increment.depth + 1)
      (max (bounds.lower.depth + 2) (body.depth + 2)))

def CodeAt (code : List Int) (start : Nat) (words : List Int) : Prop := words <+: code.drop start

variable {code words words' : List Int} {start n m : Nat} {arg : SdlArg τ} {s s' : State τ}

theorem codeAt_append (h : CodeAt code start (words ++ words')) :
    CodeAt code start words ∧ CodeAt code (start + words.length) words' := by
  obtain ⟨rest, h⟩ := h
  refine ⟨⟨words' ++ rest, by rw [← h, append_assoc]⟩, ⟨rest, ?_⟩⟩
  rw [← drop_drop, ← h, append_assoc, drop_left]

theorem CodeAt.getElem? (h : CodeAt code start words) {i : Nat} (hi : i < words.length) :
    code[start + i]? = words[i]? := by
  obtain ⟨rest, h⟩ := h
  rw [← getElem?_drop, ← h, getElem?_append_left hi]

theorem CodeAt.head {word : Int} (h : CodeAt code start (word :: words)) :
    code[start]? = some word :=
  h.getElem? (Nat.succ_pos _)

theorem step_push {value : Int} (h : step arg code s = s.push n value)
    (hstack : s.stack.length < stackSize) :
    Steps (step arg code) 1 s { s with next := n, stack := value :: s.stack } := by
  rw [State.push, if_pos hstack] at h
  exact .one h

theorem step_arith (a : Arith) (h : code[s.next]? = some a.word) : step arg code s = s.arith a := by
  cases a <;> rw [step, h] <;> rfl

theorem Expr.steps (e : Expr) {x : Int} (hcode : CodeAt code s.next e.code)
    (heval : e.eval s.vars = some x) (hdepth : s.stack.length + e.depth ≤ stackSize) :
    ∃ n, Steps (step arg code) n s
      { s with next := s.next + e.code.length, stack := x :: s.stack } := by
  induction e generalizing s x with
  | var v =>
    have h₀ : code[s.next]? = some opVariable := hcode.head
    have h₁ : code[s.next + 1]? = some (v.toNat : Int) := hcode.getElem? (Nat.lt_succ_self 1)
    rw [Expr.eval] at heval
    split_ifs at heval with hv
    cases heval
    refine ⟨1, step_push ?_ hdepth⟩
    rw [step, h₀, opVariable, h₁]
    exact if_pos hv
  | literal l =>
    have h₀ : code[s.next]? = some opLiteral := hcode.head
    have h₁ : code[s.next + 1]? = some l.value := hcode.getElem? (Nat.lt_succ_self 1)
    cases heval
    refine ⟨1, step_push ?_ hdepth⟩
    rw [step, h₀, opLiteral, h₁]
    rfl
  | arith a left right ihl ihr =>
    simp only [Expr.eval, Option.bind_eq_bind, Option.bind_eq_some_iff] at heval
    obtain ⟨y, hy, z, hz, hx⟩ := heval
    rw [Expr.depth] at hdepth
    obtain ⟨hlr, ha⟩ := codeAt_append hcode
    obtain ⟨hl, hr⟩ := codeAt_append hlr
    rw [length_append, ← Nat.add_assoc] at ha
    obtain ⟨i, hi⟩ := ihl hl hy (by omega)
    obtain ⟨j, hj⟩ := @ihr { s with next := s.next + left.code.length, stack := y :: s.stack } z
      hr hz (by simp only [length_cons]; omega)
    refine ⟨i + j + 1, (hi.trans hj).trans (.one ?_)⟩
    rw [step_arith a ha.head, State.arith]
    simp [hx, Expr.code, Nat.add_assoc]

theorem length_evalAll {vars : Nat → Int} {exprs : List Expr} {ns : List Int}
    (h : evalAll vars exprs = some ns) : ns.length = exprs.length := by
  induction exprs generalizing ns with
  | nil =>
    cases h
    rfl
  | cons e exprs ih =>
    simp only [evalAll, Option.bind_eq_bind, Option.bind_eq_some_iff] at h
    obtain ⟨n, hn, ns, hns, ⟨⟩⟩ := h
    rw [length_cons, length_cons, ih hns]

theorem steps_subscripts (subscripts : List Expr) {ns : List Int}
    (hcode : CodeAt code s.next (subscriptsCode subscripts))
    (heval : evalAll s.vars subscripts = some ns)
    (hdepth : s.stack.length + depthAll subscripts ≤ stackSize) :
    ∃ n, Steps (step arg code) n s
      { s with next := s.next + (subscriptsCode subscripts).length, stack := ns ++ s.stack } := by
  induction subscripts generalizing ns with
  | nil =>
    cases heval
    exact ⟨0, .zero s⟩
  | cons e subscripts ih =>
    simp only [evalAll, Option.bind_eq_bind, Option.bind_eq_some_iff] at heval
    obtain ⟨n, hn, ns, hns, ⟨⟩⟩ := heval
    rw [depthAll] at hdepth
    obtain ⟨h₁, h₂⟩ := codeAt_append hcode
    obtain ⟨i, hi⟩ := ih h₁ hns (by omega)
    have hlen := length_evalAll hns
    obtain ⟨j, hj⟩ := @Expr.steps τ code arg
      { s with next := s.next + (subscriptsCode subscripts).length, stack := ns ++ s.stack } e n
      h₂ hn (by simp only [length_append]; omega)
    refine ⟨i + j, ?_⟩
    have h := hi.trans hj
    simpa only [subscriptsCode, length_append, ← Nat.add_assoc, cons_append] using h

theorem slong_add_slong (x y : Int) : slong (slong x + y) = slong (x + y) := by
  unfold slong
  omega

theorem subscript_append (ranges : List IadRepeat) (ns stack : List Int) (x : Int)
    (hlen : ns.length = ranges.length) :
    subscript ranges (ns ++ stack) (slong x) =
      if InBounds ranges ns then some (some (slong (x + elementNumber ranges ns), stack))
      else some none := by
  induction ranges generalizing ns x with
  | nil =>
    obtain rfl := eq_nil_of_length_eq_zero hlen
    simp [subscript, InBounds, elementNumber]
  | cons range ranges ih =>
    obtain ⟨n, ns, rfl⟩ := exists_cons_of_length_eq_add_one hlen
    have hiff : InBounds (range :: ranges) (n :: ns) ↔
        ¬(n < range.iadLower ∨ n > range.iadUpper) ∧ InBounds ranges ns := by
      simp [InBounds]
    rw [cons_append, subscript]
    by_cases hn : n < range.iadLower ∨ n > range.iadUpper
    · rw [if_pos hn, if_neg fun h => (hiff.mp h).1 hn]
    · rw [if_neg hn, slong_add_slong, ih ns _ (Nat.succ.inj hlen)]
      by_cases hb : InBounds ranges ns
      · rw [if_pos hb, if_pos (hiff.mpr ⟨hn, hb⟩)]
        simp [elementNumber, Int.add_assoc]
      · rw [if_neg hb, if_neg fun h => hb (hiff.mp h).2]

theorem step_scalar {field : UInt8} {count : Int} {ns stack : List Int}
    (hcode : CodeAt code s.next [opScalar, (field.toNat : Int), count])
    (hstack : s.stack = ns ++ stack)
    (hlen : ns.length = arg.desc.iadDimensions) :
    (InBounds arg.desc.ranges ns → ∀ e, arg.elementAt field ns = some e →
      step arg code s =
        .inl { s with next := s.next + 3, stack := stack, elementDesc := some e }) ∧
    (¬InBounds arg.desc.ranges ns → step arg code s = .inr (.outOfBounds s.vars s.slice)) := by
  have h₀ : code[s.next]? = some opScalar := hcode.head
  have h₁ : code[s.next + 1]? = some (field.toNat : Int) :=
    hcode.getElem? (Nat.succ_lt_succ (Nat.succ_pos 1))
  have hsub := subscript_append arg.desc.ranges ns stack 0 (hlen.trans arg.desc.length_ranges.symm)
  rw [show slong 0 = 0 from rfl, Int.zero_add] at hsub
  rw [step, h₀, opScalar, h₁]
  simp only [State.scalar, hstack, hsub]
  refine ⟨fun hb e he => ?_, fun hb => ?_⟩
  · rw [SdlArg.elementAt] at he
    simp [if_pos hb, he]
  · simp [if_neg hb]

theorem step_element {e : ElementDesc} (hcode : CodeAt code s.next [opElement, 1])
    (he : s.elementDesc = some e) :
    step arg code s = .inl { s with next := s.next + 2, slice := arg.visit 1 s.slice e } := by
  have h₀ : code[s.next]? = some opElement := hcode.head
  have h₁ : code[s.next + 1]? = some 1 := hcode.getElem? (by decide)
  rw [step, h₀, opElement, h₁]
  simp [State.element, he]

/-- The code does what an interpretation does: it goes on for so many steps if the interpretation
runs out of its fuel, and it ends at an address with a stack if the interpretation is done. -/
def Meets (arg : SdlArg τ) (code : List Int) (fuel next : Nat) (stack : List Int) (s : State τ) :
    Result → Prop
  | .timeout => ∃ n ≥ fuel, ∃ s', Steps (step arg code) n s s'
  | .undefined => True
  | .outOfBounds vars elements =>
    Halts (step arg code) s (.outOfBounds vars (elements.foldl (arg.visit 1) s.slice))
  | .done vars elements => ∃ n e, Steps (step arg code) n s
      ⟨next, stack, vars, e, elements.foldl (arg.visit 1) s.slice⟩

variable {fuel next : Nat} {stack : List Int} {r : Result}

theorem Meets.after {elements : List ElementDesc} (hs : Steps (step arg code) m s s')
    (hslice : s'.slice = elements.foldl (arg.visit 1) s.slice)
    (h : Meets arg code fuel next stack s' r) :
    Meets arg code (m + fuel) next stack s (r.after elements) := by
  cases r with
  | timeout =>
    obtain ⟨n, hn, t, ht⟩ := h
    exact ⟨m + n, by omega, t, hs.trans ht⟩
  | undefined => trivial
  | outOfBounds vars elements' =>
    simp only [Result.after, Meets, foldl_append, ← hslice]
    exact hs.halts h
  | done vars elements' =>
    obtain ⟨n, e, h⟩ := h
    simp only [Result.after, Meets, foldl_append, ← hslice]
    exact ⟨m + n, e, hs.trans h⟩

theorem Meets.mono (h : Meets arg code fuel next stack s r) (hf : n ≤ fuel) :
    Meets arg code n next stack s r := by
  cases r with
  | timeout =>
    obtain ⟨m, hm, t, ht⟩ := h
    exact ⟨m, by omega, t, ht⟩
  | undefined => trivial
  | outOfBounds => exact h
  | done => exact h

theorem Result.after_nil : r.after [] = r := by
  cases r <;> rfl

theorem Meets.of_steps (hs : Steps (step arg code) m s s') (hslice : s'.slice = s.slice)
    (h : Meets arg code fuel next stack s' r) : Meets arg code fuel next stack s r := by
  have h' := @Meets.after _ code m arg s s' fuel next stack r [] hs hslice h
  rw [Result.after_nil] at h'
  exact h'.mono (Nat.le_add_left _ _)

theorem element_meets (field : UInt8) (subscripts : List Expr)
    (hdim : subscripts.length = arg.desc.iadDimensions)
    (hcode : CodeAt code s.next ((Program.element field subscripts).code s.next))
    (hdepth : s.stack.length + depthAll subscripts ≤ stackSize) :
    Meets arg code fuel (s.next + ((Program.element field subscripts).code s.next).length) s.stack s
      ((Program.element field subscripts).interpret arg fuel s.vars) := by
  obtain ⟨hscalar, helement⟩ := codeAt_append hcode
  obtain ⟨hsub, hscalar⟩ := codeAt_append hscalar
  rw [Program.interpret]
  cases heval : evalAll s.vars subscripts with
  | none => trivial
  | some ns =>
    obtain ⟨n, hn⟩ := @steps_subscripts _ code arg s subscripts ns hsub heval hdepth
    obtain ⟨hin, hout⟩ := @step_scalar _ code arg { s with
        next := s.next + (subscriptsCode subscripts).length
        stack := ns ++ s.stack } field _ ns s.stack hscalar rfl ((length_evalAll heval).trans hdim)
    by_cases hb : InBounds arg.desc.ranges ns
    · simp only [if_pos hb]
      cases he : arg.elementAt field ns with
      | none => trivial
      | some e =>
      have hstep := hin hb e he
      have hlen : s.next + (scalarCode field subscripts).length =
          s.next + (subscriptsCode subscripts).length + 3 := by
        rw [scalarCode, length_append, ← Nat.add_assoc]
        rfl
      rw [hlen] at helement
      have hend := @step_element _ code arg { s with
        next := s.next + (subscriptsCode subscripts).length + 3
        elementDesc := some e } _ helement rfl
      rw [Program.code, length_append, ← Nat.add_assoc, hlen]
      exact ⟨_, _, (hn.trans (.one hstep)).trans (.one hend)⟩
    · simp only [if_neg hb]
      exact hn.halts (halts_of_step (hout hb))

/-- The place of a loop in the code: its label, its body and its exit. -/
structure LoopAt (code : List Int) (v label : Nat) (body : List Int) : Prop where
  iterate : CodeAt code label [opIterate, (v : Int), (label + 3 + body.length + 2 : Nat)]
  turn : CodeAt code (label + 3) body
  goto : CodeAt code (label + 3 + body.length) [opGoto, (label : Int)]

theorem step_goto {label : Nat} (hcode : CodeAt code s.next [opGoto, (label : Int)]) :
    step arg code s = .inl { s with next := label } := by
  have h₀ : code[s.next]? = some opGoto := hcode.head
  have h₁ : code[s.next + 1]? = some (label : Int) := hcode.getElem? (Nat.lt_succ_self 1)
  rw [step, h₀, opGoto, h₁]
  rfl

theorem step_iterate {v exit : Nat} {increment : Int}
    (hcode : CodeAt code s.next [opIterate, (v : Int), (exit : Int)])
    (hstack : s.stack = increment :: stack) :
    step arg code s =
      s.branch v (slong (s.vars v + increment)) (increment :: stack) exit (s.next + 3) := by
  have h₀ : code[s.next]? = some opIterate := hcode.head
  have h₁ : code[s.next + 1]? = some (v : Int) := hcode.getElem? (Nat.succ_lt_succ (Nat.succ_pos 1))
  have h₂ : code[s.next + 2]? = some (exit : Int) := hcode.getElem? (Nat.lt_succ_self 2)
  rw [step, h₀, opIterate, h₁, h₂, hstack]
  rfl

theorem step_loop {v exit : Nat} {value : Int}
    (hloop : CodeAt code s.next [opLoop])
    (hcode : CodeAt code (s.next + 1) [opIterate, (v : Int), (exit : Int)])
    (hstack : s.stack = value :: stack) :
    step arg code s = s.branch v value stack exit (s.next + 4) := by
  have h₀ : code[s.next]? = some opLoop := hloop.head
  have h₁ : code[s.next + 2]? = some (v : Int) := hcode.getElem? (Nat.succ_lt_succ (Nat.succ_pos 1))
  have h₂ : code[s.next + 3]? = some (exit : Int) := hcode.getElem? (Nat.lt_succ_self 2)
  rw [step, h₀, opLoop, h₁, h₂, hstack]
  rfl

theorem iterate_meets {v label : Nat} {body : List Int} {upper increment value : Int}
    {interpret : (Nat → Int) → Result} (hl : LoopAt code v label body)
    (hvar : v < variableCount)
    (hbody : ∀ s : State τ, s.next = label + 3 → s.stack = increment :: upper :: stack →
      Meets arg code fuel (label + 3 + body.length) (increment :: upper :: stack) s
        (interpret s.vars))
    (hstep : step arg code s =
      s.branch v value (increment :: upper :: stack) (label + 3 + body.length + 2 : Nat)
        (label + 3)) :
    Meets arg code (min n fuel) (label + 3 + body.length + 2) stack s
      (iterate interpret v upper increment n value s.vars) := by
  induction n generalizing s value with
  | zero => exact ⟨0, by omega, s, .zero s⟩
  | succ n ih =>
    simp only [State.branch, if_pos hvar] at hstep
    rw [iterate]
    by_cases hv : value > upper
    · rw [if_pos hv] at hstep ⊢
      exact ⟨1, _, .one hstep⟩
    · rw [if_neg hv] at hstep ⊢
      have hturn := hbody { s with
        next := label + 3
        stack := increment :: upper :: stack
        vars := Function.update s.vars v value } rfl rfl
      cases hr : interpret (Function.update s.vars v value) with
      | timeout =>
        rw [hr] at hturn
        exact (hturn.of_steps (.one hstep) rfl).mono (by omega)
      | undefined => trivial
      | outOfBounds vars elements =>
        rw [hr] at hturn
        exact hturn.of_steps (.one hstep) rfl
      | done vars elements =>
        rw [hr] at hturn
        obtain ⟨m, e, hm⟩ := hturn
        have hgoto := @step_goto _ code arg ⟨label + 3 + body.length, increment :: upper :: stack,
          vars, e, elements.foldl (arg.visit 1) s.slice⟩ label hl.goto
        have hnext := @step_iterate _ code arg ⟨label, increment :: upper :: stack, vars, e,
          elements.foldl (arg.visit 1) s.slice⟩ (upper :: stack) v _ increment hl.iterate rfl
        exact ((ih hnext).after (((Steps.one hstep).trans hm).trans (.one hgoto)) rfl).mono
          (by omega)

theorem Bounds.steps (bounds : Bounds) {upper increment lower : Int}
    (hcode : CodeAt code s.next bounds.code) (hupper : bounds.upper.eval s.vars = some upper)
    (hincrement : bounds.increment.eval s.vars = some increment)
    (hlower : bounds.lower.eval s.vars = some lower)
    (hdepth : s.stack.length + max bounds.upper.depth (max (bounds.increment.depth + 1)
      (bounds.lower.depth + 2)) ≤ stackSize) :
    ∃ n loop, Steps (step arg code) n s
        { s with next := loop, stack := lower :: increment :: upper :: s.stack } ∧
      loop + 1 = s.next + bounds.code.length ∧ CodeAt code loop [opLoop] := by
  obtain ⟨hcode, hloop⟩ := codeAt_append hcode
  obtain ⟨hcode, hl⟩ := codeAt_append hcode
  obtain ⟨hu, hi⟩ := codeAt_append hcode
  rw [length_append, ← Nat.add_assoc] at hl
  rw [length_append, length_append, ← Nat.add_assoc, ← Nat.add_assoc] at hloop
  obtain ⟨i, hi'⟩ := @Expr.steps _ code arg s bounds.upper upper hu hupper (by omega)
  obtain ⟨j, hj⟩ := @Expr.steps _ code arg { s with
    next := s.next + bounds.upper.code.length
    stack := upper :: s.stack } bounds.increment increment hi hincrement
    (by simp only [length_cons]; omega)
  obtain ⟨k, hk⟩ := @Expr.steps _ code arg { s with
    next := s.next + bounds.upper.code.length + bounds.increment.code.length
    stack := increment :: upper :: s.stack } bounds.lower lower hl hlower
    (by simp only [length_cons]; omega)
  refine ⟨_, _, (hi'.trans hj).trans hk, ?_, hloop⟩
  simp only [Bounds.code, length_append, length_singleton]
  omega

theorem loopAt_code {v : UInt8} {bounds : Bounds} {body : Program}
    (hcode : CodeAt code start ((Program.loop v bounds body).code start)) :
    CodeAt code start bounds.code ∧
      LoopAt code v.toNat (start + bounds.code.length)
        (body.code (start + bounds.code.length + 3)) ∧
      start + ((Program.loop v bounds body).code start).length = start + bounds.code.length + 3 +
        (body.code (start + bounds.code.length + 3)).length + 2 := by
  simp only [Program.code] at hcode ⊢
  obtain ⟨hcode, hgoto⟩ := codeAt_append hcode
  obtain ⟨hcode, hturn⟩ := codeAt_append hcode
  obtain ⟨hbounds, hiterate⟩ := codeAt_append hcode
  simp only [length_append, ← Nat.add_assoc] at hgoto hturn
  simp only [length_append, length_cons, length_nil, ← Nat.add_assoc]
  exact ⟨hbounds, ⟨hiterate, hturn, hgoto⟩, trivial⟩

theorem Program.meets (p : Program) (hdim : p.Dimensions arg.desc.iadDimensions)
    (hcode : CodeAt code s.next (p.code s.next)) (hdepth : s.stack.length + p.depth ≤ stackSize) :
    Meets arg code fuel (s.next + (p.code s.next).length) s.stack s
      (p.interpret arg fuel s.vars) := by
  induction p generalizing s with
  | element field subscripts => exact element_meets field subscripts hdim hcode hdepth
  | loop v bounds body ih =>
    rw [Program.depth] at hdepth
    obtain ⟨hbounds, hl, hlen⟩ := loopAt_code hcode
    rw [Program.interpret, hlen]
    cases hupper : bounds.upper.eval s.vars with
    | none => trivial
    | some upper =>
    cases hincrement : bounds.increment.eval s.vars with
    | none => trivial
    | some increment =>
    cases hlower : bounds.lower.eval s.vars with
    | none => trivial
    | some lower =>
      dsimp only
      split_ifs with hvar
      swap
      · trivial
      obtain ⟨n, start, hsteps, hlabel, hloop⟩ :=
        @Bounds.steps _ code arg s bounds upper increment lower hbounds hupper hincrement hlower
          (by omega)
      have hstep := @step_loop _ code arg { s with
        next := start
        stack := lower :: increment :: upper :: s.stack } (increment :: upper :: s.stack) v.toNat _
          lower
        hloop (by rw [hlabel]; exact hl.iterate) rfl
      simp only [show start + 4 = s.next + bounds.code.length + 3 by omega] at hstep
      have hbody (t : State τ) (hnext : t.next = s.next + bounds.code.length + 3)
          (hstack : t.stack = increment :: upper :: s.stack) :
          Meets arg code fuel (s.next + bounds.code.length + 3 +
            (body.code (s.next + bounds.code.length + 3)).length) (increment :: upper :: s.stack) t
            (body.interpret arg fuel t.vars) := by
        rw [← hnext, ← hstack]
        refine ih hdim ?_ ?_
        · rw [hnext]
          exact hl.turn
        · rw [hstack]
          simp only [length_cons]
          omega
      have h := iterate_meets (n := fuel) hl hvar hbody hstep
      rw [Nat.min_self] at h
      exact h.of_steps hsteps rfl

def Program.size (p : Program) : Nat := (p.code 0).length + 1

theorem compileWalk_bytes (desc : ArrayDesc) (p : Program) (rest : List UInt8)
    (hdim : p.Dimensions desc.iadDimensions) (hsize : p.size ≤ compileSize) :
    compileWalk desc (p.bytes ++ rest) = .ok (rest, p.code 0 ++ [opExit]) := by
  rw [Program.size] at hsize
  have hcompile := @Program.compile_bytes desc (p.bytes ++ rest).length (p.bytes ++ rest).length
    rest p []
    hdim (by rw [length_append]; omega) (by rw [fits_some, length_nil]; omega)
  rw [compileWalk, hcompile, ok_bind]
  simp only [length_nil]
  rw [stuff_of_fits (by rwa [fits_some, length_singleton]), ok_bind]
  rfl

def Result.outcome (arg : SdlArg τ) (slice : ArraySlice τ) : Result → Option (Outcome τ)
  | .timeout => none
  | .undefined => some .undefined
  | .outOfBounds vars elements => some (.outOfBounds vars (elements.foldl (arg.visit 1) slice))
  | .done vars elements => some (.exit vars (elements.foldl (arg.visit 1) slice))

theorem step_exit (h : code[s.next]? = some opExit) :
    step arg code s = .inr (.exit s.vars s.slice) := by
  rw [step, h]
  rfl

theorem Program.execute_outcome (p : Program) (vars : Nat → Int) (slice : ArraySlice τ)
    {o : Outcome τ}
    (hdim : p.Dimensions arg.desc.iadDimensions) (hdepth : p.depth ≤ stackSize)
    (hr : p.interpret arg fuel vars ≠ .undefined)
    (ho : (p.interpret arg fuel vars).outcome arg slice = some o) :
    ∃ n, execute arg (p.code 0 ++ [opExit]) vars slice n = some o := by
  have hmeets := @Program.meets _ (p.code 0 ++ [opExit]) arg ⟨0, [], vars, none, slice⟩ fuel p hdim
    ⟨[opExit], rfl⟩ (by simpa using hdepth)
  cases hi : p.interpret arg fuel vars with
  | timeout =>
    rw [hi] at ho
    cases ho
  | undefined => exact absurd hi hr
  | outOfBounds vars' elements =>
    rw [hi] at ho hmeets
    cases ho
    exact hmeets
  | done vars' elements =>
    rw [hi] at ho hmeets
    cases ho
    obtain ⟨n, e, h⟩ := hmeets
    exact h.halts (halts_of_step (step_exit (by simp)))

theorem Program.execute_iff (p : Program) (vars : Nat → Int) (slice : ArraySlice τ) (o : Outcome τ)
    (hdim : p.Dimensions arg.desc.iadDimensions) (hdepth : p.depth ≤ stackSize)
    (hr : ∀ fuel, p.interpret arg fuel vars ≠ .undefined) :
    (∃ n, execute arg (p.code 0 ++ [opExit]) vars slice n = some o) ↔
      ∃ fuel, (p.interpret arg fuel vars).outcome arg slice = some o := by
  refine ⟨fun ⟨n, hn⟩ => ⟨n, ?_⟩, fun ⟨fuel, ho⟩ => p.execute_outcome vars slice hdim hdepth
    (hr fuel) ho⟩
  cases ho : (p.interpret arg n vars).outcome arg slice with
  | some o' =>
    have h := p.execute_outcome vars slice hdim hdepth (hr n) ho
    rw [Halts.unique ⟨n, hn⟩ h]
  | none =>
    -- The interpretation has run out of its fuel, and the code goes on for as many steps.
    have hmeets := @Program.meets _ (p.code 0 ++ [opExit]) arg ⟨0, [], vars, none, slice⟩ n p hdim
      ⟨[opExit], rfl⟩ (by simpa using hdepth)
    cases hi : p.interpret arg n vars with
    | timeout =>
      rw [hi] at hmeets
      obtain ⟨m, hm, t, ht⟩ := hmeets
      have h := run_mono hn (m - n)
      rw [Nat.add_sub_cancel' hm, ht.run_eq_none] at h
      cases h
    | undefined => exact absurd hi (hr n)
    | outOfBounds vars' elements =>
      rw [hi] at ho
      cases ho
    | done vars' elements =>
      rw [hi] at ho
      cases ho

/-- A program that fits into the code and the stack, and has a meaning, is compiled, and its code
visits the elements of the direct interpretation. The execution fails exactly if the
interpretation meets a subscript that is out of bounds. -/
theorem slice_walk (arg : SdlArg τ) (p : Program) (rest : List UInt8) (vars : Nat → Int)
    (slice : ArraySlice τ) (hdim : p.Dimensions arg.desc.iadDimensions)
    (hsize : p.size ≤ compileSize)
    (hdepth : p.depth ≤ stackSize) (hmeaning : ∀ fuel, p.interpret arg fuel vars ≠ .undefined) :
    ∃ code, compileWalk arg.desc (p.bytes ++ rest) = .ok (rest, code) ∧
      (∀ vars' slice', (∃ n, execute arg code vars slice n = some (.exit vars' slice')) ↔
        ∃ fuel elements, p.interpret arg fuel vars = .done vars' elements ∧
          slice' = elements.foldl (arg.visit 1) slice) ∧
      (∀ vars' slice', (∃ n, execute arg code vars slice n = some (.outOfBounds vars' slice')) ↔
        ∃ fuel elements, p.interpret arg fuel vars = .outOfBounds vars' elements ∧
          slice' = elements.foldl (arg.visit 1) slice) ∧
      ∀ n, execute arg code vars slice n ≠ some .undefined := by
  refine ⟨_, compileWalk_bytes arg.desc p rest hdim hsize, fun vars' slice' => ?_,
    fun vars' slice' => ?_, fun n hn => ?_⟩
  · rw [p.execute_iff vars slice _ hdim hdepth hmeaning]
    refine exists_congr fun fuel => ?_
    cases p.interpret arg fuel vars <;> simp [Result.outcome, eq_comm]
  · rw [p.execute_iff vars slice _ hdim hdepth hmeaning]
    refine exists_congr fun fuel => ?_
    cases p.interpret arg fuel vars <;> simp [Result.outcome, eq_comm]
  · obtain ⟨fuel, ho⟩ := (p.execute_iff vars slice _ hdim hdepth hmeaning).mp ⟨n, hn⟩
    cases hi : p.interpret arg fuel vars <;> simp_all [Result.outcome]

/-- An array of three elements, and a callback that notes the addresses it is called with. -/
def notes : SdlArg (List Int) where
  desc := ⟨1, [⟨0, 1, 3, 1⟩], 4, by decide, by decide⟩
  array := 1000
  callback slice _ e := { slice with others := slice.others ++ [e.dscAddress] }

def firstTwo : Program := .loop 0 (.do1 (.literal (.tiny 2))) (.element 0 [.var 0])

theorem firstTwo_ne_undefined (fuel : Nat) :
    firstTwo.interpret notes fuel (fun _ => 0) ≠ .undefined :=
  match fuel with
  | 0 => nofun
  | 1 => nofun
  | 2 => nofun
  | _ + 3 => nofun

/-- Storing the first two elements. -/
theorem slice_walk_firstTwo :
    ∃ code, compileWalk notes.desc (firstTwo.bytes ++ [255]) = .ok ([255], code) ∧
      ∃ n vars, execute notes code (fun _ => 0) ⟨true, 0, 0, 4, []⟩ n =
        some (.exit vars ⟨true, 0, 0, 4, [1000, 1004]⟩) := by
  obtain ⟨code, hcode, hexit, -⟩ := slice_walk notes firstTwo [255] (fun _ => 0) ⟨true, 0, 0, 4, []⟩
    rfl (by decide) (by decide) firstTwo_ne_undefined
  obtain ⟨n, hn⟩ := (hexit _ _).mpr ⟨3, _, rfl, rfl⟩
  exact ⟨code, hcode, n, _, hn⟩

/-- Fetching them with the high-water mark behind the first one: there is no call for the second
one. -/
theorem element_not_called :
    ∃ code vars elements slice,
      compileWalk notes.desc (firstTwo.bytes ++ [255]) = .ok ([255], code) ∧
      firstTwo.interpret notes 3 (fun _ => 0) = .done vars elements ∧
      (∃ n, execute notes code (fun _ => 0) ⟨false, 1004, 0, 4, []⟩ n = some (.exit vars slice)) ∧
      slice.others = [1000] ∧
      (elements.foldl (notes.callback · 1 ·) ⟨false, 1004, 0, 4, []⟩).others = [1000, 1004] := by
  have h := (@Program.execute_iff _ notes firstTwo (fun _ => 0) ⟨false, 1004, 0, 4, []⟩ _ rfl
    (by decide) firstTwo_ne_undefined).mpr ⟨3, rfl⟩
  exact ⟨_, _, _, _, compileWalk_bytes notes.desc firstTwo [255] rfl (by decide), rfl, h, rfl, rfl⟩

end Firebird.Jrd.Sdl
