import Firebird.Jrd.EvlKmp
import Mathlib.Data.List.Chain

/-!
# The meaning of LIKE patterns

A pattern is a list of tokens, and a string matches it if it can be cut along the tokens. PASS1
keeps the meaning of a pattern.
-/
namespace Firebird.Jrd.Evl

open Lib Kmp List

variable {α : Type}

inductive Token (α : Type) where
  | lit (c : α)
  | any
  | one

def Like : List (Token α) → List α → Prop
  | [], s => s = []
  | .lit c :: p, s => ∃ t, s = c :: t ∧ Like p t
  | .one :: p, s => ∃ c t, s = c :: t ∧ Like p t
  | .any :: p, s => ∃ a t, s = a ++ t ∧ Like p t

section Parse

variable [DecidableEq α] (e : Settings α)

/-- The tokens of a pattern; an escape character stands in front of a special character. -/
def parse : List α → Option (List (Token α))
  | [] => some []
  | [c] =>
    if e.useEscape ∧ c = e.escapeChar then none
    else if c = e.sqlMatchAny then some [.any]
    else if c = e.sqlMatchOne then some [.one]
    else some [.lit c]
  | c :: d :: rest =>
    if e.useEscape ∧ c = e.escapeChar then
      if d = e.escapeChar ∨ d = e.sqlMatchAny ∨ d = e.sqlMatchOne then
        (parse rest).map (.lit d :: ·)
      else none
    else if c = e.sqlMatchAny then (parse (d :: rest)).map (.any :: ·)
    else if c = e.sqlMatchOne then (parse (d :: rest)).map (.one :: ·)
    else (parse (d :: rest)).map (.lit c :: ·)

end Parse

variable {p q r : List (Token α)} {s t a : List α}

theorem like_append : Like (p ++ q) s ↔ ∃ a t, s = a ++ t ∧ Like p a ∧ Like q t := by
  induction p generalizing s with
  | nil => simp [Like]
  | cons tok p ih =>
    cases tok with
    | lit c =>
      simp only [cons_append, Like, ih]
      constructor
      · rintro ⟨_, rfl, a, t, rfl, hp, hq⟩
        exact ⟨c :: a, t, rfl, ⟨a, rfl, hp⟩, hq⟩
      · rintro ⟨_, t, rfl, ⟨a, rfl, hp⟩, hq⟩
        exact ⟨a ++ t, rfl, a, t, rfl, hp, hq⟩
    | one =>
      simp only [cons_append, Like, ih]
      constructor
      · rintro ⟨c, _, rfl, a, t, rfl, hp, hq⟩
        exact ⟨c :: a, t, rfl, ⟨c, a, rfl, hp⟩, hq⟩
      · rintro ⟨_, t, rfl, ⟨c, a, rfl, hp⟩, hq⟩
        exact ⟨c, a ++ t, rfl, a, t, rfl, hp, hq⟩
    | any =>
      simp only [cons_append, Like, ih]
      constructor
      · rintro ⟨b, _, rfl, a, t, rfl, hp, hq⟩
        exact ⟨b ++ a, t, by simp, ⟨b, a, rfl, hp⟩, hq⟩
      · rintro ⟨_, t, rfl, ⟨b, a, rfl, hp⟩, hq⟩
        exact ⟨b, a ++ t, by simp, a, t, rfl, hp, hq⟩

def Same (p q : List (Token α)) : Prop := ∀ s, Like p s ↔ Like q s

theorem Same.refl (p : List (Token α)) : Same p p := fun _ => Iff.rfl

theorem Same.of_eq (h : p = q) : Same p q := h ▸ Same.refl p

theorem Same.symm (h : Same p q) : Same q p := fun s => (h s).symm

theorem Same.trans (h : Same p q) (h' : Same q r) : Same p r := fun s => (h s).trans (h' s)

theorem Same.append (h : Same p q) {p' q' : List (Token α)} (h' : Same p' q') :
    Same (p ++ p') (q ++ q') := by
  intro s
  simp [like_append, h _, h' _]

theorem same_any_one : Same [.any, .one] [(.one : Token α), .any] := by
  intro s
  constructor
  · rintro ⟨a, _, rfl, c, _, rfl, rfl⟩
    cases a with
    | nil => exact ⟨c, [], rfl, [], [], rfl, rfl⟩
    | cons b a => exact ⟨b, a ++ [c], by simp, a ++ [c], [], by simp, rfl⟩
  · rintro ⟨c, _, rfl, a, _, rfl, rfl⟩
    rcases eq_nil_or_concat a with rfl | ⟨a, b, rfl⟩
    · exact ⟨[], [c], rfl, c, [], rfl, rfl⟩
    · exact ⟨c :: a, [b], by simp, b, [], rfl, rfl⟩

theorem same_any_any : Same [.any, .any] [(.any : Token α)] := by
  intro s
  simp only [Like]
  constructor
  · rintro ⟨a, _, rfl, b, _, rfl, rfl⟩
    exact ⟨a ++ b, [], by simp, rfl⟩
  · rintro ⟨a, _, rfl, rfl⟩
    exact ⟨a, [], rfl, [], [], rfl, rfl⟩

theorem like_lits : Like (t.map .lit) s ↔ s = t := by
  induction t generalizing s with
  | nil => simp [Like]
  | cons c t ih =>
    simp only [map_cons, Like, ih]
    simp

theorem like_ones {n : Nat} : Like (replicate n (.one : Token α)) s ↔ s.length = n := by
  induction n generalizing s with
  | zero => simp [Like]
  | succ n ih =>
    simp only [replicate_succ, Like, ih]
    cases s with
    | nil => simp
    | cons c s => simp

/-! ## PASS1 -/

variable [DecidableEq α] {e : Settings α} {c d : α} {rest : List α} {n : Nat}

variable (e) in
/-- What a part of the pattern reads without its escape characters. -/
inductive Reads : List α → List α → Prop
  | nil : Reads [] []
  | plain {c : α} {w l : List α} : ¬(e.useEscape ∧ c = e.escapeChar) → Reads w l →
      Reads (c :: w) (c :: l)
  | escaped {c d : α} {w l : List α} : e.useEscape ∧ c = e.escapeChar → Reads w l →
      Reads (c :: d :: w) (d :: l)

omit [DecidableEq α] in
theorem Reads.append {w l w' l' : List α} (h : Reads e w l) (h' : Reads e w' l') :
    Reads e (w ++ w') (l ++ l') := by
  induction h with
  | nil => exact h'
  | plain hc _ ih => exact .plain hc ih
  | escaped hc _ ih => exact .escaped hc ih

theorem Reads.unescape {w l : List α} (h : Reads e w l) (r : List α) :
    unescape e l.length (w ++ r) = l := by
  induction h with
  | nil => simp [Evl.unescape]
  | plain hc _ ih => simp [Evl.unescape, hc, ih]
  | escaped hc _ ih => simp [Evl.unescape, hc.1, hc.2, ih]

variable (e) in
def tokensOf (item : PatternItem α) : List (Token α) :=
  match item.type with
  | .piSearch => (item.data.take item.length).map .lit
  | .piEscapedString => (unescape e item.length item.data).map .lit
  | .piSkipFixed => List.replicate item.length .one
  | .piSkipMore => List.replicate item.length .one ++ [.any]
  | .piNone | .piDirectMatch => []

def PatternItem.isSkip (item : PatternItem α) : Prop :=
  item.type = .piSkipFixed ∨ item.type = .piSkipMore

variable (e) in
structure Parsed (item : PatternItem α) : Prop where
  matchAny : item.matchAny = false
  type : item.type = .piSearch ∨ item.type = .piEscapedString ∨ item.isSkip
  pos : item.type ≠ .piSkipMore → 0 < item.length
  search : item.type = .piSearch → (item.data.take item.length).length = item.length
  escaped : item.type = .piEscapedString → (unescape e item.length item.data).length = item.length

variable (e) in
/-- The item that PASS1 is at, with the rest of the pattern: a string goes on where the rest
begins. -/
structure Going (item : PatternItem α) (rest : List α) : Prop where
  matchAny : item.matchAny = false
  type : item.type = .piSearch ∨ item.type = .piEscapedString ∨ item.isSkip
  pos : item.type ≠ .piSkipMore → 0 < item.length
  search : item.type = .piSearch → ∃ w, item.data = w ++ rest ∧ w.length = item.length ∧ Reads e w w
  escaped : item.type = .piEscapedString →
    ∃ w l, item.data = w ++ rest ∧ l.length = item.length ∧ Reads e w l

variable (e) in
structure Pending (items : List (PatternItem α)) (item : PatternItem α) (rest : List α) : Prop where
  state : item = .zero ∧ items = [] ∨ Going e item rest
  parsed : ∀ i ∈ items, Parsed e i
  chain : items.IsChain fun i j => ¬(i.isSkip ∧ j.isSkip)
  last : ∀ i ∈ items.getLast?, ¬(i.isSkip ∧ item.isSkip)

variable {items : List (PatternItem α)} {item new : PatternItem α} {rest' : List α}

theorem Going.parsed (h : Going e item rest) : Parsed e item := by
  refine ⟨h.matchAny, h.type, h.pos, fun hs => ?_, fun hs => ?_⟩
  · obtain ⟨w, hdata, hlen, -⟩ := h.search hs
    rw [hdata, ← hlen, take_left]
  · obtain ⟨w, l, hdata, hlen, hreads⟩ := h.escaped hs
    rw [hdata, ← hlen, hreads.unescape, hlen]

theorem Pending.parsed_all (h : Pending e items item rest) (hitem : Going e item rest) :
    ∀ i ∈ items ++ [item], Parsed e i := by
  intro i hi
  rcases mem_append.1 hi with hi | hi
  · exact h.parsed i hi
  · obtain rfl := mem_singleton.1 hi
    exact hitem.parsed

theorem Pending.chain_all (h : Pending e items item rest) :
    (items ++ [item]).IsChain fun i j => ¬(i.isSkip ∧ j.isSkip) := by
  rw [isChain_append]
  refine ⟨h.chain, .singleton _, fun i hi j hj => ?_⟩
  obtain rfl : item = j := by simpa using hj
  exact h.last i hi

theorem Pending.push (h : Pending e items item rest) (hitem : Going e item rest)
    (hnew : Going e new rest') (hkind : ¬(item.isSkip ∧ new.isSkip)) :
    Pending e (items ++ [item]) new rest' where
  state := .inr hnew
  parsed := h.parsed_all hitem
  chain := h.chain_all
  last := by
    intro i hi
    obtain rfl : item = i := by simpa using hi
    exact hkind

theorem Pending.grow (h : Pending e items item rest) (hnew : Going e new rest')
    (hkind : new.isSkip → item.isSkip ∨ items = []) : Pending e items new rest' where
  state := .inr hnew
  parsed := h.parsed
  chain := h.chain
  last := by
    intro i hi hskip
    rcases hkind hskip.2 with hitem | rfl
    · exact h.last i hi ⟨hskip.1, hitem⟩
    · simp at hi

variable (e) in
def tokensRead (s : List (PatternItem α) × PatternItem α) : List (Token α) :=
  s.1.flatMap (tokensOf e) ++ tokensOf e s.2

variable (e) in
def Adds (tok : Token α) (items : List (PatternItem α)) (item : PatternItem α)
    (s : List (PatternItem α) × PatternItem α) (rest : List α) : Prop :=
  Pending e s.1 s.2 rest ∧ Same (tokensRead e s) (tokensRead e (items, item) ++ [tok])

variable {tok : Token α}

theorem Adds.push (h : Pending e items item rest) (hitem : Going e item rest)
    (hnew : Going e new rest') (hkind : ¬(item.isSkip ∧ new.isSkip))
    (htok : tokensOf e new = [tok]) : Adds e tok items item (items ++ [item], new) rest' := by
  refine ⟨h.push hitem hnew hkind, Same.of_eq ?_⟩
  simp [tokensRead, htok]

theorem Adds.grow (h : Pending e items item rest) (hnew : Going e new rest')
    (hkind : new.isSkip → item.isSkip ∨ items = [])
    (htok : Same (tokensOf e new) (tokensOf e item ++ [tok])) :
    Adds e tok items item (items, new) rest' := by
  refine ⟨h.grow hnew hkind, ?_⟩
  rw [tokensRead, tokensRead, append_assoc]
  exact (Same.refl _).append htok

omit [DecidableEq α] in
theorem going_skip (hmatch : item.matchAny = false) (hskip : item.isSkip)
    (hpos : item.type ≠ .piSkipMore → 0 < item.length) : Going e item rest := by
  refine ⟨hmatch, .inr (.inr hskip), hpos, fun h => ?_, fun h => ?_⟩
  all_goals
    rcases hskip with hs | hs <;> rw [hs] at h <;> cases h

theorem addMatchAny_adds (h : Pending e items item rest) :
    Adds e .any items item (addMatchAny items item) rest' := by
  have hnew : Going e (⟨.piSkipMore, 0, [], [], false⟩ : PatternItem α) rest' :=
    going_skip rfl (.inr rfl) (fun h => absurd rfl h)
  rcases h.state with ⟨rfl, rfl⟩ | hitem
  · exact Adds.grow h hnew (fun _ => .inr rfl) (Same.of_eq rfl)
  rcases hitem.type with ht | ht | ht | ht
  · rw [addMatchAny, ht]
    exact Adds.push h hitem hnew (fun hs => by simp [PatternItem.isSkip, ht] at hs) rfl
  · rw [addMatchAny, ht]
    exact Adds.push h hitem hnew (fun hs => by simp [PatternItem.isSkip, ht] at hs) rfl
  · rw [addMatchAny, ht]
    refine Adds.grow h (going_skip hitem.matchAny (.inr rfl) (fun hs => absurd rfl hs))
      (fun _ => .inl (.inl ht)) (Same.of_eq ?_)
    simp [tokensOf, ht]
  · rw [addMatchAny, ht]
    refine Adds.grow h (going_skip hitem.matchAny (.inr ht) (fun hs => absurd ht hs))
      (fun _ => .inl (.inr ht)) ?_
    rw [tokensOf, ht, append_assoc]
    exact (Same.refl _).append same_any_any.symm

theorem addMatchOne_adds (h : Pending e items item rest) :
    Adds e .one items item (addMatchOne items item) rest' := by
  have hnew : Going e (⟨.piSkipFixed, 1, [], [], false⟩ : PatternItem α) rest' :=
    going_skip rfl (.inl rfl) (fun _ => Nat.one_pos)
  rcases h.state with ⟨rfl, rfl⟩ | hitem
  · exact Adds.grow h hnew (fun _ => .inr rfl) (Same.of_eq rfl)
  rcases hitem.type with ht | ht | ht | ht
  · rw [addMatchOne, ht]
    exact Adds.push h hitem hnew (fun hs => by simp [PatternItem.isSkip, ht] at hs) rfl
  · rw [addMatchOne, ht]
    exact Adds.push h hitem hnew (fun hs => by simp [PatternItem.isSkip, ht] at hs) rfl
  · rw [addMatchOne, ht]
    refine Adds.grow h (going_skip hitem.matchAny (.inl rfl) (fun _ => Nat.succ_pos _))
      (fun _ => .inl (.inl ht)) (Same.of_eq ?_)
    simp [tokensOf, ht, replicate_succ']
  · rw [addMatchOne, ht]
    refine Adds.grow h (going_skip hitem.matchAny (.inr rfl) (fun hs => absurd rfl hs))
      (fun _ => .inl (.inr ht)) ?_
    simp only [tokensOf, ht]
    rw [replicate_succ', append_assoc, append_assoc]
    exact (Same.refl _).append same_any_one.symm

omit [DecidableEq α] in
theorem going_search {w : List α} (hmatch : item.matchAny = false) (ht : item.type = .piSearch)
    (hdata : item.data = w ++ rest) (hlen : item.length = w.length) (hw : w ≠ [])
    (hreads : Reads e w w) : Going e item rest := by
  refine ⟨hmatch, .inl ht, fun _ => ?_, fun _ => ⟨w, hdata, hlen.symm, hreads⟩, fun h => ?_⟩
  · rw [hlen]
    exact length_pos_iff.2 hw
  · rw [ht] at h
    cases h

omit [DecidableEq α] in
theorem going_escaped {w l : List α} (hmatch : item.matchAny = false)
    (ht : item.type = .piEscapedString) (hdata : item.data = w ++ rest)
    (hlen : item.length = l.length) (hl : l ≠ []) (hreads : Reads e w l) : Going e item rest := by
  refine ⟨hmatch, .inr (.inl ht), fun _ => ?_, fun h => ?_, fun _ =>
    ⟨w, l, hdata, hlen.symm, hreads⟩⟩
  · rw [hlen]
    exact length_pos_iff.2 hl
  · rw [ht] at h
    cases h

theorem tokensOf_search {w : List α} (ht : item.type = .piSearch) (hdata : item.data = w ++ rest)
    (hlen : item.length = w.length) : tokensOf e item = w.map .lit := by
  rw [tokensOf, ht, hdata, hlen, take_left]

theorem tokensOf_escaped {w l : List α} (ht : item.type = .piEscapedString)
    (hdata : item.data = w ++ rest) (hlen : item.length = l.length) (hreads : Reads e w l) :
    tokensOf e item = l.map .lit := by
  rw [tokensOf, ht, hdata, hlen, hreads.unescape]

theorem Adds.search (h : Pending e items item (c :: rest))
    (hitem : Going e item (c :: rest)) (ht : item.type = .piSearch)
    (hc : ¬(e.useEscape ∧ c = e.escapeChar)) :
    Adds e (.lit c) items item (items, { item with length := item.length + 1 }) rest := by
  obtain ⟨w, hdata, hlen, hreads⟩ := hitem.search ht
  have hreads' : Reads e (w ++ [c]) (w ++ [c]) := hreads.append (.plain hc .nil)
  have hdata' : item.data = (w ++ [c]) ++ rest := by rw [hdata, append_assoc]; rfl
  have hlen' : item.length + 1 = (w ++ [c]).length := by simp [hlen]
  refine Adds.grow h (going_search hitem.matchAny ht hdata' hlen' (by simp) hreads') ?_
    (Same.of_eq ?_)
  · intro hs
    simp [PatternItem.isSkip, ht] at hs
  · rw [tokensOf_search ht hdata hlen.symm,
      @tokensOf_search _ _ _ _ { item with length := item.length + 1 } _ ht hdata' hlen']
    simp

theorem Going.reads (hitem : Going e item rest) (hskip : ¬item.isSkip) :
    ∃ w l, item.data = w ++ rest ∧ item.length = l.length ∧ Reads e w l ∧
      tokensOf e item = l.map .lit := by
  rcases hitem.type with ht | ht | ht
  · obtain ⟨w, hdata, hlen, hreads⟩ := hitem.search ht
    exact ⟨w, w, hdata, hlen.symm, hreads, tokensOf_search ht hdata hlen.symm⟩
  · obtain ⟨w, l, hdata, hlen, hreads⟩ := hitem.escaped ht
    exact ⟨w, l, hdata, hlen.symm, hreads, tokensOf_escaped ht hdata hlen.symm hreads⟩
  · exact absurd ht hskip

theorem Adds.escaped {x : List α} (h : Pending e items item (x ++ rest))
    (hitem : Going e item (x ++ rest)) (hskip : ¬item.isSkip) (hx : Reads e x [d]) :
    Adds e (.lit d) items item
      (items, { item with type := .piEscapedString, length := item.length + 1 }) rest := by
  obtain ⟨w, l, hdata, hlen, hreads, htok⟩ := hitem.reads hskip
  have hreads' : Reads e (w ++ x) (l ++ [d]) := hreads.append hx
  have hdata' : item.data = (w ++ x) ++ rest := by rw [hdata, append_assoc]
  have hlen' : item.length + 1 = (l ++ [d]).length := by simp [hlen]
  refine Adds.grow h (going_escaped hitem.matchAny rfl hdata' hlen' (by simp) hreads') ?_
    (Same.of_eq ?_)
  · intro hs
    simp [PatternItem.isSkip] at hs
  · rw [htok, @tokensOf_escaped _ _ _ _
      { item with type := .piEscapedString, length := item.length + 1 } _ _ rfl hdata' hlen'
        hreads']
    simp

theorem addOther_adds (h : Pending e items item (c :: rest))
    (hc : ¬(e.useEscape ∧ c = e.escapeChar)) :
    Adds e (.lit c) items item (addOther (c :: rest) items item) rest := by
  have hnew : Going e ⟨.piSearch, 1, c :: rest, [], false⟩ rest :=
    @going_search _ _ _ _ [c] rfl rfl rfl rfl (by simp) (.plain hc .nil)
  rcases h.state with ⟨rfl, rfl⟩ | hitem
  · exact Adds.grow h hnew (fun _ => .inr rfl) (Same.of_eq rfl)
  rcases hitem.type with ht | ht | ht | ht
  · simp only [addOther, ht]
    have hadds := Adds.search h hitem ht hc
    rwa [ht] at hadds
  · simp only [addOther, ht]
    exact @Adds.escaped _ _ _ _ _ _ _ [c] h hitem (by simp [PatternItem.isSkip, ht])
      (.plain hc .nil)
  · simp only [addOther, ht]
    exact Adds.push h hitem hnew (fun hs => by simp [PatternItem.isSkip] at hs) rfl
  · simp only [addOther, ht]
    exact Adds.push h hitem hnew (fun hs => by simp [PatternItem.isSkip] at hs) rfl

theorem addEscaped_adds (h : Pending e items item (c :: d :: rest))
    (hc : e.useEscape ∧ c = e.escapeChar) :
    Adds e (.lit d) items item (addEscaped (c :: d :: rest) items item) rest := by
  have hreads : Reads e [c, d] [d] := .escaped hc .nil
  have hnew : Going e ⟨.piEscapedString, 1, c :: d :: rest, [], false⟩ rest :=
    @going_escaped _ _ _ _ [c, d] [d] rfl rfl rfl rfl (by simp) hreads
  have htok : tokensOf e ⟨.piEscapedString, 1, c :: d :: rest, [], false⟩ = [.lit d] :=
    @tokensOf_escaped _ _ _ _ _ [c, d] [d] rfl rfl rfl hreads
  rcases h.state with ⟨rfl, rfl⟩ | hitem
  · exact Adds.grow h hnew (fun _ => .inr rfl) (Same.of_eq htok)
  rcases hitem.type with ht | ht | ht | ht
  · simp only [addEscaped, ht]
    exact @Adds.escaped _ _ _ _ _ _ _ [c, d] h hitem (by simp [PatternItem.isSkip, ht]) hreads
  · simp only [addEscaped, ht]
    exact @Adds.escaped _ _ _ _ _ _ _ [c, d] h hitem (by simp [PatternItem.isSkip, ht]) hreads
  · simp only [addEscaped, ht]
    exact Adds.push h hitem hnew (fun hs => by simp [PatternItem.isSkip] at hs) htok
  · simp only [addEscaped, ht]
    exact Adds.push h hitem hnew (fun hs => by simp [PatternItem.isSkip] at hs) htok

variable (e) in
def PassOne (items : List (PatternItem α)) : Prop :=
  items = [.zero] ∨ items ≠ [] ∧ (∀ i ∈ items, Parsed e i) ∧
    items.IsChain fun i j => ¬(i.isSkip ∧ j.isSkip)

variable (e) in
/-- A result of PASS1: it fails if the rest of the pattern is not valid, and else adds its tokens.
-/
def ReadsAll (old : List (Token α)) (result : Option (List (PatternItem α))) :
    Option (List (Token α)) → Prop
  | none => result = none
  | some toks => ∃ items, result = some items ∧ PassOne e items ∧
      Same (items.flatMap (tokensOf e)) (old ++ toks)

theorem ReadsAll.cons {old : List (Token α)} {result : Option (List (PatternItem α))}
    {toks : Option (List (Token α))} (h : ReadsAll e p result toks)
    (hsame : Same p (old ++ [tok])) : ReadsAll e old result (toks.map (tok :: ·)) := by
  cases toks with
  | none => exact h
  | some toks =>
    obtain ⟨items, hresult, hone, hitems⟩ := h
    refine ⟨items, hresult, hone, hitems.trans ?_⟩
    have happ := hsame.append (Same.refl toks)
    rwa [append_assoc] at happ

theorem pass1_nil (h : Pending e items item []) :
    ReadsAll e (tokensRead e (items, item)) (pass1 e [] (items, item)) (some []) := by
  refine ⟨items ++ [item], rfl, ?_, Same.of_eq (by simp [tokensRead])⟩
  rcases h.state with ⟨rfl, rfl⟩ | hitem
  · exact .inl rfl
  · exact .inr ⟨by simp, h.parsed_all hitem, h.chain_all⟩

theorem pass1_spec (h : Pending e items item rest) :
    ReadsAll e (tokensRead e (items, item)) (pass1 e rest (items, item)) (parse e rest) := by
  fun_induction parse e rest generalizing items item with
  | case1 => exact pass1_nil h
  | case2 c hc => simp only [pass1, if_pos hc, ReadsAll]
  | case3 hc =>
    have hadds : Adds e .any items item (addMatchAny items item) [] := addMatchAny_adds h
    simp only [pass1, if_neg hc]
    exact (pass1_nil hadds.1).cons hadds.2
  | case4 hc hany =>
    have hadds : Adds e .one items item (addMatchOne items item) [] := addMatchOne_adds h
    simp only [pass1, if_neg hc, if_neg hany]
    exact (pass1_nil hadds.1).cons hadds.2
  | case5 c hc hany hone =>
    have hadds := addOther_adds h hc
    simp only [pass1, if_neg hc, if_neg hany, if_neg hone]
    exact (pass1_nil hadds.1).cons hadds.2
  | case6 c d rest hc hd ih =>
    have hadds := addEscaped_adds h hc
    simp only [pass1, if_pos hc, if_pos hd]
    exact (ih hadds.1).cons hadds.2
  | case7 c d rest hc hd => simp only [pass1, if_pos hc, if_neg hd, ReadsAll]
  | case8 d rest hc ih =>
    have hadds : Adds e .any items item (addMatchAny items item) (d :: rest) := addMatchAny_adds h
    simp only [pass1, if_neg hc]
    exact (ih hadds.1).cons hadds.2
  | case9 d rest hc hany ih =>
    have hadds : Adds e .one items item (addMatchOne items item) (d :: rest) := addMatchOne_adds h
    simp only [pass1, if_neg hc, if_neg hany]
    exact (ih hadds.1).cons hadds.2
  | case10 c d rest hc hany hone ih =>
    have hadds := addOther_adds h hc
    simp only [pass1, if_neg hc, if_neg hany, if_neg hone]
    exact (ih hadds.1).cons hadds.2

end Firebird.Jrd.Evl
