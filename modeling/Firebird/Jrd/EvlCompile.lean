import Firebird.Jrd.EvlLike

/-!
# The compiled items of a LIKE pattern

PASS2 keeps the meaning of the pattern too, and leaves items that the matching relies on.
-/
namespace Firebird.Jrd.Evl

open Lib Kmp List

variable {α : Type} {items rest : List (PatternItem α)} {item new : PatternItem α}

def PatternItem.tokens (item : PatternItem α) : List (Token α) :=
  (match item.type with
    | .piSearch | .piDirectMatch => item.data.map .lit
    | .piSkipFixed => List.replicate item.length .one
    | .piNone | .piEscapedString | .piSkipMore => []) ++
  if item.matchAny then [.any] else []

structure Compiled (item : PatternItem α) : Prop where
  type : item.type = .piSearch ∨ item.type = .piDirectMatch ∨ item.type = .piSkipFixed
  pos : 0 < item.length
  data : item.type ≠ .piSkipFixed → item.data.length = item.length
  table : item.type = .piSearch → Table item.data item.kmpNext

/-- A string is searched for exactly if `%` stands in front of it. -/
def Linked (items : List (PatternItem α)) : Prop :=
  items.IsChain fun i j => i.matchAny = true ↔ j.type = .piSearch

/-- A `%` that no item holds: the one at the front of the pattern. -/
def lead (directMatch : Bool) : List (PatternItem α) → List (Token α)
  | [] => if directMatch then [] else [.any]
  | item :: _ => if item.type = .piSearch then [.any] else []

def tokens (directMatch : Bool) (items : List (PatternItem α)) : List (Token α) :=
  lead directMatch items ++ items.flatMap (·.tokens)

structure PassTwo (directMatch : Bool) (items : List (PatternItem α)) : Prop where
  compiled : ∀ i ∈ items, Compiled i
  linked : Linked items
  last : ∀ i ∈ items.getLast?, i.matchAny = !directMatch

variable {directMatch : Bool}

theorem PassTwo.push (h : PassTwo directMatch items) (hnew : Compiled new)
    (htype : new.type = .piSearch ↔ directMatch = false) :
    PassTwo (!new.matchAny) (items ++ [new]) where
  compiled := by
    intro i hi
    rcases mem_append.1 hi with hi | hi
    · exact h.compiled i hi
    · obtain rfl := mem_singleton.1 hi
      exact hnew
  linked := by
    rw [Linked, isChain_append]
    refine ⟨h.linked, .singleton _, fun i hi j hj => ?_⟩
    obtain rfl : new = j := by simpa using hj
    rw [h.last i hi, htype, Bool.not_eq_true']
  last := by
    intro i hi
    obtain rfl : new = i := by simpa using hi
    rw [Bool.not_not]

theorem tokens_push (htype : new.type = .piSearch ↔ directMatch = false) (b : Bool) :
    tokens b (items ++ [new]) = tokens directMatch items ++ new.tokens := by
  cases items with
  | nil =>
    cases directMatch with
    | true => simp [tokens, lead, htype]
    | false => simp [tokens, lead, htype]
  | cons i items => simp [tokens, lead]

theorem PassTwo.mark (h : PassTwo true (items ++ [item])) :
    PassTwo false (items ++ [{ item with matchAny := true }]) where
  compiled := by
    intro i hi
    rcases mem_append.1 hi with hi | hi
    · exact h.compiled i (by simp [hi])
    · obtain rfl := mem_singleton.1 hi
      have hitem := h.compiled item (by simp)
      exact ⟨hitem.type, hitem.pos, hitem.data, hitem.table⟩
  linked := by
    have hlinked := h.linked
    rw [Linked, isChain_append] at hlinked ⊢
    refine ⟨hlinked.1, .singleton _, fun i hi j hj => ?_⟩
    obtain rfl : { item with matchAny := true } = j := by simpa using hj
    exact hlinked.2.2 i hi item (by simp)
  last := by
    intro i hi
    obtain rfl : { item with matchAny := true } = i := by simpa using hi
    rfl

theorem tokens_mark (h : item.matchAny = false) (b b' : Bool) :
    tokens b (items ++ [{ item with matchAny := true }]) = tokens b' (items ++ [item]) ++
      [.any] := by
  cases items with
  | nil => simp [tokens, lead, PatternItem.tokens, h]
  | cons i items => simp [tokens, lead, PatternItem.tokens, h]

theorem modify_last (f : PatternItem α → PatternItem α) :
    (items ++ [item]).modify ((items ++ [item]).length - 1) f = items ++ [f item] := by
  induction items with
  | nil => rfl
  | cons i items ih => simpa using ih

section Pass

variable [DecidableEq α] {e : Settings α}

variable (e) in
structure Todo (directMatch : Bool) (rest : List (PatternItem α)) : Prop where
  parsed : ∀ i ∈ rest, Parsed e i
  chain : rest.IsChain fun i j => ¬(i.isSkip ∧ j.isSkip)
  head : ∀ i ∈ rest.head?, directMatch = false → ¬i.isSkip

theorem Todo.tail (h : Todo e directMatch (item :: rest)) {b : Bool}
    (hb : b = false → item.isSkip) : Todo e b rest where
  parsed i hi := h.parsed i (mem_cons_of_mem _ hi)
  chain := h.chain.tail
  head := by
    intro i hi hf hskip
    have hchain := h.chain
    cases rest with
    | nil => simp at hi
    | cons j rest =>
      obtain rfl : j = i := by simpa using hi
      rw [isChain_cons_cons] at hchain
      exact hchain.1 ⟨hb hf, hskip⟩

theorem compileString_spec {data : List α} (hlen : data.length = item.length)
    (hpos : 0 < item.length) (hmatch : item.matchAny = false) :
    let new := compileString directMatch item data
    Compiled new ∧ (new.type = .piSearch ↔ directMatch = false) ∧ new.matchAny = false ∧
      new.tokens = data.map .lit := by
  cases directMatch with
  | true =>
    refine ⟨⟨.inr (.inl rfl), hpos, fun _ => hlen, fun h => ?_⟩, by simp [compileString], hmatch,
      ?_⟩
    · simp [compileString] at h
    · simp [compileString, PatternItem.tokens, hmatch]
  | false =>
    have hne : data ≠ [] := by
      rintro rfl
      rw [← hlen] at hpos
      exact absurd hpos (by simp)
    refine ⟨⟨.inl rfl, hpos, fun _ => hlen, fun _ => preKmp_table hne⟩, by simp [compileString],
      hmatch, ?_⟩
    simp [compileString, PatternItem.tokens, hmatch]

inductive Ready : List (PatternItem α) → Prop
  | trivial {item : PatternItem α} : item.type = .piNone → Ready [item]
  | items {items : List (PatternItem α)} : items ≠ [] → (∀ i ∈ items, Compiled i) → Linked items →
      Ready items

variable (e) in
def Compiles (toks : List (Token α)) (rest items : List (PatternItem α)) : Prop :=
  Ready items ∧ tokens true items = toks ++ rest.flatMap (tokensOf e)

theorem Compiles.cons {toks : List (Token α)} {result : List (PatternItem α)} {b : Bool}
    {items' : List (PatternItem α)} (h : Compiles e (tokens b items') rest result)
    (htoks : tokens b items' = toks ++ tokensOf e item) :
    Compiles e toks (item :: rest) result := by
  refine ⟨h.1, ?_⟩
  rw [h.2, htoks]
  simp

theorem pass2_spec (h : PassTwo directMatch items) (hrest : Todo e directMatch rest)
    (hne : items = [] → rest ≠ []) :
    Compiles e (tokens directMatch items) rest (pass2 e directMatch items rest) := by
  induction rest generalizing directMatch items with
  | nil =>
    have hitems : items ≠ [] := fun h => hne h rfl
    refine ⟨.items hitems h.compiled h.linked, ?_⟩
    cases items with
    | nil => exact absurd rfl hitems
    | cons i items => simp [pass2, tokens, lead]
  | cons item rest ih =>
    have hitem := hrest.parsed item (by simp)
    -- A string, whatever its kind.
    have hstring : ∀ data : List α, data.length = item.length → 0 < item.length →
        tokensOf e item = data.map .lit → Compiles e (tokens directMatch items) (item :: rest)
          (pass2 e true (items ++ [compileString directMatch item data]) rest) := by
      intro data hlen hpos htoks
      obtain ⟨hnew, htype, hmatch, hdata⟩ :=
        @compileString_spec _ _ directMatch _ data hlen hpos hitem.matchAny
      have hpush := h.push hnew htype
      rw [hmatch] at hpush
      refine (ih hpush (hrest.tail (fun hf => by simp at hf)) (by simp)).cons ?_
      rw [tokens_push htype, hdata, htoks]
    -- At a skip the item before has no `%`.
    have hdirect : item.isSkip → directMatch = true := by
      intro hskip
      cases hd : directMatch with
      | true => rfl
      | false => exact absurd hskip (hrest.head item (by simp) hd)
    rcases hitem.type with ht | ht | ht | ht
    · simp only [pass2, ht]
      refine hstring _ (hitem.search ht) (hitem.pos (by simp [ht])) ?_
      rw [tokensOf, ht]
    · simp only [pass2, ht]
      refine hstring _ (hitem.escaped ht) (hitem.pos (by simp [ht])) ?_
      rw [tokensOf, ht]
    · obtain rfl := hdirect (.inl ht)
      simp only [pass2, ht]
      have hnew : Compiled item := ⟨.inr (.inr ht), hitem.pos (by simp [ht]), fun h => absurd ht h,
        fun h => by simp [ht] at h⟩
      have hpush := h.push hnew (by simp [ht])
      rw [hitem.matchAny] at hpush
      refine (ih hpush (hrest.tail (fun hf => by simp at hf)) (by simp)).cons ?_
      rw [@tokens_push _ _ _ true (by simp [ht])]
      simp [PatternItem.tokens, tokensOf, ht, hitem.matchAny]
    · obtain rfl := hdirect (.inr ht)
      have htail : Todo e false rest := hrest.tail (fun _ => .inr ht)
      simp only [pass2, ht]
      split_ifs with hlen hitems hnil
      · have hnew : Compiled { item with type := .piSkipFixed, matchAny := true } :=
          ⟨.inr (.inr rfl), Nat.pos_of_ne_zero hlen, fun h => absurd rfl h, fun h => by simp at h⟩
        have hpush := h.push hnew (by simp)
        refine (ih hpush htail (by simp)).cons ?_
        rw [@tokens_push _ _ _ true (by simp)]
        simp [PatternItem.tokens, tokensOf, ht]
      · obtain ⟨items, last, rfl⟩ := (eq_nil_or_concat items).resolve_left hitems
        rw [concat_eq_append] at h ⊢
        rw [modify_last]
        refine (ih h.mark htail (by simp)).cons ?_
        rw [tokens_mark (h.last last (by simp)) _ true]
        simp [tokensOf, ht, not_not.1 hlen]
      · obtain rfl := not_not.1 hitems
        have hstart : PassTwo false ([] : List (PatternItem α)) :=
          ⟨by simp, IsChain.nil, by simp⟩
        refine (ih hstart htail (fun _ => hnil)).cons ?_
        simp [tokens, lead, tokensOf, ht, not_not.1 hlen]
      · obtain rfl := not_not.1 hitems
        obtain rfl := not_not.1 hnil
        refine ⟨.trivial rfl, ?_⟩
        simp [tokens, lead, PatternItem.tokens, tokensOf, ht, not_not.1 hlen]

theorem likeEvaluator_spec (pattern : List α) :
    match parse e pattern with
    | none => likeEvaluator e pattern = none
    | some toks => ∃ items, likeEvaluator e pattern = some (reset items) ∧ Ready items ∧
        Same (tokens true items) toks := by
  have hpending : Pending e [] PatternItem.zero pattern :=
    ⟨.inl ⟨rfl, rfl⟩, by simp, IsChain.nil, by simp⟩
  have hspec := pass1_spec hpending
  cases hparse : parse e pattern with
  | none =>
    rw [hparse] at hspec
    simp only [likeEvaluator]
    rw [show pass1 e pattern ([], PatternItem.zero) = none from hspec, Option.map_none]
  | some toks =>
    rw [hparse] at hspec
    obtain ⟨items, hpass, hone, hsame⟩ := hspec
    have hsame' : Same (items.flatMap (tokensOf e)) toks := hsame
    refine ⟨pass2 e true [] items, by rw [likeEvaluator, hpass, Option.map_some], ?_⟩
    rcases hone with rfl | ⟨hne, hparsed, hchain⟩
    · exact ⟨.trivial rfl, hsame'⟩
    · have hstart : PassTwo true ([] : List (PatternItem α)) := ⟨by simp, IsChain.nil, by simp⟩
      obtain ⟨hready, htoks⟩ := pass2_spec hstart ⟨hparsed, hchain, by simp⟩ (fun _ => hne)
      refine ⟨hready, ?_⟩
      rw [htoks]
      exact hsame'

end Pass

end Firebird.Jrd.Evl
