import Firebird.Lib.Kmp

/-!
# Evaluating LIKE

`LikeEvaluator`: the pattern is compiled to items in two passes, and a string is matched chunk by
chunk, with branches that each are at some place of some item. What is allocated for the items is
not modelled, and `skipCount` is `length`, as they share their place in the union.
-/
namespace Firebird.Jrd.Evl

open Lib Kmp

inductive PatternItemType
  | piNone
  | piSearch
  | piSkipFixed
  | piDirectMatch
  | piEscapedString
  | piSkipMore
  deriving DecidableEq

inductive MatchType
  | matchNone
  | matchFixed
  | matchAny
  deriving DecidableEq

variable {α : Type}

/-- `PatternItem`; the data of a string that is not compiled yet is the pattern from there on. -/
structure PatternItem (α : Type) where
  type : PatternItemType
  length : Nat
  data : List α
  kmpNext : List (Option Nat)
  matchAny : Bool

/-- An item as `grow` makes it. -/
def PatternItem.zero : PatternItem α := ⟨.piNone, 0, [], [], false⟩

structure BranchItem where
  pattern : Nat
  offset : Nat

structure Settings (α : Type) where
  escapeChar : α
  useEscape : Bool
  sqlMatchAny : α
  sqlMatchOne : α

structure LikeEvaluator (α : Type) where
  patternItems : List (PatternItem α)
  branches : List BranchItem
  matchType : MatchType

def addEscaped (data : List α) (items : List (PatternItem α)) (item : PatternItem α) :
    List (PatternItem α) × PatternItem α :=
  match item.type with
  | .piSkipFixed | .piSkipMore =>
    (items ++ [item], ⟨.piEscapedString, 1, data, [], false⟩)
  | .piNone => (items, { item with type := .piEscapedString, data, length := 1 })
  | .piSearch => (items, { item with type := .piEscapedString, length := item.length + 1 })
  | .piEscapedString => (items, { item with length := item.length + 1 })
  | .piDirectMatch => (items, item)

def addMatchAny (items : List (PatternItem α)) (item : PatternItem α) :
    List (PatternItem α) × PatternItem α :=
  match item.type with
  | .piSearch | .piEscapedString =>
    (items ++ [item], ⟨.piSkipMore, 0, [], [], false⟩)
  | .piSkipFixed | .piNone => (items, { item with type := .piSkipMore })
  | .piSkipMore | .piDirectMatch => (items, item)

def addMatchOne (items : List (PatternItem α)) (item : PatternItem α) :
    List (PatternItem α) × PatternItem α :=
  match item.type with
  | .piSearch | .piEscapedString =>
    (items ++ [item], ⟨.piSkipFixed, 1, [], [], false⟩)
  | .piNone => (items, { item with type := .piSkipFixed, length := 1 })
  | .piSkipFixed | .piSkipMore => (items, { item with length := item.length + 1 })
  | .piDirectMatch => (items, item)

def addOther (data : List α) (items : List (PatternItem α)) (item : PatternItem α) :
    List (PatternItem α) × PatternItem α :=
  match item.type with
  | .piSkipFixed | .piSkipMore =>
    (items ++ [item], ⟨.piSearch, 1, data, [], false⟩)
  | .piNone => (items, { item with type := .piSearch, data, length := 1 })
  | .piSearch | .piEscapedString => (items, { item with length := item.length + 1 })
  | .piDirectMatch => (items, item)

variable [DecidableEq α] (e : Settings α)

/-- PASS1; `none` is `isc_like_escape_invalid`. -/
def pass1 : List α → List (PatternItem α) × PatternItem α → Option (List (PatternItem α))
  | [], (items, item) => some (items ++ [item])
  | [c], (items, item) =>
    if e.useEscape ∧ c = e.escapeChar then none
    else if c = e.sqlMatchAny then pass1 [] (addMatchAny items item)
    else if c = e.sqlMatchOne then pass1 [] (addMatchOne items item)
    else pass1 [] (addOther [c] items item)
  | c :: d :: rest, (items, item) =>
    if e.useEscape ∧ c = e.escapeChar then
      if d = e.escapeChar ∨ d = e.sqlMatchAny ∨ d = e.sqlMatchOne then
        pass1 rest (addEscaped (c :: d :: rest) items item)
      else none
    else if c = e.sqlMatchAny then pass1 (d :: rest) (addMatchAny items item)
    else if c = e.sqlMatchOne then pass1 (d :: rest) (addMatchOne items item)
    else pass1 (d :: rest) (addOther (c :: d :: rest) items item)

/-- The loop of `preKmp`, over the letters from the `i`-th one on. -/
def preKmpLoop (x : List α) : List α → Option Nat → List (Option Nat) → List (Option Nat)
  | [], _, kmpNext => kmpNext
  | [c], j, kmpNext => kmpNext ++ [some (advance (fall x kmpNext c (x.length + 1) j))]
  | c :: d :: rest, j, kmpNext =>
    let j := advance (fall x kmpNext c (x.length + 1) j)
    let entry := if some d = x[j]? then kmpNext.getD j none else some j
    preKmpLoop x (d :: rest) (some j) (kmpNext ++ [entry])

/-- `preKmp`, for a string that is not empty. -/
def preKmp (x : List α) : List (Option Nat) := preKmpLoop x x none [none]

def unescape : Nat → List α → List α
  | 0, _ => []
  | _, [] => []
  | n + 1, c :: curPos =>
    if e.useEscape ∧ c = e.escapeChar then
      match curPos with
      | [] => []
      | d :: curPos => d :: unescape n curPos
    else c :: unescape n curPos

/-- A string of PASS2: the first one after `%` is searched for. -/
def compileString (directMatch : Bool) (item : PatternItem α) (data : List α) : PatternItem α :=
  if directMatch then { item with type := .piDirectMatch, data := data }
  else { item with type := .piSearch, data := data, kmpNext := preKmp data }

def pass2 : Bool → List (PatternItem α) → List (PatternItem α) → List (PatternItem α)
  | _, items, [] => items
  | directMatch, items, item :: rest =>
    match item.type with
    | .piEscapedString =>
      pass2 true (items ++ [compileString directMatch item (unescape e item.length item.data)]) rest
    | .piSearch =>
      pass2 true (items ++ [compileString directMatch item (item.data.take item.length)]) rest
    | .piSkipMore =>
      if item.length ≠ 0 then
        pass2 false (items ++ [{ item with type := .piSkipFixed, matchAny := true }]) rest
      else if items ≠ [] then
        pass2 false (items.modify (items.length - 1) ({ · with matchAny := true })) rest
      else if rest ≠ [] then pass2 false [] rest
      else [{ item with type := .piNone, matchAny := true }]
    | _ => pass2 directMatch (items ++ [item]) rest

def reset (items : List (PatternItem α)) : LikeEvaluator α :=
  match items.head? with
  | none => ⟨items, [], .matchNone⟩
  | some item =>
    if item.type = .piNone then
      ⟨items, [], if item.matchAny then .matchAny else .matchFixed⟩
    else ⟨items, [⟨0, 0⟩], .matchNone⟩

def likeEvaluator (pattern : List α) : Option (LikeEvaluator α) :=
  (pass1 e pattern ([], PatternItem.zero)).map fun items => reset (pass2 e true [] items)

/-- What the loop over the branches ends with: the next character, or the end of the call. -/
inductive Next
  | go (branches : List BranchItem) (candidate : Bool)
  | stop (matchType : MatchType) (more : Bool)

section

variable (items : List (PatternItem α))

/-- The loop over the branches, for one character. The branches in front of the current one are
`done`; `candidate` says that the character is a `finishCandidate`. -/
def branchLoop (c : α) (isLast : Bool) :
    List BranchItem → List BranchItem → Bool → Next
  | done, [], candidate => .go done candidate
  | done, branch :: todo, candidate =>
    match items[branch.pattern]? with
    | none => .go (done ++ branch :: todo) candidate
    | some item =>
      if item.type = .piDirectMatch ∧ item.data[branch.offset]? ≠ some c then
        -- Terminate matching branch.
        if done ++ todo = [] then .stop .matchNone false
        else branchLoop c isLast done todo candidate
      else if item.type = .piDirectMatch ∨ item.type = .piSkipFixed then
        if branch.offset + 1 ≥ item.length then
          -- Switch to next subpattern or finish matching.
          if item.matchAny then
            if branch.pattern + 1 ≥ items.length then .stop .matchAny false
            else .go [⟨branch.pattern + 1, 0⟩] candidate
          else if branch.pattern + 1 ≥ items.length then
            if done ++ todo = [] then
              if isLast then .stop .matchFixed true else .stop .matchNone false
            else branchLoop c isLast done todo true
          else branchLoop c isLast (done ++ [⟨branch.pattern + 1, 0⟩]) todo candidate
        else branchLoop c isLast (done ++ [⟨branch.pattern, branch.offset + 1⟩]) todo candidate
      else if item.type = .piSearch then
        let offset := advance (fall item.data item.kmpNext c (item.length + 1) (some branch.offset))
        if offset ≥ item.length then
          let back := (item.kmpNext.getD offset none).getD 0
          match items[branch.pattern + 1]? with
          | none =>
            if item.matchAny then .stop .matchAny false
            else branchLoop c isLast (done ++ [⟨branch.pattern, back⟩]) todo true
          | some nextItem =>
            if nextItem.type = .piSearch then
              branchLoop c isLast (done ++ [⟨branch.pattern + 1, 0⟩]) todo candidate
            else
              branchLoop c isLast (done ++ [⟨branch.pattern, back⟩, ⟨branch.pattern + 1, 0⟩]) todo
                candidate
        else branchLoop c isLast (done ++ [⟨branch.pattern, offset⟩]) todo candidate
      else branchLoop c isLast (done ++ [branch]) todo candidate

def chunkLoop (matchType : MatchType) : List α → List BranchItem → Bool →
    List BranchItem × MatchType × Bool
  | [], branches, candidate => (branches, if candidate then .matchFixed else matchType, true)
  | c :: data, branches, _ =>
    match branchLoop items c data.isEmpty [] branches false with
    | .stop matchType more => ([], matchType, more)
    | .go branches candidate => chunkLoop matchType data branches candidate

end

/-- `processNextChunk`: whether more data can change the result, and the evaluator. -/
def processNextChunk (ev : LikeEvaluator α) (data : List α) : Bool × LikeEvaluator α :=
  if data = [] then (ev.branches ≠ [] ∨ ev.matchType = .matchFixed, ev)
  else
    let matchType := if ev.matchType = .matchFixed then .matchNone else ev.matchType
    if ev.branches = [] then (false, { ev with matchType })
    else
      let (branches, matchType, more) :=
        chunkLoop ev.patternItems matchType data ev.branches false
      (more, { ev with branches, matchType })

def getResult (ev : LikeEvaluator α) : Bool := ev.matchType ≠ .matchNone

def feed (ev : LikeEvaluator α) : List (List α) → LikeEvaluator α
  | [] => ev
  | data :: chunks =>
    let (more, ev) := processNextChunk ev data
    if more then feed ev chunks else ev

end Firebird.Jrd.Evl
