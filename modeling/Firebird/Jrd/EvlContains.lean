import Firebird.Jrd.EvlKmp
import Firebird.Lib.Bounds

/-!
# Evaluating CONTAINING

`ContainsEvaluator` and `preKmp`, which builds its jump table in memory that it gets as it is. Every
access goes through `read` and `write`, so that a result comes with whether all indices lay in their
arrays; a loop that does not end in the steps it is given counts as one that goes astray.
-/
namespace Firebird.Jrd.Evl.Contains

open Lib Kmp Bounds List

variable {α : Type} [DecidableEq α]

/-- `while (j > -1 && x[i] != x[j]) j = kmpNext[j]`, where `c` reads `x[i]`. -/
def fallBack (x : List α) (kmpNext : List (Option Nat)) (c : Watched (Option α)) :
    Nat → Option Nat → Watched (Option Nat)
  | _, none => pure none
  | 0, some j => ⟨some j, false⟩
  | fuel + 1, some j => do
    let xi ← c
    let xj ← read x j
    if xj = xi then pure (some j)
    else
      let next ← read kmpNext j
      fallBack x kmpNext c fuel next.join

/-- The first loop of `preKmp`, with the number of rounds left. -/
def preKmpLoop (x : List α) :
    Nat → Nat → Option Nat → List (Option Nat) → Watched (Nat × Option Nat × List (Option Nat))
  | 0, i, j, kmpNext => pure (i, j, kmpNext)
  | rounds + 1, i, j, kmpNext => do
    let j ← fallBack x kmpNext (read x i) (x.length + 1) j
    let xi ← read x (i + 1)
    let xj ← read x (advance j)
    let entry ← if xi = xj then read kmpNext (advance j) else pure (some (some (advance j)))
    let kmpNext ← write kmpNext (i + 1) entry.join
    preKmpLoop x rounds (i + 1) (some (advance j)) kmpNext

def preKmp (x : List α) (kmpNext : List (Option Nat)) : Watched (List (Option Nat)) := do
  let kmpNext ← write kmpNext 0 none
  let (i, j, kmpNext) ← preKmpLoop x (x.length - 1) 0 none kmpNext
  let j ← fallBack x kmpNext (read x i) (x.length + 1) j
  write kmpNext (i + 1) (some (advance j))

structure ContainsEvaluator (α : Type) where
  patternStr : List α
  kmpNext : List (Option Nat)
  offset : Nat
  result : Bool

/-- The constructor; `memory` is what `alloc` returns holds. -/
def containsEvaluator (patternStr : List α) (memory : Nat → Option Nat) :
    Watched (ContainsEvaluator α) := do
  let kmpNext ← preKmp patternStr ((List.range (patternStr.length + 1)).map memory)
  pure ⟨patternStr, kmpNext, 0, patternStr.length = 0⟩

def chunkLoop (ev : ContainsEvaluator α) : List α → Nat → Watched (Bool × ContainsEvaluator α)
  | [], offset => pure (true, { ev with offset })
  | c :: data, offset => do
    let j ← fallBack ev.patternStr ev.kmpNext (pure (some c)) (ev.patternStr.length + 1)
      (some offset)
    if advance j ≥ ev.patternStr.length then
      pure (false, { ev with offset := advance j, result := true })
    else chunkLoop ev data (advance j)

def processNextChunk (ev : ContainsEvaluator α) (data : List α) :
    Watched (Bool × ContainsEvaluator α) :=
  if ev.result then pure (false, ev) else chunkLoop ev data ev.offset

def getResult (ev : ContainsEvaluator α) : Bool := ev.result

def feed (ev : ContainsEvaluator α) : List (List α) → Watched (ContainsEvaluator α)
  | [] => pure ev
  | data :: chunks => do
    let (_, ev) ← processNextChunk ev data
    feed ev chunks

variable {x w : List α} {kmpNext : List (Option Nat)} {c : α} {i n fuel : Nat} {j : Option Nat}

theorem fallBack_eq (hstrong : ∀ q < n, Strong x kmpNext q) (hx : n ≤ x.length)
    (hnext : n ≤ kmpNext.length) (hj : ∀ q ∈ j, q < n) (hfuel : ∀ q ∈ j, q < fuel) :
    fallBack x kmpNext (pure (some c)) fuel j = pure (fall x kmpNext c fuel j) := by
  induction fuel generalizing j with
  | zero =>
    cases j with
    | none => rfl
    | some q => exact absurd (hfuel q rfl) (Nat.not_lt_zero q)
  | succ fuel ih =>
    cases j with
    | none => rfl
    | some q =>
      have hq := hj q rfl
      rw [fallBack, fall, pure_bind, read_of_lt (hq.trans_le hx), pure_bind]
      split_ifs with hc
      · rfl
      have hcell : kmpNext[q]?.join = kmpNext.getD q none := by
        rw [getD_eq_getElem?_getD]
        cases kmpNext[q]? <;> rfl
      rw [read_of_lt (hq.trans_le hnext), pure_bind, hcell]
      have hlt : ∀ k ∈ kmpNext.getD q none, k < q := by
        intro k hk
        have hentry := hstrong q hq
        rw [Strong, Option.mem_def.1 hk] at hentry
        exact hentry.1.1
      refine ih (fun k hk => (hlt k hk).trans hq) fun k hk => ?_
      have := hlt k hk
      have := hfuel q rfl
      omega

/-- The table up to the entry `i`, and the longest proper end of the letters before. -/
structure Filled (x : List α) (kmpNext : List (Option Nat)) (i : Nat) (j : Option Nat) : Prop where
  length : kmpNext.length = x.length + 1
  strong : ∀ q < i + 1, Strong x kmpNext q
  longest : Greatest (fun k => k < i ∧ Ends x (x.take i) k) j

theorem Filled.fallBack (h : Filled x kmpNext i j) (hi : i < x.length) :
    ∃ j', fallBack x kmpNext (read x i) (x.length + 1) j = pure j' ∧
      Greatest (fun k => k < i + 1 ∧ Ends x (x.take (i + 1)) k) (some (advance j')) := by
  have hj : ∀ q ∈ j, q < i ∧ Ends x (x.take i) q := by
    intro q hq
    obtain rfl : j = some q := hq
    exact h.longest.1
  refine ⟨fall x kmpNext x[i] (x.length + 1) j, ?_, ?_⟩
  · rw [read_of_lt hi, getElem?_eq_getElem hi]
    exact fallBack_eq h.strong hi (by rw [h.length]; omega) (fun q hq => by have := hj q hq; omega)
      fun q hq => by have := hj q hq; omega
  · rw [← take_append_getElem hi]
    refine advance_spec hi.le (fall_spec h.strong ?_ ?_ ?_)
    · intro q hq
      obtain ⟨hlt, hends⟩ := hj q hq
      exact ⟨by omega, hlt, hends⟩
    · intro k hk
      cases j with
      | none => exact absurd ⟨hk.1, hk.2.1⟩ (h.longest k)
      | some j => exact ⟨j, rfl, h.longest.2 k ⟨hk.1, hk.2.1⟩⟩
    · intro q hq
      have := hj q hq
      omega

omit [DecidableEq α] in
theorem strong_set {q : Nat} (hq : q ≠ i) (entry : Option Nat) :
    Strong x (kmpNext.set i entry) q ↔ Strong x kmpNext q := by
  rw [Strong, Strong, getD_eq_getElem?_getD, getD_eq_getElem?_getD, getElem?_set_ne hq.symm]

theorem getD_set_self (hi : i < kmpNext.length) (entry : Option Nat) :
    (kmpNext.set i entry).getD i none = entry := by
  rw [getD_eq_getElem?_getD, getElem?_set_self hi, Option.getD_some]

theorem Filled.round (h : Filled x kmpNext i j) (hi : i + 1 < x.length) (rounds : Nat) :
    ∃ j' kmpNext', Filled x kmpNext' (i + 1) j' ∧
      preKmpLoop x (rounds + 1) i j kmpNext = preKmpLoop x rounds (i + 1) j' kmpNext' := by
  obtain ⟨j', hfall, hgreat⟩ := h.fallBack (by omega)
  have hlt : advance j' < i + 1 := hgreat.1.1
  have hcell : kmpNext[advance j']?.join = kmpNext.getD (advance j') none := by
    rw [getD_eq_getElem?_getD]
    cases kmpNext[advance j']? <;> rfl
  refine ⟨some (advance j'), kmpNext.set (i + 1) (if x[i + 1]? = x[advance j']? then
    kmpNext.getD (advance j') none else some (advance j')), ⟨?_, ?_, hgreat⟩, ?_⟩
  · rw [length_set, h.length]
  · intro q hq
    by_cases heq : q = i + 1
    · subst heq
      refine strong_of_longest hgreat ((strong_set (by omega) _).2 (h.strong _ hlt)) ?_
      rw [getD_set_self (by rw [h.length]; omega), getD_eq_getElem?_getD,
        getD_eq_getElem?_getD, getElem?_set_ne (by omega)]
    · exact (strong_set heq _).2 (h.strong q (by omega))
  · rw [preKmpLoop, hfall, pure_bind, read_of_lt hi, pure_bind, read_of_lt (by omega), pure_bind]
    split_ifs with heq
    · rw [read_of_lt (by rw [h.length]; omega), pure_bind]
      dsimp only
      rw [hcell, write_of_lt (by rw [h.length]; omega), pure_bind]
    · rw [pure_bind]
      dsimp only
      rw [write_of_lt (by rw [h.length]; omega), pure_bind, Option.join_some]

theorem Filled.loop (h : Filled x kmpNext i j) {rounds : Nat} (hi : i + rounds + 1 = x.length) :
    ∃ j' kmpNext', Filled x kmpNext' (x.length - 1) j' ∧
      preKmpLoop x rounds i j kmpNext = pure (x.length - 1, j', kmpNext') := by
  induction rounds generalizing i j kmpNext with
  | zero =>
    obtain rfl : i = x.length - 1 := by omega
    exact ⟨j, kmpNext, h, rfl⟩
  | succ rounds ih =>
    obtain ⟨j', kmpNext', h', hround⟩ := h.round (by omega) rounds
    rw [hround]
    exact ih h' (by omega)

theorem preKmp_spec (hx : x ≠ []) (hlen : kmpNext.length = x.length + 1) :
    ∃ kmpNext', preKmp x kmpNext = pure kmpNext' ∧ kmpNext'.length = x.length + 1 ∧
      Table x kmpNext' := by
  have hpos := length_pos_iff.2 hx
  have hzero : Filled x (kmpNext.set 0 none) 0 none := by
    refine ⟨by rw [length_set, hlen], fun q hq => ?_, fun k hk => ?_⟩
    · obtain rfl : q = 0 := by omega
      rw [Strong, getD_set_self (by omega)]
      exact fun k hk => absurd hk.1 (Nat.not_lt_zero k)
    · exact absurd hk.1 (Nat.not_lt_zero k)
  obtain ⟨j, kmpNext', hfilled, hloop⟩ := @Filled.loop _ _ _ _ _ _ hzero (x.length - 1) (by omega)
  obtain ⟨j', hfall, hgreat⟩ := hfilled.fallBack (by omega)
  have hlast : x.length - 1 + 1 = x.length := by omega
  rw [hlast, take_length] at hgreat
  refine ⟨kmpNext'.set x.length (some (advance j')), ?_, ?_, ?_, ?_⟩
  · rw [preKmp, write_of_lt (by omega), pure_bind, hloop, pure_bind]
    simp only
    rw [hfall, pure_bind, hlast, write_of_lt (by rw [hfilled.length]; omega)]
  · rw [length_set, hfilled.length]
  · intro q hq
    exact (strong_set (by omega) _).2 (hfilled.strong q (by omega))
  · rw [getD_set_self (by rw [hfilled.length]; omega)]
    exact hgreat

theorem preKmp_nil (hlen : kmpNext.length = 1) :
    (preKmp ([] : List α) kmpNext).value = [none] ∧
      (preKmp ([] : List α) kmpNext).within = false := by
  obtain ⟨entry, rfl⟩ := length_eq_one_iff.1 hlen
  exact ⟨rfl, rfl⟩

/-- The evaluator after a text: the pattern occurs in it, or the offset is the length of the longest
front of the pattern that the text ends with. -/
structure Scans (x w : List α) (ev : ContainsEvaluator α) : Prop where
  patternStr : ev.patternStr = x
  length : ev.kmpNext.length = x.length + 1
  table : Table x ev.kmpNext
  result : ev.result = true ↔ x <:+: w
  longest : ev.result = false →
    Greatest (fun k => k < x.length ∧ Ends x w k) (some ev.offset)

variable {ev : ContainsEvaluator α}

theorem chunkLoop_spec (hpattern : ev.patternStr = x)
    (hlen : ev.kmpNext.length = x.length + 1) (htable : Table x ev.kmpNext)
    (hresult : ev.result = false) {data : List α} {offset : Nat} (hnot : ¬x <:+: w)
    (hlongest : Greatest (fun k => k < x.length ∧ Ends x w k) (some offset)) :
    ∃ more ev', chunkLoop ev data offset = pure (more, ev') ∧ Scans x (w ++ data) ev' ∧
      (more = !ev'.result) := by
  subst hpattern
  induction data generalizing w offset with
  | nil =>
    refine ⟨true, { ev with offset }, rfl, ?_, by simp [hresult]⟩
    rw [append_nil]
    exact ⟨rfl, hlen, htable, by simp [hresult, hnot], fun _ => hlongest⟩
  | cons c data ih =>
    have hself : ∀ q ∈ some offset, q < ev.patternStr.length ∧ Ends ev.patternStr w q := by
      intro q hq
      obtain rfl := Option.mem_some_iff.1 hq
      exact hlongest.1
    have hfuel : ∀ q ∈ some offset, q < ev.patternStr.length + 1 :=
      fun q hq => (hself q hq).1.trans (Nat.lt_succ_self _)
    have heq := @fallBack_eq α _ ev.patternStr ev.kmpNext c ev.patternStr.length _ (some offset)
      htable.strong le_rfl (by omega) (fun q hq => (hself q hq).1) hfuel
    have hfall := @fall_spec α _ ev.patternStr w ev.kmpNext c ev.patternStr.length
      ev.patternStr.length _ htable.strong (some offset)
      (fun q hq => ⟨(hself q hq).1, hself q hq⟩)
      (fun k hk => ⟨offset, rfl, hlongest.2 k ⟨hk.1, hk.2.1⟩⟩) hfuel
    have hnext := advance_spec le_rfl hfall
    rw [chunkLoop, heq, pure_bind]
    generalize advance (fall ev.patternStr ev.kmpNext c _ (some offset)) = offset' at hnext ⊢
    have happend : w ++ c :: data = w ++ [c] ++ data := by simp
    split_ifs with hge
    · -- the whole pattern is at the end
      obtain rfl : offset' = ev.patternStr.length := by have := hnext.1.1; omega
      have hend := hnext.1.2
      rw [Ends, take_length] at hend
      refine ⟨false, _, rfl, ⟨rfl, hlen, htable, ?_, by simp⟩, rfl⟩
      rw [happend]
      exact ⟨fun _ => hend.isInfix.trans (prefix_append _ _).isInfix, fun _ => rfl⟩
    · rw [happend]
      refine ih ?_ ⟨⟨by omega, hnext.1.2⟩, fun k hk => hnext.2 k ⟨by omega, hk.2⟩⟩
      rw [infix_concat_iff, not_or]
      refine ⟨fun hsuffix => hge (hnext.2 _ ⟨Nat.lt_succ_self _, ?_⟩), hnot⟩
      rwa [Ends, take_length]

theorem processNextChunk_spec (h : Scans x w ev) (data : List α) :
    ∃ more ev', processNextChunk ev data = pure (more, ev') ∧ Scans x (w ++ data) ev' ∧
      (more = !ev'.result) := by
  rw [processNextChunk]
  cases hresult : ev.result with
  | true =>
    refine ⟨false, ev, rfl, ⟨h.patternStr, h.length, h.table, ?_, fun hf => ?_⟩, by simp [hresult]⟩
    · rw [hresult]
      exact ⟨fun _ => (h.result.1 hresult).trans (prefix_append _ _).isInfix, fun _ => rfl⟩
    · rw [hresult] at hf
      cases hf
  | false =>
    have hnot : ¬x <:+: w := fun hin => by rw [h.result.2 hin] at hresult; cases hresult
    exact chunkLoop_spec h.patternStr h.length h.table hresult hnot (h.longest hresult)

theorem feed_spec (h : Scans x w ev) (chunks : List (List α)) :
    ∃ ev', feed ev chunks = pure ev' ∧ Scans x (w ++ chunks.flatten) ev' := by
  induction chunks generalizing w ev with
  | nil => exact ⟨ev, rfl, by simpa using h⟩
  | cons data chunks ih =>
    obtain ⟨more, ev', hnext, h', -⟩ := processNextChunk_spec h data
    obtain ⟨ev'', hfeed, h''⟩ := ih h'
    refine ⟨ev'', ?_, by simpa using h''⟩
    rw [feed, hnext, pure_bind]
    exact hfeed

theorem containsEvaluator_spec (patternStr : List α) (memory : Nat → Option Nat) :
    Scans patternStr [] (containsEvaluator patternStr memory).value ∧
      ((containsEvaluator patternStr memory).within = true ↔ patternStr ≠ []) := by
  by_cases hx : patternStr = []
  · subst hx
    obtain ⟨hvalue, hwithin⟩ := @preKmp_nil α _ ((List.range 1).map memory) rfl
    have hev : containsEvaluator ([] : List α) memory = ⟨⟨[], [none], 0, true⟩, false⟩ :=
      Watched.ext (congrArg (fun kmpNext => ContainsEvaluator.mk [] kmpNext 0 true) hvalue)
        ((Bool.and_true _).trans hwithin)
    rw [hev]
    refine ⟨⟨rfl, rfl, ⟨fun q hq => absurd hq (Nat.not_lt_zero q), fun k hk => ?_⟩, by simp,
      by simp⟩, by simp⟩
    exact absurd hk.1 (Nat.not_lt_zero k)
  · obtain ⟨kmpNext, hpre, hlen, htable⟩ := @preKmp_spec _ _ _
      ((List.range (patternStr.length + 1)).map memory) hx (by simp)
    have hpos := length_pos_iff.2 hx
    rw [containsEvaluator, hpre, pure_bind]
    refine ⟨⟨rfl, hlen, htable, ?_, fun _ => ⟨⟨hpos, ends_zero⟩, fun k hk => ?_⟩⟩, by simp [hx]⟩
    · simp
    · have := IsSuffix.length_le hk.2
      rw [length_take, length_nil] at this
      omega

structure Correct (patternStr : List α) (memory : Nat → Option Nat) : Prop where
  /-- The constructor keeps to what is allocated. -/
  within : (containsEvaluator patternStr memory).within = true
  length : (containsEvaluator patternStr memory).value.kmpNext.length = patternStr.length + 1
  table : Table patternStr (containsEvaluator patternStr memory).value.kmpNext
  /-- And so does every call. -/
  feed_within (chunks : List (List α)) :
    (feed (containsEvaluator patternStr memory).value chunks).within = true
  result (chunks : List (List α)) :
    getResult (feed (containsEvaluator patternStr memory).value chunks).value = true ↔
      patternStr <:+: chunks.flatten

/-- The evaluator does what is expected exactly if the pattern is not empty: else `preKmp` writes
behind the only entry of its table, and all the rest holds. -/
theorem containsEvaluator_correct (patternStr : List α) (memory : Nat → Option Nat) :
    Correct patternStr memory ↔ patternStr ≠ [] := by
  obtain ⟨hscans, hwithin⟩ := containsEvaluator_spec patternStr memory
  refine ⟨fun h => hwithin.1 h.within, fun h => ⟨hwithin.2 h, hscans.length, hscans.table, ?_, ?_⟩⟩
  · intro chunks
    obtain ⟨ev, hfeed, -⟩ := feed_spec hscans chunks
    rw [hfeed, Watched.within_pure]
  · intro chunks
    obtain ⟨ev, hfeed, h⟩ := feed_spec hscans chunks
    rw [hfeed, Watched.value_pure]
    exact h.result

/-- An empty pattern. -/
theorem containsEvaluator_astray : ¬Correct ([] : List UInt8) fun _ => none :=
  fun h => Bool.false_ne_true h.within

end Firebird.Jrd.Evl.Contains
