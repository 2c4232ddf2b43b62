import Firebird.Jrd.EvlContains
import Firebird.Jrd.EvlRun
import Firebird.Lib.Stream

/-!
# When evaluators ask for more

`StartsEvaluator`, and for all three evaluators that a caller who stops reading when
`processNextChunk` returns false has the right result, and that one who asks with an empty chunk is
not told to go on when nothing can change.
-/
namespace Firebird.Jrd.Evl

open Lib Stream List

variable {α : Type}

namespace Starts

structure StartsEvaluator (α : Type) where
  offset : Nat
  patternStr : List α
  result : Bool

def startsEvaluator (patternStr : List α) : StartsEvaluator α := ⟨0, patternStr, true⟩

def getResult (ev : StartsEvaluator α) : Bool :=
  ev.offset ≥ ev.patternStr.length && ev.result

def processNextChunk [DecidableEq α] (ev : StartsEvaluator α) (data : List α) :
    Bool × StartsEvaluator α :=
  if ¬ev.result ∨ ev.offset ≥ ev.patternStr.length then (false, ev)
  else
    let compLength := if data.length < ev.patternStr.length - ev.offset then data.length
      else ev.patternStr.length - ev.offset
    if data.take compLength ≠ (ev.patternStr.drop ev.offset).take compLength then
      (false, { ev with result := false })
    else
      (ev.offset + compLength < ev.patternStr.length,
        { ev with offset := ev.offset + compLength })

variable {x w : List α} {ev : StartsEvaluator α}

inductive Reads (x w : List α) (ev : StartsEvaluator α) : Prop
  | failed (hpattern : ev.patternStr = x) (hresult : ev.result = false) (hnot : ¬x <+: w)
      (hwas : ¬w <+: x)
  | found (hpattern : ev.patternStr = x) (hresult : ev.result = true)
    (hoffset : ev.offset = x.length)
      (hfound : x <+: w)
  | going (hpattern : ev.patternStr = x) (hresult : ev.result = true)
      (hoffset : ev.offset = w.length) (hlt : w.length < x.length) (hfront : w <+: x)

variable [DecidableEq α]

theorem Reads.step (h : Reads x w ev) (data : List α) :
    Reads x (w ++ data) (processNextChunk ev data).2 := by
  cases h with
  | failed hpattern hresult hnot hwas =>
    have hsame : processNextChunk ev data = (false, ev) := by simp [processNextChunk, hresult]
    rw [hsame]
    refine .failed hpattern hresult (fun hin => ?_) fun hin =>
      hwas ((prefix_append w data).trans hin)
    rcases prefix_or_prefix_of_prefix hin (prefix_append w data) with hxw | hwx
    · exact hnot hxw
    · exact hwas hwx
  | found hpattern hresult hoffset hfound =>
    have hsame : processNextChunk ev data = (false, ev) := by
      simp [processNextChunk, hpattern, hoffset]
    rw [hsame]
    exact .found hpattern hresult hoffset (hfound.trans (prefix_append w data))
  | going hpattern hresult hoffset hlt hfront =>
    obtain ⟨t, rfl⟩ := hfront
    rw [length_append] at hlt
    have hdrop : ev.patternStr.drop ev.offset = t := by rw [hpattern, hoffset, drop_left]
    have hlen : ev.patternStr.length - ev.offset = t.length := by
      rw [hpattern, hoffset, length_append, Nat.add_sub_cancel_left]
    have hgo : ¬(¬ev.result ∨ ev.offset ≥ ev.patternStr.length) := by
      rintro (hfailed | hend)
      · exact hfailed hresult
      · rw [hpattern, hoffset, length_append] at hend
        omega
    rw [processNextChunk, if_neg hgo, hdrop, hlen]
    rcases Nat.lt_or_ge data.length t.length with hshort | hlong
    · -- the chunk ends within the pattern
      simp only [if_pos hshort, take_length]
      split_ifs with hne
      · refine .failed hpattern rfl (fun hin => ?_) fun hin => ?_
        · have := ((prefix_append_right_inj w).1 hin).length_le
          omega
        · exact hne (prefix_iff_eq_take.1 ((prefix_append_right_inj w).1 hin))
      · refine .going hpattern hresult (by simp [hoffset]) (by simp; omega) ?_
        rw [prefix_append_right_inj, prefix_iff_eq_take]
        exact not_not.1 hne
    · simp only [if_neg (Nat.not_lt.2 hlong), take_length]
      split_ifs with hne
      · refine .failed hpattern rfl (fun hin => ?_) fun hin => ?_
        · exact hne (prefix_iff_eq_take.1 ((prefix_append_right_inj w).1 hin)).symm
        · have hpre := (prefix_append_right_inj w).1 hin
          have heq := hpre.eq_of_length_le hlong
          subst heq
          exact hne take_length
      · refine .found hpattern hresult (by simp [hoffset]) ?_
        rw [prefix_append_right_inj, prefix_iff_eq_take]
        exact (not_not.1 hne).symm

theorem processNextChunk_stop {data : List α} (hstop : (processNextChunk ev data).1 = false)
    (hresult : (processNextChunk ev data).2.result = true) :
    (processNextChunk ev data).2.patternStr.length ≤ (processNextChunk ev data).2.offset := by
  revert hstop hresult
  fun_cases processNextChunk ev data with
  | case1 h => exact fun _ hresult => h.resolve_left (not_not.2 hresult)
  | case2 => exact fun _ hresult => absurd hresult Bool.false_ne_true
  | case3 => exact fun hstop _ => Nat.not_lt.1 (of_decide_eq_false hstop)

theorem tracks (x : List α) :
    Tracks processNextChunk getResult (Reads x) (x <+: ·) where
  step data h := h.step data
  result h := by
    cases h with
    | failed _ hresult hnot _ => simp [getResult, hresult, hnot]
    | found hpattern hresult hoffset hfound => simp [getResult, hpattern, hresult, hoffset, hfound]
    | going hpattern hresult hoffset hlt hfront =>
      have hnot : ¬x <+: _ := fun hin => hin.length_le.not_gt hlt
      simp [getResult, hpattern, hoffset, hnot, Nat.not_le.2 hlt]
  settles data h hstop t := by
    cases h.step data with
    | failed _ _ hnot hwas =>
      refine iff_of_false (fun hin => ?_) hnot
      rcases prefix_or_prefix_of_prefix hin (prefix_append _ t) with hxw | hwx
      · exact hnot hxw
      · exact hwas hwx
    | found _ _ _ hfound => exact iff_of_true (hfound.trans (prefix_append _ t)) hfound
    | going hpattern hresult hoffset hlt _ =>
      have hend := processNextChunk_stop hstop hresult
      rw [hpattern, hoffset] at hend
      omega
  asks h hmore := by
    cases h with
    | failed _ hresult _ _ => simp [processNextChunk, hresult] at hmore
    | found hpattern _ hoffset _ => simp [processNextChunk, hpattern, hoffset] at hmore
    | going _ _ _ hlt hfront =>
      obtain ⟨t, rfl⟩ := hfront
      exact ⟨t, fun hiff => (hiff.1 prefix_rfl).length_le.not_gt hlt⟩

end Starts

namespace Contains

variable {x w : List α} [DecidableEq α]

theorem tracks (x : List α) :
    Tracks (fun ev data => (processNextChunk ev data).value) getResult (Scans x) (x <:+: ·) where
  step data h := by
    obtain ⟨more, ev', hnext, h', -⟩ := processNextChunk_spec h data
    rw [hnext]
    exact h'
  result h := h.result
  settles data h hstop t := by
    obtain ⟨more, ev', hnext, h', rfl⟩ := processNextChunk_spec h data
    have hresult : (!ev'.result) = false := by rwa [hnext] at hstop
    rw [Bool.not_eq_false'] at hresult
    have hfound := h'.result.1 hresult
    exact iff_of_true (hfound.trans (prefix_append _ t).isInfix) hfound
  asks h hmore := by
    obtain ⟨more, ev', hnext, h', rfl⟩ := processNextChunk_spec h []
    rw [hnext] at hmore
    rw [append_nil] at h'
    refine ⟨x, fun hiff => ?_⟩
    have hfound := h'.result.2 (hiff.1 (suffix_append _ _).isInfix)
    simp [hfound] at hmore

end Contains

/-- A pattern without `%`. -/
def NoAny (p : List (Token α)) : Prop := .any ∉ p

theorem NoAny.length_eq {p : List (Token α)} {s : List α} (h : NoAny p) (hlike : Like p s) :
    s.length = p.length := by
  induction p generalizing s with
  | nil => rw [Like] at hlike; rw [hlike]; rfl
  | cons tok p ih =>
    obtain ⟨htok, hp⟩ := not_or.1 (mem_cons.not.1 h)
    cases tok with
    | lit c =>
      obtain ⟨t, rfl, ht⟩ := hlike
      exact congrArg (· + 1) (ih hp ht)
    | one =>
      obtain ⟨c, t, rfl, ht⟩ := hlike
      exact congrArg (· + 1) (ih hp ht)
    | any => exact absurd rfl htok

/-- Behind the last `%` is a character that must match, or there is no `%`. -/
inductive Bounded : List (Token α) → Prop
  | fixed {p : List (Token α)} : NoAny p → Bounded p
  | lit {q : List (Token α)} (front : List (Token α)) (l : α) :
      NoAny q → Bounded (front ++ .lit l :: q)

theorem Bounded.spoil [Nontrivial α] {p : List (Token α)} {w : List α} (h : Bounded p)
    (hlike : Like p w) : ∃ t, ¬Like p (w ++ t) := by
  cases h with
  | fixed hp =>
    obtain ⟨c, -⟩ := exists_pair_ne α
    refine ⟨[c], fun hmore => ?_⟩
    have hlen := hp.length_eq hlike
    have hlen' := hp.length_eq hmore
    rw [length_append, length_singleton] at hlen'
    omega
  | @lit q front l hq =>
    obtain ⟨c, hc⟩ := exists_ne l
    refine ⟨replicate (q.length + 1) c, fun hmore => hc ?_⟩
    -- the character that must match falls on the first one that was added
    obtain ⟨a, u, heq, -, t, rfl, ht⟩ := like_append.1 hmore
    have hlen := hq.length_eq ht
    have hright := (append_inj' heq (by simp [hlen])).2
    exact (cons_eq_cons.1 hright).1

theorem exists_like [Nonempty α] (p : List (Token α)) : ∃ s, Like p s := by
  induction p with
  | nil => exact ⟨[], rfl⟩
  | cons tok p ih =>
    obtain ⟨s, hs⟩ := ih
    cases tok with
    | lit c => exact ⟨c :: s, s, rfl, hs⟩
    | one => exact ⟨Classical.arbitrary α :: s, _, s, rfl, hs⟩
    | any => exact ⟨s, [], s, rfl, hs⟩

/-- There is no `%` at the end. -/
def EndsFixed (items : List (PatternItem α)) : Prop :=
  ∃ item ∈ items.getLast?, item.matchAny = false

variable {items rest : List (PatternItem α)} {item : PatternItem α} {c : α}

theorem endsFixed_of_getElem? {n : Nat} (hitem : items[n]? = some item)
    (hlast : n + 1 ≥ items.length) (hany : item.matchAny = false) : EndsFixed items := by
  obtain ⟨hlt, rfl⟩ := List.getElem?_eq_some_iff.1 hitem
  refine ⟨_, ?_, hany⟩
  rw [getLast?_eq_getElem?, show items.length - 1 = n by omega]
  exact hitem

theorem noAny_tokens (hany : item.matchAny = false) : NoAny item.tokens := by
  rw [NoAny, PatternItem.tokens, hany]
  cases item.type <;> simp

theorem Bounded.search (hitem : Compiled item) (hsearch : item.type = .piSearch)
    (h : Bounded ((item :: rest).flatMap (·.tokens))) (front : List (Token α)) :
    Bounded (front ++ (item :: rest).flatMap (·.tokens)) := by
  have hlen := hitem.data (by simp [hsearch])
  have hpos := hitem.pos
  obtain ⟨l, data, hdata⟩ := exists_cons_of_length_pos (hlen.symm ▸ hpos)
  have hlit : ∃ q, (item :: rest).flatMap (·.tokens) = .lit l :: q := by
    rw [tokens_search hsearch, hdata]
    exact ⟨_, rfl⟩
  generalize (item :: rest).flatMap (·.tokens) = p at h hlit ⊢
  cases h with
  | fixed hp =>
    obtain ⟨q, rfl⟩ := hlit
    exact .lit front l fun hq => hp (mem_cons_of_mem _ hq)
  | lit front' l hq =>
    rw [← append_assoc]
    exact .lit _ l hq

theorem EndsFixed.bounded_flatMap (h : EndsFixed items) (hgood : Good items) :
    Bounded (items.flatMap (·.tokens)) := by
  induction items with
  | nil => obtain ⟨_, hlast, -⟩ := h; cases hlast
  | cons item rest ih =>
    cases rest with
    | nil =>
      obtain ⟨_, hlast, hany⟩ := h
      obtain rfl : item = _ := by simpa using hlast
      simpa using Bounded.fixed (noAny_tokens hany)
    | cons next rest =>
      have hrest := ih (by simpa [EndsFixed] using h) hgood.tail
      rw [flatMap_cons]
      cases hany : item.matchAny with
      | true => exact hrest.search hgood.tail.head (hgood.link.1 hany) _
      | false =>
        have hitem := noAny_tokens hany
        generalize (next :: rest).flatMap (·.tokens) = p at hrest ⊢
        cases hrest with
        | fixed hp => exact .fixed fun hin => (mem_append.1 hin).elim hitem hp
        | lit front l hq =>
          rw [← append_assoc]
          exact .lit _ l hq

theorem EndsFixed.bounded (h : EndsFixed items) (hready : Ready items) :
    Bounded (tokens true items) := by
  cases hready with
  | @trivial item ht =>
    obtain ⟨_, hlast, hany⟩ := h
    obtain rfl : item = _ := by simpa using hlast
    refine .fixed ?_
    simp [NoAny, tokens, lead, PatternItem.tokens, ht, hany]
  | items hne hcompiled hlinked =>
    have hgood : Good items := ⟨hcompiled, hlinked⟩
    have hbounded := h.bounded_flatMap hgood
    cases items with
    | nil => exact absurd rfl hne
    | cons item rest =>
      rw [tokens, lead]
      split_ifs with hsearch
      · exact hbounded.search hgood.head hsearch _
      · exact hbounded

theorem At.exists_accepts [Nonempty α] {b : BranchItem} (h : At items b item rest)
    (hgood : Good items) : ∃ s, Accepts items b s := by
  have hitem := (h.good hgood).head
  by_cases hsearch : item.type = .piSearch
  · obtain ⟨t, ht⟩ := exists_like (cont item rest)
    have hlen := hitem.data (by simp [hsearch])
    refine ⟨item.data.drop b.offset ++ t, h.accepts.2 ?_⟩
    rw [Lang, if_pos hsearch]
    refine ⟨t, ⟨item.data.drop b.offset, fun hnil => ?_, rfl, ?_⟩, ht⟩
    · have := h.offset
      have := drop_eq_nil_iff.1 hnil
      omega
    · rw [take_append_drop]
  · obtain ⟨t, ht⟩ := exists_like (item.tokensFrom b.offset ++ cont item rest)
    refine ⟨t, h.accepts.2 ?_⟩
    rwa [Lang, if_neg hsearch]

variable {branches : List BranchItem}

theorem Shape.exists_accepts [Nonempty α] (h : Shape items branches)
    (hgood : Good items) (hne : branches ≠ []) : ∃ s, ∃ b ∈ branches, Accepts items b s := by
  cases h with
  | none => exact absurd rfl hne
  | single hat =>
    obtain ⟨s, hs⟩ := hat.exists_accepts hgood
    exact ⟨s, _, by simp, hs⟩
  | many hsearches _ =>
    obtain ⟨item, rest, hat, -⟩ := hsearches
    obtain ⟨s, hs⟩ := hat.exists_accepts hgood
    exact ⟨s, _, by simp, hs⟩

variable (items) in
/-- A match that is over with a character ends with an item without `%`. -/
def Next.Over : Next → Prop
  | .go _ candidate => candidate = true → EndsFixed items
  | .stop matchType _ => matchType = .matchFixed → EndsFixed items

variable [DecidableEq α]

theorem branchLoop_over {isLast candidate : Bool} {done todo : List BranchItem}
    (h : candidate = true → EndsFixed items) :
    (branchLoop items c isLast done todo candidate).Over items := by
  fun_induction branchLoop items c isLast done todo candidate
  case case7 hitem _ _ _ hany hlast _ _ =>
    exact fun _ => endsFixed_of_getElem? hitem hlast (by simpa using hany)
  case case9 hitem _ _ _ hany hlast _ ih =>
    exact ih fun _ => endsFixed_of_getElem? hitem hlast (by simpa using hany)
  case case13 hitem _ _ _ _ _ _ hlast hany ih =>
    refine ih fun _ => endsFixed_of_getElem? hitem ?_ (by simpa using hany)
    exact getElem?_eq_none_iff.1 hlast
  all_goals simp_all [Next.Over]

variable {data : List α}

theorem chunkLoop_over {matchType : MatchType}
    {candidate : Bool} (hmatch : matchType ≠ .matchFixed)
    (hcandidate : candidate = true → EndsFixed items) :
    (chunkLoop items matchType data branches candidate).2.1 = .matchFixed → EndsFixed items := by
  induction data generalizing branches candidate with
  | nil =>
    cases candidate with
    | true => exact fun _ => hcandidate rfl
    | false => exact fun h => absurd h hmatch
  | cons c data ih =>
    have hover := @branchLoop_over α items c _ data.isEmpty false [] branches (by simp)
    rw [chunkLoop]
    cases hnext : branchLoop items c data.isEmpty [] branches false with
    | go branches candidate =>
      rw [hnext] at hover
      exact ih hover
    | stop matchType more =>
      rw [hnext] at hover
      exact hover

theorem chunkLoop_stop (hgood : Good items) {matchType : MatchType}
    {candidate : Bool} (h : Shape items branches)
    (hmore : (chunkLoop items matchType data branches candidate).2.2 = false) :
    (chunkLoop items matchType data branches candidate).1 = [] ∧
      (chunkLoop items matchType data branches candidate).2.1 ≠ .matchFixed := by
  induction data generalizing branches candidate with
  | nil => simp [chunkLoop] at hmore
  | cons c data ih =>
    obtain ⟨hfine, -⟩ := @branchLoop_spec _ _ c _ data.isEmpty _ hgood h
    rw [chunkLoop] at hmore ⊢
    cases hnext : branchLoop items c data.isEmpty [] branches false with
    | go branches candidate =>
      rw [hnext] at hfine hmore
      exact ih hfine hmore
    | stop matchType more =>
      rw [hnext] at hfine hmore
      refine ⟨rfl, fun hm => ?_⟩
      rw [hfine.1.2 hm] at hmore
      cases hmore

theorem start_ne_matchFixed (matchType : MatchType) :
    (if matchType = .matchFixed then MatchType.matchNone else matchType) ≠ .matchFixed := by
  cases matchType <;> simp

theorem processNextChunk_settled {ev : LikeEvaluator α} {L : List α → Prop}
    (h : Evaluates items ev L) (hmore : (processNextChunk ev data).1 = false) :
    (processNextChunk ev data).2.patternItems = items ∧ (processNextChunk ev data).2.branches = [] ∧
      (processNextChunk ev data).2.matchType ≠ .matchFixed := by
  have hstart := start_ne_matchFixed ev.matchType
  simp only [processNextChunk] at hmore ⊢
  generalize (if ev.matchType = .matchFixed then MatchType.matchNone else ev.matchType) = matchType
    at hmore hstart ⊢
  by_cases hdata : data = []
  · simp only [if_pos hdata, decide_eq_false_iff_not, not_or, not_not] at hmore ⊢
    exact ⟨h.patternItems, hmore⟩
  by_cases hbranches : ev.branches = []
  · simp only [if_neg hdata, if_pos hbranches]
    exact ⟨h.patternItems, hbranches, hstart⟩
  · simp only [if_neg hdata, if_neg hbranches, h.patternItems] at hmore ⊢
    exact ⟨trivial, chunkLoop_stop (h.good hbranches) h.shape hmore⟩

theorem processNextChunk_fixed {ev : LikeEvaluator α}
    (h : ev.matchType = .matchFixed → EndsFixed ev.patternItems)
    (hm : (processNextChunk ev data).2.matchType = .matchFixed) : EndsFixed ev.patternItems := by
  have hstart := start_ne_matchFixed ev.matchType
  simp only [processNextChunk] at hm
  generalize (if ev.matchType = .matchFixed then MatchType.matchNone else ev.matchType) = matchType
    at hm hstart
  by_cases hdata : data = []
  · simp only [if_pos hdata] at hm
    exact h hm
  by_cases hbranches : ev.branches = []
  · simp only [if_neg hdata, if_pos hbranches] at hm
    exact absurd hm hstart
  · simp only [if_neg hdata, if_neg hbranches] at hm
    exact chunkLoop_over hstart (by simp) hm

variable (items) in
structure Follows (w : List α) (ev : LikeEvaluator α) : Prop where
  evaluates : Evaluates items ev fun s => Like (tokens true items) (w ++ s)
  fixed : ev.matchType = .matchFixed → EndsFixed items

variable {w : List α} {ev : LikeEvaluator α}

theorem Follows.step (h : Follows items w ev) (data : List α) :
    Follows items (w ++ data) (processNextChunk ev data).2 := by
  obtain ⟨hmore, hstop⟩ := processNextChunk_spec h.evaluates data
  have hitems := h.evaluates.patternItems
  refine ⟨?_, fun hm => hitems ▸ processNextChunk_fixed (hitems ▸ h.fixed) hm⟩
  simp only [append_assoc]
  cases hcall : (processNextChunk ev data).1 with
  | true => exact hmore hcall
  | false =>
    obtain ⟨hitems', hbranches, hm⟩ := processNextChunk_settled h.evaluates hcall
    have hresult := hstop hcall
    generalize (processNextChunk ev data).2 = ev' at hresult hitems' hbranches hm ⊢
    refine ⟨hitems', fun hne => absurd hbranches hne, hbranches ▸ .none,
      fun hne => absurd hbranches hne, fun s => ?_⟩
    rw [← hresult s, getResult, hbranches]
    cases hm' : ev'.matchType <;> simp_all

theorem tracks_like [Nontrivial α] (hready : Ready items) :
    Tracks processNextChunk getResult (Follows items) (Like (tokens true items)) where
  step data h := h.step data
  result h := by
    rw [h.evaluates.result, append_nil]
  settles {w ev} data h hstop t := by
    obtain ⟨-, hbranches, hm⟩ := processNextChunk_settled h.evaluates hstop
    have hlang := (h.step data).evaluates.lang
    have hnow := hlang []
    have hthen := hlang t
    simp only [hbranches, hm, not_mem_nil, false_and, exists_false, or_false] at hnow hthen
    rw [append_nil] at hnow
    exact hthen.trans hnow.symm
  asks {w ev} h hmore := by
    have hresult := h.evaluates.result
    rw [append_nil] at hresult
    simp only [processNextChunk, if_true, decide_eq_true_iff] at hmore
    by_cases hm : ev.matchType = .matchFixed
    · have hlike : Like (tokens true items) w := hresult.1 (by simp [getResult, hm])
      obtain ⟨t, ht⟩ := ((h.fixed hm).bounded hready).spoil hlike
      exact ⟨t, fun hiff => ht (hiff.2 hlike)⟩
    · have hbranches := hmore.resolve_right hm
      have hany := h.evaluates.running hbranches
      have hnot : ¬Like (tokens true items) w := by
        rw [← hresult, getResult]
        cases hm' : ev.matchType <;> simp_all
      obtain ⟨s, hs⟩ := h.evaluates.shape.exists_accepts (h.evaluates.good hbranches) hbranches
      exact ⟨s, fun hiff => hnot (hiff.1 ((h.evaluates.lang s).2 (.inr (.inl hs))))⟩

omit [DecidableEq α] in
theorem follows_reset (hready : Ready items) : Follows items [] (reset items) := by
  refine ⟨evaluates_reset hready, fun hm => ?_⟩
  cases hready with
  | @trivial item ht =>
    refine ⟨item, rfl, ?_⟩
    cases hany : item.matchAny with
    | false => rfl
    | true => simp [reset, ht, hany] at hm
  | items hne hcompiled _ =>
    cases items with
    | nil => exact absurd rfl hne
    | cons item rest =>
      have hnone : item.type ≠ .piNone := by
        intro ht
        rcases (hcompiled item (by simp)).type with h | h | h <;> rw [ht] at h <;> cases h
      simp [reset, hnone] at hm

/-- For all three evaluators, stopping when no more is asked for is right, and nobody who asks with
an empty chunk is made to go on in vain. -/
theorem evaluators_stop [Nontrivial α] :
    (∀ pattern : List α, Stops Starts.processNextChunk Starts.getResult
      (Starts.startsEvaluator pattern) (pattern <+: ·)) ∧
    (∀ (pattern : List α) (memory : Nat → Option Nat),
      Stops (fun ev data => (Contains.processNextChunk ev data).value) Contains.getResult
        (Contains.containsEvaluator pattern memory).value (pattern <:+: ·)) ∧
    ∀ (e : Settings α) (pattern : List α) (ev : LikeEvaluator α),
      likeEvaluator e pattern = some ev →
        ∃ toks, parse e pattern = some toks ∧ Stops processNextChunk getResult ev (Like toks) := by
  refine ⟨fun pattern => ?_, fun pattern memory => ?_, fun e pattern ev hev => ?_⟩
  · refine (Starts.tracks pattern).stops ?_
    cases pattern with
    | nil => exact .found rfl rfl rfl nil_prefix
    | cons c pattern => exact .going rfl rfl rfl (by simp) nil_prefix
  · exact (Contains.tracks pattern).stops (Contains.containsEvaluator_spec pattern memory).1
  · have hspec := likeEvaluator_spec (e := e) pattern
    cases hparse : parse e pattern with
    | none =>
      rw [hparse] at hspec
      rw [hspec] at hev
      cases hev
    | some toks =>
      rw [hparse] at hspec
      obtain ⟨items, hitems, hready, hsame⟩ := hspec
      obtain rfl : reset items = ev := Option.some.inj (hitems.symm.trans hev)
      have hlike : Like toks = Like (tokens true items) := funext fun s => propext (hsame s).symm
      refine ⟨toks, rfl, ?_⟩
      rw [hlike]
      exact (tracks_like hready).stops (follows_reset hready)

/-- `a%`, compiled to a string that anything may follow. -/
theorem evaluators_stop_like :
    let e : Settings UInt8 := ⟨92, true, 37, 95⟩
    let ev : LikeEvaluator UInt8 := ⟨[⟨.piDirectMatch, 1, [97], [], true⟩], [⟨0, 0⟩], .matchNone⟩
    ∃ toks, parse e [97, 37] = some toks ∧ Stops processNextChunk getResult ev (Like toks) :=
  have : Nontrivial UInt8 := ⟨0, 1, by decide⟩
  evaluators_stop.2.2 _ _ _ rfl

end Firebird.Jrd.Evl
