import Firebird.Jrd.Sort
import Mathlib.Data.List.Pairwise
import Mathlib.Tactic.Common

/-!
# The run list and the record sizes of a sort

Along the run list the depths do not decrease, and there are at most seven runs of depth 0. With
the buffer not grown, the depths count the spills in base eight: a spill adds a run of depth 0, and
eight runs of one depth become one of the next. Growing the buffer takes one from every depth, and
so turns all runs of depth 2 there are into runs of depth 1; the next merge takes them all at once.
-/
namespace Firebird.Jrd.Sort

open List

variable {scb : SortContext} {n m d k seek : Nat} {runs : List RunControl} {others : List Nat}

/-- `merge_runs` merges the first `n` runs, which exist, are below the deepest level, and are all
the runs of their depths; `streams` and `blks` have room for them; the depths do not decrease along
the list, and none that is counted down is zero. -/
def Event.Disciplined : Event → Prop
  | .mergeRuns runs n =>
    n ≤ runs.length ∧ (∀ r ∈ runs.take n, r.depth < maxMergeLevel) ∧
      (∀ r ∈ runs.take n, ∀ s ∈ runs.drop n, r.depth < s.depth) ∧
      n ≤ runGroup * maxMergeLevel ∧ (runs.map RunControl.depth).Pairwise (· ≤ ·)
  | .grow runs => ∀ r ∈ runs, 0 < r.depth
  | _ => True

/-- The first `n` runs have depth `d`, the others lie deeper. -/
def Leads (runs : List RunControl) (n d : Nat) (others : List Nat) : Prop :=
  runs.map RunControl.depth = List.replicate n d ++ others ∧ ∀ x ∈ others, d < x

namespace Leads

theorem take (h : Leads runs n d others) : ∀ r ∈ runs.take n, r.depth = d := by
  intro r hr
  have hmem : r.depth ∈ (runs.take n).map RunControl.depth := mem_map_of_mem hr
  rw [map_take, h.1, take_left' (by simp)] at hmem
  exact eq_of_mem_replicate hmem

theorem map_drop (h : Leads runs n d others) : (runs.drop n).map RunControl.depth = others := by
  rw [List.map_drop, h.1, drop_left' (by simp)]

theorem length (h : Leads runs n d others) : runs.length = n + others.length := by
  simpa using congrArg List.length h.1

theorem disciplined (h : Leads runs n d others) (hd : d < maxMergeLevel)
    (hn : n ≤ runGroup * maxMergeLevel) (hp : others.Pairwise (· ≤ ·)) :
    (Event.mergeRuns runs n).Disciplined := by
  refine ⟨by rw [h.length]; omega, ?_, ?_, hn, ?_⟩
  · intro r hr
    rw [h.take r hr]
    exact hd
  · intro r hr s hs
    rw [h.take r hr]
    apply h.2
    rw [← h.map_drop]
    exact mem_map_of_mem hs
  · rw [h.1, pairwise_append]
    refine ⟨?_, hp, ?_⟩
    · rw [pairwise_replicate]
      exact Or.inr le_rfl
    · intro x hx y hy
      rw [eq_of_mem_replicate hx]
      exact Nat.le_of_lt (h.2 y hy)

theorem takeWhile {run : RunControl} {rest : List RunControl}
    (h : Leads (run :: rest) (m + 1) d others) :
    run.depth = d ∧ (rest.takeWhile fun r => r.depth = run.depth).length = m := by
  obtain ⟨hmap, hdeep⟩ := h
  rw [map_cons, replicate_succ, cons_append, List.cons.injEq] at hmap
  obtain ⟨hrun, hrest⟩ := hmap
  refine ⟨hrun, ?_⟩
  have hfun : (fun r : RunControl => decide (r.depth = run.depth)) =
      (fun x => decide (x = d)) ∘ RunControl.depth := by
    funext r
    simp [hrun]
  have hothers : others.takeWhile (fun x => decide (x = d)) = [] := by
    cases others with
    | nil => rfl
    | cons x xs => simp [Nat.ne_of_gt (hdeep x (by simp))]
  rw [hfun, ← length_map RunControl.depth, ← takeWhile_map, hrest,
    takeWhile_append_of_pos (by simp), hothers]
  simp

end Leads

theorem insertBySeek_perm (run : RunControl) (runs : List RunControl) :
    (insertBySeek run runs).Perm (run :: runs) := by
  induction runs with
  | nil => exact .refl _
  | cons r rest ih =>
    rw [insertBySeek]
    split
    · exact (ih.cons r).trans (.swap run r rest)
    · exact .refl _

theorem foldl_insertBySeek_perm (runs sorted : List RunControl) :
    (runs.foldl (fun sorted run => insertBySeek run sorted) sorted).Perm (runs ++ sorted) := by
  induction runs generalizing sorted with
  | nil => exact .refl _
  | cons r rest ih =>
    refine (ih _).trans ?_
    refine ((insertBySeek_perm r sorted).append_left rest).trans ?_
    exact perm_middle

theorem sortRunsBySeek_spec (hn : n ≤ runs.length) :
    ((sortRunsBySeek runs n).take n).Perm (runs.take n) ∧
      (sortRunsBySeek runs n).drop n = runs.drop n := by
  have hperm := foldl_insertBySeek_perm (runs.take n) []
  rw [append_nil] at hperm
  have hlen := hperm.length_eq
  rw [length_take_of_le hn] at hlen
  rw [sortRunsBySeek, take_left' hlen, drop_left' hlen]
  exact ⟨hperm, rfl⟩

@[simp] theorem mergeRuns_sizeMemory (scb : SortContext) (n seek : Nat) :
    (mergeRuns scb n seek).sizeMemory = scb.sizeMemory := by rw [mergeRuns]

@[simp] theorem mergeRuns_tries (scb : SortContext) (n seek : Nat) :
    (mergeRuns scb n seek).tries = scb.tries := by rw [mergeRuns]

theorem mem_trace_mergeRuns {e : Event} (h : e ∈ (mergeRuns scb n seek).trace) :
    e ∈ scb.trace ∨ e = .mergeRuns scb.runs n ∨ ∃ l r, e = .size l r := by
  simp only [mergeRuns, mem_cons] at h
  rcases h with h | h | h | h
  · exact .inr (.inr ⟨_, _, h⟩)
  · exact .inr (.inr ⟨_, _, h⟩)
  · exact .inr (.inl h)
  · exact .inl h

theorem mergeRuns_depths (h : Leads scb.runs (m + 1) d others) (hd : d < maxMergeLevel) :
    (mergeRuns scb (m + 1) seek).runs.map RunControl.depth = (d + 1) :: others := by
  have hlen : m + 1 ≤ scb.runs.length := by rw [h.length]; omega
  obtain ⟨hperm, hdrop⟩ := sortRunsBySeek_spec hlen
  simp only [mergeRuns, replaceRuns]
  cases hlast : ((sortRunsBySeek scb.runs (m + 1)).take (m + 1)).getLast? with
  | none =>
    have hnil := getLast?_eq_none_iff.mp hlast
    rw [hnil] at hperm
    have hzero := hperm.length_eq
    rw [length_take_of_le hlen] at hzero
    simp at hzero
  | some run =>
    have hrun : run.depth = d := h.take run (hperm.subset (mem_of_getLast? hlast))
    rw [hdrop, map_cons, h.map_drop, hrun, ushort_of_lt]
    simp only [maxMergeLevel] at hd
    omega

theorem mergeLoop_stop (h : Leads scb.runs (m + 1) d others)
    (hstop : d = maxMergeLevel ∨ m + 1 < runGroup) (seek : Nat → Nat) (fuel k : Nat) :
    mergeLoop seek fuel k scb = scb := by
  cases fuel with
  | zero => rfl
  | succ fuel =>
    cases hruns : scb.runs with
    | nil => simp only [mergeLoop, hruns]
    | cons run rest =>
      rw [hruns] at h
      obtain ⟨hrun, hcount⟩ := h.takeWhile
      simp only [mergeLoop, hruns, hcount]
      rcases hstop with hdeep | hfew
      · rw [if_pos (hrun.trans hdeep)]
      · have hm : ushort (1 + m) < runGroup := by
          simp only [runGroup] at hfew ⊢
          rw [ushort_of_lt (by omega)]
          omega
        rw [if_pos hm, ite_self]

theorem mergeLoop_turn (h : Leads scb.runs (m + 1) d others) (hd : d < maxMergeLevel)
    (hm : runGroup ≤ m + 1) (hshort : m + 1 < 65536) (seek : Nat → Nat) (fuel k : Nat) :
    mergeLoop seek (fuel + 1) k scb =
      mergeLoop seek fuel (k + 1) (mergeRuns scb (m + 1) (seek k)) := by
  cases hruns : scb.runs with
  | nil =>
    have hlen := h.length
    simp only [hruns, length_nil] at hlen
    omega
  | cons run rest =>
    rw [hruns] at h
    obtain ⟨hrun, hcount⟩ := h.takeWhile
    have hushort : ushort (1 + m) = m + 1 := by rw [ushort_of_lt (by omega)]; omega
    simp only [mergeLoop, hruns, hcount, hushort]
    rw [if_neg (by omega), if_neg (by omega)]

/-! ## The depths between two calls -/

/-- `a` runs of depth 0, `b` of depth 1 and `c` of depth 2, in this order. -/
def Shape (runs : List RunControl) (a b c : Nat) : Prop :=
  runs.map RunControl.depth = List.replicate a 0 ++ (List.replicate b 1 ++ List.replicate c 2)

theorem pairwise_one_two (b c : Nat) :
    (replicate b 1 ++ replicate c 2).Pairwise (· ≤ ·) := by
  rw [pairwise_append, pairwise_replicate, pairwise_replicate]
  refine ⟨.inr le_rfl, .inr le_rfl, ?_⟩
  intro x hx y hy
  rw [eq_of_mem_replicate hx, eq_of_mem_replicate hy]
  omega

namespace Shape

variable {a b c : Nat}

theorem leads_zero (h : Shape runs a b c) :
    Leads runs a 0 (replicate b 1 ++ replicate c 2) := by
  refine ⟨h, ?_⟩
  intro x hx
  rcases mem_append.mp hx with hx | hx
  · rw [eq_of_mem_replicate hx]; omega
  · rw [eq_of_mem_replicate hx]; omega

theorem leads_one (h : Shape runs 0 b c) : Leads runs b 1 (replicate c 2) := by
  refine ⟨by simpa [Shape] using h, ?_⟩
  intro x hx
  rw [eq_of_mem_replicate hx]
  omega

theorem leads_two (h : Shape runs 0 0 c) : Leads runs c 2 [] :=
  ⟨by simpa [Shape] using h, by simp⟩

theorem putRun (h : Shape scb.runs a b c) : Shape (putRun scb seek).runs (a + 1) b c := by
  rw [Shape, Sort.putRun, map_cons, h, replicate_succ, cons_append]

theorem merge_zero (h : Shape scb.runs (m + 1) b c) :
    Shape (mergeRuns scb (m + 1) seek).runs 0 (b + 1) c := by
  rw [Shape, mergeRuns_depths h.leads_zero (by decide), replicate_succ]
  rfl

theorem merge_one (h : Shape scb.runs 0 (m + 1) c) :
    Shape (mergeRuns scb (m + 1) seek).runs 0 0 (c + 1) := by
  rw [Shape, mergeRuns_depths h.leads_one (by decide), replicate_succ]
  rfl

theorem length (h : Shape runs a b c) : runs.length = a + (b + c) := by
  simpa using congrArg List.length h

end Shape

def Tidy (scb : SortContext) : Prop := ∀ e ∈ scb.trace, e.Disciplined

theorem Tidy.mergeRuns (h : Tidy scb) (hcall : (Event.mergeRuns scb.runs n).Disciplined) :
    Tidy (mergeRuns scb n seek) := by
  intro e he
  rcases mem_trace_mergeRuns he with he | rfl | ⟨l, r, rfl⟩
  · exact h e he
  · exact hcall
  · trivial

/-- The state of a sort between two calls. With the buffer as `SORT_init` got it, there is a run of
depth 2 for every try to grow it; after that the runs of depth 1 may be the ones counted down. -/
structure Ready (alloc : Nat → Bool) (a b c : Nat) (scb : SortContext) : Prop where
  shape : Shape scb.runs a b c
  few : a < runGroup
  tidy : Tidy scb
  sized : (scb.sizeMemory ≤ maxSortBufferSize ∧ b < runGroup ∧ c = scb.tries ∧
      ∀ k < scb.tries, alloc k = false) ∨
    (maxSortBufferSize < scb.sizeMemory ∧ (b < runGroup ∨ (c = 0 ∧ b < 16)))

section

variable {alloc : Nat → Bool} {a b c : Nat}

theorem mergeLoop_spec (h : Ready alloc a b c scb) (seek : Nat → Nat) (s : SortContext)
    (hs : s = putRun scb (seek 0)) :
    ∃ a' b' c', Shape (mergeLoop seek s.runs.length 1 s).runs a' b' c' ∧
      Tidy (mergeLoop seek s.runs.length 1 s) ∧
      (mergeLoop seek s.runs.length 1 s).sizeMemory = scb.sizeMemory ∧
      (mergeLoop seek s.runs.length 1 s).tries = scb.tries ∧
      ((a' < runGroup ∧ 0 < a' + b' ∧ c' = c ∧ (b' = b ∨ b' < runGroup)) ∨
        (a' = 0 ∧ b' = 0 ∧ c' = c + 1)) := by
  have hshape : Shape s.runs (a + 1) b c := hs ▸ h.shape.putRun
  have htidy : Tidy s := hs ▸ h.tidy
  have hsize : s.sizeMemory = scb.sizeMemory := by rw [hs, putRun]
  have htries : s.tries = scb.tries := by rw [hs, putRun]
  have hfew := h.few
  have hb : b < 16 := by
    have := h.sized
    simp only [runGroup] at this
    omega
  simp only [runGroup] at hfew ⊢
  by_cases ha : a + 1 < runGroup
  · rw [mergeLoop_stop hshape.leads_zero (.inr ha)]
    exact ⟨a + 1, b, c, hshape, htidy, hsize, htries, .inl ⟨ha, by omega, rfl, .inl rfl⟩⟩
  · obtain rfl : a = 7 := by simp only [runGroup] at ha; omega
    have hlen := hshape.length
    obtain ⟨fuel, hfuel⟩ : ∃ fuel, s.runs.length = fuel + 2 := ⟨s.runs.length - 2, by omega⟩
    rw [hfuel, mergeLoop_turn hshape.leads_zero (by decide) (by decide) (by decide)]
    have hone : Shape (mergeRuns s 8 (seek 1)).runs 0 (b + 1) c := hshape.merge_zero
    have htidy1 : Tidy (mergeRuns s 8 (seek 1)) := htidy.mergeRuns
      (hshape.leads_zero.disciplined (by decide) (by decide) (pairwise_one_two b c))
    by_cases hseven : b + 1 < runGroup
    · rw [mergeLoop_stop hone.leads_one (.inr hseven)]
      refine ⟨0, b + 1, c, hone, htidy1, by simpa using hsize, by simpa using htries, .inl ?_⟩
      exact ⟨by omega, by omega, rfl, .inr hseven⟩
    · rw [mergeLoop_turn hone.leads_one (by decide) (by omega) (by omega)]
      have htwo : Shape (mergeRuns (mergeRuns s 8 (seek 1)) (b + 1) (seek 2)).runs 0 0 (c + 1) :=
        hone.merge_one
      rw [mergeLoop_stop htwo.leads_two (.inl rfl)]
      refine ⟨0, 0, c + 1, htwo, ?_, by simpa using hsize, by simpa using htries,
        .inr ⟨rfl, rfl, rfl⟩⟩
      refine htidy1.mergeRuns (hone.leads_one.disciplined (by decide) ?_ ?_)
      · simp only [runGroup, maxMergeLevel]
        omega
      · rw [pairwise_replicate]
        exact .inr le_rfl

/-- If the allocation succeeds at all, it does so at one of the first fifteen tries. -/
def SucceedsSoon (alloc : Nat → Bool) : Prop :=
  ∀ k, alloc k = true → ∃ j < 15, j ≤ k ∧ alloc j = true

theorem Shape.head (h : Shape runs a b c) :
    runs.head?.map RunControl.depth = some maxMergeLevel ↔ a = 0 ∧ b = 0 ∧ 0 < c := by
  rw [← head?_map, h]
  cases a with
  | succ a => simp [replicate_succ, maxMergeLevel]
  | zero =>
    cases b with
    | succ b => simp [replicate_succ, maxMergeLevel]
    | zero => cases c <;> simp [replicate_succ, maxMergeLevel]

theorem Shape.countDown (h : Shape runs 0 0 c) :
    Shape (runs.map fun run => { run with depth := ushort (run.depth + 65535) }) 0 c 0 := by
  have hfun : (RunControl.depth ∘ fun run : RunControl =>
      { run with depth := ushort (run.depth + 65535) }) =
      (fun x => ushort (x + 65535)) ∘ RunControl.depth := rfl
  have hmap : runs.map RunControl.depth = replicate c 2 := by simpa [Shape] using h
  have hdown : ushort (2 + 65535) = 1 := rfl
  rw [Shape, map_map, hfun, ← map_map, hmap, map_replicate, hdown]
  simp

theorem init_ready (hsoon : SucceedsSoon alloc) (hshape : Shape scb.runs a b c) (htidy : Tidy scb)
    (hfew : a < runGroup)
    (hsized : (scb.sizeMemory ≤ maxSortBufferSize ∧ b < runGroup ∧
        (c = scb.tries ∧ (0 < a + b ∨ c = 0) ∨ a = 0 ∧ b = 0 ∧ c = scb.tries + 1) ∧
        ∀ k < scb.tries, alloc k = false) ∨
      (maxSortBufferSize < scb.sizeMemory ∧ (b < runGroup ∨ (c = 0 ∧ b < 16)))) :
    ∃ a b c, Ready alloc a b c (init alloc scb) := by
  by_cases htry : scb.sizeMemory ≤ maxSortBufferSize ∧
      scb.runs.head?.map RunControl.depth = some maxMergeLevel
  · obtain ⟨rfl, rfl, hpos⟩ := hshape.head.mp htry.2
    obtain ⟨-, -, hc, hfailed⟩ := hsized.resolve_right fun hbig => absurd htry.1 (by omega)
    have hc : c = scb.tries + 1 := by omega
    cases halloc : alloc scb.tries with
    | false =>
      refine ⟨0, 0, c, ?_⟩
      simp only [init, if_pos htry, halloc]
      refine ⟨hshape, hfew, htidy, .inl ⟨htry.1, by decide, hc, ?_⟩⟩
      intro k hk
      rcases Nat.lt_succ_iff_lt_or_eq.mp hk with hk | rfl
      · exact hfailed k hk
      · exact halloc
    | true =>
      -- the first success is no later than the fifteenth try
      obtain ⟨j, hj, hle, hjalloc⟩ := hsoon _ halloc
      have hlast : ¬ j < scb.tries := fun hlt => by simp [hfailed j hlt] at hjalloc
      refine ⟨0, c, 0, ?_⟩
      simp only [init, if_pos htry, halloc]
      have hgrown : maxSortBufferSize < maxSortBufferSize * runGroup := by decide
      refine ⟨hshape.countDown, hfew, ?_, .inr ⟨hgrown, .inr ⟨rfl, by omega⟩⟩⟩
      intro e he
      rcases mem_cons.mp he with rfl | he
      · intro r hr
        rw [hshape.leads_two.take r (by rwa [take_of_length_le (by simp [hshape.length])])]
        omega
      · exact htidy e he
  · refine ⟨a, b, c, ?_⟩
    simp only [init, if_neg htry]
    refine ⟨hshape, hfew, htidy, ?_⟩
    rcases hsized with ⟨hle, hb, hc, hfailed⟩ | hbig
    · have hhead : ¬ (a = 0 ∧ b = 0 ∧ 0 < c) := fun h => htry ⟨hle, hshape.head.mpr h⟩
      have hc : c = scb.tries := by omega
      exact .inl ⟨hle, hb, hc, hfailed⟩
    · exact .inr hbig

theorem sortInit_ready (hsoon : SucceedsSoon alloc) (recordLength : Nat) (chunk : Fin 29) :
    ∃ a b c, Ready alloc a b c (sortInit alloc recordLength chunk) := by
  have hempty : Shape [] 0 0 0 := rfl
  refine init_ready hsoon hempty ?_ ?_ ?_
  · intro e he
    rw [mem_singleton.mp he]
    trivial
  · decide
  · refine .inl ⟨Nat.sub_le _ _, by decide, .inl ⟨rfl, .inr rfl⟩, ?_⟩
    intro k hk
    exact absurd hk (Nat.not_lt_zero k)

theorem sortPut_ready (hsoon : SucceedsSoon alloc) (h : ∃ a b c, Ready alloc a b c scb)
    (seek : Nat → Nat) : ∃ a b c, Ready alloc a b c (sortPut alloc seek scb) := by
  obtain ⟨a, b, c, h⟩ := h
  cases hfull : scb.full with
  | false =>
    simp only [sortPut, hfull]
    exact ⟨a, b, c, h.shape, h.few, h.tidy, h.sized⟩
  | true =>
    have hready : ∃ a b c, Ready alloc a b c (spill alloc seek scb) := by
      obtain ⟨a', b', c', hshape, htidy, hsize, htries, hcases⟩ := mergeLoop_spec h seek _ rfl
      refine init_ready hsoon hshape htidy (by simp only [runGroup] at hcases ⊢; omega) ?_
      rw [hsize, htries]
      have hsized := h.sized
      simp only [runGroup] at hsized hcases ⊢
      rcases hsized with ⟨hle, hb, hc, hfailed⟩ | ⟨hgt, hb⟩
      · exact .inl ⟨hle, by omega, by omega, hfailed⟩
      · exact .inr ⟨hgt, by omega⟩
    obtain ⟨a, b, c, h⟩ := hready
    simp only [sortPut, hfull]
    exact ⟨a, b, c, h.shape, h.few, h.tidy, h.sized⟩

theorem sortPuts_ready (hsoon : SucceedsSoon alloc) (recordLength : Nat) (chunk : Fin 29)
    (calls : List (Nat → Nat)) :
    ∃ a b c, Ready alloc a b c (sortPuts alloc recordLength chunk calls) := by
  have hfold : ∀ scb, (∃ a b c, Ready alloc a b c scb) → ∃ a b c, Ready alloc a b c
      (calls.foldl (fun scb seek => sortPut alloc seek scb) scb) := by
    induction calls with
    | nil => exact fun _ h => h
    | cons seek calls ih => exact fun scb h => ih _ (sortPut_ready hsoon h seek)
  exact hfold _ (sortInit_ready hsoon recordLength chunk)

theorem Shape.countP (h : Shape runs a b c) :
    (runs.countP fun run => run.depth < maxMergeLevel) = a + b := by
  have hfun : (fun run : RunControl => decide (run.depth < maxMergeLevel)) =
      (fun x => decide (x < maxMergeLevel)) ∘ RunControl.depth := rfl
  rw [hfun, ← countP_map, h]
  simp [countP_replicate, maxMergeLevel]

theorem Shape.disciplined (h : Shape runs a b c) (hn : a + b ≤ runGroup * maxMergeLevel) :
    (Event.mergeRuns runs (a + b)).Disciplined := by
  have hmap : runs.map RunControl.depth =
      (replicate a 0 ++ replicate b 1) ++ replicate c 2 := by
    rw [h, append_assoc]
  have hlen : (replicate a 0 ++ replicate b 1).length = a + b := by simp
  have hlow : ∀ r ∈ runs.take (a + b), r.depth < 2 := by
    intro r hr
    have hmem : r.depth ∈ (runs.take (a + b)).map RunControl.depth := mem_map_of_mem hr
    rw [map_take, hmap, take_left' hlen] at hmem
    rcases mem_append.mp hmem with hmem | hmem
    · rw [eq_of_mem_replicate hmem]; omega
    · rw [eq_of_mem_replicate hmem]; omega
  refine ⟨by rw [h.length]; omega, hlow, ?_, hn, ?_⟩
  · intro r hr s hs
    have hmem : s.depth ∈ (runs.drop (a + b)).map RunControl.depth := mem_map_of_mem hs
    rw [List.map_drop, hmap, drop_left' hlen] at hmem
    rw [eq_of_mem_replicate hmem]
    exact hlow r hr
  · rw [h, pairwise_append]
    refine ⟨?_, pairwise_one_two b c, ?_⟩
    · rw [pairwise_replicate]
      exact .inr le_rfl
    · intro x hx y _
      rw [eq_of_mem_replicate hx]
      omega

theorem sortSort_tidy (h : ∃ a b c, Ready alloc a b c scb) (seek : Nat → Nat) (short : Bool) :
    Tidy (sortSort seek short scb) := by
  obtain ⟨a, b, c, h⟩ := h
  rw [sortSort]
  split
  · exact h.tidy
  · have hshape : Shape (putRun scb (seek 0)).runs (a + 1) b c := h.shape.putRun
    have htidy : Tidy (putRun scb (seek 0)) := h.tidy
    have hmerged : Tidy (if 1 < a + 1 + b ∧ a + 1 + b < (putRun scb (seek 0)).runs.length then
        mergeRuns (putRun scb (seek 0)) (ushort (a + 1 + b)) (seek 1) else putRun scb
          (seek 0)) := by
      split
      · rename_i hcond
        have hsized := h.sized
        have hfew := h.few
        rw [hshape.length] at hcond
        simp only [runGroup] at hsized hfew
        rw [ushort_of_lt (by omega)]
        exact htidy.mergeRuns (hshape.disciplined (by simp only [runGroup, maxMergeLevel]; omega))
      · exact htidy
    simp only [hshape.countP]
    intro e he
    rw [mem_append, mem_cons] at he
    rcases he with he | rfl | he
    · split at he
      · rw [mem_singleton.mp he]
        trivial
      · simp at he
    · trivial
    · exact hmerged e he

/-- In every sort, whatever the record length and the size the buffer starts with, wherever the runs
come to lie and however the tries to grow the buffer end, as long as they do not end well for the
first time after fifteen failures: each call of `merge_runs` finds the runs it is to merge, with
room for them in its arrays, and no depth is counted down from zero. -/
theorem runs_disciplined (alloc : Nat → Bool) (hsoon : SucceedsSoon alloc) (recordLength : Nat)
    (chunk : Fin 29) (calls : List (Nat → Nat)) :
    (∀ e ∈ (sortPuts alloc recordLength chunk calls).trace, e.Disciplined) ∧
    ∀ (seek : Nat → Nat) (short : Bool),
      ∀ e ∈ (sortSort seek short (sortPuts alloc recordLength chunk calls)).trace,
        e.Disciplined := by
  have hready := sortPuts_ready hsoon recordLength chunk calls
  refine ⟨?_, fun seek short => sortSort_tidy hready seek short⟩
  obtain ⟨a, b, c, h⟩ := hready
  exact h.tidy

theorem runs_disciplined_first_try :
    SucceedsSoon (fun _ => true) ∧
    (∀ e ∈ (sortPuts (fun _ => true) 65528 0 (replicate 70 id)).trace, e.Disciplined) ∧
    ∀ (seek : Nat → Nat) (short : Bool),
      ∀ e ∈ (sortSort seek short (sortPuts (fun _ => true) 65528 0 (replicate 70 id))).trace,
        e.Disciplined :=
  have hsoon : SucceedsSoon (fun _ => true) := fun k _ => ⟨0, by decide, Nat.zero_le k, rfl⟩
  ⟨hsoon, runs_disciplined _ hsoon 65528 0 (replicate 70 id)⟩

/-- The trace is only written, so an older one can be put behind it afterwards. -/
def SortContext.behind (scb : SortContext) (t : List Event) : SortContext :=
  { scb with trace := scb.trace ++ t }

variable {t : List Event}

theorem mergeRuns_behind : mergeRuns (scb.behind t) n seek = (mergeRuns scb n seek).behind t :=
  rfl

theorem mergeLoop_behind (seek : Nat → Nat) (fuel k : Nat) :
    mergeLoop seek fuel k (scb.behind t) = (mergeLoop seek fuel k scb).behind t := by
  induction fuel generalizing k scb with
  | zero => rfl
  | succ fuel ih =>
    have hruns : (scb.behind t).runs = scb.runs := rfl
    rw [mergeLoop, mergeLoop, hruns]
    cases scb.runs with
    | nil => rfl
    | cons run rest =>
      dsimp only
      split_ifs
      · rfl
      · rfl
      · rw [mergeRuns_behind, ih]

theorem init_behind : init alloc (scb.behind t) = (init alloc scb).behind t := by
  unfold init SortContext.behind
  dsimp only
  split_ifs <;> rfl

theorem sortPut_behind (seek : Nat → Nat) :
    sortPut alloc seek (scb.behind t) = (sortPut alloc seek scb).behind t := by
  have hspill : spill alloc seek (scb.behind t) = (spill alloc seek scb).behind t := by
    have hput : putRun (scb.behind t) (seek 0) = (putRun scb (seek 0)).behind t := rfl
    rw [spill, spill, hput, mergeLoop_behind, init_behind]
    rfl
  have hfull : (scb.behind t).full = scb.full := rfl
  rw [sortPut, sortPut, hfull, hspill]
  split <;> rfl

theorem foldl_behind (calls : List (Nat → Nat)) :
    calls.foldl (fun scb seek => sortPut alloc seek scb) (scb.behind t) =
      (calls.foldl (fun scb seek => sortPut alloc seek scb) scb).behind t := by
  induction calls generalizing scb with
  | nil => rfl
  | cons seek calls ih => rw [foldl_cons, foldl_cons, sortPut_behind, ih]

/-- The context, but for the trace, when the buffer holds one record of 65528 bytes and the buffer
has failed to grow `c` times. -/
def failed (c : Nat) : SortContext :=
  ⟨16384, 131072, 65536, 2, List.replicate c ⟨2, 2⟩, c, []⟩

/-- The context, but for the trace, after the first try that succeeds, with fifteen before it. -/
def grown : SortContext :=
  ⟨16384, 1048576, 983040, 2, List.replicate 16 ⟨1, 2⟩, 16, []⟩

def SortContext.bare (scb : SortContext) : SortContext := { scb with trace := [] }

theorem foldl_bare (calls : List (Nat → Nat)) :
    (calls.foldl (fun scb seek => sortPut alloc seek scb) scb).bare =
      (calls.foldl (fun scb seek => sortPut alloc seek scb) scb.bare).bare := by
  have hback : scb = scb.bare.behind scb.trace := rfl
  conv_lhs => rw [hback, foldl_behind]
  rfl

theorem mem_trace_foldl {e : Event} {calls : List (Nat → Nat)}
    (h : e ∈ (calls.foldl (fun scb seek => sortPut alloc seek scb) scb.bare).trace) :
    e ∈ (calls.foldl (fun scb seek => sortPut alloc seek scb) scb).trace := by
  have hback : scb = scb.bare.behind scb.trace := rfl
  rw [hback, foldl_behind]
  exact mem_append_left _ h

theorem failed_succ : ∀ c : Fin 15, ((replicate 64 id).foldl
    (fun scb seek => sortPut (fun k => 15 ≤ k) seek scb) (failed c)).bare = failed (c + 1) := by
  decide +kernel

theorem sortPuts_failed (c : Nat) (hc : c ≤ 15) :
    (sortPuts (fun k => 15 ≤ k) 65528 0 (replicate (1 + 64 * c) id)).bare = failed c := by
  induction c with
  | zero => decide +kernel
  | succ c ih =>
    have hsplit : replicate (1 + 64 * (c + 1)) (id : Nat → Nat) =
        replicate (1 + 64 * c) id ++ replicate 64 id := by
      rw [replicate_append_replicate]
      congr 1
    have hih := ih (by omega)
    rw [sortPuts] at hih
    rw [sortPuts, hsplit, foldl_append, foldl_bare, hih]
    exact failed_succ ⟨c, by omega⟩

/-- After fifteen failures there are sixteen runs of depth 2 when the buffer grows, and then
seventeen runs of depth 1 for `merge_runs`. Each record of 65528 bytes spills the one before it. -/
theorem runs_undisciplined :
    ¬ ∀ (alloc : Nat → Bool) (recordLength : Nat) (chunk : Fin 29) (calls : List (Nat → Nat)),
      1 ≤ recordLength → recordLength ≤ maxSortRecord →
        ∀ e ∈ (sortPuts alloc recordLength chunk calls).trace, e.Disciplined := by
  intro h
  have hcall : ((replicate 121 id).foldl
      (fun scb seek => sortPut (fun k => 15 ≤ k) seek scb) grown).trace.any
        (fun | .mergeRuns _ n => n == 17 | _ => false) = true := by decide +kernel
  have hgrown : ((replicate 64 id).foldl
      (fun scb seek => sortPut (fun k => 15 ≤ k) seek scb) (failed 15)).bare = grown := by
    decide +kernel
  obtain ⟨e, he, hn⟩ := any_eq_true.mp hcall
  have htrace : e ∈ (sortPuts (fun k => 15 ≤ k) 65528 0 (replicate (1 + 64 * 15) id ++
      (replicate 64 id ++ replicate 121 id))).trace := by
    have hfailed := sortPuts_failed 15 le_rfl
    rw [sortPuts] at hfailed
    rw [sortPuts, foldl_append, foldl_append]
    apply mem_trace_foldl
    rw [foldl_bare, hfailed, hgrown]
    exact he
  have hd := h _ _ _ _ (by decide) (by decide) e htrace
  cases e with
  | mergeRuns runs n =>
    have hn : n = 17 := by simpa using hn
    have hle := hd.2.2.2.1
    simp only [runGroup, maxMergeLevel] at hle
    omega
  | grow runs => simp at hn
  | longs l => simp at hn
  | size l r => simp at hn

end

/-- The sizes of a traced event are those of a record of `recordLength` bytes: with the back pointer
for `scb_longs` as it is set, without it for a record of a run. -/
def Event.Exact (recordLength : Nat) : Event → Prop
  | .longs l => l * 4 = roundup (recordLength + sizeofSrBckptr) 8
  | .size l bytes =>
    l * 4 + sizeofSrBckptr = roundup (recordLength + sizeofSrBckptr) 8 ∧ bytes = l * 4 ∧ bytes ≠ 0
  | _ => True

/-- All sizes computed so far come from `longs` longwords to a record. -/
structure Sized (longs : Nat) (scb : SortContext) : Prop where
  longs_eq : scb.longs = longs
  sizes : ∀ l r, Event.size l r ∈ scb.trace → l = longs - 2 ∧ r = ushort ((longs - 2) * 4)
  first : ∀ l, Event.longs l ∈ scb.trace ↔ l = longs

section

variable {alloc : Nat → Bool} {longs : Nat}

theorem withoutBckptr_eq (h : 2 ≤ longs) (hlt : longs < 65536) :
    withoutBckptr longs = longs - 2 := by
  simp only [withoutBckptr, ushort, sizeofSrBckptrInLongs]
  omega

theorem Sized.mergeRuns (h : Sized longs scb) (hlo : 2 ≤ longs) (hhi : longs < 65536) :
    Sized longs (mergeRuns scb n seek) := by
  have hout := withoutBckptr_eq hlo hhi
  refine ⟨?_, ?_, ?_⟩
  · simp only [Sort.mergeRuns, h.longs_eq, withBckptr, sizeofSrBckptrInLongs]
    rw [ushort_of_lt (by omega)]
    omega
  · intro l r hmem
    simp only [Sort.mergeRuns, h.longs_eq, hout, allocateMemory, mem_cons, Event.size.injEq,
      reduceCtorEq, false_or] at hmem
    rcases hmem with hmem | hmem | hmem
    · exact hmem
    · exact hmem
    · exact h.sizes l r hmem
  · intro l
    simp only [Sort.mergeRuns, allocateMemory, mem_cons, reduceCtorEq, false_or]
    exact h.first l

theorem Sized.mergeLoop (h : Sized longs scb) (hlo : 2 ≤ longs) (hhi : longs < 65536)
    (seek : Nat → Nat) (fuel k : Nat) : Sized longs (mergeLoop seek fuel k scb) := by
  fun_induction Sort.mergeLoop seek fuel k scb with
  | case1 => exact h
  | case2 => exact h
  | case3 => exact h
  | case4 => exact h
  | case5 fuel k scb run rest hruns hdepth count hcount ih => exact ih (h.mergeRuns hlo hhi)

theorem Sized.init (h : Sized longs scb) : Sized longs (init alloc scb) := by
  unfold Sort.init
  refine ⟨?_, ?_, ?_⟩
  · dsimp only
    split_ifs <;> exact h.longs_eq
  · intro l r
    split_ifs
    · simpa using h.sizes l r
    · exact h.sizes l r
    · exact h.sizes l r
  · intro l
    split_ifs
    · simpa using h.first l
    · exact h.first l
    · exact h.first l

theorem Sized.sortPut (h : Sized longs scb) (hlo : 2 ≤ longs) (hhi : longs < 65536)
    (seek : Nat → Nat) : Sized longs (sortPut alloc seek scb) := by
  have hspill : Sized longs (spill alloc seek scb) := by
    refine Sized.init (Sized.mergeLoop ?_ hlo hhi seek _ 1)
    exact ⟨h.longs_eq, h.sizes, h.first⟩
  unfold Sort.sortPut
  refine ⟨?_, ?_, ?_⟩
  · dsimp only
    split
    · exact hspill.longs_eq
    · exact h.longs_eq
  · dsimp only
    split
    · exact hspill.sizes
    · exact h.sizes
  · dsimp only
    split
    · exact hspill.first
    · exact h.first

theorem Sized.sortSort (h : Sized longs scb) (hlo : 2 ≤ longs) (hhi : longs < 65536)
    (seek : Nat → Nat) (short : Bool) :
    (∀ l r, Event.size l r ∈ (sortSort seek short scb).trace →
      l = longs - 2 ∧ r = ushort ((longs - 2) * 4)) ∧
    (∀ l, Event.longs l ∈ (sortSort seek short scb).trace ↔ l = longs) ∧
    (scb.runs ≠ [] →
      Event.size (longs - 2) (ushort ((longs - 2) * 4)) ∈ (sortSort seek short scb).trace) := by
  have hout := withoutBckptr_eq hlo hhi
  rw [Sort.sortSort]
  split
  · rename_i hnone
    exact ⟨h.sizes, h.first, fun hne => absurd hnone hne⟩
  · have hput : Sized longs (putRun scb (seek 0)) := ⟨h.longs_eq, h.sizes, h.first⟩
    have hsized : ∀ low count, Sized longs (if 1 < low ∧ low < count then
        Sort.mergeRuns (putRun scb (seek 0)) (ushort low) (seek 1) else putRun scb (seek 0)) := by
      intro low count
      split
      · exact hput.mergeRuns hlo hhi
      · exact hput
    have hsized := hsized ((putRun scb (seek 0)).runs.countP fun run => run.depth < maxMergeLevel)
      (putRun scb (seek 0)).runs.length
    dsimp only
    rw [hsized.longs_eq, hout]
    refine ⟨?_, ?_, ?_⟩
    · intro l r hmem
      simp only [allocateMemory, recSize, mem_append, mem_cons, Event.size.injEq] at hmem
      rcases hmem with hmem | hmem | hmem
      · split at hmem
        · simpa using hmem
        · simp at hmem
      · exact hmem
      · exact hsized.sizes l r hmem
    · intro l
      rw [← hsized.first l]
      cases short <;> simp [allocateMemory]
    · intro _
      simp [allocateMemory, recSize]

theorem roundup_lt {recordLength : Nat} (h : recordLength ≤ maxSortRecord) :
    roundup (recordLength + sizeofSrBckptr) 8 ≤ 65544 := by
  simp only [maxSortRecord] at h
  simp only [roundup, sizeofSrBckptr]
  omega

theorem sortPuts_sized {recordLength : Nat} (hpos : 1 ≤ recordLength)
    (hle : recordLength ≤ maxSortRecord) (chunk : Fin 29) (calls : List (Nat → Nat)) :
    Sized (roundup (recordLength + sizeofSrBckptr) 8 / 4)
      (sortPuts alloc recordLength chunk calls) := by
  have hround := roundup_lt hle
  have hlo : 2 ≤ roundup (recordLength + sizeofSrBckptr) 8 / 4 := by
    simp only [roundup]
    omega
  have hstart : Sized (roundup (recordLength + sizeofSrBckptr) 8 / 4)
      (sortInit alloc recordLength chunk) := by
    unfold sortInit
    rw [ushort_of_lt (by omega)]
    refine Sized.init ⟨rfl, ?_, ?_⟩
    · intro l r hmem
      simp at hmem
    · intro l
      simp
  have hfold : ∀ scb, Sized (roundup (recordLength + sizeofSrBckptr) 8 / 4) scb →
      Sized (roundup (recordLength + sizeofSrBckptr) 8 / 4)
        (calls.foldl (fun scb seek => Sort.sortPut alloc seek scb) scb) := by
    induction calls with
    | nil => exact fun _ h => h
    | cons seek calls ih => exact fun scb h => ih _ (h.sortPut hlo (by omega) seek)
  exact hfold _ hstart

theorem sortPuts_runs {recordLength : Nat} (hlt : 65528 < recordLength)
    (hle : recordLength ≤ maxSortRecord) :
    (sortPuts (fun _ => false) recordLength 0 [id, id]).runs ≠ [] := by
  have hround : roundup (recordLength + sizeofSrBckptr) 8 = 65544 := by
    simp only [maxSortRecord] at hle
    simp only [roundup, sizeofSrBckptr]
    omega
  have hinit : sortInit (fun _ => false) recordLength 0 =
      sortInit (fun _ => false) 65535 0 := by
    unfold sortInit
    rw [hround]
    rfl
  rw [sortPuts, hinit]
  decide +kernel

/-- For a record length that `gen_sort` lets pass, the sizes computed in a sort are all exact if and
only if a record with its back pointer has at most 65536 bytes. Otherwise a record of a run has
65536 bytes, and `rec_size` is zero. -/
theorem record_sizes_exact_iff (recordLength : Nat) (hpos : 1 ≤ recordLength)
    (hle : recordLength ≤ maxSortRecord) :
    (∀ (alloc : Nat → Bool) (chunk : Fin 29) (calls : List (Nat → Nat)) (seek : Nat → Nat)
      (short : Bool), ∀ e ∈ (sortSort seek short (sortPuts alloc recordLength chunk calls)).trace,
        e.Exact recordLength) ↔ recordLength ≤ 65528 := by
  have hround := roundup_lt hle
  have hfacts : recordLength + 8 ≤ roundup (recordLength + sizeofSrBckptr) 8 ∧
      roundup (recordLength + sizeofSrBckptr) 8 < recordLength + 16 ∧
      roundup (recordLength + sizeofSrBckptr) 8 % 8 = 0 := by
    simp only [roundup, sizeofSrBckptr]
    omega
  constructor
  · intro h
    by_contra hbig
    have hsized := @sortPuts_sized (fun _ => false) _ hpos hle 0 [id, id]
    obtain ⟨-, -, hmem⟩ := hsized.sortSort (by omega) (by omega) id false
    have hexact := h _ _ _ _ _ _ (hmem (sortPuts_runs (by omega) hle))
    simp only [Event.Exact, ushort] at hexact hfacts
    omega
  · intro hsmall alloc chunk calls seek short e he
    have hsized := @sortPuts_sized alloc _ hpos hle chunk calls
    obtain ⟨hsizes, hfirst, -⟩ := hsized.sortSort (by omega) (by omega) seek short
    cases e with
    | mergeRuns runs n => trivial
    | grow runs => trivial
    | longs l =>
      rw [Event.Exact, (hfirst l).mp he]
      omega
    | size l r =>
      obtain ⟨rfl, rfl⟩ := hsizes l r he
      rw [Event.Exact, ushort_of_lt (by omega)]
      have hptr : sizeofSrBckptr = 8 := rfl
      omega

theorem record_sizes_exact_eight :
    (∀ (alloc : Nat → Bool) (chunk : Fin 29) (calls : List (Nat → Nat)) (seek : Nat → Nat)
      (short : Bool), ∀ e ∈ (sortSort seek short (sortPuts alloc 8 chunk calls)).trace,
        e.Exact 8) ↔ 8 ≤ 65528 :=
  record_sizes_exact_iff 8 (by decide) (by decide)

/-- 65532 bytes, the longest record `gen_sort` makes without a string key: the sizes are wrong as
soon as the sort spills. -/
theorem record_sizes_zero :
    ¬ ∀ recordLength, 1 ≤ recordLength → recordLength ≤ maxSortRecord →
      ∀ (alloc : Nat → Bool) (chunk : Fin 29) (calls : List (Nat → Nat)) (seek : Nat → Nat)
        (short : Bool), ∀ e ∈ (sortSort seek short (sortPuts alloc recordLength chunk calls)).trace,
          e.Exact recordLength := by
  intro h
  have hzero : Event.size 16384 0 ∈
      (sortSort id false (sortPuts (fun _ => false) 65532 0 [id, id])).trace := by decide +kernel
  have hexact := h 65532 (by decide) (by decide) (fun _ => false) 0 [id, id] id false _ hzero
  exact hexact.2.2 rfl

end

end Firebird.Jrd.Sort
