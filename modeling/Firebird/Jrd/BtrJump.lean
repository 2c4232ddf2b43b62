import Firebird.Jrd.BtrArea

/-!
# The jump table and the search on a page

On a well-formed page a search with the jump table finds what it finds from the first node. With a
record number, `find_node_start_point` may start at one of the nodes with the key and a smaller
number and then returns that one.
-/
namespace Firebird.Jrd.Btr

open List

variable {descending retrieval pointerByMarker firstPass : Bool} {key k : List UInt8} {m t : Nat}
  {node : IndexNode} {before : Option (List UInt8)} {nodes : List IndexNode}
  {keys : List (List UInt8)} {page : BtreePage} {find : Option Int} {value : Option (List UInt8)}

variable {common i start : Nat} {α : Type}

theorem drop_eq_cons {l : List α} {x : α} (h : l[i]? = some x) :
    l.drop i = x :: l.drop (i + 1) := by
  obtain ⟨hlt, hget⟩ := List.getElem?_eq_some_iff.mp h
  rw [drop_eq_getElem_cons hlt, hget]

theorem Nodes.drop (h : Nodes descending before nodes keys) (hi : i < nodes.length) :
    ∃ before, Nodes descending before (nodes.drop i) (keys.drop i) := by
  induction h generalizing i with
  | endLevel hl hd =>
    obtain rfl : i = 0 := by simpa using hi
    exact ⟨_, .endLevel hl hd⟩
  | endBucket hl hb hf =>
    obtain rfl : i = 0 := by simpa using hi
    exact ⟨_, .endBucket hl hb hf⟩
  | cons hl hb hf hns ih =>
    cases i with
    | zero => exact ⟨_, .cons hl hb hf hns⟩
    | succ i => exact ih (Nat.lt_of_succ_lt_succ hi)

theorem Nodes.tail (h : Nodes descending before (node :: nodes) (k :: keys))
    (hl : node.isEndLevel = false) (hb : node.isEndBucket = false) :
    Nodes descending (some k) nodes keys := by
  cases h with
  | endLevel hl' => simp [hl] at hl'
  | endBucket _ hb' => simp [hb] at hb'
  | cons _ _ _ hns => exact hns

theorem compareNode_behind (hle : node.nodePrefix ≤ k.length)
    (hd : k.drop node.nodePrefix = node.data) (hw : walk descending retrieval key k = .go t) :
    ¬ node.nodePrefix < min node.nodePrefix t ∧
      ∃ matched, compareNode key descending retrieval node (min node.nodePrefix t) true =
        .go matched ∧ min node.nodePrefix t + matched = t := by
  refine ⟨by omega, ?_⟩
  rcases Nat.lt_or_ge t node.nodePrefix with hlt | hge
  · rw [Nat.min_eq_right (Nat.le_of_lt hlt), compareNode, if_neg (by omega)]
    exact ⟨0, rfl, rfl⟩
  · rw [Nat.min_eq_left hge, compareNode, if_pos (by simp)]
    obtain ⟨c, p, q, rfl, rfl, rfl, hgo⟩ := walk_eq_go hw
    rw [drop_append_of_le_length hge] at hd
    rw [← hd, drop_append_of_le_length hge, walk_append, hgo]
    exact ⟨_, rfl, by rw [length_drop]; omega⟩

theorem nodeLoop_behind (h : Nodes descending before (node :: nodes) (k :: keys))
    (hl : node.isEndLevel = false) (hw : walk descending retrieval key k = .go t) {f : Found}
    (hc : f.common = min node.nodePrefix t) (hv : ∀ v ∈ f.value, k.take node.nodePrefix <+: v)
    (c : Nat) :
    ∃ r, nodeLoop key descending retrieval pointerByMarker (node :: nodes) f true = .ok r ∧
      Gives f.value.isSome (searchNode key descending retrieval pointerByMarker (node :: nodes)
        (k :: keys) f.index c) r := by
  obtain ⟨before', hf⟩ := h.follows getElem?_cons_zero getElem?_cons_zero hl
  obtain ⟨hge, matched, hcmp, hsum⟩ := compareNode_behind hf.le_length hf.drop_eq hw
  rw [← hc] at hge hcmp hsum
  have hpick : ∀ v ∈ (f.pick node).value, k <+: v :=
    Found.pick_begins fun v hv' => memcpy_begins hf.le_length hf.drop_eq (hv v hv')
  rw [nodeLoop_go hl hge hcmp, hsum, searchNode]
  simp only [hl, hw, Bool.false_eq_true, if_false]
  cases h with
  | endLevel hl' => simp [hl] at hl'
  | endBucket _ hb _ =>
    have hlen : node.nodePrefix + node.data.length = k.length := by
      rw [← hf.drop_eq, length_drop]
      have := hf.le_length
      omega
    rw [hlen, if_pos hb, if_pos hb]
    split
    · exact ⟨_, rfl, rfl, rfl, f.pick_isSome, hpick⟩
    · exact ⟨_, rfl, trivial⟩
  | cons _ hb _ hns =>
    rw [if_neg (by simp [hb]), if_neg (by simp [hb])]
    have hnext : Behind descending retrieval key (some k) (f.next node t).common := hw
    obtain ⟨r, hr, hg⟩ := nodeLoop_gives hns hnext (by simp) hpick
    exact ⟨r, hr, hg.value f.pick_isSome⟩

theorem nodeLoop_exact (hd : key.drop node.nodePrefix = node.data) {f : Found}
    (hc : f.common = node.nodePrefix) :
    nodeLoop key descending retrieval pointerByMarker (node :: nodes) f true =
      .ok (some (f.pick node)) := by
  refine nodeLoop_stop (.inr (.inr ⟨true, ?_⟩))
  rw [compareNode, if_pos (by simp [hc]), hc, hd, walk_self]

/-! ## `find_node_start_point` -/

def BtreePage.linear (page : BtreePage) : BtreePage :=
  { page with jumpNodes := [] }

def Found.scan (keys : List (List UInt8)) (f : Found) : Nat × Nat × Option (List UInt8) :=
  (f.index, f.common, f.value.map (·.take (keys.getD f.index []).length))

theorem searchNode_key {index m' : Nat} {k' : List UInt8}
    (h : searchNode key descending retrieval pointerByMarker nodes keys index m = some
    (i, m', k')) :
    index ≤ i ∧ keys[i - index]? = some k' := by
  fun_induction searchNode key descending retrieval pointerByMarker nodes keys index m with
  | case1 | case2 | case3 =>
    cases h
    exact ⟨Nat.le_refl _, by rw [Nat.sub_self]; rfl⟩
  | case4 => cases h
  | case5 node nodes k keys index common _ matched _ _ ih =>
    obtain ⟨hle, hk⟩ := ih h
    refine ⟨by omega, ?_⟩
    rw [show i - index = i - (index + 1) + 1 by omega, getElem?_cons_succ, hk]
  | case6 => cases h

theorem Gives.scan_eq {valued : Bool} {r : Option (Nat × Nat × List UInt8)} {r₁ r₂ : Option Found}
    (hkey : ∀ i m k, r = some (i, m, k) → keys[i]? = some k) (h₁ : Gives valued r r₁)
    (h₂ : Gives valued r r₂) : r₁.map (Found.scan keys) = r₂.map (Found.scan keys) := by
  cases r with
  | none =>
    cases r₁ with
    | none =>
      cases r₂ with
      | none => rfl
      | some => exact h₂.elim
    | some => exact h₁.elim
  | some found =>
    obtain ⟨i, m, k⟩ := found
    -- Both values begin with the key of the node.
    have hscan : ∀ f : Found, Gives valued (some (i, m, k)) (some f) →
        f.scan keys = (i, m, if valued then some k else none) := by
      rintro f ⟨rfl, rfl, rfl, hv⟩
      rw [Found.scan, getD_eq_getElem?_getD, hkey _ _ _ rfl]
      cases hval : f.value with
      | none => rfl
      | some v =>
        obtain ⟨w, rfl⟩ := hv v hval
        simp
    cases r₁ with
    | none => exact h₁.elim
    | some f₁ =>
      cases r₂ with
      | none => exact h₂.elim
      | some f₂ => rw [Option.map_some, Option.map_some, hscan f₁ h₁, hscan f₂ h₂]

def BtreePage.base (page : BtreePage) (descending : Bool) : Nat :=
  if page.dummy descending then 1 else 0

theorem WellFormed.body (h : WellFormed page descending keys) :
    page.base descending ≤ 1 ∧
      Nodes descending none (page.nodes.drop (page.base descending))
        (keys.drop (page.base descending)) := by
  have hn := h.nodes
  rw [BtreePage.base]
  split
  · next hd =>
    rw [if_pos hd] at hn
    obtain ⟨node, nodes, hpage, -, -, -, rest, rfl, hns⟩ := hn
    rw [hpage]
    exact ⟨Nat.le_refl 1, hns⟩
  · next hd =>
    rw [if_neg hd] at hn
    exact ⟨Nat.zero_le 1, hn⟩

theorem WellFormed.ordered (h : WellFormed page descending keys) :
    Ordered descending page.nodes keys :=
  h.body.2.ordered h.body.1

theorem findNodeStartPoint_first (h : WellFormed page descending keys) {a : Area}
    (ha : findAreaStartPoint page key value descending retrieval find = .ok a) (hs : a.start = 0)
    (hc : a.common = 0) (hv : a.value = value) :
    findNodeStartPoint page key value descending retrieval pointerByMarker find =
      nodeLoop key descending retrieval pointerByMarker (page.nodes.drop (page.base descending))
        ⟨page.base descending, 0, value⟩ true := by
  simp only [findNodeStartPoint, ha, bind, Except.bind, hs, drop_zero]
  have hn := h.nodes
  cases hp : page.nodes with
  | nil =>
    split at hn
    · obtain ⟨node, nodes, hpage, -⟩ := hn
      rw [hp] at hpage
      cases hpage
    · rw [hp] at hn
      cases hn
  | cons node nodes =>
    rw [BtreePage.base]
    simp only [BtreePage.dummy, hp]
    split <;> split <;> simp_all

theorem findNodeStartPoint_later {a : Area}
    (ha : findAreaStartPoint page key value descending retrieval find = .ok a) (hs : 0 < a.start)
    (hn : page.nodes[a.start]? = some node) :
    findNodeStartPoint page key value descending retrieval pointerByMarker find =
      nodeLoop key descending retrieval pointerByMarker (node :: page.nodes.drop (a.start + 1))
        ⟨a.start, a.common, a.value⟩ true := by
  simp only [findNodeStartPoint, ha, bind, Except.bind, drop_eq_cons hn]
  rw [if_neg (by simp; omega)]

theorem findAreaStartPoint_linear :
    findAreaStartPoint page.linear key value descending retrieval find =
      .ok ⟨[], 0, 0, 0, value⟩ := by
  simp [findAreaStartPoint, BtreePage.linear, areaLoop]

theorem WellFormed.linear (h : WellFormed page descending keys) :
    WellFormed page.linear descending keys :=
  ⟨h.nodes, h.duplicates, .nil⟩

def AmongDuplicates (page : BtreePage) (keys : List (List UInt8)) (key : List UInt8)
    (descending retrieval : Bool) (number : Int) (f f' : Found) : Prop :=
  f'.index ≤ f.index ∧ (f'.index = f.index → f'.common = f.common) ∧ keys[f.index]? = some key ∧
    (∃ node, page.nodes[f.index]? = some node ∧ node.recordNumber < number ∧
      f.common = node.nodePrefix) ∧
    ((descending && retrieval) = false → ∀ i node, f'.index ≤ i → i ≤ f.index →
      page.nodes[i]? = some node → keys[i]? = some key ∧ node.recordNumber < number)

theorem findNodeStartPoint_linear (h : WellFormed page descending keys) :
    ∃ r,
      findNodeStartPoint page.linear key value descending retrieval pointerByMarker find = .ok r ∧
      Gives value.isSome (searchNode key descending retrieval pointerByMarker
        (page.nodes.drop (page.base descending)) (keys.drop (page.base descending))
        (page.base descending) 0) r := by
  rw [findNodeStartPoint_first h.linear findAreaStartPoint_linear rfl rfl rfl]
  have hb : Behind descending retrieval key none 0 := rfl
  exact @nodeLoop_gives _ _ pointerByMarker true _ _ _ _ h.body.2
    ⟨page.base descending, 0, value⟩ hb (fun _ => rfl) (fun _ _ => nil_prefix)

theorem getElem?_drop_base (l : List α) {b : Nat} (h : b ≤ i) :
    (l.drop b)[i - b]? = l[i]? := by
  rw [getElem?_drop, show b + (i - b) = i by omega]

theorem drop_drop_base (l : List α) {b : Nat} (h : b ≤ i) :
    (l.drop b).drop (i - b) = l.drop i := by
  rw [drop_drop, show b + (i - b) = i by omega]

theorem findNodeStartPoint_behind (h : WellFormed page descending keys) {a : Area}
    (ha : findAreaStartPoint page key value descending retrieval find = .ok a) (hpos : 0 < a.start)
    (hn : page.nodes[a.start]? = some node) (hk : keys[a.start]? = some k)
    (hl : node.isEndLevel = false) (hw : walk descending retrieval key k = .go t)
    (hc : a.common = min node.nodePrefix t) (hsome : a.value.isSome = value.isSome)
    (hv : ∀ v ∈ a.value, k.take node.nodePrefix <+: v) :
    ∃ r, findNodeStartPoint page key value descending retrieval pointerByMarker find = .ok r ∧
      Gives value.isSome (searchNode key descending retrieval pointerByMarker
        (page.nodes.drop (page.base descending)) (keys.drop (page.base descending))
        (page.base descending) 0) r := by
  obtain ⟨hone, hnodes⟩ := h.body
  have hbase : page.base descending ≤ a.start := Nat.le_trans hone hpos
  have hn' := hn
  have hk' := hk
  rw [← getElem?_drop_base _ hbase] at hn' hk'
  obtain ⟨before, hrest⟩ := hnodes.drop (List.getElem?_eq_some_iff.mp hn').1
  rw [searchNode_skip hnodes hn' hk' hl hw _ 0 0, drop_drop_base _ hbase,
    drop_drop_base _ hbase, show page.base descending + (a.start - page.base descending) =
      a.start by omega, drop_eq_cons hn, drop_eq_cons hk, findNodeStartPoint_later ha hpos hn, ←
        hsome]
  rw [drop_drop_base _ hbase, drop_drop_base _ hbase, drop_eq_cons hn, drop_eq_cons hk] at hrest
  exact @nodeLoop_behind _ _ _ _ _ _ _ _ _ _ hrest hl hw ⟨a.start, a.common, a.value⟩ hc hv 0

theorem findNodeStartPoint_duplicate (h : WellFormed page descending keys) {a : Area}
    (ha : findAreaStartPoint page key value descending retrieval find = .ok a) (hpos : 0 < a.start)
    (hn : page.nodes[a.start]? = some node) (hk : keys[a.start]? = some key)
    (hl : node.isEndLevel = false) (hb : node.isEndBucket = false) {number : Int}
    (hall : page.allRecordNumber = true) (hfind : node.recordNumber < number)
    (hc : a.common = node.nodePrefix) :
    ∃ f f',
      findNodeStartPoint page key value descending retrieval pointerByMarker find = .ok (some f) ∧
      findNodeStartPoint page.linear key value descending retrieval pointerByMarker find =
        .ok (some f') ∧ AmongDuplicates page keys key descending retrieval number f f' := by
  obtain ⟨hone, hnodes⟩ := h.body
  have hbase : page.base descending ≤ a.start := Nat.le_trans hone hpos
  have hn' := hn
  have hk' := hk
  rw [← getElem?_drop_base _ hbase] at hn' hk'
  have hd : key.drop node.nodePrefix = node.data := (h.ordered.follows _ _ _ hpos hn hk hl).2
  have hbehind : Behind descending retrieval key none 0 := rfl
  obtain ⟨i, m', k', hle, hs, hm, hbetween⟩ := @searchNode_done _ _ pointerByMarker _ _ _ _ _ _
    hnodes hbehind _ hn' hl hk' (page.base descending)
  obtain ⟨r, hr, hg⟩ := @findNodeStartPoint_linear descending retrieval pointerByMarker key keys
    page
    find value h
  rw [hs] at hg
  cases r with
  | none => exact hg.elim
  | some f' =>
    obtain ⟨hindex, hcommon, -, -⟩ := hg
    have hfound := @findNodeStartPoint_later descending retrieval pointerByMarker key node page find
      value a ha hpos hn
    rw [@nodeLoop_exact _ _ _ _ _ _ hd ⟨a.start, a.common, a.value⟩ hc] at hfound
    refine ⟨_, f', hfound, hr, ?_, ?_, hk, ⟨node, hn, hfind, hc⟩, ?_⟩
    · rw [hindex]
      exact (show _ ≤ a.start by omega)
    · intro heq
      rw [hcommon]
      refine (hm ?_).trans hc.symm
      rw [hindex] at heq
      exact (show i = a.start - page.base descending by
        have : page.base descending + i = a.start := heq
        omega)
    · intro hdr l n hl₁ hl₂ hnl
      have hkeys : ∀ x, l ≤ x → x ≤ a.start → keys[x]? = some key := by
        intro x hx hx'
        rw [← getElem?_drop_base _ (by omega : page.base descending ≤ x)]
        exact hbetween hdr _ (by omega) (by omega)
      have hmark : ∀ x n, l ≤ x → x ≤ a.start → page.nodes[x]? = some n →
          n.isEndLevel = false ∧ n.isEndBucket = false := by
        intro x n hx hx' hnx
        rcases Nat.lt_or_ge x a.start with hlt | hge
        · have hlen := (List.getElem?_eq_some_iff.mp hn).1
          rw [← getElem?_drop_base _ (by omega : page.base descending ≤ x)] at hnx
          exact hnodes.ordinary (by rw [length_drop]; omega) hnx
        · obtain rfl : x = a.start := by omega
          obtain rfl := Option.some.inj (hn.symm.trans hnx)
          exact ⟨hl, hb⟩
      have hrec := (h.duplicates hall).le hl₂ hkeys hmark hnl hn
      exact ⟨hkeys l (Nat.le_refl l) hl₂, by omega⟩

theorem findNodeStartPoint_agrees (h : WellFormed page descending keys) :
    (findNodeStartPoint page key value descending retrieval pointerByMarker find).map
        (Option.map (Found.scan keys)) =
      (findNodeStartPoint page.linear key value descending retrieval pointerByMarker find).map
        (Option.map (Found.scan keys)) ∨
    page.allRecordNumber = true ∧ ∃ number f f', find = some number ∧
      findNodeStartPoint page key value descending retrieval pointerByMarker find = .ok (some f) ∧
      findNodeStartPoint page.linear key value descending retrieval pointerByMarker find =
        .ok (some f') ∧ AmongDuplicates page keys key descending retrieval number f f' := by
  obtain ⟨a, ha, hstart⟩ := @findAreaStartPoint_start descending retrieval keys page h.ordered
    h.jumps key value find
  cases hstart with
  | first hs hc hv =>
    left
    rw [findNodeStartPoint_first h ha hs hc hv,
      findNodeStartPoint_first h.linear findAreaStartPoint_linear rfl rfl rfl]
    rfl
  | behind hpos hn hk hl hw hc hsome hv =>
    left
    obtain ⟨r₁, hr₁, hg₁⟩ := findNodeStartPoint_behind h ha hpos hn hk hl hw hc hsome hv
    obtain ⟨r₂, hr₂, hg₂⟩ := findNodeStartPoint_linear h
    rw [hr₁, hr₂]
    refine congrArg Except.ok (hg₁.scan_eq (fun i m k hs => ?_) hg₂)
    obtain ⟨hle, hk⟩ := searchNode_key hs
    rwa [getElem?_drop, show page.base descending + (i - page.base descending) = i by omega] at hk
  | @duplicate node number hpos hn hk hl hb hfind hlt hc =>
    right
    have hall : page.allRecordNumber = true := by
      by_contra hne
      rw [if_neg hne] at hfind
      cases hfind
    rw [if_pos hall] at hfind
    obtain ⟨f, f', hf, hf', hamong⟩ :=
      findNodeStartPoint_duplicate h ha hpos hn hk hl hb hall hlt hc
    exact ⟨hall, number, f, f', hfind, hf, hf', hamong⟩

theorem Follows.of_nil (hf : Follows descending (some []) node k) :
    Follows descending none node k := by
  obtain ⟨hle, rfl, -⟩ := hf
  have hp : node.nodePrefix = 0 := Nat.le_zero.mp hle
  exact ⟨hp, by rw [hp]; rfl⟩

theorem Nodes.of_nil (h : Nodes descending (some []) nodes keys) :
    Nodes descending none nodes keys := by
  cases h with
  | endLevel hl hd => exact .endLevel hl hd
  | endBucket hl hb hf => exact .endBucket hl hb hf.of_nil
  | cons hl hb hf hns => exact .cons hl hb hf.of_nil hns

theorem findPageFrom_zero (h : WellFormed page descending keys) (hlen : 1 < page.nodes.length) :
    ∃ b number, b ≤ 1 ∧ Nodes descending none (page.nodes.drop b) (keys.drop b) ∧
      ∀ common, findPageFrom page key descending retrieval find 0 common =
        searchPage key descending retrieval find (page.nodes.drop b) (keys.drop b) number := by
  have hb : Behind descending retrieval key none 0 := rfl
  have hn := h.nodes
  split at hn
  · obtain ⟨node, nodes, hpage, hp, hl, -, rest, rfl, hns⟩ := hn
    next hd =>
    have hdata : node.data = [] := by simpa [hpage] using hd.2.2
    refine ⟨1, node.pageNumber, Nat.le_refl 1, by rwa [hpage], fun common => ?_⟩
    simp only [findPageFrom, hpage, drop_zero, hl, hp, hdata]
    exact pageLoop_eq hns hb (fun _ => rfl)
  · generalize hpage : page.nodes = nodes at hn hlen
    cases hn with
    | endLevel | endBucket => simp at hlen
    | @cons _ node nodes k keys hl hbk hf hns =>
      by_cases hzero : node.nodePrefix = 0 ∧ node.data = []
      · have hk : k = [] := hf.2.trans hzero.2
        rw [hk] at hns
        refine ⟨1, node.pageNumber, Nat.le_refl 1, hns.of_nil, fun common => ?_⟩
        simp only [findPageFrom, hpage, drop_zero, hl, hzero]
        exact pageLoop_eq hns.of_nil hb (fun _ => rfl)
      · refine ⟨0, node.pageNumber, Nat.zero_le 1, .cons hl hbk hf hns, fun common => ?_⟩
        simp only [findPageFrom, hpage, drop_zero, hl, hzero]
        exact pageLoop_eq (.cons hl hbk hf hns) hb (fun _ => rfl)

theorem findPageFrom_later (hpos : 0 < start)
    (hn : page.nodes[start]? = some node) (hl : node.isEndLevel = false) :
    findPageFrom page key descending retrieval find start common =
      pageLoop key descending retrieval find (node :: page.nodes.drop (start + 1)) common true
        node.pageNumber := by
  have hne : ¬ start = 0 := by omega
  simp [findPageFrom, drop_eq_cons hn, hl, hne]

theorem findPageFrom_behind (h : WellFormed page descending keys)
    (hpos : 0 < start) (hn : page.nodes[start]? = some node) (hk : keys[start]? = some k)
    (hl : node.isEndLevel = false) (hbk : node.isEndBucket = false)
    (hw : walk descending retrieval key k = .go t) (hc : common = min node.nodePrefix t) :
    findPageFrom page key descending retrieval find start common =
      findPageFrom page key descending retrieval find 0 0 := by
  obtain ⟨hle, hd⟩ := h.ordered.follows _ _ _ hpos hn hk hl
  obtain ⟨hge, matched, hcmp, hsum⟩ := compareNode_behind hle hd hw
  obtain ⟨b, number, hone, hns, hzero⟩ := @findPageFrom_zero descending retrieval key keys page find
    h
    (by have := (List.getElem?_eq_some_iff.mp hn).1; omega)
  have hbase : b ≤ start := Nat.le_trans hone hpos
  have hn' := hn
  have hk' := hk
  rw [← getElem?_drop_base _ hbase] at hn' hk'
  obtain ⟨before, hrest⟩ := hns.drop (List.getElem?_eq_some_iff.mp hn').1
  rw [drop_drop_base _ hbase, drop_drop_base _ hbase, drop_eq_cons hn, drop_eq_cons hk] at hrest
  rw [findPageFrom_later hpos hn hl, hzero, searchPage_skip hns hn' hk' hl hw _ 0,
    drop_drop_base _ hbase, drop_drop_base _ hbase, drop_eq_cons hn, drop_eq_cons hk, hc]
  simp only [pageLoop, searchPage, hl, hbk, hge, hcmp, hw, hsum]
  exact pageLoop_eq (hrest.tail hl hbk) hw (by simp)

theorem findPageFrom_duplicate (h : WellFormed page descending keys)
    (hdr : (descending && retrieval) = false) (hall : page.allRecordNumber = true)
    (hpos : 0 < start) (hn : page.nodes[start]? = some node) (hk : keys[start]? = some key)
    (hl : node.isEndLevel = false) (hbk : node.isEndBucket = false) {number : Int}
    (hfind : node.recordNumber < number) (hc : common = node.nodePrefix) :
    findPageFrom page key descending retrieval (some number) start common =
      findPageFrom page key descending retrieval (some number) 0 0 := by
  obtain ⟨-, hd⟩ := h.ordered.follows _ _ _ hpos hn hk hl
  obtain ⟨b, first, hone, hns, hzero⟩ := @findPageFrom_zero descending retrieval key keys page
    (some number) h (by have := (List.getElem?_eq_some_iff.mp hn).1; omega)
  have hbase : b ≤ start := Nat.le_trans hone hpos
  have hn' := hn
  have hk' := hk
  rw [← getElem?_drop_base _ hbase] at hn' hk'
  have hs : DuplicatesSorted (page.nodes.drop b) (keys.drop b) := by
    intro i n n' k h₁ h₂ h₃ h₄
    rw [getElem?_drop] at h₁ h₂ h₃ h₄
    exact h.duplicates hall (b + i) n n' k h₁ h₂ h₃ h₄
  have hcmp : compareNode key descending retrieval node node.nodePrefix true = .done true := by
    rw [compareNode, if_pos (by simp), hd, walk_self]
  rw [findPageFrom_later hpos hn hl, hzero,
    searchPage_duplicates hdr hns hs hn' ⟨hl, hbk⟩ hk' hfind first node.pageNumber,
    drop_drop_base _ hbase, drop_eq_cons hn, hc]
  simp [pageLoop, hl, hcmp]

theorem findPage_start {validateDuplicates : Bool} {find' : Option Int} {a : Area}
    (hfind : find' = if !page.allRecordNumber || validateDuplicates then none else find)
    (ha : findAreaStartPoint page key none descending retrieval find' = .ok a)
    (hn : page.nodes[a.start]? = some node) :
    findPage page key descending retrieval validateDuplicates find =
      if node.isEndBucket || node.isEndLevel then
        findPageFrom page key descending retrieval find' 0 a.common
      else findPageFrom page key descending retrieval find' a.start a.common := by
  simp only [findPage, ← hfind, ha, bind, Except.bind, hn]

theorem findPage_agrees (h : WellFormed page descending keys) {validateDuplicates : Bool}
    (hcase : (descending && retrieval) = false ∨ page.allRecordNumber = false ∨
      validateDuplicates = true ∨ find = none) :
    findPage page key descending retrieval validateDuplicates find =
      findPage page.linear key descending retrieval validateDuplicates find := by
  obtain ⟨find', hfind⟩ : ∃ find',
      find' = if !page.allRecordNumber || validateDuplicates then none else find := ⟨_, rfl⟩
  obtain ⟨first, hfirst⟩ : ∃ node, page.nodes[0]? = some node := by
    cases hp : page.nodes with
    | nil =>
      have hn := h.body.2
      rw [hp, drop_nil] at hn
      cases hn
    | cons node nodes => exact ⟨node, rfl⟩
  -- Without the jump table the search starts at the first node in any case.
  have hlin : findPage page.linear key descending retrieval validateDuplicates find =
      findPageFrom page key descending retrieval find' 0 0 := by
    have hstart := @findPage_start descending retrieval key first page.linear find
      validateDuplicates
      find' ⟨[], 0, 0, 0, none⟩ hfind findAreaStartPoint_linear hfirst
    rw [hstart, ite_self]
    rfl
  obtain ⟨a, ha, hstart⟩ := @findAreaStartPoint_start descending retrieval keys page h.ordered
    h.jumps key
    none find'
  rw [hlin]
  cases hstart with
  | first hs hc hv =>
    rw [findPage_start hfind ha (by rwa [hs]), hs, hc, ite_self]
  | @behind node k t hpos hn hk hl hw hc hsome hv =>
    rw [findPage_start hfind ha hn]
    split
    · obtain ⟨b, number, -, -, hzero⟩ := @findPageFrom_zero descending retrieval key keys page find'
        h
        (by have := (List.getElem?_eq_some_iff.mp hn).1; omega)
      rw [hzero, hzero]
    · next hmark =>
      have hbk : node.isEndBucket = false := by simp_all
      exact findPageFrom_behind h hpos hn hk hl hbk hw hc
  | @duplicate node number hpos hn hk hl hb hnumber hlt hc =>
    have hall : page.allRecordNumber = true := by
      by_contra hne
      rw [if_neg hne] at hnumber
      cases hnumber
    rw [if_pos hall] at hnumber
    subst hnumber
    have hdr : (descending && retrieval) = false := by
      refine hcase.resolve_right ?_
      rintro (hne | hv | hnone)
      · simp [hall] at hne
      · simp [hv] at hfind
      · simp [hnone] at hfind
    rw [findPage_start hfind ha hn, if_neg (by simp [hl, hb])]
    exact findPageFrom_duplicate h hdr hall hpos hn hk hl hb hlt hc

/-- Jump table and linear search agree. Without a record number the node, the common bytes and the
value are the same. With one, `find_node_start_point` may return one of the nodes with the key and
a smaller number instead of the first. `find_page` finds the same page, also with a record number,
but for a retrieval in a descending index. -/
theorem jump_search_agrees (h : WellFormed page descending keys) (key : List UInt8)
    (value : Option (List UInt8)) (retrieval pointerByMarker validateDuplicates : Bool)
    (find : Option Int) :
    (page.allRecordNumber = false ∨ find = none →
      (findNodeStartPoint page key value descending retrieval pointerByMarker find).map
          (Option.map (Found.scan keys)) =
        (findNodeStartPoint page.linear key value descending retrieval pointerByMarker find).map
          (Option.map (Found.scan keys))) ∧
    ((findNodeStartPoint page key value descending retrieval pointerByMarker find).map
          (Option.map (Found.scan keys)) =
        (findNodeStartPoint page.linear key value descending retrieval pointerByMarker find).map
          (Option.map (Found.scan keys)) ∨
      page.allRecordNumber = true ∧ ∃ number f f', find = some number ∧
        findNodeStartPoint page key value descending retrieval pointerByMarker find = .ok (some f) ∧
        findNodeStartPoint page.linear key value descending retrieval pointerByMarker find =
          .ok (some f') ∧ AmongDuplicates page keys key descending retrieval number f f') ∧
    ((descending && retrieval) = false ∨ page.allRecordNumber = false ∨
        validateDuplicates = true ∨ find = none →
      findPage page key descending retrieval validateDuplicates find =
        findPage page.linear key descending retrieval validateDuplicates find) := by
  have hagrees := @findNodeStartPoint_agrees descending retrieval pointerByMarker key keys page find
    value h
  refine ⟨fun hnone => hagrees.resolve_right ?_, hagrees, findPage_agrees h⟩
  rintro ⟨hall, number, -, -, hfind, -⟩
  rcases hnone with hfalse | hnone
  · rw [hall] at hfalse
    cases hfalse
  · rw [hfind] at hnone
    cases hnone

def duplicatesPage : BtreePage where
  nodes := [⟨0, [65], 1, 0, false, false⟩, ⟨1, [], 2, 0, false, false⟩, ⟨1, [], 3, 0, false, false⟩,
    ⟨0, [], 0, 0, false, true⟩]
  jumpNodes := [⟨0, [65], 1⟩, ⟨1, [], 2⟩]
  leaf := true
  allRecordNumber := true
  jumpInfo := true

theorem duplicatesPage_wellFormed : WellFormed duplicatesPage false [[65], [65], [65], [65]] := by
  constructor
  · exact .cons rfl rfl ⟨rfl, rfl⟩ (.cons rfl rfl ⟨by decide, rfl, trivial⟩
      (.cons rfl rfl ⟨by decide, rfl, trivial⟩ (.endLevel rfl rfl)))
  · intro _ i node node' k hn hn' hk hk' hl hb
    rcases i with _ | _ | _ | i <;> simp_all [duplicatesPage] <;> grind
  · exact .cons (by decide) rfl rfl rfl (by decide) rfl
      (.cons (by decide) rfl rfl rfl (by decide) rfl .nil)

theorem jump_search_agrees_duplicates :
    findPage duplicatesPage [65] false true false (some 3) =
      findPage duplicatesPage.linear [65] false true false (some 3) :=
  (jump_search_agrees duplicatesPage_wellFormed [65] none true false false (some 3)).2.2 (.inl rfl)

/-- A page of a descending index: a dummy node, a node that begins with the key, and three nodes
with it. -/
def descendingPage : BtreePage where
  nodes := [⟨0, [], 0, 10, false, false⟩, ⟨0, [65, 66], 1, 11, false, false⟩,
    ⟨1, [], 2, 12, false, false⟩, ⟨1, [], 3, 13, false, false⟩, ⟨1, [], 4, 14, false, false⟩,
    ⟨0, [], 0, 0, false, true⟩]
  jumpNodes := [⟨0, [65], 2⟩, ⟨1, [], 3⟩]
  leaf := false
  allRecordNumber := true
  jumpInfo := true

/-- With a record number the jump table leads to another node, and to another page. -/
theorem jump_search_differs :
    (∃ keys, WellFormed duplicatesPage false keys) ∧
      findNodeStartPoint duplicatesPage [65] none false false false (some 3) =
        .ok (some ⟨1, 1, none⟩) ∧
      findNodeStartPoint duplicatesPage.linear [65] none false false false (some 3) =
        .ok (some ⟨0, 0, none⟩) ∧
      (∃ keys, WellFormed descendingPage true keys) ∧
      findPage descendingPage [65] true true false (some 4) = .ok 13 ∧
      findPage descendingPage.linear [65] true true false (some 4) = .ok 10 := by
  refine ⟨⟨_, duplicatesPage_wellFormed⟩, by decide +kernel, by decide +kernel, ?_,
    by decide +kernel, by decide +kernel⟩
  refine ⟨[[], [65, 66], [65], [65], [65], [65]], ?_, ?_, ?_⟩
  · rw [if_pos (by decide)]
    have hlast : Nodes true (some [65]) [⟨1, [], 4, 14, false, false⟩, ⟨0, [], 0, 0, false, true⟩]
        [[65], [65]] := .cons rfl rfl ⟨by decide, rfl, trivial⟩ (.endLevel rfl rfl)
    exact ⟨_, _, rfl, rfl, rfl, rfl, _, rfl, .cons rfl rfl ⟨rfl, rfl⟩
      (.cons rfl rfl ⟨by decide, rfl, rfl⟩ (.cons rfl rfl ⟨by decide, rfl, trivial⟩ hlast))⟩
  · intro _ i node node' k hn hn' hk hk' hl hb
    rcases i with _ | _ | _ | _ | _ | i <;> simp_all [descendingPage] <;> grind
  · exact .cons (by decide) rfl rfl rfl (by decide) rfl
      (.cons (by decide) rfl rfl rfl (by decide) rfl .nil)

end Firebird.Jrd.Btr
