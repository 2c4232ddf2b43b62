import Firebird.Jrd.BtrKeys

/-!
# The search on a page by whole keys

The loops of `find_node_start_point` and `find_page` look at the bytes that a node does not share
with the node in front of it. On a well-formed page they find what a search finds that compares the
whole key of each node.
-/
namespace Firebird.Jrd.Btr

open List

variable {descending retrieval pointerByMarker firstPass : Bool} {key k : List UInt8} {m t : Nat}
  {e : Bool} {node : IndexNode} {before : Option (List UInt8)} {nodes : List IndexNode}
  {keys : List (List UInt8)} {v : List UInt8}

theorem Follows.le_length (hf : Follows descending before node k) :
    node.nodePrefix ≤ k.length := by
  cases before with
  | none =>
    rw [hf.1]
    exact Nat.zero_le _
  | some prev =>
    obtain ⟨hle, rfl, -⟩ := hf
    rw [length_append, length_take]
    omega

theorem Follows.drop_eq (hf : Follows descending before node k) :
    k.drop node.nodePrefix = node.data := by
  cases before with
  | none => rw [hf.1, hf.2, drop_zero]
  | some prev =>
    obtain ⟨hle, rfl, -⟩ := hf
    exact drop_left' (by rw [length_take, Nat.min_eq_left hle])

theorem Follows.take_eq (hf : Follows descending before node k) :
    k.take node.nodePrefix = (before.getD []).take node.nodePrefix := by
  cases before with
  | none => rw [hf.1, take_zero, take_zero]
  | some prev =>
    obtain ⟨hle, rfl, -⟩ := hf
    exact take_left' (by rw [length_take, Nat.min_eq_left hle])

theorem memcpy_begins (hle : node.nodePrefix ≤ k.length) (hd : k.drop node.nodePrefix = node.data)
    (h : k.take node.nodePrefix <+: v) : k <+: memcpy v node.nodePrefix node.data := by
  obtain ⟨w, rfl⟩ := h
  rw [memcpy, take_left' (by rw [length_take, Nat.min_eq_left hle]), ← hd, take_append_drop]
  exact prefix_append _ _

theorem Follows.memcpy_begins (hf : Follows descending before node k) (h : before.getD [] <+: v) :
    k <+: memcpy v node.nodePrefix node.data := by
  refine Btr.memcpy_begins hf.le_length hf.drop_eq ?_
  have hfront := take_prefix node.nodePrefix (before.getD [])
  rw [hf.take_eq]
  exact hfront.trans h

theorem matched_nil (h : walk descending retrieval key [] = .go t) : t = 0 := by
  cases key <;> grind [walk]

theorem compareNode_of_go (hb : Behind descending retrieval key before m)
    (hf : Follows descending before node k) (hw : walk descending retrieval key k = .go t) :
    ¬ node.nodePrefix < m ∧
      ∃ matched, compareNode key descending retrieval node m firstPass = .go matched ∧
        m + matched = t := by
  rcases Nat.lt_trichotomy node.nodePrefix m with hlt | heq | hgt
  · rw [walk_of_lt hb hf hlt] at hw
    cases hw
  · refine ⟨by omega, ?_⟩
    rw [walk_of_eq hb hf heq] at hw
    cases hd : walk descending retrieval (key.drop m) node.data with
    | done e =>
      rw [hd] at hw
      cases hw
    | go n =>
      rw [hd] at hw
      cases hw
      rw [compareNode]
      split
      · exact ⟨n, hd, rfl⟩
      · next hne =>
        have hnil : node.data = [] := by simp_all
        rw [hnil] at hd
        exact ⟨0, rfl, by rw [matched_nil hd]⟩
  · rw [walk_of_gt hb hf hgt] at hw
    cases hw
    exact ⟨by omega, 0, by rw [compareNode, if_neg (by omega)], rfl⟩

theorem compareNode_of_done (hb : Behind descending retrieval key before m)
    (hf : Follows descending before node k) (hfp : before = none → firstPass = true)
    (hw : walk descending retrieval key k = .done e) :
    (node.nodePrefix < m ∧ e = false) ∨ ¬ node.nodePrefix < m ∧ node.nodePrefix = m ∧
      compareNode key descending retrieval node m firstPass = .done e := by
  rcases Nat.lt_trichotomy node.nodePrefix m with hlt | heq | hgt
  · rw [walk_of_lt hb hf hlt] at hw
    cases hw
    exact .inl ⟨hlt, rfl⟩
  · refine .inr ⟨by omega, heq, ?_⟩
    have hd := walk_of_eq hb hf heq
    rw [hw] at hd
    cases hd' : walk descending retrieval (key.drop m) node.data with
    | go n =>
      rw [hd'] at hd
      cases hd
    | done e' =>
      rw [hd'] at hd
      cases hd
      rw [compareNode]
      split
      · exact hd'
      · next hne =>
        -- A duplicate is not compared: the search has ended at the node in front of it.
        exfalso
        obtain ⟨hdesc, hnil, hpass⟩ : descending = false ∧ node.data = [] ∧ firstPass = false := by
          simp_all
        cases before with
        | none => simp_all
        | some prev =>
          obtain ⟨hle, rfl, hr⟩ := hf
          have hrest : prev.drop node.nodePrefix = [] := by
            cases hp : prev.drop node.nodePrefix with
            | nil => rfl
            | cons b q =>
              rw [hp, hnil] at hr
              exact absurd hr (by simp [Rises, hdesc])
          rw [hnil, append_nil, take_of_length_le (drop_eq_nil_iff.mp hrest)] at hw
          rw [Behind, hw] at hb
          cases hb
  · rw [walk_of_gt hb hf hgt] at hw
    cases hw

/-! ## `find_node_start_point` -/

def searchNode (key : List UInt8) (descending retrieval pointerByMarker : Bool) :
    List IndexNode → List (List UInt8) → Nat → Nat → Option (Nat × Nat × List UInt8)
  | node :: nodes, k :: keys, index, common =>
    if node.isEndLevel then some (index, common, k)
    else
      match walk descending retrieval key k with
      | .done _ => some (index, common, k)
      | .go matched =>
        if node.isEndBucket then
          if pointerByMarker ∧ matched = key.length ∧ matched = k.length then
            some (index, matched, k)
          else none
        else searchNode key descending retrieval pointerByMarker nodes keys (index + 1) matched
  | _, _, _, _ => none

/-- What has been found is this node, and the value, if there is one, begins with its key. -/
def Gives (valued : Bool) : Option (Nat × Nat × List UInt8) → Option Found → Prop
  | none, none => True
  | some (index, common, k), some f =>
    f.index = index ∧ f.common = common ∧ f.value.isSome = valued ∧ ∀ v ∈ f.value, k <+: v
  | _, _ => False

theorem Gives.value {valued : Bool} {r : Option (Nat × Nat × List UInt8)} {r' : Option Found}
    (h : Gives valued r r') {valued' : Bool} (hv : valued = valued') : Gives valued' r r' := by
  rwa [← hv]

def Found.pick (f : Found) (node : IndexNode) : Found :=
  { f with value := f.value.map (memcpy · node.nodePrefix node.data) }

def Found.next (f : Found) (node : IndexNode) (common : Nat) : Found :=
  ⟨f.index + 1, common, (f.pick node).value⟩

variable {f : Found}

theorem Found.pick_begins (h : ∀ v ∈ f.value, k <+: memcpy v node.nodePrefix node.data) :
    ∀ v ∈ (f.pick node).value, k <+: v := by
  intro v hv
  obtain ⟨w, hw, rfl⟩ := Option.map_eq_some_iff.mp hv
  exact h w hw

@[simp]
theorem Found.pick_isSome (f : Found) : (f.pick node).value.isSome = f.value.isSome := by
  simp [Found.pick]

theorem nodeLoop_go {matched : Nat} (hl : node.isEndLevel = false)
    (hge : ¬ node.nodePrefix < f.common)
    (hc : compareNode key descending retrieval node f.common firstPass = .go matched) :
    nodeLoop key descending retrieval pointerByMarker (node :: nodes) f firstPass =
      if node.isEndBucket then
        if pointerByMarker ∧ f.common + matched = key.length ∧
            f.common + matched = node.nodePrefix + node.data.length then
          .ok (some { f.pick node with common := f.common + matched })
        else .ok none
      else nodeLoop key descending retrieval pointerByMarker nodes
        (f.next node (f.common + matched))
        (passed descending node f.common firstPass) := by
  rw [nodeLoop]
  simp only [hl, hge, hc]
  rfl

theorem nodeLoop_stop (h : node.isEndLevel = true ∨ node.nodePrefix < f.common ∨
      ∃ e, compareNode key descending retrieval node f.common firstPass = .done e) :
    nodeLoop key descending retrieval pointerByMarker (node :: nodes) f firstPass =
      .ok (some (f.pick node)) := by
  rw [nodeLoop]
  split
  · rfl
  · next hne =>
    obtain ⟨e, hc⟩ : ∃ e, compareNode key descending retrieval node f.common firstPass = .done
      e := by
      simp only [Bool.or_eq_true, decide_eq_true_eq, not_or] at hne
      exact (h.resolve_left hne.1).resolve_left hne.2
    simp only [hc]
    rfl

theorem nodeLoop_of_done (hb : Behind descending retrieval key before f.common)
    (hf : Follows descending before node k) (hfp : before = none → firstPass = true)
    (hw : walk descending retrieval key k = .done e) :
    nodeLoop key descending retrieval pointerByMarker (node :: nodes) f firstPass =
      .ok (some (f.pick node)) := by
  refine nodeLoop_stop (.inr ?_)
  rcases compareNode_of_done hb hf hfp hw with ⟨hlt, -⟩ | ⟨-, -, hc⟩
  · exact .inl hlt
  · exact .inr ⟨e, hc⟩

theorem nodeLoop_gives (h : Nodes descending before nodes keys) {f : Found}
    (hb : Behind descending retrieval key before f.common)
    (hfp : before = none → firstPass = true) (hv : ∀ v ∈ f.value, before.getD [] <+: v) :
    ∃ r, nodeLoop key descending retrieval pointerByMarker nodes f firstPass = .ok r ∧
      Gives f.value.isSome (searchNode key descending retrieval pointerByMarker nodes keys f.index
        f.common) r := by
  induction h generalizing f firstPass with
  | @endLevel before node hl hd =>
    refine ⟨_, nodeLoop_stop (.inl hl), ?_⟩
    rw [searchNode, if_pos hl]
    refine ⟨rfl, rfl, f.pick_isSome, Found.pick_begins fun v hv' => ?_⟩
    rw [hd, memcpy, append_nil, length_nil, Nat.add_zero, take_append_drop]
    exact hv v hv'
  | @endBucket before node k hl hbk hf =>
    have hpick := Found.pick_begins fun v hv' => hf.memcpy_begins (hv v hv')
    rw [searchNode, if_neg (by simp [hl])]
    cases hw : walk descending retrieval key k with
    | done e => exact ⟨_, nodeLoop_of_done hb hf hfp hw, rfl, rfl, f.pick_isSome, hpick⟩
    | go t =>
      obtain ⟨hge, matched, hc, rfl⟩ := compareNode_of_go hb hf hw
      have hlen : node.nodePrefix + node.data.length = k.length := by
        rw [← hf.drop_eq, length_drop]
        have := hf.le_length
        omega
      rw [nodeLoop_go hl hge hc, hlen]
      simp only [hbk, if_true]
      split
      · exact ⟨_, rfl, rfl, rfl, f.pick_isSome, hpick⟩
      · exact ⟨_, rfl, trivial⟩
  | @cons before node nodes k keys hl hbk hf hn ih =>
    have hpick := Found.pick_begins fun v hv' => hf.memcpy_begins (hv v hv')
    rw [searchNode, if_neg (by simp [hl])]
    cases hw : walk descending retrieval key k with
    | done e => exact ⟨_, nodeLoop_of_done hb hf hfp hw, rfl, rfl, f.pick_isSome, hpick⟩
    | go t =>
      obtain ⟨hge, matched, hc, rfl⟩ := compareNode_of_go hb hf hw
      rw [nodeLoop_go hl hge hc, if_neg (by simp [hbk])]
      simp only [hbk]
      have hnext : Behind descending retrieval key (some k)
          (f.next node (f.common + matched)).common := hw
      obtain ⟨r, hr, hg⟩ := ih hnext (by simp) hpick
      exact ⟨r, hr, hg.value f.pick_isSome⟩

variable {i : Nat}

theorem searchNode_skip (h : Nodes descending before nodes keys)
    (hn : nodes[i]? = some node) (hk : keys[i]? = some k) (hl : node.isEndLevel = false)
    (hw : walk descending retrieval key k = .go t) (index c c' : Nat) :
    searchNode key descending retrieval pointerByMarker nodes keys index c =
      searchNode key descending retrieval pointerByMarker (nodes.drop i) (keys.drop i)
        (index + i) c' := by
  induction h generalizing i index c with
  | endLevel hl' =>
    cases i with
    | zero =>
      cases hn
      rw [hl] at hl'
      cases hl'
    | succ i => simp at hn
  | endBucket hl' hb hf =>
    cases i with
    | zero =>
      cases hn
      cases hk
      simp [searchNode, hw, hl]
    | succ i => simp at hn
  | @cons before node₀ nodes k₀ keys hl' hb hf hns ih =>
    cases i with
    | zero =>
      cases hn
      cases hk
      simp [searchNode, hw, hl]
    | succ i =>
      rw [drop_succ_cons, drop_succ_cons, searchNode]
      simp only [hl', hb]
      cases hw₀ : walk descending retrieval key k₀ with
      | done e =>
        obtain ⟨e', he', -⟩ := hns.walk_done hw₀ k (mem_of_getElem? hk)
        rw [hw] at he'
        cases he'
      | go m =>
        have hrest := ih hn hk (index + 1) m
        rwa [show index + 1 + i = index + (i + 1) by omega] at hrest

theorem Follows.prefix_eq (hf : Follows descending before node key)
    (hb : Behind descending retrieval key before m) : node.nodePrefix = m := by
  rcases Nat.lt_trichotomy node.nodePrefix m with hlt | heq | hgt
  · have hw := walk_of_lt hb hf hlt
    rw [walk_self] at hw
    cases hw
  · exact heq
  · have hw := walk_of_gt hb hf hgt
    rw [walk_self] at hw
    cases hw

theorem searchNode_done (h : Nodes descending before nodes keys)
    (hb : Behind descending retrieval key before m) {i : Nat} (hn : nodes[i]? = some node)
    (hl : node.isEndLevel = false) (hk : keys[i]? = some key) (index : Nat) :
    ∃ i' m' k', i' ≤ i ∧
      searchNode key descending retrieval pointerByMarker nodes keys index m =
        some (index + i', m', k') ∧
      (i' = i → m' = node.nodePrefix) ∧
      ((descending && retrieval) = false → ∀ l, i' ≤ l → l ≤ i → keys[l]? = some key) := by
  induction h generalizing i index m with
  | endLevel hl' =>
    cases i with
    | zero =>
      cases hn
      rw [hl] at hl'
      cases hl'
    | succ i => simp at hn
  | @endBucket before node₀ k₀ hl' hbk hf =>
    cases i with
    | zero =>
      cases hn
      obtain rfl := Option.some.inj hk
      refine ⟨0, m, k₀, Nat.le_refl 0, ?_, fun _ => (hf.prefix_eq hb).symm, fun _ l _ hl₀ => ?_⟩
      · simp [searchNode, walk_self]
      · rw [Nat.le_zero.mp hl₀]
        rfl
    | succ i => simp at hn
  | @cons before node₀ nodes k₀ keys hl' hbk hf hns ih =>
    cases i with
    | zero =>
      cases hn
      obtain rfl := Option.some.inj hk
      refine ⟨0, m, k₀, Nat.le_refl 0, ?_, fun _ => (hf.prefix_eq hb).symm, fun _ l _ hl₀ => ?_⟩
      · simp [searchNode, walk_self]
      · rw [Nat.le_zero.mp hl₀]
        rfl
    | succ i =>
      rw [searchNode]
      simp only [hl', hbk, Bool.false_eq_true, if_false]
      cases hw₀ : walk descending retrieval key k₀ with
      | done e =>
        refine ⟨0, m, k₀, Nat.zero_le _, rfl, by omega, fun hdr l _ hl₀ => ?_⟩
        obtain ⟨hk₀, hrest⟩ := hns.eq_between hdr hw₀ hk
        cases l with
        | zero =>
          rw [hk₀]
          rfl
        | succ l => exact hrest l (Nat.le_of_succ_le_succ hl₀)
      | go n =>
        obtain ⟨i', m', k', hle, hs, hm, hbetween⟩ := ih hw₀ hn hk (index + 1)
        refine ⟨i' + 1, m', k', Nat.succ_le_succ hle, ?_, by omega, fun hdr l hl₁ hl₂ => ?_⟩
        · simp only [hs]
          rw [show index + 1 + i' = index + (i' + 1) by omega]
        · cases l with
          | zero => omega
          | succ l =>
            exact hbetween hdr l (Nat.le_of_succ_le_succ hl₁) (Nat.le_of_succ_le_succ hl₂)

def searchPage (key : List UInt8) (descending retrieval : Bool) (find : Option Int) :
    List IndexNode → List (List UInt8) → Int → Except Stop Int
  | node :: nodes, k :: keys, previousNumber =>
    if node.isEndLevel then .ok previousNumber
    else
      match walk descending retrieval key k with
      | .done exact =>
        match exact, find with
        | true, some find => findPageInDuplicates find (node :: nodes) previousNumber
        | _, _ => .ok previousNumber
      | .go _ =>
        if node.isEndBucket then .ok node.pageNumber
        else searchPage key descending retrieval find nodes keys node.pageNumber
  | _, _, _ => .error (.bugcheck 204)

variable {find : Option Int} {number : Int}

theorem pageLoop_done (hb : Behind descending retrieval key before m)
    (hf : Follows descending before node k) (hfp : before = none → firstPass = true)
    (hw : walk descending retrieval key k = .done e) :
    pageLoop key descending retrieval find (node :: nodes) m firstPass number =
      searchPage key descending retrieval find (node :: nodes) (k :: keys) number := by
  rw [pageLoop, searchPage]
  rcases compareNode_of_done hb hf hfp hw with ⟨hlt, rfl⟩ | ⟨hge, -, hc⟩
  · simp [hlt, hw]
  · cases e <;> cases find <;>
      simp [hge, hw, hc]

theorem pageLoop_eq (h : Nodes descending before nodes keys)
    (hb : Behind descending retrieval key before m) (hfp : before = none → firstPass = true) :
    pageLoop key descending retrieval find nodes m firstPass number =
      searchPage key descending retrieval find nodes keys number := by
  induction h generalizing m firstPass number with
  | endLevel hl hd => simp only [pageLoop, searchPage, hl, Bool.true_or, if_true]
  | endBucket hl hbk hf =>
    cases hw : walk descending retrieval key _ with
    | done e => exact pageLoop_done hb hf hfp hw
    | go t =>
      obtain ⟨hge, matched, hc, -⟩ := @compareNode_of_go _ _ firstPass _ _ _ _ _ _ hb hf hw
      simp [pageLoop, searchPage, hge, hc, hw]
  | cons hl hbk hf hn ih =>
    cases hw : walk descending retrieval key _ with
    | done e => exact pageLoop_done hb hf hfp hw
    | go t =>
      obtain ⟨hge, matched, hc, rfl⟩ := @compareNode_of_go _ _ firstPass _ _ _ _ _ _ hb hf hw
      simp only [pageLoop, searchPage, hl, hbk, hge, hc, hw]
      exact ih hw (by simp)

theorem searchPage_skip (h : Nodes descending before nodes keys)
    (hn : nodes[i]? = some node) (hk : keys[i]? = some k) (hl : node.isEndLevel = false)
    (hw : walk descending retrieval key k = .go t) (number number' : Int) :
    searchPage key descending retrieval find nodes keys number =
      searchPage key descending retrieval find (nodes.drop i) (keys.drop i) number' := by
  induction h generalizing i number with
  | endLevel hl' =>
    cases i with
    | zero =>
      cases hn
      rw [hl] at hl'
      cases hl'
    | succ i => simp at hn
  | endBucket hl' hb hf =>
    cases i with
    | zero =>
      cases hn
      cases hk
      simp [searchPage, hw, hl]
    | succ i => simp at hn
  | @cons before node₀ nodes k₀ keys hl' hb hf hns ih =>
    cases i with
    | zero =>
      cases hn
      cases hk
      simp [searchPage, hw, hl]
    | succ i =>
      rw [drop_succ_cons, drop_succ_cons, searchPage]
      simp only [hl', hb]
      cases hw₀ : walk descending retrieval key k₀ with
      | done e =>
        obtain ⟨e', he', -⟩ := hns.walk_done hw₀ k (mem_of_getElem? hk)
        rw [hw] at he'
        cases he'
      | go m => exact ih hn hk node₀.pageNumber

theorem Follows.duplicate (hf : Follows descending (some k) node k) :
    node.data = [] ∧ node.nodePrefix = k.length := by
  have hd := hf.drop_eq
  have hr := hf.2.2
  rw [hd] at hr
  have hnil : node.data = [] := by
    cases hx : node.data with
    | nil => rfl
    | cons b q =>
      rw [hx] at hr
      exact absurd hr (UInt8.lt_irrefl b)
  rw [hnil, drop_eq_nil_iff] at hd
  exact ⟨hnil, Nat.le_antisymm hf.le_length hd⟩

theorem DuplicatesSorted.tail {k : List UInt8} (h : DuplicatesSorted (node :: nodes) (k :: keys)) :
    DuplicatesSorted nodes keys :=
  fun i node node' k' hn hn' hk hk' => h (i + 1) node node' k' hn hn' hk hk'

theorem DuplicatesSorted.le (h : DuplicatesSorted nodes keys) {i' : Nat} {node' : IndexNode}
    (hle : i ≤ i') (hk : ∀ l, i ≤ l → l ≤ i' → keys[l]? = some key)
    (hmark : ∀ l n, i ≤ l → l ≤ i' → nodes[l]? = some n →
      n.isEndLevel = false ∧ n.isEndBucket = false)
    (hn : nodes[i]? = some node) (hn' : nodes[i']? = some node') :
    node.recordNumber ≤ node'.recordNumber := by
  induction hle generalizing node' with
  | refl =>
    obtain rfl := Option.some.inj (hn.symm.trans hn')
    exact Int.le_refl _
  | @step l hle ih =>
    have hlt := (List.getElem?_eq_some_iff.mp hn').1
    have hl : nodes[l]? = some nodes[l] := getElem?_eq_getElem (by omega)
    obtain ⟨hm, hm'⟩ := hmark _ _ (Nat.le_succ_of_le hle) (Nat.le_refl _) hn'
    have hstep := h l _ _ key hl hn' (hk l hle (Nat.le_succ l))
      (hk (l + 1) (Nat.le_succ_of_le hle) (Nat.le_refl _)) hm hm'
    exact Int.le_trans (ih (fun x hx hx' => hk x hx (Nat.le_succ_of_le hx'))
      (fun x n hx hx' => hmark x n hx (Nat.le_succ_of_le hx')) hl) hstep

theorem Nodes.ordinary (h : Nodes descending before nodes keys)
    (hlt : i + 1 < nodes.length) (hn : nodes[i]? = some node) :
    node.isEndLevel = false ∧ node.isEndBucket = false := by
  induction h generalizing i with
  | endLevel | endBucket => simp at hlt
  | cons hl hb hf hns ih =>
    cases i with
    | zero =>
      cases hn
      exact ⟨hl, hb⟩
    | succ i => exact ih (Nat.lt_of_succ_lt_succ hlt) hn

variable {find : Int}

theorem findPageInDuplicates_step {next : IndexNode} (hb : node.isEndBucket = false)
    (hfind : node.recordNumber < find) (hl : next.isEndLevel = false) (hd : next.data = [])
    (hp : next.nodePrefix = node.data.length + node.nodePrefix) (number : Int) :
    findPageInDuplicates find (node :: next :: nodes) number =
      findPageInDuplicates find (next :: nodes) node.pageNumber := by
  rw [findPageInDuplicates]
  have hle : ¬ find ≤ node.recordNumber := by omega
  simp [hb, hl, hd, hp, hle]

theorem findPageInDuplicates_skip (h : Nodes descending (some key) nodes keys)
    (hs : DuplicatesSorted (node :: nodes) (key :: keys)) {node' : IndexNode}
    (hk : ∀ l, l ≤ i → (key :: keys)[l]? = some key)
    (hmark₀ : node.isEndLevel = false ∧ node.isEndBucket = false)
    (hlen : node.data.length + node.nodePrefix = key.length)
    (hn : (node :: nodes)[i]? = some node')
    (hmark : node'.isEndLevel = false ∧ node'.isEndBucket = false)
    (hfind : node'.recordNumber < find) (number number' : Int) :
    findPageInDuplicates find (node :: nodes) number =
      findPageInDuplicates find ((node :: nodes).drop i) number' := by
  induction i generalizing node nodes keys number with
  | zero =>
    obtain rfl := Option.some.inj hn
    have hle : ¬ find ≤ node.recordNumber := by omega
    cases nodes <;> simp only [drop_zero, findPageInDuplicates, hmark₀.2, hle, decide_false,
      Bool.or_self, Bool.false_eq_true, if_false]
  | succ i ih =>
    have hord : ∀ l n, l ≤ i + 1 → (node :: nodes)[l]? = some n →
        n.isEndLevel = false ∧ n.isEndBucket = false := by
      intro l n hl hn'
      cases l with
      | zero =>
        cases hn'
        exact hmark₀
      | succ l =>
        rcases Nat.lt_or_ge l i with hlt | hge
        · refine h.ordinary ?_ hn'
          have := (List.getElem?_eq_some_iff.mp hn).1
          rw [length_cons] at this
          omega
        · obtain rfl : l = i := by omega
          obtain rfl := Option.some.inj (hn.symm.trans hn')
          exact hmark
    have hrec := hs.le (Nat.zero_le _) (fun l _ => hk l) (fun l n _ => hord l n) rfl hn
    cases h with
    | endLevel hl _ =>
      have := hord 1 _ (by omega) rfl
      simp [hl] at this
    | endBucket _ hb _ =>
      have := hord 1 _ (by omega) rfl
      simp [hb] at this
    | @cons _ next nodes k keys hl hb hf hns =>
      obtain rfl : k = key := Option.some.inj (hk 1 (by omega))
      obtain ⟨hd, hp⟩ := hf.duplicate
      rw [findPageInDuplicates_step hmark₀.2 (by omega) hl hd (by rw [hp, hlen]), drop_succ_cons]
      refine ih hns hs.tail (fun l hl₀ => hk (l + 1) (by omega)) ⟨hl, hb⟩ ?_ hn node.pageNumber
      rw [hd, hp, length_nil, Nat.zero_add]

theorem searchPage_duplicates (hdr : (descending && retrieval) = false)
    (h : Nodes descending before nodes keys) (hs : DuplicatesSorted nodes keys)
    (hn : nodes[i]? = some node) (hmark : node.isEndLevel = false ∧ node.isEndBucket = false)
    (hk : keys[i]? = some key) (hfind : node.recordNumber < find) (number number' : Int) :
    searchPage key descending retrieval (some find) nodes keys number =
      findPageInDuplicates find (nodes.drop i) number' := by
  induction h generalizing i number with
  | endLevel hl _ =>
    cases i with
    | zero =>
      cases hn
      simp [hl] at hmark
    | succ i => simp at hn
  | endBucket _ hb _ =>
    cases i with
    | zero =>
      cases hn
      simp [hb] at hmark
    | succ i => simp at hn
  | @cons before node₀ nodes k₀ keys hl hb hf hns ih =>
    rw [searchPage]
    simp only [hl, hb]
    cases hw : walk descending retrieval key k₀ with
    | done e =>
      -- The search has come to the first node with the key.
      have hall : k₀ = key ∧ ∀ l, l ≤ i → (k₀ :: keys)[l]? = some key := by
        cases i with
        | zero =>
          cases hk
          exact ⟨rfl, fun l hl₀ => by rw [Nat.le_zero.mp hl₀]; rfl⟩
        | succ i =>
          obtain ⟨rfl, hrest⟩ := hns.eq_between hdr hw hk
          refine ⟨rfl, fun l hl₀ => ?_⟩
          cases l with
          | zero => rfl
          | succ l => exact hrest l (Nat.le_of_succ_le_succ hl₀)
      obtain ⟨rfl, hk'⟩ := hall
      rw [walk_self] at hw
      cases hw
      have hlen : node₀.data.length + node₀.nodePrefix = k₀.length := by
        rw [← hf.drop_eq, length_drop]
        have := hf.le_length
        omega
      exact findPageInDuplicates_skip hns hs hk' ⟨hl, hb⟩ hlen hn hmark hfind number number'
    | go m =>
      cases i with
      | zero =>
        cases hk
        rw [walk_self] at hw
        cases hw
      | succ i => exact ih hs.tail hn hk node₀.pageNumber

end Firebird.Jrd.Btr
