import Mathlib.Data.List.TakeWhile
import Firebird.Jrd.BtrDelete
import Firebird.Jrd.BtrKeys

/-!
# Pages after a node has been deleted

What `delete_node` leaves on a well-formed page, and when the page is well-formed then.
-/
namespace Firebird.Jrd.Btn

open Lib Btr Memory List

variable {page : Bucket} {r n : IndexNode} {A B nodes : List IndexNode}
  {jumps : List IndexJumpNode} {pageSize : Nat}

def Bucket.offset (page : Bucket) (A : List IndexNode) : Nat :=
  page.first + (nodesBytes page.leafPage A).length

def keptJumps (page : Bucket) (A : List IndexNode) (r n : IndexNode) (jumps : List IndexJumpNode) :
    List IndexJumpNode :=
  keepJumps (page.offset A) (page.offset (A ++ [r, n]))
    ((nodesBytes page.leafPage [r, n]).length - (nodesBytes page.leafPage [expandNext r n]).length)
      jumps none

def movedBytes (page : Bucket) (A : List IndexNode) (r n : IndexNode) (B : List IndexNode) : Page :=
  store page.bytes (page.offset A) (nodesBytes page.leafPage (expandNext r n :: B))

theorem offset_append (A B : List IndexNode) :
    page.offset (A ++ B) = page.offset A + (nodesBytes page.leafPage B).length := by
  rw [Bucket.offset, nodesBytes_append, length_append, ← Nat.add_assoc]
  rfl

theorem nodesBytes_singleton (node : IndexNode) (leaf : Bool) :
    nodesBytes leaf [node] = nodeBytes node leaf := by
  simp [nodesBytes]

theorem length_nodesBytes_pair (r n : IndexNode) (leaf : Bool) :
    (nodesBytes leaf [r, n]).length = (nodeBytes r leaf).length + (nodeBytes n leaf).length := by
  simp [nodesBytes]

theorem Layout.storable_new (h : Layout page (A ++ r :: n :: B) jumps) :
    Storable (expandNext r n) := by
  have hkeys := keysFrom_expandNext (compressed_append.1 h.compressed).2
  have hmem : (keyBehind [] A).take (expandNext r n).nodePrefix ++ (expandNext r n).data ∈
      keysFrom [] (A ++ r :: n :: B) := by
    rw [keysFrom_append, hkeys, keysFrom]
    simp
  have hlt := h.key_lt _ hmem
  rw [length_append] at hlt
  exact storable_expandNext (h.storable r (by simp)) (h.storable n (by simp)) (by omega)

theorem Layout.not_endLevel (h : Layout page (A ++ r :: n :: B) jumps) : r.isEndLevel = false := by
  obtain ⟨front, node, heq, -, hfront⟩ := h.marker
  have hr : r ∈ front := by
    have hinit := congrArg List.dropLast heq
    rw [dropLast_concat] at hinit
    rw [← hinit, dropLast_append_of_ne_nil (by simp)]
    simp
  have := hfront r hr
  rw [Bool.or_eq_false_iff] at this
  exact this.2

theorem Layout.length_new_le (h : Layout page (A ++ r :: n :: B) jumps) :
    (nodesBytes page.leafPage [expandNext r n]).length ≤
      (nodesBytes page.leafPage [r, n]).length := by
  have := @length_expandNext_le page.leafPage r n (h.storable r (by simp)) (h.storable n (by simp))
    h.storable_new h.not_endLevel
  rwa [length_nodesBytes_pair, nodesBytes_singleton]

theorem Layout.read (h : Layout page (A ++ r :: n :: B) jumps) :
    readNode page.bytes 0 (page.offset A) page.leafPage = (r, page.offset (A ++ [r])) ∧
      readNode page.bytes 0 (page.offset (A ++ [r])) page.leafPage =
        (n, page.offset (A ++ [r, n])) := by
  have hholds := h.holds
  rw [nodesBytes_append, nodesBytes_cons, nodesBytes_cons, holds_append, holds_append,
    holds_append] at hholds
  obtain ⟨-, hr, hn, -⟩ := hholds
  have hleaf (node : IndexNode) (hmem : node ∈ A ++ r :: n :: B) (hl : page.leafPage = true) :
      node.pageNumber = 0 := h.leaf hl node hmem
  have hr' := readNode_eq_self (h.storable r (by simp)) (hleaf r (by simp)) hr
  have hn' := readNode_eq_self (h.storable n (by simp)) (hleaf n (by simp)) hn
  rw [offset_append, offset_append, nodesBytes_singleton, length_nodesBytes_pair, ← Nat.add_assoc]
  exact ⟨hr', hn'⟩

theorem Layout.move_eq (h : Layout page (A ++ r :: n :: B) jumps) :
    move (store page.bytes (page.offset A) (nodeBytes (expandNext r n) page.leafPage))
      (page.offset A + (nodeBytes (expandNext r n) page.leafPage).length)
        (page.offset (A ++ [r, n]))
      (nodesBytes page.leafPage B).length = movedBytes page A r n B := by
  have hholds := h.holds
  have hle := h.length_new_le
  rw [show A ++ r :: n :: B = (A ++ [r, n]) ++ B by simp, nodesBytes_append, holds_append] at hholds
  have hB : Holds (store page.bytes (page.offset A) (nodeBytes (expandNext r n) page.leafPage))
      (page.offset (A ++ [r, n])) (nodesBytes page.leafPage B) := by
    refine hholds.2.store (.inl ?_)
    change _ ≤ page.offset (A ++ [r, n])
    rw [nodesBytes_singleton] at hle
    rw [offset_append]
    omega
  rw [move, hB.load_eq, movedBytes, nodesBytes_cons, store_append]

def tableBytes (page : Bucket) (bytes : Page) (jumps : List IndexJumpNode) : Page :=
  if page.jumpInfo then
    store bytes btrNodes
      (jumpInfoBytes { (readJumpInfo page.bytes btrNodes).1 with jumpers := jumps.length } ++
        jumps.flatMap jumpNodeBytes)
  else bytes

def shrunk (page : Bucket) (A : List IndexNode) (r n : IndexNode) (B : List IndexNode)
    (jumps : List IndexJumpNode) : Bucket :=
  { page with
    bytes := tableBytes page (movedBytes page A r n B) (keptJumps page A r n jumps)
    btrLength := page.offset (A ++ expandNext r n :: B)
    btrPrefixTotal := (((A ++ expandNext r n :: B).map (·.nodePrefix)).sum : Nat) }

theorem Layout.btrLength_eq (h : Layout page (A ++ r :: n :: B) jumps) :
    page.btrLength = page.offset (A ++ [r, n]) + (nodesBytes page.leafPage B).length := by
  rw [h.length, ← offset_append, append_assoc]
  rfl

theorem Layout.info (h : Layout page nodes jumps) (hjump : page.jumpInfo = true) :
    ∃ info, readJumpInfo page.bytes btrNodes = (info, btrNodes + 5) ∧ StorableInfo info ∧
      info.jumpers = jumps.length ∧ info.firstNodeOffset = page.first ∧
      Holds page.bytes btrNodes (jumpInfoBytes info ++ jumps.flatMap jumpNodeBytes) ∧
      btrNodes + 5 + (jumps.flatMap jumpNodeBytes).length ≤ page.first := by
  have hinfo := h.jumpInfo
  rw [if_pos hjump] at hinfo
  obtain ⟨info, hs, hcount, hholds, hle⟩ := hinfo
  have hread := readJumpInfo_of_holds hs (holds_append.1 hholds).1
  have hfirst : info.firstNodeOffset = page.first := by
    rw [Bucket.first, getPointerFirstNode, if_pos hjump, hread]
  exact ⟨info, hread, hs, hcount, hfirst, hholds, hfirst ▸ hle⟩

theorem Layout.holds_moved {w : List UInt8} {p : Nat} (h : Holds page.bytes p w)
    (hle : p + w.length ≤ page.first) : Holds (movedBytes page A r n B) p w := by
  refine h.store (.inr ?_)
  rw [Bucket.offset]
  omega

theorem Layout.table_eq (h : Layout page (A ++ r :: n :: B) jumps) (hjump : page.jumpInfo = true) :
    (let (jumpInfo, pointer) := readJumpInfo (movedBytes page A r n B) btrNodes
    let jumpNodes := keepJumpNodes (movedBytes page A r n B) (page.offset A)
      (page.offset (A ++ [r, n])) ((nodesBytes page.leafPage [r, n]).length -
        (nodesBytes page.leafPage [expandNext r n]).length) jumpInfo.jumpers pointer none
    let (bytes, pointer) :=
      writeJumpInfo (movedBytes page A r n B) { jumpInfo with jumpers := jumpNodes.length }
    (writeJumpNodes bytes jumpNodes pointer).1) =
      tableBytes page (movedBytes page A r n B) (keptJumps page A r n jumps) := by
  obtain ⟨info, hread, hs, hcount, -, hholds, hle⟩ := h.info hjump
  have hmoved : Holds (movedBytes page A r n B) btrNodes
      (jumpInfoBytes info ++ jumps.flatMap jumpNodeBytes) := by
    refine Layout.holds_moved hholds ?_
    rw [length_append, length_jumpInfoBytes]
    omega
  rw [holds_append, length_jumpInfoBytes] at hmoved
  rw [readJumpInfo_of_holds hs hmoved.1]
  simp only [hcount, keepJumpNodes_eq h.storableJumps hmoved.2, writeJumpNodes_eq]
  rw [tableBytes, if_pos hjump, hread, store_append, length_jumpInfoBytes]
  rfl

theorem deleteNode_eq (h : Layout page (A ++ r :: n :: B) jumps) :
    deleteNode pageSize page (page.offset A) =
      (shrunk page A r n B jumps, contentsOf pageSize (shrunk page A r n B jumps)) := by
  obtain ⟨hr, hn⟩ := h.read
  have hlen := h.btrLength_eq
  have hrest : page.btrLength - page.offset (A ++ [r, n]) =
    (nodesBytes page.leafPage B).length := by
    omega
  have hnew : page.offset A + getNodeSize (expandNext r n) page.leafPage +
      (nodesBytes page.leafPage B).length = page.offset (A ++ expandNext r n :: B) := by
    rw [offset_append, nodesBytes_cons, length_append, length_nodeBytes h.storable_new,
      Nat.add_assoc]
  have hdelta : page.btrLength - page.offset (A ++ expandNext r n :: B) =
      (nodesBytes page.leafPage [r, n]).length -
        (nodesBytes page.leafPage [expandNext r n]).length := by
    rw [hlen, ← hnew, offset_append, nodesBytes_singleton, length_nodeBytes h.storable_new]
    omega
  have htotal : page.btrPrefixTotal -
      (r.nodePrefix + (n.nodePrefix - (expandNext r n).nodePrefix : Nat)) =
        (((A ++ expandNext r n :: B).map (·.nodePrefix)).sum : Nat) := by
    rw [h.prefixTotal, expandNext_nodePrefix_eq]
    simp only [map_append, map_cons, sum_append, sum_cons, expandNext_nodePrefix_eq]
    omega
  have hmove := h.move_eq
  rw [length_nodeBytes h.storable_new] at hmove
  have hbytes : (if page.jumpInfo then
      let (jumpInfo, pointer) := readJumpInfo (movedBytes page A r n B) btrNodes
      let jumpNodes := keepJumpNodes (movedBytes page A r n B) (page.offset A)
        (page.offset (A ++ [r, n])) ((nodesBytes page.leafPage [r, n]).length -
          (nodesBytes page.leafPage [expandNext r n]).length) jumpInfo.jumpers pointer none
      let (bytes, pointer) :=
        writeJumpInfo (movedBytes page A r n B) { jumpInfo with jumpers := jumpNodes.length }
      (writeJumpNodes bytes jumpNodes pointer).1
    else movedBytes page A r n B) =
      tableBytes page (movedBytes page A r n B) (keptJumps page A r n jumps) := by
    split_ifs with hjump
    · exact h.table_eq hjump
    · rw [tableBytes, if_neg hjump]
  rw [deleteNode]
  simp only [hr, hn, writeNode_eq h.storable_new, hrest, hmove, hnew, hdelta, htotal]
  simp [hbytes, shrunk]

theorem length_keptJumps_le (page : Bucket) (A : List IndexNode) (r n : IndexNode)
    (jumps : List IndexJumpNode) : ((keptJumps page A r n jumps).flatMap jumpNodeBytes).length ≤
      (jumps.flatMap jumpNodeBytes).length := by
  have := @length_keepJumps_le (page.offset A) (page.offset (A ++ [r, n]))
    ((nodesBytes page.leafPage [r, n]).length - (nodesBytes page.leafPage [expandNext r n]).length)
    jumps none
  rwa [Option.toList_none, flatMap_nil, length_nil, Nat.add_zero] at this

theorem Layout.new_info (h : Layout page (A ++ r :: n :: B) jumps) (hjump : page.jumpInfo = true) :
    ∃ info, StorableInfo info ∧ info.jumpers = (keptJumps page A r n jumps).length ∧
      info.firstNodeOffset = page.first ∧
      (shrunk page A r n B jumps).bytes = store (movedBytes page A r n B) btrNodes
        (jumpInfoBytes info ++ (keptJumps page A r n jumps).flatMap jumpNodeBytes) ∧
      btrNodes + (jumpInfoBytes info ++
        (keptJumps page A r n jumps).flatMap jumpNodeBytes).length ≤ page.first := by
  obtain ⟨info, hread, hs, hcount, hfirst, -, hle⟩ := h.info hjump
  have hlength := length_keptJumps_le page A r n jumps
  have hcount' : (keptJumps page A r n jumps).length ≤ jumps.length := keepJumps_length_le _ _
  refine ⟨{ info with jumpers := (keptJumps page A r n jumps).length },
    ⟨hs.first_lt, hs.area_lt, ?_⟩, rfl, hfirst, ?_, ?_⟩
  · have := hs.jumpers_lt
    change (keptJumps page A r n jumps).length < 256
    omega
  · rw [shrunk, tableBytes, if_pos hjump, hread]
  · rw [length_append, length_jumpInfoBytes]
    omega

theorem Layout.first_shrunk (h : Layout page (A ++ r :: n :: B) jumps) :
    (shrunk page A r n B jumps).first = page.first := by
  by_cases hjump : page.jumpInfo = true
  · obtain ⟨info, hs, -, hfirst, hbytes, -⟩ := h.new_info hjump
    have hholds : Holds (shrunk page A r n B jumps).bytes btrNodes (jumpInfoBytes info) := by
      rw [hbytes]
      exact (holds_append.1 holds_store).1
    rw [Bucket.first, getPointerFirstNode, if_pos
      (show (shrunk page A r n B jumps).jumpInfo = true from hjump),
      readJumpInfo_of_holds hs hholds, hfirst]
  · rw [Bucket.first, Bucket.first, getPointerFirstNode, getPointerFirstNode, if_neg hjump,
      if_neg (show ¬ (shrunk page A r n B jumps).jumpInfo = true from hjump)]

theorem Layout.holds_shrunk (h : Layout page (A ++ r :: n :: B) jumps) :
    Holds (shrunk page A r n B jumps).bytes page.first
      (nodesBytes page.leafPage (A ++ expandNext r n :: B)) := by
  have hholds := h.holds
  rw [nodesBytes_append, holds_append] at hholds
  have hmoved : Holds (movedBytes page A r n B) page.first
      (nodesBytes page.leafPage (A ++ expandNext r n :: B)) := by
    rw [nodesBytes_append, holds_append]
    exact ⟨hholds.1.store (.inr (Nat.le_refl _)), holds_store⟩
  by_cases hjump : page.jumpInfo = true
  · obtain ⟨info, -, -, -, hbytes, hle⟩ := h.new_info hjump
    rw [hbytes]
    exact hmoved.store (.inl hle)
  · rw [shrunk, tableBytes, if_neg hjump]
    exact hmoved

theorem Layout.marker_shrunk (h : Layout page (A ++ r :: n :: B) jumps) :
    ∃ front node, A ++ expandNext r n :: B = front ++ [node] ∧
      (node.isEndBucket || node.isEndLevel) = true ∧
      ∀ node ∈ front, (node.isEndBucket || node.isEndLevel) = false := by
  obtain ⟨front, last, heq, hlast, hfront⟩ := h.marker
  rcases eq_nil_or_concat B with rfl | ⟨B, last', rfl⟩
  · rw [show A ++ [r, n] = (A ++ [r]) ++ [n] by simp] at heq
    obtain ⟨rfl, hn⟩ := append_inj' heq rfl
    obtain rfl : n = last := singleton_inj.1 hn
    exact ⟨A, expandNext r n, rfl, hlast, fun node hnode => hfront node (mem_append_left _ hnode)⟩
  · rw [concat_eq_append] at heq ⊢
    rw [show A ++ r :: n :: (B ++ [last']) = (A ++ r :: n :: B) ++ [last'] by simp] at heq
    obtain ⟨rfl, hn⟩ := append_inj' heq rfl
    obtain rfl : last' = last := singleton_inj.1 hn
    refine ⟨A ++ expandNext r n :: B, last', by simp, hlast, fun node hnode => ?_⟩
    rcases mem_append.1 hnode with hA | hB
    · exact hfront node (mem_append_left _ hA)
    · rcases mem_cons.1 hB with rfl | hB
      · exact hfront n (by simp)
      · exact hfront node (by simp [hB])

theorem PageOf.layout_shrunk (h : PageOf page (A ++ r :: n :: B) jumps) :
    Layout (shrunk page A r n B jumps) (A ++ expandNext r n :: B) (keptJumps page A r n jumps) := by
  have hl := h.toLayout
  have hfirst := hl.first_shrunk
  obtain ⟨hcA, hcrest⟩ := compressed_append.1 hl.compressed
  have hmem (node : IndexNode) (hnode : node ∈ A ++ expandNext r n :: B) :
      node = expandNext r n ∨ node ∈ A ++ r :: n :: B := by
    simp only [mem_append, mem_cons] at hnode ⊢
    tauto
  have htable := h.jumpTable.total_lt fun _ _ href => href.length_lt hl.storable
  constructor
  · rw [hfirst]
    exact hl.holds_shrunk
  · intro node hnode
    rcases hmem node hnode with rfl | hnode
    · exact hl.storable_new
    · exact hl.storable node hnode
  · intro hleaf node hnode
    rcases hmem node hnode with rfl | hnode
    · exact hl.leaf hleaf n (by simp)
    · exact hl.leaf hleaf node hnode
  · exact compressed_append.2 ⟨hcA, compressed_expandNext hcrest⟩
  · intro key hkey
    refine hl.key_lt key ?_
    rw [keysFrom_append] at hkey ⊢
    rw [keysFrom_expandNext hcrest]
    rcases mem_append.1 hkey with hkey | hkey
    · exact mem_append_left _ hkey
    · exact mem_append_right _ (mem_cons_of_mem _ hkey)
  · exact hl.marker_shrunk
  · rw [hfirst]
    rfl
  · have hle := hl.length_new_le
    have hlen := hl.btrLength_eq
    have hlt := hl.length_lt
    change page.offset (A ++ expandNext r n :: B) < 65536
    rw [show A ++ expandNext r n :: B = A ++ ([expandNext r n] ++ B) by rfl, offset_append,
      nodesBytes_append, length_append]
    rw [offset_append] at hlen
    omega
  · rfl
  · by_cases hjump : page.jumpInfo = true
    · rw [if_pos (show (shrunk page A r n B jumps).jumpInfo = true from hjump)]
      obtain ⟨info, hs, hcount, hoffset, hbytes, hle⟩ := hl.new_info hjump
      refine ⟨info, hs, hcount, ?_, ?_⟩
      · rw [hbytes]
        exact holds_store
      · rw [length_append, length_jumpInfoBytes] at hle
        omega
    · rw [if_neg (show ¬ (shrunk page A r n B jumps).jumpInfo = true from hjump)]
      have hnil := hl.jumpInfo
      rw [if_neg hjump] at hnil
      rw [hnil]
      rfl
  · exact storable_keepJumps hl.storableJumps htable none

section Sorted

variable {descending : Bool} {x y z : List UInt8} {a b : UInt8}

theorem Rises.trans (h : Rises descending x y) (h' : Rises descending y z) :
    Rises descending x z := by
  cases x with
  | nil =>
    cases y with
    | nil => exact h'
    | cons b y =>
      cases z with
      | nil => exact absurd (h.symm.trans h') (by decide)
      | cons c z => exact h
  | cons a x =>
    cases y with
    | nil =>
      cases z with
      | nil => exact h
      | cons c z => exact absurd (h.symm.trans h') (by decide)
    | cons b y =>
      cases z with
      | nil => exact h'
      | cons c z => exact UInt8.lt_trans h h'

theorem Rises.of_head_left (h : Rises descending (a :: x) z) (y : List UInt8) :
    Rises descending (a :: y) z := by
  cases z with
  | nil => exact h
  | cons c z => exact h

theorem Rises.of_head_right (h : Rises descending x (a :: y)) (z : List UInt8) :
    Rises descending x (a :: z) := by
  cases x with
  | nil => exact h
  | cons c x => exact h

theorem Follows.expandNext {before : Option (List UInt8)} {R N : List UInt8}
    (hr : Follows descending before r R) (hn : Follows descending (some R) n N) :
    Follows descending before (expandNext r n) N := by
  obtain ⟨hle, rfl, hrises⟩ := hn
  cases before with
  | none =>
    obtain ⟨hzero, rfl⟩ := hr
    refine ⟨?_, ?_⟩
    · rw [expandNext_nodePrefix_eq, hzero, Nat.zero_min]
    · simp [Btn.expandNext, hzero]
  | some P =>
    obtain ⟨hP, rfl, hrises'⟩ := hr
    have hlen : (P.take r.nodePrefix).length = r.nodePrefix := length_take_of_le hP
    refine ⟨?_, (expandNext_key hP).symm, ?_⟩
    · rw [expandNext_nodePrefix_eq]
      omega
    · rw [expandNext_nodePrefix_eq]
      rcases Nat.lt_trichotomy n.nodePrefix r.nodePrefix with hlt | heq | hgt
      · -- Both keys go on with the same byte.
        obtain ⟨a, x, hx⟩ : ∃ a x, (P.take r.nodePrefix).drop n.nodePrefix = a :: x :=
          exists_cons_of_ne_nil (by rw [Ne, drop_eq_nil_iff, hlen]; omega)
        have hdrop : P.drop n.nodePrefix = a :: (x ++ P.drop r.nodePrefix) := by
          rw [← cons_append, ← hx, ← drop_append_of_le_length (by omega), take_append_drop]
        rw [drop_append_of_le_length (by omega), hx] at hrises
        rw [Nat.min_eq_right (by omega), hdrop]
        simp only [Btn.expandNext, show n.nodePrefix - r.nodePrefix = 0 by omega]
        exact Rises.of_head_left hrises _
      · simp only [Btn.expandNext, heq, Nat.sub_self, Nat.min_self]
        rw [heq, drop_left' hlen] at hrises
        exact Rises.trans hrises' hrises
      · -- The expanded node goes on with the data of the deleted one.
        rw [length_append, hlen] at hle
        obtain ⟨b, y, hy⟩ : ∃ b y, r.data = b :: y :=
          exists_cons_of_ne_nil (by rw [Ne, ← length_eq_zero_iff]; omega)
        obtain ⟨k, hk⟩ : ∃ k, n.nodePrefix - r.nodePrefix = k + 1 :=
          ⟨n.nodePrefix - r.nodePrefix - 1, by omega⟩
        rw [hy] at hrises'
        rw [Nat.min_eq_left (by omega)]
        simp only [Btn.expandNext, hk, hy]
        exact Rises.of_head_right hrises' _

theorem Nodes.expandNext {before : Option (List UInt8)} {keys : List (List UInt8)}
    (hs : Storable n) (h : Nodes descending before (A ++ r :: n :: B) keys) :
    ∃ keys', Nodes descending before (A ++ expandNext r n :: B) keys' := by
  induction A generalizing before keys with
  | nil =>
    cases h with
    | cons hl hb hf hn =>
      cases hn with
      | endLevel hl' hd' =>
        have hdata : (Btn.expandNext r n).data = [] := by
          rw [hs.endLevel hl', Btn.expandNext]
          simp
        exact ⟨_, .endLevel hl' hdata⟩
      | endBucket hl' hb' hf' => exact ⟨_, .endBucket hl' hb' (Follows.expandNext hf hf')⟩
      | cons hl' hb' hf' hn' => exact ⟨_, .cons hl' hb' (Follows.expandNext hf hf') hn'⟩
  | cons a A ih =>
    rw [cons_append] at h
    generalize hrest : A ++ r :: n :: B = rest at h
    cases h with
    | endLevel => simp at hrest
    | endBucket => simp at hrest
    | cons hl hb hf hn =>
      obtain ⟨keys', hkeys'⟩ := ih (hrest ▸ hn)
      exact ⟨_, .cons hl hb hf hkeys'⟩

end Sorted

/-! ## When the page stays well-formed -/

/-- The page is well-formed, and has the other entries. If the nodes were sorted and compressed as
far as possible, they still are. -/
def Deletes (page' : Bucket) (nodes : List IndexNode) (i : Nat) : Prop :=
  ∃ nodes' jumps', PageOf page' nodes' jumps' ∧ entries nodes' = (entries nodes).eraseIdx i ∧
    ∀ descending keys, Nodes descending none nodes keys →
      ∃ keys', Nodes descending none nodes' keys'

def jumpsBefore (dp : Nat) (jumps : List IndexJumpNode) : List IndexJumpNode :=
  jumps.takeWhile (·.offset < dp)

def jumpsBetween (dp np : Nat) (jumps : List IndexJumpNode) : List IndexJumpNode :=
  (jumps.dropWhile (·.offset < dp)).takeWhile (·.offset ≤ np)

def jumpsBehind (dp np : Nat) (jumps : List IndexJumpNode) : List IndexJumpNode :=
  (jumps.dropWhile (·.offset < dp)).dropWhile (·.offset ≤ np)

theorem jumps_split (dp np : Nat) (jumps : List IndexJumpNode) :
    jumps = jumpsBefore dp jumps ++ (jumpsBetween dp np jumps ++ jumpsBehind dp np jumps) := by
  rw [jumpsBefore, jumpsBetween, jumpsBehind, takeWhile_append_dropWhile,
    takeWhile_append_dropWhile]

theorem JumpTable.le_of_dropWhile {refers : Nat → List UInt8 → Prop} {offset : Nat}
    {s : List UInt8} (h : JumpTable refers offset s jumps) (p : IndexJumpNode → Bool)
    (hp : ∀ j j' : IndexJumpNode, j.offset < j'.offset → p j' = true → p j = true) :
    ∀ j ∈ jumps.dropWhile p, p j = false := by
  induction jumps generalizing offset s with
  | nil => simp
  | cons j jumps ih =>
    rw [dropWhile_cons]
    split_ifs with hj
    · exact ih h.2.2.2
    · have hlt := h.2.2.2.offset_lt
      rw [forall_mem_cons]
      refine ⟨by simpa using hj, fun j' hj' => ?_⟩
      by_contra hp'
      exact hj (hp j j' (hlt j' hj') (by simpa using hp'))

theorem JumpTable.parts {refers : Nat → List UInt8 → Prop} {dp np : Nat}
    (h : JumpTable refers 0 [] jumps) :
    (∀ j ∈ jumpsBefore dp jumps, j.offset < dp) ∧
      (∀ j ∈ jumpsBetween dp np jumps, dp ≤ j.offset ∧ j.offset ≤ np) ∧
      ∀ j ∈ jumpsBehind dp np jumps, np < j.offset := by
  have hrest := h.le_of_dropWhile (·.offset < dp) fun j j' hlt hp => by
    simp only [decide_eq_true_eq] at hp ⊢
    omega
  rw [← @List.takeWhile_append_dropWhile _ (·.offset < dp) jumps, jumpTable_append] at h
  have hbehind := h.2.le_of_dropWhile (·.offset ≤ np) fun j j' hlt hp => by
    simp only [decide_eq_true_eq] at hp ⊢
    omega
  refine ⟨fun j hj => ?_, fun j hj => ⟨?_, ?_⟩, fun j hj => ?_⟩
  · simpa using mem_takeWhile_imp hj
  · simpa using hrest j (takeWhile_subset _ hj)
  · simpa using mem_takeWhile_imp hj
  · simpa using hbehind j hj

theorem keyBehind_expandNext (h : Compressed [] (A ++ r :: n :: B)) :
    keyBehind [] (A ++ [r, n]) = keyBehind [] (A ++ [expandNext r n]) := by
  rw [keyBehind_append, keyBehind_append]
  exact (expandNext_key (compressed_append.1 h).2.1).symm

theorem PageOf.jumpTable_shrunk_iff (h : PageOf page (A ++ r :: n :: B) jumps) :
    JumpTable (Refers page.leafPage page.first (A ++ expandNext r n :: B)) 0 []
        (keptJumps page A r n jumps) ↔
      Rebuilt (jumpsBefore (page.offset A) jumps)
        (jumpsBetween (page.offset A) (page.offset (A ++ [r, n])) jumps)
        (jumpsBehind (page.offset A) (page.offset (A ++ [r, n])) jumps) := by
  have htable := h.jumpTable
  obtain ⟨hbefore, hbetween, hbehind⟩ := @JumpTable.parts jumps _ (page.offset A)
    (page.offset (A ++ [r, n])) htable
  have hle := h.length_new_le
  have hnp := @offset_append page A [r, n]
  rw [jumps_split (page.offset A) (page.offset (A ++ [r, n])) jumps] at htable
  conv_lhs => rw [jumps_split (page.offset A) (page.offset (A ++ [r, n])) jumps]
  refine jumpTable_keepJumps_iff (by omega) (fun offset s hlt href => ?_)
    (fun offset s hlt href => ?_)
    (fun offset s s' => Refers.unique) hbefore hbetween hbehind htable
  · exact href.replace_back hlt _
  · have heq : A ++ r :: n :: B = (A ++ [r, n]) ++ B := by simp
    have heq' : A ++ expandNext r n :: B = (A ++ [expandNext r n]) ++ B := by simp
    rw [heq] at href
    have hmoved := href.replace_front (Nat.le_of_lt hlt) (keyBehind_expandNext h.compressed)
    convert hmoved using 1
    rw [Bucket.offset] at hlt
    rw [nodesBytes_append, nodesBytes_append, length_append, length_append]
    rw [nodesBytes_append, length_append] at hlt
    omega

theorem PageOf.deletes_shrunk_iff (h : PageOf page (A ++ r :: n :: B) jumps) :
    Deletes (shrunk page A r n B jumps) (A ++ r :: n :: B) A.length ↔
      Rebuilt (jumpsBefore (page.offset A) jumps)
        (jumpsBetween (page.offset A) (page.offset (A ++ [r, n])) jumps)
        (jumpsBehind (page.offset A) (page.offset (A ++ [r, n])) jumps) := by
  have hlayout := h.layout_shrunk
  have hfirst := h.first_shrunk
  rw [← h.jumpTable_shrunk_iff]
  constructor
  · rintro ⟨nodes', jumps', hpage, -, -⟩
    obtain ⟨rfl, rfl⟩ := hpage.toLayout.unique hlayout
    rw [← hfirst]
    exact hpage.jumpTable
  · intro htable
    rw [← hfirst] at htable
    exact ⟨_, _, ⟨hlayout, htable⟩, entries_expandNext h.compressed,
      fun descending keys => Nodes.expandNext (h.storable n (by simp))⟩

/-- Deleting a node keeps the page well-formed if and only if the jump node behind the deleted jump
nodes can be expanded with the last one of them. -/
theorem deleteNode_deletes_iff (h : PageOf page (A ++ r :: n :: B) jumps) :
    Deletes (deleteNode pageSize page (page.offset A)).1 (A ++ r :: n :: B) A.length ↔
      Rebuilt (jumpsBefore (page.offset A) jumps)
        (jumpsBetween (page.offset A) (page.offset (A ++ [r, n])) jumps)
        (jumpsBehind (page.offset A) (page.offset (A ++ [r, n])) jumps) := by
  rw [deleteNode_eq h.toLayout]
  exact h.deletes_shrunk_iff

def wideNode (k : UInt8) : IndexNode := ⟨2, List.replicate 1300 k, k.toNat, 0, false, false⟩

def wideNodes : List IndexNode :=
  [⟨0, [1, 1] ++ List.replicate 1300 1, 1, 0, false, false⟩, wideNode 2, wideNode 3, wideNode 4,
    wideNode 5, ⟨0, [], 0, 0, false, true⟩]

def wideJumps : List IndexJumpNode := [⟨0, [1, 1], 1364⟩, ⟨2, [], 2669⟩, ⟨2, [], 3974⟩,
    ⟨2, [], 5279⟩]

def widePage : Bucket where
  bytes := store (fun _ => 0) btrNodes (jumpInfoBytes ⟨57, 1216, 4⟩ ++
    wideJumps.flatMap jumpNodeBytes ++ nodesBytes true wideNodes)
  btrLength := 6585
  btrPrefixTotal := 8
  btrLevel := 0
  jumpInfo := true

theorem length_wideNode (k : UInt8) : (wideNode k).data.length = 1300 := length_replicate

theorem storable_wideNode (k : UInt8) : Storable (wideNode k) := by
  have hk := k.toNat_lt
  refine ⟨(by decide : 2 < 2 ^ 14), ?_, Int.natCast_nonneg _, ?_, Int.le_refl 0,
    (by decide : (0 : Int) < 2 ^ 31), nofun⟩
  · rw [length_wideNode]
    decide
  · change (k.toNat : Int) < _
    omega

theorem storable_wideFirst :
    Storable ⟨0, [1, 1] ++ replicate 1300 1, 1, 0, false, false⟩ := by
  refine ⟨by decide, ?_, by decide, by decide, Int.le_refl 0, by decide, nofun⟩
  rw [length_append, length_replicate]
  decide

theorem storable_wideNodes : ∀ node ∈ wideNodes, Storable node := by
  simp only [wideNodes, forall_mem_cons]
  exact ⟨storable_wideFirst, storable_wideNode 2, storable_wideNode 3, storable_wideNode 4,
    storable_wideNode 5, ⟨by decide, by decide, by decide, by decide, by decide, by decide,
      fun _ => rfl⟩, by simp⟩

theorem length_wideFirst_bytes :
    (nodeBytes ⟨0, [1, 1] ++ replicate 1300 1, 1, 0, false, false⟩ true).length = 1307 := by
  rw [length_nodeBytes storable_wideFirst, getNodeSize, internalFlags, length_append,
    length_replicate]
  decide

theorem length_wideNode_bytes (k : UInt8) (hk : k.toNat < 32) :
    (nodeBytes (wideNode k) true).length = 1305 := by
  have hzero : k.toNat >>> 5 = 0 := by
    rw [Nat.shiftRight_eq_div_pow]
    omega
  rw [length_nodeBytes (storable_wideNode k), getNodeSize, internalFlags, length_wideNode, wideNode]
  simp only [Int.toNat_natCast, hzero]
  rfl

theorem holds_widePage : Holds widePage.bytes btrNodes (jumpInfoBytes ⟨57, 1216, 4⟩) ∧
    Holds widePage.bytes 39 (wideJumps.flatMap jumpNodeBytes) ∧
    Holds widePage.bytes 57 (nodesBytes true wideNodes) := by
  have h : Holds widePage.bytes btrNodes (jumpInfoBytes ⟨57, 1216, 4⟩ ++
    wideJumps.flatMap jumpNodeBytes ++ nodesBytes true wideNodes) := holds_store
  rw [holds_append, holds_append] at h
  exact ⟨h.1.1, h.1.2, h.2⟩

theorem first_widePage : widePage.first = 57 := by
  rw [Bucket.first, getPointerFirstNode, if_pos (show widePage.jumpInfo = true from rfl),
    readJumpInfo_of_holds ⟨by decide, by decide, by decide⟩ holds_widePage.1]

theorem length_wideNodes_take :
    (nodesBytes true (wideNodes.take 1)).length = 1307 ∧
      (nodesBytes true (wideNodes.take 2)).length = 2612 ∧
      (nodesBytes true (wideNodes.take 3)).length = 3917 ∧
      (nodesBytes true (wideNodes.take 4)).length = 5222 ∧
      (nodesBytes true (wideNodes.take 5)).length = 6527 ∧
      (nodesBytes true wideNodes).length = 6528 := by
  simp only [wideNodes, take_succ_cons, nodesBytes_cons, length_append, length_wideFirst_bytes,
    length_wideNode_bytes 2 (by decide), length_wideNode_bytes 3
      (by decide), length_wideNode_bytes 4 (by decide), length_wideNode_bytes 5 (by decide)]
  exact ⟨rfl, rfl, rfl, rfl, rfl, rfl⟩

theorem keysFrom_wideNodes : keysFrom [] wideNodes =
    [[1, 1] ++ replicate 1300 1, [1, 1] ++ replicate 1300 2, [1, 1] ++ replicate 1300 3,
      [1, 1] ++ replicate 1300 4, [1, 1] ++ replicate 1300 5, []] := rfl

theorem compressed_wideNodes : Compressed [] wideNodes := by
  have hlen (k : UInt8) : 2 ≤ ([1, 1] ++ replicate 1300 k).length := by
    rw [length_append]
    exact Nat.le_add_right 2 _
  exact ⟨Nat.zero_le _, hlen 1, hlen 2, hlen 3, hlen 4, Nat.zero_le _, trivial⟩

theorem refers_wideNodes {i offset : Nat} {k : UInt8} (hnode : wideNodes[i]? = some (wideNode k))
    (hoffset : offset = 57 + (nodesBytes true (wideNodes.take i)).length)
    (hkey : (keysFrom [] wideNodes).getD i [] = [1, 1] ++ replicate 1300 k) :
    Refers true 57 wideNodes offset [1, 1] := by
  obtain ⟨hlt, hget⟩ := List.getElem?_eq_some_iff.1 hnode
  refine ⟨wideNodes.take i, wideNode k, wideNodes.drop (i + 1), ?_, hoffset, ?_⟩
  · rw [← hget, ← drop_eq_getElem_cons hlt, take_append_drop]
  · rw [length_take_of_le (Nat.le_of_lt hlt), hkey]
    rfl

theorem pageOf_widePage : PageOf widePage wideNodes wideJumps := by
  obtain ⟨hinfo, hjumps, hnodes⟩ := holds_widePage
  obtain ⟨h₁, h₂, h₃, h₄, h₅, hall⟩ := length_wideNodes_take
  refine ⟨⟨?_, storable_wideNodes, ?_, compressed_wideNodes, ?_, ?_, ?_, by decide, rfl, ?_, ?_⟩,
    ?_⟩
  · rw [first_widePage]
    exact hnodes
  · simp only [wideNodes, forall_mem_cons]
    exact fun _ => ⟨trivial, rfl, rfl, rfl, rfl, trivial, by simp⟩
  · have hlen (k : UInt8) : ([1, 1] ++ replicate 1300 k).length < 2 ^ 14 := by
      rw [length_append, length_replicate]
      decide
    simp only [keysFrom_wideNodes, forall_mem_cons]
    exact ⟨hlen 1, hlen 2, hlen 3, hlen 4, hlen 5, by decide, by simp⟩
  · refine ⟨wideNodes.take 5, ⟨0, [], 0, 0, false, true⟩, rfl, rfl, ?_⟩
    simp only [wideNodes, take_succ_cons, forall_mem_cons]
    exact ⟨rfl, rfl, rfl, rfl, rfl, by simp⟩
  · rw [first_widePage, show widePage.leafPage = true from rfl, hall]
    rfl
  · rw [if_pos (show widePage.jumpInfo = true from rfl)]
    refine ⟨⟨57, 1216, 4⟩, ⟨by decide, by decide, by decide⟩, rfl, holds_append.2 ⟨hinfo, hjumps⟩,
      ?_⟩
    decide
  · simp only [wideJumps, forall_mem_cons]
    exact ⟨⟨by decide, by decide, by decide⟩, ⟨by decide, by decide, by decide⟩,
      ⟨by decide, by decide, by decide⟩, ⟨by decide, by decide, by decide⟩, by simp⟩
  · rw [first_widePage]
    exact ⟨by decide, by decide, refers_wideNodes rfl (by rw [h₁]) rfl,
      by decide, by decide, refers_wideNodes (i := 2) rfl (by rw [h₂]) rfl,
      by decide, by decide, refers_wideNodes (i := 3) rfl (by rw [h₃]) rfl,
      by decide, by decide, refers_wideNodes (i := 4) rfl (by rw [h₄]) rfl, trivial⟩

/-- The last node of the page is deleted, and its jump node with it. -/
theorem deleteNode_deletes_last :
    Deletes (deleteNode 16384 widePage (widePage.offset (wideNodes.take 4))).1 wideNodes 4 := by
  obtain ⟨-, -, -, h₄, -, hall⟩ := length_wideNodes_take
  have hdp : widePage.offset (wideNodes.take 4) = 5279 := by
    rw [Bucket.offset, first_widePage, show widePage.leafPage = true from rfl, h₄]
  have hnp : widePage.offset (wideNodes.take 4 ++ [wideNode 5, ⟨0, [], 0, 0, false, true⟩]) =
    6585 := by
    have heq : wideNodes.take 4 ++ [wideNode 5, ⟨0, [], 0, 0, false, true⟩] = wideNodes := rfl
    rw [heq, Bucket.offset, first_widePage, show widePage.leafPage = true from rfl, hall]
  refine (@deleteNode_deletes_iff widePage (wideNode 5) ⟨0, [], 0, 0, false, true⟩
    (wideNodes.take 4) []
    wideJumps 16384 pageOf_widePage).2 ?_
  rw [hdp, hnp]
  simp [Rebuilt, jumpsBehind, wideJumps]

/-- The second node of the page is deleted. Its jump node and those of the two nodes behind it are
deleted too, and the last jump node is left with bytes of a jump node that is not there. -/
theorem not_deleteNode_deletes : PageOf widePage wideNodes wideJumps ∧
    ¬ Deletes (deleteNode 16384 widePage (widePage.offset (wideNodes.take 1))).1 wideNodes 1 := by
  refine ⟨pageOf_widePage, fun h => ?_⟩
  obtain ⟨h₁, -, h₃, -⟩ := length_wideNodes_take
  have hdp : widePage.offset (wideNodes.take 1) = 1364 := by
    rw [Bucket.offset, first_widePage, show widePage.leafPage = true from rfl, h₁]
  have hnp : widePage.offset (wideNodes.take 1 ++ [wideNode 2, wideNode 3]) = 3974 := by
    have heq : wideNodes.take 1 ++ [wideNode 2, wideNode 3] = wideNodes.take 3 := rfl
    rw [heq, Bucket.offset, first_widePage, show widePage.leafPage = true from rfl, h₃]
  have hpage : PageOf widePage (wideNodes.take 1 ++ wideNode 2 :: wideNode 3 :: wideNodes.drop 3)
    wideJumps := pageOf_widePage
  rw [deleteNode_eq hpage.toLayout] at h
  have hrebuilt := hpage.deletes_shrunk_iff.1 h
  rw [hdp, hnp] at hrebuilt
  simp [Rebuilt, jumpsBefore, jumpsBetween, jumpsBehind, wideJumps, jumpString,
    expandJump] at hrebuilt

end Firebird.Jrd.Btn
