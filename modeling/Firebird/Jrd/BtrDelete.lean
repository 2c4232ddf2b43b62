import Mathlib.Data.List.GetD
import Firebird.Jrd.BtnJump

/-!
# Deleting a node of an index page

`delete_node` of `btr.cpp` on the bytes of a page with large keys. The node behind the deleted one
is expanded, the rest of the page is moved, and the jump table is written anew.
-/
namespace Firebird.Jrd.Btn

open Lib Btr Memory List

/-- What the header of a page says, and its bytes. `jumpInfo` is `btr_jump_info`. -/
structure Bucket where
  bytes : Page
  btrLength : Nat
  btrPrefixTotal : Int
  btrLevel : Nat
  jumpInfo : Bool

def Bucket.leafPage (page : Bucket) : Bool := page.btrLevel == 0

def Bucket.first (page : Bucket) : Nat := getPointerFirstNode page.bytes page.jumpInfo

inductive Contents
  | empty
  | single
  | belowThreshold
  | aboveThreshold
  deriving DecidableEq

def keepJumpNode (offsetDeletePoint delta : Nat) (delJumpNode : Option IndexJumpNode)
    (jumpNode : IndexJumpNode) : IndexJumpNode :=
  let offset := if jumpNode.offset > offsetDeletePoint then jumpNode.offset - delta else
    jumpNode.offset
  match delJumpNode with
  | some delJumpNode =>
    if jumpNode.jumpPrefix > delJumpNode.jumpPrefix then
      let addLength := jumpNode.jumpPrefix - delJumpNode.jumpPrefix
      ⟨jumpNode.jumpPrefix - addLength, delJumpNode.data.take addLength ++ jumpNode.data, offset⟩
    else ⟨jumpNode.jumpPrefix, jumpNode.data, offset⟩
  | none => ⟨jumpNode.jumpPrefix, jumpNode.data, offset⟩

/-- The loop over the jump nodes. The deleted one in front is kept for `rebuild`. -/
def keepJumpNodes (page : Page) (offsetDeletePoint offsetNextPoint delta : Nat) :
    Nat → Nat → Option IndexJumpNode → List IndexJumpNode
  | 0, _, _ => []
  | n + 1, pointer, delJumpNode =>
    let (jumpNode, pointer) := readJumpNode page pointer
    if jumpNode.offset < offsetDeletePoint ∨ jumpNode.offset > offsetNextPoint then
      keepJumpNode offsetDeletePoint delta delJumpNode jumpNode ::
        keepJumpNodes page offsetDeletePoint offsetNextPoint delta n pointer none
    else keepJumpNodes page offsetDeletePoint offsetNextPoint delta n pointer (some jumpNode)

def writeJumpNodes (page : Page) : List IndexJumpNode → Nat → Page × Nat
  | [], pointer => (page, pointer)
  | jumpNode :: jumpNodes, pointer =>
    let (page, pointer) := writeJumpNode page jumpNode pointer
    writeJumpNodes page jumpNodes pointer

def expandNext (removingNode nextNode : IndexNode) : IndexNode :=
  let length := nextNode.nodePrefix - removingNode.nodePrefix
  { nextNode with
    nodePrefix := nextNode.nodePrefix - length
    data := removingNode.data.take length ++ nextNode.data }

def contentsOf (pageSize : Nat) (page : Bucket) : Contents :=
  let leafPage := page.leafPage
  let pointer := page.first
  let (node, pointer) := readNode page.bytes 0 pointer leafPage
  if node.isEndBucket || node.isEndLevel then .empty
  else
    let (node, _) := readNode page.bytes 0 pointer leafPage
    if node.isEndBucket || node.isEndLevel then .single
    else if page.btrLength < pageSize / 4 then .belowThreshold
    else .aboveThreshold

def deleteNode (pageSize : Nat) (page : Bucket) (pointer : Nat) : Bucket × Contents :=
  let leafPage := page.leafPage
  let offsetDeletePoint := pointer
  let (removingNode, localPointer) := readNode page.bytes 0 pointer leafPage
  let (nextNode, localPointer) := readNode page.bytes 0 localPointer leafPage
  let offsetNextPoint := localPointer
  let newNode := expandNext removingNode nextNode
  let btrPrefixTotal := page.btrPrefixTotal -
    (removingNode.nodePrefix + (nextNode.nodePrefix - newNode.nodePrefix : Nat))
  let (bytes, pointer) := writeNode page.bytes newNode pointer leafPage
  let length := page.btrLength - localPointer
  let bytes := move bytes pointer localPointer length
  let btrLength := pointer + length
  let delta := page.btrLength - btrLength
  let bytes :=
    if page.jumpInfo then
      let (jumpInfo, pointer) := readJumpInfo bytes btrNodes
      let jumpNodes :=
        keepJumpNodes bytes offsetDeletePoint offsetNextPoint delta jumpInfo.jumpers pointer none
      let (bytes, pointer) := writeJumpInfo bytes { jumpInfo with jumpers := jumpNodes.length }
      (writeJumpNodes bytes jumpNodes pointer).1
    else bytes
  let page := { page with bytes, btrLength, btrPrefixTotal }
  (page, contentsOf pageSize page)

def nodesBytes (leaf : Bool) (nodes : List IndexNode) : List UInt8 :=
  nodes.flatMap fun node => nodeBytes node leaf

def keysFrom : List UInt8 → List IndexNode → List (List UInt8)
  | _, [] => []
  | key, node :: nodes =>
    (key.take node.nodePrefix ++ node.data) :: keysFrom (key.take node.nodePrefix ++ node.data)
      nodes

def Compressed : List UInt8 → List IndexNode → Prop
  | _, [] => True
  | key, node :: nodes =>
    node.nodePrefix ≤ key.length ∧ Compressed (key.take node.nodePrefix ++ node.data) nodes

/-- What stands for the nodes: the key of each, its numbers and its markers. -/
def entries (nodes : List IndexNode) : List (List UInt8 × Int × Int × Bool × Bool) :=
  List.zipWith (fun node key =>
    (key, node.recordNumber, node.pageNumber, node.isEndBucket, node.isEndLevel)) nodes
    (keysFrom [] nodes)

def Refers (leaf : Bool) (first : Nat) (nodes : List IndexNode) (offset : Nat) (s : List UInt8) :
    Prop :=
  ∃ front node back, nodes = front ++ node :: back ∧
    offset = first + (nodesBytes leaf front).length ∧
    s = ((keysFrom [] nodes).getD front.length []).take node.nodePrefix

def expandJump (s : List UInt8) (j : IndexJumpNode) : List UInt8 := s.take j.jumpPrefix ++ j.data

def JumpTable (refers : Nat → List UInt8 → Prop) : Nat → List UInt8 → List IndexJumpNode → Prop
  | _, _, [] => True
  | offset, s, j :: jumps => offset < j.offset ∧ j.jumpPrefix ≤ s.length ∧
      refers j.offset (expandJump s j) ∧ JumpTable refers j.offset (expandJump s j) jumps

/-- The bytes of a page with the given nodes and jump nodes. -/
structure Layout (page : Bucket) (nodes : List IndexNode) (jumps : List IndexJumpNode) : Prop where
  holds : Holds page.bytes page.first (nodesBytes page.leafPage nodes)
  storable : ∀ node ∈ nodes, Storable node
  leaf : page.leafPage = true → ∀ node ∈ nodes, node.pageNumber = 0
  compressed : Compressed [] nodes
  key_lt : ∀ key ∈ keysFrom [] nodes, key.length < 2 ^ 14
  marker : ∃ front node, nodes = front ++ [node] ∧ (node.isEndBucket || node.isEndLevel) = true ∧
    ∀ node ∈ front, (node.isEndBucket || node.isEndLevel) = false
  length : page.btrLength = page.first + (nodesBytes page.leafPage nodes).length
  length_lt : page.btrLength < 65536
  prefixTotal : page.btrPrefixTotal = ((nodes.map (·.nodePrefix)).sum : Nat)
  jumpInfo : if page.jumpInfo then ∃ info, StorableInfo info ∧ info.jumpers = jumps.length ∧
      Holds page.bytes btrNodes (jumpInfoBytes info ++ jumps.flatMap jumpNodeBytes) ∧
      btrNodes + 5 + (jumps.flatMap jumpNodeBytes).length ≤ info.firstNodeOffset
    else jumps = []
  storableJumps : ∀ j ∈ jumps, StorableJump j

/-- A well-formed page with the given nodes and jump nodes. -/
structure PageOf (page : Bucket) (nodes : List IndexNode) (jumps : List IndexJumpNode) :
    Prop extends
    Layout page nodes jumps where
  jumpTable : JumpTable (Refers page.leafPage page.first nodes) 0 [] jumps

/-! ## The jump table -/

variable {refers refers' : Nat → List UInt8 → Prop} {offset dp np delta : Nat} {s s' : List UInt8}
  {j d f : IndexJumpNode} {jumps front gone back : List IndexJumpNode}

def jumpString (s : List UInt8) (jumps : List IndexJumpNode) :
    List UInt8 := jumps.foldl expandJump s

def jumpOffset (offset : Nat) (jumps : List IndexJumpNode) : Nat :=
  jumps.foldl (fun _ j => j.offset) offset

theorem jumpTable_append : JumpTable refers offset s (front ++ back) ↔
    JumpTable refers offset s front ∧
      JumpTable refers (jumpOffset offset front) (jumpString s front) back := by
  induction front generalizing offset s with
  | nil => simp [JumpTable, jumpOffset, jumpString]
  | cons j front ih =>
    simp only [cons_append, JumpTable, ih, and_assoc]
    rfl

theorem JumpTable.offset_lt (h : JumpTable refers offset s jumps) :
    ∀ j ∈ jumps, offset < j.offset := by
  induction jumps generalizing offset s with
  | nil => simp
  | cons j jumps ih =>
    rw [forall_mem_cons]
    exact ⟨h.1, fun j' hj' => Nat.lt_trans h.1 (ih h.2.2.2 j' hj')⟩

def keepJumps (dp np delta : Nat) : List IndexJumpNode → Option IndexJumpNode → List IndexJumpNode
  | [], _ => []
  | j :: jumps, del =>
    if j.offset < dp ∨ j.offset > np then
      keepJumpNode dp delta del j :: keepJumps dp np delta jumps none
    else keepJumps dp np delta jumps (some j)

theorem keepJumps_front (h : ∀ j ∈ front, j.offset < dp) :
    keepJumps dp np delta (front ++ back) none = front ++ keepJumps dp np delta back none := by
  induction front with
  | nil => rfl
  | cons j front ih =>
    rw [forall_mem_cons] at h
    rw [cons_append, keepJumps, if_pos (.inl h.1), ih h.2, cons_append, keepJumpNode]
    simp [show ¬ j.offset > dp by omega]

theorem keepJumps_gone (h : ∀ j ∈ gone, dp ≤ j.offset ∧ j.offset ≤ np)
    (del : Option IndexJumpNode) :
    keepJumps dp np delta (gone ++ back) del =
      keepJumps dp np delta back (gone.getLast?.or del) := by
  induction gone generalizing del with
  | nil => rfl
  | cons j gone ih =>
    rw [forall_mem_cons] at h
    rw [cons_append, keepJumps, if_neg (by omega), ih h.2]
    cases gone with
    | nil => rfl
    | cons j' gone =>
      rfl

theorem keepJumps_back (h : ∀ j ∈ back, np < j.offset) (hdp : dp ≤ np) :
    keepJumps dp np delta back none = back.map fun j =>
      ⟨j.jumpPrefix, j.data, j.offset - delta⟩ := by
  induction back with
  | nil => rfl
  | cons j back ih =>
    rw [forall_mem_cons] at h
    rw [keepJumps, if_pos (.inr h.1), ih h.2, map_cons, keepJumpNode]
    simp [show j.offset > dp by omega]

/-- The jump node behind the deleted ones is as long as before with the string in front of them. -/
def Rebuilt (front gone back : List IndexJumpNode) : Prop :=
  ∀ d ∈ gone.getLast?, ∀ f ∈ back.head?,
    (jumpString [] front).take (min f.jumpPrefix d.jumpPrefix) =
      (jumpString [] (front ++ gone.dropLast)).take (min f.jumpPrefix d.jumpPrefix)

theorem JumpTable.imp (h : JumpTable refers offset s jumps)
    (himp : ∀ j ∈ jumps, ∀ s, refers j.offset s → refers' j.offset s) :
    JumpTable refers' offset s jumps := by
  induction jumps generalizing offset s with
  | nil => trivial
  | cons j jumps ih =>
    rw [forall_mem_cons] at himp
    exact ⟨h.1, h.2.1, himp.1 _ h.2.2.1, ih h.2.2.2 himp.2⟩

theorem JumpTable.move (h : JumpTable refers offset s jumps) (hoff : ∀ j ∈ jumps, delta < j.offset)
    (himp : ∀ j ∈ jumps, ∀ s, refers j.offset s → refers' (j.offset - delta) s) :
    JumpTable refers' (offset - delta) s
      (jumps.map fun j => ⟨j.jumpPrefix, j.data, j.offset - delta⟩) := by
  induction jumps generalizing offset s with
  | nil => trivial
  | cons j jumps ih =>
    rw [forall_mem_cons] at himp hoff
    have hlt := h.1
    exact ⟨show offset - delta < j.offset - delta by omega, h.2.1, himp.1 _ h.2.2.1,
      ih h.2.2.2 hoff.2 himp.2⟩

theorem jumpOffset_le (h : ∀ j ∈ jumps, j.offset < dp) (hle : offset ≤ dp) :
    jumpOffset offset jumps ≤ dp := by
  induction jumps generalizing offset with
  | nil => exact hle
  | cons j jumps ih =>
    rw [forall_mem_cons] at h
    exact ih h.2 (Nat.le_of_lt h.1)

theorem keepJumpNode_offset (del : Option IndexJumpNode) :
    (keepJumpNode dp delta del f).offset = if f.offset > dp then f.offset - delta else
      f.offset := by
  cases del with
  | none => rfl
  | some d =>
    rw [keepJumpNode]
    split_ifs <;> rfl

theorem keepJumpNode_prefix_eq :
    (keepJumpNode dp delta (some d) f).jumpPrefix = min f.jumpPrefix d.jumpPrefix := by
  by_cases hgt : f.jumpPrefix > d.jumpPrefix
  · simp only [keepJumpNode, if_pos hgt]
    omega
  · simp only [keepJumpNode, if_neg hgt]
    omega

theorem keepJumpNode_data (hd : d.jumpPrefix ≤ s.length) :
    expandJump (expandJump s d) f =
      s.take (min f.jumpPrefix d.jumpPrefix) ++ (keepJumpNode dp delta (some d) f).data := by
  have hlen : (s.take d.jumpPrefix).length = d.jumpPrefix := length_take_of_le hd
  by_cases hgt : f.jumpPrefix > d.jumpPrefix
  · simp only [keepJumpNode, if_pos hgt]
    rw [expandJump, expandJump, take_append, hlen, take_of_length_le (by omega),
      Nat.min_eq_right (by omega), append_assoc]
  · simp only [keepJumpNode, if_neg hgt]
    rw [expandJump, expandJump, take_append_of_le_length (by omega), take_take]

theorem expandJump_keepJumpNode (hd : d.jumpPrefix ≤ s.length) :
    (keepJumpNode dp delta (some d) f).jumpPrefix ≤ s'.length ∧
        expandJump s' (keepJumpNode dp delta (some d) f) = expandJump (expandJump s d) f ↔
      s'.take (min f.jumpPrefix d.jumpPrefix) = s.take (min f.jumpPrefix d.jumpPrefix) := by
  rw [keepJumpNode_data hd, expandJump, keepJumpNode_prefix_eq]
  constructor
  · rintro ⟨-, heq⟩
    exact append_cancel_right heq
  · intro heq
    have hlen := congrArg List.length heq
    rw [length_take, length_take] at hlen
    exact ⟨by omega, by rw [heq]⟩

theorem jumpTable_keepJumps_iff (hdelta : dp + delta ≤ np)
    (hlow : ∀ offset s, offset < dp → refers offset s → refers' offset s)
    (hhigh : ∀ offset s, np < offset → refers offset s → refers' (offset - delta) s)
    (hunique : ∀ offset s s', refers' offset s → refers' offset s' → s = s')
    (hfront : ∀ j ∈ front, j.offset < dp) (hgone : ∀ j ∈ gone, dp ≤ j.offset ∧ j.offset ≤ np)
    (hback : ∀ j ∈ back, np < j.offset) (h : JumpTable refers 0 [] (front ++ (gone ++ back))) :
    JumpTable refers' 0 [] (keepJumps dp np delta (front ++ (gone ++ back)) none) ↔
      Rebuilt front gone back := by
  rw [jumpTable_append, jumpTable_append] at h
  obtain ⟨htable, htableGone, htableBack⟩ := h
  have hkept : JumpTable refers' 0 [] front :=
    htable.imp fun j hj s => hlow j.offset s (hfront j hj)
  have hstart : jumpOffset 0 front ≤ dp := jumpOffset_le hfront (Nat.zero_le _)
  rw [keepJumps_front hfront, keepJumps_gone hgone, jumpTable_append, and_iff_right hkept,
    Option.or_none]
  cases back with
  | nil => exact iff_of_true trivial (by simp [Rebuilt])
  | cons f back =>
    rw [forall_mem_cons] at hback
    obtain ⟨hlt, hpre, hrefers, hrest⟩ := htableBack
    have hmoved := hrest.move (fun j hj => by have := hback.2 j hj; omega)
      fun j hj s => hhigh j.offset s (hback.2 j hj)
    rw [keepJumps, if_pos (.inr hback.1), keepJumps_back hback.2 (by omega), JumpTable,
      keepJumpNode_offset, if_pos (by omega)]
    have hoffset : jumpOffset 0 front < f.offset - delta := by omega
    rw [and_iff_right hoffset]
    rcases eq_nil_or_concat gone with rfl | ⟨gone, d, rfl⟩
    · refine iff_of_true ⟨hpre, hhigh _ _ hback.1 hrefers, hmoved⟩ (by simp [Rebuilt])
    · rw [concat_eq_append] at htableGone hrefers hmoved ⊢
      have hstring (s : List UInt8) : jumpString s (gone ++ [d]) = expandJump (jumpString s gone)
        d := by
        rw [jumpString, foldl_append]
        rfl
      obtain ⟨-, -, hd, -⟩ := jumpTable_append.1 htableGone
      have hrebuilt : Rebuilt front (gone ++ [d]) (f :: back) ↔
          (jumpString [] front).take (min f.jumpPrefix d.jumpPrefix) =
            (jumpString (jumpString [] front) gone).take (min f.jumpPrefix d.jumpPrefix) := by
        simp [Rebuilt, jumpString]
      rw [hstring] at hrefers hmoved
      rw [getLast?_concat, hrebuilt, ← expandJump_keepJumpNode hd]
      constructor
      · rintro ⟨hle, hrefers', -⟩
        exact ⟨hle, hunique _ _ _ hrefers' (hhigh _ _ hback.1 hrefers)⟩
      · rintro ⟨hle, heq⟩
        rw [heq]
        exact ⟨hle, hhigh _ _ hback.1 hrefers, hmoved⟩

section Nodes

variable {leaf : Bool} {first : Nat} {key : List UInt8} {r n node : IndexNode}
  {A B nodes nodes' : List IndexNode}

def keyBehind (key : List UInt8) (nodes : List IndexNode) : List UInt8 :=
  nodes.foldl (fun key node => key.take node.nodePrefix ++ node.data) key

theorem keyBehind_append : keyBehind key (A ++ B) = keyBehind (keyBehind key A) B := by
  rw [keyBehind, foldl_append]
  rfl

theorem keysFrom_append : keysFrom key (A ++ B) = keysFrom key A ++ keysFrom (keyBehind key A)
    B := by
  induction A generalizing key with
  | nil => rfl
  | cons node A ih =>
    rw [cons_append, keysFrom, ih]
    rfl

@[simp]
theorem length_keysFrom : (keysFrom key nodes).length = nodes.length := by
  induction nodes generalizing key with
  | nil => rfl
  | cons node nodes ih => rw [keysFrom, length_cons, ih, length_cons]

theorem compressed_append : Compressed key (A ++ B) ↔
    Compressed key A ∧ Compressed (keyBehind key A) B := by
  induction A generalizing key with
  | nil => simp [Compressed, keyBehind]
  | cons node A ih =>
    simp only [cons_append, Compressed, ih, and_assoc]
    rfl

theorem expandNext_nodePrefix_eq : (expandNext r n).nodePrefix = min r.nodePrefix n.nodePrefix := by
  simp only [expandNext]
  omega

theorem expandNext_key (hr : r.nodePrefix ≤ key.length) :
    key.take (expandNext r n).nodePrefix ++ (expandNext r n).data =
      (key.take r.nodePrefix ++ r.data).take n.nodePrefix ++ n.data := by
  have hlen : (key.take r.nodePrefix).length = r.nodePrefix := length_take_of_le hr
  rw [expandNext_nodePrefix_eq, take_append, hlen, take_take, Nat.min_comm, append_assoc]
  rfl

theorem compressed_expandNext (h : Compressed key (r :: n :: B)) :
    Compressed key (expandNext r n :: B) := by
  obtain ⟨hr, -, hB⟩ := h
  refine ⟨?_, ?_⟩
  · rw [expandNext_nodePrefix_eq]
    omega
  · rwa [expandNext_key hr]

theorem keysFrom_expandNext (h : Compressed key (r :: n :: B)) :
    keysFrom key (r :: n :: B) =
      (key.take r.nodePrefix ++ r.data) :: keysFrom key (expandNext r n :: B) := by
  rw [keysFrom, keysFrom, keysFrom, expandNext_key h.1]

theorem entries_expandNext (h : Compressed [] (A ++ r :: n :: B)) :
    entries (A ++ expandNext r n :: B) = (entries (A ++ r :: n :: B)).eraseIdx A.length := by
  have hkeys := keysFrom_expandNext (compressed_append.1 h).2
  have hlen : A.length = (keysFrom [] A).length := by simp
  rw [entries, entries, keysFrom_append, keysFrom_append, zipWith_append hlen, zipWith_append hlen,
    hkeys, eraseIdx_append_of_length_le (by simp), zipWith_cons_cons]
  congr 1
  simp only [length_zipWith, ← hlen, Nat.min_self, Nat.sub_self]
  rfl

theorem nodesBytes_append : nodesBytes leaf (A ++ B) = nodesBytes leaf A ++ nodesBytes leaf B :=
  flatMap_append

theorem nodesBytes_cons : nodesBytes leaf (node :: B) = nodeBytes node leaf ++ nodesBytes leaf B :=
    rfl

theorem length_nodeBytes_pos : 0 < (nodeBytes node leaf).length := by
  rw [nodeBytes, nodeHeader, length_append, length_cons]
  omega

theorem eq_nil_of_nodesBytes (h : (nodesBytes leaf A).length = 0) : A = [] := by
  cases A with
  | nil => rfl
  | cons node A =>
    rw [nodesBytes_cons, length_append] at h
    have := @length_nodeBytes_pos leaf node
    omega

theorem front_unique {front front' back back' : List IndexNode}
    (heq : front ++ back = front' ++ back')
    (hlen : (nodesBytes leaf front).length = (nodesBytes leaf front').length) : front = front' := by
  rcases append_eq_append_iff.1 heq with ⟨t, rfl, -⟩ | ⟨t, rfl, -⟩
  all_goals
    rw [nodesBytes_append, length_append] at hlen
    rw [eq_nil_of_nodesBytes (show (nodesBytes leaf t).length = 0 by omega), append_nil]

theorem Refers.unique (h : Refers leaf first nodes offset s)
    (h' : Refers leaf first nodes offset s') :
    s = s' := by
  obtain ⟨front, node, back, rfl, rfl, rfl⟩ := h
  obtain ⟨front', node', back', heq, hoffset, rfl⟩ := h'
  obtain rfl : front = front' := @front_unique leaf _ _ _ _ heq (by omega)
  obtain ⟨rfl, -⟩ := List.cons.inj (append_cancel_left heq)
  rfl

theorem Refers.replace_back (h : Refers leaf first (A ++ B) offset s)
    (hlt : offset < first + (nodesBytes leaf A).length) (B' : List IndexNode) :
    Refers leaf first (A ++ B') offset s := by
  obtain ⟨front, node, back, heq, rfl, rfl⟩ := h
  obtain ⟨t, rfl⟩ : ∃ t, A = front ++ node :: t := by
    rcases append_eq_append_iff.1 heq with ⟨t, rfl, -⟩ | ⟨t, rfl, ht⟩
    · rw [nodesBytes_append, length_append] at hlt
      omega
    · cases t with
      | nil =>
        rw [append_nil] at hlt
        omega
      | cons node' t =>
        obtain ⟨rfl, -⟩ := List.cons.inj ht
        exact ⟨t, rfl⟩
  refine ⟨front, node, t ++ B', by simp, rfl, ?_⟩
  have hkey (B : List IndexNode) : (keysFrom [] (front ++ node :: t ++ B)).getD front.length [] =
      (keysFrom [] (front ++ node :: t)).getD front.length [] := by
    rw [keysFrom_append, getD_append _ _ _ _ (by simp)]
  rw [hkey, hkey]

theorem Refers.replace_front {X : List IndexNode} (h : Refers leaf first (A ++ B) offset s)
    (hle : first + (nodesBytes leaf A).length ≤ offset) (hkey : keyBehind [] A = keyBehind [] X) :
    Refers leaf first (X ++ B)
      (offset - (nodesBytes leaf A).length + (nodesBytes leaf X).length) s := by
  obtain ⟨front, node, back, heq, rfl, rfl⟩ := h
  obtain ⟨t, rfl, rfl⟩ : ∃ t, front = A ++ t ∧ B = t ++ node :: back := by
    rcases append_eq_append_iff.1 heq with ⟨t, rfl, ht⟩ | ⟨t, rfl, ht⟩
    · exact ⟨t, rfl, ht⟩
    · rw [nodesBytes_append, length_append] at hle
      obtain rfl : t = [] := @eq_nil_of_nodesBytes leaf _ (by omega)
      exact ⟨[], by simp, ht.symm⟩
  refine ⟨X ++ t, node, back, by simp, ?_, ?_⟩
  · simp only [nodesBytes_append, length_append]
    omega
  · have hget (A : List IndexNode) : (keysFrom [] (A ++ (t ++ node :: back))).getD (A ++ t).length
      [] =
        (keysFrom (keyBehind [] A) (t ++ node :: back)).getD t.length [] := by
      rw [keysFrom_append, getD_append_right _ _ _ _ (by simp), length_keysFrom,
        length_append, Nat.add_sub_cancel_left]
    rw [hget, hget, hkey]

def lengthsSize (node : IndexNode) : Nat :=
  (if (internalFlags node).hasPrefix then lengthSize node.nodePrefix else 0) +
    (if (internalFlags node).hasLength then lengthSize node.data.length else 0)

theorem getNodeSize_eq (h : node.isEndLevel = false) : getNodeSize node leaf =
    1 + recordNumberSize (node.recordNumber.toNat >>> 5) +
      (if !leaf then pageNumberSize node.pageNumber.toNat else 0) + lengthsSize node +
      node.data.length := by
  rw [getNodeSize, if_neg (by simp [h]), lengthsSize]
  omega

theorem lengthSize_bounds {k : Nat} (h : k < 2 ^ 14) :
    (k < 128 → lengthSize k = 1) ∧ (128 ≤ k → lengthSize k = 2) := by
  rw [lengthSize_eq h, putLength]
  constructor
  · intro hlt
    rw [putNumber, if_neg (by omega)]
    rfl
  · intro hle
    rw [putNumber, if_pos (by omega), putNumber]
    rfl

theorem recordNumberSize_pos (k : Nat) : 1 ≤ recordNumberSize k := by
  rw [recordNumberSize]
  split_ifs <;> omega

theorem lengthsSize_le (h : Storable node) : lengthsSize node ≤
    (if node.nodePrefix < 128 then 1 else 2) + (if node.data.length < 128 then 1 else 2) := by
  obtain ⟨hsmall, hbig⟩ := lengthSize_bounds h.prefix_lt
  obtain ⟨hsmall', hbig'⟩ := lengthSize_bounds h.length_lt
  rw [lengthsSize]
  split_ifs <;> omega

theorem two_le_lengthsSize (h : Storable node) (hle : 128 ≤ node.nodePrefix) :
    2 ≤ lengthsSize node := by
  have hbig := (lengthSize_bounds h.prefix_lt).2 hle
  have hflag : (internalFlags node).hasPrefix = true := by
    rw [internalFlags]
    split_ifs <;> first | rfl | omega
  rw [lengthsSize, if_pos hflag]
  omega

theorem one_le_lengthsSize (h : Storable node) (hle : 2 ≤ node.data.length) :
    1 ≤ lengthsSize node := by
  obtain ⟨hsmall, hbig⟩ := lengthSize_bounds h.length_lt
  have hflag : (internalFlags node).hasLength = true := by
    rw [internalFlags]
    split_ifs <;> first | rfl | omega
  rw [lengthsSize, if_pos hflag]
  omega

theorem storable_expandNext (hr : Storable r) (hn : Storable n)
    (hlen : (expandNext r n).data.length < 2 ^ 14) : Storable (expandNext r n) := by
  have hpre := hr.prefix_lt
  refine ⟨?_, hlen, hn.recordNumber_nonneg, hn.recordNumber_lt, hn.pageNumber_nonneg,
    hn.pageNumber_lt, fun hend => ?_⟩
  · rw [expandNext_nodePrefix_eq]
    omega
  · rw [hn.endLevel hend, expandNext]
    simp

theorem length_expandNext_le (hr : Storable r) (hn : Storable n) (hn' : Storable (expandNext r n))
    (hend : r.isEndLevel = false) : (nodeBytes (expandNext r n) leaf).length ≤
      (nodeBytes r leaf).length + (nodeBytes n leaf).length := by
  rw [length_nodeBytes hr, length_nodeBytes hn, length_nodeBytes hn']
  cases hlevel : n.isEndLevel with
  | true =>
    have hone : getNodeSize (expandNext r n) leaf = 1 := if_pos hlevel
    have hpos := @length_nodeBytes_pos leaf r
    rw [length_nodeBytes hr] at hpos
    omega
  | false =>
    have hdata : (expandNext r n).data.length ≤ r.data.length + n.data.length := by
      simp only [expandNext, length_append, length_take]
      omega
    have hle := lengthsSize_le hn'
    rw [expandNext_nodePrefix_eq] at hle
    rw [getNodeSize_eq hend, getNodeSize_eq hlevel, getNodeSize_eq
      (show (expandNext r n).isEndLevel = false from hlevel)]
    have hpos := recordNumberSize_pos (r.recordNumber.toNat >>> 5)
    have hsizes : lengthsSize (expandNext r n) ≤ 2 + lengthsSize r + lengthsSize n := by
      by_cases hpre : min r.nodePrefix n.nodePrefix < 128
      · by_cases hlength : (expandNext r n).data.length < 128
        · rw [if_pos hpre, if_pos hlength] at hle
          omega
        · -- One of the nodes has a length that is stored.
          rw [if_pos hpre, if_neg hlength] at hle
          by_cases hlong : 2 ≤ r.data.length
          · have := one_le_lengthsSize hr hlong
            omega
          · have := one_le_lengthsSize hn (by omega)
            omega
      · have hlong := two_le_lengthsSize hr (by omega)
        split_ifs at hle <;> omega
    have hrecord : (expandNext r n).recordNumber = n.recordNumber := rfl
    have hpage : (expandNext r n).pageNumber = n.pageNumber := rfl
    rw [hrecord, hpage]
    omega

variable {bytes : Page} {page : Bucket} {p : Nat}

theorem readNode_eq_self (hs : Storable node) (hleaf : leaf = true → node.pageNumber = 0)
    (h : Holds bytes p (nodeBytes node leaf)) :
    readNode bytes 0 p leaf = (node, p + (nodeBytes node leaf).length) := by
  have hpage : (if leaf && !node.isEndLevel then 0 else node.pageNumber) = node.pageNumber := by
    split_ifs with hread
    · exact (hleaf (Bool.and_eq_true_iff.1 hread).1).symm
    · rfl
  rw [readNode_of_holds hs h, length_nodeBytes hs, hpage]

theorem nodes_unique {nodes nodes' : List IndexNode} (hs : ∀ node ∈ nodes, Storable node)
    (hs' : ∀ node ∈ nodes', Storable node) (hleaf : leaf = true → ∀ node ∈ nodes, node.pageNumber =
    0)
    (hleaf' : leaf = true → ∀ node ∈ nodes', node.pageNumber = 0)
    (h : Holds bytes p (nodesBytes leaf nodes)) (h' : Holds bytes p (nodesBytes leaf nodes'))
    (hlen : (nodesBytes leaf nodes).length = (nodesBytes leaf nodes').length) : nodes = nodes' := by
  induction nodes generalizing nodes' p with
  | nil => exact (eq_nil_of_nodesBytes hlen.symm).symm
  | cons node nodes ih =>
    cases nodes' with
    | nil => exact eq_nil_of_nodesBytes hlen
    | cons node' nodes' =>
      rw [nodesBytes_cons, holds_append] at h h'
      rw [forall_mem_cons] at hs hs'
      have hread := readNode_eq_self hs.1 (fun hl => hleaf hl node mem_cons_self) h.1
      have hread' := readNode_eq_self hs'.1 (fun hl => hleaf' hl node' mem_cons_self) h'.1
      obtain rfl : node = node' := congrArg Prod.fst (hread.symm.trans hread')
      rw [nodesBytes_cons, nodesBytes_cons, length_append, length_append] at hlen
      rw [ih hs.2 hs'.2 (fun hl x hx => hleaf hl x (mem_cons_of_mem _ hx))
        (fun hl x hx => hleaf' hl x (mem_cons_of_mem _ hx)) h.2 h'.2 (by omega)]

variable {jumps : List IndexJumpNode}

theorem jumps_unique {jumps' : List IndexJumpNode} (hs : ∀ j ∈ jumps, StorableJump j)
    (hs' : ∀ j ∈ jumps', StorableJump j) (h : Holds bytes p (jumps.flatMap jumpNodeBytes))
    (h' : Holds bytes p (jumps'.flatMap jumpNodeBytes)) (hlen : jumps.length = jumps'.length) :
    jumps = jumps' := by
  induction jumps generalizing jumps' p with
  | nil => exact (eq_nil_of_length_eq_zero hlen.symm).symm
  | cons j jumps ih =>
    cases jumps' with
    | nil => cases hlen
    | cons j' jumps' =>
      rw [flatMap_cons, holds_append] at h h'
      rw [forall_mem_cons] at hs hs'
      have hread := readJumpNode_of_holds hs.1 h.1
      have hread' := readJumpNode_of_holds hs'.1 h'.1
      obtain rfl : j = j' := congrArg Prod.fst (hread.symm.trans hread')
      rw [ih hs.2 hs'.2 h.2 h'.2 (Nat.succ.inj hlen)]

theorem Layout.unique {jumps' : List IndexJumpNode} (h : Layout page nodes jumps)
    (h' : Layout page nodes' jumps') : nodes = nodes' ∧ jumps = jumps' := by
  have hlen := h.length.symm.trans h'.length
  refine ⟨nodes_unique h.storable h'.storable h.leaf h'.leaf h.holds h'.holds (by omega), ?_⟩
  have hinfo := h.jumpInfo
  have hinfo' := h'.jumpInfo
  split_ifs at hinfo hinfo' with hjump
  · obtain ⟨info, hs, hcount, hholds, -⟩ := hinfo
    obtain ⟨info', hs', hcount', hholds', -⟩ := hinfo'
    rw [holds_append] at hholds hholds'
    have hread := readJumpInfo_of_holds hs hholds.1
    have hread' := readJumpInfo_of_holds hs' hholds'.1
    obtain rfl : info = info' := congrArg Prod.fst (hread.symm.trans hread')
    exact jumps_unique h.storableJumps h'.storableJumps hholds.2 hholds'.2
      (hcount.symm.trans hcount')
  · rw [hinfo, hinfo']

theorem keepJumpNodes_eq (hs : ∀ j ∈ jumps, StorableJump j)
    (h : Holds bytes p (jumps.flatMap jumpNodeBytes)) (del : Option IndexJumpNode) :
    keepJumpNodes bytes dp np delta jumps.length p del = keepJumps dp np delta jumps del := by
  induction jumps generalizing p del with
  | nil => rfl
  | cons j jumps ih =>
    rw [flatMap_cons, holds_append] at h
    rw [forall_mem_cons] at hs
    rw [length_cons, keepJumpNodes, readJumpNode_of_holds hs.1 h.1, keepJumps]
    simp [ih hs.2 h.2]

theorem writeJumpNodes_eq (jumps : List IndexJumpNode) :
    (writeJumpNodes bytes jumps p).1 = store bytes p (jumps.flatMap jumpNodeBytes) := by
  induction jumps generalizing bytes p with
  | nil => simp [writeJumpNodes]
  | cons j jumps ih =>
    rw [writeJumpNodes, writeJumpNode]
    simp [ih, store_append]

theorem length_putLength (k : Nat) : 1 ≤ (putLength k).length ∧ (putLength k).length ≤ 2 := by
  rw [putLength, putNumber]
  split_ifs <;> simp [putNumber]

theorem length_keepJumpNode_le (del : Option IndexJumpNode) :
    (jumpNodeBytes (keepJumpNode dp delta del f)).length ≤
      (jumpNodeBytes f).length + (del.toList.flatMap jumpNodeBytes).length := by
  have hshort (k : Nat) : (putShort k).length = 2 := rfl
  cases del with
  | none => simp [keepJumpNode, jumpNodeBytes, hshort]
  | some d =>
    have hdata : (keepJumpNode dp delta (some d) f).data.length ≤ d.data.length +
      f.data.length := by
      by_cases hgt : f.jumpPrefix > d.jumpPrefix
      · simp only [keepJumpNode, if_pos hgt, length_append, length_take]
        omega
      · simp only [keepJumpNode, if_neg hgt]
        omega
    have h₁ := (length_putLength (keepJumpNode dp delta (some d) f).jumpPrefix).2
    have h₂ := (length_putLength (keepJumpNode dp delta (some d) f).data.length).2
    have h₃ := (length_putLength f.jumpPrefix).1
    have h₄ := (length_putLength f.data.length).1
    simp only [jumpNodeBytes, Option.toList_some, flatMap_cons, length_append, hshort]
    omega

theorem length_keepJumps_le (jumps : List IndexJumpNode) (del : Option IndexJumpNode) :
    ((keepJumps dp np delta jumps del).flatMap jumpNodeBytes).length ≤
      (jumps.flatMap jumpNodeBytes).length + (del.toList.flatMap jumpNodeBytes).length := by
  induction jumps generalizing del with
  | nil => simp [keepJumps]
  | cons j jumps ih =>
    rw [keepJumps]
    split_ifs
    · have hkeep := @length_keepJumpNode_le dp delta j del
      have := ih none
      simp only [flatMap_cons, length_append, Option.toList_none, flatMap_nil, length_nil] at this ⊢
      omega
    · have := ih (some j)
      simp only [flatMap_cons, length_append, Option.toList_some, flatMap_nil, append_nil] at this ⊢
      omega

theorem keepJumps_length_le (jumps : List IndexJumpNode) (del : Option IndexJumpNode) :
    (keepJumps dp np delta jumps del).length ≤ jumps.length := by
  induction jumps generalizing del with
  | nil => exact Nat.le_refl _
  | cons j jumps ih =>
    rw [keepJumps]
    split_ifs
    · exact Nat.succ_le_succ (ih none)
    · exact Nat.le_succ_of_le (ih (some j))

theorem JumpTable.total_lt (h : JumpTable refers offset s jumps)
    (hlt : ∀ offset s, refers offset s → s.length < 2 ^ 14) :
    ∀ j ∈ jumps, j.jumpPrefix + j.data.length < 2 ^ 14 := by
  induction jumps generalizing offset s with
  | nil => simp
  | cons j jumps ih =>
    rw [forall_mem_cons]
    refine ⟨?_, ih h.2.2.2⟩
    have := hlt _ _ h.2.2.1
    rw [expandJump, length_append, length_take_of_le h.2.1] at this
    exact this

theorem storable_keepJumps (hs : ∀ j ∈ jumps, StorableJump j)
    (htotal : ∀ j ∈ jumps, j.jumpPrefix + j.data.length < 2 ^ 14) (del : Option IndexJumpNode) :
    ∀ j ∈ keepJumps dp np delta jumps del, StorableJump j := by
  induction jumps generalizing del with
  | nil => simp [keepJumps]
  | cons f jumps ih =>
    rw [forall_mem_cons] at hs htotal
    rw [keepJumps]
    split_ifs
    · rw [forall_mem_cons]
      refine ⟨?_, ih hs.2 htotal.2 none⟩
      have hoffset : (keepJumpNode dp delta del f).offset < 65536 := by
        have := hs.1.offset_lt
        rw [keepJumpNode_offset]
        split_ifs <;> omega
      cases del with
      | none => exact ⟨hs.1.prefix_lt, hs.1.length_lt, hoffset⟩
      | some d =>
        refine ⟨?_, ?_, hoffset⟩
        · rw [keepJumpNode_prefix_eq]
          omega
        · by_cases hgt : f.jumpPrefix > d.jumpPrefix
          · simp only [keepJumpNode, if_pos hgt, length_append, length_take]
            omega
          · simp only [keepJumpNode, if_neg hgt]
            exact hs.1.length_lt
    · exact ih hs.2 htotal.2 (some f)

theorem Refers.length_lt (h : Refers leaf first nodes offset s)
    (hs : ∀ node ∈ nodes, Storable node) : s.length < 2 ^ 14 := by
  obtain ⟨front, node, back, rfl, -, rfl⟩ := h
  have := (hs node (by simp)).prefix_lt
  rw [length_take]
  omega

end Nodes

end Firebird.Jrd.Btn
