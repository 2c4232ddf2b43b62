import Firebird.Jrd.BtrSearch

/-!
# Where the search on a page starts

The jump table of a well-formed page leads `find_area_start_point` to a node in front of the key,
with the bytes that the search has in common with the key there, or, with a record number, to a
node with the key and a smaller number.
-/
namespace Firebird.Jrd.Btr

open List

variable {descending retrieval : Bool} {key k jumpKey : List UInt8} {m n t last : Nat} {e : Bool}
  {node : IndexNode} {before : Option (List UInt8)} {nodes : List IndexNode}
  {keys : List (List UInt8)} {j : IndexJumpNode} {jumps : List IndexJumpNode} {page : BtreePage}

structure Ordered (descending : Bool) (nodes : List IndexNode) (keys : List (List UInt8)) :
    Prop where
  follows : ∀ i node k, 0 < i → nodes[i]? = some node → keys[i]? = some k →
    node.isEndLevel = false → node.nodePrefix ≤ k.length ∧ k.drop node.nodePrefix = node.data
  walk_done : ∀ retrieval key i i' k k' e, 0 < i → i < i' → keys[i]? = some k →
    keys[i']? = some k' → walk descending retrieval key k = .done e →
    ∃ e', walk descending retrieval key k' = .done e'
  ordinary : ∀ i node, 0 < i → i + 1 < nodes.length → nodes[i]? = some node →
    node.isEndLevel = false ∧ node.isEndBucket = false

theorem Nodes.follows (h : Nodes descending before nodes keys) {i : Nat}
    (hn : nodes[i]? = some node) (hk : keys[i]? = some k) (hl : node.isEndLevel = false) :
    ∃ before, Follows descending before node k := by
  induction h generalizing i with
  | endLevel hl' =>
    cases i with
    | zero =>
      cases hn
      rw [hl] at hl'
      cases hl'
    | succ i => simp at hn
  | endBucket _ _ hf =>
    cases i with
    | zero =>
      cases hn
      cases hk
      exact ⟨_, hf⟩
    | succ i => simp at hn
  | cons _ _ hf hns ih =>
    cases i with
    | zero =>
      cases hn
      cases hk
      exact ⟨_, hf⟩
    | succ i => exact ih hn hk

theorem Nodes.walk_done_at (h : Nodes descending before nodes keys) {i i' : Nat} {k' : List UInt8}
    (hlt : i < i') (hk : keys[i]? = some k) (hk' : keys[i']? = some k')
    (hw : walk descending retrieval key k = .done e) :
    ∃ e', walk descending retrieval key k' = .done e' := by
  induction h generalizing i i' with
  | endLevel | endBucket =>
    cases i' with
    | zero => omega
    | succ i' => simp at hk'
  | cons _ _ hf hns ih =>
    cases i' with
    | zero => omega
    | succ i' =>
      cases i with
      | zero =>
        cases hk
        obtain ⟨e', he', -⟩ := hns.walk_done hw k' (mem_of_getElem? hk')
        exact ⟨e', he'⟩
      | succ i => exact ih (Nat.lt_of_succ_lt_succ hlt) hk hk'

theorem Nodes.ordered {b : Nat} (hb : b ≤ 1)
    (h : Nodes descending none (nodes.drop b) (keys.drop b)) : Ordered descending nodes keys := by
  have hat : ∀ {α : Type} (l : List α) i, 0 < i → l[i]? = (l.drop b)[i - b]? := by
    intro α l i hi
    rw [getElem?_drop, show b + (i - b) = i by omega]
  constructor
  · intro i node k hi hn hk hl
    rw [hat _ _ hi] at hn hk
    obtain ⟨before, hf⟩ := h.follows hn hk hl
    exact ⟨hf.le_length, hf.drop_eq⟩
  · intro retrieval key i i' k k' e hi hlt hk hk' hw
    rw [hat _ _ hi] at hk
    rw [hat _ _ (by omega)] at hk'
    exact h.walk_done_at (by omega) hk hk' hw
  · intro i node hi hlt hn
    rw [hat _ _ hi] at hn
    refine h.ordinary ?_ hn
    rw [length_drop]
    omega

/-- An entry of the jump table, with the node it refers to and the key of that node. -/
structure Entry (jumpKey : List UInt8) (j : IndexJumpNode) (node : IndexNode) (k : List UInt8) :
    Prop where
  le_length : node.nodePrefix ≤ k.length
  drop_eq : k.drop node.nodePrefix = node.data
  jump_le : j.jumpPrefix ≤ jumpKey.length
  take_eq : jumpKey.take j.jumpPrefix ++ j.data = k.take node.nodePrefix

namespace Entry

variable (h : Entry jumpKey j node k)
include h

theorem total_eq : j.jumpPrefix + j.data.length = node.nodePrefix := by
  have hlen := congrArg List.length h.take_eq
  simp only [length_append, length_take, Nat.min_eq_left h.jump_le,
    Nat.min_eq_left h.le_length] at hlen
  exact hlen

theorem length_eq : node.nodePrefix + node.data.length = k.length := by
  have := h.le_length
  rw [← h.drop_eq, length_drop]
  omega

theorem take_append (rest : List UInt8) :
    k.take node.nodePrefix ++ rest = jumpKey.take j.jumpPrefix ++ (j.data ++ rest) := by
  rw [← h.take_eq, append_assoc]

theorem key_eq : k = jumpKey.take j.jumpPrefix ++ (j.data ++ node.data) := by
  rw [← h.take_append, ← h.drop_eq, take_append_drop]

theorem jumpKey_begins {buffer : List UInt8} (hb : jumpKey <+: buffer) :
    k <+: memcpy (memcpy buffer j.jumpPrefix j.data) node.nodePrefix node.data := by
  refine memcpy_begins h.le_length h.drop_eq ?_
  obtain ⟨w, rfl⟩ := hb
  rw [memcpy, take_append_of_le_length h.jump_le, h.take_eq]
  exact prefix_append _ _

theorem walk_eq (hb : Behind descending retrieval key before m) (hbefore : before.getD [] = jumpKey)
    (hle : j.jumpPrefix ≤ m) :
    walk descending retrieval key k =
      (walk descending retrieval (key.drop j.jumpPrefix) (k.drop j.jumpPrefix)).add
        j.jumpPrefix := by
  have hlen : (jumpKey.take j.jumpPrefix).length = j.jumpPrefix := by
    rw [length_take, Nat.min_eq_left h.jump_le]
  have hkey : key = jumpKey.take j.jumpPrefix ++ key.drop j.jumpPrefix := by
    cases before with
    | none =>
      rw [show j.jumpPrefix = 0 by rw [show m = 0 from hb] at hle; omega, take_zero,
        drop_zero, nil_append]
    | some prev =>
      obtain rfl : prev = jumpKey := hbefore
      obtain ⟨c, p, q, rfl, rfl, rfl, -⟩ := walk_eq_go hb
      rw [take_append_of_le_length hle, drop_append_of_le_length hle, ← append_assoc,
        take_append_drop]
  have hk : k = jumpKey.take j.jumpPrefix ++ k.drop j.jumpPrefix := by
    nth_rewrite 2 [h.key_eq]
    rw [drop_left' hlen]
    exact h.key_eq
  nth_rewrite 1 [hkey, hk]
  rw [walk_append, hlen]

theorem walk_of_lt (hb : Behind descending retrieval key before m)
    (hbefore : before.getD [] = jumpKey) (hlt : m < j.jumpPrefix) :
    walk descending retrieval key k = .go m := by
  have hle := h.jump_le
  rw [h.key_eq]
  cases before with
  | none =>
    obtain rfl : [] = jumpKey := hbefore
    simp only [length_nil] at hle
    omega
  | some prev =>
    obtain rfl : prev = jumpKey := hbefore
    exact walk_take_append hb hle hlt _

end Entry

/-- Where the search starts: at the first node, at a node in front of the key, or at a node with
the key and a smaller record number. -/
inductive Start (page : BtreePage) (keys : List (List UInt8)) (key : List UInt8)
    (descending retrieval : Bool) (find : Option Int) (value : Option (List UInt8)) : Area → Prop
  | first {a : Area} : a.start = 0 → a.common = 0 → a.value = value →
      Start page keys key descending retrieval find value a
  | behind {a : Area} {node : IndexNode} {k : List UInt8} {t : Nat} : 0 < a.start →
      page.nodes[a.start]? = some node → keys[a.start]? = some k → node.isEndLevel = false →
      walk descending retrieval key k = .go t → a.common = min node.nodePrefix t →
      a.value.isSome = value.isSome → (∀ v ∈ a.value, k.take node.nodePrefix <+: v) →
      Start page keys key descending retrieval find value a
  | duplicate {a : Area} {node : IndexNode} {number : Int} : 0 < a.start →
      page.nodes[a.start]? = some node → keys[a.start]? = some key → node.isEndLevel = false →
      node.isEndBucket = false → find = some number → node.recordNumber < number →
      a.common = node.nodePrefix →
      Start page keys key descending retrieval find value a

variable {find : Option Int} {value : Option (List UInt8)}

theorem Jumps.entry (ho : Ordered descending nodes keys)
    (h : Jumps nodes keys last jumpKey (j :: jumps)) :
    ∃ node k, last < j.offset ∧ nodes[j.offset]? = some node ∧ keys[j.offset]? = some k ∧
      node.isEndLevel = false ∧ Entry jumpKey j node k ∧ Jumps nodes keys j.offset k jumps := by
  cases h with
  | @cons _ _ k _ _ node hlt hn hk hl hle htake hjs =>
    obtain ⟨hlen, hdrop⟩ := ho.follows _ _ _ (by omega) hn hk hl
    exact ⟨node, k, hlt, hn, hk, hl, ⟨hlen, hdrop, hle, htake⟩, hjs⟩

theorem walk_take (h : n < key.length) : walk false retrieval key (key.take n) = .go n := by
  have hsplit := @walk_append false retrieval (key.take n) (key.drop n) []
  obtain ⟨b, p, hd⟩ : ∃ b p, key.drop n = b :: p :=
    exists_cons_of_ne_nil (by rwa [Ne, drop_eq_nil_iff, Nat.not_le])
  rw [take_append_drop, append_nil, hd, walk, if_neg (by simp), Walk.add_go,
    length_take, Nat.min_eq_left (Nat.le_of_lt h)] at hsplit
  exact hsplit

theorem Entry.duplicate {node' : IndexNode} {j' : IndexJumpNode} {k' : List UInt8}
    (h' : Entry key j' node' k') (hd : node'.data = [])
    (hp : j'.jumpPrefix = node'.nodePrefix)
    (hdesc : descending = true → key.length ≤ node'.nodePrefix)
    (hw : ∃ e, walk descending retrieval key k' = .done e) : k' = key := by
  have htotal := h'.total_eq
  have hdata : j'.data = [] := eq_nil_of_length_eq_zero (by omega)
  have hk' : k' = key.take node'.nodePrefix := by
    rw [h'.key_eq, hd, hdata, append_nil, append_nil, hp]
  rcases Nat.lt_or_ge node'.nodePrefix key.length with hlt | hge
  · exfalso
    cases descending with
    | true => exact absurd (hdesc rfl) (by omega)
    | false =>
      obtain ⟨e, he⟩ := hw
      rw [hk', walk_take hlt] at he
      cases he
  · rw [hk', take_of_length_le hge]

theorem duplicateArea_start (ho : Ordered descending page.nodes keys) {number : Int}
    (hfind : find = some number) (hpos : 0 < j.offset)
    (hjs : Jumps page.nodes keys j.offset key jumps) (hn : page.nodes[j.offset]? = some node)
    (hk : keys[j.offset]? = some key) (htotal : j.jumpPrefix + j.data.length = node.nodePrefix)
    {a : Area} (ha : Start page keys key descending retrieval find value a) :
    ∃ a', duplicateArea page descending key.length number jumps j node a = .ok a' ∧
      Start page keys key descending retrieval find value a' := by
  induction jumps generalizing j node a with
  | nil => exact ⟨a, rfl, ha⟩
  | cons j' jumps ih =>
    rw [duplicateArea]
    split
    · exact ⟨a, rfl, ha⟩
    · next hlt =>
      obtain ⟨node', k', hoff, hn', hk', hl', hentry, hjs'⟩ := hjs.entry ho
      obtain ⟨hl, hb⟩ := ho.ordinary _ _ hpos
        (by have := (List.getElem?_eq_some_iff.mp hn').1; omega) hn
      have ha' : Start page keys key descending retrieval find value
          { a with common := j.jumpPrefix + j.data.length, start := j.offset } :=
        .duplicate hpos hn hk hl hb hfind (by omega) htotal
      simp only [hn']
      split
      · exact ⟨_, rfl, ha'⟩
      · next hsame =>
        simp only [Bool.or_eq_true, Bool.not_eq_true', bne_iff_ne, Bool.and_eq_true,
          decide_eq_true_eq, not_or, not_and, not_not, Nat.not_lt, isEmpty_eq_false_iff] at hsame
        obtain ⟨⟨⟨⟨⟨hd, hp⟩, hdesc⟩, hjp⟩, -⟩, -⟩ := hsame
        obtain rfl : k' = key := hentry.duplicate hd (by omega) hdesc
          (ho.walk_done retrieval key _ _ _ _ true hpos hoff hk hk' walk_self)
        exact ih (by omega) hjs' hn' hk' hentry.total_eq ha'

theorem areaLoop_start (ho : Ordered descending page.nodes keys)
    (hjs : Jumps page.nodes keys last jumpKey jumps) {a : Area} (hkey : jumpKey <+: a.jumpKey)
    (hbefore : before.getD [] = jumpKey) (hb : Behind descending retrieval key before a.testPrefix)
    (hsome : a.value.isSome = value.isSome)
    (ha : Start page keys key descending retrieval find value a) :
    ∃ a', areaLoop page key descending retrieval find jumps a = .ok a' ∧
      Start page keys key descending retrieval find value a' := by
  induction jumps generalizing last jumpKey before a with
  | nil => exact ⟨a, rfl, ha⟩
  | cons j jumps ih =>
    obtain ⟨node, k, hoff, hn, hk, hl, hentry, hjs'⟩ := hjs.entry ho
    have hbuffer := hentry.jumpKey_begins hkey
    generalize hbuf : memcpy (memcpy a.jumpKey j.jumpPrefix j.data) node.nodePrefix node.data =
      buffer
      at hbuffer
    -- The search goes on behind the node of this jump node.
    have hnext : ∀ t, walk descending retrieval key k = .go t →
        ∃ a', areaLoop page key descending retrieval find jumps
          ⟨buffer, t, min (j.jumpPrefix + j.data.length) t, j.offset,
            a.value.map (memcpy · 0 (buffer.take (j.jumpPrefix + j.data.length)))⟩ = .ok a' ∧
          Start page keys key descending retrieval find value a' := by
      intro t hw
      rw [hentry.total_eq]
      refine @ih k j.offset (some k) hjs' _ hbuffer rfl hw (by simpa using hsome)
        (.behind (Nat.zero_lt_of_lt hoff) hn hk hl hw rfl (by simpa using hsome) ?_)
      intro v hv
      obtain ⟨w, -, rfl⟩ := Option.map_eq_some_iff.mp hv
      obtain ⟨rest, rfl⟩ := hbuffer
      rw [memcpy, take_zero, nil_append, take_append_of_le_length hentry.le_length]
      exact prefix_append _ _
    have htake : buffer.take (node.nodePrefix + node.data.length) = k := by
      obtain ⟨rest, rfl⟩ := hbuffer
      rw [hentry.length_eq, take_left]
    simp only [areaLoop, hn, hbuf, htake]
    split
    · next hle =>
      have hwalk := hentry.walk_eq hb hbefore hle
      cases hw : walk descending retrieval (key.drop j.jumpPrefix) (k.drop j.jumpPrefix) with
      | go matched =>
        rw [hw] at hwalk
        exact hnext _ hwalk
      | done exact =>
        rw [hw] at hwalk
        cases exact with
        | false => exact ⟨a, rfl, ha⟩
        | true =>
          cases find with
          | none => exact ⟨a, rfl, ha⟩
          | some number =>
            obtain rfl : key = k := eq_of_walk_done_true hwalk
            rw [hentry.length_eq]
            exact duplicateArea_start ho rfl (by omega) hjs' hn hk hentry.total_eq ha
    · next hlt =>
      exact hnext _ (hentry.walk_of_lt hb hbefore (by omega))

theorem findAreaStartPoint_start (ho : Ordered descending page.nodes keys)
    (hjs : Jumps page.nodes keys 0 [] page.jumpNodes) (key : List UInt8)
    (value : Option (List UInt8)) (find : Option Int) :
    ∃ a, findAreaStartPoint page key value descending retrieval find = .ok a ∧
      Start page keys key descending retrieval (if page.allRecordNumber then find else none) value
        a := by
  rw [findAreaStartPoint]
  split
  · have hb : Behind descending retrieval key none 0 := rfl
    exact areaLoop_start ho hjs nil_prefix rfl hb rfl (.first rfl rfl rfl)
  · exact ⟨_, rfl, .first rfl rfl rfl⟩

end Firebird.Jrd.Btr
