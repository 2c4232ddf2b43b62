import Firebird.Jrd.BtrCompress
import Firebird.Lib.Groups

/-!
# Statistics of an index

`BTR_selectivity` walks the leaf pages of an index, and `fast_load` gets the sorted keys of a new
one. Both count how many keys have their first segments in common with the key in front of them, and
tell from the marker of the group in which two keys differ which segments these are.
-/
namespace Firebird.Jrd.Btr

open Lib List

def computePrefix : List UInt8 → List UInt8 → Nat
  | a :: prevString, b :: string => if a = b then computePrefix prevString string + 1 else 0
  | _, _ => 0

def keyEquality (key : List UInt8) (node : IndexNode) : Bool :=
  key.length = node.data.length + node.nodePrefix && node.data == key.drop node.nodePrefix

/-- `*(p + i)` -/
def byteAt (p : List UInt8) (i : Nat) : Nat := (p.getD i 0).toNat

def lookDuplicates :
    Nat → Nat → List UInt8 → List UInt8 → Option (Nat × List UInt8 × List UInt8)
  | count, stuff, a :: p1, b :: p2 =>
    if stuff = 0 then
      if a ≠ b then some (count, a :: p1, b :: p2)
      else if p1.isEmpty || p2.isEmpty then none
      else lookDuplicates b.toNat stuffCount p1 p2
    else if a ≠ b then some (count, a :: p1, b :: p2)
    else lookDuplicates count (stuff - 1) p1 p2
  | count, _, p1, p2 => some (count, p1, p2)

/-- The segment in which a node differs from the key in front of it, and 0 for a duplicate: the
check that both functions make. `behind` is the byte behind the data of the node. -/
def differingSegment (descending : Bool) (key : List UInt8) (nodePrefix : Nat) (data : List UInt8)
    (behind : UInt8) : Option Nat := do
  let first := (data.headD behind).toNat
  let pos := nodePrefix
  let i := pos / (stuffCount + 1) * (stuffCount + 1)
  let count := if i = pos then first else byteAt key i
  let stuff := if pos = 0 then 0 else stuffCount + 1 - (pos - i)
  let (count, p1, p2) ← lookDuplicates count stuff (key.drop pos) data
  let count := if descending then 255 - count else count
  return if p1.isEmpty && p2.isEmpty then 0 else count

/-- The loop from `count + 1` to `segments`. -/
def addDuplicates (segments count : Nat) (duplicatesList : List Nat) : List Nat :=
  (List.range' (count + 1) (segments - count)).foldl
    (fun list i => list.modify (segments - i) (· + 1))
    duplicatesList

structure Counting where
  nodes : Nat
  duplicates : Nat
  duplicatesList : List Nat
  key : List UInt8

def Counting.start (segments : Nat) : Counting := ⟨0, 0, List.replicate segments 0, []⟩

def Counting.counters (segments : Nat) (s : Counting) : List Nat :=
  if segments > 1 then s.duplicatesList else [s.duplicates]

/-- A node is counted, and its key is kept; `duplicate` is whether it is that of the node in front.
-/
def Counting.add (descending : Bool) (segments nodePrefix : Nat) (data : List UInt8)
    (behind : UInt8) (duplicate : Bool) (key : List UInt8) (s : Counting) : Option Counting := do
  let firstNode := s.nodes = 0
  let list ←
    if segments > 1 ∧ ¬ firstNode then do
      let count ← differingSegment descending s.key nodePrefix data behind
      pure (addDuplicates segments count s.duplicatesList)
    else pure s.duplicatesList
  return ⟨s.nodes + 1, if duplicate && !firstNode then s.duplicates + 1 else s.duplicates, list,
    key⟩

def selectivityPage (descending : Bool) (segments : Nat) (s : Counting) (first : Bool) :
    List (IndexNode × UInt8) → Option (Counting × Bool)
  | [] => none
  | (node, behind) :: nodes =>
    if node.isEndBucket || node.isEndLevel then some (s, node.isEndLevel)
    else do
      let duplicate :=
        if first then keyEquality s.key node
        else node.data.isEmpty && node.data.length + node.nodePrefix == s.key.length
      let key := s.key.take node.nodePrefix ++ node.data
      let s ← s.add descending segments node.nodePrefix node.data behind duplicate key
      selectivityPage descending segments s false nodes

/-- `BTR_selectivity`, on the pages of the leaf level. -/
def btrSelectivity (descending : Bool) (segments : Nat) (s : Counting) :
    List (List (IndexNode × UInt8)) → Option Counting
  | [] => some s
  | page :: siblings => do
    let (s, endLevel) ← selectivityPage descending segments s true page
    if endLevel then some s else btrSelectivity descending segments s siblings

/-- A record of the sort: the key, filled up, with `index_sort_record` behind it. -/
structure SortRecord where
  record : List UInt8
  isrKeyLength : Nat

/-- `fast_load`, on the records that `SORT_get` returns: what it counts. -/
def fastLoad (descending : Bool) (segments : Nat) (s : Counting) :
    List SortRecord → Option Counting
  | [] => some s
  | r :: records => do
    let key := r.record.take r.isrKeyLength
    let nodePrefix := computePrefix s.key key
    let data := key.drop nodePrefix
    let duplicate := data.isEmpty && nodePrefix == s.key.length
    let behind := r.record.getD r.isrKeyLength 0
    let s ← s.add descending segments nodePrefix data behind duplicate key
    fastLoad descending segments s records

variable {c p q key next data : List UInt8} {n count stuff : Nat} {behind : UInt8}

theorem computePrefix_append (c p q : List UInt8) :
    computePrefix (c ++ p) (c ++ q) = c.length + computePrefix p q := by
  induction c with
  | nil => simp
  | cons a c ih =>
    rw [cons_append, cons_append, computePrefix, if_pos rfl, ih, length_cons]
    omega

theorem computePrefix_eq (key next : List UInt8) :
    ∃ c p q, key = c ++ p ∧ next = c ++ q ∧ computePrefix key next = c.length ∧
      computePrefix p q = 0 := by
  induction key generalizing next with
  | nil => exact ⟨[], [], next, rfl, rfl, rfl, rfl⟩
  | cons a key ih =>
    cases next with
    | nil => exact ⟨[], a :: key, [], rfl, rfl, rfl, rfl⟩
    | cons b next =>
      by_cases hab : a = b
      · obtain ⟨c, p, q, rfl, rfl, hlen, hzero⟩ := ih next
        exact ⟨a :: c, p, q, rfl, by rw [hab]; rfl, by rw [computePrefix, if_pos hab, hlen]; rfl,
          hzero⟩
      · have hzero : computePrefix (a :: key) (b :: next) = 0 := by rw [computePrefix, if_neg hab]
        exact ⟨[], a :: key, b :: next, rfl, rfl, hzero, hzero⟩

theorem computePrefix_eq_zero_iff :
    computePrefix p q = 0 ↔ ∀ a ∈ p.head?, ∀ b ∈ q.head?, a ≠ b := by
  cases p <;> cases q <;> simp [computePrefix]

theorem computePrefix_comm (p q : List UInt8) : computePrefix p q = computePrefix q p := by
  induction p generalizing q with
  | nil => cases q <;> rfl
  | cons a p ih =>
    cases q with
    | nil => rfl
    | cons b q => simp only [computePrefix, ih q, eq_comm]

theorem computePrefix_complement (p q : List UInt8) :
    computePrefix (btrComplementKey p) (btrComplementKey q) = computePrefix p q := by
  induction p generalizing q with
  | nil => rfl
  | cons a p ih =>
    cases q with
    | nil => rfl
    | cons b q =>
      simp only [btrComplementKey, map_cons, computePrefix, UInt8.xor_left_inj] at ih ⊢
      rw [ih]

@[simp]
theorem byteAt_cons_succ (a : UInt8) (i : Nat) : byteAt (a :: p) (i + 1) = byteAt p i := rfl

@[simp]
theorem byteAt_cons_zero (a : UInt8) : byteAt (a :: p) 0 = a.toNat := rfl

theorem byteAt_append {i : Nat} (h : i < c.length) : byteAt (c ++ p) i = byteAt c i := by
  rw [byteAt, byteAt, getD_eq_getElem?_getD, getElem?_append_left h, getD_eq_getElem?_getD]

theorem byteAt_length_add (i : Nat) : byteAt (c ++ p) (c.length + i) = byteAt p i := by
  rw [byteAt, byteAt, getD_eq_getElem?_getD, getElem?_append_right (by omega),
    Nat.add_sub_cancel_left, getD_eq_getElem?_getD]

theorem lookDuplicates_of_differ (h : computePrefix p q = 0) :
    lookDuplicates count stuff p q = some (count, p, q) := by
  cases p with
  | nil => rw [lookDuplicates]; simp
  | cons a p =>
    cases q with
    | nil => rw [lookDuplicates]; simp
    | cons b q =>
      have hab : a ≠ b := computePrefix_eq_zero_iff.1 h a rfl b rfl
      rw [lookDuplicates]
      simp [hab]

theorem lookDuplicates_append (h : computePrefix p q = 0)
    (hp : ∀ j, (c ++ p).length ≠ stuff + 5 * j + 1)
    (hq : ∀ j, (c ++ q).length ≠ stuff + 5 * j + 1) :
    lookDuplicates count stuff (c ++ p) (c ++ q) =
      some (if c.length ≤ stuff then count
        else byteAt c (stuff + (c.length - stuff - 1) / 5 * 5), p, q) := by
  induction c generalizing count stuff with
  | nil => rw [nil_append, nil_append, lookDuplicates_of_differ h, if_pos (by simp)]
  | cons a c ih =>
    simp only [cons_append, length_cons] at hp hq ⊢
    rw [lookDuplicates]
    cases stuff with
    | zero =>
      have hnil {l : List UInt8} (h : (c ++ l).length + 1 ≠ 0 + 5 * 0 + 1) :
        (c ++ l).isEmpty = false := by
        rw [isEmpty_eq_false_iff]
        rintro hl
        rw [hl] at h
        exact h rfl
      rw [if_pos rfl, if_neg (not_not.2 rfl), hnil (hp 0), hnil (hq 0)]
      simp only [Bool.or_self, Bool.false_eq_true, if_false]
      rw [ih (fun j hj => hp (j + 1) (by simp only [stuffCount] at hj; omega))
        (fun j hj => hq (j + 1) (by simp only [stuffCount] at hj; omega)),
        if_neg (show ¬ c.length + 1 ≤ 0 by omega)]
      split_ifs with hle
      · simp only [stuffCount] at hle
        rw [show 0 + (c.length + 1 - 0 - 1) / 5 * 5 = 0 by omega]
        rfl
      · simp only [stuffCount] at hle ⊢
        rw [show 0 + (c.length + 1 - 0 - 1) / 5 * 5 = (4 + (c.length - 4 - 1) / 5 * 5) + 1 by omega,
          byteAt_cons_succ]
    | succ stuff =>
      rw [if_neg (by omega), if_neg (not_not.2 rfl), Nat.add_sub_cancel,
        ih (fun j hj => hp j (by omega)) fun j hj => hq j (by omega)]
      by_cases hle : c.length ≤ stuff
      · rw [if_pos hle, if_pos (by omega)]
      · rw [if_neg hle, if_neg (by omega), show stuff + 1 + (c.length + 1 - (stuff + 1) - 1) / 5 *
          5 =
          (stuff + (c.length - stuff - 1) / 5 * 5) + 1 by omega, byteAt_cons_succ]

def direct (descending : Bool) (count : Nat) : Nat := if descending then 255 - count else count

theorem differingSegment_compressed (descending : Bool) (h : computePrefix p q = 0) :
    differingSegment descending (c ++ p) c.length q behind =
      some (if p = [] ∧ q = [] then 0
        else direct descending
          (if c.length % 5 = 0 then (q.headD behind).toNat else byteAt c (c.length / 5 * 5))) := by
  rw [differingSegment]
  simp only [drop_left, lookDuplicates_of_differ h, stuffCount]
  by_cases hmod : c.length % 5 = 0
  · simp [direct, hmod, show c.length / 5 * 5 = c.length by omega]
  · simp [direct, hmod, show c.length / 5 * 5 ≠ c.length by omega,
      byteAt_append (show c.length / 5 * 5 < c.length by omega)]

theorem differingSegment_zero (descending : Bool) (h : computePrefix p q = 0)
    (hp : (c ++ p).length % 5 ≠ 1) (hq : (c ++ q).length % 5 ≠ 1) :
    differingSegment descending (c ++ p) 0 (c ++ q) behind =
      some (if p = [] ∧ q = [] then 0
        else direct descending
          (if c = [] then (q.headD behind).toNat else byteAt c ((c.length - 1) / 5 * 5))) := by
  have hloop (count : Nat) := @lookDuplicates_append c p q count 0 h (fun j hj => hp (by omega))
    (fun j hj => hq (by omega))
  rw [differingSegment]
  simp only [drop_zero, if_pos, hloop]
  cases c with
  | nil => simp [direct]
  | cons a c => simp [direct]

/-! ## The markers of a key -/

structure Marked (n : Nat) (G : List (Nat × List UInt8)) : Prop where
  grouped : Stuff.Grouped 3 G
  marker : ∀ x ∈ G, 1 ≤ x.1 ∧ x.1 ≤ n

variable {G G' : List (Nat × List UInt8)} {m : Nat} {w : List UInt8}

theorem toNat_marker (h : m < 256) : (UInt8.ofNat m).toNat = m := by
  rw [UInt8.toNat_ofNat', Nat.mod_eq_of_lt h]

theorem Marked.tail (h : Marked n ((m, w) :: G)) : Marked n G :=
  ⟨h.grouped.2.2.2.2.2, fun x hx => h.marker x (mem_cons_of_mem _ hx)⟩

theorem Marked.length_eq (h : Marked n ((m, w) :: G)) (hne : G ≠ []) : w.length = 4 :=
  h.grouped.2.2.2.1 hne

theorem Marked.length_le (h : Marked n ((m, w) :: G)) : w.length ≤ 4 := h.grouped.2.2.1

theorem Marked.length_pos (h : Marked n ((m, w) :: G)) : 0 < w.length :=
  length_pos_iff.2 h.grouped.2.1

theorem Marked.word_eq_nil (h : Marked n ((m, w) :: G)) (hlt : w.length < 4) :
    Stuff.word UInt8.ofNat G = [] := by
  cases G with
  | nil => rfl
  | cons x G => exact absurd (h.length_eq (by simp)) (by omega)

theorem Marked.length_word (h : Marked n G) : (Stuff.word UInt8.ofNat G).length % 5 ≠ 1 := by
  induction G with
  | nil => simp
  | cons x G ih =>
    obtain ⟨m, w⟩ := x
    have ih := ih h.tail
    have hpos := h.length_pos
    rw [Stuff.word_cons, length_cons, length_append]
    by_cases hlt : w.length < 4
    · rw [h.word_eq_nil hlt]
      simp
      omega
    · have := h.length_le
      omega

theorem append_common {u x y : List UInt8} (h : computePrefix p q = 0) (hx : u ++ x = c ++ p)
    (hy : u ++ y = c ++ q) : ∃ c', c = u ++ c' ∧ x = c' ++ p ∧ y = c' ++ q := by
  rcases append_eq_append_iff.1 hx with ⟨c', rfl, rfl⟩ | ⟨u', rfl, rfl⟩
  · rw [append_assoc, append_cancel_left_eq] at hy
    exact ⟨c', rfl, rfl, hy⟩
  · rw [append_assoc, append_cancel_left_eq] at hy
    subst hy
    rw [computePrefix_append] at h
    obtain rfl : u' = [] := eq_nil_of_length_eq_zero (by omega)
    exact ⟨[], by simp, rfl, rfl⟩

theorem Marked.common_lt {w' : List UInt8} (h : Marked n ((m, w) :: G))
    (h' : Marked n ((m, w') :: G')) (hw : w ≠ w') (hp : w ++ Stuff.word UInt8.ofNat G = c ++ p)
    (hq : w' ++ Stuff.word UInt8.ofNat G' = c ++ q) : c.length < 4 := by
  have hle := h.length_le
  have hle' := h'.length_le
  have hlp := congrArg List.length hp
  have hlq := congrArg List.length hq
  simp only [length_append] at hlp hlq
  by_contra hge
  by_cases hlt : w.length < 4
  · rw [h.word_eq_nil hlt, length_nil] at hlp
    omega
  by_cases hlt' : w'.length < 4
  · rw [h'.word_eq_nil hlt', length_nil] at hlq
    omega
  have htake := congrArg (List.take 4) hp
  have htake' := congrArg (List.take 4) hq
  rw [take_append_of_le_length (by omega), take_append_of_le_length (by omega),
    take_of_length_le (by omega)] at htake htake'
  exact hw (htake.trans htake'.symm)

theorem firstDiff_eq (hmax : n < 256) (hG : Marked n G) (hG' : Marked n G')
    (hp : Stuff.word UInt8.ofNat G = c ++ p) (hq : Stuff.word UInt8.ofNat G' = c ++ q)
    (h : computePrefix p q = 0) :
    Stuff.firstDiff G G' =
      if p = [] ∧ q = [] then 0
      else if c.length % 5 = 0 then max (byteAt p 0) (byteAt q 0) else byteAt c
        (c.length / 5 * 5) := by
  induction G generalizing G' c with
  | nil =>
    obtain ⟨rfl, rfl⟩ := append_eq_nil_iff.1 hp.symm
    cases G' with
    | nil =>
      obtain rfl : q = [] := hq.symm
      rfl
    | cons y G' =>
      obtain ⟨m', w'⟩ := y
      have hm' := (hG'.marker _ mem_cons_self).2
      subst hq
      simp [Stuff.firstDiff, byteAt, toNat_marker (show m' < 256 by omega)]
  | cons x G ih =>
    obtain ⟨m, w⟩ := x
    have hm := (hG.marker _ mem_cons_self).2
    cases G' with
    | nil =>
      obtain ⟨rfl, rfl⟩ := append_eq_nil_iff.1 hq.symm
      subst hp
      simp [Stuff.firstDiff, byteAt, toNat_marker (show m < 256 by omega)]
    | cons y G' =>
      obtain ⟨m', w'⟩ := y
      have hm' := (hG'.marker _ mem_cons_self).2
      simp only [Stuff.word_cons] at hp hq
      by_cases heq : m = m'
      · subst heq
        by_cases hw : w = w'
        · subst hw
          rw [Stuff.firstDiff, if_pos rfl, if_pos rfl]
          obtain ⟨c', rfl, hp', hq'⟩ := @append_common c p q (UInt8.ofNat m :: w) _ _ h hp hq
          rw [ih hG.tail hG'.tail hp' hq']
          by_cases hnil : p = [] ∧ q = []
          · rw [if_pos hnil, if_pos hnil]
          · have hlen : (UInt8.ofNat m :: w).length = 5 := by
              by_cases hne : G = []
              · refine congrArg (· + 1) (hG'.length_eq fun hne' => hnil ?_)
                subst hne hne'
                exact ⟨(append_eq_nil_iff.1 hp'.symm).2, (append_eq_nil_iff.1 hq'.symm).2⟩
              · exact congrArg (· + 1) (hG.length_eq hne)
            rw [if_neg hnil, if_neg hnil, length_append, hlen, Nat.add_mod_left,
              show (5 + c'.length) / 5 * 5 = 5 + c'.length / 5 * 5 by omega, ← hlen,
              byteAt_length_add]
        · obtain ⟨c', rfl, hp', hq'⟩ := @append_common c p q [UInt8.ofNat m] _ _ h hp hq
          have hlt := hG.common_lt hG' hw hp' hq'
          rw [Stuff.firstDiff, if_pos rfl, if_neg hw, if_neg, length_append,
            length_singleton, if_neg (by omega), show (1 + c'.length) / 5 * 5 = 0 by omega]
          · exact (toNat_marker (by omega)).symm
          · -- Keys without more bytes are that of their only groups.
            rintro ⟨rfl, rfl⟩
            have hshort {w : List UInt8} {G : List (Nat × List UInt8)} (hG : Marked n ((m, w) :: G))
                (heq : w ++ Stuff.word UInt8.ofNat G = c' ++ []) : w = c' := by
              have hlen := congrArg List.length heq
              simp only [length_append, length_nil] at hlen
              rwa [hG.word_eq_nil (by omega), append_nil, append_nil] at heq
            exact hw ((hshort hG hp').trans (hshort hG' hq').symm)
      · cases c with
        | nil =>
          subst hp hq
          simp [Stuff.firstDiff, heq, toNat_marker (show m < 256 by omega), toNat_marker
            (show m' < 256 by omega)]
        | cons a c =>
          simp only [cons_append, List.cons.injEq] at hp hq
          have hmark := congrArg UInt8.toNat (hp.1.trans hq.1.symm)
          rw [toNat_marker (by omega), toNat_marker (by omega)] at hmark
          exact absurd hmark heq

theorem Marked.byteAt_add (h : Marked n ((m, w) :: G)) (hne : G ≠ []) (i : Nat) :
    byteAt (Stuff.word UInt8.ofNat ((m, w) :: G)) (i + 5) = byteAt (Stuff.word UInt8.ofNat G)
      i := by
  have hlen : (UInt8.ofNat m :: w).length = 5 := congrArg (· + 1) (h.length_eq hne)
  rw [Stuff.word_cons, Nat.add_comm, ← hlen]
  exact @byteAt_length_add (UInt8.ofNat m :: w) _ i

theorem Marked.ne_nil (h : Marked n ((m, w) :: G)) {i : Nat}
    (hi : i + 5 < (Stuff.word UInt8.ofNat ((m, w) :: G)).length) : G ≠ [] := by
  rintro rfl
  have := h.length_le
  simp only [Stuff.word_cons, Stuff.word_nil, append_nil, length_cons] at hi
  omega

theorem Marked.lt_length (h : Marked n ((m, w) :: G)) {i : Nat}
    (hi : i + 5 < (Stuff.word UInt8.ofNat ((m, w) :: G)).length) :
    i < (Stuff.word UInt8.ofNat G).length := by
  have := h.length_eq (h.ne_nil hi)
  simp only [Stuff.word_cons, length_cons, length_append] at hi
  omega

theorem Marked.byteAt_mem (hmax : n < 256) (h : Marked n G) {i : Nat} (hi : i % 5 = 0)
    (hlt : i < (Stuff.word UInt8.ofNat G).length) :
    1 ≤ byteAt (Stuff.word UInt8.ofNat G) i ∧ byteAt (Stuff.word UInt8.ofNat G) i ≤ n := by
  induction G generalizing i with
  | nil => simp at hlt
  | cons x G ih =>
    obtain ⟨hpos, hle⟩ := h.marker _ mem_cons_self
    by_cases hzero : i = 0
    · subst hzero
      rw [Stuff.word_cons, byteAt_cons_zero, toNat_marker (by omega)]
      exact ⟨hpos, hle⟩
    · obtain ⟨i, rfl⟩ : ∃ j, i = j + 5 := ⟨i - 5, by omega⟩
      rw [h.byteAt_add (h.ne_nil hlt)]
      exact ih h.tail (by omega) (h.lt_length hlt)

theorem Marked.byteAt_le (hmax : n < 256) (h : Marked n G) {i : Nat} (hi : i % 5 = 0)
    (hlt : i + 5 < (Stuff.word UInt8.ofNat G).length) :
    byteAt (Stuff.word UInt8.ofNat G) (i + 5) ≤ byteAt (Stuff.word UInt8.ofNat G) i := by
  induction G generalizing i with
  | nil => simp at hlt
  | cons x G ih =>
    obtain ⟨m, w⟩ := x
    have hne := h.ne_nil hlt
    rw [h.byteAt_add hne]
    by_cases hzero : i = 0
    · subst hzero
      obtain ⟨⟨m', w'⟩, G', rfl⟩ := exists_cons_of_ne_nil hne
      have hm := (h.marker _ mem_cons_self).2
      have hle : m' ≤ m := h.grouped.2.2.2.2.1 (m', w') mem_cons_self
      rw [Stuff.word_cons, Stuff.word_cons, byteAt_cons_zero, byteAt_cons_zero,
        toNat_marker (by omega), toNat_marker (by omega)]
      exact hle
    · obtain ⟨i, rfl⟩ : ∃ j, i = j + 5 := ⟨i - 5, by omega⟩
      rw [h.byteAt_add hne]
      exact ih h.tail (by omega) (h.lt_length hlt)

/-- The count of two adjacent keys is not right: they differ first at a marker, and the index is
descending, or the key is the first one of its page and the marker is that of a later segment than
the marker in front of it. -/
def Miscounted (descending first : Bool) (key next : List UInt8) : Prop :=
  key ≠ next ∧ computePrefix key next % (stuffCount + 1) = 0 ∧
    (descending = true ∨ first = true ∧ 0 < computePrefix key next ∧
      byteAt next (computePrefix key next) <
        byteAt next (computePrefix key next - (stuffCount + 1)))

instance (descending first : Bool) (key next : List UInt8) :
    Decidable (Miscounted descending first key next) := inferInstanceAs (Decidable (_ ∧ _ ∧ _))

theorem keyCompare_append (descending : Bool) (c p q : List UInt8) :
    keyCompare descending (c ++ p) (c ++ q) = keyCompare descending p q := by
  induction c with
  | nil => rfl
  | cons a c ih => simpa [keyCompare] using ih

theorem byteAt_le_of_keyCompare (h : computePrefix p q = 0) (hord : keyCompare false p q ≠ .gt)
    (hne : ¬ (p = [] ∧ q = [])) :
    q ≠ [] ∧ byteAt p 0 ≤ byteAt q 0 ∧ (p ≠ [] → byteAt p 0 < byteAt q 0) := by
  cases q with
  | nil =>
    cases p with
    | nil => simp at hne
    | cons a p => simp [keyCompare] at hord
  | cons b q =>
    cases p with
    | nil => simp [byteAt]
    | cons a p =>
      have hab : a ≠ b := computePrefix_eq_zero_iff.1 h a rfl b rfl
      have hlt : a < b := by
        rcases byte_trichotomy a b with hlt | heq | hgt
        · exact hlt
        · exact absurd heq hab
        · simp [keyCompare, hgt] at hord
      have := UInt8.lt_iff_toNat_lt.1 hlt
      exact ⟨by simp, this.le, fun _ => this⟩

theorem direct_complement {l : List UInt8} {i : Nat} (h : i < l.length) :
    direct true (byteAt (btrComplementKey l) i) = byteAt l i := by
  have hlt := l[i].toNat_lt
  rw [direct, if_pos rfl, byteAt, byteAt, btrComplementKey, getD_eq_getElem?_getD,
    getD_eq_getElem?_getD, getElem?_map, getElem?_eq_getElem h, Option.map_some,
    Option.getD_some, Option.getD_some, UInt8.toNat_xor]
  change 255 - (l[i].toNat ^^^ 255) = _
  rw [xor_ones _ hlt]
  omega

section Adjacent

variable {idx : IndexDesc}

theorem plain_append (idx : IndexDesc) (c p : List UInt8) :
    plain idx (c ++ p) = plain idx c ++ plain idx p := by
  simp only [plain, btrComplementKey, map_append]
  split_ifs <;> rfl

theorem computePrefix_plain (idx : IndexDesc) (p q : List UInt8) :
    computePrefix (plain idx p) (plain idx q) = computePrefix p q := by
  rw [plain, plain]
  split_ifs
  · exact computePrefix_complement p q
  · rfl

theorem plain_eq_nil (idx : IndexDesc) : plain idx p = [] ↔ p = [] := by
  rw [← length_eq_zero_iff, length_plain, length_eq_zero_iff]

theorem plain_inj (idx : IndexDesc) : plain idx p = plain idx q ↔ p = q :=
  ⟨fun h => by simpa using congrArg (plain idx) h, fun h => by rw [h]⟩

theorem direct_plain (idx : IndexDesc) {i : Nat} (h : i < c.length) :
    direct idx.idxDescending (byteAt (plain idx c) i) = byteAt c i := by
  rw [plain]
  split_ifs with hdesc
  · rw [hdesc, direct_complement h]
  · simp [direct, hdesc]

theorem miscounted_plain (first : Bool) (h : computePrefix p q = 0) :
    Miscounted idx.idxDescending first (plain idx (c ++ p)) (plain idx (c ++ q)) ↔
      ¬ (p = [] ∧ q = []) ∧ c.length % 5 = 0 ∧ (idx.idxDescending = true ∨
        first = true ∧ c ≠ [] ∧ byteAt (c ++ q) c.length < byteAt (c ++ q) (c.length - 5)) := by
  have hne : plain idx (c ++ p) ≠ plain idx (c ++ q) ↔ ¬ (p = [] ∧ q = []) := by
    rw [ne_eq, plain_inj, append_cancel_left_eq, not_iff_not]
    constructor
    · rintro rfl
      cases p with
      | nil => exact ⟨rfl, rfl⟩
      | cons a p => exact absurd rfl (computePrefix_eq_zero_iff.1 h a rfl a rfl)
    · rintro ⟨rfl, rfl⟩
      rfl
  rw [Miscounted, computePrefix_plain, computePrefix_append, h, hne, Nat.add_zero]
  refine and_congr_right fun _ => and_congr_right fun _ => ?_
  cases hdesc : idx.idxDescending with
  | true => simp
  | false => simp [plain, hdesc, length_pos_iff, stuffCount]

theorem keyCompare_plain_false (hdesc : idx.idxDescending = false) :
    keyCompare idx.idxDescending (plain idx (c ++ p)) (plain idx (c ++ q)) = keyCompare false p
      q := by
  rw [plain_append, plain_append, keyCompare_append]
  simp [plain, hdesc]

theorem keyCompare_plain_true (hdesc : idx.idxDescending = true) :
    keyCompare idx.idxDescending (plain idx (c ++ p)) (plain idx (c ++ q)) = keyCompare false q
      p := by
  rw [plain_append, plain_append, keyCompare_append]
  simp [plain, hdesc, keyCompare_complement]

variable (hmax : n < 256) (hG : Marked n G) (hG' : Marked n G')
  (hp : Stuff.word UInt8.ofNat G = c ++ p) (hq : Stuff.word UInt8.ofNat G' = c ++ q)
  (h : computePrefix p q = 0)

include hmax hG hG' hp hq h

theorem differingSegment_next
    (hord : keyCompare idx.idxDescending (plain idx (c ++ p)) (plain idx (c ++ q)) ≠ .gt) :
    ∃ v, differingSegment idx.idxDescending (plain idx (c ++ p)) c.length (plain idx q) behind =
        some v ∧
      (¬ Miscounted idx.idxDescending false (plain idx (c ++ p)) (plain idx (c ++ q)) →
        v = Stuff.firstDiff G G') ∧
      (Miscounted idx.idxDescending false (plain idx (c ++ p)) (plain idx (c ++ q)) →
        (q.length < p.length → behind = 255) → v < Stuff.firstDiff G G') := by
  have hsegment := @differingSegment_compressed (plain idx c) (plain idx p) (plain idx q) behind
    idx.idxDescending ((computePrefix_plain idx p q).trans h)
  rw [length_plain] at hsegment
  simp only [miscounted_plain _ h]
  rw [firstDiff_eq hmax hG hG' hp hq h]
  refine ⟨_, (plain_append idx c p) ▸ hsegment, ?_, ?_⟩
  · intro hnot
    simp only [plain_eq_nil]
    split_ifs with hnil hmod
    · rfl
    · cases hdesc : idx.idxDescending with
      | true => exact absurd ⟨hnil, hmod, .inl hdesc⟩ hnot
      | false =>
        rw [keyCompare_plain_false hdesc] at hord
        obtain ⟨hne, hle, -⟩ := byteAt_le_of_keyCompare h hord hnil
        obtain ⟨b, q, rfl⟩ := exists_cons_of_ne_nil hne
        rw [max_eq_right hle]
        simp [direct, plain, hdesc]
    · exact direct_plain idx (by omega)
  · rintro ⟨hnil, hmod, hdesc | ⟨hfirst, -⟩⟩ hbehind
    · rw [keyCompare_plain_true hdesc] at hord
      obtain ⟨hne, hle, hlt⟩ := byteAt_le_of_keyCompare
        (by rw [computePrefix_comm]; exact h) hord fun hnil' => hnil hnil'.symm
      rw [if_neg (by simpa only [plain_eq_nil] using hnil), if_pos hmod, if_neg hnil, if_pos hmod,
        max_eq_left hle]
      cases q with
      | nil =>
        have hpos : 0 < p.length := length_pos_iff.2 hne
        obtain rfl := hbehind hpos
        have hmem := hG.byteAt_mem hmax hmod (by rw [hp, length_append]; omega)
        rw [hp, ← Nat.add_zero c.length, byteAt_length_add] at hmem
        simp [hdesc, plain]
        exact hmem.1
      | cons b q =>
        have heq := @direct_plain (b :: q) idx 0 (by simp)
        refine lt_of_eq_of_lt ?_ (hlt (by simp))
        rw [← heq]
        simp [plain, hdesc, btrComplementKey]
    · cases hfirst

theorem differingSegment_first
    (hord : keyCompare idx.idxDescending (plain idx (c ++ p)) (plain idx (c ++ q)) ≠ .gt) :
    ∃ v, differingSegment idx.idxDescending (plain idx (c ++ p)) 0 (plain idx (c ++ q)) behind =
        some v ∧
      (¬ Miscounted idx.idxDescending true (plain idx (c ++ p)) (plain idx (c ++ q)) →
        v = Stuff.firstDiff G G') ∧
      (Miscounted idx.idxDescending true (plain idx (c ++ p)) (plain idx (c ++ q)) →
        idx.idxDescending = false → Stuff.firstDiff G G' < v ∧ v ≤ n) := by
  have hsegment := @differingSegment_zero (plain idx c) (plain idx p) (plain idx q) behind
    idx.idxDescending ((computePrefix_plain idx p q).trans h)
    (by rw [← plain_append, length_plain, ← hp]; exact hG.length_word)
    (by rw [← plain_append, length_plain, ← hq]; exact hG'.length_word)
  rw [length_plain, ← plain_append, ← plain_append] at hsegment
  simp only [miscounted_plain _ h]
  rw [firstDiff_eq hmax hG hG' hp hq h]
  -- In an ascending index the marker behind the common groups is that of the key.
  have hnext (hdesc : idx.idxDescending = false) (hnil : ¬ (p = [] ∧ q = [])) :
      0 < q.length ∧ max (byteAt p 0) (byteAt q 0) = byteAt q 0 := by
    rw [keyCompare_plain_false hdesc] at hord
    obtain ⟨hne, hle, -⟩ := byteAt_le_of_keyCompare h hord hnil
    exact ⟨length_pos_iff.2 hne, max_eq_right hle⟩
  have hlast (hc : c ≠ []) (hmod : c.length % 5 = 0) : (c.length - 1) / 5 * 5 = c.length - 5 := by
    omega
  have hbyte : byteAt (c ++ q) c.length = byteAt q 0 := byteAt_length_add 0
  refine ⟨_, hsegment, ?_, ?_⟩
  · intro hnot
    simp only [plain_eq_nil]
    split_ifs with hnil hc hmod hmod
    · rfl
    · cases hdesc : idx.idxDescending with
      | true => exact absurd ⟨hnil, hmod, .inl hdesc⟩ hnot
      | false =>
        obtain ⟨hpos, hmaximum⟩ := hnext hdesc hnil
        obtain ⟨b, q, rfl⟩ := exists_cons_of_ne_nil (length_pos_iff.1 hpos)
        rw [hmaximum]
        simp [direct, plain, hdesc]
    · exact absurd (by rw [hc]; rfl) hmod
    · cases hdesc : idx.idxDescending with
      | true => exact absurd ⟨hnil, hmod, .inl hdesc⟩ hnot
      | false =>
        obtain ⟨hpos, hmaximum⟩ := hnext hdesc hnil
        have hlen := length_pos_iff.2 hc
        have hge : ¬ byteAt (c ++ q) c.length < byteAt (c ++ q) (c.length - 5) :=
          fun hlt => hnot ⟨hnil, hmod, .inr ⟨trivial, hc, hlt⟩⟩
        have hle := @Marked.byteAt_le _ _ hmax hG' (c.length - 5) (by omega)
          (by rw [hq, length_append]; omega)
        rw [hq, show c.length - 5 + 5 = c.length by omega] at hle
        rw [hmaximum, ← hbyte, hlast hc hmod, ← hdesc, direct_plain idx (by omega)]
        rw [byteAt_append (show c.length - 5 < c.length by omega)] at hge hle
        omega
    · rw [direct_plain idx (by omega), show (c.length - 1) / 5 * 5 = c.length / 5 * 5 by omega]
  · rintro ⟨hnil, hmod, hdesc | ⟨-, hc, hlt⟩⟩ hasc
    · rw [hasc] at hdesc
      cases hdesc
    · have hlen := length_pos_iff.2 hc
      have hmem := @Marked.byteAt_mem _ _ hmax hG' (c.length - 5) (by omega)
        (by rw [hq, length_append]; omega)
      rw [hq, byteAt_append (by omega)] at hmem
      rw [hbyte, byteAt_append (by omega)] at hlt
      rw [if_neg hnil, if_pos hmod, (hnext hasc hnil).2,
        if_neg (by simpa only [plain_eq_nil] using hnil), if_neg (by rwa [plain_eq_nil]),
        hlast hc hmod, direct_plain idx (by omega)]
      exact ⟨hlt, hmem.2⟩

end Adjacent

end Firebird.Jrd.Btr
