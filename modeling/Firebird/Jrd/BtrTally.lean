import Mathlib.Data.List.Chain
import Mathlib.Data.List.Forall2
import Firebird.Jrd.BtrSelect

/-!
# Counting the segments of an index

What the counters of `BTR_selectivity` and `fast_load` are after a run, for all distributions of the
keys over the leaf pages, and when they are right.
-/
namespace Firebird.Jrd.Btr

open Lib List

def tally (n : Nat) (counts : List Nat) : List Nat :=
  (List.range n).map fun k => counts.countP (· + k < n)

variable {n k : Nat} {cs ds : List Nat}

theorem tally_nil : tally n [] = replicate n 0 := by
  refine ext_getElem? fun k => ?_
  simp [tally]

theorem getElem?_addDuplicates_loop (count t : Nat) (list : List Nat) (k : Nat)
    (ht : t ≤ n - count) :
    ((range' (count + 1) t).foldl (fun list i => list.modify (n - i) (· + 1)) list)[k]? =
      list[k]?.map fun x => if n - count ≤ k + t ∧ k < n - count then x + 1 else x := by
  induction t with
  | zero =>
    rw [List.range'_zero, foldl_nil]
    cases list[k]? with
    | none => rfl
    | some x =>
      rw [Option.map_some, if_neg (by omega)]
  | succ t ih =>
    rw [List.range'_concat, foldl_append, foldl_cons, foldl_nil, getElem?_modify, ih (by omega)]
    cases list[k]? with
    | none => split_ifs <;> rfl
    | some x =>
      split_ifs <;> first | rfl | omega

theorem addDuplicates_tally (v : Nat) : addDuplicates n v (tally n cs) = tally n (cs ++ [v]) := by
  refine ext_getElem? fun k => ?_
  rw [addDuplicates, getElem?_addDuplicates_loop v (n - v) _ k le_rfl]
  by_cases hk : k < n
  · have hiff : k < n - v ↔ v + k < n := by omega
    simp only [tally]
    split_ifs <;> simp_all
  · simp [tally, hk]

theorem countP_le_of_forall₂ (h : Forall₂ (· ≤ ·) cs ds) (k : Nat) :
    ds.countP (· + k < n) ≤ cs.countP (· + k < n) := by
  induction h with
  | nil => exact le_rfl
  | cons hle _ ih =>
    rw [countP_cons, countP_cons]
    refine Nat.add_le_add ih ?_
    split_ifs with hd hc
    · exact le_rfl
    · simp only [decide_eq_true_eq] at hd hc
      omega
    · exact Nat.zero_le _
    · exact le_rfl

theorem tally_eq_iff (h : Forall₂ (· ≤ ·) cs ds) (hds : ∀ d ∈ ds, d ≤ n) :
    tally n cs = tally n ds ↔ cs = ds := by
  refine ⟨fun heq => ?_, fun heq => by rw [heq]⟩
  have hcount (k : Nat) (hk : k < n) : cs.countP (· + k < n) = ds.countP (· + k < n) := by
    have := congrArg (·[k]?) heq
    simpa [tally, hk] using this
  clear heq
  induction h with
  | nil => rfl
  | @cons c d cs ds hle hrest ih =>
    -- The counts of the rest differ in no other way, so that each counter has both equal.
    have hsplit (k : Nat) (hk : k < n) : cs.countP (· + k < n) = ds.countP (· + k < n) ∧
        (c + k < n → d + k < n) := by
      have hk := hcount k hk
      have hmono := @countP_le_of_forall₂ n _ _ hrest k
      rw [countP_cons, countP_cons] at hk
      split_ifs at hk with hc hd hd <;> simp only [decide_eq_true_eq] at hc hd <;> omega
    have hd := hds d mem_cons_self
    have hcd : c = d := by
      by_contra hne
      have := (hsplit (n - d) (by omega)).2 (by omega)
      omega
    rw [hcd, ih (fun d hd => hds d (mem_cons_of_mem _ hd)) fun k hk => (hsplit k hk).1]

section Steps

variable {α : Type*}

def stepsPage (prev : Option α) (first : Bool) : List α → List (Bool × α × α)
  | [] => []
  | x :: page => (prev.map fun y => (first, y, x)).toList ++ stepsPage (some x) false page

def steps (prev : Option α) : List (List α) → List (Bool × α × α)
  | [] => []
  | page :: rest => stepsPage prev true page ++ steps (page.getLast?.or prev) rest

theorem stepsPage_map_snd (prev : Option α) (first first' : Bool) (xs : List α) :
    (stepsPage prev first xs).map Prod.snd = (stepsPage prev first' xs).map Prod.snd := by
  cases xs with
  | nil => rfl
  | cons x xs => cases prev <;> simp [stepsPage]

theorem getLast?_cons_or (x : α) (xs : List α) (prev : Option α) :
    ((x :: xs).getLast?).or prev = xs.getLast?.or (some x) := by
  cases xs with
  | nil => rfl
  | cons y xs =>
    rw [getLast?_cons_cons, getLast?_eq_some_getLast (cons_ne_nil y xs)]
    rfl

theorem last_append_suffix (prev : Option α) (xs ys : List α) :
    (xs.getLast?.or prev).toList ++ ys <:+ prev.toList ++ (xs ++ ys) := by
  induction xs generalizing prev with
  | nil => exact suffix_rfl
  | cons x xs ih =>
    rw [getLast?_cons_or]
    exact (ih (some x)).trans (suffix_append _ _)

theorem stepsPage_append (prev : Option α) (first first' : Bool) (xs ys : List α) :
    (stepsPage prev first (xs ++ ys)).map Prod.snd =
      (stepsPage prev first xs ++ stepsPage (xs.getLast?.or prev) first' ys).map Prod.snd := by
  induction xs generalizing prev first with
  | nil => simpa [stepsPage] using stepsPage_map_snd prev first first' ys
  | cons x xs ih =>
    simp only [cons_append, stepsPage, map_append, append_assoc] at ih ⊢
    rw [ih, getLast?_cons_or]

theorem steps_map_snd (prev : Option α) (pages : List (List α)) :
    (steps prev pages).map Prod.snd = (stepsPage prev true pages.flatten).map Prod.snd := by
  induction pages generalizing prev with
  | nil => rfl
  | cons page rest ih =>
    rw [steps, flatten_cons, stepsPage_append prev true true, map_append, map_append, ih]

theorem stepsPage_zip (xs : List α) (first : Bool) :
    (stepsPage none first xs).map Prod.snd = xs.zip xs.tail := by
  cases xs with
  | nil => rfl
  | cons x xs =>
    rw [tail_cons, stepsPage, Option.map_none, Option.toList_none, nil_append]
    induction xs generalizing x with
    | nil => rfl
    | cons y xs ih =>
      rw [stepsPage, zip_cons_cons, map_append, ih]
      rfl

end Steps

def storedKey (idx : IndexDesc) (row : List (List UInt8)) : List UInt8 := plain idx (keyOf row)

/-- The segment in which two rows differ, counted from the last one. -/
def differing (y x : List (List UInt8)) : Nat :=
  Stuff.firstDiff (Stuff.groups 0 3 y) (Stuff.groups 0 3 x)

variable {idx : IndexDesc} {y x : List (List UInt8)} {behind : UInt8}

theorem marked_groups (hy : y.length = n) : Marked n (Stuff.groups 0 3 y) :=
  ⟨Stuff.grouped_groups y, fun _ hx => hy ▸ Stuff.fst_of_mem_groups hx⟩

theorem word_groups_eq (hy : y.length = n) (hcount : 1 < n) :
    Stuff.word UInt8.ofNat (Stuff.groups 0 3 y) = keyOf y := by
  rw [Stuff.word_groups]
  match y, hy with
  | [], _ => rfl
  | [_], hy => exact absurd hcount (by rw [← hy]; simp)
  | _ :: _ :: _, _ => rfl

theorem differing_le (hy : y.length = n) (hx : x.length = n) : differing y x ≤ n :=
  Nat.le_of_lt_succ (Stuff.firstDiff_lt
    (fun z hz => Nat.lt_succ_of_le ((marked_groups hy).marker z hz).2)
    (fun z hz => Nat.lt_succ_of_le ((marked_groups hx).marker z hz).2) (Nat.succ_pos n))

theorem take_strings_iff (hy : y.length = n) (hx : x.length = n) (hk : k < n) :
    (Stuff.strings 0 3 y).take (k + 1) = (Stuff.strings 0 3 x).take (k + 1) ↔
      differing y x + k < n := by
  rw [Stuff.take_strings_eq_iff hy hx hk, Stuff.filter_eq_iff (Stuff.grouped_groups y)
    (Stuff.grouped_groups x) (by omega), differing]
  omega

variable (idx) in
/-- What a node counts that is compressed against the row in front of it. -/
def Loaded (step : Bool × List (List UInt8) × List (List UInt8)) (v : Nat) : Prop :=
  (¬ Miscounted idx.idxDescending false (storedKey idx step.2.1) (storedKey idx step.2.2) →
    v = differing step.2.1 step.2.2) ∧
  (Miscounted idx.idxDescending false (storedKey idx step.2.1) (storedKey idx step.2.2) →
    v < differing step.2.1 step.2.2)

variable (idx n) in
def Walked (step : Bool × List (List UInt8) × List (List UInt8)) (v : Nat) : Prop :=
  (¬ Miscounted idx.idxDescending step.1 (storedKey idx step.2.1) (storedKey idx step.2.2) →
    v = differing step.2.1 step.2.2) ∧
  (Miscounted idx.idxDescending step.1 (storedKey idx step.2.1) (storedKey idx step.2.2) →
    idx.idxDescending = false → differing step.2.1 step.2.2 < v ∧ v ≤ n)

theorem not_miscounted_ascending (hasc : idx.idxDescending = false) (key next : List UInt8) :
    ¬ Miscounted idx.idxDescending false key next := by
  rw [hasc]
  rintro ⟨-, -, h | ⟨h, -⟩⟩ <;> cases h

section Node

variable (hcount : 1 < n) (hmax : n < 256) (hy : y.length = n) (hx : x.length = n)
  (hord : keyCompare idx.idxDescending (storedKey idx y) (storedKey idx x) ≠ .gt)

include hcount hmax hy hx hord

theorem differingSegment_row_next :
    ∃ v, differingSegment idx.idxDescending (storedKey idx y)
        (computePrefix (storedKey idx y) (storedKey idx x))
        ((storedKey idx x).drop (computePrefix (storedKey idx y) (storedKey idx x))) behind = some
          v ∧
      (¬ Miscounted idx.idxDescending false (storedKey idx y) (storedKey idx x) →
        v = differing y x) ∧
      (Miscounted idx.idxDescending false (storedKey idx y) (storedKey idx x) →
        ((storedKey idx x).length < (storedKey idx y).length → behind = 255) →
        v < differing y x) := by
  obtain ⟨c, p, q, hp, hq, hlen, hzero⟩ := computePrefix_eq (keyOf y) (keyOf x)
  have hG := word_groups_eq hy hcount
  have hG' := word_groups_eq hx hcount
  rw [storedKey, storedKey] at hord ⊢
  rw [computePrefix_plain, hlen, hp, hq, plain_append idx c q, ← length_plain idx c, drop_left,
    length_plain, ← plain_append]
  rw [hp, hq] at hord
  rw [length_plain, length_plain, length_append, length_append, Nat.add_lt_add_iff_left]
  exact differingSegment_next hmax (marked_groups hy) (marked_groups hx) (hG.trans hp)
    (hG'.trans hq)
    hzero hord

theorem differingSegment_row_first :
    ∃ v, differingSegment idx.idxDescending (storedKey idx y) 0 (storedKey idx x) behind = some v ∧
      Walked n idx (true, y, x) v := by
  obtain ⟨c, p, q, hp, hq, hlen, hzero⟩ := computePrefix_eq (keyOf y) (keyOf x)
  have hG := word_groups_eq hy hcount
  have hG' := word_groups_eq hx hcount
  simp only [Walked, storedKey, hp, hq] at hord ⊢
  exact differingSegment_first hmax (marked_groups hy) (marked_groups hx) (hG.trans hp)
    (hG'.trans hq) hzero hord

end Node

structure Reached (n : Nat) (prev : Option (List UInt8)) (counts : List Nat) (s : Counting) :
    Prop where
  nodes : s.nodes = 0 ↔ prev = none
  key : ∀ y ∈ prev, s.key = y
  list : s.duplicatesList = tally n counts

theorem reached_start : Reached n none [] (Counting.start n) :=
  ⟨by simp [Counting.start], by simp, tally_nil.symm⟩

variable {s : Counting} {prev : Option (List UInt8)} {nodePrefix : Nat} {data key : List UInt8}
  {duplicate descending : Bool}

theorem Reached.add_first (hs : Reached n none cs s) :
    ∃ s', s.add descending n nodePrefix data behind duplicate key = some s' ∧
      Reached n (some key) cs s' := by
  have hzero : s.nodes = 0 := hs.nodes.2 rfl
  refine ⟨⟨s.nodes + 1, s.duplicates, s.duplicatesList, key⟩, ?_, by simp, by simp, hs.list⟩
  simp [Counting.add, hzero]

variable {v : Nat}

theorem Reached.add_next {y : List UInt8} (hcount : 1 < n) (hs : Reached n (some y) cs s)
    (hv : differingSegment descending y nodePrefix data behind = some v) :
    ∃ s', s.add descending n nodePrefix data behind duplicate key = some s' ∧
      Reached n (some key) (cs ++ [v]) s' := by
  have hne : s.nodes ≠ 0 := fun h => by simpa using hs.nodes.1 h
  rw [← hs.key y rfl] at hv
  refine ⟨⟨s.nodes + 1, if duplicate then s.duplicates + 1 else s.duplicates,
    addDuplicates n v s.duplicatesList, key⟩, ?_, by simp, by simp, ?_⟩
  · simp [Counting.add, hne, hv, hcount]
  · rw [hs.list, addDuplicates_tally]

variable (idx) in
def IsRecord (keyLength : Nat) (key : List UInt8) (r : SortRecord) : Prop :=
  key.length ≤ keyLength ∧ r.isrKeyLength = key.length ∧ ∃ isr, r.record =
    key ++ List.replicate (keyLength - key.length) (if idx.idxDescending then 255 else 0) ++ isr

theorem IsRecord.take_record {keyLength : Nat} {r : SortRecord} (h : IsRecord idx keyLength key r) :
    r.record.take r.isrKeyLength = key := by
  obtain ⟨-, hlen, isr, hrecord⟩ := h
  rw [hrecord, hlen, append_assoc, take_left]

theorem IsRecord.behind_eq {keyLength : Nat} {r : SortRecord} (h : IsRecord idx keyLength key r)
    (hdesc : idx.idxDescending = true) (hlt : key.length < keyLength) :
    r.record.getD r.isrKeyLength 0 = 255 := by
  obtain ⟨-, hlen, isr, hrecord⟩ := h
  obtain ⟨fill, hfill⟩ : ∃ fill, keyLength - key.length = fill + 1 :=
    ⟨keyLength - key.length - 1, by omega⟩
  rw [hrecord, hlen, if_pos hdesc, hfill, replicate_succ]
  simp

def RowsOrdered (idx : IndexDesc) (rows : List (List (List UInt8))) : Prop :=
  (rows.map (storedKey idx)).IsChain fun key next => keyCompare idx.idxDescending key next ≠ .gt

variable {rows page : List (List (List UInt8))} {records : List SortRecord}

theorem RowsOrdered.tail {row : List (List UInt8)} (h : RowsOrdered idx (row :: rows)) :
    RowsOrdered idx rows := by
  cases rows with
  | nil => exact .nil
  | cons x rows => exact (isChain_cons_cons.1 h).2

variable {first : Bool}

theorem fastLoad_run {keyLength : Nat} {prev : Option (List (List UInt8))}
    (hcount : 1 < n) (hmax : n < 256) (hrows : ∀ row ∈ prev.toList ++ rows, row.length = n)
    (hprev : ∀ y ∈ prev, (storedKey idx y).length ≤ keyLength)
    (hord : RowsOrdered idx (prev.toList ++ rows))
    (hrecords : Forall₂ (IsRecord idx keyLength) (rows.map (storedKey idx)) records)
    (hs : Reached n (prev.map (storedKey idx)) cs s) :
    ∃ s' vs, fastLoad idx.idxDescending n s records = some s' ∧
      s'.duplicatesList = tally n (cs ++ vs) ∧
      Forall₂ (Loaded idx) (stepsPage prev first rows) vs := by
  induction rows generalizing prev first cs s records with
  | nil =>
    cases hrecords
    exact ⟨s, [], rfl, by rw [append_nil]; exact hs.list, .nil⟩
  | cons x rows ih =>
    cases records with
    | nil => cases hrecords
    | cons r records =>
      rw [map_cons, forall₂_cons] at hrecords
      obtain ⟨hr, hrecords⟩ := hrecords
      rw [fastLoad]
      simp only [hr.take_record]
      cases prev with
      | none =>
        obtain ⟨s', hadd, hs'⟩ := hs.add_first
        have hrows' : ∀ row ∈ (some x).toList ++ rows, row.length = n := by simpa using hrows
        obtain ⟨s'', vs, hrun, hlist, hvs⟩ := ih hrows' (by simpa using hr.1) hord hrecords hs'
        exact ⟨s'', vs, by rw [hadd]; exact hrun, hlist, hvs⟩
      | some y =>
        have hnext := (isChain_cons_cons.1 hord).1
        obtain ⟨v, hv, hright, hwrong⟩ := differingSegment_row_next hcount hmax
          (hrows y (by simp)) (hrows x (by simp)) hnext
        have hkey := hs.key _ rfl
        obtain ⟨s', hadd, hs'⟩ := hs.add_next hcount hv
        have hrows' : ∀ row ∈ (some x).toList ++ rows, row.length = n :=
          fun row hrow => hrows row (mem_cons_of_mem _ hrow)
        obtain ⟨s'', vs, hrun, hlist, hvs⟩ := ih hrows' (by simpa using hr.1) hord.tail hrecords hs'
        refine ⟨s'', v :: vs, ?_, by rwa [append_assoc] at hlist, .cons ⟨hright, ?_⟩ hvs⟩
        · rw [hkey, hadd]
          exact hrun
        · intro hmis
          cases hdesc : idx.idxDescending with
          | true => exact hwrong hmis fun hlt => hr.behind_eq hdesc (hlt.trans_le (hprev y rfl))
          | false => exact absurd hmis (not_miscounted_ascending hdesc _ _)

theorem Follows.eq_computePrefix {node : IndexNode} {before k : List UInt8}
    (h : Follows descending (some before) node k) :
    node.nodePrefix = computePrefix before k ∧ node.data = k.drop (computePrefix before k) := by
  obtain ⟨hle, rfl, hrises⟩ := h
  have hlen : (before.take node.nodePrefix).length = node.nodePrefix := length_take_of_le hle
  have hzero : computePrefix (before.drop node.nodePrefix) node.data = 0 := by
    rw [computePrefix_eq_zero_iff]
    intro a ha b hb
    cases hd : before.drop node.nodePrefix with
    | nil => simp [hd] at ha
    | cons a' p =>
      cases hq : node.data with
      | nil => simp [hq] at hb
      | cons b' q =>
        rw [hd, hq] at hrises
        rw [hd] at ha
        rw [hq] at hb
        cases ha
        cases hb
        exact UInt8.ne_of_lt hrises
  have hcommon : computePrefix before (before.take node.nodePrefix ++ node.data) =
    node.nodePrefix := by
    conv_lhs => arg 1; rw [← take_append_drop node.nodePrefix before]
    rw [computePrefix_append, hzero, hlen, Nat.add_zero]
  refine ⟨hcommon.symm, ?_⟩
  rw [hcommon, drop_left' hlen]

theorem Follows.key_eq {node : IndexNode} {before : Option (List UInt8)} {k : List UInt8}
    (h : Follows descending before node k) (hkey : ∀ y ∈ before, key = y) :
    key.take node.nodePrefix ++ node.data = k := by
  cases before with
  | none => rw [h.1, take_zero, nil_append, h.2]
  | some y =>
    rw [hkey y rfl]
    exact h.2.1.symm

theorem selectivityPage_run {prev : Option (List (List UInt8))} {before : Option (List UInt8)}
    {k : List UInt8} {nodes : List (IndexNode × UInt8)} (hcount : 1 < n)
    (hmax : n < 256) (hrows : ∀ row ∈ prev.toList ++ page, row.length = n)
    (hord : RowsOrdered idx (prev.toList ++ page))
    (hbefore : before = if first then none else prev.map (storedKey idx))
    (hnodes : Nodes idx.idxDescending before (nodes.map Prod.fst) (page.map (storedKey idx) ++ [k]))
    (hs : Reached n (prev.map (storedKey idx)) cs s) :
    ∃ s' vs endLevel, selectivityPage idx.idxDescending n s first nodes = some (s', endLevel) ∧
      Reached n ((page.getLast?.or prev).map (storedKey idx)) (cs ++ vs) s' ∧
      Forall₂ (Walked n idx) (stepsPage prev first page) vs ∧
      (endLevel = true → ∃ node ∈ nodes, node.1.isEndLevel = true) := by
  induction page generalizing prev before first nodes cs s with
  | nil =>
    cases nodes with
    | nil => cases hnodes
    | cons node nodes =>
      rw [map_cons, map_nil, nil_append] at hnodes
      have hend : (node.1.isEndBucket || node.1.isEndLevel) = true := by
        generalize hrest : nodes.map Prod.fst = rest at hnodes
        cases hnodes with
        | endLevel hl => rw [hl, Bool.or_true]
        | endBucket hl hb => rw [hb, Bool.true_or]
        | cons hl hb hf hn => cases hn
      refine ⟨s, [], node.1.isEndLevel, ?_, ?_, .nil, fun hl => ⟨node, mem_cons_self, hl⟩⟩
      · rw [selectivityPage, if_pos hend]
      · rw [append_nil]
        exact hs
  | cons x page ih =>
    cases nodes with
    | nil => cases hnodes
    | cons node nodes =>
      rw [map_cons, map_cons, cons_append] at hnodes
      obtain ⟨hend, hf, hn⟩ : (node.1.isEndBucket || node.1.isEndLevel) = false ∧
          Follows idx.idxDescending before node.1 (storedKey idx x) ∧
          Nodes idx.idxDescending (some (storedKey idx x)) (nodes.map Prod.fst)
            (page.map (storedKey idx) ++ [k]) := by
        generalize hrest : nodes.map Prod.fst = rest at hnodes ⊢
        generalize hkeys : page.map (storedKey idx) ++ [k] = keys at hnodes ⊢
        generalize storedKey idx x = key at hnodes ⊢
        cases hnodes with
        | endLevel => simp at hkeys
        | endBucket => simp at hkeys
        | cons hl hb hf hn => exact ⟨by rw [hl, hb]; rfl, hf, hn⟩
      have hrows' : ∀ row ∈ (some x).toList ++ page, row.length = n :=
        fun row hrow => hrows row (mem_append_right _ hrow)
      have hord' : RowsOrdered idx ((some x).toList ++ page) := by
        cases prev with
        | none => exact hord
        | some y => exact hord.tail
      have hkey : s.key.take node.1.nodePrefix ++ node.1.data = storedKey idx x := by
        refine hf.key_eq fun y hy => hs.key y ?_
        rw [hbefore] at hy
        split_ifs at hy
        · cases hy
        · exact hy
      have hbefore' : some (storedKey idx x) = if (false : Bool) then none else
          Option.map (storedKey idx) (some x) := rfl
      rw [selectivityPage, if_neg (by simp [hend]), getLast?_cons_or]
      simp only [hkey]
      cases prev with
      | none =>
        obtain ⟨s', hadd, hs'⟩ := hs.add_first
        obtain ⟨s'', vs, endLevel, hrun, hreached, hvs, hlevel⟩ := ih hrows' hord' hbefore' hn hs'
        refine ⟨s'', vs, endLevel, by rw [hadd]; exact hrun, hreached, hvs, fun hl => ?_⟩
        obtain ⟨node', hmem, hl'⟩ := hlevel hl
        exact ⟨node', mem_cons_of_mem _ hmem, hl'⟩
      | some y =>
        have hnext := (isChain_cons_cons.1 hord).1
        have hy := hrows y (by simp)
        have hx := hrows x (by simp)
        obtain ⟨v, hv, hwalked⟩ : ∃ v, differingSegment idx.idxDescending (storedKey idx y)
            node.1.nodePrefix node.1.data node.2 = some v ∧ Walked n idx (first, y, x) v := by
          cases first with
          | true =>
            subst hbefore
            rw [hf.1, ← hf.2]
            exact differingSegment_row_first hcount hmax hy hx hnext
          | false =>
            subst hbefore
            obtain ⟨hpre, hdata⟩ := hf.eq_computePrefix
            rw [hpre, hdata]
            obtain ⟨v, hv, hright, hwrong⟩ := differingSegment_row_next hcount hmax hy hx hnext
            exact ⟨v, hv, hright, fun hmis hasc => absurd hmis (not_miscounted_ascending hasc _ _)⟩
        obtain ⟨s', hadd, hs'⟩ := hs.add_next hcount hv
        obtain ⟨s'', vs, endLevel, hrun, hreached, hvs, hlevel⟩ := ih hrows' hord' hbefore' hn hs'
        refine ⟨s'', v :: vs, endLevel, by rw [hadd]; exact hrun, ?_, .cons hwalked hvs, fun hl =>
          ?_⟩
        · rwa [append_assoc] at hreached
        · obtain ⟨node', hmem, hl'⟩ := hlevel hl
          exact ⟨node', mem_cons_of_mem _ hmem, hl'⟩

/-- The leaf pages of an index, from left to right, and the keys on them. Only the last one can be
the end of the level. -/
inductive Leaves (descending : Bool) :
    List (List (IndexNode × UInt8)) → List (List (List UInt8)) → Prop
  | last {nodes : List (IndexNode × UInt8)} {keys : List (List UInt8)} {k : List UInt8} :
      Nodes descending none (nodes.map Prod.fst) (keys ++ [k]) → Leaves descending [nodes] [keys]
  | cons {nodes : List (IndexNode × UInt8)} {keys : List (List UInt8)} {k : List UInt8}
      {siblings : List (List (IndexNode × UInt8))} {rest : List (List (List UInt8))} :
      Nodes descending none (nodes.map Prod.fst) (keys ++ [k]) →
      (∀ node ∈ nodes, node.1.isEndLevel = false) → Leaves descending siblings rest →
      Leaves descending (nodes :: siblings) (keys :: rest)

theorem btrSelectivity_run {prev : Option (List (List UInt8))}
    {pages : List (List (IndexNode × UInt8))} {parts : List (List (List (List UInt8)))}
    (hcount : 1 < n) (hmax : n < 256) (hrows : ∀ row ∈ prev.toList ++ parts.flatten, row.length = n)
    (hord : RowsOrdered idx (prev.toList ++ parts.flatten))
    (hpages : Leaves idx.idxDescending pages (parts.map (·.map (storedKey idx))))
    (hs : Reached n (prev.map (storedKey idx)) cs s) :
    ∃ s' vs, btrSelectivity idx.idxDescending n s pages = some s' ∧
      s'.duplicatesList = tally n (cs ++ vs) ∧
      Forall₂ (Walked n idx) (steps prev parts) vs := by
  induction parts generalizing prev cs s pages with
  | nil => cases hpages
  | cons page parts ih =>
    have hfront : prev.toList ++ page <+: prev.toList ++ (page ++ parts.flatten) := by
      rw [← append_assoc]
      exact prefix_append _ _
    have hback := last_append_suffix prev page parts.flatten
    have hrows₁ : ∀ row ∈ prev.toList ++ page, row.length = n :=
      fun row hrow => hrows row (hfront.subset hrow)
    have hrows₂ : ∀ row ∈ (page.getLast?.or prev).toList ++ parts.flatten, row.length = n :=
      fun row hrow => hrows row (hback.subset hrow)
    have hord₁ : RowsOrdered idx (prev.toList ++ page) :=
      IsChain.infix hord (hfront.isInfix.map _)
    have hord₂ : RowsOrdered idx ((page.getLast?.or prev).toList ++ parts.flatten) :=
      IsChain.infix hord (hback.isInfix.map _)
    have hbefore : (none : Option (List UInt8)) = if true then none else prev.map (storedKey idx) :=
      rfl
    rw [map_cons] at hpages
    generalize hkeys : page.map (storedKey idx) = keys at hpages
    generalize hrest : parts.map (·.map (storedKey idx)) = rest at hpages
    cases hpages with
    | last hnodes =>
      obtain rfl : parts = [] := map_eq_nil_iff.1 hrest
      subst hkeys
      obtain ⟨s', vs, endLevel, hrun, hreached, hvs, -⟩ :=
        selectivityPage_run hcount hmax hrows₁ hord₁ hbefore hnodes hs
      refine ⟨s', vs, ?_, hreached.list, by simpa [steps] using hvs⟩
      rw [btrSelectivity, hrun]
      cases endLevel <;> rfl
    | cons hnodes hlevel hleaves =>
      subst hkeys hrest
      obtain ⟨s', vs, endLevel, hrun, hreached, hvs, hend⟩ :=
        selectivityPage_run hcount hmax hrows₁ hord₁ hbefore hnodes hs
      obtain ⟨s'', vs', hrun', hlist, hvs'⟩ := ih hrows₂ hord₂ hleaves hreached
      obtain rfl : endLevel = false := by
        cases endLevel with
        | false => rfl
        | true =>
          obtain ⟨node, hmem, hl⟩ := hend rfl
          rw [hlevel node hmem] at hl
          cases hl
      refine ⟨s'', vs ++ vs', ?_, by rwa [← append_assoc], ?_⟩
      · rw [btrSelectivity, hrun]
        exact hrun'
      · exact rel_append hvs hvs'

/-- The number of adjacent rows that have their first `k` segments in common, as the keys have
them. -/
def commonRows (rows : List (List (List UInt8))) (k : Nat) : Nat :=
  (rows.zip rows.tail).countP fun pair =>
    (Stuff.strings 0 3 pair.1).take k = (Stuff.strings 0 3 pair.2).take k

/-- A compound index: the rows in the order of the index as the leaf pages have them, the records of
the sort that it has been built from, and the pages themselves. -/
structure IndexOf (idx : IndexDesc) (keyLength : Nat) (parts : List (List (List (List UInt8))))
    (records : List SortRecord) (pages : List (List (IndexNode × UInt8))) : Prop where
  compound : 1 < idx.idxCount
  count_lt : idx.idxCount < 256
  rows : ∀ row ∈ parts.flatten, row.length = idx.idxCount
  ordered : RowsOrdered idx parts.flatten
  records : List.Forall₂ (IsRecord idx keyLength) (parts.flatten.map (storedKey idx)) records
  pages : Leaves idx.idxDescending pages (parts.map (·.map (storedKey idx)))

/-- Both functions count the same, and each counter is the number of adjacent rows with so many
segments in common. -/
def StatisticsRight (idx : IndexDesc) (rows : List (List (List UInt8))) (records : List SortRecord)
    (pages : List (List (IndexNode × UInt8))) : Prop :=
  ∃ load walk,
    fastLoad idx.idxDescending idx.idxCount (Counting.start idx.idxCount) records = some load ∧
    btrSelectivity idx.idxDescending idx.idxCount (Counting.start idx.idxCount) pages = some walk ∧
    load.counters idx.idxCount = walk.counters idx.idxCount ∧
    ∀ k < idx.idxCount, (load.counters idx.idxCount)[k]? = some (commonRows rows (k + 1))

theorem eq_map_iff {α : Type*} {R : α → Nat → Prop} {f : α → Nat} {P : α → Prop} {xs : List α}
    {vs : List Nat} (h : Forall₂ R xs vs) (hR : ∀ x v, R x v → (v = f x ↔ P x)) :
    vs = xs.map f ↔ ∀ x ∈ xs, P x := by
  induction h with
  | nil => simp
  | cons hxv _ ih => rw [map_cons, List.cons.injEq, ih, hR _ _ hxv, forall_mem_cons]

variable {step : Bool × List (List UInt8) × List (List UInt8)}

theorem Loaded.eq_iff
    (h : Loaded idx step v) : v = differing step.2.1 step.2.2 ↔
      ¬ Miscounted idx.idxDescending false (storedKey idx step.2.1) (storedKey idx step.2.2) :=
  ⟨fun heq hmis => (h.2 hmis).ne heq, h.1⟩

theorem Loaded.le
    (h : Loaded idx step v) : v ≤ differing step.2.1 step.2.2 := by
  by_cases hmis : Miscounted idx.idxDescending false (storedKey idx step.2.1)
    (storedKey idx step.2.2)
  · exact (h.2 hmis).le
  · exact (h.1 hmis).le

theorem Walked.eq_iff
    (hasc : idx.idxDescending = false) (h : Walked n idx step v) :
    v = differing step.2.1 step.2.2 ↔
      ¬ Miscounted idx.idxDescending step.1 (storedKey idx step.2.1) (storedKey idx step.2.2) :=
  ⟨fun heq hmis => (h.2 hmis hasc).1.ne heq.symm, h.1⟩

theorem Walked.le
    (hasc : idx.idxDescending = false) (h : Walked n idx step v) :
    differing step.2.1 step.2.2 ≤ v := by
  by_cases hmis : Miscounted idx.idxDescending step.1 (storedKey idx step.2.1)
    (storedKey idx step.2.2)
  · exact (h.2 hmis hasc).1.le
  · exact (h.1 hmis).ge

theorem le_of_walked {xs : List (Bool × List (List UInt8) × List (List UInt8))} {ws : List Nat}
    (hasc : idx.idxDescending = false) (h : Forall₂ (Walked n idx) xs ws)
    (hle : ∀ step ∈ xs, differing step.2.1 step.2.2 ≤ n) : ∀ v ∈ ws, v ≤ n := by
  induction h with
  | nil => simp
  | @cons step v xs ws hv _ ih =>
    rw [forall_mem_cons] at hle ⊢
    refine ⟨?_, ih hle.2⟩
    by_cases hmis : Miscounted idx.idxDescending step.1 (storedKey idx step.2.1)
        (storedKey idx step.2.2)
    · exact (hv.2 hmis hasc).2
    · exact (hv.1 hmis).trans_le hle.1

theorem eq_of_walked {xs : List (Bool × List (List UInt8) × List (List UInt8))} {ws : List Nat}
    (h : Forall₂ (Walked n idx) xs ws)
    (hnone : ∀ step ∈ xs, ¬ Miscounted idx.idxDescending step.1 (storedKey idx step.2.1)
      (storedKey idx step.2.2)) : ws = xs.map fun step => differing step.2.1 step.2.2 := by
  induction h with
  | nil => rfl
  | cons hv _ ih =>
    rw [forall_mem_cons] at hnone
    rw [map_cons, hv.1 hnone.1, ih hnone.2]

theorem Miscounted.of_false {descending : Bool} {key next : List UInt8}
    (h : Miscounted descending false key next) (first : Bool) :
    Miscounted descending first key next := by
  obtain ⟨hne, hmod, hdesc | ⟨hfalse, -⟩⟩ := h
  · exact ⟨hne, hmod, .inl hdesc⟩
  · cases hfalse

theorem Miscounted.of_descending {key next : List UInt8}
    (h : Miscounted true first key next) : Miscounted true false key next :=
  ⟨h.1, h.2.1, .inl rfl⟩

section Statistics

variable {keyLength : Nat} {parts : List (List (List (List UInt8)))}
  {pages : List (List (IndexNode × UInt8))}

def differings (parts : List (List (List (List UInt8)))) : List Nat :=
  (steps none parts).map fun step => differing step.2.1 step.2.2

theorem differings_eq (parts : List (List (List (List UInt8)))) :
    differings parts =
      (parts.flatten.zip parts.flatten.tail).map fun pair => differing pair.1 pair.2 := by
  rw [differings, ← stepsPage_zip _ true, ← steps_map_snd, map_map]
  rfl

theorem differings_le (hrows : ∀ row ∈ parts.flatten, row.length = n) :
    ∀ d ∈ differings parts, d ≤ n := by
  intro d hd
  rw [differings_eq, mem_map] at hd
  obtain ⟨pair, hpair, rfl⟩ := hd
  obtain ⟨hy, hx⟩ := of_mem_zip hpair
  exact differing_le (hrows _ hy) (hrows _ (mem_of_mem_tail hx))

theorem tally_differings (hrows : ∀ row ∈ parts.flatten, row.length = n) (hk : k < n) :
    (tally n (differings parts))[k]? = some (commonRows parts.flatten (k + 1)) := by
  simp only [differings_eq, tally, getElem?_map, getElem?_range hk, Option.map_some, countP_map]
  congr 1
  refine countP_congr fun pair hpair => ?_
  obtain ⟨hy, hx⟩ := of_mem_zip hpair
  simp only [Function.comp, decide_eq_true_eq]
  exact (take_strings_iff (hrows _ hy) (hrows _ (mem_of_mem_tail hx)) hk).symm

theorem IndexOf.runs (h : IndexOf idx keyLength parts records pages) :
    ∃ vs ws, Forall₂ (Loaded idx) (steps none parts) vs ∧
      Forall₂ (Walked idx.idxCount idx) (steps none parts) ws ∧
      (StatisticsRight idx parts.flatten records pages ↔
        tally idx.idxCount vs = tally idx.idxCount (differings parts) ∧
          tally idx.idxCount ws = tally idx.idxCount (differings parts)) := by
  have hprev : ∀ y ∈ (none : Option (List (List UInt8))), (storedKey idx y).length ≤ keyLength := by
    simp
  obtain ⟨load, vs, hload, hvs, hloaded⟩ := @fastLoad_run _ [] idx _ parts.flatten records true
    keyLength none h.compound h.count_lt h.rows hprev h.ordered h.records reached_start
  obtain ⟨walk, ws, hwalk, hws, hwalked⟩ := @btrSelectivity_run _ [] idx _ none pages parts
    h.compound h.count_lt h.rows h.ordered h.pages reached_start
  rw [nil_append] at hvs hws
  have hsnd : Forall₂ (fun pair v => Loaded idx (false, pair) v)
      ((stepsPage none true parts.flatten).map Prod.snd) vs :=
    forall₂_map_left_iff.2 hloaded
  rw [← steps_map_snd] at hsnd
  have hloaded' : Forall₂ (Loaded idx) (steps none parts) vs := by
    rw [forall₂_map_left_iff] at hsnd
    exact hsnd
  refine ⟨vs, ws, hloaded', hwalked, ?_⟩
  have hcounters (s : Counting) : s.counters idx.idxCount = s.duplicatesList :=
    if_pos h.compound
  constructor
  · rintro ⟨load', walk', hload', hwalk', heq, hexact⟩
    obtain rfl : load = load' := Option.some.inj (hload.symm.trans hload')
    obtain rfl : walk = walk' := Option.some.inj (hwalk.symm.trans hwalk')
    rw [hcounters, hvs] at heq hexact
    rw [hcounters, hws] at heq
    have htally : tally idx.idxCount vs = tally idx.idxCount (differings parts) := by
      refine ext_getElem? fun k => ?_
      by_cases hk : k < idx.idxCount
      · rw [hexact k hk, tally_differings h.rows hk]
      · simp [tally, hk]
    exact ⟨htally, heq ▸ htally⟩
  · rintro ⟨hleft, hright⟩
    refine ⟨load, walk, hload, hwalk, ?_, fun k hk => ?_⟩
    · rw [hcounters, hcounters, hvs, hws, hleft, hright]
    · rw [hcounters, hvs, hleft, tally_differings h.rows hk]

/-- The statistics are right if and only if no two adjacent keys are miscounted. -/
theorem statistics_right_iff (h : IndexOf idx keyLength parts records pages) :
    StatisticsRight idx parts.flatten records pages ↔
      ∀ step ∈ steps none parts,
        ¬ Miscounted idx.idxDescending step.1 (storedKey idx step.2.1)
          (storedKey idx step.2.2) := by
  obtain ⟨vs, ws, hloaded, hwalked, hright⟩ := h.runs
  have hle := differings_le h.rows
  have hvs : vs = differings parts ↔ ∀ step ∈ steps none parts,
      ¬ Miscounted idx.idxDescending false (storedKey idx step.2.1) (storedKey idx step.2.2) :=
    eq_map_iff hloaded fun _ _ => Loaded.eq_iff
  rw [hright]
  constructor
  · rintro ⟨hload, hwalk⟩
    cases hdesc : idx.idxDescending with
    | true =>
      -- Each miscounted key of the load counts too many segments.
      have hless : Forall₂ (· ≤ ·) vs (differings parts) := by
        rw [differings, forall₂_map_right_iff]
        exact (hloaded.imp fun _ _ => Loaded.le).flip
      rw [tally_eq_iff hless hle, hvs, hdesc] at hload
      exact fun step hstep hmis => hload step hstep hmis.of_descending
    | false =>
      -- Each miscounted key of a page counts too few.
      have hless : Forall₂ (· ≤ ·) (differings parts) ws := by
        rw [differings, forall₂_map_left_iff]
        exact hwalked.imp fun _ _ hw => hw.le hdesc
      have hequal : ws = differings parts ↔ ∀ step ∈ steps none parts,
          ¬ Miscounted idx.idxDescending step.1 (storedKey idx step.2.1) (storedKey idx step.2.2) :=
        eq_map_iff hwalked fun _ _ hw => hw.eq_iff hdesc
      rw [eq_comm, tally_eq_iff hless (le_of_walked hdesc hwalked (forall_mem_map.1 hle)), eq_comm,
        hequal, hdesc] at hwalk
      exact hwalk
  · intro hnone
    have hload : vs = differings parts :=
      hvs.2 fun step hstep hmis => hnone step hstep (hmis.of_false step.1)
    have hwalk : ws = differings parts := eq_of_walked hwalked hnone
    exact ⟨by rw [hload], by rw [hwalk]⟩

/-- Three rows of an index of two segments on two pages, with a first key that begins another first
segment. -/
theorem statistics_right_three :
    StatisticsRight ⟨2, false, false⟩ [[[65], [1]], [[65], [2]], [[66], [2]]]
      [⟨[2, 65, 0, 0, 0, 1, 1, 0], 7⟩, ⟨[2, 65, 0, 0, 0, 1, 2, 0], 7⟩,
        ⟨[2, 66, 0, 0, 0, 1, 2, 0], 7⟩]
      [[(⟨0, [2, 65, 0, 0, 0, 1, 1], 1, 0, false, false⟩, 6), (⟨6, [2], 2, 0, false, false⟩, 1),
          (⟨1, [66, 0, 0, 0, 1, 2], 3, 0, true, false⟩, 0)],
        [(⟨0, [2, 66, 0, 0, 0, 1, 2], 3, 0, false, false⟩, 0),
          (⟨0, [], 0, 0, false, true⟩, 0)]] := by
  have h₁ : storedKey ⟨2, false, false⟩ [[65], [1]] = [2, 65, 0, 0, 0, 1, 1] := by
    simp [storedKey, plain, keyOf, Stuff.tuple, Stuff.padded_cons, Stuff.stuffed_cons, Stuff.group]
  have h₂ : storedKey ⟨2, false, false⟩ [[65], [2]] = [2, 65, 0, 0, 0, 1, 2] := by
    simp [storedKey, plain, keyOf, Stuff.tuple, Stuff.padded_cons, Stuff.stuffed_cons, Stuff.group]
  have h₃ : storedKey ⟨2, false, false⟩ [[66], [2]] = [2, 66, 0, 0, 0, 1, 2] := by
    simp [storedKey, plain, keyOf, Stuff.tuple, Stuff.padded_cons, Stuff.stuffed_cons, Stuff.group]
  refine (@statistics_right_iff ⟨2, false, false⟩ _ 8 [[[[65], [1]], [[65], [2]]], [[[66], [2]]]] _
    ⟨by decide, by decide, by decide, ?_, ?_, ?_⟩).2 ?_
  · simp only [RowsOrdered, flatten_cons, cons_append, nil_append, map_cons, h₁, h₂, h₃]
    decide
  · simp only [flatten_cons, cons_append, nil_append, map_cons, h₁, h₂, h₃]
    exact .cons ⟨by decide, rfl, [], rfl⟩ (.cons ⟨by decide, rfl, [], rfl⟩
      (.cons ⟨by decide, rfl, [], rfl⟩ .nil))
  · simp only [map_cons, h₁, h₂, h₃]
    refine .cons (.cons rfl rfl ⟨rfl, rfl⟩ (.cons rfl rfl
      ⟨by decide, rfl, (by decide : (1 : UInt8) < 2)⟩ (.endBucket rfl rfl
        ⟨by decide, rfl, (by decide : (65 : UInt8) < 66)⟩))) (by decide)
      (.last (.cons rfl rfl ⟨rfl, rfl⟩ (.endLevel rfl rfl)))
  · simp only [steps, stepsPage, Option.map_some, Option.map_none, Option.toList_some,
      Option.toList_none, nil_append, cons_append, getLast?_cons_cons, getLast?_singleton,
        Option.some_or, forall_mem_cons, h₁, h₂, h₃]
    decide

/-- In an ascending index a key at the beginning of a page that goes on with a second segment where
the key in front of it ends: `fast_load` counts the common first segment, and `BTR_selectivity` does
not. In a descending index the first segments `BBBBB` and `BBBB` count as common ones. -/
theorem not_statistics_right :
    (let parts : List (List (List (List UInt8))) :=
      [[[[66, 66, 66, 66], []]], [[[66, 66, 66, 66], [1]]]]
    let records : List SortRecord :=
      [⟨[2, 66, 66, 66, 66, 0, 0, 0], 5⟩, ⟨[2, 66, 66, 66, 66, 1, 1, 0], 7⟩]
    let pages : List (List (IndexNode × UInt8)) :=
      [[(⟨0, [2, 66, 66, 66, 66], 1, 0, false, false⟩, 5), (⟨5, [1, 1], 2, 0, true, false⟩, 0)],
        [(⟨0, [2, 66, 66, 66, 66, 1, 1], 2, 0, false, false⟩, 0), (⟨0, [], 0, 0, false, true⟩, 0)]]
    IndexOf ⟨2, false, false⟩ 8 parts records pages ∧
      ¬ StatisticsRight ⟨2, false, false⟩ parts.flatten records pages) ∧
    (let parts : List (List (List (List UInt8))) :=
      [[[[66, 66, 66, 66, 66], [1]], [[66, 66, 66, 66], [7]]]]
    let records : List SortRecord :=
      [⟨[253, 189, 189, 189, 189, 253, 189, 255, 255, 255, 254, 254], 12⟩,
        ⟨[253, 189, 189, 189, 189, 254, 248, 255, 255, 255, 255, 255], 7⟩]
    let pages : List (List (IndexNode × UInt8)) :=
      [[(⟨0, [253, 189, 189, 189, 189, 253, 189, 255, 255, 255, 254, 254], 1, 0, false, false⟩, 5),
        (⟨5, [254, 248], 2, 0, false, false⟩, 0), (⟨0, [], 0, 0, false, true⟩, 0)]]
    IndexOf ⟨2, false, true⟩ 12 parts records pages ∧
      ¬ StatisticsRight ⟨2, false, true⟩ parts.flatten records pages) := by
  have h₁ : storedKey ⟨2, false, false⟩ [[66, 66, 66, 66], []] = [2, 66, 66, 66, 66] := by
    simp [storedKey, plain, keyOf, Stuff.tuple, Stuff.padded_cons, Stuff.group]
  have h₂ : storedKey ⟨2, false, false⟩ [[66, 66, 66, 66], [1]] = [2, 66, 66, 66, 66, 1, 1] := by
    simp [storedKey, plain, keyOf, Stuff.tuple, Stuff.padded_cons, Stuff.stuffed_cons, Stuff.group]
  have h₃ : storedKey ⟨2, false, true⟩ [[66, 66, 66, 66, 66], [1]] =
      [253, 189, 189, 189, 189, 253, 189, 255, 255, 255, 254, 254] := by
    simp [storedKey, keyOf, Stuff.tuple, Stuff.padded_cons, Stuff.stuffed_cons]
    decide
  have h₄ : storedKey ⟨2, false, true⟩ [[66, 66, 66, 66], [7]] =
      [253, 189, 189, 189, 189, 254, 248] := by
    simp [storedKey, keyOf, Stuff.tuple, Stuff.padded_cons, Stuff.stuffed_cons]
    decide
  refine ⟨⟨⟨by decide, by decide, by decide, ?_, ?_, ?_⟩, ?_⟩,
    ⟨by decide, by decide, by decide, ?_, ?_, ?_⟩, ?_⟩
  · simp only [RowsOrdered, flatten_cons, cons_append, nil_append, map_cons, h₁, h₂]
    decide
  · simp only [flatten_cons, cons_append, nil_append, map_cons, h₁, h₂]
    exact .cons ⟨by decide, rfl, [], rfl⟩ (.cons ⟨by decide, rfl, [], rfl⟩ .nil)
  · simp only [map_cons, h₁, h₂]
    exact .cons (.cons rfl rfl ⟨rfl, rfl⟩ (.endBucket rfl rfl ⟨by decide, rfl, rfl⟩)) (by decide)
      (.last (.cons rfl rfl ⟨rfl, rfl⟩ (.endLevel rfl rfl)))
  · rintro ⟨load, walk, hload, hwalk, heq, -⟩
    cases hload
    cases hwalk
    exact absurd heq (by decide)
  · simp only [RowsOrdered, flatten_cons, flatten_nil, append_nil, map_cons, h₃, h₄]
    decide
  · simp only [flatten_cons, flatten_nil, append_nil, map_cons, h₃, h₄]
    exact .cons ⟨by decide, rfl, [], rfl⟩ (.cons ⟨by decide, rfl, [], rfl⟩ .nil)
  · simp only [map_cons, h₃, h₄]
    exact .last (.cons rfl rfl ⟨rfl, rfl⟩ (.cons rfl rfl
      ⟨by decide, rfl, (by decide : (253 : UInt8) < 254)⟩
      (.endLevel rfl rfl)))
  · rintro ⟨load, walk, hload, -, -, hexact⟩
    cases hload
    have hzero := hexact 0 (by decide)
    simp [commonRows, Stuff.strings, Stuff.filled] at hzero
    exact absurd hzero (by decide)

end Statistics

end Firebird.Jrd.Btr
