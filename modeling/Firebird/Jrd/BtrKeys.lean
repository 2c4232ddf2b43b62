import Firebird.Jrd.Btr

/-!
# Keys on an index page

What a well-formed page is: its nodes are compressed against each other, its keys are sorted, and
each jump node holds the beginning of the key of the node it refers to. The comparison with the key
of one node says how the key compares with the next one.
-/
namespace Firebird.Jrd.Btr

open List

/-! ## Comparing with a whole key -/

def Walk.add (n : Nat) : Walk → Walk
  | done exact => done exact
  | go matched => go (n + matched)

variable {descending retrieval : Bool} {key prev k p q c x y : List UInt8} {m n t : Nat} {e : Bool}

@[simp]
theorem Walk.add_done : Walk.add n (.done e) = .done e := rfl

@[simp]
theorem Walk.add_go : Walk.add n (.go m) = .go (n + m) := rfl

theorem walk_cons_self (b : UInt8) (p q : List UInt8) :
    walk descending retrieval (b :: p) (b :: q) = (walk descending retrieval p q).succ := by
  rw [walk, if_neg (UInt8.lt_irrefl b), if_neg (UInt8.lt_irrefl b)]

theorem Walk.succ_eq (w : Walk) : w.succ = w.add 1 := by
  cases w with
  | done => rfl
  | go m => simp only [Walk.succ, Walk.add, Nat.add_comm]

theorem Walk.add_add (w : Walk) : (w.add n).add m = w.add (m + n) := by
  cases w with
  | done => rfl
  | go t => simp only [Walk.add, Nat.add_assoc]

theorem walk_append (c p q : List UInt8) :
    walk descending retrieval (c ++ p) (c ++ q) = (walk descending retrieval p q).add c.length := by
  induction c with
  | nil => cases h : walk descending retrieval p q <;> simp [h]
  | cons b c ih =>
    rw [cons_append, cons_append, walk_cons_self, ih, Walk.succ_eq, Walk.add_add,
      length_cons, Nat.add_comm]

theorem walk_self : walk descending retrieval key key = .done true := by
  have h := @walk_append descending retrieval key [] []
  rwa [append_nil] at h

theorem byte_trichotomy (a b : UInt8) : a < b ∨ a = b ∨ b < a := by
  by_cases h : a = b
  · exact .inr (.inl h)
  · exact (UInt8.lt_or_lt_of_ne h).imp id .inr

theorem walk_eq_go (h : walk descending retrieval key k = .go m) :
    ∃ c p q, key = c ++ p ∧ k = c ++ q ∧ c.length = m ∧ walk descending retrieval p q = .go 0 := by
  induction key generalizing k m with
  | nil =>
    cases k with
    | nil => cases h
    | cons b q =>
      obtain rfl : 0 = m := by
        rw [walk] at h
        split at h <;> simp_all
      exact ⟨[], [], b :: q, rfl, rfl, rfl, h⟩
  | cons a p ih =>
    cases k with
    | nil =>
      obtain rfl : 0 = m := by
        rw [walk] at h
        split at h <;> simp_all
      exact ⟨[], a :: p, [], rfl, rfl, rfl, h⟩
    | cons b q =>
      rcases byte_trichotomy a b with hab | rfl | hab
      · rw [walk, if_neg (UInt8.lt_asymm hab), if_pos hab] at h
        cases h
      · rw [walk_cons_self, Walk.succ_eq] at h
        cases hw : walk descending retrieval p q with
        | done e =>
          rw [hw] at h
          cases h
        | go n =>
          obtain ⟨c, p', q', rfl, rfl, rfl, hgo⟩ := ih hw
          rw [hw] at h
          obtain rfl : 1 + c.length = m := by simpa using h
          exact ⟨a :: c, p', q', rfl, rfl, by rw [length_cons, Nat.add_comm], hgo⟩
      · have hgo : walk descending retrieval (a :: p) (b :: q) = .go 0 := by rw [walk, if_pos hab]
        obtain rfl : 0 = m := by simpa [hgo] using h
        exact ⟨[], a :: p, b :: q, rfl, rfl, rfl, hgo⟩

theorem walk_go_zero_append {b : UInt8} (h : walk descending retrieval p (b :: q) = .go 0)
    (q' : List UInt8) : walk descending retrieval p (b :: q') = .go 0 := by
  cases p with
  | nil => exact h
  | cons a p =>
    rcases byte_trichotomy a b with hab | rfl | hab
    · rw [walk, if_neg (UInt8.lt_asymm hab), if_pos hab] at h
      cases h
    · rw [walk_cons_self, Walk.succ_eq] at h
      cases hw : walk descending retrieval p q <;> simp [hw] at h
    · rw [walk, if_pos hab]

theorem eq_of_walk_done_true (h : walk descending retrieval key k = .done true) : key = k := by
  induction key generalizing k with
  | nil =>
    cases k with
    | nil => rfl
    | cons b q =>
      rw [walk] at h
      split at h <;> simp at h
  | cons a p ih =>
    cases k with
    | nil =>
      rw [walk] at h
      split at h <;> simp at h
    | cons b q =>
      rcases byte_trichotomy a b with hab | rfl | hab
      · rw [walk, if_neg (UInt8.lt_asymm hab), if_pos hab] at h
        cases h
      · rw [walk_cons_self, Walk.succ_eq] at h
        cases hw : walk descending retrieval p q with
        | done e =>
          rw [hw] at h
          rw [ih (hw.trans h)]
        | go n =>
          rw [hw] at h
          cases h
      · rw [walk, if_pos hab] at h
        cases h

def Rises (descending : Bool) : List UInt8 → List UInt8 → Prop
  | a :: _, b :: _ => a < b
  | [], [] => True
  | [], _ :: _ => descending = false
  | _ :: _, [] => descending = true

def Follows (descending : Bool) (prev : Option (List UInt8)) (node : IndexNode) (k : List UInt8) :
    Prop :=
  match prev with
  | none => node.nodePrefix = 0 ∧ k = node.data
  | some prev => node.nodePrefix ≤ prev.length ∧ k = prev.take node.nodePrefix ++ node.data ∧
      Rises descending (prev.drop node.nodePrefix) node.data

def Behind (descending retrieval : Bool) (key : List UInt8) (prev : Option (List UInt8)) (m : Nat) :
    Prop :=
  match prev with
  | none => m = 0
  | some prev => walk descending retrieval key prev = .go m

variable {node : IndexNode} {before : Option (List UInt8)}

theorem walk_of_lt (hb : Behind descending retrieval key before m)
    (hf : Follows descending before node k) (h : node.nodePrefix < m) :
    walk descending retrieval key k = .done false := by
  cases before with
  | none => exact absurd h (by rw [show m = 0 from hb]; omega)
  | some prev =>
    obtain ⟨-, rfl, hr⟩ := hf
    obtain ⟨c, p, q, rfl, rfl, rfl, -⟩ := walk_eq_go hb
    rw [take_append_of_le_length (Nat.le_of_lt h)]
    rw [drop_append_of_le_length (Nat.le_of_lt h)] at hr
    obtain ⟨a, c', hc⟩ : ∃ a c', c.drop node.nodePrefix = a :: c' :=
      exists_cons_of_ne_nil (by rwa [Ne, drop_eq_nil_iff, Nat.not_le])
    have hsplit : c = c.take node.nodePrefix ++ a :: c' := by rw [← hc, take_append_drop]
    rw [hc] at hr
    nth_rewrite 1 [hsplit]
    rw [append_assoc, walk_append]
    cases hd : node.data with
    | nil =>
      have hdesc : descending = true := by rwa [hd] at hr
      rw [cons_append, walk, if_pos hdesc, Walk.add_done]
    | cons b d =>
      have hab : a < b := by rwa [hd] at hr
      rw [cons_append, walk, if_neg (UInt8.lt_asymm hab), if_pos hab, Walk.add_done]

theorem walk_take_append (h : walk descending retrieval key prev = .go m) (hle : n ≤ prev.length)
    (hlt : m < n) (rest : List UInt8) :
    walk descending retrieval key (prev.take n ++ rest) = .go m := by
  obtain ⟨c, p, q, rfl, rfl, rfl, hgo⟩ := walk_eq_go h
  cases q with
  | nil => simp only [append_nil] at hle; omega
  | cons b q =>
    obtain ⟨l, rfl⟩ : ∃ l, n = c.length + (l + 1) := ⟨n - c.length - 1, by omega⟩
    rw [take_length_add_append, take_succ_cons, append_assoc, walk_append,
      cons_append, walk_go_zero_append hgo, Walk.add_go, Nat.add_zero]

theorem walk_of_gt (hb : Behind descending retrieval key before m)
    (hf : Follows descending before node k) (h : m < node.nodePrefix) :
    walk descending retrieval key k = .go m := by
  cases before with
  | none => exact absurd h (by rw [hf.1]; omega)
  | some prev =>
    obtain ⟨hle, rfl, -⟩ := hf
    exact walk_take_append hb hle h node.data

theorem walk_of_eq (hb : Behind descending retrieval key before m)
    (hf : Follows descending before node k) (h : node.nodePrefix = m) :
    walk descending retrieval key k =
      (walk descending retrieval (key.drop m) node.data).add m := by
  subst h
  cases before with
  | none =>
    obtain ⟨h0, rfl⟩ := hf
    rw [h0, drop_zero]
    exact walk_append [] key node.data
  | some prev =>
    obtain ⟨-, rfl, -⟩ := hf
    obtain ⟨c, p, q, rfl, rfl, hm, -⟩ := walk_eq_go hb
    rw [← hm, take_left, drop_left, walk_append]

/-- Once the key has been passed, it stays passed, with `e` for the same reason but for a retrieval
in a descending index. -/
theorem walk_done_append {d : List UInt8} (hr : Rises descending x d)
    (h : walk descending retrieval key (c ++ x) = .done e) :
    ∃ e', walk descending retrieval key (c ++ d) = .done e' ∧
      (e = false → (descending && retrieval) = false → e' = false) := by
  induction c generalizing key with
  | nil =>
    rw [nil_append] at h ⊢
    cases key with
    | nil => cases x <;> cases d <;> grind [walk, Rises]
    | cons a p =>
      cases x with
      | nil => cases d <;> grind [walk, Rises]
      | cons b q =>
        have hab : a ≤ b := by
          rw [← UInt8.not_lt]
          intro hlt
          rw [walk, if_pos hlt] at h
          cases h
        cases d with
        | nil => exact ⟨false, by grind [walk, Rises], fun _ _ => rfl⟩
        | cons b' d =>
          have hlt : a < b' := UInt8.lt_of_le_of_lt hab hr
          exact ⟨false, by rw [walk, if_neg (UInt8.lt_asymm hlt), if_pos hlt], fun _ _ => rfl⟩
  | cons b c ih =>
    rw [cons_append] at h ⊢
    cases key with
    | nil => exact ⟨e, h, fun he _ => he⟩
    | cons a p =>
      rcases byte_trichotomy a b with hab | rfl | hab
      · rw [walk, if_neg (UInt8.lt_asymm hab), if_pos hab] at h ⊢
        exact ⟨e, h, fun he _ => he⟩
      · rw [walk_cons_self] at h ⊢
        cases hw : walk descending retrieval p (c ++ x) with
        | done e₀ =>
          rw [hw] at h
          cases h
          obtain ⟨e', he', himp⟩ := ih hw
          exact ⟨e', by rw [he']; rfl, himp⟩
        | go n =>
          rw [hw] at h
          cases h
      · rw [walk, if_pos hab] at h
        cases h

theorem walk_done_follows (hf : Follows descending (some prev) node k)
    (h : walk descending retrieval key prev = .done e) :
    ∃ e', walk descending retrieval key k = .done e' ∧
      (e = false → (descending && retrieval) = false → e' = false) := by
  obtain ⟨-, rfl, hr⟩ := hf
  rw [← take_append_drop node.nodePrefix prev] at h
  exact walk_done_append hr h

/-- Nodes and the keys they stand for, behind the key in front of them. The marker at the end of a
level has no key of its own: what has been read in front of it stays. -/
inductive Nodes (descending : Bool) :
    Option (List UInt8) → List IndexNode → List (List UInt8) → Prop
  | endLevel {before : Option (List UInt8)} {node : IndexNode} : node.isEndLevel = true →
      node.data = [] → Nodes descending before [node] [before.getD []]
  | endBucket {before : Option (List UInt8)} {node : IndexNode} {k : List UInt8} :
      node.isEndLevel = false → node.isEndBucket = true →
      Follows descending before node k → Nodes descending before [node] [k]
  | cons {before : Option (List UInt8)} {node : IndexNode} {nodes : List IndexNode}
      {k : List UInt8} {keys : List (List UInt8)} :
        node.isEndLevel = false → node.isEndBucket = false →
      Follows descending before node k → Nodes descending (some k) nodes keys →
      Nodes descending before (node :: nodes) (k :: keys)

theorem Nodes.walk_done {nodes : List IndexNode} {keys : List (List UInt8)}
    (h : Nodes descending (some prev) nodes keys)
    (hw : walk descending retrieval key prev = .done e) :
    ∀ k ∈ keys, ∃ e', walk descending retrieval key k = .done e' ∧
      (e = false → (descending && retrieval) = false → e' = false) := by
  generalize hbefore : some prev = before at h
  induction h generalizing prev e with
  | endLevel =>
    subst hbefore
    intro k hk
    obtain rfl : k = prev := by simpa using hk
    exact ⟨e, hw, fun he _ => he⟩
  | endBucket hl hb hf =>
    subst hbefore
    intro k hk
    rw [mem_singleton.mp hk]
    exact walk_done_follows hf hw
  | cons hl hb hf hn ih =>
    subst hbefore
    intro k hk
    obtain ⟨e₁, hw₁, himp₁⟩ := walk_done_follows hf hw
    rcases mem_cons.mp hk with rfl | hk
    · exact ⟨e₁, hw₁, himp₁⟩
    · obtain ⟨e₂, hw₂, himp₂⟩ := ih hw₁ rfl k hk
      exact ⟨e₂, hw₂, fun he hdr => himp₂ (himp₁ he hdr) hdr⟩

theorem Nodes.eq_between {nodes : List IndexNode} {keys : List (List UInt8)}
    (hdr : (descending && retrieval) = false) (h : Nodes descending (some prev) nodes keys)
    (hw : walk descending retrieval key prev = .done e) {i : Nat} (hk : keys[i]? = some key) :
    prev = key ∧ ∀ l, l ≤ i → keys[l]? = some key := by
  -- The key in front of a node with the key is the key, as `walk_done_append` keeps the reason.
  have hprev : ∀ {prev k : List UInt8} {e e' : Bool}, walk descending retrieval key prev = .done e →
      walk descending retrieval key k = .done e' →
      (e = false → (descending && retrieval) = false → e' = false) → k = key → prev = key := by
    rintro prev k e e' hw hw' himp rfl
    rw [walk_self] at hw'
    cases hw'
    cases e with
    | false => simpa using himp rfl hdr
    | true => exact (eq_of_walk_done_true hw).symm
  generalize hbefore : some prev = before at h
  induction h generalizing prev e i with
  | endLevel =>
    subst hbefore
    cases i with
    | zero =>
      obtain rfl : prev = key := by simpa using hk
      exact ⟨rfl, fun l hl => by rwa [Nat.le_zero.mp hl]⟩
    | succ i => simp at hk
  | endBucket hl hb hf =>
    subst hbefore
    obtain ⟨e₁, hw₁, himp₁⟩ := walk_done_follows hf hw
    cases i with
    | zero =>
      rw [getElem?_cons_zero, Option.some_inj] at hk
      exact ⟨hprev hw hw₁ himp₁ hk, fun l hl => by rw [Nat.le_zero.mp hl, ← hk]; rfl⟩
    | succ i => simp at hk
  | cons hl hb hf hn ih =>
    subst hbefore
    obtain ⟨e₁, hw₁, himp₁⟩ := walk_done_follows hf hw
    cases i with
    | zero =>
      rw [getElem?_cons_zero, Option.some_inj] at hk
      exact ⟨hprev hw hw₁ himp₁ hk, fun l hl => by rw [Nat.le_zero.mp hl, ← hk]; rfl⟩
    | succ i =>
      obtain ⟨hk₁, hrest⟩ := ih hw₁ hk rfl
      refine ⟨hprev hw hw₁ himp₁ hk₁, fun l hl => ?_⟩
      cases l with
      | zero => rw [hk₁]; rfl
      | succ l => exact hrest l (Nat.le_of_succ_le_succ hl)

/-- The jump table behind a jump node: `last` is the node that one refers to, and `jumpKey` the key
of that node. An entry holds the beginning of the key of its node that the node itself does not. -/
inductive Jumps (nodes : List IndexNode) (keys : List (List UInt8)) :
    Nat → List UInt8 → List IndexJumpNode → Prop
  | nil {last : Nat} {jumpKey : List UInt8} : Jumps nodes keys last jumpKey []
  | cons {last : Nat} {jumpKey k : List UInt8} {j : IndexJumpNode} {jumps : List IndexJumpNode}
      {node : IndexNode} : last < j.offset →
      nodes[j.offset]? = some node → keys[j.offset]? = some k → node.isEndLevel = false →
      j.jumpPrefix ≤ jumpKey.length →
      jumpKey.take j.jumpPrefix ++ j.data = k.take node.nodePrefix →
      Jumps nodes keys j.offset k jumps → Jumps nodes keys last jumpKey (j :: jumps)

/-- The nodes on a page behind the dummy node that `find_node_start_point` passes in a descending
index. -/
def BtreePage.dummy (page : BtreePage) (descending : Bool) : Prop :=
  page.leaf = false ∧ descending = true ∧ (page.nodes.head?.map (·.data)) = some []

instance (page : BtreePage) : Decidable (page.dummy descending) :=
  inferInstanceAs (Decidable (_ ∧ _ ∧ _))

def DuplicatesSorted (nodes : List IndexNode) (keys : List (List UInt8)) : Prop :=
  ∀ i node node' k, nodes[i]? = some node → nodes[i + 1]? = some node' → keys[i]? = some k →
    keys[i + 1]? = some k → node'.isEndLevel = false → node'.isEndBucket = false →
    node.recordNumber ≤ node'.recordNumber

/-- A page that is sorted and compressed, with a jump table for it. -/
structure WellFormed (page : BtreePage) (descending : Bool) (keys : List (List UInt8)) : Prop where
  nodes : if page.dummy descending then
      ∃ node nodes, page.nodes = node :: nodes ∧ node.nodePrefix = 0 ∧ node.isEndLevel = false ∧
        node.isEndBucket = false ∧ ∃ rest, keys = [] :: rest ∧ Nodes descending none nodes rest
    else Nodes descending none page.nodes keys
  duplicates : page.allRecordNumber = true → DuplicatesSorted page.nodes keys
  jumps : Jumps page.nodes keys 0 [] page.jumpNodes

end Firebird.Jrd.Btr
