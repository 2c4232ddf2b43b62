import Firebird.Common.TreeRun

/-!
# Accessors of a tree

How an accessor moves over the pages. On every tree that `add` and `fastRemove` lead to, `locate`
finds the nearest item, `getNext` and `getPrev` go to the neighbours of an item, and `fastRemove`
goes to the next item while it takes one out.
-/
namespace Firebird.Common.Pages

open Lib Links List

variable {α κ : Type} [LinearOrder κ] (p : Template α κ)

/-- The step back of `locate`, to the last item before a position. -/
def Tree.stepBack (t : Tree α) (curr : Addr) (curPos : Nat) : Bool × Position :=
  if curPos = 0 then
    match t.prev curr with
    | none => (false, ⟨none, curPos⟩)
    | some prev => (true, ⟨some prev, (t.items prev).length - 1⟩)
  else (true, ⟨some curr, curPos - 1⟩)

/-- `locate`; without a root the accessor stays where it is. -/
def Tree.locate (t : Tree α) (acc : Position) (lt : LocType) (k : κ) : Bool × Position :=
  match t.root with
  | none => (false, acc)
  | some root =>
    let curr := t.findLeaf p k t.level root
    let (found, curPos) := t.findItem p curr k
    match lt with
    | .locEqual => (found, ⟨some curr, curPos⟩)
    | .locGreatEqual =>
      if curPos = (t.items curr).length then
        (found || (t.next curr).isSome, ⟨t.next curr, 0⟩)
      else (true, ⟨some curr, curPos⟩)
    | .locLessEqual => if found then (true, ⟨some curr, curPos⟩) else t.stepBack curr curPos
    | .locLess => t.stepBack curr curPos
    | .locGreat =>
      let curPos := if found then curPos + 1 else curPos
      if curPos = (t.items curr).length then ((t.next curr).isSome, ⟨t.next curr, 0⟩)
      else (true, ⟨some curr, curPos⟩)

/-- `getNext`, for a position of an item. -/
def Tree.getNext (t : Tree α) (acc : Position) : Bool × Position :=
  match acc.curr with
  | none => (false, acc)
  | some curr =>
    if acc.curPos + 1 ≥ (t.items curr).length then
      match t.next curr with
      | some next => (true, ⟨some next, 0⟩)
      | none => (false, acc)
    else (true, ⟨some curr, acc.curPos + 1⟩)

/-- `getPrev`, for a position of an item. -/
def Tree.getPrev (t : Tree α) (acc : Position) : Bool × Position :=
  match acc.curr with
  | none => (false, acc)
  | some curr =>
    if acc.curPos = 0 then
      match t.prev curr with
      | some prev => (true, ⟨some prev, (t.items prev).length - 1⟩)
      | none => (false, ⟨some curr, 0⟩)
    else (true, ⟨some curr, acc.curPos - 1⟩)

variable {p} {t : Tree α} {lv : Nat → List Addr} {A B leaves : List Addr} {curr : Addr}
variable {low high before after : List α} {pos : Position} {x : α} {k : κ} {s : Set α}

def Backs (t : Tree α) (leaves : List Addr) (r : Bool × Position) (before after : List α) : Prop :=
  (r.1 = true ∧ ∃ rest y, before = rest ++ [y] ∧ At t leaves r.2 rest (y :: after)) ∨
    r.1 = false ∧ before = []

theorem Rep.stepBack_backs (h : Rep p t lv) (hsplit : lv 0 = A ++ curr :: B)
    (hitems : t.items curr = low ++ high) :
    Backs t (lv 0) (t.stepBack curr low.length) (A.flatMap t.items ++ low)
      (high ++ B.flatMap t.items) := by
  have hlinked := h.links 0 (Nat.zero_le _)
  rw [hsplit] at hlinked
  have hprev := hlinked.prev_eq
  rw [Tree.stepBack]
  rcases eq_nil_or_concat low with rfl | ⟨low', y, rfl⟩
  · rw [length_nil, if_pos rfl, hprev]
    rcases eq_nil_or_concat A with rfl | ⟨A', a, rfl⟩
    · exact .inr ⟨rfl, rfl⟩
    · rw [concat_eq_append] at hsplit ⊢
      obtain ⟨rest, y, hrest⟩ : ∃ rest y, t.items a = rest ++ [y] := by
        rcases eq_nil_or_concat (t.items a) with hnil | ⟨rest, y, hrest⟩
        · exact absurd hnil (h.filled_before hsplit a (by simp))
        · exact ⟨rest, y, by rw [hrest, concat_eq_append]⟩
      simp only [getLast?_concat]
      refine .inl ⟨rfl, A'.flatMap t.items ++ rest, y, by simp [hrest], ?_⟩
      refine ⟨A', a, curr :: B, rest, [y], by rw [hsplit]; simp, ?_, hrest, by simp, rfl, ?_⟩
      · simp [hrest]
      · rw [flatMap_cons, hitems]
        rfl
  · rw [concat_eq_append] at hitems ⊢
    rw [if_neg (by simp)]
    refine .inl ⟨rfl, A.flatMap t.items ++ low', y, by simp, ?_⟩
    exact ⟨A, curr, B, low', y :: high, hsplit, by simp, by rw [hitems]; simp, by simp, rfl, rfl⟩

theorem Rep.getNext_lands (h : Rep p t lv) (hat : At t (lv 0) pos before (x :: after)) :
    Lands t (lv 0) (t.getNext pos) (before ++ [x]) after ∧
      ((t.getNext pos).1 = false → (t.getNext pos).2 = pos) := by
  obtain ⟨A, curr, B, low, high, hsplit, rfl, hitems, hne, rfl, hafter⟩ := hat
  obtain ⟨y, high, rfl⟩ := exists_cons_of_ne_nil hne
  obtain ⟨rfl, rfl⟩ := List.cons.inj hafter
  have hlands := h.lands_from hsplit (show t.items curr = (low ++ [x]) ++ high by
    rw [hitems, append_assoc]; rfl)
  rw [← append_assoc, length_append, length_singleton] at hlands
  rw [Tree.getNext]
  simp only
  split_ifs at hlands ⊢ with hend
  · cases hnext : t.next curr with
    | some next =>
      rw [hnext] at hlands
      exact ⟨hlands, fun hfalse => Bool.noConfusion hfalse⟩
    | none =>
      rw [hnext] at hlands
      rcases hlands with ⟨htrue, -⟩ | ⟨-, hnil⟩
      · cases htrue
      · exact ⟨.inr ⟨rfl, hnil⟩, fun _ => rfl⟩
  · exact ⟨hlands, by simp⟩

theorem Rep.getPrev_backs (h : Rep p t lv) (hat : At t (lv 0) pos before after) :
    Backs t (lv 0) (t.getPrev pos) before after ∧
      ((t.getPrev pos).1 = false → (t.getPrev pos).2 = pos) := by
  obtain ⟨A, curr, B, low, high, hsplit, rfl, hitems, hne, rfl, rfl⟩ := hat
  have hbacks := h.stepBack_backs hsplit hitems
  rw [Tree.stepBack] at hbacks
  rw [Tree.getPrev]
  simp only
  split_ifs at hbacks ⊢ with hzero
  · cases hprev : t.prev curr with
    | some prev =>
      rw [hprev] at hbacks
      exact ⟨hbacks, fun hfalse => Bool.noConfusion hfalse⟩
    | none =>
      rw [hprev] at hbacks
      rcases hbacks with ⟨htrue, -⟩ | ⟨-, hnil⟩
      · cases htrue
      · exact ⟨.inr ⟨rfl, hnil⟩, fun _ => by rw [hzero]⟩
  · exact ⟨hbacks, by simp⟩

def Relates (lt : LocType) (k key : κ) : Prop :=
  match lt with
  | .locEqual => key = k
  | .locLess => key < k
  | .locGreat => k < key
  | .locGreatEqual => k ≤ key
  | .locLessEqual => key ≤ k

def Nearest (p : Template α κ) (lt : LocType) (s : Set α) (k : κ) (x : α) : Prop :=
  x ∈ s ∧ Relates lt k (p.key x) ∧ ∀ y ∈ s, Relates lt k (p.key y) →
    match lt with
    | .locEqual => y = x
    | .locGreat | .locGreatEqual => p.key x ≤ p.key y
    | .locLess | .locLessEqual => p.key y ≤ p.key x

def Current (t : Tree α) (pos : Position) (x : α) : Prop :=
  ∃ curr ∈ t.leaves, pos.curr = some curr ∧ (t.items curr)[pos.curPos]? = some x

/-- The accessor has found the nearest item, if there is one in the relation. -/
def Finds (p : Template α κ) (t : Tree α) (s : Set α) (lt : LocType) (k : κ)
    (r : Bool × Position) : Prop :=
  (r.1 = true ↔ ∃ x ∈ s, Relates lt k (p.key x)) ∧
    (r.1 = true → ∃ x, Current t r.2 x ∧ Nearest p lt s k x)

theorem At.current (h : At t leaves pos before (x :: after)) (hleaves : t.leaves = leaves) :
    Current t pos x := by
  obtain ⟨A, curr, B, low, high, hsplit, rfl, hitems, hne, -, hafter⟩ := h
  obtain ⟨y, high, rfl⟩ := exists_cons_of_ne_nil hne
  obtain ⟨rfl, -⟩ := List.cons.inj hafter
  refine ⟨curr, by rw [hleaves, hsplit]; simp, rfl, ?_⟩
  rw [hitems]
  simp

theorem Current.at (h : Current t pos x) (hleaves : t.leaves = leaves) :
    ∃ before after, At t leaves pos before (x :: after) := by
  obtain ⟨curr, hmem, hcurr, hget⟩ := h
  obtain ⟨A, B, hsplit⟩ := append_of_mem hmem
  obtain ⟨hlt, hget⟩ := List.getElem?_eq_some_iff.1 hget
  have hitems : t.items curr =
      (t.items curr).take pos.curPos ++ x :: (t.items curr).drop (pos.curPos + 1) := by
    rw [← hget, ← drop_eq_getElem_cons hlt, take_append_drop]
  have hpos : pos = ⟨some curr, ((t.items curr).take pos.curPos).length⟩ := by
    obtain ⟨c, i⟩ := pos
    simp only at hcurr hlt
    rw [hcurr, length_take, Nat.min_eq_left hlt.le]
  exact ⟨_, _, A, curr, B, _, _, hleaves ▸ hsplit, hpos, hitems, by simp, rfl, rfl⟩

theorem Lands.finds {lt : LocType} {r : Bool × Position} (h : Lands t leaves r before after)
    (hleaves : t.leaves = leaves) (hs : ∀ x, x ∈ s ↔ x ∈ before ++ after)
    (hsorted : Sorted p (before ++ after)) (hlt : lt = .locGreat ∨ lt = .locGreatEqual)
    (hbefore : ∀ x ∈ before, ¬Relates lt k (p.key x))
    (hafter : ∀ x ∈ after, Relates lt k (p.key x)) : Finds p t s lt k r := by
  have hsome : (∃ x ∈ s, Relates lt k (p.key x)) ↔ after ≠ [] := by
    constructor
    · rintro ⟨x, hx, hrel⟩
      rcases mem_append.1 ((hs x).1 hx) with hx | hx
      · exact absurd hrel (hbefore x hx)
      · exact ne_nil_of_mem hx
    · intro hne
      obtain ⟨x, rest, rfl⟩ := exists_cons_of_ne_nil hne
      exact ⟨x, (hs x).2 (by simp), hafter x (by simp)⟩
  refine ⟨h.fst_eq.trans hsome.symm, fun htrue => ?_⟩
  rcases h with ⟨-, hat⟩ | ⟨hfalse, -⟩
  · obtain ⟨x, rest, rfl⟩ := exists_cons_of_ne_nil hat.after_ne_nil
    refine ⟨x, hat.current hleaves, (hs x).2 (by simp), hafter x (by simp), fun y hy hrel => ?_⟩
    have hle : p.key x ≤ p.key y := by
      rcases mem_append.1 ((hs y).1 hy) with hy | hy
      · exact absurd hrel (hbefore y hy)
      · rcases mem_cons.1 hy with rfl | hy
        · exact le_refl _
        · rw [Sorted, pairwise_append, pairwise_cons] at hsorted
          exact (hsorted.2.1.1 y hy).le
    rcases hlt with rfl | rfl <;> exact hle
  · rw [hfalse] at htrue
    cases htrue

theorem Backs.finds {lt : LocType} {r : Bool × Position} (h : Backs t leaves r before after)
    (hleaves : t.leaves = leaves) (hs : ∀ x, x ∈ s ↔ x ∈ before ++ after)
    (hsorted : Sorted p (before ++ after)) (hlt : lt = .locLess ∨ lt = .locLessEqual)
    (hbefore : ∀ x ∈ before, Relates lt k (p.key x))
    (hafter : ∀ x ∈ after, ¬Relates lt k (p.key x)) : Finds p t s lt k r := by
  rcases h with ⟨htrue, rest, y, rfl, hat⟩ | ⟨hfalse, rfl⟩
  · have hy : y ∈ s := (hs y).2 (by simp)
    have hrel : Relates lt k (p.key y) := hbefore y (by simp)
    refine ⟨iff_of_true htrue ⟨y, hy, hrel⟩, fun _ => ?_⟩
    refine ⟨y, hat.current hleaves, hy, hrel, fun z hz hrelz => ?_⟩
    have hle : p.key z ≤ p.key y := by
      rcases mem_append.1 ((hs z).1 hz) with hz | hz
      · rcases mem_append.1 hz with hz | hz
        · rw [Sorted, append_assoc, pairwise_append] at hsorted
          exact (hsorted.2.2 z hz y (by simp)).le
        · obtain rfl := mem_singleton.1 hz
          exact le_refl _
      · exact absurd hrelz (hafter z hz)
    rcases hlt with rfl | rfl <;> exact hle
  · refine ⟨iff_of_false (by simp [hfalse]) ?_, fun htrue => ?_⟩
    · rintro ⟨x, hx, hrel⟩
      exact hafter x ((hs x).1 hx) hrel
    · rw [hfalse] at htrue
      cases htrue

theorem Current.finds {lt : LocType} (h : Current t pos x) (hx : x ∈ s) (hkey : p.key x = k)
    (honly : ∀ y ∈ s, p.key y = p.key x → y = x)
    (hlt : lt = .locEqual ∨ lt = .locGreatEqual ∨ lt = .locLessEqual) :
    Finds p t s lt k (true, pos) := by
  subst hkey
  have hrel : Relates lt (p.key x) (p.key x) := by
    rcases hlt with rfl | rfl | rfl
    exacts [rfl, le_refl (p.key x), le_refl (p.key x)]
  refine ⟨iff_of_true rfl ⟨x, hx, hrel⟩, fun _ => ⟨x, h, hx, hrel, fun y hy hrely => ?_⟩⟩
  rcases hlt with rfl | rfl | rfl
  exacts [honly y hy hrely, hrely, hrely]

theorem Sorted.eq_of_key {items : List α} {y : α} (h : Sorted p items) (hx : x ∈ items)
    (hy : y ∈ items) (hkey : p.key y = p.key x) : y = x := by
  by_contra hne
  obtain ⟨i, hi, rfl⟩ := getElem_of_mem hx
  obtain ⟨j, hj, rfl⟩ := getElem_of_mem hy
  rcases Nat.lt_trichotomy i j with hlt | rfl | hlt
  · exact absurd hkey (pairwise_iff_getElem.1 h i j hi hj hlt).ne'
  · exact hne rfl
  · exact absurd hkey (pairwise_iff_getElem.1 h j i hj hi hlt).ne

/-- What `locate` comes to if `x`, behind `before`, has the key. -/
def Hits (t : Tree α) (leaves : List Addr) (lt : LocType) (r : Bool × Position) (before : List α)
    (x : α) (rest : List α) : Prop :=
  match lt with
  | .locLess => Backs t leaves r before (x :: rest)
  | .locGreat => Lands t leaves r (before ++ [x]) rest
  | .locEqual | .locGreatEqual | .locLessEqual => r.1 = true ∧ At t leaves r.2 before (x :: rest)

def Misses (t : Tree α) (leaves : List Addr) (lt : LocType) (r : Bool × Position)
    (before after : List α) : Prop :=
  match lt with
  | .locEqual => r.1 = false
  | .locLess | .locLessEqual => Backs t leaves r before after
  | .locGreat | .locGreatEqual => Lands t leaves r before after

theorem Rep.locate_at (h : Rep p t lv) (acc : Position) (lt : LocType) (k : κ) :
    ∃ before after, allItems t lv = before ++ after ∧ (∀ y ∈ before, p.key y < k) ∧
      ((∃ x rest, after = x :: rest ∧ p.key x = k ∧
          Hits t (lv 0) lt (t.locate p acc lt k) before x rest) ∨
        (∀ y ∈ after, k < p.key y) ∧ Misses t (lv 0) lt (t.locate p acc lt k) before after) := by
  obtain ⟨r, hroot, -⟩ := h.top
  obtain ⟨A, B, low, high, hf⟩ := h.found hroot k
  have hlands := h.lands_from hf.split hf.items
  have hbacks := h.stepBack_backs hf.split hf.items
  refine ⟨A.flatMap t.items ++ low, high ++ B.flatMap t.items, ?_, hf.before, ?_⟩
  · rw [allItems, hf.split, flatMap_append, flatMap_cons, hf.items]
    simp
  have hlen : low.length ≤ (t.items (t.findLeaf p k t.level r)).length := by
    rw [hf.items, length_append]
    omega
  rw [Tree.locate, hroot]
  simp only [hf.pos]
  -- an item with the key is the first one behind the place
  cases hfound : (t.findItem p (t.findLeaf p k t.level r) k).1 with
  | true =>
    obtain ⟨x, rest, rfl, hkey⟩ := hf.found.1 hfound
    have hpos : low.length + 1 ≤ (t.items (t.findLeaf p k t.level r)).length := by
      rw [hf.items, length_append, length_cons]
      omega
    have hat : At t (lv 0) ⟨some (t.findLeaf p k t.level r), low.length⟩ (A.flatMap t.items ++ low)
        (x :: rest ++ B.flatMap t.items) :=
      ⟨A, _, B, low, x :: rest, hf.split, rfl, hf.items, by simp, rfl, rfl⟩
    refine .inl ⟨x, rest ++ B.flatMap t.items, rfl, hkey, ?_⟩
    cases lt with
    | locEqual => exact ⟨rfl, hat⟩
    | locLess => exact hbacks
    | locGreat =>
      have hfrom := h.lands_from hf.split (show t.items (t.findLeaf p k t.level r) =
        (low ++ [x]) ++ rest by rw [hf.items, append_assoc]; rfl)
      rw [← append_assoc, length_append, length_singleton] at hfrom
      have hcond : low.length + 1 = (t.items (t.findLeaf p k t.level r)).length ↔
          low.length + 1 ≥ (t.items (t.findLeaf p k t.level r)).length := by omega
      simpa only [if_true, hcond, Hits] using hfrom
    | locGreatEqual =>
      rw [if_neg (by omega)]
      exact ⟨rfl, hat⟩
    | locLessEqual => exact ⟨rfl, hat⟩
  | false =>
    have hcond : low.length = (t.items (t.findLeaf p k t.level r)).length ↔
        low.length ≥ (t.items (t.findLeaf p k t.level r)).length := by omega
    refine .inr ⟨hf.missed hfound, ?_⟩
    cases lt with
    | locEqual => exact rfl
    | locLess => exact hbacks
    | locGreat => simpa only [Bool.false_eq_true, if_false, hcond, Misses] using hlands
    | locGreatEqual => simpa only [Bool.false_or, hcond, Misses] using hlands
    | locLessEqual => exact hbacks

theorem Rep.locate_finds (h : Rep p t lv) (hs : ∀ x, x ∈ s ↔ x ∈ allItems t lv) (acc : Position)
    (lt : LocType) (k : κ) : Finds p t s lt k (t.locate p acc lt k) := by
  have hleaves := h.leaves_eq
  have hsorted : Sorted p (allItems t lv) := h.sorted
  obtain ⟨before, after, hall, hbefore, ⟨x, rest, rfl, rfl, hhits⟩ | ⟨hbehind, hmisses⟩⟩ :=
    h.locate_at acc lt k
  · rw [hall] at hs hsorted
    have hx : x ∈ s := (hs x).2 (by simp)
    have honly : ∀ y ∈ s, p.key y = p.key x → y = x := fun y hy hkeys =>
      hsorted.eq_of_key (by simp) ((hs y).1 hy) hkeys
    have hparts := hsorted
    rw [Sorted, pairwise_append, pairwise_cons] at hparts
    cases lt with
    | locLess =>
      refine hhits.finds hleaves hs hsorted (.inl rfl) hbefore fun y hy => not_lt.2 ?_
      rcases mem_cons.1 hy with rfl | hy
      · exact le_refl _
      · exact (hparts.2.1.1 y hy).le
    | locGreat =>
      refine hhits.finds hleaves (fun y => by rw [hs y]; simp) (by simpa using hsorted) (.inl rfl)
        (fun y hy => not_lt.2 ?_) hparts.2.1.1
      rcases mem_append.1 hy with hy | hy
      · exact (hbefore y hy).le
      · exact (mem_singleton.1 hy ▸ le_refl _)
    | _ =>
      obtain ⟨htrue, hat⟩ := hhits
      have hcurrent := hat.current hleaves
      rw [← Prod.mk.eta (p := t.locate p acc _ (p.key x)), htrue]
      exact hcurrent.finds hx rfl honly (by simp)
  · rw [hall] at hs hsorted
    cases lt with
    | locEqual =>
      rw [Misses] at hmisses
      refine ⟨iff_of_false (by simp [hmisses]) ?_, by simp [hmisses]⟩
      rintro ⟨y, hy, hkey⟩
      rcases mem_append.1 ((hs y).1 hy) with hy | hy
      · exact absurd hkey (hbefore y hy).ne
      · exact absurd hkey (hbehind y hy).ne'
    | locLess =>
      exact hmisses.finds hleaves hs hsorted (.inl rfl) hbefore
        fun y hy => not_lt.2 (hbehind y hy).le
    | locGreat =>
      exact hmisses.finds hleaves hs hsorted (.inl rfl)
        (fun y hy => not_lt.2 (hbefore y hy).le) hbehind
    | locGreatEqual =>
      exact hmisses.finds hleaves hs hsorted (.inr rfl)
        (fun y hy => not_le.2 (hbefore y hy)) fun y hy => (hbehind y hy).le
    | locLessEqual =>
      exact hmisses.finds hleaves hs hsorted (.inr rfl) (fun y hy => (hbefore y hy).le)
        fun y hy => not_le.2 (hbehind y hy)

def Moves (p : Template α κ) (t : Tree α) (s : Set α) (lt : LocType) (k : κ) (pos : Position)
    (r : Bool × Position) : Prop :=
  Finds p t s lt k r ∧ (r.1 = false → r.2 = pos)

/-- On every tree that is reached: `locate` tells whether there is an item in the relation, and
finds the nearest one. From an item, `getNext` and `getPrev` go to its neighbours, or tell that
there is none and stay. `fastRemove` takes exactly this item out, tells whether there is a greater
one, and goes to the next one. -/
theorem accessor_moves (h : Reaches p t s) :
    (∀ acc lt k, Finds p t s lt k (t.locate p acc lt k)) ∧
      ∀ pos x, Current t pos x → x ∈ s ∧
        Moves p t s .locGreat (p.key x) pos (t.getNext pos) ∧
        Moves p t s .locLess (p.key x) pos (t.getPrev pos) ∧
        ∀ curr ∈ pos.curr,
          (∀ y, y ∈ (t.fastRemove p curr pos.curPos).2.leaves.flatMap
            (t.fastRemove p curr pos.curPos).2.items ↔ y ∈ s ∧ y ≠ x) ∧
          Finds p (t.fastRemove p curr pos.curPos).2 (s \ {x}) .locGreat (p.key x)
            (t.fastRemove p curr pos.curPos).1 := by
  obtain ⟨items, hholds, hs⟩ := h.holds
  rcases hholds with ⟨hroot, hlevel, rfl⟩ | ⟨lv, hrep, rfl⟩
  · -- there is no page
    have hempty : ∀ x, x ∉ s := fun x hx => by simpa using (hs x).2 hx
    refine ⟨fun acc lt k => ?_, fun pos x hx => ?_⟩
    · rw [Tree.locate, hroot]
      exact ⟨iff_of_false (by simp) fun ⟨x, hx, _⟩ => hempty x hx, by simp⟩
    · obtain ⟨curr, hmem, -⟩ := hx
      rw [Tree.leaves, hlevel, Tree.pagesAt, hroot] at hmem
      simp at hmem
  · have hleaves := hrep.leaves_eq
    refine ⟨fun acc lt k => hrep.locate_finds (fun x => (hs x).symm) acc lt k, fun pos x hx => ?_⟩
    obtain ⟨before, after, hat⟩ := hx.at hleaves
    have hall := hat.append
    have hsorted : Sorted p (before ++ x :: after) := by
      rw [← hall]
      exact hrep.sorted
    have hs' : ∀ y, y ∈ s ↔ y ∈ before ++ x :: after := by
      intro y
      rw [← hs y, allItems, hall]
    have hparts := hsorted
    rw [Sorted, pairwise_append, pairwise_cons] at hparts
    have hbefore : ∀ y ∈ before, p.key y < p.key x := fun y hy => hparts.2.2 y hy x (by simp)
    have hafter : ∀ y ∈ after, p.key x < p.key y := hparts.2.1.1
    have hnext := hrep.getNext_lands hat
    have hprev := hrep.getPrev_backs hat
    refine ⟨(hs' x).2 (by simp), ⟨?_, hnext.2⟩, ⟨?_, hprev.2⟩, fun curr hcurr => ?_⟩
    · refine hnext.1.finds hleaves (fun y => by rw [hs' y]; simp) (by simpa using hsorted)
        (.inl rfl) (fun y hy => not_lt.2 ?_) hafter
      rcases mem_append.1 hy with hy | hy
      · exact (hbefore y hy).le
      · exact (mem_singleton.1 hy ▸ le_refl _)
    · refine hprev.1.finds hleaves hs' hsorted (.inl rfl) hbefore fun y hy => not_lt.2 ?_
      rcases mem_cons.1 hy with rfl | hy
      · exact le_refl _
      · exact (hafter y hy).le
    · obtain ⟨A, curr', B, low, high, hsplit, rfl, hitems, hne, rfl, hrest⟩ := hat
      obtain rfl : curr' = curr := by simpa using hcurr
      obtain ⟨z, high, rfl⟩ := exists_cons_of_ne_nil hne
      obtain ⟨rfl, rfl⟩ := List.cons.inj hrest
      obtain ⟨leaves, ⟨lv', hrep', hleaves', -⟩, hall', hlands⟩ :=
        hrep.fastRemove_takes hsplit hitems
      have hl : (t.fastRemove p curr' low.length).2.leaves = leaves := by
        rw [hrep'.leaves_eq, hleaves']
      have hx' : x ∉ A.flatMap t.items ++ low ∧ x ∉ high ++ B.flatMap t.items :=
        ⟨fun hm => absurd (hbefore x hm) (lt_irrefl _),
          fun hm => absurd (hafter x hm) (lt_irrefl _)⟩
      have hmem : ∀ y, y ∈ s \ {x} ↔
          y ∈ (A.flatMap t.items ++ low) ++ (high ++ B.flatMap t.items) := by
        intro y
        rw [Set.mem_sdiff, Set.mem_singleton_iff, hs' y]
        constructor
        · rintro ⟨hy, hyx⟩
          rw [mem_append, mem_cons] at hy
          rw [mem_append]
          tauto
        · intro hy
          refine ⟨?_, ?_⟩
          · rw [mem_append] at hy
            rw [mem_append, mem_cons]
            tauto
          · rintro rfl
            exact (mem_append.1 hy).elim hx'.1 hx'.2
      refine ⟨fun y => ?_, ?_⟩
      · simp only
        rw [hl, hall', ← hmem y]
        rfl
      · refine hlands.finds hl hmem ?_ (.inl rfl) (fun y hy => not_lt.2 (hbefore y hy).le) hafter
        rw [← hall', ← hleaves']
        exact hrep'.sorted

/-- On a tree with two levels above the items: over the end of a page in both directions, and a
removal by which a page gets empty. -/
theorem accessor_moves_smallPages :
    let t := (splitTree.fastRemove smallPages 1 0).2
    let s : Set Nat := {5, 4, 3, 2, 1} \ {1}
    t.level = 2 ∧ t.leaves = [1, 2, 4] ∧
      Finds smallPages t s .locLess 5 (t.locate smallPages ⟨none, 0⟩ .locLess 5) ∧
      Moves smallPages t s .locGreat 2 ⟨some 1, 0⟩ (t.getNext ⟨some 1, 0⟩) ∧
      Moves smallPages t s .locLess 3 ⟨some 2, 0⟩ (t.getPrev ⟨some 2, 0⟩) ∧
      (t.fastRemove smallPages 1 0).2.leaves = [2, 4] ∧
      Finds smallPages (t.fastRemove smallPages 1 0).2 (s \ {2}) .locGreat 2
        (t.fastRemove smallPages 1 0).1 := by
  intro t s
  have hreaches : Reaches smallPages t s :=
    splitTree_reaches.fastRemove (by decide +kernel) (by decide +kernel)
  obtain ⟨hlocate, hmoves⟩ := accessor_moves hreaches
  have htwo := hmoves ⟨some 1, 0⟩ 2 ⟨1, by decide +kernel, rfl, by decide +kernel⟩
  have hthree := hmoves ⟨some 2, 0⟩ 3 ⟨2, by decide +kernel, rfl, by decide +kernel⟩
  exact ⟨by decide +kernel, by decide +kernel, hlocate ⟨none, 0⟩ .locLess 5, htwo.2.1,
    hthree.2.2.1, by decide +kernel, (htwo.2.2.2 1 rfl).2⟩

end Firebird.Common.Pages
