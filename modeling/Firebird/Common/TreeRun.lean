import Mathlib.Order.Lattice.Nat
import Firebird.Common.TreeErase

/-!
# Runs of a tree

The pages of a tree are those that are reached from the root by children. After any sequence of
`add` and `fastRemove` they have the right sizes, parents, levels and links, and hold the items
that were added and not removed, in the order of their keys.
-/
namespace Firebird.Common.Pages

open Lib Links List

variable {α κ : Type}

/-- The pages that are `d` steps below the root. -/
def Tree.pagesAt (t : Tree α) : Nat → List Addr
  | 0 => t.root.toList
  | d + 1 => (t.pagesAt d).flatMap t.nodes

def Tree.leaves (t : Tree α) : List Addr := t.pagesAt t.level

variable [LinearOrder κ] {p : Template α κ} {t t' : Tree α} {lv : Nat → List Addr} {s : Set α}

structure WellFormed (p : Template α κ) (t : Tree α) : Prop where
  /-- The links of each depth are those of its pages in their order, without repetition. -/
  links : ∀ d ≤ t.level, Linked t.next t.prev (t.pagesAt d) ∧ (t.pagesAt d).Nodup
  /-- No page is at two depths, and all pages are allocated. -/
  apart : ∀ d ≤ t.level, ∀ d' ≤ t.level, ∀ a ∈ t.pagesAt d, a ∈ t.pagesAt d' → d = d'
  live : ∀ d ≤ t.level, ∀ a ∈ t.pagesAt d, a ∈ t.live
  /-- Pages above the leaves know their level, and their children know them. -/
  nodeLevel : ∀ d < t.level, ∀ a ∈ t.pagesAt d, t.nodeLevel a + d + 1 = t.level
  parents : ∀ d < t.level, ∀ a ∈ t.pagesAt d, ∀ c ∈ t.nodes a, t.parent c = some a
  top : ∀ r ∈ t.root, t.parent r = none
  /-- The sizes of the pages. -/
  nodes : ∀ d < t.level, ∀ a ∈ t.pagesAt d,
    1 ≤ (t.nodes a).length ∧ (t.nodes a).length ≤ p.nodeCount
  rootNodes : 0 < t.level → ∃ r, t.root = some r ∧ 2 ≤ (t.nodes r).length
  leaves : ∀ a ∈ t.leaves, (t.items a).length ≤ p.leafCount
  filled : 0 < t.level → ∀ a ∈ t.leaves, 1 ≤ (t.items a).length
  /-- The keys ascend. -/
  sorted : (t.leaves.flatMap t.items).Pairwise fun x y => p.key x < p.key y

/-- The pages below the root are those of the levels. -/
theorem Rep.pagesAt_eq (h : Rep p t lv) {d : Nat} (hd : d ≤ t.level) :
    t.pagesAt d = lv (t.level - d) := by
  induction d with
  | zero =>
    obtain ⟨r, hr, -, -, htop⟩ := h.top
    rw [if_neg (by omega)] at htop
    rw [Tree.pagesAt, hr, Nat.sub_zero, htop]
    rfl
  | succ d ih =>
    have hlt : t.level - (d + 1) < t.level := by omega
    rw [Tree.pagesAt, ih (by omega), ← h.kids_eq hlt,
      show t.level - (d + 1) + 1 = t.level - d by omega]

theorem Rep.leaves_eq (h : Rep p t lv) : t.leaves = lv 0 := by
  rw [Tree.leaves, h.pagesAt_eq (Nat.le_refl _), Nat.sub_self]

theorem Rep.wellFormed (h : Rep p t lv) : WellFormed p t := by
  have hpages : ∀ d < t.level, t.pagesAt d = lv (t.level - d - 1 + 1) := by
    intro d hd
    rw [h.pagesAt_eq hd.le, show t.level - d - 1 + 1 = t.level - d by omega]
  refine ⟨?_, ?_, ?_, ?_, ?_, ?_, ?_, ?_, ?_, ?_, ?_⟩
  · intro d hd
    rw [h.pagesAt_eq hd]
    exact ⟨h.links _ (by omega), h.nodup _⟩
  · intro d hd d' hd' a ha ha'
    rw [h.pagesAt_eq hd] at ha
    rw [h.pagesAt_eq hd'] at ha'
    have := h.apart _ _ a ha ha'
    omega
  · intro d hd a ha
    rw [h.pagesAt_eq hd] at ha
    exact h.live _ a ha
  · intro d hd a ha
    rw [hpages d hd] at ha
    rw [Body.nodeLevel_eq h (by omega : t.level - d - 1 < t.level) (by omega) ha]
    omega
  · intro d hd a ha c hc
    rw [hpages d hd] at ha
    exact (h.hangs (t.level - d - 1) (by omega) a ha c hc).1
  · intro r hr
    obtain ⟨r', hr', hparent, -, -⟩ := h.top
    obtain rfl : r = r' := Option.mem_unique hr hr'
    exact hparent
  · intro d hd a ha
    rw [hpages d hd] at ha
    exact h.counts (t.level - d - 1) (by omega) a ha
  · intro hpos
    obtain ⟨r, hr, -, hcount, -⟩ := h.top
    exact ⟨r, hr, (hcount (t.level - 1) (by omega)).2⟩
  · rw [h.leaves_eq]
    exact h.leaves
  · rw [h.leaves_eq]
    exact fun hpos a ha => length_pos_of_ne_nil (h.filled (.inl hpos) a ha)
  · rw [h.leaves_eq]
    exact h.sorted

theorem wellFormed_of_root_eq_none (hroot : t.root = none) (hlevel : t.level = 0) :
    WellFormed p t ∧ t.leaves.flatMap t.items = [] := by
  have hpages : t.pagesAt 0 = [] := by rw [Tree.pagesAt, hroot]; rfl
  have hleaves : t.leaves = [] := by rw [Tree.leaves, hlevel, hpages]
  have hnone : ∀ d ≤ t.level, t.pagesAt d = [] := by
    intro d hd
    rw [show d = 0 by omega, hpages]
  refine ⟨⟨?_, ?_, ?_, ?_, ?_, ?_, ?_, ?_, ?_, ?_, ?_⟩, by rw [hleaves]; rfl⟩
  · intro d hd
    rw [hnone d hd]
    exact ⟨trivial, nodup_nil⟩
  · intro d hd d' _ a ha
    simp [hnone d hd] at ha
  · intro d hd a ha
    simp [hnone d hd] at ha
  · omega
  · omega
  · simp [hroot]
  · omega
  · omega
  · simp [hleaves]
  · simp [hleaves]
  · simp [hleaves]

variable {items : List α}

theorem Holds.wellFormed (h : Holds p t items) :
    WellFormed p t ∧ t.leaves.flatMap t.items = items := by
  rcases h with ⟨hroot, hlevel, rfl⟩ | ⟨lv, hrep, rfl⟩
  · exact wellFormed_of_root_eq_none hroot hlevel
  · exact ⟨hrep.wellFormed, by rw [hrep.leaves_eq]; rfl⟩

def addItem (p : Template α κ) (item : α) (s : Set α) : Set α :=
  { x | x ∈ s ∨ x = item ∧ ∀ y ∈ s, p.key y ≠ p.key item }

/-- The trees that are made from the empty one by `add`, without failures and within the recovery
map, and by `fastRemove` at positions of items; with the items that were added and not removed. -/
inductive Reaches (p : Template α κ) : Tree α → Set α → Prop
  | empty : Reaches p Tree.empty ∅
  | add {t : Tree α} {s : Set α} (item : α) :
    Reaches p t s → (t.add p none item).1 ≠ .overrun →
      Reaches p (t.add p none item).2 (addItem p item s)
  | fastRemove {t : Tree α} {s : Set α} {curr : Addr} {curPos : Nat} {x : α} :
    Reaches p t s → curr ∈ t.leaves → (t.items curr)[curPos]? = some x →
      Reaches p (t.fastRemove p curr curPos).2 (s \ {x})

theorem Holds.add (h : Holds p t items) (hs : ∀ x, x ∈ items ↔ x ∈ s) (item : α) :
    ((∃ x ∈ s, p.key x = p.key item) ∧ ∃ leaf pos, t.add p none item = (.found leaf pos, t)) ∨
    (∀ x ∈ s, p.key x ≠ p.key item) ∧
      ((t.add p none item).1 = .overrun ∧ maxTreeLevel ≤ t.level ∨
      (t.add p none item).1 = .added ∧ (t.add p none item).2.level ≤ max t.level maxTreeLevel ∧
        ∃ items', Holds p (t.add p none item).2 items' ∧ ∀ x, x ∈ items' ↔ x ∈ s ∨ x = item) := by
  rcases add_holds h item with ⟨leaf, pos, heq, x, hx, hkey⟩ | ⟨hnew, hover⟩ |
    ⟨t', items', heq, hholds, hins, hle⟩
  · exact .inl ⟨⟨x, (hs x).1 hx, hkey⟩, leaf, pos, heq⟩
  · exact .inr ⟨fun x hx => hnew x ((hs x).2 hx), .inl hover⟩
  · refine .inr ⟨fun x hx => hins.new x ((hs x).2 hx), .inr ⟨by rw [heq], by rw [heq]; exact hle, _,
      by rw [heq]; exact hholds, fun x => ?_⟩⟩
    obtain ⟨before, after, rfl, rfl, -⟩ := hins
    rw [← hs x, mem_append, mem_append, mem_cons]
    tauto

theorem Holds.fastRemove {curr : Addr} {curPos : Nat} {x : α} (h : Holds p t items)
    (hs : ∀ x, x ∈ items ↔ x ∈ s) (hcurr : curr ∈ t.leaves)
    (hpos : (t.items curr)[curPos]? = some x) :
    ∃ items', Holds p (t.fastRemove p curr curPos).2 items' ∧ ∀ z, z ∈ items' ↔ z ∈ s \ {x} := by
  rcases h with ⟨hroot, hlevel, rfl⟩ | ⟨lv, hrep, rfl⟩
  · rw [Tree.leaves, hlevel, Tree.pagesAt, hroot] at hcurr
    simp at hcurr
  · rw [hrep.leaves_eq] at hcurr
    obtain ⟨A, B, hsplit⟩ := append_of_mem hcurr
    obtain ⟨low, high, hitems, rfl⟩ : ∃ low high, t.items curr = low ++ x :: high ∧
        low.length = curPos := by
      obtain ⟨hlt, hget⟩ := List.getElem?_eq_some_iff.1 hpos
      refine ⟨(t.items curr).take curPos, (t.items curr).drop (curPos + 1), ?_, ?_⟩
      · rw [← hget, ← drop_eq_getElem_cons hlt, take_append_drop]
      · rw [length_take]
        omega
    have hsorted := hrep.sorted
    have hall : (lv 0).flatMap t.items =
        (A.flatMap t.items ++ low) ++ x :: (high ++ B.flatMap t.items) := by
      rw [hsplit, flatMap_append, flatMap_cons, hitems]
      simp
    rw [hall, pairwise_append, pairwise_cons] at hsorted
    refine ⟨_, hrep.fastRemove_holds hsplit hitems, fun z => ?_⟩
    rw [Set.mem_sdiff, Set.mem_singleton_iff, ← hs z, allItems, hall]
    constructor
    · intro hz
      refine ⟨?_, ?_⟩
      · rw [mem_append] at hz ⊢
        tauto
      · rintro rfl
        rcases mem_append.1 hz with hz | hz
        · exact lt_irrefl _ (hsorted.2.2 z hz z (by simp))
        · exact lt_irrefl _ (hsorted.2.1.1 z hz)
    · rintro ⟨hz, hne⟩
      rw [mem_append, mem_cons] at hz
      rw [mem_append]
      tauto

theorem Reaches.holds (h : Reaches p t s) : ∃ items, Holds p t items ∧ ∀ x, x ∈ items ↔ x ∈ s := by
  induction h with
  | empty => exact ⟨[], .inl ⟨rfl, rfl, rfl⟩, by simp⟩
  | add item _ hwithin ih =>
    obtain ⟨items, hholds, hs⟩ := ih
    rcases hholds.add hs item with ⟨⟨x, hx, hkey⟩, leaf, pos, heq⟩ |
      ⟨hnew, ⟨hover, -⟩ | ⟨-, -, items', hholds', hs'⟩⟩
    · refine ⟨items, by rw [heq]; exact hholds, fun z => ?_⟩
      rw [hs z, addItem, Set.mem_ofPred_eq]
      refine ⟨.inl, ?_⟩
      rintro (hz | ⟨-, hnone⟩)
      · exact hz
      · exact absurd hkey (hnone x hx)
    · exact absurd hover hwithin
    · refine ⟨items', hholds', fun z => ?_⟩
      rw [hs' z, addItem, Set.mem_ofPred_eq]
      tauto
  | fastRemove _ hcurr hpos ih =>
    obtain ⟨items, hholds, hs⟩ := ih
    exact hholds.fastRemove hs hcurr hpos

/-- After any sequence of operations the pages are well-formed and hold the items that were added
and not removed. `add` refuses an item, and changes nothing, if and only if its key is there, and
stays within the recovery map of a tree that has fewer levels. -/
theorem reaches_wellFormed (h : Reaches p t s) :
    WellFormed p t ∧ (∀ x, x ∈ t.leaves.flatMap t.items ↔ x ∈ s) ∧
      ∀ item,
        ((∃ x ∈ s, p.key x = p.key item) ∧ ∃ leaf pos, t.add p none item = (.found leaf pos, t)) ∨
        (∀ x ∈ s, p.key x ≠ p.key item) ∧ ((t.add p none item).1 = .added ∨
          (t.add p none item).1 = .overrun ∧ maxTreeLevel ≤ t.level) := by
  obtain ⟨items, hholds, hs⟩ := h.holds
  obtain ⟨hwf, hitems⟩ := hholds.wellFormed
  refine ⟨hwf, by rw [hitems]; exact hs, fun item => ?_⟩
  rcases hholds.add hs item with hfound | ⟨hnew, hover | ⟨hadded, -⟩⟩
  · exact .inl hfound
  · exact .inr ⟨hnew, .inr hover⟩
  · exact .inr ⟨hnew, .inl hadded⟩

theorem length_flatMap_le {β γ : Type} {l : List β} {f : β → List γ} {n : Nat}
    (h : ∀ a ∈ l, (f a).length ≤ n) : (l.flatMap f).length ≤ l.length * n := by
  induction l with
  | nil => simp
  | cons a l ih =>
    have ha := h a (by simp)
    have hl := ih fun b hb => h b (by simp [hb])
    rw [flatMap_cons, length_append, length_cons, Nat.add_mul, Nat.one_mul]
    omega

theorem WellFormed.length_pagesAt (h : WellFormed p t) {d : Nat} (hd : d ≤ t.level) :
    (t.pagesAt d).length ≤ p.nodeCount ^ d := by
  induction d with
  | zero =>
    rw [Tree.pagesAt]
    cases t.root <;> simp
  | succ d ih =>
    rw [Tree.pagesAt, Nat.pow_succ]
    refine (length_flatMap_le fun a ha => (h.nodes d (by omega) a ha).2).trans ?_
    exact Nat.mul_le_mul_right _ (ih (by omega))

theorem WellFormed.length_items (h : WellFormed p t) :
    (t.leaves.flatMap t.items).length ≤ p.nodeCount ^ t.level * p.leafCount :=
  (length_flatMap_le h.leaves).trans (Nat.mul_le_mul_right _ (h.length_pagesAt (Nat.le_refl _)))

def addAll (p : Template α κ) (items : List α) : Tree α :=
  items.foldl (fun t item => (t.add p none item).2) Tree.empty

omit [LinearOrder κ] in
theorem addItem_new {item : α} (h : ∀ y ∈ s, p.key y ≠ p.key item) :
    addItem p item s = insert item s := by
  ext x
  simp only [addItem, Set.mem_ofPred_eq, Set.mem_insert_iff]
  tauto

theorem Reaches.level_add (h : Reaches p t s) {item : α}
    (hwithin : (t.add p none item).1 ≠ .overrun) (hle : t.level ≤ maxTreeLevel) :
    (t.add p none item).2.level ≤ maxTreeLevel := by
  obtain ⟨items, hholds, hs⟩ := h.holds
  rcases hholds.add hs item with ⟨-, leaf, pos, heq⟩ | ⟨-, ⟨hover, -⟩ | ⟨-, hlevel, -⟩⟩
  · rw [heq]
    exact hle
  · exact absurd hover hwithin
  · exact hlevel.trans (Nat.max_le.2 ⟨hle, Nat.le_refl _⟩)

def smallPages : Template Nat Nat :=
  ⟨⟨fun live => live.sup id + 1, fun live h => by
    have hle : live.sup id + 1 ≤ live.sup id := Finset.le_sup (f := id) h
    exact Nat.not_succ_le_self _ hle⟩, id, 2, 2, Nat.le_refl _, Nat.le_refl _⟩

theorem reaches_range {n : Nat}
    (hwithin : ∀ k < n, ((addAll smallPages (range k)).add smallPages none k).1 ≠ .overrun) :
    Reaches smallPages (addAll smallPages (range n)) (Set.Iio n) ∧
      (addAll smallPages (range n)).level ≤ maxTreeLevel := by
  induction n with
  | zero =>
    rw [range_zero, show (Set.Iio 0 : Set Nat) = ∅ by ext; simp]
    exact ⟨.empty, Nat.zero_le _⟩
  | succ n ih =>
    obtain ⟨hreaches, hle⟩ := ih fun k hk => hwithin k (by omega)
    have hadd := hwithin n (Nat.lt_succ_self n)
    have hset : addItem smallPages n (Set.Iio n) = Set.Iio (n + 1) := by
      have hnew : ∀ y ∈ Set.Iio n, smallPages.key y ≠ smallPages.key n := fun y hy =>
        Nat.ne_of_lt hy
      rw [addItem_new hnew]
      ext x
      simp only [Set.mem_insert_iff, Set.mem_Iio]
      omega
    rw [addAll, range_succ, foldl_append, foldl_cons, foldl_nil, ← addAll, ← hset]
    exact ⟨hreaches.add n hadd, hreaches.level_add hadd hle⟩

theorem range_within {n : Nat}
    (hwithin : ∀ k < n, ((addAll smallPages (range k)).add smallPages none k).1 ≠ .overrun) :
    n ≤ 2 ^ 31 := by
  obtain ⟨hreaches, hle⟩ := reaches_range hwithin
  obtain ⟨items, hholds, hs⟩ := hreaches.holds
  obtain ⟨hwf, hitems⟩ := hholds.wellFormed
  have hall : n ≤ items.length := by
    have hsub : range n ⊆ items := fun x hx => (hs x).2 (mem_range.1 hx)
    have := (subperm_of_subset nodup_range hsub).length_le
    rwa [length_range] at this
  calc n ≤ items.length := hall
    _ ≤ 2 ^ (addAll smallPages (range n)).level * 2 := hitems ▸ hwf.length_items
    _ ≤ 2 ^ maxTreeLevel * 2 := Nat.mul_le_mul_right 2 (Nat.pow_le_pow_right (by decide) hle)
    _ = 2 ^ 31 := rfl

/-- When the numbers up to `2 ^ 31` are added one after another, one of them is written behind the
recovery map: there is no room for them below the levels of the map. -/
theorem add_overruns : ∃ n ≤ 2 ^ 31,
    (∃ s, Reaches smallPages (addAll smallPages (range n)) s) ∧
      ((addAll smallPages (range n)).add smallPages none n).1 = .overrun := by
  by_contra hnone
  have hwithin : ∀ n, n ≤ 2 ^ 31 →
      ((addAll smallPages (range n)).add smallPages none n).1 ≠ .overrun := by
    intro n
    induction n using Nat.strong_induction_on with
    | _ n ih =>
      intro hn hover
      have hreaches := (reaches_range fun k hk => ih k hk (hk.le.trans hn)).1
      exact hnone ⟨n, hn, ⟨_, hreaches⟩, hover⟩
  have hle := range_within (n := 2 ^ 31 + 1) fun k hk => hwithin k (Nat.le_of_lt_succ hk)
  exact absurd hle (by decide)

/-- A tree of two levels above the items, on which pages have been split. -/
def splitTree : Tree Nat := addAll smallPages [1, 2, 3, 4, 5]

theorem splitTree_reaches : Reaches smallPages splitTree {5, 4, 3, 2, 1} := by
  have h₁ := (@Reaches.empty Nat Nat _ smallPages).add 1 (by decide +kernel)
  rw [addItem_new (by simp), insert_empty_eq] at h₁
  have h₂ := h₁.add 2 (by decide +kernel)
  rw [addItem_new (by simp [smallPages])] at h₂
  have h₃ := h₂.add 3 (by decide +kernel)
  rw [addItem_new (by simp [smallPages])] at h₃
  have h₄ := h₃.add 4 (by decide +kernel)
  rw [addItem_new (by simp [smallPages])] at h₄
  have h₅ := h₄.add 5 (by decide +kernel)
  rw [addItem_new (by simp [smallPages])] at h₅
  exact h₅

/-- Five numbers are added and two removed, so that pages of items and pages above them are split
and merged and the root comes and goes. -/
theorem reaches_wellFormed_smallPages :
    let t := ((splitTree.fastRemove smallPages 1 0).2.fastRemove smallPages 2 0).2
    splitTree.level = 2 ∧ t.level = 1 ∧ WellFormed smallPages t ∧
      ∀ x, x ∈ t.leaves.flatMap t.items ↔ x = 2 ∨ x = 4 ∨ x = 5 := by
  intro t
  have hfour : Reaches smallPages (splitTree.fastRemove smallPages 1 0).2
      ({5, 4, 3, 2, 1} \ {1}) :=
    splitTree_reaches.fastRemove (by decide +kernel) (by decide +kernel)
  have hthree : Reaches smallPages t (({5, 4, 3, 2, 1} \ {1}) \ {3}) :=
    hfour.fastRemove (by decide +kernel) (by decide +kernel)
  obtain ⟨hwf, hitems, -⟩ := reaches_wellFormed hthree
  refine ⟨by decide +kernel, by decide +kernel, hwf, fun x => (hitems x).trans ?_⟩
  simp only [Set.mem_sdiff, Set.mem_insert_iff, Set.mem_singleton_iff]
  omega

end Firebird.Common.Pages
