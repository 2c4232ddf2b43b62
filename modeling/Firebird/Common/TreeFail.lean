import Firebird.Common.TreeRun

/-!
# Adding without memory

When an allocation fails, `add` takes back what it moved to new pages and gives these pages back. It
does not take them out of the links of their levels.
-/
namespace Firebird.Common.Pages

open List

variable {α κ : Type} [LinearOrder κ] {p : Template α κ} {t t' : Tree α} {s : Set α}

/-- The tree is as before: the same root and level, the same items and children on the same pages,
and links that lead to pages of the tree only. -/
structure Restored (t t' : Tree α) : Prop where
  level : t'.level = t.level
  root : t'.root = t.root
  pages : ∀ d ≤ t.level, ∀ a ∈ t.pagesAt d,
    t'.items a = t.items a ∧ t'.nodes a = t.nodes a ∧ t'.parent a = t.parent a
  next : ∀ d ≤ t.level, ∀ a ∈ t.pagesAt d, ∀ b ∈ t'.next a, b ∈ t.pagesAt d
  prev : ∀ d ≤ t.level, ∀ a ∈ t.pagesAt d, ∀ b ∈ t'.prev a, b ∈ t.pagesAt d

theorem WellFormed.restored (h : WellFormed p t) : Restored t t := by
  refine ⟨rfl, rfl, fun _ _ _ _ => ⟨rfl, rfl, rfl⟩, fun d hd a ha b hb => ?_, fun d hd a ha b hb =>
    ?_⟩
  · obtain ⟨A, B, hsplit⟩ := append_of_mem ha
    have hlinked := (h.links d hd).1
    rw [hsplit] at hlinked
    rw [hlinked.next_eq] at hb
    rw [hsplit]
    simp [mem_of_head? hb]
  · obtain ⟨A, B, hsplit⟩ := append_of_mem ha
    have hlinked := (h.links d hd).1
    rw [hsplit] at hlinked
    rw [hlinked.prev_eq] at hb
    rw [hsplit]
    simp [mem_of_getLast? hb]

theorem recover_next (newNode : Addr) (map : List (Option Nat)) :
    (t.recover newNode map).next = t.next := by
  induction map generalizing t newNode with
  | nil => rfl
  | cons entry map ih =>
    cases map with
    | nil =>
      cases entry with
      | none => rfl
      | some pos => cases hprev : t.prev newNode <;> simp [Tree.recover, hprev] <;> rfl
    | cons entry' map =>
      cases entry with
      | none => simp [Tree.recover, ih, Tree.deallocate]
      | some pos =>
        cases hprev : t.prev newNode <;>
          simp [Tree.recover, hprev, ih, Tree.deallocate, Tree.setNodes, Tree.setNodeParent]

/-- One of the pages `P` links to a page that is not among `L`. -/
def Dangles (P : List Addr) (L : Finset Addr) (t : Tree α) : Prop :=
  ∃ a ∈ P, ∃ b, t.next a = some b ∧ b ∉ L

theorem Dangles.congr {P : List Addr} {L : Finset Addr} (h : Dangles P L t)
    (hnext : t'.next = t.next) :
    Dangles P L t' := by
  obtain ⟨a, ha, b, hb, hout⟩ := h
  exact ⟨a, ha, b, by rw [hnext, hb], hout⟩

theorem allocateAfter_next (pool : Allocator) {x a : Addr} (ha : a ∈ t.live) :
    (t.allocateAfter pool x).2.next a =
      if a = x then some (pool.allocate t.live) else t.next a := by
  have hne : pool.allocate t.live ≠ a := fun heq => pool.fresh t.live (heq ▸ ha)
  simp only [Tree.allocateAfter, Tree.allocate, setNext_next, setPrev_next, Option.some.injEq]
  by_cases hax : a = x
  · rw [if_pos hax.symm, if_pos hax]
  · rw [if_neg (Ne.symm hax), if_neg hax, if_neg hne, Function.update_of_ne hne.symm]

theorem allocateAfter_live (pool : Allocator) (x : Addr) :
    (t.allocateAfter pool x).2.live = insert (pool.allocate t.live) t.live := by
  have hnext : ∀ (t : Tree α) a b, (t.setNext a b).live = t.live := by
    intro t a b
    cases a <;> rfl
  have hprev : ∀ (t : Tree α) a b, (t.setPrev a b).live = t.live := by
    intro t a b
    cases a <;> rfl
  simp [Tree.allocateAfter, Tree.allocate, hnext, hprev]

theorem Dangles.allocateAfter {P : List Addr} {L : Finset Addr} (pool : Allocator) (x : Addr)
    (h : Dangles P L t ∨ x ∈ P) (hP : ∀ a ∈ P, a ∈ L) (hL : L ⊆ t.live) :
    Dangles P L (t.allocateAfter pool x).2 := by
  have hnew : pool.allocate t.live ∉ L := fun hmem => pool.fresh t.live (hL hmem)
  by_cases hx : x ∈ P
  · exact ⟨x, hx, _, by rw [allocateAfter_next pool (hL (hP x hx)), if_pos rfl], hnew⟩
  · obtain ⟨a, ha, b, hb, hout⟩ := h.resolve_right hx
    refine ⟨a, ha, b, ?_, hout⟩
    rw [allocateAfter_next pool (hL (hP a ha)), if_neg ?_, hb]
    rintro rfl
    exact hx ha

/-- An `add` that fails leaves such a link. -/
def Fails (P : List Addr) (L : Finset Addr) (r : AddResult × Tree α) : Prop :=
  r.1 = .thrown → Dangles P L r.2

section

variable {P : List Addr} {L : Finset Addr} {room : Option Nat} {newNode : Addr} {curLevel : Nat}
variable {map : List (Option Nat)}

theorem Fails.added (t : Tree α) : Fails P L (.added, t) := fun h => by cases h

theorem growRoot_fails (h : Dangles P L t) : Fails P L (t.growRoot p room newNode map) := by
  rw [Tree.growRoot]
  split
  · exact Fails.added _
  · exact fun _ => h.congr (recover_next _ _)

theorem climb_fails {fuel : Nat} {nodeList : Option Addr} (h : Dangles P L t)
    (hP : ∀ a ∈ P, a ∈ L) (hL : L ⊆ t.live) :
    Fails P L (t.climb p fuel room newNode nodeList curLevel map) := by
  induction fuel generalizing t room newNode nodeList curLevel map with
  | zero =>
    cases nodeList with
    | none =>
      exact growRoot_fails h
    | some nodeList => exact fun _ => h
  | succ fuel ih =>
    cases nodeList with
    | none =>
      exact growRoot_fails h
    | some nodeList =>
      have hnew := Dangles.allocateAfter p.pool nodeList (.inl h) hP hL
      have hlive : L ⊆ (t.allocateAfter p.pool nodeList).2.live := by
        rw [allocateAfter_live]
        exact hL.trans (Finset.subset_insert _ _)
      rw [Tree.climb]
      simp only
      split
      · exact Fails.added _
      · split
        · split <;> exact Fails.added _
        · split <;> exact Fails.added _
        · split
          · exact fun _ => h.congr (recover_next _ _)
          · split
            · exact fun h => by cases h
            split
            · exact ih (hnew.congr (by simp [Tree.setNodes])) (by simpa [Tree.setNodes] using hlive)
            · exact ih (hnew.congr (by simp [Tree.setNodes, Tree.setNodeParent]))
                (by simpa [Tree.setNodes, Tree.setNodeParent] using hlive)

theorem addFrom_room_zero {root : Addr} {item : α}
    (hthrown : (t.addFrom p (some 0) root item).1 = .thrown) :
    (t.addFrom p (some 0) root item).2 = t := by
  revert hthrown
  rw [Tree.addFrom]
  simp only
  split
  · simp
  · split
    · simp
    · split
      · split <;> simp
      · split <;> simp
      · simp [takeRoom]

theorem addFrom_fails {n : Nat} {root : Addr} {item : α}
    (hleaf : t.findLeaf p (p.key item) t.level root ∈ P) (hP : ∀ a ∈ P, a ∈ L) (hL : L ⊆ t.live) :
    Fails P L (t.addFrom p (some (n + 1)) root item) := by
  have hnew := Dangles.allocateAfter (t := t) p.pool _ (.inr hleaf) hP hL
  have hlive : L ⊆ (t.allocateAfter p.pool (t.findLeaf p (p.key item) t.level root)).2.live := by
    rw [allocateAfter_live]
    exact hL.trans (Finset.subset_insert _ _)
  rw [Tree.addFrom]
  simp only
  split
  · exact fun h => by cases h
  · split
    · exact Fails.added _
    · split
      · split <;> exact Fails.added _
      · split <;> exact Fails.added _
      · simp only [takeRoom]
        split
        · exact climb_fails (hnew.congr rfl) hP hlive
        · exact climb_fails (hnew.congr rfl) hP hlive

end

theorem Rep.findLeaf_mem {lv : Nat → List Addr} {root : Addr} (h : Rep p t lv)
    (hroot : t.root = some root) (k : κ) : t.findLeaf p k t.level root ∈ t.leaves := by
  obtain ⟨r, hr, -, -, htop⟩ := h.top
  rw [if_neg (by omega)] at htop
  obtain rfl : root = r := Option.mem_unique hroot hr
  obtain ⟨A, B, hplace⟩ := h.findLeaf_place (k := k) (A := []) (B := []) (Nat.le_refl t.level)
    ⟨htop, by simp, by simp⟩
  rw [h.leaves_eq, hplace.split]
  simp

theorem add_first (hroot : t.root = none) (hlevel : t.level = 0) (n : Nat) (item : α) :
    (t.add p (some (n + 1)) item).1 = .added := by
  have htwo := p.two_le_leafCount
  rw [Tree.add, hroot]
  simp only [takeRoom]
  rw [Tree.addFrom]
  simp [Tree.allocate, hlevel, Tree.findLeaf, Tree.findItem, find, findLoop,
    show 0 < p.leafCount by omega]

/-- When an allocation of `add` fails, the tree is as before if and only if it was the first one. -/
theorem add_restored_iff (h : Reaches p t s) (n : Nat) (item : α)
    (hthrown : (t.add p (some n) item).1 = .thrown) :
    Restored t (t.add p (some n) item).2 ↔ n = 0 := by
  obtain ⟨items, hholds, -⟩ := h.holds
  have hwf := hholds.wellFormed.1
  cases n with
  | zero =>
    refine ⟨fun _ => rfl, fun _ => ?_⟩
    have hsame : (t.add p (some 0) item).2 = t := by
      rw [Tree.add] at hthrown ⊢
      split at hthrown
      · exact addFrom_room_zero hthrown
      · rfl
    rw [hsame]
    exact hwf.restored
  | succ n =>
    refine ⟨fun hrest => ?_, fun h => by omega⟩
    rcases hholds with ⟨hroot, hlevel, -⟩ | ⟨lv, hrep, -⟩
    · rw [add_first hroot hlevel] at hthrown
      cases hthrown
    · obtain ⟨r, hr, -⟩ := hrep.top
      have hlive : ∀ a ∈ t.leaves, a ∈ t.live := hwf.live t.level (Nat.le_refl _)
      have hadd : t.add p (some (n + 1)) item = t.addFrom p (some (n + 1)) r item := by
        rw [Tree.add, hr]
      rw [hadd] at hthrown hrest
      obtain ⟨a, ha, b, hb, hout⟩ := addFrom_fails (hrep.findLeaf_mem hr (p.key item)) hlive
        (Finset.Subset.refl _) hthrown
      exact (hout (hlive b (hrest.next t.level (Nat.le_refl _) a ha b hb))).elim

def fullPage : Tree Nat :=
  (Tree.add smallPages (Tree.add smallPages Tree.empty none 1).2 none 2).2

theorem fullPage_reaches : ∃ s, Reaches smallPages fullPage s :=
  ⟨_, .add 2 (.add 1 .empty (by decide)) (by decide)⟩

/-- The page of the third item is linked still, although it is given back. -/
theorem add_fullPage_not_restored :
    (∃ s, Reaches smallPages fullPage s) ∧
      (Tree.add smallPages fullPage (some 1) 3).1 = .thrown ∧
      ¬Restored fullPage (Tree.add smallPages fullPage (some 1) 3).2 := by
  refine ⟨fullPage_reaches, by decide, fun hrest => ?_⟩
  have hnext := hrest.next 0 (Nat.zero_le _) 1 (by decide) 2 (by decide)
  exact absurd hnext (by decide)

theorem add_restored_iff_fullPage :
    (Tree.add smallPages fullPage (some 0) 3).1 = .thrown ∧
      Restored fullPage (Tree.add smallPages fullPage (some 0) 3).2 := by
  have hthrown : (Tree.add smallPages fullPage (some 0) 3).1 = .thrown := by decide
  obtain ⟨s, hreaches⟩ := fullPage_reaches
  exact ⟨hthrown, (add_restored_iff hreaches 0 3 hthrown).2 rfl⟩

end Firebird.Common.Pages
