import Firebird.Common.SparseMerge
import Firebird.Common.TreeAccessor

/-!
# Pages and the list of items

The tree on its pages does what the tree as a list of items does, from the empty tree on: one
operation after the other tells the same and leads to the same items and, when it tells that there
is an item, to the same position.
-/
namespace Firebird.Common.Pages

open Lib Links List

variable {α : Type} {p : Template α Nat} {t : Tree α} {lv : Nat → List Addr} {leaves : List Addr}
variable {pos : Position} {b : BePlusTree α} {before after : List α} {x : α}

/-- The accessor on the pages is at the item of the accessor on the list. -/
def Points (t : Tree α) (leaves : List Addr) (pos : Position) (b : BePlusTree α) : Prop :=
  At t leaves pos (b.items.take b.curPos) (b.items.drop b.curPos)

/-- Both tell the same, and lead to the same item if there is one. -/
def Agrees (t : Tree α) (leaves : List Addr) (r : Bool × Position) (r' : Bool × BePlusTree α) :
    Prop :=
  r.1 = r'.1 ∧ (r.1 = true → Points t leaves r.2 r'.2)

theorem At.points (h : At t leaves pos before after) :
    Points t leaves pos ⟨before ++ after, before.length⟩ := by
  rw [Points]
  simpa using h

theorem Points.split (h : Points t leaves pos b) :
    ∃ before x after, b = ⟨before ++ x :: after, before.length⟩ ∧
      At t leaves pos before (x :: after) := by
  obtain ⟨x, after, hdrop⟩ := exists_cons_of_ne_nil h.after_ne_nil
  have hlt : b.curPos < b.items.length := by
    by_contra hle
    rw [drop_eq_nil_of_le (Nat.not_lt.1 hle)] at hdrop
    cases hdrop
  rw [Points, hdrop] at h
  refine ⟨b.items.take b.curPos, x, after, ?_, h⟩
  rw [← hdrop, take_append_drop, length_take, Nat.min_eq_left hlt.le]

theorem Lands.agrees {r : Bool × Position} (h : Lands t leaves r before after) :
    Agrees t leaves r
      (before.length < (before ++ after).length, ⟨before ++ after, before.length⟩) := by
  rcases h with ⟨htrue, hat⟩ | ⟨hfalse, rfl⟩
  · have hne := length_pos_of_ne_nil hat.after_ne_nil
    exact ⟨by simpa [htrue] using hne, fun _ => hat.points⟩
  · simp [Agrees, hfalse]

theorem Backs.agrees {r : Bool × Position} (h : Backs t leaves r before after)
    (hitems : b.items = before ++ after) :
    Agrees t leaves r (if before.length = 0 then (false, b)
      else (true, { b with curPos := before.length - 1 })) := by
  rcases h with ⟨htrue, rest, y, rfl, hat⟩ | ⟨hfalse, rfl⟩
  · rw [append_assoc] at hitems
    have hpoints := hat.points
    rw [if_neg (by simp)]
    refine ⟨htrue, fun _ => ?_⟩
    simpa [Points, hitems] using hpoints
  · exact ⟨hfalse, fun htrue => by simp [hfalse] at htrue⟩

theorem Rep.locate_agrees (h : Rep p t lv) (hb : b.items = allItems t lv) (acc : Position)
    (lt : LocType) (k : Nat) :
    Agrees t (lv 0) (t.locate p acc lt k) (b.locate p.key lt k) := by
  obtain ⟨before, after, hall, hbefore, ⟨x, rest, rfl, rfl, hhits⟩ | ⟨hbehind, hmisses⟩⟩ :=
    h.locate_at acc lt k
  · rw [hall] at hb
    have hfind : Common.find p.key (before ++ x :: rest) (p.key x) = before.length :=
      Common.find_append hbefore (by simp)
    cases lt with
    | locLess => simpa [BePlusTree.locate, hb, hfind] using hhits.agrees hb
    | locGreat =>
      have hagrees := hhits.agrees
      rw [append_assoc, length_append, length_singleton] at hagrees
      simpa [BePlusTree.locate, hb, hfind] using hagrees
    | _ =>
      have hpoints := hhits.2.points
      simpa [BePlusTree.locate, hb, hfind, Agrees, hhits.1, Points] using hpoints
  · rw [hall] at hb
    have hfind : Common.find p.key (before ++ after) k = before.length :=
      Common.find_append hbefore fun y hy => (hbehind y (mem_of_mem_head? hy)).le
    have hkey : ((after.head?.map p.key) == some k) = false := by
      cases after with
      | nil => rfl
      | cons y after => simpa using (hbehind y (by simp)).ne'
    have hget : (before ++ after)[before.length]? = after.head? := by
      rw [getElem?_append_right (Nat.le_refl _), Nat.sub_self, head?_eq_getElem?]
    cases lt with
    | locEqual =>
      rw [Misses] at hmisses
      simp [BePlusTree.locate, hb, hfind, hget, hkey, Agrees, hmisses]
    | locLess => simpa [BePlusTree.locate, hb, hfind] using hmisses.agrees hb
    | locLessEqual =>
      simpa [BePlusTree.locate, hb, hfind, hget, hkey] using hmisses.agrees hb
    | locGreatEqual => simpa [BePlusTree.locate, hb, hfind] using hmisses.agrees
    | locGreat => simpa [BePlusTree.locate, hb, hfind, hget, hkey] using hmisses.agrees

theorem Rep.getNext_agrees (h : Rep p t lv) (hpoints : Points t (lv 0) pos b) :
    Agrees t (lv 0) (t.getNext pos) b.getNext := by
  obtain ⟨before, x, after, rfl, hat⟩ := hpoints.split
  have hagrees := (h.getNext_lands hat).1.agrees
  rw [append_assoc, length_append, length_singleton] at hagrees
  rw [BePlusTree.getNext]
  refine ⟨?_, fun htrue => ?_⟩
  · rw [hagrees.1]
    split_ifs with hlt <;> simpa using hlt
  · have hlt := hagrees.1.symm.trans htrue
    rw [if_pos (by simpa using hlt)]
    exact hagrees.2 htrue

theorem Rep.getPrev_agrees (h : Rep p t lv) (hpoints : Points t (lv 0) pos b) :
    Agrees t (lv 0) (t.getPrev pos) b.getPrev := by
  obtain ⟨before, x, after, rfl, hat⟩ := hpoints.split
  exact (h.getPrev_backs hat).1.agrees rfl

theorem Rep.fastRemove_agrees (h : Rep p t lv) (hpoints : Points t (lv 0) pos b) {curr : Addr}
    (hcurr : pos.curr = some curr) :
    ∃ lv', Rep p (t.fastRemove p curr pos.curPos).2 lv' ∧
      allItems (t.fastRemove p curr pos.curPos).2 lv' = b.fastRemove.2.items ∧
      Agrees (t.fastRemove p curr pos.curPos).2 (lv' 0) (t.fastRemove p curr pos.curPos).1
        b.fastRemove := by
  obtain ⟨before, x, after, rfl, hat⟩ := hpoints.split
  obtain ⟨A, curr', B, low, high, hsplit, rfl, hitems, hne, rfl, hrest⟩ := hat
  obtain rfl : curr' = curr := by simpa using hcurr
  obtain ⟨y, high, rfl⟩ := exists_cons_of_ne_nil hne
  obtain ⟨rfl, rfl⟩ := List.cons.inj hrest
  obtain ⟨leaves, ⟨lv', hrep', hleaves, -⟩, hall, hlands⟩ := h.fastRemove_takes hsplit hitems
  subst hleaves
  refine ⟨lv', hrep', ?_, ?_⟩
  · rw [BePlusTree.fastRemove, eraseIdx_append]
    exact hall
  · rw [BePlusTree.fastRemove, eraseIdx_append]
    exact hlands.agrees

theorem Holds.add_agrees (h : Holds p t b.items) (item : α)
    (hwithin : (t.add p none item).1 ≠ .overrun) :
    ((t.add p none item).1 = .added ↔ (b.add p.key item).1 = true) ∧
      Holds p (t.add p none item).2 (b.add p.key item).2.items := by
  rcases add_holds h item with ⟨leaf, place, heq, x, hx, hkey⟩ | ⟨-, hover, -⟩ |
    ⟨t', items', heq, hholds, ⟨before, after, hold, rfl, hbefore, hafter⟩, -⟩
  · obtain ⟨before, after, hsplit, hbefore, hafter⟩ := exists_split p.key b.items (p.key item)
    have hfind : Common.find p.key b.items (p.key item) = before.length := by
      rw [hsplit]
      exact Common.find_append hbefore hafter
    have hsorted := h.wellFormed.1.sorted
    rw [h.wellFormed.2, hsplit, pairwise_append] at hsorted
    -- the first item that is not less is the one with the key
    obtain ⟨y, rest, rfl⟩ : ∃ y rest, after = y :: rest := by
      refine exists_cons_of_ne_nil ?_
      rintro rfl
      rw [hsplit, append_nil] at hx
      exact absurd hkey (hbefore x hx).ne
    have hy : p.key y = p.key item := by
      refine le_antisymm ?_ (hafter y rfl)
      rw [hsplit, mem_append, mem_cons] at hx
      rcases hx with hx | rfl | hx
      · exact absurd hkey (hbefore x hx).ne
      · exact hkey.le
      · exact hkey ▸ ((pairwise_cons.1 hsorted.2.1).1 x hx).le
    have hadd : b.add p.key item = (false, { b with curPos := before.length }) := by
      have hget : b.items[before.length]? = some y := by simp [hsplit]
      simp [BePlusTree.add, hfind, hget, hy]
    rw [heq, hadd]
    exact ⟨by simp, h⟩
  · exact absurd hover hwithin
  · have hadd : BePlusTree.add p.key ⟨before ++ after, b.curPos⟩ item = _ :=
      Common.add_append hbefore fun y hy => hafter y (mem_of_mem_head? hy)
    rw [← hold] at hadd
    rw [heq, hadd]
    exact ⟨by simp, hholds⟩

/-- Step by step the pages simulate the list: what holds of the empty tree is kept by `add`, while
it stays within the recovery map, and by `fastRemove`; and the accessors go together. -/
theorem Holds.simulates (h : Holds p t b.items) :
    (∀ item, (t.add p none item).1 ≠ .overrun →
      ((t.add p none item).1 = .added ↔ (b.add p.key item).1 = true) ∧
        Holds p (t.add p none item).2 (b.add p.key item).2.items) ∧
    (∀ acc lt k, Agrees t t.leaves (t.locate p acc lt k) (b.locate p.key lt k)) ∧
    ∀ pos, Points t t.leaves pos b →
      Agrees t t.leaves (t.getNext pos) b.getNext ∧
      Agrees t t.leaves (t.getPrev pos) b.getPrev ∧
      ∀ curr ∈ pos.curr,
        Holds p (t.fastRemove p curr pos.curPos).2 b.fastRemove.2.items ∧
        Agrees (t.fastRemove p curr pos.curPos).2 (t.fastRemove p curr pos.curPos).2.leaves
          (t.fastRemove p curr pos.curPos).1 b.fastRemove := by
  refine ⟨fun item => h.add_agrees item, ?_⟩
  rcases h with ⟨hroot, hlevel, hnil⟩ | ⟨lv, hrep, hall⟩
  · -- there is no page
    have hleaves : t.leaves = [] := by rw [Tree.leaves, hlevel, Tree.pagesAt, hroot]; rfl
    refine ⟨fun acc lt k => ?_, fun pos hpoints => ?_⟩
    · rw [Tree.locate, hroot]
      cases lt <;> simp [Agrees, BePlusTree.locate, Common.find, hnil]
    · exact absurd (by simp [hnil]) hpoints.after_ne_nil
  · have hleaves := hrep.leaves_eq
    rw [hleaves]
    refine ⟨hrep.locate_agrees hall.symm, fun pos hpoints =>
      ⟨hrep.getNext_agrees hpoints, hrep.getPrev_agrees hpoints, fun curr hcurr => ?_⟩⟩
    obtain ⟨lv', hrep', hall', hagrees⟩ := hrep.fastRemove_agrees hpoints hcurr
    rw [hrep'.leaves_eq]
    exact ⟨.inr ⟨lv', hrep', hall'⟩, hagrees⟩

/-- The level of a tree and the number of entries of its root are a shape that its items can have:
what `bit_or` and `bit_and` compare by `seemsBiggerThan`. -/
theorem Holds.shaped {n : Nat} {p : Template (Bucket n) Nat} {t : Tree (Bucket n)}
    {items : List (Bucket n)} (h : Holds p t items) :
    SparseBitmap.Shaped ⟨t.level, t.root.map fun r =>
      if t.level = 0 then (t.items r).length else (t.nodes r).length⟩ items := by
  rcases h with ⟨hroot, hlevel, rfl⟩ | ⟨lv, hrep, rfl⟩
  · exact ⟨fun _ => by simp [hroot], fun hpos => by simp [hlevel] at hpos⟩
  · refine ⟨fun hzero => ?_, fun hpos => ?_⟩
    · have hleaves := hrep.leaves_eq
      simp only at hzero
      rw [Tree.leaves, hzero, Tree.pagesAt] at hleaves
      rw [allItems, ← hleaves]
      cases t.root with
      | none => rfl
      | some r => simp [hzero]
    · obtain ⟨r, hroot, -⟩ := hrep.top
      obtain ⟨A, B, low, high, hfound⟩ := hrep.found hroot 0
      have hleaf : t.findLeaf p 0 t.level r ∈ lv 0 := by simp [hfound.split]
      have hitems := hrep.filled (.inl hpos) _ hleaf
      rw [allItems, hfound.split, flatMap_append, flatMap_cons]
      simp [hitems]

end Firebird.Common.Pages
