import Firebird.Common.TreeAdd

/-!
# The items of a tree

How the items are distributed over the pages does not matter, as long as they are in order and no
page has too many of them, or none.
-/
namespace Firebird.Common.Pages

open Lib Links List Function

variable {α κ : Type} [LinearOrder κ] {p : Template α κ} {t t' : Tree α} {lv : Nat → List Addr}
variable {A B M : List Addr} {leaf newLeaf : Addr} {item : α} {before after : List α}

def allItems (t : Tree α) (lv : Nat → List Addr) : List α := (lv 0).flatMap t.items

def Sorted (p : Template α κ) (items : List α) : Prop := items.Pairwise fun x y => p.key x < p.key y

theorem Sorted.insert (h : Sorted p (before ++ after))
    (hbefore : ∀ x ∈ before, p.key x < p.key item)
    (hafter : ∀ x ∈ after, p.key item < p.key x) : Sorted p (before ++ item :: after) := by
  rw [Sorted, pairwise_append] at h ⊢
  refine ⟨h.1, pairwise_cons.2 ⟨hafter, h.2.1⟩, fun x hx y hy => ?_⟩
  rcases mem_cons.1 hy with rfl | hy
  · exact hbefore x hx
  · exact h.2.2 x hx y hy

theorem Rep.setItems (h : Rep p t lv) {f : Addr → List α} {items : List α}
    (hsplit : lv 0 = A ++ M ++ B) (hsame : ∀ a, a ∉ M → f a = t.items a)
    (hitems : A.flatMap t.items ++ M.flatMap f ++ B.flatMap t.items = items)
    (hleaves : ∀ a ∈ M, (f a).length ≤ p.leafCount)
    (hfilled : 0 < t.level → ∀ a ∈ M, f a ≠ []) (hsorted : Sorted p items) :
    Rep p { t with items := f } lv ∧ allItems { t with items := f } lv = items := by
  have hnodup := h.nodup 0
  rw [hsplit] at hnodup
  have haround : ∀ a, a ∈ A ∨ a ∈ B → f a = t.items a := by
    intro a ha
    refine hsame a fun hm => ?_
    simp only [nodup_append, mem_append] at hnodup
    rcases ha with ha | ha
    · exact hnodup.1.2.2 a ha a hm rfl
    · exact hnodup.2.2 a (.inr hm) a ha rfl
  have hall : (lv 0).flatMap f = items := by
    rw [hsplit, flatMap_append, flatMap_append, flatMap_congr (fun a ha => haround a (.inl ha)),
      flatMap_congr (fun a ha => haround a (.inr ha)), hitems]
  have hmem : ∀ a ∈ lv 0, a ∈ M ∨ f a = t.items a := by
    intro a ha
    by_cases hm : a ∈ M
    · exact .inl hm
    · exact .inr (hsame a hm)
  -- A tree with more than one page of items has a level above.
  have hlevel : 0 < t.level ∨ 1 < (lv 0).length → 0 < t.level := by
    rintro (hpos | hlen)
    · exact hpos
    · by_contra hzero
      obtain ⟨r, -, -, -, htop⟩ := h.top
      rw [if_neg (by omega), show t.level = 0 by omega] at htop
      rw [htop] at hlen
      simp at hlen
  refine ⟨⟨by exact h.links, by exact h.kids, by exact h.hangs, by exact h.counts, by exact h.pairs,
    by exact h.top, ?_, ?_, h.nodup, h.apart, by exact h.live, by exact h.above, ?_⟩, hall⟩
  · intro a ha
    rcases hmem a ha with hm | heq
    · exact hleaves a hm
    · rw [show Tree.items _ a = t.items a from heq]
      exact h.leaves a ha
  · intro hpos a ha
    rcases hmem a ha with hm | heq
    · exact hfilled (hlevel hpos) a hm
    · rw [show Tree.items _ a = t.items a from heq]
      exact h.filled hpos a ha
  · exact hall ▸ hsorted

theorem Rep.splitLeaf (h : Rep p t lv) {f : Addr → List α} {items : List α} {t₁ : Tree α}
    (hsplit : lv 0 = A ++ leaf :: B) (halloc : Allocated t t₁ leaf newLeaf)
    (hsame : ∀ a, a ≠ leaf → a ≠ newLeaf → f a = t.items a)
    (hitems : A.flatMap t.items ++ (f leaf ++ f newLeaf) ++ B.flatMap t.items = items)
    (hleaf : (f leaf).length = p.leafCount) (hnew : (f newLeaf).length = 1)
    (hfull : (t.items leaf).length = p.leafCount) (hsorted : Sorted p items) :
    Pending p { t₁ with items := f } (update lv 0 (A ++ leaf :: newLeaf :: B)) 0 leaf
      newLeaf A B ∧
    allItems { t₁ with items := f } (update lv 0 (A ++ leaf :: newLeaf :: B)) = items := by
  have hfresh : ∀ l', newLeaf ∉ lv l' := fun l' hmem => halloc.fresh (h.live l' _ hmem)
  have hne : ∀ l', ∀ a ∈ lv l', a ≠ newLeaf := by
    rintro l' a hmem rfl
    exact hfresh l' hmem
  have hnodup := h.nodup 0
  rw [hsplit] at hnodup
  have hlinked := h.links 0 (Nat.zero_le _)
  rw [hsplit] at hlinked
  have htwo := p.two_le_leafCount
  have haround : ∀ a, a ∈ A ∨ a ∈ B → a ∈ lv 0 ∧ a ≠ leaf := by
    intro a ha
    rw [nodup_append, nodup_cons] at hnodup
    rw [hsplit]
    rcases ha with ha | ha
    · exact ⟨by simp [ha], hnodup.2.2 a ha leaf (by simp)⟩
    · refine ⟨by simp [ha], ?_⟩
      rintro rfl
      exact hnodup.2.1.1 ha
  have hsame' : ∀ a, a ∈ A ∨ a ∈ B → f a = t.items a :=
    fun a ha => hsame a (haround a ha).2 (hne 0 a (haround a ha).1)
  have hall : (A ++ leaf :: newLeaf :: B).flatMap f = items := by
    rw [flatMap_append, flatMap_cons, flatMap_cons, flatMap_congr (fun a ha => hsame' a (.inl ha)),
      flatMap_congr (fun a ha => hsame' a (.inr ha)), ← hitems]
    simp
  have hcases : ∀ a ∈ A ++ leaf :: newLeaf :: B, a = newLeaf ∨ a ∈ lv 0 := by
    intro a ha
    rw [hsplit]
    simp only [mem_append, mem_cons] at ha ⊢
    tauto
  have hlen : ∀ a ∈ A ++ leaf :: newLeaf :: B,
      0 < (f a).length ∧ (f a).length ≤ p.leafCount ∨ a ∈ lv 0 ∧ f a = t.items a := by
    intro a ha
    rcases hcases a ha with rfl | hmem
    · exact .inl (by omega)
    · by_cases hal : a = leaf
      · rw [hal]
        exact .inl (by omega)
      · exact .inr ⟨hmem, hsame a hal (hne 0 a hmem)⟩
  -- The full page has items, so that the others have some, too.
  have hold : ∀ a ∈ lv 0, t.items a ≠ [] := by
    intro a ha
    by_cases hpos : 0 < t.level ∨ 1 < (lv 0).length
    · exact h.filled hpos a ha
    · have hlen : (lv 0).length ≤ 1 := by omega
      rw [hsplit, length_append, length_cons] at hlen
      rw [hsplit] at ha
      obtain rfl : A = [] := eq_nil_of_length_eq_zero (by omega)
      obtain rfl : B = [] := eq_nil_of_length_eq_zero (by omega)
      obtain rfl : a = leaf := by simpa using ha
      intro hnil
      rw [hnil] at hfull
      omega
  have hlive : ∀ a ∈ lv 0, a ∈ t₁.live := fun a ha => by
    rw [halloc.live]
    exact Finset.mem_insert_of_mem (h.live 0 a ha)
  have hself : update lv 0 (A ++ leaf :: newLeaf :: B) 0 = A ++ leaf :: newLeaf :: B :=
    update_self ..
  have hbody := h.newLeaves { t₁ with items := f } (A ++ leaf :: newLeaf :: B)
    halloc.level halloc.root halloc.nodeLevel
    (fun l' a ha => by
      simp only [halloc.nodes, halloc.parent, update_of_ne (hne l' a ha), and_self])
    ?_ ?_ (halloc.linked hlinked (fun a ha => h.live 0 a (by rw [hsplit]; exact ha)) hnodup)
    ?_ ?_ ?_ ?_ (hall ▸ hsorted)
  · rw [hsplit] at hbody
    exact ⟨⟨hbody, hself, Nat.zero_le _⟩, by rw [allItems, hself]; exact hall⟩
  · intro l' hne' a ha
    refine halloc.next_of_not_mem hlinked (h.live l' a ha) ?_
    rw [← hsplit]
    exact fun ha' => hne' (h.apart l' 0 a ha ha')
  · intro l' _ a ha
    rw [halloc.live]
    exact Finset.mem_insert_of_mem (h.live l' a ha)
  · have happ : A ++ leaf :: newLeaf :: B = (A ++ [leaf]) ++ newLeaf :: B := by simp
    rw [happ, nodup_middle, nodup_cons, append_assoc, singleton_append]
    exact ⟨by rw [← hsplit]; exact hfresh 0, hnodup⟩
  · intro a ha
    rcases hcases a ha with rfl | hmem
    · exact ⟨by rw [halloc.live]; exact Finset.mem_insert_self .., fun l' _ => hfresh l'⟩
    · exact ⟨hlive a hmem, fun l' hne' ha' => hne' (h.apart l' 0 a ha' hmem)⟩
  · intro a ha
    rcases hlen a ha with hlen | ⟨hmem, heq⟩
    · exact hlen.2
    · rw [show Tree.items _ a = t.items a from heq]
      exact h.leaves a hmem
  · intro _ a ha
    rcases hlen a ha with hlen | ⟨hmem, heq⟩
    · exact ne_nil_of_length_pos hlen.1
    · rw [show Tree.items _ a = t.items a from heq]
      exact hold a hmem

/-- The page where an item belongs, with its items that are lower and greater. -/
structure Spot (p : Template α κ) (t : Tree α) (lv : Nat → List Addr) (item : α) (leaf : Addr)
    (A B : List Addr) (low high : List α) : Prop where
  split : lv 0 = A ++ leaf :: B
  items : t.items leaf = low ++ high
  before : ∀ x ∈ A.flatMap t.items ++ low, p.key x < p.key item
  behind : ∀ x ∈ high ++ B.flatMap t.items, p.key item < p.key x

variable {low high : List α}

theorem Spot.all (hs : Spot p t lv item leaf A B low high) :
    allItems t lv = (A.flatMap t.items ++ low) ++ (high ++ B.flatMap t.items) := by
  rw [allItems, hs.split, flatMap_append, flatMap_cons, hs.items]
  simp

theorem Spot.sorted (hs : Spot p t lv item leaf A B low high) (h : Rep p t lv) :
    Sorted p ((A.flatMap t.items ++ low) ++ item :: (high ++ B.flatMap t.items)) := by
  have hsorted := h.sorted
  rw [← allItems, hs.all] at hsorted
  exact Sorted.insert hsorted hs.before hs.behind

theorem Rep.spot (h : Rep p t lv) {r : Addr} (hroot : t.root = some r) (item : α) :
    let leaf := t.findLeaf p (p.key item) t.level r
    ((t.findItem p leaf (p.key item)).1 = true ∧ ∃ x ∈ allItems t lv, p.key x = p.key item) ∨
    ((t.findItem p leaf (p.key item)).1 = false ∧ ∃ A B low high,
      Spot p t lv item leaf A B low high ∧ (t.findItem p leaf (p.key item)).2 = low.length) := by
  obtain ⟨A, B, low, high, hf⟩ := h.found hroot (p.key item)
  cases hfound : (t.findItem p (t.findLeaf p (p.key item) t.level r) (p.key item)).1 with
  | true =>
    obtain ⟨x, rest, rfl, hkey⟩ := hf.found.1 hfound
    refine .inl ⟨hfound, x, ?_, hkey⟩
    rw [allItems, hf.split]
    refine mem_flatMap.2 ⟨t.findLeaf p (p.key item) t.level r, by simp, ?_⟩
    rw [hf.items]
    simp
  | false => exact .inr ⟨hfound, A, B, low, high, ⟨hf.split, hf.items, hf.before, hf.missed hfound⟩,
      hf.pos⟩

def Inserted (p : Template α κ) (item : α) (old new : List α) : Prop :=
  ∃ before after, old = before ++ after ∧ new = before ++ item :: after ∧
    (∀ x ∈ before, p.key x < p.key item) ∧ ∀ x ∈ after, p.key item < p.key x

theorem Spot.inserted (hs : Spot p t lv item leaf A B low high) :
    Inserted p item (allItems t lv)
      ((A.flatMap t.items ++ low) ++ item :: (high ++ B.flatMap t.items)) :=
  ⟨_, _, hs.all, rfl, hs.before, hs.behind⟩

theorem Spot.setItems (hs : Spot p t lv item leaf A B low high) (h : Rep p t lv)
    {f : Addr → List α} (A' M B' : List Addr) (hsplit : lv 0 = A' ++ M ++ B')
    (hsame : ∀ a, a ∉ M → f a = t.items a)
    (hitems : A'.flatMap t.items ++ M.flatMap f ++ B'.flatMap t.items =
      (A.flatMap t.items ++ low) ++ item :: (high ++ B.flatMap t.items))
    (hleaves : ∀ a ∈ M, (f a).length ≤ p.leafCount) (hfilled : ∀ a ∈ M, f a ≠ []) :
    Rep p { t with items := f } lv ∧
      Inserted p item (allItems t lv) (allItems { t with items := f } lv) := by
  obtain ⟨hrep, hall⟩ := h.setItems hsplit hsame hitems hleaves (fun _ => hfilled) (hs.sorted h)
  exact ⟨hrep, hall ▸ hs.inserted⟩

theorem Spot.here (hs : Spot p t lv item leaf A B low high) (h : Rep p t lv)
    (hroom : (t.items leaf).length < p.leafCount) :
    let t' := t.setItems leaf ((t.items leaf).insertIdx low.length item)
    Rep p t' lv ∧ Inserted p item (allItems t lv) (allItems t' lv) := by
  have hinsert : (t.items leaf).insertIdx low.length item = low ++ item :: high := by
    rw [hs.items, Common.insertIdx_append]
  rw [hs.items, length_append] at hroom
  refine hs.setItems h A [leaf] B (by rw [hs.split]; simp) ?_ ?_ ?_ ?_
  · intro a ha
    simp only [mem_singleton] at ha
    exact update_of_ne ha ..
  · simp [hinsert]
  · intro a ha
    obtain rfl := mem_singleton.1 ha
    rw [update_self, hinsert]
    simp only [length_append, length_cons]
    omega
  · intro a ha
    obtain rfl := mem_singleton.1 ha
    rw [update_self, hinsert]
    simp

theorem Spot.two (hs : Spot p t lv item leaf A B low high) (h : Rep p t lv) {f : Addr → List α}
    {A' B' : List Addr} {u₁ u₂ : Addr} (hsplit : lv 0 = A' ++ u₁ :: u₂ :: B')
    (hsame : ∀ a, a ≠ u₁ → a ≠ u₂ → f a = t.items a)
    (hitems : A'.flatMap t.items ++ (f u₁ ++ f u₂) ++ B'.flatMap t.items =
      (A.flatMap t.items ++ low) ++ item :: (high ++ B.flatMap t.items))
    (h₁ : (f u₁).length ≤ p.leafCount ∧ f u₁ ≠ []) (h₂ : (f u₂).length ≤ p.leafCount ∧ f u₂ ≠ []) :
    Rep p { t with items := f } lv ∧
      Inserted p item (allItems t lv) (allItems { t with items := f } lv) := by
  refine hs.setItems h A' [u₁, u₂] B' (by rw [hsplit]; simp) ?_ ?_ ?_ ?_
  · intro a ha
    simp only [mem_cons, not_mem_nil, or_false, not_or] at ha
    exact hsame a ha.1 ha.2
  · rw [← hitems]
    simp
  · intro a ha
    simp only [mem_cons, not_mem_nil, or_false] at ha
    rcases ha with rfl | rfl
    · exact h₁.1
    · exact h₂.1
  · intro a ha
    simp only [mem_cons, not_mem_nil, or_false] at ha
    rcases ha with rfl | rfl
    · exact h₁.2
    · exact h₂.2

theorem Spot.nil_of_full (hs : Spot p t lv item leaf A B low high)
    (hfull : (t.items leaf).length = p.leafCount) (hlast : low.length = p.leafCount) :
    high = [] := by
  rw [hs.items, length_append] at hfull
  exact eq_nil_of_length_eq_zero (by omega)

theorem Spot.exists_last (hs : Spot p t lv item leaf A B low high)
    (hfull : (t.items leaf).length = p.leafCount) (hlast : low.length ≠ p.leafCount) :
    ∃ rest z, high = rest ++ [z] ∧ (t.items leaf).drop (p.leafCount - 1) = [z] ∧
      ((t.items leaf).take (p.leafCount - 1)).insertIdx low.length item = low ++ item :: rest := by
  rcases eq_nil_or_concat high with rfl | ⟨rest, z, rfl⟩
  · rw [hs.items, append_nil] at hfull
    exact absurd hfull hlast
  · rw [concat_eq_append] at hs ⊢
    have happ : t.items leaf = (low ++ rest) ++ [z] := by rw [hs.items]; simp
    have hlen : p.leafCount - 1 = (low ++ rest).length := by
      rw [← hfull, happ]
      simp
    refine ⟨rest, z, rfl, ?_, ?_⟩
    · rw [hlen, happ, drop_left]
    · rw [hlen, happ, take_left, Common.insertIdx_append]

theorem Spot.next (hs : Spot p t lv item leaf A B low high) (h : Rep p t lv)
    (hfull : (t.items leaf).length = p.leafCount) {nx : Addr} (hnx : t.next leaf = some nx)
    (hroom : (t.items nx).length < p.leafCount) :
    let t' := if low.length = p.leafCount then t.setItems nx (item :: t.items nx)
      else (t.setItems nx ((t.items leaf).drop (p.leafCount - 1) ++ t.items nx)).setItems leaf
        (((t.items leaf).take (p.leafCount - 1)).insertIdx low.length item)
    Rep p t' lv ∧ Inserted p item (allItems t lv) (allItems t' lv) := by
  have hlinked := h.links 0 (Nat.zero_le _)
  rw [hs.split] at hlinked
  rw [hlinked.next_eq] at hnx
  obtain ⟨B, rfl⟩ : ∃ B', B = nx :: B' := ⟨B.tail, eq_cons_of_mem_head? hnx⟩
  have hne : leaf ≠ nx := by
    have hn := h.nodup 0
    rw [hs.split, nodup_append, nodup_cons] at hn
    rintro rfl
    exact hn.2.1.1 (by simp)
  split_ifs with hlast
  · obtain rfl := hs.nil_of_full hfull hlast
    refine hs.two h hs.split (fun a _ ha => update_of_ne ha ..) ?_ ?_ ?_
    · simp [hne, hs.items]
    · rw [update_of_ne hne]
      exact ⟨hfull.le, ne_nil_of_length_pos (by omega)⟩
    · rw [update_self, length_cons]
      exact ⟨by omega, by simp⟩
  · obtain ⟨rest, z, rfl, hdrop, htake⟩ := hs.exists_last hfull hlast
    rw [hdrop, htake]
    refine hs.two h hs.split (fun a ha ha' => ?_) ?_ ?_ ?_
    · simp [Tree.setItems, ha, ha']
    · simp [Tree.setItems, hne.symm]
    · simp only [update_self]
      rw [hs.items] at hfull
      simp only [length_append, length_cons] at hfull ⊢
      exact ⟨by omega, by simp⟩
    · simp only [Tree.setItems, update_of_ne hne.symm, update_self, singleton_append, length_cons]
      exact ⟨by omega, by simp⟩

theorem Spot.prev (hs : Spot p t lv item leaf A B low high) (h : Rep p t lv)
    (hfull : (t.items leaf).length = p.leafCount) {pv : Addr} (hpv : t.prev leaf = some pv)
    (hroom : (t.items pv).length < p.leafCount) :
    let t' := if low.length = 0 then t.setItems pv (t.items pv ++ [item])
      else (t.setItems pv (t.items pv ++ (t.items leaf).take 1)).setItems leaf
        (((t.items leaf).eraseIdx 0).insertIdx (low.length - 1) item)
    Rep p t' lv ∧ Inserted p item (allItems t lv) (allItems t' lv) := by
  have hlinked := h.links 0 (Nat.zero_le _)
  rw [hs.split] at hlinked
  rw [hlinked.prev_eq] at hpv
  obtain ⟨A, rfl⟩ := getLast?_eq_some_iff.1 hpv
  have hsplit : lv 0 = A ++ pv :: leaf :: B := by rw [hs.split]; simp
  have hne : pv ≠ leaf := by
    have hn := h.nodup 0
    rw [hsplit, nodup_append, nodup_cons] at hn
    rintro rfl
    exact hn.2.1.1 (by simp)
  split_ifs with hfirst
  · obtain rfl := eq_nil_of_length_eq_zero hfirst
    refine hs.two h hsplit (fun a ha _ => update_of_ne ha ..) ?_ ?_ ?_
    · simp [hne.symm, hs.items]
    · rw [update_self, length_append, length_singleton]
      exact ⟨by omega, by simp⟩
    · rw [update_of_ne hne.symm]
      exact ⟨hfull.le, ne_nil_of_length_pos (by omega)⟩
  · obtain ⟨z, low, rfl⟩ := exists_cons_of_length_pos (by omega : 0 < low.length)
    have htake : (t.items leaf).take 1 = [z] := by rw [hs.items]; simp
    have hinsert : ((t.items leaf).eraseIdx 0).insertIdx ((z :: low).length - 1) item =
        low ++ item :: high := by
      rw [hs.items]
      simp [Common.insertIdx_append]
    rw [htake, hinsert]
    refine hs.two h hsplit (fun a ha ha' => ?_) ?_ ?_ ?_
    · simp [Tree.setItems, ha, ha']
    · simp [Tree.setItems, hne]
    · simp only [Tree.setItems, update_of_ne hne, update_self, length_append, length_singleton]
      exact ⟨by omega, by simp⟩
    · simp only [update_self]
      rw [hs.items] at hfull
      simp only [length_append, length_cons] at hfull ⊢
      exact ⟨by omega, by simp⟩

theorem Spot.split_leaf (hs : Spot p t lv item leaf A B low high) (h : Rep p t lv)
    (hfull : (t.items leaf).length = p.leafCount) {t₁ : Tree α}
    (halloc : Allocated t t₁ leaf newLeaf) :
    let t' := if low.length = p.leafCount then t₁.setItems newLeaf [item]
      else (t₁.setItems newLeaf ((t₁.items leaf).drop (p.leafCount - 1))).setItems leaf
        (((t₁.items leaf).take (p.leafCount - 1)).insertIdx low.length item)
    Pending p t' (update lv 0 (A ++ leaf :: newLeaf :: B)) 0 leaf newLeaf A B ∧
      Inserted p item (allItems t lv)
        (allItems t' (update lv 0 (A ++ leaf :: newLeaf :: B))) := by
  have hne : leaf ≠ newLeaf := by
    rintro rfl
    exact halloc.fresh (h.live 0 leaf (by rw [hs.split]; simp))
  have hitems₁ : t₁.items leaf = t.items leaf := by
    rw [halloc.items, update_of_ne hne]
  simp only [hitems₁]
  split_ifs with hlast
  · obtain rfl := hs.nil_of_full hfull hlast
    obtain ⟨hpending, hall⟩ := h.splitLeaf (f := update t₁.items newLeaf [item]) hs.split
      halloc (fun a _ ha => by simp [ha, halloc.items])
      (show _ = (A.flatMap t.items ++ low) ++ item :: ([] ++ B.flatMap t.items) by
        simp [hne, hitems₁, hs.items]) (by simp [hne, hitems₁, hfull]) (by simp) hfull (hs.sorted h)
    exact ⟨hpending, hall ▸ hs.inserted⟩
  · obtain ⟨rest, z, rfl, hdrop, htake⟩ := hs.exists_last hfull hlast
    rw [hdrop, htake]
    obtain ⟨hpending, hall⟩ := h.splitLeaf
      (f := update (update t₁.items newLeaf [z]) leaf (low ++ item :: rest))
        hs.split
      halloc (fun a ha ha' => by simp [ha, ha', halloc.items])
      (show _ = (A.flatMap t.items ++ low) ++ item :: (rest ++ [z] ++ B.flatMap t.items) by
        simp [hne.symm]) (by rw [← hfull, hs.items]; simp) (by simp [hne.symm]) hfull (hs.sorted h)
    exact ⟨hpending, hall ▸ hs.inserted⟩

/-- The item is new, and `add` has inserted it unless the tree has too many levels. -/
def Adds (p : Template α κ) (item : α) (old : List α) (t : Tree α) (r : AddResult × Tree α) :
    Prop :=
  (∀ x ∈ old, p.key x ≠ p.key item) ∧ r.1 = .overrun ∧ maxTreeLevel ≤ t.level ∨
    ∃ t' lv', r = (.added, t') ∧ Rep p t' lv' ∧ Inserted p item old (allItems t' lv') ∧
      t'.level ≤ max t.level maxTreeLevel

theorem Inserted.new {old new : List α} {item : α} (h : Inserted p item old new) :
    ∀ x ∈ old, p.key x ≠ p.key item := by
  obtain ⟨before, after, rfl, -, hbefore, hafter⟩ := h
  intro x hx
  rcases mem_append.1 hx with hx | hx
  · exact (hbefore x hx).ne
  · exact (hafter x hx).ne'

theorem Rep.adds {item : α} {old : List α} (h : Rep p t' lv)
    (hins : Inserted p item old (allItems t' lv)) (hlevel : t'.level = t.level) :
    Adds p item old t (.added, t') :=
  .inr ⟨t', lv, rfl, h, hins, by rw [hlevel]; exact Nat.le_max_left ..⟩

theorem Climbed.adds {item : α} {old : List α} {r : AddResult × Tree α} (h : Climbed p t' lv r)
    (hins : Inserted p item old (allItems t' lv)) (hlevel : t'.level = t.level) :
    Adds p item old t r := by
  rw [Climbed, hlevel] at h
  rcases h with hover | ⟨t'', lv', heq, hrep, hzero, hitems, hle⟩
  · exact .inl ⟨hins.new, hover⟩
  · refine .inr ⟨t'', lv', heq, hrep, ?_, hle⟩
    rwa [show allItems t'' lv' = _ from (congrArg _ hzero).trans (flatMap_congr hitems)]

theorem Rep.addFrom_adds (h : Rep p t lv) {r : Addr} (hroot : t.root = some r) (item : α) :
    (∃ leaf pos, t.addFrom p none r item = (.found leaf pos, t) ∧
      ∃ x ∈ allItems t lv, p.key x = p.key item) ∨
    Adds p item (allItems t lv) t (t.addFrom p none r item) := by
  rw [Tree.addFrom]
  rcases h.spot hroot item with ⟨hfound, hmem⟩ | ⟨hfound, A, B, low, high, hs, hpos⟩
  · simp only [hfound]
    exact .inl ⟨_, _, rfl, hmem⟩
  generalize t.findLeaf p (p.key item) t.level r = leaf at hfound hs hpos ⊢
  have hleaf : leaf ∈ lv 0 := by rw [hs.split]; simp
  have hlinked := h.links 0 (Nat.zero_le _)
  rw [hs.split] at hlinked
  simp only [hfound, hpos, Bool.false_eq_true, if_false]
  right
  by_cases hroom : (t.items leaf).length < p.leafCount
  · rw [if_pos hroom]
    obtain ⟨hrep, hins⟩ := hs.here h hroom
    exact hrep.adds hins rfl
  have hfull : (t.items leaf).length = p.leafCount := by
    have := h.leaves leaf hleaf
    omega
  cases hnx : (t.next leaf).filter (fun temp => decide ((t.items temp).length < p.leafCount)) with
  | some nx =>
    obtain ⟨hnx, hlt⟩ := Option.filter_eq_some_iff.1 hnx
    simp only [decide_eq_true_eq] at hlt
    obtain ⟨hrep, hins⟩ := hs.next h hfull hnx hlt
    have hne : leaf ≠ nx := by
      rw [hlinked.next_eq] at hnx
      have hn := h.nodup 0
      rw [hs.split, nodup_append, nodup_cons] at hn
      rintro rfl
      exact hn.2.1.1 (mem_of_head? hnx)
    dsimp only at hrep hins ⊢
    split_ifs at hrep hins ⊢ with hlast
    · exact hrep.adds hins rfl
    · have hitems : (t.setItems nx ((t.items leaf).drop (p.leafCount - 1) ++ t.items nx)).items
          leaf = t.items leaf := by simp [Tree.setItems, hne]
      rw [hitems]
      exact hrep.adds hins rfl
  | none =>
    cases hpv : (t.prev leaf).filter (fun temp => decide ((t.items temp).length < p.leafCount)) with
    | some pv =>
      obtain ⟨hpv, hlt⟩ := Option.filter_eq_some_iff.1 hpv
      simp only [decide_eq_true_eq] at hlt
      obtain ⟨hrep, hins⟩ := hs.prev h hfull hpv hlt
      have hne : leaf ≠ pv := by
        rw [hlinked.prev_eq] at hpv
        have hn := h.nodup 0
        rw [hs.split, nodup_append] at hn
        exact (hn.2.2 pv (mem_of_getLast? hpv) leaf (by simp)).symm
      dsimp only at hrep hins ⊢
      split_ifs at hrep hins ⊢ with hfirst
      · exact hrep.adds hins rfl
      · have hitems : (t.setItems pv (t.items pv ++ (t.items leaf).take 1)).items leaf =
            t.items leaf := by simp [Tree.setItems, hne]
        rw [hitems]
        exact hrep.adds hins rfl
    | none =>
      simp only [takeRoom]
      have halloc := allocateAfter_allocated p.pool (h.live 0 leaf hleaf) fun b hb => by
        rw [hlinked.next_eq] at hb
        exact h.live 0 b (by rw [hs.split]; simp [mem_of_head? hb])
      generalize t.allocateAfter p.pool leaf = r at halloc ⊢
      obtain ⟨newLeaf, t₁⟩ := r
      obtain ⟨hpending, hins⟩ := hs.split_leaf h hfull halloc
      have hne : leaf ≠ newLeaf := by
        rintro rfl
        exact halloc.fresh (h.live 0 leaf hleaf)
      have hmap : 0 < maxTreeLevel := by decide
      dsimp only
      split_ifs at hpending hins ⊢ with hlast
      · exact (hpending.climb (Nat.lt_succ_self t₁.level) hmap [none]).adds hins halloc.level
      · have hitems : (t₁.setItems newLeaf ((t₁.items leaf).drop (p.leafCount - 1))).items leaf =
            t₁.items leaf := by simp [Tree.setItems, hne]
        rw [hitems]
        exact (hpending.climb (Nat.lt_succ_self t₁.level) hmap [some low.length]).adds hins
          halloc.level

theorem rep_first (hlevel : t.level = 0) (t' : Tree α) {a : Addr} (hlevel' : t'.level = t.level)
    (hroot : t'.root = some a) (hitems : t'.items a = []) (hparent : t'.parent a = none)
    (hnext : t'.next a = none) (hprev : t'.prev a = none) (hlive : a ∈ t'.live) :
    Rep p t' (fun l => if l = 0 then [a] else []) ∧
      allItems t' (fun l => if l = 0 then [a] else []) = [] := by
  have hzero : t'.level = 0 := by rw [hlevel', hlevel]
  refine ⟨⟨?_, ?_, ?_, ?_, ?_, ?_, ?_, ?_, ?_, ?_, ?_, ?_, ?_⟩, by simp [allItems, hitems]⟩
  · intro l hl
    rw [if_pos (by omega)]
    exact ⟨hprev, hnext, trivial⟩
  · intro l hl
    omega
  · intro l hl
    omega
  · intro l hl
    omega
  · intro l hl
    omega
  · exact ⟨a, hroot, hparent, fun l hl => by omega, by simp [hzero]⟩
  · simp [hitems]
  · intro hpos
    rw [hzero] at hpos
    simp at hpos
  · intro l
    by_cases hl : l = 0 <;> simp [hl]
  · intro l l' b hb hb'
    by_cases hl : l = 0 <;> by_cases hl' : l' = 0 <;> simp [hl, hl'] at hb hb' ⊢
  · intro l b hb
    by_cases hl : l = 0
    · rw [if_pos hl, mem_singleton] at hb
      rw [hb]
      exact hlive
    · simp [hl] at hb
  · intro l hl
    rw [if_neg (by omega)]
  · simp [hitems]

/-- The tree at any time: it has no page yet, or its pages represent their items. -/
def Holds (p : Template α κ) (t : Tree α) (items : List α) : Prop :=
  t.root = none ∧ t.level = 0 ∧ items = [] ∨ ∃ lv, Rep p t lv ∧ allItems t lv = items

theorem add_holds {items : List α} (h : Holds p t items) (item : α) :
    (∃ leaf pos, t.add p none item = (.found leaf pos, t) ∧ ∃ x ∈ items, p.key x = p.key item) ∨
    ((∀ x ∈ items, p.key x ≠ p.key item) ∧ (t.add p none item).1 = .overrun ∧
      maxTreeLevel ≤ t.level) ∨
    ∃ t' items', t.add p none item = (.added, t') ∧ Holds p t' items' ∧
      Inserted p item items items' ∧ t'.level ≤ max t.level maxTreeLevel := by
  rcases h with ⟨hroot, hlevel, rfl⟩ | ⟨lv, hrep, rfl⟩
  · rw [Tree.add, hroot]
    obtain ⟨hrep, hall⟩ := @rep_first _ _ _ p _ hlevel
      { (t.allocate p.pool).2 with root := some (t.allocate p.pool).1 } _ rfl rfl
      (by simp [Tree.allocate]) (by simp [Tree.allocate]) (by simp [Tree.allocate])
      (by simp [Tree.allocate]) (by simp [Tree.allocate])
    have hadds := hrep.addFrom_adds rfl item
    rw [hall] at hadds
    rcases hadds with ⟨leaf, pos, -, x, hx, -⟩ | hover | ⟨t', lv', heq, hrep', hins, hle⟩
    · simp at hx
    · exact .inr (.inl hover)
    · exact .inr (.inr ⟨t', _, heq, .inr ⟨lv', hrep', rfl⟩, hins, hle⟩)
  · obtain ⟨r, hr, -⟩ := hrep.top
    rw [Tree.add, hr]
    rcases hrep.addFrom_adds hr item with hfound | hover | ⟨t', lv', heq, hrep', hins, hle⟩
    · exact .inl hfound
    · exact .inr (.inl hover)
    · exact .inr (.inr ⟨t', _, heq, .inr ⟨lv', hrep', rfl⟩, hins, hle⟩)

end Firebird.Common.Pages
