import Mathlib.Data.List.Chain
import Firebird.Lib.Links
import Firebird.Common.TreeFind

/-!
# What the pages of a tree represent

The pages of a level, in the order of their links, are the children of the pages of the level
above. In the middle of an operation the children of one level may differ from the pages of that
level: a new page is not a child yet, or a page that is taken out still is one.
-/
namespace Firebird.Common.Pages

open Lib Links List

variable {α κ : Type} [LinearOrder κ] {p : Template α κ} {t t' : Tree α} {lv : Nat → List Addr}
variable {l l₀ : Nat} {kid : List Addr} {a b c : Addr}

def Tree.under (t : Tree α) : Nat → Addr → List α
  | 0, a => t.items a
  | l + 1, a => (t.nodes a).flatMap (t.under l)

/-- A page of level `l` knows its parent and its level. -/
def Hangs (t : Tree α) (l : Nat) (c a : Addr) : Prop :=
  t.parent c = some a ∧ ∀ l', l = l' + 1 → t.nodeLevel c = l'

def Pairs (t : Tree α) (pages : List Addr) : Prop :=
  pages.IsChain fun a b => ¬((t.nodes a).length = 1 ∧ (t.nodes b).length = 1)

def NodeCount (p : Template α κ) (t : Tree α) (a : Addr) : Prop :=
  1 ≤ (t.nodes a).length ∧ (t.nodes a).length ≤ p.nodeCount

/-- The pages of the tree by levels, where `kid` are the children on level `l₀`. -/
structure Body (p : Template α κ) (t : Tree α) (lv : Nat → List Addr) (l₀ : Nat)
    (kid : List Addr) : Prop where
  links : ∀ l ≤ t.level, Linked t.next t.prev (lv l)
  kids : ∀ l < t.level, (lv (l + 1)).flatMap t.nodes = if l = l₀ then kid else lv l
  hangs : ∀ l < t.level, ∀ a ∈ lv (l + 1), ∀ c ∈ t.nodes a, Hangs t l c a
  counts : ∀ l < t.level, ∀ a ∈ lv (l + 1), NodeCount p t a
  pairs : ∀ l < t.level, Pairs t (lv (l + 1))
  top : ∃ r, t.root = some r ∧ t.parent r = none ∧
    (∀ l, t.level = l + 1 → t.nodeLevel r = l ∧ 2 ≤ (t.nodes r).length) ∧
    (if t.level = l₀ then kid else lv t.level) = [r]
  leaves : ∀ a ∈ lv 0, (t.items a).length ≤ p.leafCount
  filled : 0 < t.level ∨ 1 < (lv 0).length → ∀ a ∈ lv 0, t.items a ≠ []
  nodup : ∀ l, (lv l).Nodup
  apart : ∀ l l', ∀ a ∈ lv l, a ∈ lv l' → l = l'
  live : ∀ l, ∀ a ∈ lv l, a ∈ t.live
  above : ∀ l, t.level < l → lv l = []
  sorted : ((lv 0).flatMap t.items).Pairwise fun x y => p.key x < p.key y

def Rep (p : Template α κ) (t : Tree α) (lv : Nat → List Addr) : Prop :=
  Body p t lv (t.level + 1) []

theorem Body.rep (h : Body p t lv l₀ (lv l₀)) : Rep p t lv where
  links := h.links
  kids l hl := by
    rw [h.kids l hl, if_neg (by omega : ¬l = t.level + 1)]
    split_ifs with heq
    · rw [heq]
    · rfl
  hangs := h.hangs
  counts := h.counts
  pairs := h.pairs
  top := by
    obtain ⟨r, hr, hparent, hlevel, htop⟩ := h.top
    refine ⟨r, hr, hparent, hlevel, ?_⟩
    rw [if_neg (by omega : ¬t.level = t.level + 1)]
    split_ifs at htop with heq
    · rw [heq]
      exact htop
    · exact htop
  leaves := h.leaves
  filled := h.filled
  nodup := h.nodup
  apart := h.apart
  live := h.live
  above := h.above
  sorted := h.sorted

theorem Rep.kids_eq (h : Rep p t lv) (hl : l < t.level) :
    (lv (l + 1)).flatMap t.nodes = lv l := by
  rw [Body.kids h l hl, if_neg (by omega)]

theorem Body.kids_below (h : Body p t lv l₀ kid) (hlt : l < t.level) (hl : l < l₀) :
    (lv (l + 1)).flatMap t.nodes = lv l := by
  rw [h.kids l hlt, if_neg (by omega)]

theorem Body.under_eq (h : Body p t lv l₀ kid) (hl : l ≤ l₀) (hle : l ≤ t.level) :
    (lv l).flatMap (t.under l) = (lv 0).flatMap t.items := by
  induction l with
  | zero => rfl
  | succ l ih =>
    rw [← ih (by omega) (by omega), ← h.kids_below (by omega : l < t.level) (by omega),
      flatMap_assoc]
    rfl

theorem Body.generate_eq (h : Body p t lv l₀ kid) (hl : l ≤ l₀) (hle : l ≤ t.level)
    (hfilled : 0 < t.level ∨ 1 < (lv 0).length) (ha : a ∈ lv l) :
    t.generate l a = (t.under l a).head? ∧ t.under l a ≠ [] := by
  induction l generalizing a with
  | zero => exact ⟨rfl, h.filled hfilled a ha⟩
  | succ l ih =>
    have hcount := (h.counts l (by omega) a ha).1
    obtain ⟨c, rest, hnodes⟩ := exists_cons_of_length_pos (by omega : 0 < (t.nodes a).length)
    have hc : c ∈ lv l := by
      rw [← h.kids_below (by omega : l < t.level) (by omega)]
      exact mem_flatMap.2 ⟨a, ha, by simp [hnodes]⟩
    obtain ⟨hgen, hne⟩ := ih (by omega) (by omega) hc
    obtain ⟨x, items, hitems⟩ := exists_cons_of_ne_nil hne
    rw [Tree.generate, Tree.under, hnodes, head?_cons, Option.bind_some, hgen, flatMap_cons, hitems]
    exact ⟨rfl, by simp⟩

theorem Body.pairwise_under (h : Body p t lv l₀ kid) (hl : l ≤ l₀) (hle : l ≤ t.level) :
    (∀ a ∈ lv l, (t.under l a).Pairwise fun x y => p.key x < p.key y) ∧
      (lv l).Pairwise fun a b => ∀ x ∈ t.under l a, ∀ y ∈ t.under l b, p.key x < p.key y := by
  have hsorted := h.sorted
  rw [← h.under_eq hl hle] at hsorted
  exact pairwise_flatMap.1 hsorted

theorem Body.ascending (h : Body p t lv l₀ kid) (hl : l ≤ l₀) (hle : l ≤ t.level)
    (hfilled : 0 < t.level ∨ 1 < (lv 0).length) {pages : List Addr} (hsub : pages.Sublist (lv l)) :
    Ascending p (t.generate l) pages := by
  refine ⟨fun a ha => ?_, ?_⟩
  · obtain ⟨hgen, hne⟩ := h.generate_eq hl hle hfilled (hsub.subset ha)
    obtain ⟨x, items, hitems⟩ := exists_cons_of_ne_nil hne
    exact ⟨x, by rw [hgen, hitems, head?_cons]⟩
  · have hpair := (h.pairwise_under hl hle).2.sublist hsub
    refine hpair.imp_of_mem fun {a b} ha hb hab x hx y hy => ?_
    rw [Option.mem_def, (h.generate_eq hl hle hfilled (hsub.subset ha)).1] at hx
    rw [Option.mem_def, (h.generate_eq hl hle hfilled (hsub.subset hb)).1] at hy
    exact hab x (mem_of_head? hx) y (mem_of_head? hy)

theorem Body.generate_min (h : Body p t lv l₀ kid) (hl : l ≤ l₀) (hle : l ≤ t.level)
    (hfilled : 0 < t.level ∨ 1 < (lv 0).length) (ha : a ∈ lv l) :
    ∃ x, t.generate l a = some x ∧ x ∈ t.under l a ∧ ∀ y ∈ t.under l a, p.key x ≤ p.key y := by
  obtain ⟨hgen, hne⟩ := h.generate_eq hl hle hfilled ha
  obtain ⟨x, items, hitems⟩ := exists_cons_of_ne_nil hne
  have hsorted := (h.pairwise_under hl hle).1 a ha
  rw [hitems] at hgen hsorted ⊢
  refine ⟨x, hgen, by simp, fun y hy => ?_⟩
  rcases mem_cons.1 hy with rfl | hy
  · exact le_refl _
  · exact (rel_of_pairwise_cons hsorted hy).le

theorem Body.nodeLevel_eq (h : Body p t lv l₀ kid) (hlt : l < t.level) (hne : l + 1 ≠ l₀)
    (ha : a ∈ lv (l + 1)) : t.nodeLevel a = l := by
  by_cases heq : t.level = l + 1
  · obtain ⟨r, -, -, hr, htop⟩ := h.top
    rw [if_neg (by omega), heq] at htop
    rw [htop, mem_singleton] at ha
    rw [ha]
    exact (hr l heq).1
  · have hkids := h.kids (l + 1) (by omega)
    rw [if_neg hne] at hkids
    rw [← hkids] at ha
    obtain ⟨b, hb, hab⟩ := mem_flatMap.1 ha
    exact (h.hangs (l + 1) (by omega) b hb a hab).2 l rfl

/-- The page is where the key belongs: all items before are lower, and all items behind greater. -/
structure Place (p : Template α κ) (t : Tree α) (lv : Nat → List Addr) (k : κ) (l : Nat) (a : Addr)
    (A B : List Addr) : Prop where
  split : lv l = A ++ a :: B
  before : ∀ b ∈ A, ∀ x ∈ t.under l b, p.key x < k
  behind : ∀ b ∈ B, ∀ x ∈ t.under l b, k < p.key x

variable {A B : List Addr}

theorem pairwise_append_cons {R : Addr → Addr → Prop}
    (h : (A ++ a :: B).Pairwise R) : (∀ b ∈ A, R b a) ∧ ∀ b ∈ B, R a b := by
  rw [pairwise_append, pairwise_cons] at h
  exact ⟨fun b hb => h.2.2 b hb a (by simp), h.2.1.1⟩

theorem Rep.place_step (h : Rep p t lv) {k : κ} {K₁ K₂ : List Addr} (hlt : l < t.level)
    (hplace : Place p t lv k (l + 1) a A B) (hnodes : t.nodes a = K₁ ++ c :: K₂)
    (hbefore : ∀ b ∈ K₁, ∀ x ∈ t.under l b, p.key x < k)
    (hbehind : ∀ b ∈ K₂, ∀ x ∈ t.under l b, k < p.key x) :
    Place p t lv k l c (A.flatMap t.nodes ++ K₁) (K₂ ++ B.flatMap t.nodes) where
  split := by
    rw [← h.kids_eq hlt, hplace.split]
    simp [hnodes]
  before := by
    intro b hb x hx
    rcases mem_append.1 hb with hb | hb
    · obtain ⟨d, hd, hb⟩ := mem_flatMap.1 hb
      exact hplace.before d hd x (mem_flatMap.2 ⟨b, hb, hx⟩)
    · exact hbefore b hb x hx
  behind := by
    intro b hb x hx
    rcases mem_append.1 hb with hb | hb
    · exact hbehind b hb x hx
    · obtain ⟨d, hd, hb⟩ := mem_flatMap.1 hb
      exact hplace.behind d hd x (mem_flatMap.2 ⟨b, hb, hx⟩)

theorem Rep.place_child (h : Rep p t lv) {k : κ} (hlt : l < t.level)
    (hplace : Place p t lv k (l + 1) a A B) :
    let pos := if ¬(t.findNode p a k).1 ∧ (t.findNode p a k).2 > 0 then (t.findNode p a k).2 - 1
      else (t.findNode p a k).2
    ∃ A' B', Place p t lv k l ((t.nodes a).getD pos a) A' B' := by
  have hfilled : 0 < t.level ∨ 1 < (lv 0).length := .inl (by omega)
  have ha : a ∈ lv (l + 1) := by rw [hplace.split]; simp
  have hsub : (t.nodes a).Sublist (lv l) := by
    rw [← h.kids_eq hlt, hplace.split, flatMap_append, flatMap_cons]
    exact (sublist_append_left _ _).trans (sublist_append_right _ _)
  have hlevel : t.nodeLevel a = l := Body.nodeLevel_eq h hlt (by omega) ha
  have hasc : Ascending p (t.generate l) (t.nodes a) :=
    Body.ascending h (by omega) (by omega) hfilled hsub
  obtain ⟨K₁, K₂, hnodes, hK₁, hK₂, hpos, hfound⟩ := find_spec hasc k
  have hpair : (t.nodes a).Pairwise
      fun a b => ∀ x ∈ t.under l a, ∀ y ∈ t.under l b, p.key x < p.key y :=
    (Body.pairwise_under h (by omega : l ≤ t.level + 1) (by omega)).2.sublist hsub
  have hgen : ∀ b ∈ t.nodes a, ∃ x, t.generate l b = some x ∧ x ∈ t.under l b ∧
      ∀ y ∈ t.under l b, p.key x ≤ p.key y := fun b hb =>
    Body.generate_min h (by omega) (by omega) hfilled (hsub.subset hb)
  have hcount := (Body.counts h l hlt a ha).1
  rw [Tree.findNode, hlevel, hpos]
  by_cases hf : (find p (t.generate l) (t.nodes a) k).1 = true
  · -- The key is the one of a child.
    obtain ⟨c, hc, x, hx, hkey⟩ := hfound.1 hf
    obtain ⟨K, rfl⟩ : ∃ K, K₂ = c :: K := ⟨K₂.tail, eq_cons_of_mem_head? hc⟩
    have hget : (t.nodes a).getD K₁.length a = c := by
      rw [hnodes]
      simp
    rw [hnodes] at hpair
    obtain ⟨hbefore, hbehind⟩ := pairwise_append_cons hpair
    obtain ⟨x', hx', hxmem, -⟩ := hgen c (by simp [hnodes])
    obtain rfl : x = x' := Option.mem_unique hx hx'
    simp only [hf, not_true, false_and, if_false, hget]
    refine ⟨_, _, h.place_step hlt hplace hnodes ?_ ?_⟩
    · intro b hb y hy
      rw [← hkey]
      exact hbefore b hb y hy x hxmem
    · intro b hb y hy
      rw [← hkey]
      exact hbehind b hb x hxmem y hy
  · have hgreater : ∀ b ∈ K₂, ∀ x ∈ t.generate l b, k < p.key x := by
      intro b hb x hx
      refine lt_of_le_of_ne (hK₂ b hb x hx) ?_
      rintro rfl
      cases hK : K₂ with
      | nil => simp [hK] at hb
      | cons d K =>
        rw [hK] at hb hfound
        rcases mem_cons.1 hb with rfl | hb
        · exact hf (hfound.2 ⟨b, rfl, x, hx, rfl⟩)
        · obtain ⟨z, hz, -⟩ := hgen d (by simp [hnodes, hK])
          have hdb := hasc.2
          rw [hnodes, hK] at hdb
          have hlt' := (pairwise_append_cons hdb).2 b hb z hz x hx
          exact absurd (hK₂ d (by simp [hK]) z hz) (not_le.2 hlt')
    have hall : ∀ b ∈ K₂, ∀ y ∈ t.under l b, k < p.key y := by
      intro b hb y hy
      obtain ⟨x, hx, -, hmin⟩ := hgen b (by simp [hnodes, hb])
      exact lt_of_lt_of_le (hgreater b hb x hx) (hmin y hy)
    rcases eq_nil_or_concat K₁ with rfl | ⟨K, c, rfl⟩
    · obtain ⟨c, K, rfl⟩ : ∃ c K, K₂ = c :: K := by
        refine exists_cons_of_length_pos ?_
        rw [hnodes, nil_append] at hcount
        omega
      have hget : (t.nodes a).getD 0 a = c := by
        rw [hnodes]
        simp
      simp only [length_nil, lt_self_iff_false, and_false, if_false, hget]
      refine ⟨_, _, h.place_step hlt hplace hnodes (by simp) fun b hb => hall b (by simp [hb])⟩
    · rw [concat_eq_append] at hnodes hK₁ ⊢
      have hnodes' : t.nodes a = K ++ c :: K₂ := by simpa using hnodes
      have hget : (t.nodes a).getD K.length a = c := by
        rw [hnodes']
        simp
      simp only [hf, Bool.false_eq_true, not_false_iff, true_and, length_append, length_singleton,
        Nat.zero_lt_succ, if_true, Nat.add_sub_cancel, hget]
      refine ⟨_, _, h.place_step hlt hplace hnodes' ?_ hall⟩
      intro b hb y hy
      obtain ⟨x, hx, hxmem, -⟩ := hgen c (by simp [hnodes'])
      rw [hnodes'] at hpair
      exact lt_trans ((pairwise_append_cons hpair).1 b hb y hy x hxmem) (hK₁ c (by simp) x hx)

theorem Rep.findLeaf_place (h : Rep p t lv) {k : κ} (hle : l ≤ t.level)
    (hplace : Place p t lv k l a A B) :
    ∃ A' B', Place p t lv k 0 (t.findLeaf p k l a) A' B' := by
  induction l generalizing a A B with
  | zero => exact ⟨A, B, hplace⟩
  | succ l ih =>
    obtain ⟨A', B', hchild⟩ := h.place_child (by omega) hplace
    exact ih (by omega) hchild

structure Found (p : Template α κ) (t : Tree α) (lv : Nat → List Addr) (k : κ) (curr : Addr)
    (A B : List Addr) (low high : List α) : Prop where
  split : lv 0 = A ++ curr :: B
  items : t.items curr = low ++ high
  before : ∀ x ∈ A.flatMap t.items ++ low, p.key x < k
  behind : ∀ x ∈ high ++ B.flatMap t.items, k ≤ p.key x
  pos : (t.findItem p curr k).2 = low.length
  found : (t.findItem p curr k).1 = true ↔ ∃ x rest, high = x :: rest ∧ p.key x = k
  missed : (t.findItem p curr k).1 = false → ∀ x ∈ high ++ B.flatMap t.items, k < p.key x

theorem Rep.found (h : Rep p t lv) {r : Addr} (hroot : t.root = some r) (k : κ) :
    ∃ A B low high, Found p t lv k (t.findLeaf p k t.level r) A B low high := by
  obtain ⟨r', hr', -, -, htop⟩ := h.top
  rw [if_neg (by omega)] at htop
  obtain rfl : r = r' := Option.mem_unique hroot hr'
  obtain ⟨A, B, hplace⟩ := h.findLeaf_place (Nat.le_refl _)
    (show Place p t lv k t.level r [] [] from ⟨htop, by simp, by simp⟩)
  generalize t.findLeaf p k t.level r = curr at hplace ⊢
  have hsorted : (t.items curr).Pairwise fun x y => p.key x < p.key y :=
    (h.pairwise_under (Nat.zero_le _) (Nat.zero_le _)).1 curr (by rw [hplace.split]; simp)
  have hasc : Ascending p some (t.items curr) := by
    refine ⟨fun e _ => ⟨e, rfl⟩, hsorted.imp fun {a b} hab x hx y hy => ?_⟩
    cases hx
    cases hy
    exact hab
  obtain ⟨low, high, hitems, hlow, hhigh, hpos, hfound⟩ := find_spec hasc k
  have hB : ∀ x ∈ B.flatMap t.items, k < p.key x := by
    intro x hx
    obtain ⟨b, hb, hx⟩ := mem_flatMap.1 hx
    exact hplace.behind b hb x hx
  have hfirst : (find p some (t.items curr) k).1 = true ↔ ∃ x rest, high = x :: rest ∧
      p.key x = k := by
    rw [hfound]
    constructor
    · rintro ⟨e, he, x, hx, hkey⟩
      cases hx
      exact ⟨e, high.tail, eq_cons_of_mem_head? he, hkey⟩
    · rintro ⟨x, rest, rfl, hkey⟩
      exact ⟨x, rfl, x, rfl, hkey⟩
  refine ⟨A, B, low, high, hplace.split, hitems, ?_, ?_, hpos, hfirst, ?_⟩
  · intro x hx
    rcases mem_append.1 hx with hx | hx
    · obtain ⟨a, ha, hx⟩ := mem_flatMap.1 hx
      exact hplace.before a ha x hx
    · exact hlow x hx x rfl
  · intro x hx
    rcases mem_append.1 hx with hx | hx
    · exact hhigh x hx x rfl
    · exact (hB x hx).le
  · intro hmissed x hx
    rcases mem_append.1 hx with hx | hx
    · refine lt_of_le_of_ne (hhigh x hx x rfl) fun heq => ?_
      -- An item with the key would be the first one that is not lower.
      obtain ⟨e, rest, rfl⟩ := exists_cons_of_ne_nil (ne_nil_of_mem hx)
      rcases mem_cons.1 hx with rfl | hx
      · rw [Tree.findItem, hfirst.2 ⟨x, rest, rfl, heq.symm⟩] at hmissed
        cases hmissed
      · rw [hitems, pairwise_append] at hsorted
        have hlt := rel_of_pairwise_cons hsorted.2.1 hx
        exact absurd (hhigh e (by simp) e rfl) (not_le.2 (heq ▸ hlt))
    · exact hB x hx

end Firebird.Common.Pages
