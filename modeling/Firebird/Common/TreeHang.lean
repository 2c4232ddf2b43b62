import Firebird.Common.TreeRep

/-!
# Hanging the pages of a level anew

A step of `add` or `_removePage` changes the children of a few neighbours on one level, and with
this it moves from that level to the one above.
-/
namespace Firebird.Common.Pages

open Lib Links List Function

variable {α κ : Type} [LinearOrder κ] {p : Template α κ} {t t' : Tree α} {lv : Nat → List Addr}
variable {l : Nat} {kid L A B M M' : List Addr} {a b c : Addr}

section Level

variable {k : Nat} {L : List Addr}

theorem update_nodup (hnodup : ∀ l, (lv l).Nodup) (hL : L.Nodup) (l : Nat) :
    (update lv k L l).Nodup := by
  rw [update_apply]
  split_ifs
  · exact hL
  · exact hnodup l

theorem update_apart (hapart : ∀ l l', ∀ a ∈ lv l, a ∈ lv l' → l = l')
    (hL : ∀ a ∈ L, ∀ l ≠ k, a ∉ lv l) :
    ∀ l l', ∀ a ∈ update lv k L l, a ∈ update lv k L l' → l = l' := by
  intro l l' a ha ha'
  rw [update_apply] at ha ha'
  split_ifs at ha ha' with heq heq'
  · rw [heq, heq']
  · exact absurd ha' (hL a ha l' heq')
  · exact absurd ha (hL a ha' l heq)
  · exact hapart l l' a ha ha'

theorem update_live {S : Finset Addr} (hlive : ∀ l ≠ k, ∀ a ∈ lv l, a ∈ S) (hL : ∀ a ∈ L, a ∈ S)
    (l : Nat) : ∀ a ∈ update lv k L l, a ∈ S := by
  intro a ha
  rw [update_apply] at ha
  split_ifs at ha with heq
  · exact hL a ha
  · exact hlive l heq a ha

end Level

theorem Rep.newLeaves (h : Rep p t lv) (t' : Tree α) (L : List Addr)
    (hlevel : t'.level = t.level) (hroot : t'.root = t.root) (hlevels : t'.nodeLevel = t.nodeLevel)
    (hsame : ∀ l, ∀ a ∈ lv l, t'.nodes a = t.nodes a ∧ t'.parent a = t.parent a)
    (hnext : ∀ l ≠ 0, ∀ a ∈ lv l, t'.next a = t.next a ∧ t'.prev a = t.prev a)
    (hlive : ∀ l ≠ 0, ∀ a ∈ lv l, a ∈ t'.live) (hlinks : Linked t'.next t'.prev L)
    (hnodup : L.Nodup) (hL : ∀ a ∈ L, a ∈ t'.live ∧ ∀ l ≠ 0, a ∉ lv l)
    (hleaves : ∀ a ∈ L, (t'.items a).length ≤ p.leafCount)
    (hfilled : 0 < t.level ∨ 1 < L.length → ∀ a ∈ L, t'.items a ≠ [])
    (hsorted : (L.flatMap t'.items).Pairwise fun x y => p.key x < p.key y) :
    Body p t' (update lv 0 L) 0 (lv 0) := by
  have hself : update lv 0 L 0 = L := update_self ..
  have hother : ∀ l ≠ 0, update lv 0 L l = lv l := fun l hne => update_of_ne hne ..
  have hnodes : ∀ l, ∀ a ∈ lv l, t'.nodes a = t.nodes a := fun l a ha => (hsame l a ha).1
  refine ⟨?_, ?_, ?_, ?_, ?_, ?_, by rwa [hself], by rwa [hself, hlevel],
    update_nodup h.nodup hnodup, update_apart h.apart fun a ha => (hL a ha).2,
    update_live hlive fun a ha => (hL a ha).1, ?_, by rwa [hself]⟩
  · intro l hl
    rw [hlevel] at hl
    by_cases heq : l = 0
    · rw [heq, hself]
      exact hlinks
    · rw [hother l heq]
      exact (h.links l hl).congr (fun a ha => (hnext l heq a ha).1)
        fun a ha => (hnext l heq a ha).2
  · intro l hl
    rw [hlevel] at hl
    rw [hother (l + 1) (by omega), flatMap_congr (hnodes (l + 1)), h.kids_eq hl]
    split_ifs with heq
    · rw [heq]
    · rw [hother l heq]
  · intro l hl a ha c hc
    rw [hlevel] at hl
    rw [hother (l + 1) (by omega)] at ha
    rw [hnodes (l + 1) a ha] at hc
    have hh := h.hangs l hl a ha c hc
    have hmem : c ∈ lv l := by
      rw [← h.kids_eq hl]
      exact mem_flatMap.2 ⟨a, ha, hc⟩
    exact ⟨(hsame l c hmem).2.trans hh.1, by rw [hlevels]; exact hh.2⟩
  · intro l hl a ha
    rw [hlevel] at hl
    rw [hother (l + 1) (by omega)] at ha
    rw [NodeCount, hnodes (l + 1) a ha]
    exact h.counts l hl a ha
  · intro l hl
    rw [hlevel] at hl
    rw [hother (l + 1) (by omega)]
    refine IsChain.imp_of_mem_imp (fun a b ha hb hab => ?_) (h.pairs l hl)
    rwa [hnodes (l + 1) a ha, hnodes (l + 1) b hb]
  · obtain ⟨r, hr, hrparent, hrlevel, hrtop⟩ := h.top
    rw [if_neg (by omega)] at hrtop
    have hmem : r ∈ lv t.level := by rw [hrtop]; simp
    refine ⟨r, hroot.trans hr, (hsame _ r hmem).2.trans hrparent, ?_, ?_⟩
    · rw [hlevel, hlevels, hnodes _ r hmem]
      exact hrlevel
    · rw [hlevel]
      split_ifs with heq
      · rw [← heq, hrtop]
      · rw [hother _ heq, hrtop]
  · intro l hl
    rw [hlevel] at hl
    rw [hother l (by omega)]
    exact h.above l hl

theorem Body.up (h : Body p t lv l kid) (hl : l < t.level)
    (hitems : ∀ a ∈ lv 0, t'.items a = t.items a) (hlevel : t'.level = t.level)
    (hroot : t'.root = t.root) (hnodes : ∀ l' ≠ l + 1, ∀ a ∈ lv l', t'.nodes a = t.nodes a)
    (hnext : ∀ l' ≠ l + 1, ∀ a ∈ lv l', t'.next a = t.next a ∧ t'.prev a = t.prev a)
    (hparent : ∀ l' ≠ l, ∀ c ∈ lv l', t'.parent c = t.parent c ∧ t'.nodeLevel c = t.nodeLevel c)
    (hlive : ∀ l' ≠ l + 1, ∀ a ∈ lv l', a ∈ t'.live) (hlinks : Linked t'.next t'.prev L)
    (hkids : L.flatMap t'.nodes = lv l) (hcounts : ∀ a ∈ L, NodeCount p t' a)
    (hhangs : ∀ a ∈ L, ∀ c ∈ t'.nodes a, Hangs t' l c a) (hpairs : Pairs t' L)
    (hnodup : L.Nodup) (hL : ∀ a ∈ L, a ∈ t'.live ∧ ∀ l' ≠ l + 1, a ∉ lv l')
    (htop : t.level = l + 1 → ∀ r ∈ t.root, 2 ≤ (t'.nodes r).length) :
    Body p t' (update lv (l + 1) L) (l + 1) (lv (l + 1)) := by
  have hself : update lv (l + 1) L (l + 1) = L := update_self ..
  have hother : ∀ l' ≠ l + 1, update lv (l + 1) L l' = lv l' :=
    fun l' hne => update_of_ne hne ..
  have hzero : update lv (l + 1) L 0 = lv 0 := hother 0 (by omega)
  refine ⟨?_, ?_, ?_, ?_, ?_, ?_, ?_, ?_, update_nodup h.nodup hnodup,
    update_apart h.apart fun a ha => (hL a ha).2, update_live hlive fun a ha => (hL a ha).1, ?_, ?_⟩
  · intro l' hl'
    by_cases heq : l' = l + 1
    · rw [heq, hself]
      exact hlinks
    · rw [hother l' heq]
      exact (h.links l' (by omega)).congr (fun a ha => (hnext l' heq a ha).1)
        fun a ha => (hnext l' heq a ha).2
  · intro l' hl'
    by_cases heq : l' = l
    · rw [heq, hself, hkids, if_neg (by omega), hother l (by omega)]
    · rw [hother (l' + 1) (by omega), flatMap_congr (fun a ha => hnodes (l' + 1) (by omega) a ha),
        h.kids l' (by omega), if_neg heq]
      split_ifs with heq'
      · rw [heq']
      · rw [hother l' heq']
  · intro l' hl' a ha c hc
    by_cases heq : l' = l
    · subst heq
      rw [hself] at ha
      exact hhangs a ha c hc
    · rw [hother (l' + 1) (by omega)] at ha
      rw [hnodes (l' + 1) (by omega) a ha] at hc
      have hmem : c ∈ lv l' := by
        have hk := h.kids l' (by omega)
        rw [if_neg heq] at hk
        rw [← hk]
        exact mem_flatMap.2 ⟨a, ha, hc⟩
      obtain ⟨hp, hn⟩ := hparent l' heq c hmem
      have hh := h.hangs l' (by omega) a ha c hc
      exact ⟨by rw [hp, hh.1], fun l'' hl'' => by rw [hn, hh.2 l'' hl'']⟩
  · intro l' hl' a ha
    by_cases heq : l' = l
    · subst heq
      rw [hself] at ha
      exact hcounts a ha
    · rw [hother (l' + 1) (by omega)] at ha
      have hcount := h.counts l' (by omega) a ha
      rwa [NodeCount, ← hnodes (l' + 1) (by omega) a ha] at hcount
  · intro l' hl'
    by_cases heq : l' = l
    · subst heq
      rw [hself]
      exact hpairs
    · rw [hother (l' + 1) (by omega)]
      have hpair := h.pairs l' (by omega)
      refine hpair.imp_of_mem_imp fun a b ha hb hab => ?_
      rwa [hnodes (l' + 1) (by omega) a ha, hnodes (l' + 1) (by omega) b hb]
  · obtain ⟨r, hr, hrparent, hrlevel, hrtop⟩ := h.top
    rw [if_neg (by omega : ¬t.level = l)] at hrtop
    have hmem : r ∈ lv t.level := by rw [hrtop]; simp
    obtain ⟨hp, hn⟩ := hparent t.level (by omega) r hmem
    refine ⟨r, by rw [hroot, hr], by rw [hp, hrparent], fun l' hl' => ?_, ?_⟩
    · rw [hlevel] at hl'
      refine ⟨by rw [hn, (hrlevel l' hl').1], ?_⟩
      by_cases heq : t.level = l + 1
      · exact htop heq r hr
      · rw [hnodes t.level heq r hmem]
        exact (hrlevel l' hl').2
    · rw [hlevel]
      split_ifs with heq
      · rw [← heq, hrtop]
      · rw [hother _ heq, hrtop]
  · intro a ha
    rw [hzero] at ha
    rw [hitems a ha]
    exact h.leaves a ha
  · rw [hzero, hlevel]
    intro hfilled a ha
    rw [hitems a ha]
    exact h.filled hfilled a ha
  · intro l' hl'
    rw [hlevel] at hl'
    rw [hother l' (by omega)]
    exact h.above l' hl'
  · rw [hzero, flatMap_congr hitems]
    exact h.sorted

/-- The pages `M` of the level above are replaced by `M'`, and hang what they hung with the changed
pages of level `l`; the pages around them stay as they are. -/
structure Rehang (p : Template α κ) (t t' : Tree α) (lv : Nat → List Addr) (l : Nat)
    (A M M' B : List Addr) : Prop where
  split : lv (l + 1) = A ++ M ++ B
  items : ∀ a ∈ lv 0, t'.items a = t.items a
  level : t'.level = t.level
  root : t'.root = t.root
  nodes : ∀ a, a ∉ M → a ∉ M' → t'.nodes a = t.nodes a
  parent : ∀ l', ∀ c ∈ lv l', c ∉ M'.flatMap t'.nodes →
    t'.parent c = t.parent c ∧ t'.nodeLevel c = t.nodeLevel c
  next : ∀ l' ≠ l + 1, ∀ a ∈ lv l', t'.next a = t.next a ∧ t'.prev a = t.prev a
  live : ∀ l', ∀ a ∈ lv l', a ∈ t'.live
  new : ∀ a ∈ M', a ∈ M ∨ a ∈ t'.live ∧ ∀ l', a ∉ lv l'
  links : Linked t'.next t'.prev (A ++ M' ++ B)
  kids : A.flatMap t.nodes ++ M'.flatMap t'.nodes ++ B.flatMap t.nodes = lv l
  counts : ∀ a ∈ M', NodeCount p t' a
  hangs : ∀ a ∈ M', ∀ c ∈ t'.nodes a, Hangs t' l c a
  pairs : Pairs t' (A ++ M' ++ B)
  nodup : (A ++ M' ++ B).Nodup
  top : t.level = l + 1 → ∀ r ∈ t.root, 2 ≤ (t'.nodes r).length

theorem Rehang.body (hr : Rehang p t t' lv l A M M' B) (h : Body p t lv l kid)
    (hl : l < t.level) :
    Body p t' (update lv (l + 1) (A ++ M' ++ B)) (l + 1) (lv (l + 1)) := by
  have hnodup := h.nodup (l + 1)
  rw [hr.split] at hnodup
  have hmid : ∀ c ∈ M'.flatMap t'.nodes, c ∈ lv l := by
    intro c hc
    rw [← hr.kids]
    simp only [mem_append]
    exact .inl (.inr hc)
  -- The pages around are not among those that change, and neither are their children.
  have haround : ∀ a, a ∈ A ∨ a ∈ B → a ∉ M ∧ a ∉ M' := by
    intro a ha
    have h₁ := hnodup
    have h₂ := hr.nodup
    simp only [nodup_append, mem_append] at h₁ h₂
    rcases ha with ha | ha
    · exact ⟨fun hm => h₁.1.2.2 a ha a hm rfl, fun hm => h₂.1.2.2 a ha a hm rfl⟩
    · exact ⟨fun hm => h₁.2.2 a (.inr hm) a ha rfl, fun hm => h₂.2.2 a (.inr hm) a ha rfl⟩
  have hsame : ∀ a, a ∈ A ∨ a ∈ B → t'.nodes a = t.nodes a :=
    fun a ha => hr.nodes a (haround a ha).1 (haround a ha).2
  have hfar : ∀ a, a ∈ A ∨ a ∈ B → ∀ c ∈ t.nodes a, c ∉ M'.flatMap t'.nodes := by
    intro a ha c hc hm
    have hn := h.nodup l
    rw [← hr.kids] at hn
    simp only [nodup_append, mem_append] at hn
    rcases ha with ha | ha
    · exact hn.1.2.2 c (mem_flatMap.2 ⟨a, ha, hc⟩) c hm rfl
    · exact hn.2.2 c (.inr hm) c (mem_flatMap.2 ⟨a, ha, hc⟩) rfl
  have hin : ∀ a, a ∈ A ∨ a ∈ B → a ∈ lv (l + 1) := by
    intro a ha
    rw [hr.split]
    simp only [mem_append]
    rcases ha with ha | ha
    · exact .inl (.inl ha)
    · exact .inr ha
  have hcases : ∀ a ∈ A ++ M' ++ B, a ∈ M' ∨ a ∈ A ∨ a ∈ B := by
    intro a ha
    simp only [mem_append] at ha
    tauto
  refine h.up hl hr.items hr.level hr.root ?_ hr.next ?_ (fun l' _ => hr.live l') hr.links ?_ ?_ ?_
    hr.pairs hr.nodup ?_ hr.top
  · intro l' hne a ha
    refine hr.nodes a (fun hm => hne (h.apart l' (l + 1) a ha ?_)) fun hm => ?_
    · rw [hr.split]
      simp [hm]
    · rcases hr.new a hm with hm | ⟨-, hnew⟩
      · refine hne (h.apart l' (l + 1) a ha ?_)
        rw [hr.split]
        simp [hm]
      · exact hnew l' ha
  · intro l' hne c hc
    exact hr.parent l' c hc fun hm => hne (h.apart l' l c hc (hmid c hm))
  · rw [← hr.kids, flatMap_append, flatMap_append, flatMap_congr (fun a ha => hsame a (.inl ha)),
      flatMap_congr (fun a ha => hsame a (.inr ha))]
  · intro a ha
    rcases hcases a ha with ha | ha
    · exact hr.counts a ha
    · rw [NodeCount, hsame a ha]
      exact h.counts l hl a (hin a ha)
  · intro a ha c hc
    rcases hcases a ha with ha | ha
    · exact hr.hangs a ha c hc
    · rw [hsame a ha] at hc
      have hmem : c ∈ lv l := by
        rw [← hr.kids]
        simp only [mem_append]
        rcases ha with ha | ha
        · exact .inl (.inl (mem_flatMap.2 ⟨a, ha, hc⟩))
        · exact .inr (mem_flatMap.2 ⟨a, ha, hc⟩)
      obtain ⟨hp, hn⟩ := hr.parent l c hmem (hfar a ha c hc)
      have hh := h.hangs l hl a (hin a ha) c hc
      exact ⟨by rw [hp, hh.1], fun l' hl' => by rw [hn, hh.2 l' hl']⟩
  · intro a ha
    rcases hcases a ha with ha | ha
    · rcases hr.new a ha with hm | hnew
      · have hmem : a ∈ lv (l + 1) := by
          rw [hr.split]
          simp [hm]
        exact ⟨hr.live _ a hmem, fun l' hne ha' => hne (h.apart l' (l + 1) a ha' hmem)⟩
      · exact ⟨hnew.1, fun l' _ => hnew.2 l'⟩
    · exact ⟨hr.live _ a (hin a ha), fun l' hne ha' => hne (h.apart l' (l + 1) a ha' (hin a ha))⟩

theorem Rehang.rep (hr : Rehang p t t' lv l A M M B) (h : Body p t lv l kid) (hl : l < t.level) :
    Rep p t' lv := by
  have hbody := hr.body h hl
  rw [← hr.split, update_eq_self] at hbody
  exact hbody.rep

section SetNodeParent

variable (t : Tree α) (c : Addr) (l : Nat) (a : Addr)

@[simp] theorem setNodeParentAndLevel_items :
    (t.setNodeParentAndLevel c l a).items = t.items := by cases l <;> rfl

@[simp] theorem setNodeParentAndLevel_nodes :
    (t.setNodeParentAndLevel c l a).nodes = t.nodes := by cases l <;> rfl

@[simp] theorem setNodeParentAndLevel_next :
    (t.setNodeParentAndLevel c l a).next = t.next := by cases l <;> rfl

@[simp] theorem setNodeParentAndLevel_prev :
    (t.setNodeParentAndLevel c l a).prev = t.prev := by cases l <;> rfl

@[simp] theorem setNodeParentAndLevel_live :
    (t.setNodeParentAndLevel c l a).live = t.live := by cases l <;> rfl

@[simp] theorem setNodeParentAndLevel_level :
    (t.setNodeParentAndLevel c l a).level = t.level := by cases l <;> rfl

@[simp] theorem setNodeParentAndLevel_root :
    (t.setNodeParentAndLevel c l a).root = t.root := by cases l <;> rfl

@[simp] theorem setNodeParentAndLevel_parent :
    (t.setNodeParentAndLevel c l a).parent = update t.parent c (some a) := by
  cases l <;> rfl

variable {c} in
theorem setNodeParentAndLevel_nodeLevel_of_ne (hne : b ≠ c) :
    (t.setNodeParentAndLevel c l a).nodeLevel b = t.nodeLevel b := by
  cases l with
  | zero => rfl
  | succ l => exact update_of_ne hne ..

theorem setNodeParentAndLevel_nodeLevel_self {l' : Nat} (hl : l = l' + 1) :
    (t.setNodeParentAndLevel c l a).nodeLevel c = l' := by
  subst hl
  exact update_self ..

end SetNodeParent

structure Allocated (t t' : Tree α) (x new : Addr) : Prop where
  fresh : new ∉ t.live
  live : t'.live = insert new t.live
  level : t'.level = t.level
  root : t'.root = t.root
  items : t'.items = Function.update t.items new []
  nodes : t'.nodes = Function.update t.nodes new []
  parent : t'.parent = Function.update t.parent new none
  nodeLevel : t'.nodeLevel = t.nodeLevel
  next_self : t'.next x = some new
  next_new : t'.next new = t.next x
  next : ∀ b, b ≠ x → b ≠ new → t'.next b = t.next b
  prev_new : t'.prev new = some x
  prev_next : ∀ b ∈ t.next x, t'.prev b = some new
  prev : ∀ b, b ≠ new → t.next x ≠ some b → t'.prev b = t.prev b

theorem allocateAfter_allocated (pool : Allocator) {x : Addr} (hx : x ∈ t.live)
    (hnext : ∀ b ∈ t.next x, b ∈ t.live) :
    Allocated t (t.allocateAfter pool x).2 x (t.allocateAfter pool x).1 := by
  have hfresh := pool.fresh t.live
  have hne : x ≠ pool.allocate t.live := fun h => hfresh (h ▸ hx)
  have hne' := hne.symm
  have hnext' : ∀ b ∈ t.next x, b ≠ pool.allocate t.live := fun b hb h => hfresh (h ▸ hnext b hb)
  cases hn : t.next x with
  | none =>
    constructor <;>
      simp_all [Tree.allocateAfter, Tree.allocate, Tree.setNext, Tree.setPrev]
  | some y =>
    constructor <;>
      simp_all [Tree.allocateAfter, Tree.allocate, Tree.setNext, Tree.setPrev, update_apply]
    intro b _ hyb hby
    exact absurd hby.symm hyb

variable {x new : Addr}

theorem Allocated.linked (h : Allocated t t' x new) (hlinked : Linked t.next t.prev (A ++ x :: B))
    (hlive : ∀ a ∈ A ++ x :: B, a ∈ t.live) (hnodup : (A ++ x :: B).Nodup) :
    Linked t'.next t'.prev (A ++ x :: new :: B) := by
  have hnext := hlinked.next_eq
  have hnew : ∀ a ∈ A ++ x :: B, a ≠ new := fun a ha heq => h.fresh (heq ▸ hlive a ha)
  have hn := hnodup
  rw [nodup_append, nodup_cons] at hn
  refine LinkedFrom.insert hlinked ?_ h.next_self (by rw [h.next_new, hnext]) ?_ h.prev_new ?_
  · intro a ha
    refine h.next a ?_ (hnew a ?_)
    · rcases mem_append.1 ha with ha | ha
      · exact hn.2.2 a ha x (by simp)
      · exact fun heq => hn.2.1.1 (heq ▸ ha)
    · rcases mem_append.1 ha with ha | ha
      · exact mem_append_left _ ha
      · exact mem_append_right _ (mem_cons_of_mem _ ha)
  · intro a ha
    have hmem : a ∈ A ++ x :: B := by
      refine (Sublist.refl A |>.append ((tail_sublist B).cons_cons x)).subset ha
    refine h.prev a (hnew a hmem) ?_
    rw [hnext]
    intro hhead
    obtain ⟨B, rfl⟩ : ∃ B', B = a :: B' := ⟨B.tail, eq_cons_of_mem_head? hhead⟩
    rcases mem_append.1 ha with ha | ha
    · exact hn.2.2 a ha a (by simp) rfl
    · rcases mem_cons.1 ha with rfl | ha
      · exact hn.2.1.1 (by simp)
      · exact (nodup_cons.1 hn.2.1.2).1 ha
  · intro b hb
    exact h.prev_next b (by rw [hnext]; exact hb)

theorem Allocated.next_of_not_mem (h : Allocated t t' x new)
    (hlinked : Linked t.next t.prev (A ++ x :: B)) (ha : a ∈ t.live) (hA : a ∉ A ++ x :: B) :
    t'.next a = t.next a ∧ t'.prev a = t.prev a := by
  have hne : a ≠ new := fun heq => h.fresh (heq ▸ ha)
  refine ⟨h.next a (fun heq => hA (by simp [heq])) hne, h.prev a hne ?_⟩
  rw [hlinked.next_eq]
  intro hhead
  exact hA (by simp [mem_of_head? hhead])

end Firebird.Common.Pages
