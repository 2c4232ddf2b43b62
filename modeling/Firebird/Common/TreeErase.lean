import Firebird.Common.TreeCursor
import Firebird.Common.TreeMerge

/-!
# Removing an item

`_removePage` leaves a complete tree whose items are those before, and with this `fastRemove` takes
exactly the item at its position out of the tree.
-/
namespace Firebird.Common.Pages

open Lib Links List Function

variable {α κ : Type} [LinearOrder κ] {p : Template α κ} {t t' : Tree α} {lv lv' : Nat → List Addr}
variable {l : Nat} {A B A' B' K₁ K₂ K : List Addr} {y list temp : Addr}

/-- The tree is complete without some of its pages above the items. -/
structure Removed (p : Template α κ) (t t' : Tree α) (lv lv' : Nat → List Addr) : Prop where
  rep : Rep p t' lv'
  items : t'.items = t.items
  leaves : lv' 0 = lv 0
  sub : ∀ l', ∀ a ∈ lv' l', a ∈ lv l'

theorem Removed.of_rep (h : Rep p t' lv) (hitems : t'.items = t.items) : Removed p t t' lv lv :=
  ⟨h, hitems, rfl, fun _ _ ha => ha⟩

theorem Removed.of_update {t₁ : Tree α} {L : List Addr}
    (h : Removed p t₁ t' (update lv (l + 1) L) lv') (hsub : ∀ a ∈ L, a ∈ lv (l + 1))
    (hitems : t₁.items = t.items) : Removed p t t' lv lv' := by
  refine ⟨h.rep, h.items.trans hitems, h.leaves.trans (update_of_ne (by omega) ..), ?_⟩
  intro l' a ha
  have hmem := h.sub l' a ha
  by_cases heq : l' = l + 1
  · rw [heq, update_self] at hmem
    rw [heq]
    exact hsub a hmem
  · rwa [update_of_ne heq] at hmem

theorem Removed.go_on {fuel : Nat} {t₁ : Tree α} {w : Addr} {L C D : List Addr}
    (hnext : Removes p t₁ (update lv (l + 1) L) (l + 1) w C D)
    (ih : Removes p t₁ (update lv (l + 1) L) (l + 1) w C D →
      ∃ lv', Removed p t₁ (t₁.removePage p fuel w) (update lv (l + 1) L) lv')
    (hsub : ∀ a ∈ L, a ∈ lv (l + 1)) (hitems : t₁.items = t.items) :
    ∃ lv', Removed p t (t₁.removePage p fuel w) lv lv' := by
  obtain ⟨lv', hrem⟩ := ih hnext
  exact ⟨lv', hrem.of_update hsub hitems⟩

theorem Removed.deallocate (h : ∃ lv', Removed p t t' lv lv') (hout : ∀ l', y ∉ lv l') :
    ∃ lv', Removed p t (t'.deallocate y) lv lv' := by
  obtain ⟨lv', hrem⟩ := h
  exact ⟨lv', hrem.rep.deallocate fun l' hmem => hout l' (hrem.sub l' y hmem), hrem.items,
    hrem.leaves, hrem.sub⟩

theorem le_of_needMerge {m n : Nat} (h : needMerge m n = true) : m ≤ n := by
  rw [needMerge, decide_eq_true_iff] at h
  omega

theorem lt_of_not_needMerge {m n : Nat} (h : ¬needMerge m n = true) (hn : 2 ≤ n) : 2 < m := by
  rw [needMerge, decide_eq_true_iff] at h
  omega

theorem setNodeParents_parent (nodes : List Addr) (t : Tree α) (parent c : Addr) :
    (t.setNodeParents nodes parent).parent c = if c ∈ nodes then some parent else t.parent c := by
  induction nodes generalizing t with
  | nil => simp [Tree.setNodeParents]
  | cons a nodes ih =>
    rw [Tree.setNodeParents, foldl_cons, ← Tree.setNodeParents, ih]
    by_cases hc : c ∈ nodes
    · simp [hc]
    · by_cases hca : c = a
      · simp [hca, Tree.setNodeParent]
      · simp [hca, Tree.setNodeParent]

theorem setNodeParents_same (nodes : List Addr) (t : Tree α) (parent : Addr) :
    t.setNodeParents nodes parent = { t with parent := (t.setNodeParents nodes parent).parent
      } := by
  induction nodes generalizing t with
  | nil => rfl
  | cons a nodes ih =>
    rw [Tree.setNodeParents, foldl_cons, ← Tree.setNodeParents, ih]
    rfl

theorem Removes.eraseIdx_eq (h : Removes p t lv l y A B)
    (ha : Above (t.unlink y) lv l y list A B A' B' K₁ K₂) :
    ((t.unlink y).nodes list).eraseIdx ((t.unlink y).findNodeOf p list y) = K₁ ++ K₂ := by
  rw [h.findNodeOf_eq ha, ha.nodes, eraseIdx_append_of_length_le (Nat.le_refl _)]
  simp

theorem Removes.join_prev (h : Removes p t lv l y A B)
    (ha : Above (t.unlink y) lv l y list A B (A' ++ [temp]) B' K₁ K₂) (hK : K₁ ++ K₂ ≠ [])
    (hroom : ((t.unlink y).nodes temp).length + (K₁ ++ K₂).length ≤ p.nodeCount)
    (hmoved : Moved (t.unlink y) t') (hlevel : t'.nodeLevel = (t.unlink y).nodeLevel)
    (hnodes : t'.nodes = update (update (t.unlink y).nodes list (K₁ ++ K₂)) temp
      ((t.unlink y).nodes temp ++ (K₁ ++ K₂)))
    (hparent : ∀ c, t'.parent c = if c ∈ K₁ ++ K₂ then some temp else (t.unlink y).parent c) :
    Removes p t' (update lv (l + 1) (A' ++ [temp] ++ B')) (l + 1) list (A' ++ [temp])
      B' := by
  have hlt := h.lt_level
  have htemp : temp ∈ lv (l + 1) := by rw [ha.split]; simp
  have hne : list ≠ temp := (h.above_ne ha (by simp)).symm
  refine h.join (by rw [ha.split]; simp) ?_ ?_ hK hroom
    (h.below_of_neighbour ha (.inl (by simp))) hmoved hlevel ?_ ?_ ?_ ?_ ?_ ?_
  · rw [h.pages_eq ha]
    simp
  · exact ne_nil_of_length_pos (h.body.counts l hlt temp htemp).1
  · intro a hat hal
    rw [hnodes, update_of_ne hat, update_of_ne hal]
  · rw [hnodes, update_self]
  · rw [hnodes, update_of_ne hne, update_self]
  · exact fun c hc => by rw [hparent, if_pos hc]
  · exact fun c hc => by rw [hparent, if_neg hc]
  · exact fun c hc => (h.body.hangs l hlt temp htemp c hc).1

theorem Removes.join_next (h : Removes p t lv l y A B)
    (ha : Above (t.unlink y) lv l y list A B A' (temp :: B') K₁ K₂) (hK : K₁ ++ K₂ ≠ [])
    (hroom : ((t.unlink y).nodes temp).length + (K₁ ++ K₂).length ≤ p.nodeCount)
    (hmoved : Moved (t.unlink y) t') (hlevel : t'.nodeLevel = (t.unlink y).nodeLevel)
    (hnodes : t'.nodes = update (t.unlink y).nodes list (K₁ ++ K₂ ++ (t.unlink y).nodes temp))
    (hparent : ∀ c, t'.parent c =
      if c ∈ (t.unlink y).nodes temp then some list else (t.unlink y).parent c) :
    Removes p t' (update lv (l + 1) (A' ++ [list] ++ B')) (l + 1) temp (A' ++ [list])
      B' := by
  have hlt := h.lt_level
  have htemp : temp ∈ lv (l + 1) := by rw [ha.split]; simp
  have hne : temp ≠ list := h.above_ne ha (by simp)
  have hroom' : (K₁ ++ K₂).length + ((t.unlink y).nodes temp).length ≤ p.nodeCount := by omega
  refine h.join ha.split ?_ hK ?_ hroom' (h.below_of_neighbour ha (.inr (by simp))) hmoved hlevel
    ?_ ?_ ?_ ?_ ?_ ?_
  · rw [h.pages_eq ha]
    simp
  · exact ne_nil_of_length_pos (h.body.counts l hlt temp htemp).1
  · intro a hal _
    rw [hnodes, update_of_ne hal]
  · rw [hnodes, update_self]
  · rw [hnodes, update_of_ne hne]
  · exact fun c hc => by rw [hparent, if_pos hc]
  · exact fun c hc => by rw [hparent, if_neg hc]
  · intro c hc
    refine (h.body.hangs l hlt list (Removes.mem_above ha) c ?_).1
    rw [mem_append] at hc
    rw [ha.nodes, mem_append, mem_cons]
    tauto

theorem Removes.borrows_prev (h : Removes p t lv l y A B)
    (ha : Above (t.unlink y) lv l y list A B (A' ++ [temp]) B' [] [])
    (hcount : 2 < ((t.unlink y).nodes temp).length) {last : Addr}
    (hlast : ((t.unlink y).nodes temp).getLastD y = last)
    (ht' : ((t.unlink y).setNodes list [last]).setNodeParent last (some list) = t') :
    Removed p t (t'.setNodes temp (t'.nodes temp).dropLast) lv lv := by
  have hne := h.above_ne ha (a := temp) (by simp)
  obtain ⟨K, z, htemp⟩ : ∃ K z, (t.unlink y).nodes temp = K ++ [z] := by
    rcases eq_nil_or_concat ((t.unlink y).nodes temp) with hnil | ⟨K, z, htemp⟩
    · simp [hnil] at hcount
    · exact ⟨K, z, by rw [htemp, concat_eq_append]⟩
  obtain rfl : z = last := by simpa [htemp] using hlast
  subst ht'
  rw [htemp, length_append, length_singleton] at hcount
  refine .of_rep (h.borrow_prev ha htemp (by omega) ⟨rfl, rfl, rfl, rfl, rfl, rfl⟩ rfl ?_ ?_)
    (unlink_same t y).items
  · simp [Tree.setNodes, Tree.setNodeParent, htemp, update_of_ne hne]
  · simp [Tree.setNodes, Tree.setNodeParent]

theorem Removes.borrows_next (h : Removes p t lv l y A B)
    (ha : Above (t.unlink y) lv l y list A B A' (temp :: B') [] [])
    (hcount : 2 < ((t.unlink y).nodes temp).length) {first : Addr}
    (hfirst : ((t.unlink y).nodes temp).headD y = first)
    (ht' : ((t.unlink y).setNodes list [first]).setNodeParent first (some list) = t') :
    Removed p t (t'.setNodes temp ((t'.nodes temp).eraseIdx 0)) lv lv := by
  have hne := h.above_ne ha (a := temp) (by simp)
  obtain ⟨z, K, htemp⟩ := exists_cons_of_length_pos (by omega :
    0 < ((t.unlink y).nodes temp).length)
  obtain rfl : z = first := by simpa [htemp] using hfirst
  subst ht'
  rw [htemp, length_cons] at hcount
  refine .of_rep (h.borrow_next ha htemp (by omega) ⟨rfl, rfl, rfl, rfl, rfl, rfl⟩ rfl ?_ ?_)
    (unlink_same t y).items
  · simp [Tree.setNodes, Tree.setNodeParent, htemp, update_of_ne hne]
  · simp [Tree.setNodes, Tree.setNodeParent]

theorem Removes.shrinks (h : Removes p t lv l y A B)
    (ha : Above (t.unlink y) lv l y list A B A' B' K₁ K₂) {z : Addr} (hz : K₁ ++ K₂ = [z])
    (hroot : (t.unlink y).root = some list)
    (ht' : ({ (t.unlink y).setNodes list (K₁ ++ K₂) with
      root := some z, level := (t.unlink y).level - 1 } : Tree α).setNodeParent z none = t') :
    Removed p t (t'.deallocate list) lv (update lv (l + 1) []) := by
  subst ht'
  refine ⟨h.shrink ha hz hroot ⟨rfl, fun a hal => ?_, rfl, ?_, rfl, rfl, rfl, ?_, ?_⟩,
    (unlink_same t y).items, update_of_ne (by omega) .., fun l' a hmem => ?_⟩
  · simp [Tree.setNodes, Tree.setNodeParent, Tree.deallocate, update_of_ne hal]
  · simp [Tree.setNodes, Tree.setNodeParent, Tree.deallocate]
  · have := h.lt_level
    simp only [Tree.setNodes, Tree.setNodeParent, Tree.deallocate]
    omega
  · simp [Tree.setNodes, Tree.setNodeParent, Tree.deallocate]
  · by_cases heq : l' = l + 1
    · rw [heq, update_self] at hmem
      simp at hmem
    · rwa [update_of_ne heq] at hmem

theorem Removes.loses (h : Removes p t lv l y A B)
    (ha : Above (t.unlink y) lv l y list A B A' B' K₁ K₂) (hK : K₁ ++ K₂ ≠ [])
    (hroot : ¬((t.unlink y).root = some list ∧ (K₁ ++ K₂).length = 1))
    (hmerge : ∀ a, a ∈ A'.getLast? ∨ a ∈ B'.head? →
      ¬needMerge (((t.unlink y).nodes a).length + (K₁ ++ K₂).length) p.nodeCount) :
    Removed p t ((t.unlink y).setNodes list (K₁ ++ K₂)) lv lv := by
  refine .of_rep (h.lose ha hK ⟨rfl, rfl, rfl, rfl, rfl, rfl⟩ rfl rfl rfl
    (fun hr hlen => hroot ⟨hr, hlen⟩) fun hlen a hmem => ?_) (unlink_same t y).items
  have htwo := lt_of_not_needMerge (hmerge a hmem) p.two_le_nodeCount
  omega

theorem removePage_removed {fuel : Nat} (h : Removes p t lv l y A B) (hfuel : t.level < fuel + l) :
    ∃ lv', Removed p t (t.removePage p fuel y) lv lv' := by
  induction fuel generalizing t lv l y A B with
  | zero =>
    have := h.below
    omega
  | succ fuel ih =>
    obtain ⟨list, A', B', K₁, K₂, ha, hparent⟩ := h.above
    have hsame := unlink_same t y
    have hlinked := h.body.links (l + 1) h.lt_level
    rw [ha.split] at hlinked
    have hprev := hlinked.prev_eq
    have hnext := hlinked.next_eq
    have hfuel' : (t.unlink y).level < fuel + (l + 1) := by
      rw [hsame.level]
      omega
    rw [Tree.removePage]
    simp only [hparent]
    refine Removed.deallocate ?_ h.out
    split_ifs with hone hmerge hroot
    · -- The page above follows.
      rw [ha.nodes] at hone
      obtain rfl : K₁ = [] := eq_nil_of_length_eq_zero (by simp at hone; omega)
      obtain rfl : K₂ = [] := eq_nil_of_length_eq_zero (by simpa using hone)
      refine Removed.go_on (h.follow ha) (fun h' => ih h' hfuel') (fun a hmem => ?_) hsame.items
      rw [ha.split]
      simp only [mem_append] at hmem ⊢
      tauto
    · -- It borrows a child of a neighbour.
      rw [ha.nodes] at hone
      obtain rfl : K₁ = [] := eq_nil_of_length_eq_zero (by simp at hone; omega)
      obtain rfl : K₂ = [] := eq_nil_of_length_eq_zero (by simpa using hone)
      rw [not_or] at hmerge
      rcases eq_nil_or_concat A' with rfl | ⟨A₀, temp, rfl⟩
      · cases B' with
        | nil =>
          have hbelow := h.below_of_single ha
          have hroot := (h.body.level_of_single (by omega) (by omega) ha.split).1
          omega
        | cons temp B₀ =>
          have hcount := lt_of_not_needMerge
            (by simpa only [hnext, head?_cons, Option.any_some] using hmerge.2)
            p.two_le_nodeCount
          simp only [hprev, hnext]
          exact ⟨lv, h.borrows_next ha hcount rfl rfl⟩
      · rw [concat_eq_append] at ha hprev
        rw [getLast?_concat] at hprev
        have hcount := lt_of_not_needMerge
          (by simpa only [hprev, Option.any_some] using hmerge.1) p.two_le_nodeCount
        simp only [hprev]
        exact ⟨lv, h.borrows_prev ha hcount rfl rfl⟩
    · -- It is the root.
      have hnodes := h.eraseIdx_eq ha
      simp only [Tree.setNodes, update_self, hnodes] at hroot ⊢
      obtain ⟨z, hz⟩ := length_eq_one_iff.1 hroot.2
      refine ⟨_, h.shrinks ha hz hroot.1 ?_⟩
      simp [Tree.setNodes, hz]
    · -- It is joined with a neighbour, or only loses the child.
      have hnodes := h.eraseIdx_eq ha
      have hK : K₁ ++ K₂ ≠ [] := by
        intro hnil
        rw [append_eq_nil_iff] at hnil
        obtain ⟨rfl, rfl⟩ := hnil
        exact hone (by rw [ha.nodes]; rfl)
      simp only [Tree.setNodes, update_self, hnodes] at hroot ⊢
      split
      · rename_i _ _ temp hfilter
        obtain ⟨htemp, hmerge⟩ := Option.filter_eq_some_iff.1 hfilter
        obtain ⟨A₀, rfl⟩ := getLast?_eq_some_iff.1 (hprev ▸ htemp)
        have hne := h.above_ne ha (a := temp) (by simp)
        rw [update_of_ne hne] at hmerge
        rw [setNodeParents_same, update_of_ne hne, update_of_ne hne.symm, update_self]
        refine Removed.go_on (h.join_prev ha hK (le_of_needMerge hmerge)
          ⟨rfl, rfl, rfl, rfl, rfl, rfl⟩ rfl rfl fun c => setNodeParents_parent _ _ _ c)
          (fun h' => ih h' hfuel') (fun a hmem => ?_) hsame.items
        rw [ha.split]
        grind
      · rename_i temp _ hfilter
        obtain ⟨htemp, hmerge⟩ := Option.filter_eq_some_iff.1 hfilter
        obtain ⟨B₀, rfl⟩ : ∃ B₀, B' = temp :: B₀ :=
          ⟨B'.tail, eq_cons_of_mem_head? (hnext ▸ htemp)⟩
        have hne := h.above_ne ha (a := temp) (by simp)
        rw [update_of_ne hne] at hmerge
        rw [setNodeParents_same, update_idem, update_of_ne hne, update_of_ne hne]
        refine Removed.go_on (h.join_next ha hK (le_of_needMerge hmerge)
          ⟨rfl, rfl, rfl, rfl, rfl, rfl⟩ rfl rfl fun c => setNodeParents_parent _ _ _ c)
          (fun h' => ih h' hfuel') (fun a hmem => ?_) hsame.items
        rw [ha.split]
        grind
      · rename_i hfilter hfilter'
        refine ⟨lv, h.loses ha hK hroot fun a hmem hmerge => ?_⟩
        rw [Option.filter_eq_none_iff, hprev] at hfilter
        rw [Option.filter_eq_none_iff, hnext] at hfilter'
        have hne : a ≠ list := h.above_ne ha <| by
          rw [mem_append]
          exact hmem.imp mem_of_getLast? mem_of_head?
        rcases hmem with hmem | hmem
        · refine hfilter a hmem ?_
          rwa [update_of_ne hne]
        · refine hfilter' a hmem ?_
          rwa [update_of_ne hne]

theorem Rep.removes_leaf (h : Rep p t lv) (hsplit : lv 0 = A ++ y :: B) (hpos : 0 < t.level)
    {f : Addr → List α} (hleaves : ∀ a ∈ A ++ B, (f a).length ≤ p.leafCount)
    (hfilled : ∀ a ∈ A ++ B, f a ≠ []) (hsorted : Sorted p ((A ++ B).flatMap f))
    (hkey : ∃ k, (f y).head? = some k ∧ (∀ a ∈ A, ∀ x ∈ (f a).head?, p.key x < p.key k) ∧
      ∀ b ∈ B, ∀ x ∈ (f b).head?, p.key k < p.key x) :
    Removes p { t with items := f } (update lv 0 (A ++ B)) 0 y A B := by
  have hsame := unlink_same { t with items := f } y
  have hnodup := h.nodup 0
  rw [hsplit] at hnodup
  have hlinked := h.links 0 (Nat.zero_le _)
  rw [hsplit] at hlinked
  have hy := not_mem_of_nodup hnodup
  have hin : ∀ a ∈ A ++ B, a ∈ lv 0 := fun a ha => by
    rw [hsplit]
    simp only [mem_append, mem_cons] at ha ⊢
    tauto
  have hbody := h.newLeaves (({ t with items := f } : Tree α).unlink y) (A ++ B)
    hsame.level hsame.root hsame.nodeLevel (fun _ a _ => by rw [hsame.nodes, hsame.parent]; simp)
    ?_ ?_ (unlink_linked (t := { t with items := f }) hlinked hnodup)
    (by rw [nodup_middle, nodup_cons] at hnodup; exact hnodup.2) ?_ (by rwa [hsame.items])
    (by rw [hsame.items]; exact fun _ => hfilled) (by rwa [hsame.items])
  · rw [hsplit] at hbody
    refine ⟨hbody, update_self .., hpos, hkey, by omega, fun l' hmem => ?_⟩
    rw [update_apply] at hmem
    split_ifs at hmem with heq
    · exact hy hmem
    · exact heq (h.apart l' 0 y hmem (by rw [hsplit]; simp))
  · intro l' hne a ha
    refine unlink_of_not_mem (t := { t with items := f }) hlinked hnodup ?_
    rw [← hsplit]
    exact fun ha' => hne (h.apart l' 0 a ha ha')
  · intro l' _ a ha
    rw [hsame.live]
    exact h.live l' a ha
  · intro a ha
    rw [hsame.live]
    exact ⟨h.live 0 a (hin a ha), fun l' hne ha' => hne (h.apart l' 0 a ha' (hin a ha))⟩

theorem Rep.removePage_leaf (h : Rep p t lv) (hsplit : lv 0 = A ++ y :: B) (hpos : 0 < t.level)
    {f : Addr → List α} (hleaves : ∀ a ∈ A ++ B, (f a).length ≤ p.leafCount)
    (hfilled : ∀ a ∈ A ++ B, f a ≠ []) (hsorted : Sorted p ((A ++ B).flatMap f))
    (hkey : ∃ k, (f y).head? = some k ∧ (∀ a ∈ A, ∀ x ∈ (f a).head?, p.key x < p.key k) ∧
      ∀ b ∈ B, ∀ x ∈ (f b).head?, p.key k < p.key x) :
    Shape p (Tree.removePage p (t.level + 1) { t with items := f } y) (A ++ B) f := by
  obtain ⟨lv', hrem⟩ := removePage_removed (h.removes_leaf hsplit hpos hleaves hfilled hsorted hkey)
    (Nat.lt_succ_self t.level)
  exact ⟨lv', hrem.rep, hrem.leaves.trans (update_self ..), hrem.items⟩

theorem Rep.sorted_erase {curr : Addr} {low high : List α} {x : α} (h : Rep p t lv)
    (hsplit : lv 0 = A ++ curr :: B) (hitems : t.items curr = low ++ x :: high) :
    Sorted p (A.flatMap t.items ++ (low ++ high) ++ B.flatMap t.items) := by
  have hall := h.sorted
  rw [hsplit, flatMap_append, flatMap_cons, hitems] at hall
  refine hall.sublist ?_
  rw [append_assoc]
  refine (Sublist.refl _).append (Sublist.append ?_ (Sublist.refl _))
  exact (Sublist.refl _).append (sublist_cons_self _ _)

/-- Two neighbours among the pages of items get the items `C` and `D`. -/
structure Recast (t : Tree α) (lv : Nat → List Addr) (f : Addr → List α) (A : List Addr)
    (first second : Addr) (B : List Addr) (C D : List α) : Prop where
  split : lv 0 = A ++ first :: second :: B
  nodup : (lv 0).Nodup
  fst : f first = C
  snd : f second = D
  other : ∀ a, a ≠ first → a ≠ second → f a = t.items a

section Recast

variable {first second : Addr} {C D : List α} {f : Addr → List α}

theorem Rep.neighbours_ne (h : Rep p t lv) (hsplit : lv 0 = A ++ first :: second :: B) :
    first ≠ second := by
  have hnodup := h.nodup 0
  rw [hsplit, nodup_append, nodup_cons] at hnodup
  rintro rfl
  exact hnodup.2.1.1 (by simp)

theorem Rep.recast (h : Rep p t lv) (hsplit : lv 0 = A ++ first :: second :: B) :
    Recast t lv (update (update t.items first C) second D) A first second B C D := by
  refine ⟨hsplit, h.nodup 0, ?_, update_self .., fun a hfirst hsecond => ?_⟩
  · rw [update_of_ne (h.neighbours_ne hsplit), update_self]
  · rw [update_of_ne hsecond, update_of_ne hfirst]

theorem Recast.before (h : Recast t lv f A first second B C D) : ∀ a ∈ A, f a = t.items a := by
  have hnodup := h.nodup
  rw [h.split, nodup_append] at hnodup
  exact fun a ha =>
    h.other a (hnodup.2.2 a ha first (by simp)) (hnodup.2.2 a ha second (by simp))

theorem Recast.behind (h : Recast t lv f A first second B C D) : ∀ b ∈ B, f b = t.items b := by
  have hnodup := h.nodup
  rw [h.split, nodup_append, nodup_cons, nodup_cons] at hnodup
  intro b hb
  refine h.other b ?_ ?_ <;> rintro rfl
  · exact hnodup.2.1.1 (by simp [hb])
  · exact hnodup.2.1.2.1 hb

theorem Rep.join_leaves (h : Rep p t lv) (hr : Recast t lv f A first second B (C ++ D) D)
    (hpos : 0 < t.level) (hC : C ≠ []) (hD : D ≠ []) (hroom : C.length + D.length ≤ p.leafCount)
    (hsorted : Sorted p (A.flatMap t.items ++ (C ++ D) ++ B.flatMap t.items)) :
    Shape p (Tree.removePage p (t.level + 1) { t with items := f } second) (A ++ [first] ++ B)
      f := by
  have hout : ∀ a ∈ A ++ B, f a = t.items a ∧ a ∈ lv 0 := by
    intro a hmem
    rcases mem_append.1 hmem with hmem | hmem
    · exact ⟨hr.before a hmem, by rw [hr.split]; simp [hmem]⟩
    · exact ⟨hr.behind a hmem, by rw [hr.split]; simp [hmem]⟩
  have hcases : ∀ a ∈ (A ++ [first]) ++ B, a = first ∨ a ∈ A ++ B := by
    intro a hmem
    simp only [mem_append] at hmem ⊢
    grind
  have hall : ((A ++ [first]) ++ B).flatMap f =
      A.flatMap t.items ++ (C ++ D) ++ B.flatMap t.items := by
    rw [flatMap_append, flatMap_append, flatMap_singleton, hr.fst, flatMap_congr hr.before,
      flatMap_congr hr.behind]
  refine h.removePage_leaf (by rw [hr.split]; simp) hpos ?_ ?_ (by rwa [hall]) ?_
  · intro a hmem
    rcases hcases a hmem with rfl | hmem
    · rw [hr.fst, length_append]
      exact hroom
    · rw [(hout a hmem).1]
      exact h.leaves a (hout a hmem).2
  · intro a hmem
    rcases hcases a hmem with rfl | hmem
    · rw [hr.fst]
      simp [hC]
    · rw [(hout a hmem).1]
      exact h.filled (.inl hpos) a (hout a hmem).2
  · obtain ⟨k, D, rfl⟩ := exists_cons_of_ne_nil hD
    obtain ⟨c, C, rfl⟩ := exists_cons_of_ne_nil hC
    have hassoc : A.flatMap t.items ++ ((c :: C) ++ k :: D) ++ B.flatMap t.items =
        (A.flatMap t.items ++ c :: C) ++ k :: (D ++ B.flatMap t.items) := by simp
    rw [hassoc, Sorted, pairwise_append, pairwise_cons] at hsorted
    refine ⟨k, by rw [hr.snd]; rfl, fun a hmem x hx => ?_, fun b hmem x hx => ?_⟩
    · refine hsorted.2.2 x ?_ k (by simp)
      rcases mem_append.1 hmem with hmem | hmem
      · rw [hr.before a hmem] at hx
        exact mem_append_left _ (mem_flatMap.2 ⟨a, hmem, mem_of_head? hx⟩)
      · obtain rfl : a = first := by simpa using hmem
        rw [hr.fst] at hx
        obtain rfl : c = x := by simpa using hx
        simp
    · rw [hr.behind b hmem] at hx
      refine hsorted.2.1.1 x (mem_append_right _ ?_)
      exact mem_flatMap.2 ⟨b, hmem, mem_of_head? hx⟩

theorem Rep.share_leaves (h : Rep p t lv) (hr : Recast t lv f A first second B C D)
    (hC : 0 < C.length ∧ C.length ≤ p.leafCount) (hD : 0 < D.length ∧ D.length ≤ p.leafCount)
    (hsorted : Sorted p (A.flatMap t.items ++ (C ++ D) ++ B.flatMap t.items)) :
    Shape p { t with items := f } (lv 0) f := by
  have hlen : ∀ a ∈ [first, second], 0 < (f a).length ∧ (f a).length ≤ p.leafCount := by
    intro a ha
    rcases mem_pair.1 ha with rfl | rfl
    · rw [hr.fst]
      exact hC
    · rw [hr.snd]
      exact hD
  have hsame : ∀ a, a ∉ [first, second] → f a = t.items a := by
    intro a ha
    simp only [mem_cons, not_mem_nil, or_false, not_or] at ha
    exact hr.other a ha.1 ha.2
  have hrep := h.setItems (by rw [hr.split]; simp : lv 0 = A ++ [first, second] ++ B) hsame
    (by simp [hr.fst, hr.snd]) (fun a ha => (hlen a ha).2)
    (fun _ a ha => ne_nil_of_length_pos (hlen a ha).1) hsorted
  exact ⟨lv, hrep.1, rfl, rfl⟩

end Recast

section FastRemove

variable {curr temp : Addr} {low high C : List α} {x y : α}

theorem Rep.remove_single (h : Rep p t lv) (hsplit : lv 0 = A ++ curr :: B)
    (hitems : t.items curr = [x]) (hpos : 0 < t.level) :
    Takes p ((B.head?.isSome, ⟨B.head?, 0⟩), t.removePage p (t.level + 1) curr)
      (A.flatMap t.items) (B.flatMap t.items) := by
  have hall := h.sorted
  rw [hsplit, flatMap_append, flatMap_cons, hitems] at hall
  have hin : ∀ a ∈ A ++ B, a ∈ lv 0 := by
    intro a ha
    rw [hsplit]
    simp only [mem_append] at ha ⊢
    tauto
  have hremove : Shape p (t.removePage p (t.level + 1) curr) (A ++ B) t.items := by
    refine h.removePage_leaf hsplit hpos (fun a ha => h.leaves a (hin a ha))
      (fun a ha => h.filled (.inl hpos) a (hin a ha)) ?_ ⟨x, by rw [hitems]; rfl, ?_, ?_⟩
    · rw [flatMap_append]
      exact hall.sublist ((Sublist.refl _).append (sublist_append_right _ _))
    · intro a ha z hz
      rw [pairwise_append] at hall
      exact hall.2.2 z (mem_flatMap.2 ⟨a, ha, mem_of_head? hz⟩) x (by simp)
    · intro b hb z hz
      rw [pairwise_append, singleton_append, pairwise_cons] at hall
      exact hall.2.1.1 z (mem_flatMap.2 ⟨b, hb, mem_of_head? hz⟩)
  exact hremove.takes_head rfl (h.filled_behind hsplit)

theorem Rep.borrow_next_item (h : Rep p t lv) (hsplit : lv 0 = A ++ curr :: temp :: B)
    (hitems : t.items curr = [x]) (htemp : t.items temp = y :: C) (hC : C ≠ []) :
    Takes p ((true, ⟨some curr, 0⟩),
        { t with items := update (update t.items curr [y]) temp C })
      (A.flatMap t.items) ((temp :: B).flatMap t.items) := by
  have hr := h.recast (C := [y]) (D := C) hsplit
  have hsorted := h.sorted_erase hsplit (show t.items curr = [] ++ x :: [] from hitems)
  have hcap := h.leaves temp (by rw [hsplit]; simp)
  have hlen := length_pos_of_ne_nil hC
  rw [htemp, length_cons] at hcap
  rw [flatMap_cons, htemp] at hsorted ⊢
  have hshape := h.share_leaves hr (by simp; omega) ⟨hlen, by omega⟩ (by simpa using hsorted)
  have htakes := hshape.takes_here hsplit (hr.fst.trans (nil_append _).symm) (by simp)
  rw [flatMap_cons, hr.snd, flatMap_congr hr.before, flatMap_congr hr.behind] at htakes
  simpa using htakes

theorem Rep.borrow_prev_item (h : Rep p t lv) (hsplit : lv 0 = A ++ temp :: curr :: B)
    (hitems : t.items curr = [x]) (htemp : t.items temp = C ++ [y]) (hC : C ≠ []) :
    Takes p ((B.head?.isSome, ⟨B.head?, 0⟩),
        { t with items := update (update t.items temp C) curr [y] })
      ((A ++ [temp]).flatMap t.items) (B.flatMap t.items) := by
  have hr := h.recast (C := C) (D := [y]) hsplit
  have hsplit' : lv 0 = (A ++ [temp]) ++ curr :: B := by
    rw [hsplit]
    simp
  have hsorted := h.sorted_erase hsplit' (show t.items curr = [] ++ x :: [] from hitems)
  have hcap := h.leaves temp (by rw [hsplit]; simp)
  have hlen := length_pos_of_ne_nil hC
  rw [htemp, length_append, length_singleton] at hcap
  rw [flatMap_append, flatMap_singleton, htemp] at hsorted ⊢
  have hshape := h.share_leaves hr ⟨hlen, by omega⟩ (by simp; omega) (by simpa using hsorted)
  have htakes := hshape.takes_head (A := A ++ [temp, curr]) (B := B) (by rw [hsplit]; simp)
    fun b hb => by rw [hr.behind b hb]; exact h.filled_behind hsplit' b hb
  have hpair : [temp, curr].flatMap (update (update t.items temp C) curr [y]) = C ++ [y] := by
    simp [hr.fst]
  rwa [flatMap_append, hpair, flatMap_congr hr.before, flatMap_congr hr.behind] at htakes

theorem Rep.fastRemove_single (h : Rep p t lv) (hsplit : lv 0 = A ++ curr :: B)
    (hitems : t.items curr = [x]) (hpos : 0 < t.level) :
    Takes p (t.fastRemove p curr 0) (A.flatMap t.items) (B.flatMap t.items) := by
  have hlinked := h.links 0 (Nat.zero_le _)
  rw [hsplit] at hlinked
  have hprev := hlinked.prev_eq
  have hnext := hlinked.next_eq
  have hgone := h.remove_single hsplit hitems hpos
  rw [Tree.fastRemove, if_neg (by omega), if_pos (by rw [hitems]; rfl)]
  simp only
  split_ifs with hmerge hmerge'
  · rw [hnext]
    exact hgone
  · have hsome : B.head?.isSome = true := by
      rw [hnext] at hmerge'
      cases B with
      | nil => simp at hmerge'
      | cons b B => rfl
    rw [hnext, ← hsome]
    exact hgone
  · rcases eq_nil_or_concat A with rfl | ⟨A, temp, rfl⟩
    · cases B with
      | nil =>
        have htwo := Body.two_pages h (.inr (Nat.lt_succ_self _)) hpos
        rw [hsplit] at htwo
        simp at htwo
      | cons temp B =>
        rw [head?_cons] at hnext
        have hcount := lt_of_not_needMerge
          (by simpa only [hnext, Option.any_some] using hmerge') p.two_le_leafCount
        obtain ⟨y, C, htemp⟩ := exists_cons_of_length_pos (by omega : 0 < (t.items temp).length)
        have hne := h.neighbours_ne hsplit
        have htakes := h.borrow_next_item hsplit hitems htemp fun hnil => by
          simp [htemp, hnil] at hcount
        simpa [hprev, hnext, Tree.setItems, htemp, update_of_ne hne.symm] using htakes
    · rw [concat_eq_append] at hsplit hprev ⊢
      rw [getLast?_concat] at hprev
      have hcount := lt_of_not_needMerge
        (by simpa only [hprev, Option.any_some] using hmerge) p.two_le_leafCount
      have hsplit' : lv 0 = A ++ temp :: curr :: B := by
        rw [hsplit]
        simp
      have hne := h.neighbours_ne hsplit'
      obtain ⟨C, y, htemp⟩ : ∃ C y, t.items temp = C ++ [y] := by
        rcases eq_nil_or_concat (t.items temp) with hnil | ⟨C, y, htemp⟩
        · simp [hnil] at hcount
        · exact ⟨C, y, by rw [htemp, concat_eq_append]⟩
      have htakes := h.borrow_prev_item hsplit' hitems htemp fun hnil => by
        simp [htemp, hnil] at hcount
      rw [update_comm hne, ← hnext] at htakes
      simpa [hprev, Tree.setItems, htemp, update_of_ne hne] using htakes

theorem Rep.erase_item (h : Rep p t lv) (hsplit : lv 0 = A ++ curr :: B)
    (hitems : t.items curr = low ++ x :: high) (hone : 0 < t.level → low ++ high ≠ []) :
    Shape p (t.setItems curr (low ++ high)) (lv 0)
      (update t.items curr (low ++ high)) := by
  have hcap := h.leaves curr (by rw [hsplit]; simp)
  rw [hitems, length_append, length_cons] at hcap
  have hlen : ∀ a ∈ [curr],
      (update t.items curr (low ++ high) a).length ≤ p.leafCount := by
    intro a ha
    obtain rfl : a = curr := by simpa using ha
    rw [update_self, length_append]
    omega
  have hfilled : 0 < t.level → ∀ a ∈ [curr], update t.items curr (low ++ high) a ≠ [] := by
    intro hpos a ha
    obtain rfl : a = curr := by simpa using ha
    rw [update_self]
    exact hone hpos
  have hrep := h.setItems (by rw [hsplit]; simp : lv 0 = A ++ [curr] ++ B)
    (fun a ha => update_of_ne (by simpa using ha) ..) (by simp) hlen hfilled
    (h.sorted_erase hsplit hitems)
  exact ⟨lv, hrep.1, rfl, rfl⟩

theorem eraseIdx_items (hitems : t.items curr = low ++ x :: high) :
    (t.items curr).eraseIdx low.length = low ++ high := by
  rw [hitems, eraseIdx_append_of_length_le (Nat.le_refl _)]
  simp

theorem Rep.join_prev_items (h : Rep p t lv) (hsplit : lv 0 = A ++ temp :: curr :: B)
    (hitems : t.items curr = low ++ x :: high) (hone : low ++ high ≠ []) (hpos : 0 < t.level)
    (hroom : (t.items temp).length + (low ++ high).length ≤ p.leafCount) {f : Addr → List α}
    (hf : f = update (update t.items temp (t.items temp ++ (low ++ high))) curr (low ++ high)) :
    Takes p ((Tree.removePage p (t.level + 1) { t with items := f } curr).adjust temp
      (low.length + (t.items temp).length)) ((A ++ [temp]).flatMap t.items ++ low)
      (high ++ B.flatMap t.items) := by
  have hr := h.recast (C := t.items temp ++ (low ++ high)) (D := low ++ high) hsplit
  rw [← hf] at hr
  have hsorted := h.sorted_erase (A := A ++ [temp]) (B := B) (by rw [hsplit]; simp) hitems
  rw [flatMap_append, flatMap_singleton] at hsorted ⊢
  have hshape := h.join_leaves hr hpos (h.filled (.inl hpos) temp (by rw [hsplit]; simp)) hone
    hroom (by simpa using hsorted)
  have htakes := hshape.takes_adjust (show A ++ [temp] ++ B = A ++ temp :: B by simp)
    (show f temp = (t.items temp ++ low) ++ high by rw [hr.fst, append_assoc])
  rwa [flatMap_congr hr.before, flatMap_congr hr.behind, length_append,
    Nat.add_comm (t.items temp).length, ← append_assoc] at htakes

theorem Rep.join_next_items (h : Rep p t lv) (hsplit : lv 0 = A ++ curr :: temp :: B)
    (hitems : t.items curr = low ++ x :: high) (hone : low ++ high ≠ []) (hpos : 0 < t.level)
    (hroom : (low ++ high).length + (t.items temp).length ≤ p.leafCount) {f : Addr → List α}
    (hf : f = update t.items curr (low ++ high ++ t.items temp)) :
    Takes p ((true, ⟨some curr, low.length⟩),
        Tree.removePage p (t.level + 1) { t with items := f } temp)
      (A.flatMap t.items ++ low) (high ++ (temp :: B).flatMap t.items) := by
  have hr := h.recast (C := low ++ high ++ t.items temp) (D := t.items temp) hsplit
  have hsame : f temp = t.items temp := by
    rw [hf, update_of_ne (h.neighbours_ne hsplit).symm]
  rw [← hf, ← hsame, update_eq_self, hsame] at hr
  have hsorted := h.sorted_erase hsplit hitems
  have hfilled := h.filled (.inl hpos) temp (by rw [hsplit]; simp)
  rw [flatMap_cons] at hsorted ⊢
  have hshape := h.join_leaves hr hpos hone hfilled hroom (by simpa using hsorted)
  have htakes := hshape.takes_here (show A ++ [curr] ++ B = A ++ curr :: B by simp)
    (show f curr = low ++ (high ++ t.items temp) by rw [hr.fst, append_assoc])
    (by simp [hfilled])
  rwa [flatMap_congr hr.before, flatMap_congr hr.behind, append_assoc] at htakes

theorem Rep.fastRemove_several (h : Rep p t lv) (hsplit : lv 0 = A ++ curr :: B)
    (hitems : t.items curr = low ++ x :: high) (hone : low ++ high ≠ []) (hpos : 0 < t.level) :
    Takes p (t.fastRemove p curr low.length) (A.flatMap t.items ++ low)
      (high ++ B.flatMap t.items) := by
  have hlinked := h.links 0 (Nat.zero_le _)
  rw [hsplit] at hlinked
  have hprev := hlinked.prev_eq
  have hnext := hlinked.next_eq
  have hlen : ¬(t.items curr).length = 1 := by
    intro hlen
    rw [hitems, length_append, length_cons] at hlen
    refine hone (eq_nil_of_length_eq_zero ?_)
    rw [length_append]
    omega
  rw [Tree.fastRemove, if_neg (by omega), if_neg hlen]
  simp only [eraseIdx_items hitems, Tree.setItems, update_self]
  split
  · rename_i _ _ temp hfilter
    obtain ⟨htemp, hmerge⟩ := Option.filter_eq_some_iff.1 hfilter
    obtain ⟨A, rfl⟩ := getLast?_eq_some_iff.1 (hprev ▸ htemp)
    have hsplit' : lv 0 = A ++ temp :: curr :: B := by
      rw [hsplit]
      simp
    have hne := h.neighbours_ne hsplit'
    rw [update_of_ne hne] at hmerge ⊢
    exact h.join_prev_items hsplit' hitems hone hpos (le_of_needMerge hmerge)
      (update_comm hne.symm ..)
  · rename_i temp _ hfilter
    obtain ⟨htemp, hmerge⟩ := Option.filter_eq_some_iff.1 hfilter
    obtain ⟨B, rfl⟩ : ∃ B₀, B = temp :: B₀ := ⟨B.tail, eq_cons_of_mem_head? (hnext ▸ htemp)⟩
    have hne := h.neighbours_ne hsplit
    rw [update_of_ne hne.symm] at hmerge ⊢
    have hroom := le_of_needMerge hmerge
    exact h.join_next_items hsplit hitems hone hpos (by omega) (update_idem ..)
  · have hstay := h.erase_item hsplit hitems fun _ => hone
    have hnodup := h.nodup 0
    rw [hsplit, nodup_middle, nodup_cons, mem_append, not_or] at hnodup
    have htakes := hstay.takes_adjust hsplit (update_self ..)
    rwa [flatMap_congr fun a ha => update_of_ne (ne_of_mem_of_not_mem ha hnodup.1.1) ..,
      flatMap_congr fun b hb => update_of_ne (ne_of_mem_of_not_mem hb hnodup.1.2) ..] at htakes

theorem Rep.fastRemove_takes (h : Rep p t lv) (hsplit : lv 0 = A ++ curr :: B)
    (hitems : t.items curr = low ++ x :: high) :
    Takes p (t.fastRemove p curr low.length) (A.flatMap t.items ++ low)
      (high ++ B.flatMap t.items) := by
  by_cases hpos : 0 < t.level
  · by_cases hone : low ++ high = []
    · obtain ⟨rfl, rfl⟩ := append_eq_nil_iff.1 hone
      simpa using h.fastRemove_single hsplit hitems hpos
    · exact h.fastRemove_several hsplit hitems hone hpos
  · -- The root is the only page.
    obtain ⟨r, -, -, -, htop⟩ := h.top
    rw [if_neg (by omega), show t.level = 0 by omega, hsplit] at htop
    obtain ⟨rfl, rfl⟩ : A = [] ∧ B = [] := by
      have hlen := congrArg List.length htop
      rw [length_append, length_cons, length_singleton] at hlen
      exact ⟨eq_nil_of_length_eq_zero (by omega), eq_nil_of_length_eq_zero (by omega)⟩
    have hstay := h.erase_item hsplit hitems fun hlt => absurd hlt hpos
    rw [Tree.fastRemove, if_pos (by omega), eraseIdx_items hitems]
    obtain ⟨lv', hrep, hleaves, hitems'⟩ := hstay
    have hcurr : (t.setItems curr (low ++ high)).items curr = low ++ high :=
      update_self ..
    have hall : (lv 0).flatMap (t.setItems curr (low ++ high)).items = low ++ high := by
      rw [hsplit, nil_append, flatMap_singleton, hcurr]
    refine ⟨lv 0, ⟨lv', hrep, hleaves, rfl⟩, by simpa using hall, ?_⟩
    simp only [hcurr]
    rcases Nat.eq_zero_or_pos high.length with hnil | hpos
    · obtain rfl := eq_nil_of_length_eq_zero hnil
      exact .inr ⟨by simp, by simp⟩
    · refine .inl ⟨by simpa using hpos, [], curr, [], low, high, hsplit, rfl, hcurr, ?_, by simp,
        by simp⟩
      exact ne_nil_of_length_pos hpos

theorem Rep.fastRemove_holds (h : Rep p t lv) (hsplit : lv 0 = A ++ curr :: B)
    (hitems : t.items curr = low ++ x :: high) :
    Holds p (t.fastRemove p curr low.length).2
      ((A.flatMap t.items ++ low) ++ (high ++ B.flatMap t.items)) :=
  (h.fastRemove_takes hsplit hitems).holds

end FastRemove

end Firebird.Common.Pages
