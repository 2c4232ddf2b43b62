import Firebird.Common.TreeItems

/-!
# Removing a page

`_removePage` takes a page out of its level and out of its parent. Where a page above would be left
without children, or two neighbours there fit on one page, it goes on with one of these.
-/
namespace Firebird.Common.Pages

open Lib Links List Function

variable {α κ : Type} {t t' : Tree α} {lv : Nat → List Addr}
variable {l : Nat} {A B A' B' K₁ K₂ : List Addr} {y list : Addr}

section Set

variable (t : Tree α) (a b : Option Addr) (c : Addr)

theorem setNext_next : (t.setNext a b).next c = if a = some c then b else t.next c := by
  cases a with
  | none => simp [Tree.setNext]
  | some a => simp [Tree.setNext, update_apply, eq_comm]

theorem setPrev_prev : (t.setPrev a b).prev c = if a = some c then b else t.prev c := by
  cases a with
  | none => simp [Tree.setPrev]
  | some a => simp [Tree.setPrev, update_apply, eq_comm]

theorem setNext_prev : (t.setNext a b).prev = t.prev := by cases a <;> rfl

theorem setPrev_next : (t.setPrev a b).next = t.next := by cases a <;> rfl

structure SameBut (t t' : Tree α) : Prop where
  items : t'.items = t.items
  nodes : t'.nodes = t.nodes
  nodeLevel : t'.nodeLevel = t.nodeLevel
  parent : t'.parent = t.parent
  live : t'.live = t.live
  level : t'.level = t.level
  root : t'.root = t.root

theorem unlink_same : SameBut t (t.unlink c) := by
  have hnext : ∀ (t : Tree α) a b, SameBut t (t.setNext a b) := by
    intro t a b
    cases a <;> exact ⟨rfl, rfl, rfl, rfl, rfl, rfl, rfl⟩
  have hprev : ∀ (t : Tree α) a b, SameBut t (t.setPrev a b) := by
    intro t a b
    cases a <;> exact ⟨rfl, rfl, rfl, rfl, rfl, rfl, rfl⟩
  have h₁ := hnext t (t.prev c) (t.next c)
  have h₂ := hprev (t.setNext (t.prev c) (t.next c)) ((t.setNext (t.prev c) (t.next c)).next c)
    ((t.setNext (t.prev c) (t.next c)).prev c)
  exact ⟨h₂.items.trans h₁.items, h₂.nodes.trans h₁.nodes, h₂.nodeLevel.trans h₁.nodeLevel,
    h₂.parent.trans h₁.parent, h₂.live.trans h₁.live, h₂.level.trans h₁.level, h₂.root.trans
      h₁.root⟩

end Set

theorem unlink_next (a : Addr) :
    (t.unlink y).next a = if t.prev y = some a then t.next y else t.next a := by
  rw [Tree.unlink, setPrev_next, setNext_next]

theorem unlink_prev (hy : t.prev y ≠ some y) (a : Addr) :
    (t.unlink y).prev a = if t.next y = some a then t.prev y else t.prev a := by
  rw [Tree.unlink, setPrev_prev, setNext_next, if_neg hy, setNext_prev]

variable {a : Addr}

theorem not_mem_of_nodup (hnodup : (A ++ y :: B).Nodup) : y ∉ A ++ B := by
  rw [nodup_middle, nodup_cons] at hnodup
  exact hnodup.1

theorem prev_ne_self (hlinked : Linked t.next t.prev (A ++ y :: B)) (hnodup : (A ++ y :: B).Nodup) :
    t.prev y ≠ some y := by
  rw [hlinked.prev_eq]
  intro hlast
  exact not_mem_of_nodup hnodup (mem_append_left _ (mem_of_getLast? hlast))

theorem unlink_linked (hlinked : Linked t.next t.prev (A ++ y :: B))
    (hnodup : (A ++ y :: B).Nodup) : Linked (t.unlink y).next (t.unlink y).prev (A ++ B) := by
  have hself := prev_ne_self hlinked hnodup
  have hn : (A ++ B).Nodup := by
    rw [nodup_middle, nodup_cons] at hnodup
    exact hnodup.2
  have hdisj := (nodup_append.1 hn).2.2
  refine LinkedFrom.remove hlinked ?_ ?_ ?_ ?_
  · intro a ha
    rw [unlink_next, if_neg]
    rw [hlinked.prev_eq]
    intro hlast
    rcases mem_append.1 ha with ha | ha
    · obtain ⟨A₀, rfl⟩ := getLast?_eq_some_iff.1 hlast
      rw [dropLast_concat] at ha
      have hA := (nodup_append.1 hn).1
      exact (nodup_append.1 hA).2.2 a ha a (by simp) rfl
    · exact hdisj a (mem_of_getLast? hlast) a ha rfl
  · intro a ha
    rw [unlink_next, hlinked.prev_eq, if_pos (Option.mem_def.1 ha), hlinked.next_eq]
  · intro a ha
    rw [unlink_prev hself, if_neg]
    rw [hlinked.next_eq]
    intro hhead
    obtain ⟨B₀, rfl⟩ : ∃ B₀, B = a :: B₀ := ⟨B.tail, eq_cons_of_mem_head? hhead⟩
    rcases mem_append.1 ha with ha | ha
    · exact hdisj a ha a (by simp) rfl
    · exact (nodup_cons.1 (nodup_append.1 hn).2.1).1 ha
  · intro a ha
    rw [unlink_prev hself, hlinked.next_eq, if_pos (Option.mem_def.1 ha), hlinked.prev_eq]
    simp

theorem unlink_of_not_mem (hlinked : Linked t.next t.prev (A ++ y :: B))
    (hnodup : (A ++ y :: B).Nodup) (ha : a ∉ A ++ y :: B) :
    (t.unlink y).next a = t.next a ∧ (t.unlink y).prev a = t.prev a := by
  rw [unlink_next, unlink_prev (prev_ne_self hlinked hnodup), hlinked.prev_eq, hlinked.next_eq,
    if_neg, if_neg]
  · exact ⟨rfl, rfl⟩
  · exact fun hhead => ha (by simp [mem_of_head? hhead])
  · exact fun hlast => ha (by simp [mem_of_getLast? hlast])

section Removes

variable [LinearOrder κ] {p : Template α κ} {kid : List Addr} {l₀ : Nat}

/-- A page of level `l` is about to be removed: what it holds is not of the tree any more, but its
key still tells its place. -/
structure Removes (p : Template α κ) (t : Tree α) (lv : Nat → List Addr) (l : Nat) (y : Addr)
    (A B : List Addr) : Prop where
  body : Body p (t.unlink y) lv l (A ++ y :: B)
  pages : lv l = A ++ B
  below : l < t.level
  key : ∃ k, t.generate l y = some k ∧ (∀ a ∈ A, ∀ x ∈ t.generate l a, p.key x < p.key k) ∧
    ∀ b ∈ B, ∀ x ∈ t.generate l b, p.key k < p.key x
  single : 0 < l → ∀ z, A ++ B = [z] → 2 ≤ (t.nodes z).length
  out : ∀ l', y ∉ lv l'

theorem Body.two_pages (h : Body p t lv l₀ kid) (hl : l₀ < l ∨ t.level < l₀) (hlt : l < t.level) :
    2 ≤ (lv l).length := by
  induction hd : t.level - l generalizing l with
  | zero => omega
  | succ d ih =>
    have hkids := h.kids l hlt
    rw [if_neg (by omega)] at hkids
    by_cases htop : t.level = l + 1
    · obtain ⟨r, -, -, hr, hroot⟩ := h.top
      rw [if_neg (by omega), htop] at hroot
      rw [hroot, flatMap_singleton] at hkids
      rw [← hkids]
      exact (hr l htop).2
    · have hnext := ih (by omega : l₀ < l + 1 ∨ t.level < l₀) (by omega) (by omega)
      refine hnext.trans ?_
      rw [← hkids, length_flatMap]
      have hsum : ∀ L : List Addr, (∀ a ∈ L, 1 ≤ (t.nodes a).length) →
          L.length ≤ (L.map fun a => (t.nodes a).length).sum := by
        intro L hL
        induction L with
        | nil => simp
        | cons a L ih =>
          have h₁ := hL a (by simp)
          have h₂ := ih fun b hb => hL b (by simp [hb])
          simp only [length_cons, map_cons, sum_cons]
          omega
      exact hsum _ fun a ha => (h.counts l hlt a ha).1

theorem Body.level_of_single (h : Body p t lv l₀ kid) (hl : l₀ < l) (hle : l ≤ t.level)
    (hsingle : lv l = [a]) : t.level = l ∧ t.root = some a := by
  have heq : t.level = l := by
    by_contra hne
    have htwo := h.two_pages (.inl hl) (by omega)
    rw [hsingle] at htwo
    simp at htwo
  obtain ⟨r, hr, -, -, htop⟩ := h.top
  rw [if_neg (by omega), heq, hsingle] at htop
  simp only [List.cons.injEq, and_true] at htop
  exact ⟨heq, by rw [hr, htop]⟩

theorem Removes.above (h : Removes p t lv l y A B) :
    ∃ list A' B' K₁ K₂, Above (t.unlink y) lv l y list A B A' B' K₁ K₂ ∧
      (t.unlink y).parent y = some list := by
  have hlt : l < (t.unlink y).level := by
    rw [(unlink_same t y).level]
    exact h.below
  refine h.body.exists_above hlt rfl ?_
  rw [nodup_middle, nodup_cons, ← h.pages]
  exact ⟨h.out l, h.body.nodup l⟩

theorem Removes.findNodeOf_eq (h : Removes p t lv l y A B)
    (ha : Above (t.unlink y) lv l y list A B A' B' K₁ K₂) :
    (t.unlink y).findNodeOf p list y = K₁.length := by
  have hsame := unlink_same t y
  have hlt : l < (t.unlink y).level := by
    rw [hsame.level]
    exact h.below
  have hgen := generate_congr hsame.items hsame.nodes
  obtain ⟨k, hk, hbefore, hafter⟩ := h.key
  rw [← hgen] at hk hbefore hafter
  have hlevel : (t.unlink y).nodeLevel list = l :=
    h.body.nodeLevel_eq hlt (by omega) (by rw [ha.split]; simp)
  have hK₁ : ∀ a ∈ K₁, a ∈ A := fun a hmem => by
    rw [ha.before]
    simp [hmem]
  have hK₂ : ∀ a ∈ K₂, a ∈ B := fun a hmem => by
    rw [ha.behind]
    simp [hmem]
  have hfilled : 0 < (t.unlink y).level ∨ 1 < (lv 0).length := .inl (by omega)
  have hsub : (K₁ ++ K₂).Sublist (lv l) := by
    rw [h.pages, ha.before, ha.behind, append_assoc]
    exact ((Sublist.refl K₁).append (sublist_append_left _ _)).trans
      (sublist_append_right _ _)
  have hasc := h.body.ascending (Nat.le_refl l) hlt.le hfilled hsub
  have hasc' : Ascending p ((t.unlink y).generate l) (K₁ ++ y :: K₂) := by
    refine ⟨fun e he => ?_, ?_⟩
    · simp only [mem_append, mem_cons] at he
      rcases he with he | rfl | he
      · exact hasc.1 e (by simp [he])
      · exact ⟨k, hk⟩
      · exact hasc.1 e (by simp [he])
    · have hpair := hasc.2
      rw [pairwise_append] at hpair ⊢
      refine ⟨hpair.1, pairwise_cons.2 ⟨fun b hb x hx z hz => ?_, hpair.2.1⟩, ?_⟩
      · obtain rfl : k = x := Option.mem_unique hk hx
        exact hafter b (hK₂ b hb) z hz
      · intro e he f hf x hx z hz
        rcases mem_cons.1 hf with rfl | hf
        · obtain rfl : k = z := Option.mem_unique hk hz
          exact hbefore e (hK₁ e he) x hx
        · exact hpair.2.2 e he f hf x hx z hz
  rw [Tree.findNodeOf, hlevel, hk]
  simp only
  rw [Tree.findNode, hlevel, ha.nodes, find_place hasc' ?_ ?_]
  · exact fun e he x hx => hbefore e (hK₁ e he) x hx
  · intro e he x hx
    rcases mem_cons.1 he with rfl | he
    · obtain rfl : k = x := Option.mem_unique hk hx
      exact le_refl _
    · exact (hafter e (hK₂ e he) x hx).le

theorem Removes.lt_level (h : Removes p t lv l y A B) : l < (t.unlink y).level := by
  rw [(unlink_same t y).level]
  exact h.below

theorem Removes.hangs (h : Removes p t lv l y A B) {M : List Addr}
    (hlevel : t'.nodeLevel = (t.unlink y).nodeLevel)
    (hparents : ∀ a ∈ M, ∀ c ∈ t'.nodes a, t'.parent c = some a)
    (hkids : A'.flatMap (t.unlink y).nodes ++ M.flatMap t'.nodes ++
      B'.flatMap (t.unlink y).nodes = lv l) :
    ∀ a ∈ M, ∀ c ∈ t'.nodes a, Hangs t' l c a := by
  intro a ha c hc
  refine ⟨hparents a ha c hc, fun l' hl' => ?_⟩
  have hmem : c ∈ (lv (l + 1)).flatMap (t.unlink y).nodes := by
    have hkid := h.body.kids l h.lt_level
    rw [if_pos rfl] at hkid
    have hin : c ∈ lv l := by
      rw [← hkids]
      simp only [mem_append]
      exact .inl (.inr (mem_flatMap.2 ⟨a, ha, hc⟩))
    rw [hkid]
    rw [h.pages] at hin
    simp only [mem_append] at hin ⊢
    tauto
  obtain ⟨b, hb, hcb⟩ := mem_flatMap.1 hmem
  rw [hlevel]
  exact (h.body.hangs l h.lt_level b hb c hcb).2 l' hl'

theorem Removes.finish (h : Removes p t lv l y A B) (A' M B' : List Addr)
    (hsplit : lv (l + 1) = A' ++ M ++ B') (hmoved : Moved (t.unlink y) t')
    (hnodes : ∀ a ∉ M, t'.nodes a = (t.unlink y).nodes a)
    (hlevel : t'.nodeLevel = (t.unlink y).nodeLevel)
    (hparent : ∀ c, c ∉ M.flatMap t'.nodes → t'.parent c = (t.unlink y).parent c)
    (hparents : ∀ a ∈ M, ∀ c ∈ t'.nodes a, t'.parent c = some a)
    (hkids : A'.flatMap (t.unlink y).nodes ++ M.flatMap t'.nodes ++
      B'.flatMap (t.unlink y).nodes = lv l)
    (hcounts : ∀ a ∈ M, NodeCount p t' a) (hpairs : Pairs t' (lv (l + 1)))
    (htop : (t.unlink y).level = l + 1 → ∀ r ∈ (t.unlink y).root, 2 ≤ (t'.nodes r).length) :
    Rep p t' lv := by
  have hrehang : Rehang p (t.unlink y) t' lv l A' M M B' := by
    refine ⟨hsplit, fun a _ => by rw [hmoved.items], hmoved.level, hmoved.root,
      fun a ha _ => hnodes a ha, fun _ c _ hc => ⟨hparent c hc, by rw [hlevel]⟩,
      fun l' _ a _ => ⟨by rw [hmoved.next], by rw [hmoved.prev]⟩, ?_, fun a ha =>
        .inl ha, ?_, hkids,
      hcounts, h.hangs hlevel hparents hkids, by rwa [← hsplit], ?_, htop⟩
    · rw [hmoved.live]
      exact h.body.live
    · rw [hmoved.next, hmoved.prev, ← hsplit]
      exact h.body.links (l + 1) h.lt_level
    · rw [← hsplit]
      exact h.body.nodup (l + 1)
  exact hrehang.rep h.body h.lt_level

theorem Removes.go_on (h : Removes p t lv l y A B) {w : Addr} (A' M B' : List Addr)
    (hsplit : lv (l + 1) = A' ++ (M ++ [w]) ++ B') (hmoved : Moved (t.unlink y) t')
    (hnodes : ∀ a, a ∉ M → a ≠ w → t'.nodes a = (t.unlink y).nodes a)
    (hlevel : t'.nodeLevel = (t.unlink y).nodeLevel)
    (hparent : ∀ c, c ∉ M.flatMap t'.nodes → t'.parent c = (t.unlink y).parent c)
    (hparents : ∀ a ∈ M, ∀ c ∈ t'.nodes a, t'.parent c = some a)
    (hkids : A'.flatMap (t.unlink y).nodes ++ M.flatMap t'.nodes ++
      B'.flatMap (t.unlink y).nodes = lv l)
    (hcounts : ∀ a ∈ M, NodeCount p t' a) (hpairs : Pairs t' (A' ++ M ++ B'))
    (hsingle : ∀ z, A' ++ M ++ B' = [z] → 2 ≤ (t'.nodes z).length)
    (hbelow : l + 1 < (t.unlink y).level)
    (hkey : ∃ k, t'.generate (l + 1) w = some k ∧
      (∀ a ∈ A' ++ M, ∀ x ∈ t'.generate (l + 1) a, p.key x < p.key k) ∧
      ∀ b ∈ B', ∀ x ∈ t'.generate (l + 1) b, p.key k < p.key x) :
    Removes p t' (update lv (l + 1) (A' ++ M ++ B')) (l + 1) w (A' ++ M) B' := by
  have hsplit' : lv (l + 1) = (A' ++ M) ++ w :: B' := by rw [hsplit]; simp
  have hnodup := h.body.nodup (l + 1)
  rw [hsplit'] at hnodup
  have hlinked := h.body.links (l + 1) h.lt_level
  rw [hsplit', ← hmoved.next, ← hmoved.prev] at hlinked
  have hsame := unlink_same t' w
  have hnodup' : (A' ++ M ++ B').Nodup := by
    rw [nodup_middle, nodup_cons] at hnodup
    exact hnodup.2
  have hhangs := h.hangs hlevel hparents hkids
  have hrehang : Rehang p (t.unlink y) (t'.unlink w) lv l A' (M ++ [w]) M B' := by
    refine ⟨hsplit, fun a _ => by rw [hsame.items, hmoved.items], by rw [hsame.level, hmoved.level],
      by rw [hsame.root, hmoved.root], ?_, ?_, ?_, ?_, fun a ha => .inl (by simp [ha]),
      unlink_linked hlinked hnodup, by rw [hsame.nodes]; exact hkids, ?_, ?_, ?_, hnodup', ?_⟩
    · intro a ha _
      rw [hsame.nodes]
      simp only [mem_append, mem_singleton, not_or] at ha
      exact hnodes a ha.1 ha.2
    · intro _ c _ hc
      rw [hsame.nodes] at hc
      rw [hsame.parent, hsame.nodeLevel, hlevel]
      exact ⟨hparent c hc, rfl⟩
    · intro l' hne a ha
      rw [← hmoved.next, ← hmoved.prev]
      refine unlink_of_not_mem hlinked hnodup ?_
      rw [← hsplit']
      exact fun ha' => hne (h.body.apart l' (l + 1) a ha ha')
    · rw [hsame.live, hmoved.live]
      exact h.body.live
    · intro a ha
      rw [NodeCount, hsame.nodes]
      exact hcounts a ha
    · intro a ha c hc
      rw [hsame.nodes] at hc
      have hh := hhangs a ha c hc
      exact ⟨by rw [hsame.parent]; exact hh.1, by rw [hsame.nodeLevel]; exact hh.2⟩
    · rw [Pairs, hsame.nodes]
      exact hpairs
    · intro heq
      omega
  have hbody := hrehang.body h.body h.lt_level
  rw [hsplit'] at hbody
  refine ⟨hbody, update_self .., by rw [hmoved.level]; exact hbelow, hkey, fun _ => hsingle, ?_⟩
  intro l' hmem
  by_cases heq : l' = l + 1
  · rw [heq, update_self] at hmem
    exact not_mem_of_nodup hnodup hmem
  · rw [update_of_ne heq] at hmem
    exact heq (h.body.apart l' (l + 1) w hmem (by rw [hsplit']; simp))

theorem key_above {w c₀ : Addr} {k : α} (hw : (t'.nodes w).head? = some c₀)
    (hk : t'.generate l c₀ = some k)
    (hA : ∀ a ∈ A', ∀ c ∈ (t'.nodes a).head?, ∀ x ∈ t'.generate l c, p.key x < p.key k)
    (hB : ∀ b ∈ B', ∀ c ∈ (t'.nodes b).head?, ∀ x ∈ t'.generate l c, p.key k < p.key x) :
    ∃ k, t'.generate (l + 1) w = some k ∧
      (∀ a ∈ A', ∀ x ∈ t'.generate (l + 1) a, p.key x < p.key k) ∧
      ∀ b ∈ B', ∀ x ∈ t'.generate (l + 1) b, p.key k < p.key x := by
  refine ⟨k, by rw [Tree.generate, hw, Option.bind_some, hk], fun a ha x hx => ?_, fun b hb x hx =>
    ?_⟩
  · rw [Option.mem_def, Tree.generate, Option.bind_eq_some_iff] at hx
    obtain ⟨c, hc, hx⟩ := hx
    exact hA a ha c hc x hx
  · rw [Option.mem_def, Tree.generate, Option.bind_eq_some_iff] at hx
    obtain ⟨c, hc, hx⟩ := hx
    exact hB b hb c hc x hx

end Removes

end Firebird.Common.Pages
