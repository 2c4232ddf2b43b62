import Firebird.Common.TreeClimb

/-!
# Adding an item

The climb of `add` ends with a complete tree, and so does `add`: its items are those before and the
new one, in the order of their keys.
-/
namespace Firebird.Common.Pages

open Lib Links List Function

variable {α κ : Type} [LinearOrder κ] {p : Template α κ} {t t' : Tree α} {lv : Nat → List Addr}
variable {l : Nat} {A B A' B' K₁ K₂ : List Addr} {x new list : Addr}

theorem generate_congr (hitems : t'.items = t.items) (hnodes : t'.nodes = t.nodes) :
    t'.generate = t.generate := by
  funext l
  induction l with
  | zero =>
    funext a
    rw [Tree.generate, Tree.generate, hitems]
  | succ l ih =>
    funext a
    rw [Tree.generate, Tree.generate, hnodes, ih]

theorem findNodeOf_congr (hitems : t'.items = t.items) (hnodes : t'.nodes = t.nodes)
    (hlevel : t'.nodeLevel list = t.nodeLevel list) :
    t'.findNodeOf p list new = t.findNodeOf p list new := by
  simp [Tree.findNodeOf, Tree.findNode, generate_congr hitems hnodes, hlevel, hnodes]

theorem Body.generate_congr {l₀ : Nat} {kid : List Addr} (h : Body p t lv l₀ kid) (hl : l ≤ l₀)
    (hle : l ≤ t.level)
    (hsame : ∀ l' ≤ l, ∀ a ∈ lv l', t'.items a = t.items a ∧ t'.nodes a = t.nodes a)
    {a : Addr} (ha : a ∈ lv l) : t'.generate l a = t.generate l a := by
  induction l generalizing a with
  | zero => rw [Tree.generate, Tree.generate, (hsame 0 (Nat.le_refl _) a ha).1]
  | succ l ih =>
    rw [Tree.generate, Tree.generate, (hsame (l + 1) (Nat.le_refl _) a ha).2]
    cases hn : (t.nodes a).head? with
    | none => rfl
    | some c =>
      refine ih (by omega) (by omega) (fun l' hl' => hsame l' (by omega)) ?_
      rw [← h.kids_below (by omega : l < t.level) (by omega)]
      exact mem_flatMap.2 ⟨a, ha, mem_of_head? hn⟩

theorem Pending.top (h : Pending p t lv t.level x new A B) :
    t.root = some x ∧ A = [] ∧ B = [] ∧ t.parent x = none := by
  obtain ⟨r, hr, hparent, -, htop⟩ := h.body.top
  rw [if_pos rfl] at htop
  have hA : A = [] := by
    cases A with
    | nil => rfl
    | cons a A => simp at htop
  subst hA
  obtain ⟨rfl, rfl⟩ := htop
  exact ⟨hr, rfl, rfl, hparent⟩

structure NewRoot (t t' : Tree α) (x new root : Addr) : Prop where
  fresh : root ∉ t.live
  live : t'.live = insert root t.live
  level : t'.level = t.level + 1
  top : t'.root = some root
  items : ∀ a, a ≠ root → t'.items a = t.items a
  nodes : ∀ a, a ≠ root → t'.nodes a = t.nodes a
  nodes_root : t'.nodes root = [x, new]
  next : ∀ a, a ≠ root → t'.next a = t.next a ∧ t'.prev a = t.prev a
  next_root : t'.next root = none ∧ t'.prev root = none
  parent : ∀ c, c ≠ root → c ≠ x → c ≠ new → t'.parent c = t.parent c
  parents : t'.parent x = some root ∧ t'.parent new = some root ∧ t'.parent root = none
  nodeLevel : ∀ c, c ≠ root → c ≠ new → t'.nodeLevel c = t.nodeLevel c
  nodeLevel_new : ∀ l', t.level = l' + 1 → t'.nodeLevel new = l'
  nodeLevel_root : t'.nodeLevel root = t.level

theorem NewRoot.rep {root : Addr} (hn : NewRoot t t' x new root)
    (h : Pending p t lv t.level x new A B) :
    Rep p t' (update lv (t.level + 1) [root]) := by
  obtain ⟨hroot, rfl, rfl, -⟩ := h.top
  have hfresh : ∀ l', root ∉ lv l' := fun l' hmem => hn.fresh (h.body.live l' _ hmem)
  have hne : ∀ l', ∀ a ∈ lv l', a ≠ root := by
    rintro l' a hmem rfl
    exact hfresh l' hmem
  have hself : update lv (t.level + 1) [root] (t.level + 1) = [root] :=
    update_self ..
  have hother : ∀ l' ≤ t.level, update lv (t.level + 1) [root] l' = lv l' :=
    fun l' hle => update_of_ne (by omega) ..
  have hzero := hother 0 (Nat.zero_le _)
  have hpages : lv t.level = [x, new] := h.pages
  have htwo := p.two_le_nodeCount
  have hxnew : ∀ l' < t.level, ∀ c ∈ lv l', c ≠ x ∧ c ≠ new := by
    intro l' hl' c hc
    refine ⟨?_, ?_⟩ <;> rintro rfl
    · have := h.body.apart l' t.level c hc (by rw [hpages]; simp)
      omega
    · have := h.body.apart l' t.level c hc (by rw [hpages]; simp)
      omega
  have hin : ∀ l', ∀ a ∈ lv l', a ∈ t'.live := by
    intro l' a ha
    rw [hn.live]
    exact Finset.mem_insert_of_mem (h.body.live l' a ha)
  refine ⟨?_, ?_, ?_, ?_, ?_, ?_, ?_, ?_, update_nodup h.body.nodup (nodup_singleton _),
    update_apart h.body.apart ?_, update_live (fun l' _ => hin l') ?_, ?_, ?_⟩
  · intro l' hl'
    rw [hn.level] at hl'
    by_cases heq : l' = t.level + 1
    · rw [heq, hself]
      exact ⟨hn.next_root.2, hn.next_root.1, trivial⟩
    · rw [hother l' (by omega)]
      exact (h.body.links l' (by omega)).congr (fun a ha => (hn.next a (hne l' a ha)).1)
        fun a ha => (hn.next a (hne l' a ha)).2
  · intro l' hl'
    rw [hn.level] at hl' ⊢
    rw [if_neg (by omega), hother l' (by omega)]
    by_cases heq : l' = t.level
    · rw [heq, hself, hpages]
      simp [hn.nodes_root]
    · rw [hother (l' + 1) (by omega), flatMap_congr (fun a ha => hn.nodes a (hne _ a ha)),
        h.body.kids l' (by omega), if_neg heq]
  · intro l' hl' a ha c hc
    rw [hn.level] at hl'
    by_cases heq : l' = t.level
    · rw [heq, hself, mem_singleton] at ha
      rw [ha, hn.nodes_root] at hc
      simp only [mem_cons, not_mem_nil, or_false] at hc
      rcases hc with rfl | rfl
      · refine ⟨by rw [ha]; exact hn.parents.1, fun l'' hl'' => ?_⟩
        obtain ⟨r, hr, -, hlevel, -⟩ := h.body.top
        obtain rfl : c = r := Option.mem_unique hroot hr
        rw [hn.nodeLevel c (hne t.level c (by rw [hpages]; simp)), (hlevel l'' (by omega)).1]
        have hnodup := h.body.nodup t.level
        rw [hpages] at hnodup
        simp at hnodup
        exact hnodup
      · exact ⟨by rw [ha]; exact hn.parents.2.1, fun l'' hl'' => hn.nodeLevel_new l'' (by omega)⟩
    · rw [hother (l' + 1) (by omega)] at ha
      rw [hn.nodes a (hne _ a ha)] at hc
      have hh := h.body.hangs l' (by omega) a ha c hc
      have hmem : c ∈ lv l' := by
        have hk := h.body.kids l' (by omega)
        rw [if_neg heq] at hk
        rw [← hk]
        exact mem_flatMap.2 ⟨a, ha, hc⟩
      obtain ⟨hcx, hcn⟩ := hxnew l' (by omega) c hmem
      exact ⟨by rw [hn.parent c (hne l' c hmem) hcx hcn, hh.1],
        fun l'' hl'' => by rw [hn.nodeLevel c (hne l' c hmem) hcn, hh.2 l'' hl'']⟩
  · intro l' hl' a ha
    rw [hn.level] at hl'
    by_cases heq : l' = t.level
    · rw [heq, hself, mem_singleton] at ha
      rw [ha, NodeCount, hn.nodes_root]
      simp
      omega
    · rw [hother (l' + 1) (by omega)] at ha
      rw [NodeCount, hn.nodes a (hne _ a ha)]
      exact h.body.counts l' (by omega) a ha
  · intro l' hl'
    rw [hn.level] at hl'
    by_cases heq : l' = t.level
    · rw [heq, hself]
      exact .singleton _
    · rw [hother (l' + 1) (by omega)]
      refine IsChain.imp_of_mem_imp (fun a b ha hb hab => ?_) (h.body.pairs l' (by omega))
      rwa [hn.nodes a (hne _ a ha), hn.nodes b (hne _ b hb)]
  · refine ⟨root, hn.top, hn.parents.2.2, fun l' hl' => ?_, ?_⟩
    · rw [hn.level] at hl'
      rw [hn.nodes_root, hn.nodeLevel_root]
      exact ⟨by omega, by simp⟩
    · rw [if_neg (by omega), hn.level, hself]
  · intro a ha
    rw [hn.items a (hne 0 a ha)]
    exact h.body.leaves a ha
  · intro _ a ha
    rw [hn.items a (hne 0 a ha)]
    exact h.body.filled h.filled a ha
  · intro a ha l' _
    rw [mem_singleton.1 ha]
    exact hfresh l'
  · intro a ha
    rw [mem_singleton.1 ha, hn.live]
    exact Finset.mem_insert_self ..
  · intro l' hl'
    rw [hn.level] at hl'
    rw [update_of_ne (by omega)]
    exact h.body.above l' (by omega)
  · rw [hzero, flatMap_congr (fun a ha => hn.items a (hne 0 a ha))]
    exact h.body.sorted

theorem Pending.findNodeOf_root (h : Pending p t lv t.level x new A B) {root : Addr}
    (hsame : ∀ l', ∀ a ∈ lv l', t'.items a = t.items a ∧ t'.nodes a = t.nodes a)
    (hnodes : t'.nodes root = [x]) (hlevel : t'.nodeLevel root = t.level) :
    t'.findNodeOf p root new = 1 := by
  obtain ⟨-, rfl, rfl, -⟩ := h.top
  have hpages : lv t.level = [x, new] := h.pages
  have hasc := h.body.ascending (Nat.le_refl _) (Nat.le_refl _) h.filled
    (Sublist.refl (lv t.level))
  rw [hpages] at hasc
  have hgen : ∀ a ∈ lv t.level, t'.generate t.level a = t.generate t.level a :=
    fun a ha => h.body.generate_congr (Nat.le_refl _) (Nat.le_refl _) (fun l' _ => hsame l') ha
  have hx := hgen x (by rw [hpages]; simp)
  have hnew := hgen new (by rw [hpages]; simp)
  obtain ⟨k, hk⟩ := hasc.1 new (by simp)
  have hlt : ∀ y ∈ t.generate t.level x, p.key y < p.key k :=
    fun y hy => rel_of_pairwise_cons hasc.2 (by simp) y hy k hk
  have hasc' : Ascending p (t'.generate t.level) ([x] ++ []) := by
    refine ⟨fun e he => ?_, by simp⟩
    obtain rfl : e = x := by simpa using he
    rw [hx]
    exact hasc.1 e (by simp)
  have hfind := @find_place _ _ _ p _ (t'.generate t.level) [x] [] (p.key k) hasc' (by
    intro e he y hy
    obtain rfl := mem_singleton.1 he
    rw [hx] at hy
    exact hlt y hy) (by simp)
  rw [Tree.findNodeOf, hlevel, hnew, hk]
  simp only
  rw [Tree.findNode, hlevel, hnodes]
  simpa using hfind

theorem Pending.growRoot (h : Pending p t lv t.level x new A B) (map : List (Option Nat)) :
    ∃ t', t.growRoot p none new map = (.added, t') ∧
      Rep p t' (update lv (t.level + 1) [p.pool.allocate t.live]) ∧
      (∀ a ∈ lv 0, t'.items a = t.items a) ∧ t'.level = t.level + 1 := by
  obtain ⟨hroot, -, -, -⟩ := h.top
  have hfresh := p.pool.fresh t.live
  set R := p.pool.allocate t.live with hR
  have hne : ∀ l', ∀ a ∈ lv l', a ≠ R := by
    rintro l' a hmem rfl
    exact hfresh (h.body.live l' _ hmem)
  have hxR : x ≠ R := hne t.level x (by rw [h.pages]; simp)
  have hnR : new ≠ R := hne t.level new (by rw [h.pages]; simp)
  have hnx : new ≠ x := by
    rintro rfl
    exact h.new_not_mem (by simp)
  have hfind : ∀ t₁ : Tree α, t₁.nodes R = [x] → t₁.nodeLevel R = t.level →
      (∀ a, a ≠ R → t₁.items a = t.items a ∧ t₁.nodes a = t.nodes a) →
      t₁.findNodeOf p R new = 1 :=
    fun t₁ hnodes hlevel hsame =>
      h.findNodeOf_root (fun l' a ha => hsame a (hne l' a ha)) hnodes hlevel
  simp only [Tree.growRoot, takeRoom, hroot, Tree.allocate, ← hR]
  rw [hfind _ (by simp [Tree.setNodes, Tree.setNodeParent])
    (by
      simp only [Tree.setNodes, Tree.setNodeParent]
      rw [setNodeParentAndLevel_nodeLevel_of_ne _ _ _ hnR.symm]
      simp)
    (by
      intro a ha
      simp [Tree.setNodes, Tree.setNodeParent, ha])]
  refine ⟨_, rfl, NewRoot.rep (x := x) ?_ h, ?_, by simp [Tree.setNodes, Tree.setNodeParent]⟩
  · refine ⟨hfresh, ?_, ?_, rfl, ?_, ?_, ?_, ?_, ?_, ?_, ?_, ?_, ?_, ?_⟩
    · simp [Tree.setNodes, Tree.setNodeParent]
    · simp [Tree.setNodes, Tree.setNodeParent]
    · intro a ha
      simp [Tree.setNodes, Tree.setNodeParent, ha]
    · intro a ha
      simp [Tree.setNodes, Tree.setNodeParent, ha]
    · simp [Tree.setNodes, Tree.setNodeParent]
    · intro a ha
      simp [Tree.setNodes, Tree.setNodeParent, ha]
    · simp [Tree.setNodes, Tree.setNodeParent]
    · intro c hc hcx hcn
      simp [Tree.setNodes, Tree.setNodeParent, hc, hcx, hcn]
    · simp [Tree.setNodes, Tree.setNodeParent, hnx, hxR.symm, hnR.symm]
    · intro c hc hcn
      simp only [Tree.setNodes, Tree.setNodeParent]
      rw [setNodeParentAndLevel_nodeLevel_of_ne _ _ _ hcn]
      exact update_of_ne hc ..
    · intro l' hl'
      exact setNodeParentAndLevel_nodeLevel_self _ _ _ _ hl'
    · simp only [Tree.setNodes, Tree.setNodeParent]
      rw [setNodeParentAndLevel_nodeLevel_of_ne _ _ _ hnR.symm]
      exact update_self ..
  · intro a ha
    simp [Tree.setNodes, Tree.setNodeParent, hne 0 a ha]

theorem insertIdx_behind (K₁ K₂ : List Addr) (x new : Addr) :
    (K₁ ++ x :: K₂).insertIdx (K₁.length + 1) new = K₁ ++ x :: new :: K₂ := by
  have hinsert := @Common.insertIdx_append _ (K₁ ++ [x]) K₂ new
  simpa using hinsert

omit [LinearOrder κ] in
theorem last_of_full {K : List Addr} {z : Addr} (hnodes : t.nodes list = K₁ ++ x :: (K ++ [z]))
    (hfull : (t.nodes list).length = p.nodeCount) (d : Addr) :
    (t.nodes list)[p.nodeCount - 1]?.getD d = z ∧
      (t.nodes list).take (p.nodeCount - 1) = K₁ ++ x :: K := by
  have happ : t.nodes list = (K₁ ++ x :: K) ++ [z] := by rw [hnodes]; simp
  have hlen : p.nodeCount - 1 = (K₁ ++ x :: K).length := by
    rw [← hfull, happ]
    simp
  rw [hlen, happ]
  refine ⟨by simp, take_left⟩

omit [LinearOrder κ] in
theorem Above.last_nil (ha : Above t lv l x list A B A' B' K₁ K₂)
    (hfull : (t.nodes list).length = p.nodeCount) (hlast : K₁.length + 1 = p.nodeCount) :
    K₂ = [] := by
  rw [ha.nodes, length_append, length_cons] at hfull
  exact eq_nil_of_length_eq_zero (by omega)

omit [LinearOrder κ] in
theorem Above.exists_last (ha : Above t lv l x list A B A' B' K₁ K₂)
    (hfull : (t.nodes list).length = p.nodeCount) (hlast : K₁.length + 1 ≠ p.nodeCount) :
    ∃ K z, K₂ = K ++ [z] := by
  rcases eq_nil_or_concat K₂ with rfl | ⟨K, z, rfl⟩
  · rw [ha.nodes] at hfull
    simp at hfull
    omega
  · exact ⟨K, z, concat_eq_append ..⟩

omit [LinearOrder κ] in
theorem Above.mem_nodes {c : Addr} (ha : Above t lv l x list A B A' B' K₁ K₂)
    (hc : c ∈ K₁ ++ x :: K₂) : c ∈ t.nodes list := by
  rw [ha.nodes]
  exact hc

variable {newList : Addr} {t₁ : Tree α}

theorem Pending.ne_newList (h : Pending p t lv l x new A B)
    (halloc : Allocated t t₁ list newList) (l' : Nat) (a : Addr) (ha : a ∈ lv l') :
    a ≠ newList := by
  rintro rfl
  exact halloc.fresh (h.body.live l' a ha)

theorem Pending.child_ne_newList (h : Pending p t lv l x new A B) (hl : l < t.level)
    {c : Addr} (halloc : Allocated t t₁ list newList)
    (hlist : list ∈ lv (l + 1)) (hc : c ∈ t.nodes list) : c ≠ newList := by
  refine h.ne_newList halloc l c ?_
  have hkid := h.mem_kid hl hlist hc
  rw [h.pages]
  simp only [mem_append, mem_cons] at hkid ⊢
  tauto

theorem Pending.grow_last (h : Pending p t lv l x new A B) (hl : l < t.level)
    (ha : Above t lv l x list A B A' B' K₁ [])
    (halloc : Allocated t t₁ list newList) (hfull : (t.nodes list).length = p.nodeCount)
    (hnext : ∀ b ∈ B'.head?, 2 ≤ (t.nodes b).length) :
    Pending p ((t₁.setNodeParentAndLevel new l newList).setNodes newList [new])
      (update lv (l + 1) (A' ++ list :: newList :: B')) (l + 1) list newList A' B' := by
  have hlist : list ∈ lv (l + 1) := by rw [ha.split]; simp
  have hll := h.ne_newList halloc (l + 1) list hlist
  refine h.grow hl ha halloc ?_ (K₁ ++ [x]) [new] ?_ ?_ ?_ ?_ ?_ rfl hnext ?_ ?_ ?_ ?_ ?_
  · constructor <;> simp [Tree.setNodes]
  · simp [Tree.setNodes, hll, halloc.nodes, ha.nodes]
  · simp [Tree.setNodes]
  · intro a _ hne
    simp [Tree.setNodes, hne, halloc.nodes]
  · simp
  · rw [← hfull, ha.nodes]
  · intro c hne hc
    simp only [mem_append, mem_singleton, not_or] at hc
    simp [Tree.setNodes, halloc.parent, hne, hc.2]
  · intro c hc
    have hold := ha.mem_nodes hc
    simp [Tree.setNodes, halloc.parent, h.child_ne_newList hl halloc hlist hold,
      h.ne_new hl hlist hold, h.parent_eq hl hlist hold]
  · intro c hc
    obtain rfl := mem_singleton.1 hc
    simp [Tree.setNodes]
  · intro c hc
    rw [← halloc.nodeLevel]
    exact setNodeParentAndLevel_nodeLevel_of_ne t₁ l newList hc
  · exact fun l' hl' => setNodeParentAndLevel_nodeLevel_self t₁ new l newList hl'

theorem Pending.grow_spill (h : Pending p t lv l x new A B) (hl : l < t.level) {K : List Addr}
    {z : Addr} (ha : Above t lv l x list A B A' B' K₁ (K ++ [z]))
    (halloc : Allocated t t₁ list newList) (hfull : (t.nodes list).length = p.nodeCount)
    (hnext : ∀ b ∈ B'.head?, 2 ≤ (t.nodes b).length) (hmoved : Moved t₁ t')
    (hnodes : t'.nodes = update (update t₁.nodes newList [z]) list (K₁ ++ x :: new :: K))
    (hparent : t'.parent = update (update t₁.parent z (some newList)) new (some list))
    (hlevel : ∀ c, c ≠ new → t'.nodeLevel c = t₁.nodeLevel c)
    (hnew : ∀ l', l = l' + 1 → t'.nodeLevel new = l') :
    Pending p t' (update lv (l + 1) (A' ++ list :: newList :: B')) (l + 1) list newList
      A' B' := by
  have hlist : list ∈ lv (l + 1) := by rw [ha.split]; simp
  have hll := h.ne_newList halloc (l + 1) list hlist
  have hz : z ∈ t.nodes list := ha.mem_nodes (by simp)
  have hznew := h.ne_new hl hlist hz
  have hkz : ∀ c ∈ K₁ ++ x :: K, c ≠ z := by
    have hn := h.body.nodup l
    rw [h.pages, ha.before, ha.behind] at hn
    have hsub : ((K₁ ++ x :: K) ++ [z]).Sublist
        ((A'.flatMap t.nodes ++ K₁) ++ x :: new :: (K ++ [z] ++ B'.flatMap t.nodes)) := by
      rw [append_assoc, append_assoc]
      refine Sublist.trans ?_ (sublist_append_right _ _)
      refine (Sublist.refl K₁).append (Sublist.cons_cons x (Sublist.cons new ?_))
      exact sublist_append_left _ _
    have hn' := hn.sublist hsub
    rw [nodup_append] at hn'
    exact fun c hc => hn'.2.2 c hc z (by simp)
  refine h.grow hl ha halloc hmoved (K₁ ++ x :: new :: K) [z] ?_ ?_ ?_ ?_ ?_ rfl hnext ?_ ?_ ?_ ?_
    hnew
  · simp [hnodes]
  · simp [hnodes, hll.symm]
  · intro a hne hne'
    simp [hnodes, hne, hne', halloc.nodes]
  · simp
  · rw [← hfull, ha.nodes]
    simp
  · intro c hne hc
    simp only [mem_append, mem_cons, not_or] at hc
    simp [hparent, halloc.parent, hne, hc.2, hc.1.2.2.1]
  · intro c hc
    by_cases hcn : c = new
    · subst hcn
      simp [hparent]
    · have hc' : c ∈ K₁ ++ x :: K := by
        simp only [mem_append, mem_cons] at hc ⊢
        tauto
      have hold : c ∈ t.nodes list := by
        refine ha.mem_nodes ?_
        simp only [mem_append, mem_cons] at hc' ⊢
        tauto
      simp [hparent, halloc.parent, hcn, hkz c hc', h.child_ne_newList hl halloc hlist hold,
        h.parent_eq hl hlist hold]
  · intro c hc
    obtain rfl := mem_singleton.1 hc
    simp [hparent, hznew]
  · intro c hc
    rw [hlevel c hc, halloc.nodeLevel]

theorem Pending.climb_here (h : Pending p t lv l x new A B) (hl : l < t.level)
    (ha : Above t lv l x list A B A' B' K₁ K₂) (hroom : (t.nodes list).length < p.nodeCount) :
    let t₁ := t.setNodeParentAndLevel new l list
    Rep p (t₁.setNodes list ((t₁.nodes list).insertIdx (t₁.findNodeOf p list new) new)) lv := by
  have hlist : list ∈ lv (l + 1) := by rw [ha.split]; simp
  have hne : list ≠ new := by
    rintro rfl
    have := h.body.apart (l + 1) l list hlist (by rw [h.pages]; simp)
    omega
  have hfind : (t.setNodeParentAndLevel new l list).findNodeOf p list new = K₁.length + 1 := by
    rw [findNodeOf_congr (by simp) (by simp)
      (setNodeParentAndLevel_nodeLevel_of_ne t l list hne), h.findNodeOf_eq hl ha]
  refine h.easy hl ha hroom ?_ ?_ ?_ ?_ ?_
  · constructor <;> simp [Tree.setNodes]
  · simp [Tree.setNodes, hfind, ha.nodes, insertIdx_behind]
  · simp [Tree.setNodes]
  · exact fun c hc => setNodeParentAndLevel_nodeLevel_of_ne t l list hc
  · exact fun l' hl' => setNodeParentAndLevel_nodeLevel_self t new l list hl'

theorem Pending.climb_next (h : Pending p t lv l x new A B) (hl : l < t.level)
    (ha : Above t lv l x list A B A' B' K₁ K₂) (hfull : (t.nodes list).length = p.nodeCount)
    {nx : Addr} (hnx : t.next list = some nx) (hroom : (t.nodes nx).length < p.nodeCount) :
    if K₁.length + 1 = p.nodeCount then
      let t₁ := t.setNodeParentAndLevel new l nx
      Rep p (t₁.setNodes nx (new :: t₁.nodes nx)) lv
    else
      let last := (t.nodes list).getD (p.nodeCount - 1) new
      let t₁ := (t.setNodeParent last (some nx)).setNodes nx (last :: t.nodes nx)
      let t₁ := t₁.setNodes list ((t₁.nodes list).take (p.nodeCount - 1))
      let t₁ := t₁.setNodeParentAndLevel new l list
      Rep p (t₁.setNodes list ((t₁.nodes list).insertIdx (K₁.length + 1) new)) lv := by
  have hlinked := h.body.links (l + 1) hl
  rw [ha.split] at hlinked
  rw [hlinked.next_eq] at hnx
  obtain ⟨B', rfl⟩ : ∃ B'', B' = nx :: B'' := ⟨B'.tail, eq_cons_of_mem_head? hnx⟩
  split_ifs with hlast
  · obtain rfl := ha.last_nil hfull hlast
    refine h.next_front hl ha hroom ?_ ?_ ?_ ?_ ?_
    · constructor <;> simp [Tree.setNodes]
    · simp [Tree.setNodes]
    · simp [Tree.setNodes]
    · exact fun c hc => setNodeParentAndLevel_nodeLevel_of_ne t l nx hc
    · exact fun l' hl' => setNodeParentAndLevel_nodeLevel_self t new l nx hl'
  · obtain ⟨K, z, rfl⟩ := ha.exists_last hfull hlast
    have hne : list ≠ nx := by
      have hn := h.body.nodup (l + 1)
      rw [ha.split, nodup_append, nodup_cons] at hn
      rintro rfl
      exact hn.2.1.1 (by simp)
    obtain ⟨hz, htake⟩ := last_of_full ha.nodes hfull new
    refine h.next_spill hl ha hroom ?_ ?_ ?_ ?_ ?_
    · constructor <;> simp [Tree.setNodes, Tree.setNodeParent]
    · simp [Tree.setNodes, Tree.setNodeParent, hne, hz, htake, insertIdx_behind]
    · simp [Tree.setNodes, Tree.setNodeParent, hz]
    · exact fun c hc => setNodeParentAndLevel_nodeLevel_of_ne _ l list hc
    · exact fun l' hl' => setNodeParentAndLevel_nodeLevel_self _ new l list hl'

theorem Pending.climb_prev (h : Pending p t lv l x new A B) (hl : l < t.level)
    (ha : Above t lv l x list A B A' B' K₁ K₂) {pv : Addr} (hpv : t.prev list = some pv)
    (hroom : (t.nodes pv).length < p.nodeCount) :
    let first := (t.nodes list).headD new
    let t₁ := t.setNodeParent first (some pv)
    let t₁ := t₁.setNodes pv (t₁.nodes pv ++ [first])
    let t₁ := t₁.setNodes list ((t₁.nodes list).eraseIdx 0)
    let t₁ := t₁.setNodeParentAndLevel new l list
    Rep p (t₁.setNodes list ((t₁.nodes list).insertIdx K₁.length new)) lv := by
  have hlinked := h.body.links (l + 1) hl
  rw [ha.split] at hlinked
  rw [hlinked.prev_eq] at hpv
  obtain ⟨A', rfl⟩ := getLast?_eq_some_iff.1 hpv
  have hne : list ≠ pv := by
    have hn := h.body.nodup (l + 1)
    rw [ha.split, nodup_append] at hn
    exact (hn.2.2 pv (by simp) list (by simp)).symm
  obtain ⟨z, K, hfirst⟩ : ∃ z K, K₁ ++ x :: new :: K₂ = z :: K := by
    cases K₁ <;> exact ⟨_, _, rfl⟩
  have hinsert : (t.nodes list).head?.getD new = z ∧
      (t.nodes list).tail.insertIdx K₁.length new = K := by
    rw [ha.nodes]
    cases K₁ with
    | nil =>
      obtain ⟨rfl, rfl⟩ := cons_eq_cons.1 hfirst
      simp
    | cons k K₁ =>
      obtain ⟨rfl, rfl⟩ := cons_eq_cons.1 hfirst
      simp [insertIdx_behind]
  refine h.prev_spill hl ha hfirst hroom ?_ ?_ ?_ ?_ ?_
  · constructor <;> simp [Tree.setNodes, Tree.setNodeParent]
  · simp [Tree.setNodes, Tree.setNodeParent, hne, hinsert]
  · simp [Tree.setNodes, Tree.setNodeParent, hinsert]
  · exact fun c hc => setNodeParentAndLevel_nodeLevel_of_ne _ l list hc
  · exact fun l' hl' => setNodeParentAndLevel_nodeLevel_self _ new l list hl'

theorem Pending.climb_new (h : Pending p t lv l x new A B) (hl : l < t.level)
    (ha : Above t lv l x list A B A' B' K₁ K₂) (hfull : (t.nodes list).length = p.nodeCount)
    (hbounds : ∀ b ∈ B'.head?, 2 ≤ (t.nodes b).length)
    (halloc : Allocated t t₁ list newList) :
    if K₁.length + 1 = p.nodeCount then
      Pending p ((t₁.setNodeParentAndLevel new l newList).setNodes newList [new])
        (update lv (l + 1) (A' ++ list :: newList :: B')) (l + 1) list newList A' B'
    else
      let last := (t₁.nodes list).getD (p.nodeCount - 1) new
      let t₂ := (t₁.setNodeParent last (some newList)).setNodes newList [last]
      let t₂ := t₂.setNodes list ((t₂.nodes list).take (p.nodeCount - 1))
      let t₂ := t₂.setNodeParentAndLevel new l list
      Pending p (t₂.setNodes list ((t₂.nodes list).insertIdx (K₁.length + 1) new))
        (update lv (l + 1) (A' ++ list :: newList :: B')) (l + 1) list newList A' B' := by
  have hlist : list ∈ lv (l + 1) := by rw [ha.split]; simp
  have hll := h.ne_newList halloc (l + 1) list hlist
  split_ifs with hlast
  · obtain rfl := ha.last_nil hfull hlast
    exact h.grow_last hl ha halloc hfull hbounds
  · obtain ⟨K, z, rfl⟩ := ha.exists_last hfull hlast
    obtain ⟨hz, htake⟩ := last_of_full ha.nodes hfull new
    have hnodes₁ : t₁.nodes list = t.nodes list := by
      rw [halloc.nodes, update_of_ne hll]
    refine h.grow_spill hl ha halloc hfull hbounds ?_ ?_ ?_ ?_ ?_
    · constructor <;> simp [Tree.setNodes, Tree.setNodeParent]
    · simp [Tree.setNodes, Tree.setNodeParent, hll, hnodes₁, hz, htake, insertIdx_behind]
    · simp [Tree.setNodes, Tree.setNodeParent, hnodes₁, hz]
    · exact fun c hc => setNodeParentAndLevel_nodeLevel_of_ne _ l list hc
    · exact fun l' hl' => setNodeParentAndLevel_nodeLevel_self _ new l list hl'

/-- How the climb of `add` ends: behind the end of the recovery map, in a tree with too many levels,
or with a complete tree of the same pages of items. -/
def Climbed (p : Template α κ) (t : Tree α) (lv : Nat → List Addr) (r : AddResult × Tree α) :
    Prop :=
  r.1 = .overrun ∧ maxTreeLevel ≤ t.level ∨
    ∃ t' lv', r = (.added, t') ∧ Rep p t' lv' ∧ lv' 0 = lv 0 ∧
      (∀ a ∈ lv 0, t'.items a = t.items a) ∧ t'.level ≤ max t.level maxTreeLevel

theorem Rep.climbed (h : Rep p t' lv) (hitems : t'.items = t.items) (hlevel : t'.level = t.level) :
    Climbed p t lv (.added, t') :=
  .inr ⟨t', lv, rfl, h, rfl, fun a _ => by rw [hitems], by rw [hlevel]; exact Nat.le_max_left ..⟩

theorem Pending.climb (h : Pending p t lv l x new A B) {fuel : Nat} (hfuel : t.level < fuel + l)
    (hmap : l < maxTreeLevel) (map : List (Option Nat)) :
    Climbed p t lv (t.climb p fuel none new (t.parent x) l map) := by
  induction fuel generalizing t lv l x new A B map with
  | zero => exact absurd h.le (by omega)
  | succ fuel ih =>
    by_cases htop : l = t.level
    · subst htop
      obtain ⟨-, -, -, hparent⟩ := h.top
      obtain ⟨t', heq, hrep, hitems, hlevel⟩ := h.growRoot map
      refine .inr ⟨t', _, ?_, hrep, update_of_ne (by omega) .., hitems, ?_⟩
      · rw [hparent, Tree.climb, heq]
      · rw [hlevel]
        exact hmap.trans_le (Nat.le_max_right ..)
    have hl : l < t.level := by
      have := h.le
      omega
    have hnodup : (A ++ x :: B).Nodup := by
      have hn := h.body.nodup l
      rw [h.pages] at hn
      refine hn.sublist ((Sublist.refl A).append ?_)
      exact (sublist_cons_self new B).cons_cons x
    obtain ⟨list, A', B', K₁, K₂, ha, hparent⟩ := h.body.exists_above hl rfl hnodup
    have hlist : list ∈ lv (l + 1) := by rw [ha.split]; simp
    have hlinked := h.body.links (l + 1) hl
    rw [ha.split] at hlinked
    have hpos := h.findNodeOf_eq hl ha
    rw [hparent, Tree.climb]
    dsimp only
    by_cases hroom : (t.nodes list).length < p.nodeCount
    · rw [if_pos hroom]
      exact (h.climb_here hl ha hroom).climbed (by simp [Tree.setNodes]) (by simp [Tree.setNodes])
    rw [if_neg hroom]
    have hfull : (t.nodes list).length = p.nodeCount := by
      have := (h.body.counts l hl list hlist).2
      omega
    cases hnx : (t.next list).filter (fun list => decide ((t.nodes list).length < p.nodeCount)) with
    | some nx =>
      obtain ⟨hnx, hroom⟩ := Option.filter_eq_some_iff.1 hnx
      have hnext := h.climb_next hl ha hfull hnx (of_decide_eq_true hroom)
      simp only [hpos]
      split_ifs at hnext ⊢ with hlast
      · exact hnext.climbed (by simp [Tree.setNodes]) (by simp [Tree.setNodes])
      · exact hnext.climbed (by simp [Tree.setNodes, Tree.setNodeParent])
          (by simp [Tree.setNodes, Tree.setNodeParent])
    | none =>
      cases hpv : (t.prev list).filter (fun list => decide ((t.nodes list).length < p.nodeCount))
        with
      | some pv =>
        obtain ⟨hpv, hroom⟩ := Option.filter_eq_some_iff.1 hpv
        have hprev := h.climb_prev hl ha hpv (of_decide_eq_true hroom)
        simp only [hpos, Nat.add_one_ne_zero, if_false, Nat.add_sub_cancel]
        exact hprev.climbed (by simp [Tree.setNodes, Tree.setNodeParent])
          (by simp [Tree.setNodes, Tree.setNodeParent])
      | none =>
        have hbounds : ∀ b ∈ B'.head?, 2 ≤ (t.nodes b).length := by
          intro b hb
          have htwo := p.two_le_nodeCount
          rw [hlinked.next_eq, Option.mem_def.1 hb, Option.filter_some] at hnx
          simp only [decide_eq_true_eq, ite_eq_right_iff, reduceCtorEq, imp_false] at hnx
          omega
        have halloc := allocateAfter_allocated p.pool (h.body.live (l + 1) list hlist) fun b
          hb => by
          rw [hlinked.next_eq] at hb
          exact h.body.live (l + 1) b (by rw [ha.split]; simp [mem_of_head? hb])
        simp only [hpos, takeRoom]
        generalize t.allocateAfter p.pool list = r at halloc ⊢
        obtain ⟨newList, t₁⟩ := r
        have hnew := h.climb_new hl ha hfull hbounds halloc
        by_cases hover : l + 1 ≥ maxTreeLevel
        · rw [if_pos hover]
          exact .inl ⟨rfl, by omega⟩
        rw [if_neg hover]
        -- In both cases the climb goes on with the new page.
        have hgo : ∀ t₂ : Tree α, ∀ map,
            Pending p t₂ (update lv (l + 1) (A' ++ list :: newList :: B')) (l + 1) list
              newList A' B' → t₂.level = t₁.level → t₂.items = t₁.items →
            Climbed p t lv (t₂.climb p fuel none newList (t₂.parent list) (l + 1) map) := by
          intro t₂ map hpending hlevel hitems₂
          have hlevel₂ : t₂.level = t.level := by rw [hlevel, halloc.level]
          have hzero' : update lv (l + 1) (A' ++ list :: newList :: B') 0 = lv 0 :=
            update_of_ne (by omega) ..
          have hclimbed := ih hpending (by omega) (Nat.lt_of_not_le hover) map
          rw [Climbed, hlevel₂, hzero'] at hclimbed
          refine hclimbed.imp id fun ⟨t', lv', heq, hrep, hzero, hitems, hle⟩ =>
            ⟨t', lv', heq, hrep, hzero, fun a hmem => ?_, hle⟩
          rw [hitems a hmem, hitems₂, halloc.items, update_of_ne (h.ne_newList halloc 0 a hmem)]
        split_ifs at hnew ⊢ with hlast
        · exact hgo _ _ hnew (by simp [Tree.setNodes]) (by simp [Tree.setNodes])
        · exact hgo _ _ hnew (by simp [Tree.setNodes, Tree.setNodeParent])
            (by simp [Tree.setNodes, Tree.setNodeParent])

end Firebird.Common.Pages
