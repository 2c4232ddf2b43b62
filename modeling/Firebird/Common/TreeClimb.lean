import Firebird.Common.TreeHang
import Firebird.Common.Tree

/-!
# Adding a page

`add` climbs with a new page that is linked into its level but is not a child yet. The page becomes
a child of the page above or of a neighbour of that, or a new page is added there, too.
-/
namespace Firebird.Common.Pages

open Lib Links List Function

variable {α κ : Type} [LinearOrder κ] {p : Template α κ} {t t' : Tree α} {lv : Nat → List Addr}
variable {l : Nat} {A B A' B' K₁ K₂ : List Addr} {x new list : Addr}

/-- A new page of level `l`, behind `x`, that is not a child yet. -/
structure Pending (p : Template α κ) (t : Tree α) (lv : Nat → List Addr) (l : Nat) (x new : Addr)
    (A B : List Addr) : Prop where
  body : Body p t lv l (A ++ x :: B)
  pages : lv l = A ++ x :: new :: B
  le : l ≤ t.level

theorem Pending.filled (h : Pending p t lv l x new A B) : 0 < t.level ∨ 1 < (lv 0).length := by
  cases l with
  | zero =>
    rw [h.pages]
    right
    simp
    omega
  | succ l => exact .inl (by have := h.le; omega)

theorem nodup_split {C D : List Addr} (hnodup : (A ++ x :: B).Nodup)
    (h : A ++ x :: B = C ++ x :: D) :
    A = C ∧ B = D := by
  rw [nodup_append, nodup_cons] at hnodup
  have hxA : x ∉ A := fun hx => hnodup.2.2 x hx x (by simp) rfl
  obtain ⟨hA, -, hB⟩ := (append_cons_inj_of_notMem hxA hnodup.2.1.1).1 h
  exact ⟨hA, hB⟩

/-- The page above, around the page behind which the new one is. -/
structure Above (t : Tree α) (lv : Nat → List Addr) (l : Nat) (x list : Addr)
    (A B A' B' K₁ K₂ : List Addr) : Prop where
  split : lv (l + 1) = A' ++ list :: B'
  nodes : t.nodes list = K₁ ++ x :: K₂
  before : A = A'.flatMap t.nodes ++ K₁
  behind : B = K₂ ++ B'.flatMap t.nodes

theorem Body.exists_above {kid : List Addr} (h : Body p t lv l kid) (hl : l < t.level)
    (hkid : kid = A ++ x :: B) (hnodup : kid.Nodup) :
    ∃ list A' B' K₁ K₂, Above t lv l x list A B A' B' K₁ K₂ ∧ t.parent x = some list := by
  have hkids := h.kids l hl
  rw [if_pos rfl, hkid] at hkids
  have hx : x ∈ (lv (l + 1)).flatMap t.nodes := by rw [hkids]; simp
  obtain ⟨list, hlist, hx⟩ := mem_flatMap.1 hx
  obtain ⟨A', B', hsplit⟩ := append_of_mem hlist
  obtain ⟨K₁, K₂, hnodes⟩ := append_of_mem hx
  rw [hsplit] at hkids
  have heq : A ++ x :: B = (A'.flatMap t.nodes ++ K₁) ++ x :: (K₂ ++ B'.flatMap t.nodes) := by
    rw [← hkids]
    simp [hnodes]
  rw [hkid] at hnodup
  obtain ⟨hA, hB⟩ := nodup_split hnodup heq
  exact ⟨list, A', B', K₁, K₂, ⟨hsplit, hnodes, hA, hB⟩, (h.hangs l hl list hlist x hx).1⟩

theorem append_inj_of_parts {β : Type} {C D E F : List β} {P : β → Prop} (h : C ++ D = E ++ F)
    (hC : ∀ a ∈ C, P a) (hD : ∀ a ∈ D, ¬P a) (hE : ∀ a ∈ E, P a) (hF : ∀ a ∈ F, ¬P a) : C = E := by
  induction C generalizing E with
  | nil =>
    cases E with
    | nil => rfl
    | cons e E =>
      rw [nil_append] at h
      exact absurd (hE e (by simp)) (hD e (by simp [h]))
  | cons c C ih =>
    cases E with
    | nil =>
      rw [nil_append] at h
      exact absurd (hC c (by simp)) (hF c (by simp [← h]))
    | cons e E =>
      rw [cons_append, cons_append, List.cons.injEq] at h
      rw [h.1, ih h.2 (fun a ha => hC a (by simp [ha])) fun a ha => hE a (by simp [ha])]

theorem find_place {β : Type} {generate : β → Option α} {before after : List β} {k : κ}
    (hasc : Ascending p generate (before ++ after))
    (hbefore : ∀ e ∈ before, ∀ x ∈ generate e, p.key x < k)
    (hafter : ∀ e ∈ after, ∀ x ∈ generate e, k ≤ p.key x) :
    (find p generate (before ++ after) k).2 = before.length := by
  obtain ⟨C, D, hsplit, hC, hD, hpos, -⟩ := find_spec hasc k
  rw [hpos]
  have hsome : ∀ e ∈ before ++ after, ∃ x, generate e = some x := hasc.1
  have heq : before = C := by
    refine append_inj_of_parts (P := fun e => ∀ x ∈ generate e, p.key x < k) hsplit hbefore ?_ hC ?_
    · intro e he hlow
      obtain ⟨x, hx⟩ := hsome e (by simp [he])
      exact absurd (hlow x hx) (not_lt.2 (hafter e he x hx))
    · intro e he hlow
      obtain ⟨x, hx⟩ := hsome e (by simp [hsplit, he])
      exact absurd (hlow x hx) (not_lt.2 (hD e he x hx))
  rw [heq]

theorem Pending.findNodeOf_eq (h : Pending p t lv l x new A B) (hl : l < t.level)
    (ha : Above t lv l x list A B A' B' K₁ K₂) :
    t.findNodeOf p list new = K₁.length + 1 := by
  have hlevel : t.nodeLevel list = l :=
    h.body.nodeLevel_eq hl (by omega) (by rw [ha.split]; simp)
  have hsub : (K₁ ++ x :: new :: K₂).Sublist (lv l) := by
    rw [h.pages, ha.before, ha.behind, append_assoc]
    refine Sublist.trans ?_ (sublist_append_right _ _)
    exact (Sublist.refl K₁).append
      (((sublist_append_left K₂ _).cons_cons new).cons_cons x)
  have hasc := h.body.ascending (Nat.le_refl l) h.le h.filled hsub
  obtain ⟨k, hk⟩ := hasc.1 new (by simp)
  have hsplit : K₁ ++ x :: new :: K₂ = (K₁ ++ [x]) ++ new :: K₂ := by simp
  have hpair := hasc.2
  rw [hsplit, pairwise_append, pairwise_cons] at hpair
  have hasc' : Ascending p (t.generate l) ((K₁ ++ [x]) ++ K₂) := by
    have hsub' : ((K₁ ++ [x]) ++ K₂).Sublist (K₁ ++ x :: new :: K₂) := by
      rw [hsplit]
      exact (Sublist.refl _).append (sublist_cons_self _ _)
    exact ⟨fun e he => hasc.1 e (hsub'.subset he), hasc.2.sublist hsub'⟩
  have hnodes : t.nodes list = (K₁ ++ [x]) ++ K₂ := by rw [ha.nodes]; simp
  rw [Tree.findNodeOf, hlevel, hk]
  simp only
  rw [Tree.findNode, hlevel, hnodes, find_place hasc' ?_ ?_, length_append, length_singleton]
  · exact fun e he y hy => hpair.2.2 e he new (by simp) y hy k hk
  · exact fun e he y hy => (hpair.2.1.1 e he k hk y hy).le

theorem Pairs.mono {L : List Addr} (h : Pairs t L) (hcount : ∀ a ∈ L, 1 ≤ (t.nodes a).length)
    (hle : ∀ a ∈ L, (t.nodes a).length ≤ (t'.nodes a).length) : Pairs t' L := by
  refine IsChain.imp_of_mem_imp (fun a b ha hb hab => ?_) h
  have h₁ := hcount a ha
  have h₂ := hcount b hb
  have h₃ := hle a ha
  have h₄ := hle b hb
  omega

structure Moved (t t' : Tree α) : Prop where
  items : t'.items = t.items
  level : t'.level = t.level
  root : t'.root = t.root
  next : t'.next = t.next
  prev : t'.prev = t.prev
  live : t'.live = t.live

theorem Pending.new_not_mem (h : Pending p t lv l x new A B) : new ∉ A ++ x :: B := by
  have hnodup := h.body.nodup l
  rw [h.pages, nodup_append, nodup_cons, nodup_cons] at hnodup
  obtain ⟨-, ⟨hx, hnew, -⟩, hA⟩ := hnodup
  intro hmem
  rcases mem_append.1 hmem with hmem | hmem
  · exact hA new hmem new (by simp) rfl
  · rcases mem_cons.1 hmem with rfl | hmem
    · exact hx (by simp)
    · exact hnew hmem

theorem Pending.mem_kid (h : Pending p t lv l x new A B) (hl : l < t.level) {a c : Addr}
    (ha : a ∈ lv (l + 1)) (hc : c ∈ t.nodes a) : c ∈ A ++ x :: B := by
  have hkids := h.body.kids l hl
  rw [if_pos rfl] at hkids
  rw [← hkids]
  exact mem_flatMap.2 ⟨a, ha, hc⟩

theorem Pending.ne_new (h : Pending p t lv l x new A B) (hl : l < t.level) {a c : Addr}
    (ha : a ∈ lv (l + 1)) (hc : c ∈ t.nodes a) : c ≠ new :=
  fun heq => h.new_not_mem (heq ▸ h.mem_kid hl ha hc)

theorem Pending.nodeLevel_eq (h : Pending p t lv l x new A B) (hl : l < t.level) {c : Addr}
    (hc : c ∈ lv l) (hne : c ≠ new) {l' : Nat} (hl' : l = l' + 1) : t.nodeLevel c = l' := by
  have hkids := h.body.kids l hl
  rw [if_pos rfl] at hkids
  have hmem : c ∈ (lv (l + 1)).flatMap t.nodes := by
    rw [hkids]
    rw [h.pages] at hc
    simp only [mem_append, mem_cons] at hc ⊢
    tauto
  obtain ⟨a, ha, hc⟩ := mem_flatMap.1 hmem
  exact (h.body.hangs l hl a ha c hc).2 l' hl'

structure Hung (t t' : Tree α) (l : Nat) (new : Addr) (M : List Addr) : Prop where
  parents : ∀ a ∈ M, ∀ c ∈ t'.nodes a, t'.parent c = some a
  nodeLevel : ∀ c, c ≠ new → t'.nodeLevel c = t.nodeLevel c
  new : ∀ l', l = l' + 1 → t'.nodeLevel new = l'

theorem Pending.hangs {M : List Addr} (h : Pending p t lv l x new A B) (hl : l < t.level)
    (hhung : Hung t t' l new M)
    (hkids : A'.flatMap t.nodes ++ M.flatMap t'.nodes ++ B'.flatMap t.nodes = lv l) :
    ∀ a ∈ M, ∀ c ∈ t'.nodes a, Hangs t' l c a := by
  intro a ha c hc
  refine ⟨hhung.parents a ha c hc, fun l' hl' => ?_⟩
  by_cases hne : c = new
  · rw [hne]
    exact hhung.new l' hl'
  · rw [hhung.nodeLevel c hne]
    refine h.nodeLevel_eq hl ?_ hne hl'
    rw [← hkids]
    simp only [mem_append]
    exact .inl (.inr (mem_flatMap.2 ⟨a, ha, hc⟩))

theorem Pending.ne_of_not_mem {M : List Addr} (h : Pending p t lv l x new A B) (hl : l < t.level)
    (hkids : A'.flatMap t.nodes ++ M.flatMap t'.nodes ++ B'.flatMap t.nodes = lv l)
    (hA : ∀ a, a ∈ A' ∨ a ∈ B' → a ∈ lv (l + 1)) {c : Addr} (hc : c ∉ M.flatMap t'.nodes) :
    c ≠ new := by
  rintro rfl
  have hmem : c ∈ lv l := by rw [h.pages]; simp
  rw [← hkids] at hmem
  simp only [mem_append] at hmem
  rcases hmem with (hmem | hmem) | hmem
  · obtain ⟨a, ha, hca⟩ := mem_flatMap.1 hmem
    exact h.ne_new hl (hA a (.inl ha)) hca rfl
  · exact hc hmem
  · obtain ⟨a, ha, hca⟩ := mem_flatMap.1 hmem
    exact h.ne_new hl (hA a (.inr ha)) hca rfl

theorem Pending.rehang (h : Pending p t lv l x new A B) (hl : l < t.level) (A' M B' : List Addr)
    (hsplit : lv (l + 1) = A' ++ M ++ B') (hmoved : Moved t t')
    (hnodes : ∀ a ∉ M, t'.nodes a = t.nodes a) (hhung : Hung t t' l new M)
    (hparent : ∀ c, c ∉ M.flatMap t'.nodes → t'.parent c = t.parent c)
    (hkids : A'.flatMap t.nodes ++ M.flatMap t'.nodes ++ B'.flatMap t.nodes = lv l)
    (hcounts : ∀ a ∈ M, (t.nodes a).length ≤ (t'.nodes a).length ∧
      (t'.nodes a).length ≤ p.nodeCount) : Rep p t' lv := by
  have hM : ∀ a ∈ M, a ∈ lv (l + 1) := by
    intro a ha
    rw [hsplit]
    simp [ha]
  have hgrow : ∀ a ∈ lv (l + 1), (t.nodes a).length ≤ (t'.nodes a).length := by
    intro a ha
    by_cases hm : a ∈ M
    · exact (hcounts a hm).1
    · rw [hnodes a hm]
  have hcount : ∀ a ∈ lv (l + 1), 1 ≤ (t.nodes a).length := fun a ha => (h.body.counts l hl a ha).1
  have haround : ∀ a, a ∈ A' ∨ a ∈ B' → a ∈ lv (l + 1) := by
    intro a ha
    rw [hsplit]
    simp only [mem_append]
    tauto
  have hrehang : Rehang p t t' lv l A' M M B' := by
    refine ⟨hsplit, fun a _ => by rw [hmoved.items], hmoved.level, hmoved.root,
      fun a ha _ => hnodes a ha,
      fun _ c _ hc => ⟨hparent c hc, hhung.nodeLevel c (h.ne_of_not_mem hl hkids haround hc)⟩,
      fun l' _ a _ => ⟨by rw [hmoved.next], by rw [hmoved.prev]⟩, ?_, fun a ha =>
        .inl ha, ?_, hkids,
      fun a ha => ⟨(hcount a (hM a ha)).trans (hcounts a ha).1, (hcounts a ha).2⟩,
      h.hangs hl hhung hkids, ?_, ?_, ?_⟩
    · rw [hmoved.live]
      exact h.body.live
    · rw [hmoved.next, hmoved.prev, ← hsplit]
      exact h.body.links (l + 1) hl
    · rw [← hsplit]
      exact (h.body.pairs l hl).mono hcount hgrow
    · rw [← hsplit]
      exact h.body.nodup (l + 1)
    · intro heq r hr
      obtain ⟨r', hr', -, hlevel, htop⟩ := h.body.top
      obtain rfl : r = r' := Option.mem_unique hr hr'
      rw [if_neg (by omega), heq] at htop
      exact (hlevel l heq).2.trans (hgrow r (by rw [htop]; simp))
  exact hrehang.rep h.body hl

theorem Pending.parent_eq (h : Pending p t lv l x new A B) (hl : l < t.level) {a c : Addr}
    (ha : a ∈ lv (l + 1)) (hc : c ∈ t.nodes a) : t.parent c = some a :=
  (h.body.hangs l hl a ha c hc).1

theorem Pending.easy (h : Pending p t lv l x new A B) (hl : l < t.level)
    (ha : Above t lv l x list A B A' B' K₁ K₂) (hroom : (t.nodes list).length < p.nodeCount)
    (hmoved : Moved t t') (hnodes : t'.nodes = update t.nodes list (K₁ ++ x :: new :: K₂))
    (hparent : t'.parent = update t.parent new (some list))
    (hlevel : ∀ c, c ≠ new → t'.nodeLevel c = t.nodeLevel c)
    (hnew : ∀ l', l = l' + 1 → t'.nodeLevel new = l') : Rep p t' lv := by
  have hlist : list ∈ lv (l + 1) := by rw [ha.split]; simp
  have hself : t'.nodes list = K₁ ++ x :: new :: K₂ := by simp [hnodes]
  refine h.rehang hl A' [list] B' (by rw [ha.split]; simp) hmoved ?_ ⟨?_, hlevel, hnew⟩ ?_ ?_ ?_
  · intro a hne
    simp only [mem_singleton] at hne
    rw [hnodes, update_of_ne hne]
  · intro a hm c hc
    obtain rfl := mem_singleton.1 hm
    rw [hself] at hc
    rw [hparent]
    by_cases hne : c = new
    · rw [hne, update_self]
    · rw [update_of_ne hne]
      refine h.parent_eq hl hlist ?_
      rw [ha.nodes]
      simp only [mem_append, mem_cons] at hc ⊢
      tauto
  · intro c hc
    rw [hparent, update_of_ne]
    rintro rfl
    simp [hself] at hc
  · rw [flatMap_singleton, hself, h.pages, ha.before, ha.behind]
    simp
  · intro a hm
    obtain rfl := mem_singleton.1 hm
    rw [hself]
    rw [ha.nodes] at hroom ⊢
    simp only [length_append, length_cons] at hroom ⊢
    omega

theorem Pending.two (h : Pending p t lv l x new A B) (hl : l < t.level) {u₁ u₂ : Addr}
    {N₁ N₂ : List Addr} (hsplit : lv (l + 1) = A' ++ u₁ :: u₂ :: B') (hmoved : Moved t t')
    (h₁ : t'.nodes u₁ = N₁) (h₂ : t'.nodes u₂ = N₂)
    (hnodes : ∀ a, a ≠ u₁ → a ≠ u₂ → t'.nodes a = t.nodes a)
    (hkids : A'.flatMap t.nodes ++ (N₁ ++ N₂) ++ B'.flatMap t.nodes = lv l)
    (hcount₁ : (t.nodes u₁).length ≤ N₁.length ∧ N₁.length ≤ p.nodeCount)
    (hcount₂ : (t.nodes u₂).length ≤ N₂.length ∧ N₂.length ≤ p.nodeCount)
    (hparent : ∀ c, c ∉ N₁ ++ N₂ → t'.parent c = t.parent c)
    (hparent₁ : ∀ c ∈ N₁, t'.parent c = some u₁) (hparent₂ : ∀ c ∈ N₂, t'.parent c = some u₂)
    (hlevel : ∀ c, c ≠ new → t'.nodeLevel c = t.nodeLevel c)
    (hnew : ∀ l', l = l' + 1 → t'.nodeLevel new = l') : Rep p t' lv := by
  have hflat : [u₁, u₂].flatMap t'.nodes = N₁ ++ N₂ := by simp [h₁, h₂]
  refine h.rehang hl A' [u₁, u₂] B' (by rw [hsplit]; simp) hmoved ?_ ⟨?_, hlevel, hnew⟩ ?_ ?_ ?_
  · intro a hne
    simp only [mem_cons, not_mem_nil, or_false, not_or] at hne
    exact hnodes a hne.1 hne.2
  · intro a hm c hc
    simp only [mem_cons, not_mem_nil, or_false] at hm
    rcases hm with rfl | rfl
    · exact hparent₁ c (h₁ ▸ hc)
    · exact hparent₂ c (h₂ ▸ hc)
  · rw [hflat]
    exact hparent
  · rw [hflat]
    exact hkids
  · intro a hm
    simp only [mem_cons, not_mem_nil, or_false] at hm
    rcases hm with rfl | rfl
    · rw [h₁]
      exact hcount₁
    · rw [h₂]
      exact hcount₂

theorem Pending.next_front (h : Pending p t lv l x new A B) (hl : l < t.level) {nx : Addr}
    (ha : Above t lv l x list A B A' (nx :: B') K₁ []) (hroom : (t.nodes nx).length < p.nodeCount)
    (hmoved : Moved t t') (hnodes : t'.nodes = update t.nodes nx (new :: t.nodes nx))
    (hparent : t'.parent = update t.parent new (some nx))
    (hlevel : ∀ c, c ≠ new → t'.nodeLevel c = t.nodeLevel c)
    (hnew : ∀ l', l = l' + 1 → t'.nodeLevel new = l') : Rep p t' lv := by
  have hlist : list ∈ lv (l + 1) := by rw [ha.split]; simp
  have hnx : nx ∈ lv (l + 1) := by rw [ha.split]; simp
  have hne : list ≠ nx := by
    have hnodup := h.body.nodup (l + 1)
    rw [ha.split, nodup_append, nodup_cons] at hnodup
    rintro rfl
    exact hnodup.2.1.1 (by simp)
  have hlt := (h.body.counts l hl list hlist).2
  refine h.two hl ha.split hmoved (by rw [hnodes, update_of_ne hne])
    (by rw [hnodes, update_self]) (fun a _ hne => by rw [hnodes, update_of_ne hne])
    ?_ ⟨Nat.le_refl _, hlt⟩ ?_ ?_ ?_ ?_ hlevel hnew
  · rw [h.pages, ha.before, ha.behind, ha.nodes]
    simp
  · simp only [length_cons]
    omega
  · intro c hc
    rw [hparent, update_of_ne]
    rintro rfl
    simp at hc
  · intro c hc
    rw [hparent, update_of_ne (h.ne_new hl hlist hc), h.parent_eq hl hlist hc]
  · intro c hc
    rw [hparent]
    rcases mem_cons.1 hc with rfl | hc
    · rw [update_self]
    · rw [update_of_ne (h.ne_new hl hnx hc), h.parent_eq hl hnx hc]

theorem Pending.next_spill (h : Pending p t lv l x new A B) (hl : l < t.level) {nx z : Addr}
    {K : List Addr} (ha : Above t lv l x list A B A' (nx :: B') K₁ (K ++ [z]))
    (hroom : (t.nodes nx).length < p.nodeCount) (hmoved : Moved t t')
    (hnodes : t'.nodes = update (update t.nodes nx (z :: t.nodes nx)) list (K₁ ++ x :: new :: K))
    (hparent : t'.parent = update (update t.parent z (some nx)) new (some list))
    (hlevel : ∀ c, c ≠ new → t'.nodeLevel c = t.nodeLevel c)
    (hnew : ∀ l', l = l' + 1 → t'.nodeLevel new = l') : Rep p t' lv := by
  have hlist : list ∈ lv (l + 1) := by rw [ha.split]; simp
  have hnx : nx ∈ lv (l + 1) := by rw [ha.split]; simp
  have hne : nx ≠ list := by
    have hnodup := h.body.nodup (l + 1)
    rw [ha.split, nodup_append, nodup_cons] at hnodup
    rintro rfl
    exact hnodup.2.1.1 (by simp)
  have hz : z ∈ t.nodes list := by rw [ha.nodes]; simp
  have hznew : z ≠ new := h.ne_new hl hlist hz
  have hlt := (h.body.counts l hl list hlist).2
  have hkids : A'.flatMap t.nodes ++ ((K₁ ++ x :: new :: K) ++ z :: t.nodes nx) ++
      B'.flatMap t.nodes = lv l := by
    rw [h.pages, ha.before, ha.behind]
    simp
  have hdisj : ∀ c ∈ K₁ ++ x :: new :: K, c ≠ z := by
    intro c hc
    have hnodup := h.body.nodup l
    rw [← hkids, nodup_append, nodup_append, nodup_append] at hnodup
    exact hnodup.1.2.1.2.2 c hc z (by simp)
  refine h.two hl ha.split hmoved (by rw [hnodes, update_self])
    (by rw [hnodes, update_of_ne hne, update_self])
    (fun a hne₁ hne₂ => by rw [hnodes, update_of_ne hne₁, update_of_ne hne₂])
    hkids ?_ ?_ ?_ ?_ ?_ hlevel hnew
  · rw [ha.nodes] at hlt ⊢
    simp only [length_append, length_cons, length_nil] at hlt ⊢
    omega
  · simp only [length_cons]
    omega
  · intro c hc
    simp only [mem_append, mem_cons, not_or] at hc
    rw [hparent, update_of_ne hc.1.2.2.1, update_of_ne hc.2.1]
  · intro c hc
    rw [hparent]
    by_cases hcn : c = new
    · rw [hcn, update_self]
    · rw [update_of_ne hcn, update_of_ne (hdisj c hc)]
      refine h.parent_eq hl hlist ?_
      rw [ha.nodes]
      simp only [mem_append, mem_cons] at hc ⊢
      tauto
  · intro c hc
    rw [hparent]
    rcases mem_cons.1 hc with rfl | hmem
    · rw [update_of_ne hznew, update_self]
    · rw [update_of_ne (h.ne_new hl hnx hmem), update_of_ne, h.parent_eq hl hnx hmem]
      rintro rfl
      have hsame := h.parent_eq hl hnx hmem
      rw [h.parent_eq hl hlist hz] at hsame
      exact hne (Option.some.inj hsame).symm

theorem Pending.prev_spill (h : Pending p t lv l x new A B) (hl : l < t.level) {pv z : Addr}
    {K : List Addr} (ha : Above t lv l x list A B (A' ++ [pv]) B' K₁ K₂)
    (hfirst : K₁ ++ x :: new :: K₂ = z :: K) (hroom : (t.nodes pv).length < p.nodeCount)
    (hmoved : Moved t t')
    (hnodes : t'.nodes = update (update t.nodes pv (t.nodes pv ++ [z])) list K)
    (hparent : t'.parent = update (update t.parent z (some pv)) new (some list))
    (hlevel : ∀ c, c ≠ new → t'.nodeLevel c = t.nodeLevel c)
    (hnew : ∀ l', l = l' + 1 → t'.nodeLevel new = l') : Rep p t' lv := by
  have hsplit : lv (l + 1) = A' ++ pv :: list :: B' := by rw [ha.split]; simp
  have hlist : list ∈ lv (l + 1) := by rw [hsplit]; simp
  have hpv : pv ∈ lv (l + 1) := by rw [hsplit]; simp
  have hne : pv ≠ list := by
    have hnodup := h.body.nodup (l + 1)
    rw [hsplit, nodup_append, nodup_cons] at hnodup
    rintro rfl
    exact hnodup.2.1.1 (by simp)
  have hz : z ∈ t.nodes list := by
    rw [ha.nodes]
    cases K₁ with
    | nil =>
      obtain ⟨rfl, -⟩ := cons_eq_cons.1 hfirst
      simp
    | cons k K₁ =>
      obtain ⟨rfl, -⟩ := cons_eq_cons.1 hfirst
      simp
  have hznew : z ≠ new := h.ne_new hl hlist hz
  have hlt := (h.body.counts l hl list hlist).2
  have hkids : A'.flatMap t.nodes ++ ((t.nodes pv ++ [z]) ++ K) ++ B'.flatMap t.nodes = lv l := by
    have hz' : [z] ++ K = K₁ ++ x :: new :: K₂ := hfirst.symm
    rw [h.pages, ha.before, ha.behind, append_assoc (t.nodes pv), hz']
    simp
  have hKz : z ∉ K := by
    have hnodup := h.body.nodup l
    rw [← hkids, nodup_append, nodup_append, nodup_append] at hnodup
    exact fun hmem => hnodup.1.2.1.2.2 z (by simp) z hmem rfl
  have hold : ∀ c ∈ K, c = new ∨ c ∈ t.nodes list := by
    intro c hc
    have hmem : c ∈ K₁ ++ x :: new :: K₂ := by rw [hfirst]; simp [hc]
    rw [ha.nodes]
    simp only [mem_append, mem_cons] at hmem ⊢
    tauto
  have hnewK : new ∈ K := by
    have hmem : new ∈ z :: K := by rw [← hfirst]; simp
    rcases mem_cons.1 hmem with heq | hmem
    · exact absurd heq.symm hznew
    · exact hmem
  refine h.two hl hsplit hmoved (by rw [hnodes, update_of_ne hne, update_self])
    (by rw [hnodes, update_self])
    (fun a hne₁ hne₂ => by rw [hnodes, update_of_ne hne₂, update_of_ne hne₁])
    hkids ?_ ?_ ?_ ?_ ?_ hlevel hnew
  · simp only [length_append, length_singleton]
    omega
  · have hlen := congrArg List.length hfirst
    rw [ha.nodes] at hlt ⊢
    simp only [length_append, length_cons] at hlt hlen ⊢
    omega
  · intro c hc
    simp only [mem_append, mem_singleton, not_or] at hc
    have hcn : c ≠ new := by
      rintro rfl
      exact hc.2 hnewK
    rw [hparent, update_of_ne hcn, update_of_ne hc.1.2]
  · intro c hc
    rw [hparent]
    rcases mem_append.1 hc with hmem | hmem
    · rw [update_of_ne (h.ne_new hl hpv hmem), update_of_ne, h.parent_eq hl hpv hmem]
      rintro rfl
      have hsame := h.parent_eq hl hpv hmem
      rw [h.parent_eq hl hlist hz] at hsame
      exact hne (Option.some.inj hsame).symm
    · obtain rfl := mem_singleton.1 hmem
      rw [update_of_ne hznew, update_self]
  · intro c hc
    rw [hparent]
    by_cases hcn : c = new
    · rw [hcn, update_self]
    · have hcz : c ≠ z := by
        rintro rfl
        exact hKz hc
      rw [update_of_ne hcn, update_of_ne hcz]
      exact h.parent_eq hl hlist ((hold c hc).resolve_left hcn)

theorem Pairs.insert (h : Pairs t (A' ++ list :: B')) {newList : Addr}
    (hnodes : ∀ a, a ∈ A' ∨ a ∈ B' → t'.nodes a = t.nodes a) (hlist : 2 ≤ (t'.nodes list).length)
    (hnext : ∀ b ∈ B'.head?, 2 ≤ (t.nodes b).length) : Pairs t' (A' ++ list :: newList :: B') := by
  rw [Pairs, isChain_append, isChain_cons] at h
  obtain ⟨hA, ⟨-, hB⟩, -⟩ := h
  rw [Pairs, isChain_append, isChain_cons, isChain_cons]
  refine ⟨?_, ⟨fun b _ => by omega, fun b hb => ?_, ?_⟩, fun a _ b hb => ?_⟩
  · exact hA.imp_of_mem_imp fun a b ha hb hab => by
      rwa [hnodes a (.inl ha), hnodes b (.inl hb)]
  · have hcount := hnext b hb
    rw [hnodes b (.inr (mem_of_head? hb))]
    omega
  · exact hB.imp_of_mem_imp fun a b ha hb hab => by
      rwa [hnodes a (.inr ha), hnodes b (.inr hb)]
  · obtain rfl : list = b := by simpa using hb
    omega

theorem Pending.grow (h : Pending p t lv l x new A B) (hl : l < t.level)
    (ha : Above t lv l x list A B A' B' K₁ K₂) {t₁ : Tree α} {newList : Addr}
    (halloc : Allocated t t₁ list newList) (hmoved : Moved t₁ t') (N₁ N₂ : List Addr)
    (h₁ : t'.nodes list = N₁) (h₂ : t'.nodes newList = N₂)
    (hnodes : ∀ a, a ≠ list → a ≠ newList → t'.nodes a = t.nodes a)
    (hkids : N₁ ++ N₂ = K₁ ++ x :: new :: K₂) (hcount₁ : N₁.length = p.nodeCount)
    (hcount₂ : N₂.length = 1) (hnext : ∀ b ∈ B'.head?, 2 ≤ (t.nodes b).length)
    (hparent : ∀ c, c ≠ newList → c ∉ N₁ ++ N₂ → t'.parent c = t.parent c)
    (hparent₁ : ∀ c ∈ N₁, t'.parent c = some list)
    (hparent₂ : ∀ c ∈ N₂, t'.parent c = some newList)
    (hlevel : ∀ c, c ≠ new → t'.nodeLevel c = t.nodeLevel c)
    (hnew : ∀ l', l = l' + 1 → t'.nodeLevel new = l') :
    Pending p t' (update lv (l + 1) (A' ++ list :: newList :: B')) (l + 1) list newList
      A' B' := by
  have hlist : list ∈ lv (l + 1) := by rw [ha.split]; simp
  have hfresh : ∀ l', newList ∉ lv l' := fun l' hmem => halloc.fresh (h.body.live l' _ hmem)
  have hne : ∀ l', ∀ a ∈ lv l', a ≠ newList := by
    rintro l' a hmem rfl
    exact hfresh l' hmem
  have hflat : [list, newList].flatMap t'.nodes = N₁ ++ N₂ := by simp [h₁, h₂]
  have hnodup := h.body.nodup (l + 1)
  rw [ha.split] at hnodup
  have hlistA : ∀ a, a ∈ A' ∨ a ∈ B' → a ∈ lv (l + 1) ∧ a ≠ list := by
    intro a hmem
    rw [nodup_append, nodup_cons] at hnodup
    rw [ha.split]
    rcases hmem with hmem | hmem
    · exact ⟨by simp [hmem], hnodup.2.2 a hmem list (by simp)⟩
    · refine ⟨by simp [hmem], ?_⟩
      rintro rfl
      exact hnodup.2.1.1 hmem
  have htwo := p.two_le_nodeCount
  have hkids' : A'.flatMap t.nodes ++ [list, newList].flatMap t'.nodes ++ B'.flatMap t.nodes =
      lv l := by
    rw [hflat, hkids, h.pages, ha.before, ha.behind]
    simp
  have hlinked := h.body.links (l + 1) hl
  rw [ha.split] at hlinked
  have hhung : Hung t t' l new [list, newList] := by
    refine ⟨fun a hmem c hc => ?_, hlevel, hnew⟩
    simp only [mem_cons, not_mem_nil, or_false] at hmem
    rcases hmem with rfl | rfl
    · exact hparent₁ c (h₁ ▸ hc)
    · exact hparent₂ c (h₂ ▸ hc)
  have hrehang : Rehang p t t' lv l A' [list] [list, newList] B' := by
    refine ⟨by rw [ha.split]; simp, ?_, ?_, ?_, ?_, ?_, ?_, ?_, ?_, ?_, hkids', ?_, ?_, ?_, ?_, ?_⟩
    · intro a hmem
      rw [hmoved.items, halloc.items, update_of_ne (hne 0 a hmem)]
    · rw [hmoved.level, halloc.level]
    · rw [hmoved.root, halloc.root]
    · intro a hmem hmem'
      simp only [mem_cons, not_mem_nil, or_false, not_or] at hmem'
      exact hnodes a hmem'.1 hmem'.2
    · intro l' c hmem hc
      refine ⟨hparent c (hne l' c hmem) (hflat ▸ hc), hlevel c ?_⟩
      exact h.ne_of_not_mem hl hkids' (fun a hmem => (hlistA a hmem).1) hc
    · intro l' hne' a hmem
      rw [hmoved.next, hmoved.prev]
      refine halloc.next_of_not_mem hlinked (h.body.live l' a hmem) ?_
      rw [← ha.split]
      exact fun hmem' => hne' (h.body.apart l' (l + 1) a hmem hmem')
    · intro l' a hmem
      rw [hmoved.live, halloc.live]
      exact Finset.mem_insert_of_mem (h.body.live l' a hmem)
    · intro a hmem
      simp only [mem_cons, not_mem_nil, or_false] at hmem
      rcases hmem with rfl | rfl
      · exact .inl (by simp)
      · right
        rw [hmoved.live, halloc.live]
        exact ⟨Finset.mem_insert_self .., hfresh⟩
    · rw [hmoved.next, hmoved.prev]
      have hinsert := halloc.linked hlinked
        (fun a hmem => h.body.live (l + 1) a (by rw [ha.split]; exact hmem)) hnodup
      simpa using hinsert
    · intro a hmem
      simp only [mem_cons, not_mem_nil, or_false] at hmem
      rcases hmem with rfl | rfl
      · rw [NodeCount, h₁, hcount₁]
        omega
      · rw [NodeCount, h₂, hcount₂]
        omega
    · exact h.hangs hl hhung hkids'
    · have hpairs := h.body.pairs l hl
      rw [ha.split] at hpairs
      have hinsert : Pairs t' (A' ++ list :: newList :: B') :=
        hpairs.insert (fun a hmem => hnodes a (hlistA a hmem).2 (hne _ a (hlistA a hmem).1))
          (by rw [h₁, hcount₁]; exact htwo) hnext
      simpa using hinsert
    · have hmem : newList ∉ A' ++ list :: B' := by
        rw [← ha.split]
        exact hfresh (l + 1)
      have happ : A' ++ [list, newList] ++ B' = (A' ++ [list]) ++ newList :: B' := by simp
      rw [happ, nodup_middle, nodup_cons, append_assoc, singleton_append]
      exact ⟨hmem, hnodup⟩
    · intro heq r hr
      obtain ⟨r', hr', -, -, htop⟩ := h.body.top
      obtain rfl : r = r' := Option.mem_unique hr hr'
      rw [if_neg (by omega), heq] at htop
      rw [htop, mem_singleton] at hlist
      rw [← hlist, h₁, hcount₁]
      exact htwo
  have hbody := hrehang.body h.body hl
  have happ : A' ++ [list, newList] ++ B' = A' ++ list :: newList :: B' := by simp
  rw [happ, ha.split] at hbody
  refine ⟨hbody, update_self .., ?_⟩
  rw [hmoved.level, halloc.level]
  omega

end Firebird.Common.Pages
