import Firebird.Common.TreeRemove

/-!
# The cases of removing a page

What `_removePage` does with the page above, case by case: this page follows, it borrows a child of
a neighbour, it is the root and goes, it is joined with a neighbour, or it only loses a child.
-/
namespace Firebird.Common.Pages

open Lib Links List Function

variable {α κ : Type} [LinearOrder κ] {p : Template α κ} {t t' : Tree α} {lv : Nat → List Addr}
variable {l : Nat} {A B A' B' K₁ K₂ K : List Addr} {y list temp : Addr}

theorem Pairs.imp {L : List Addr} (h : Pairs t L)
    (hone : ∀ a ∈ L, (t'.nodes a).length = 1 → (t.nodes a).length = 1) : Pairs t' L :=
  IsChain.imp_of_mem_imp (fun a b ha hb hab hlen => hab ⟨hone a ha hlen.1, hone b hb hlen.2⟩) h

theorem Pairs.skip_single {a : Addr} (h : Pairs t (A ++ a :: B)) (hone : (t.nodes a).length = 1) :
    Pairs t (A ++ B) := by
  rw [Pairs, isChain_append] at h ⊢
  obtain ⟨hA, hB, hlast⟩ := h
  refine ⟨hA, hB.tail, fun x hx z hz hlen => ?_⟩
  exact hlast x hx a (by simp) ⟨hlen.1, hone⟩

theorem Pairs.skip_behind {a b : Addr} (h : Pairs t (A ++ a :: b :: B))
    (htwo : 2 ≤ (t'.nodes a).length) (hsame : ∀ c ∈ A ++ B, t'.nodes c = t.nodes c) :
    Pairs t' (A ++ [a] ++ B) := by
  rw [append_assoc, singleton_append]
  rw [Pairs, isChain_append] at h ⊢
  obtain ⟨hA, hB, hlast⟩ := h
  refine ⟨IsChain.imp_of_mem_imp (fun c d hc hd hcd => ?_) hA, ?_, ?_⟩
  · rwa [hsame c (by simp [hc]), hsame d (by simp [hd])]
  · have hB' : IsChain (fun a b => ¬((t'.nodes a).length = 1 ∧ (t'.nodes b).length = 1))
      B := by
      refine IsChain.imp_of_mem_imp (fun c d hc hd hcd => ?_) hB.tail.tail
      rwa [hsame c (by simp [hc]), hsame d (by simp [hd])]
    cases B with
    | nil => exact isChain_singleton _
    | cons c B => exact isChain_cons_cons.2 ⟨by omega, hB'⟩
  · intro c _ d hd
    obtain rfl : a = d := by simpa using hd
    omega

theorem Moved.refl (t : Tree α) : Moved t t := ⟨rfl, rfl, rfl, rfl, rfl, rfl⟩

theorem Removes.pages_eq (h : Removes p t lv l y A B)
    (ha : Above (t.unlink y) lv l y list A B A' B' K₁ K₂) :
    lv l = A'.flatMap (t.unlink y).nodes ++ (K₁ ++ K₂) ++ B'.flatMap (t.unlink y).nodes := by
  rw [h.pages, ha.before, ha.behind]
  simp

theorem Removes.nodup_above (h : Removes p t lv l y A B)
    (ha : Above (t.unlink y) lv l y list A B A' B' K₁ K₂) : (A' ++ list :: B').Nodup := by
  rw [← ha.split]
  exact h.body.nodup (l + 1)

theorem Removes.above_ne (h : Removes p t lv l y A B)
    (ha : Above (t.unlink y) lv l y list A B A' B' K₁ K₂) {a : Addr} (hmem : a ∈ A' ++ B') :
    a ≠ list := by
  have hnodup := h.nodup_above ha
  rw [nodup_middle, nodup_cons] at hnodup
  rintro rfl
  exact hnodup.1 hmem

theorem Removes.mem_above (ha : Above t' lv l y list A B A' B' K₁ K₂) : list ∈ lv (l + 1) := by
  rw [ha.split]
  simp

theorem Removes.top (h : Removes p t lv l y A B)
    (ha : Above (t.unlink y) lv l y list A B A' B' K₁ K₂) (htop : (t.unlink y).level = l + 1) :
    (t.unlink y).root = some list ∧ A' = [] ∧ B' = [] ∧ 2 ≤ (K₁ ++ y :: K₂).length := by
  obtain ⟨r, hr, -, hcount, hroot⟩ := h.body.top
  rw [if_neg (by omega), htop, ha.split] at hroot
  have hA : A' = [] := by
    cases A' with
    | nil => rfl
    | cons a A' => simp at hroot
  subst hA
  obtain ⟨rfl, rfl⟩ := hroot
  have htwo := (hcount l htop).2
  rw [ha.nodes] at htwo
  exact ⟨hr, rfl, rfl, htwo⟩

theorem Removes.below_of_neighbour (h : Removes p t lv l y A B)
    (ha : Above (t.unlink y) lv l y list A B A' B' K₁ K₂) (hne : A' ≠ [] ∨ B' ≠ []) :
    l + 1 < (t.unlink y).level := by
  have hlt := h.lt_level
  by_contra hnot
  obtain ⟨-, hA, hB, -⟩ := h.top ha (by omega)
  exact hne.elim (· hA) (· hB)

theorem Removes.below_of_single (h : Removes p t lv l y A B)
    (ha : Above (t.unlink y) lv l y list A B A' B' [] []) : l + 1 < (t.unlink y).level := by
  have hlt := h.lt_level
  by_contra hnot
  obtain ⟨-, -, -, htwo⟩ := h.top ha (by omega)
  simp at htwo

theorem Removes.key_around (h : Removes p t lv l y A B)
    (ha : Above (t.unlink y) lv l y list A B A' B' K₁ K₂) :
    ∃ k, (t.unlink y).generate l y = some k ∧
      (∀ a ∈ A', ∀ c ∈ (t.unlink y).nodes a, ∀ x ∈ (t.unlink y).generate l c, p.key x < p.key k) ∧
      ∀ b ∈ B', ∀ c ∈ (t.unlink y).nodes b, ∀ x ∈ (t.unlink y).generate l c, p.key k < p.key x := by
  obtain ⟨k, hk, hbefore, hafter⟩ := h.key
  have hsame := unlink_same t y
  rw [generate_congr hsame.items hsame.nodes]
  refine ⟨k, hk, fun a hmem c hc => hbefore c ?_, fun b hmem c hc => hafter c ?_⟩
  · rw [ha.before]
    exact mem_append_left _ (mem_flatMap.2 ⟨a, hmem, hc⟩)
  · rw [ha.behind]
    exact mem_append_right _ (mem_flatMap.2 ⟨b, hmem, hc⟩)

theorem Removes.follow (h : Removes p t lv l y A B)
    (ha : Above (t.unlink y) lv l y list A B A' B' [] []) :
    Removes p (t.unlink y) (update lv (l + 1) (A' ++ B')) (l + 1) list A' B' := by
  have hone : ((t.unlink y).nodes list).length = 1 := by rw [ha.nodes]; rfl
  have hpairs := h.body.pairs l h.lt_level
  rw [ha.split] at hpairs
  have hskip := hpairs.skip_single hone
  suffices hgo : Removes p (t.unlink y) (update lv (l + 1) (A' ++ [] ++ B')) (l + 1) list
      (A' ++ []) B' by simpa using hgo
  refine h.go_on A' [] B' (by rw [ha.split]; simp) (Moved.refl _) (fun _ _ _ => rfl) rfl
    (fun _ _ => rfl) (by simp) (by rw [h.pages_eq ha]; simp) (by simp) (by simpa using hskip) ?_
    (h.below_of_single ha) ?_
  · intro z hz
    rw [append_nil] at hz
    have hz' : z ∈ lv (l + 1) := by
      have hmem : z ∈ A' ++ B' := by rw [hz]; simp
      rw [ha.split]
      simp only [mem_append] at hmem ⊢
      tauto
    have hcount := (h.body.counts l h.lt_level z hz').1
    cases A' with
    | nil =>
      subst hz
      have hpair := (isChain_cons_cons.1 hpairs).1
      omega
    | cons a A' =>
      simp only [cons_append, List.cons.injEq, append_eq_nil_iff] at hz
      obtain ⟨rfl, rfl, rfl⟩ := hz
      have hpair := (isChain_cons_cons.1 hpairs).1
      omega
  · obtain ⟨k, hk, hbefore, hafter⟩ := h.key_around ha
    rw [append_nil]
    refine key_above (by rw [ha.nodes]; rfl) hk ?_ ?_
    · exact fun a hmem c hc => hbefore a hmem c (mem_of_head? hc)
    · exact fun b hmem c hc => hafter b hmem c (mem_of_head? hc)

theorem Removes.borrow (h : Removes p t lv l y A B)
    (ha : Above (t.unlink y) lv l y list A B A' B' [] []) (A₀ M B₀ : List Addr) {node : Addr}
    (hsplit : lv (l + 1) = A₀ ++ M ++ B₀) (hM : ∀ a, a ∈ M ↔ a = list ∨ a = temp)
    (hne : temp ≠ list) (hmoved : Moved (t.unlink y) t')
    (hlevel : t'.nodeLevel = (t.unlink y).nodeLevel)
    (hnodes : t'.nodes = update (update (t.unlink y).nodes list [node]) temp K)
    (hparent : t'.parent = update (t.unlink y).parent node (some list))
    (hkids : A₀.flatMap (t.unlink y).nodes ++ M.flatMap t'.nodes ++ B₀.flatMap (t.unlink y).nodes =
      lv l)
    (htwo : 2 ≤ K.length) (hperm : (node :: K).Perm ((t.unlink y).nodes temp)) : Rep p t' lv := by
  have hlt := h.lt_level
  have htemp : temp ∈ lv (l + 1) := by
    rw [hsplit]
    simp [(hM temp).2 (.inr rfl)]
  have hnlist : t'.nodes list = [node] := by
    rw [hnodes, update_of_ne hne.symm, update_self]
  have hntemp : t'.nodes temp = K := by rw [hnodes, update_self]
  have hother : ∀ a, a ≠ list → a ≠ temp → t'.nodes a = (t.unlink y).nodes a := by
    intro a hl ht
    rw [hnodes, update_of_ne ht, update_of_ne hl]
  have hnodup : (node :: K).Nodup := by
    rw [hperm.nodup_iff]
    have hkid := h.body.kids l hlt
    rw [if_pos rfl] at hkid
    have hy : (A ++ y :: B).Nodup := by
      rw [nodup_middle, nodup_cons, ← h.pages]
      exact ⟨h.out l, h.body.nodup l⟩
    rw [← hkid] at hy
    exact (nodup_flatMap.1 hy).1 temp htemp
  have hcount := h.body.counts l hlt temp htemp
  have hlen := hperm.length_eq
  rw [length_cons] at hlen
  refine h.finish A₀ M B₀ hsplit hmoved ?_ hlevel ?_ ?_ hkids ?_ ?_ ?_
  · intro a hnot
    rw [hM, not_or] at hnot
    exact hother a hnot.1 hnot.2
  · intro c hc
    rw [hparent, update_of_ne]
    rintro rfl
    exact hc (mem_flatMap.2 ⟨list, (hM list).2 (.inl rfl), by rw [hnlist]; simp⟩)
  · intro a hmem c hc
    rcases (hM a).1 hmem with rfl | rfl
    · rw [hnlist, mem_singleton] at hc
      rw [hparent, hc, update_self]
    · rw [hntemp] at hc
      rw [hparent, update_of_ne]
      · exact (h.body.hangs l hlt a htemp c (hperm.subset (by simp [hc]))).1
      · rintro rfl
        exact (nodup_cons.1 hnodup).1 hc
  · intro a hmem
    rcases (hM a).1 hmem with rfl | rfl
    · rw [NodeCount, hnlist, length_singleton]
      exact ⟨le_refl _, by have := p.two_le_nodeCount; omega⟩
    · rw [NodeCount, hntemp]
      exact ⟨by omega, by have := hcount.2; omega⟩
  · refine (h.body.pairs l hlt).imp fun a _ hone => ?_
    by_cases hl : a = list
    · rw [hl, ha.nodes]
      rfl
    · by_cases ht : a = temp
      · rw [ht, hntemp] at hone
        omega
      · rwa [← hother a hl ht]
  · intro htop
    have hbelow := h.below_of_single ha
    omega

theorem Removes.borrow_prev {A₀ : List Addr} {last : Addr} (h : Removes p t lv l y A B)
    (ha : Above (t.unlink y) lv l y list A B (A₀ ++ [temp]) B' [] [])
    (htemp : (t.unlink y).nodes temp = K ++ [last]) (htwo : 2 ≤ K.length)
    (hmoved : Moved (t.unlink y) t') (hlevel : t'.nodeLevel = (t.unlink y).nodeLevel)
    (hnodes : t'.nodes = update (update (t.unlink y).nodes list [last]) temp K)
    (hparent : t'.parent = update (t.unlink y).parent last (some list)) : Rep p t' lv := by
  have hne : temp ≠ list := h.above_ne ha (by simp)
  refine h.borrow ha A₀ [temp, list] B' (by rw [ha.split]; simp)
    (by simp [or_comm]) hne hmoved hlevel hnodes hparent ?_ htwo ?_
  · rw [h.pages_eq ha]
    simp [hnodes, htemp, update_of_ne hne.symm]
  · rw [htemp]
    exact (perm_append_singleton last K).symm

theorem Removes.borrow_next {B₀ : List Addr} {first : Addr} (h : Removes p t lv l y A B)
    (ha : Above (t.unlink y) lv l y list A B A' (temp :: B₀) [] [])
    (htemp : (t.unlink y).nodes temp = first :: K) (htwo : 2 ≤ K.length)
    (hmoved : Moved (t.unlink y) t') (hlevel : t'.nodeLevel = (t.unlink y).nodeLevel)
    (hnodes : t'.nodes = update (update (t.unlink y).nodes list [first]) temp K)
    (hparent : t'.parent = update (t.unlink y).parent first (some list)) :
    Rep p t' lv := by
  have hne : temp ≠ list := h.above_ne ha (by simp)
  refine h.borrow ha A' [list, temp] B₀ (by rw [ha.split]; simp)
    (by simp) hne hmoved hlevel hnodes hparent ?_ htwo ?_
  · rw [h.pages_eq ha]
    simp [hnodes, htemp, update_of_ne hne.symm]
  · rw [htemp]

theorem Removes.ascending (h : Removes p t lv l y A B) (hitems : t'.items = (t.unlink y).items)
    (hnodes : ∀ a ∉ lv (l + 1), t'.nodes a = (t.unlink y).nodes a) :
    Ascending p (t'.generate l) (lv l) := by
  have hlt := h.lt_level
  have hasc := h.body.ascending (Nat.le_refl l) hlt.le (.inl (by omega)) (Sublist.refl (lv l))
  have hgen : ∀ c ∈ lv l, t'.generate l c = (t.unlink y).generate l c := by
    intro c hc
    refine h.body.generate_congr (Nat.le_refl l) hlt.le (fun l' hl' a ha' => ⟨by rw [hitems], ?_⟩)
      hc
    refine hnodes a fun hmem => ?_
    have := h.body.apart l' (l + 1) a ha' hmem
    omega
  refine ⟨fun a hmem => ?_, hasc.2.imp_of_mem fun {a b} hmem hmem' hab => ?_⟩
  · rw [hgen a hmem]
    exact hasc.1 a hmem
  · rw [hgen a hmem, hgen b hmem']
    exact hab

theorem Ascending.lt {generate : Addr → Option α} {C D : List Addr} {k : α} {c d : Addr}
    (h : Ascending p generate (C ++ D)) (hc : c ∈ C) (hd : d ∈ D) (hk : generate d = some k) :
    ∀ x ∈ generate c, p.key x < p.key k := by
  intro x hx
  have hpair := h.2
  rw [pairwise_append] at hpair
  exact hpair.2.2 c hc d hd x hx k hk

theorem Ascending.gt {generate : Addr → Option α} {C D : List Addr} {k : α} {c d : Addr}
    (h : Ascending p generate (C ++ D)) (hc : c ∈ C) (hd : d ∈ D) (hk : generate c = some k) :
    ∀ x ∈ generate d, p.key k < p.key x := by
  intro x hx
  have hpair := h.2
  rw [pairwise_append] at hpair
  exact hpair.2.2 c hc d hd k hk x hx

theorem Removes.join (h : Removes p t lv l y A B) {A₀ B₀ C D : List Addr} {first second : Addr}
    (hsplit : lv (l + 1) = A₀ ++ first :: second :: B₀)
    (hpages : A₀.flatMap (t.unlink y).nodes ++ (C ++ D) ++ B₀.flatMap (t.unlink y).nodes = lv l)
    (hC : C ≠ []) (hD : D ≠ []) (hroom : C.length + D.length ≤ p.nodeCount)
    (hbelow : l + 1 < (t.unlink y).level)
    (hmoved : Moved (t.unlink y) t') (hlevel : t'.nodeLevel = (t.unlink y).nodeLevel)
    (hother : ∀ a, a ≠ first → a ≠ second → t'.nodes a = (t.unlink y).nodes a)
    (hfirst : t'.nodes first = C ++ D) (hsecond : t'.nodes second = D)
    (hparents : ∀ c ∈ D, t'.parent c = some first)
    (hparent : ∀ c, c ∉ D → t'.parent c = (t.unlink y).parent c)
    (hstay : ∀ c ∈ C, (t.unlink y).parent c = some first) :
    Removes p t' (update lv (l + 1) (A₀ ++ [first] ++ B₀)) (l + 1) second
      (A₀ ++ [first]) B₀ := by
  have hlt := h.lt_level
  have hnodup := h.body.nodup (l + 1)
  rw [hsplit] at hnodup
  have hout : ∀ a ∈ A₀ ++ B₀, t'.nodes a = (t.unlink y).nodes a := by
    intro a hmem
    rw [nodup_append, nodup_cons, nodup_cons] at hnodup
    rcases mem_append.1 hmem with hmem | hmem
    · exact hother a (hnodup.2.2 a hmem first (by simp)) (hnodup.2.2 a hmem second (by simp))
    · refine hother a ?_ ?_ <;> rintro rfl
      · exact hnodup.2.1.1 (by simp [hmem])
      · exact hnodup.2.1.2.1 hmem
  have hposC := length_pos_of_ne_nil hC
  have hposD := length_pos_of_ne_nil hD
  have htwo : 2 ≤ (t'.nodes first).length := by
    rw [hfirst, length_append]
    omega
  refine h.go_on A₀ [first] B₀ (by rw [hsplit]; simp) hmoved ?_ hlevel ?_ ?_ ?_ ?_ ?_ ?_ hbelow ?_
  · intro a hmem hal
    exact hother a (by simpa using hmem) hal
  · intro c hc
    refine hparent c fun hmem => hc ?_
    simp [hfirst, hmem]
  · intro a hmem c hc
    obtain rfl : a = first := by simpa using hmem
    by_cases hcD : c ∈ D
    · exact hparents c hcD
    · rw [hfirst, mem_append, or_iff_left hcD] at hc
      rw [hparent c hcD]
      exact hstay c hc
  · rw [← hpages]
    simp [hfirst]
  · intro a hmem
    obtain rfl : a = first := by simpa using hmem
    refine ⟨by omega, ?_⟩
    rw [hfirst, length_append]
    exact hroom
  · have hpairs := h.body.pairs l hlt
    rw [hsplit] at hpairs
    exact hpairs.skip_behind htwo hout
  · intro z hz
    obtain rfl : first = z := by
      have hmem : first ∈ A₀ ++ [first] ++ B₀ := by simp
      rw [hz] at hmem
      simpa using hmem
    exact htwo
  · have hasc : Ascending p (t'.generate l) (lv l) := by
      refine h.ascending hmoved.items fun a hnot => hother a ?_ ?_ <;> rintro rfl <;>
        exact hnot (by rw [hsplit]; simp)
    obtain ⟨c₀, D, rfl⟩ := exists_cons_of_ne_nil hD
    obtain ⟨d, C, rfl⟩ := exists_cons_of_ne_nil hC
    rw [← hpages] at hasc
    obtain ⟨k, hk⟩ := hasc.1 c₀ (by simp)
    refine key_above (by rw [hsecond]; rfl) hk ?_ ?_
    · intro a hmem c hc
      rw [← append_assoc, append_assoc] at hasc
      refine hasc.lt ?_ (by simp) hk
      rcases mem_append.1 hmem with hmem | hmem
      · rw [hout a (by simp [hmem])] at hc
        exact mem_append_left _ (mem_flatMap.2 ⟨a, hmem, mem_of_head? hc⟩)
      · obtain rfl : a = first := by simpa using hmem
        rw [hfirst] at hc
        obtain rfl : d = c := by simpa using hc
        simp
    · intro b hmem c hc
      refine hasc.gt (by simp) ?_ hk
      rw [hout b (by simp [hmem])] at hc
      exact mem_flatMap.2 ⟨b, hmem, mem_of_head? hc⟩

theorem Removes.lose (h : Removes p t lv l y A B)
    (ha : Above (t.unlink y) lv l y list A B A' B' K₁ K₂) (hne : K₁ ++ K₂ ≠ [])
    (hmoved : Moved (t.unlink y) t') (hlevel : t'.nodeLevel = (t.unlink y).nodeLevel)
    (hnodes : t'.nodes = update (t.unlink y).nodes list (K₁ ++ K₂))
    (hparent : t'.parent = (t.unlink y).parent)
    (hroot : (t.unlink y).root = some list → (K₁ ++ K₂).length ≠ 1)
    (hpairs : (K₁ ++ K₂).length = 1 →
      ∀ a, a ∈ A'.getLast? ∨ a ∈ B'.head? → 2 ≤ ((t.unlink y).nodes a).length) : Rep p t' lv := by
  have hlt := h.lt_level
  have hpos := length_pos_of_ne_nil hne
  have hlist := Removes.mem_above ha
  have hnlist : t'.nodes list = K₁ ++ K₂ := by rw [hnodes, update_self]
  have hother : ∀ a, a ≠ list → t'.nodes a = (t.unlink y).nodes a := by
    intro a hal
    rw [hnodes, update_of_ne hal]
  have hout : ∀ a, a ∈ A' ∨ a ∈ B' → a ≠ list :=
    fun a hmem => h.above_ne ha (mem_append.2 hmem)
  refine h.finish A' [list] B' (by rw [ha.split]; simp) hmoved ?_ hlevel
    (fun c _ => by rw [hparent])
    ?_ ?_ ?_ ?_ ?_
  · exact fun a hal => hother a (by simpa using hal)
  · intro a hmem c hc
    obtain rfl : a = list := by simpa using hmem
    rw [hparent]
    refine (h.body.hangs l hlt a hlist c ?_).1
    rw [hnlist, mem_append] at hc
    rw [ha.nodes, mem_append, mem_cons]
    tauto
  · rw [h.pages_eq ha]
    simp [hnlist]
  · intro a hmem
    obtain rfl : a = list := by simpa using hmem
    have hcount := (h.body.counts l hlt a hlist).2
    rw [ha.nodes, length_append, length_cons] at hcount
    rw [NodeCount, hnlist]
    refine ⟨hpos, ?_⟩
    rw [length_append]
    omega
  · have hold := h.body.pairs l hlt
    rw [ha.split, Pairs, isChain_append] at hold
    obtain ⟨hA, hB, hlast⟩ := hold
    rw [ha.split, Pairs, isChain_append]
    refine ⟨IsChain.imp_of_mem_imp (fun c d hc hd hcd => ?_) hA, ?_, ?_⟩
    · rwa [hother c (hout c (.inl hc)), hother d (hout d (.inl hd))]
    · have hB' : IsChain (fun a b => ¬((t'.nodes a).length = 1 ∧ (t'.nodes b).length = 1))
        B' := by
        refine IsChain.imp_of_mem_imp (fun c d hc hd hcd => ?_) hB.tail
        rwa [hother c (hout c (.inr hc)), hother d (hout d (.inr hd))]
      cases hB₀ : B' with
      | nil => exact isChain_singleton _
      | cons c B₀ =>
        rw [hB₀] at hB'
        refine isChain_cons_cons.2 ⟨fun hlen => ?_, hB'⟩
        rw [hnlist, hother c (hout c (.inr (by rw [hB₀]; simp)))] at hlen
        have htwo := hpairs hlen.1 c (.inr (by rw [hB₀]; rfl))
        omega
    · intro c hc d hd hlen
      obtain rfl : list = d := by simpa using hd
      rw [hnlist, hother c (hout c (.inl (mem_of_getLast? hc)))] at hlen
      have htwo := hpairs hlen.2 c (.inl hc)
      omega
  · intro htop r hr
    obtain ⟨hr', -, -, -⟩ := h.top ha htop
    obtain rfl : list = r := Option.mem_unique hr' hr
    have hne' := hroot hr
    rw [hnlist]
    omega

structure Shrunk (t t' : Tree α) (list z : Addr) : Prop where
  items : t'.items = t.items
  nodes : ∀ a, a ≠ list → t'.nodes a = t.nodes a
  nodeLevel : t'.nodeLevel = t.nodeLevel
  parent : t'.parent = Function.update t.parent z none
  next : t'.next = t.next
  prev : t'.prev = t.prev
  live : t'.live = t.live.erase list
  level : t'.level + 1 = t.level
  root : t'.root = some z

theorem Removes.shrink {z : Addr} (h : Removes p t lv l y A B)
    (ha : Above (t.unlink y) lv l y list A B A' B' K₁ K₂) (hz : K₁ ++ K₂ = [z])
    (hroot : (t.unlink y).root = some list) (hs : Shrunk (t.unlink y) t' list z) :
    Rep p t' (update lv (l + 1) []) := by
  have hlt := h.lt_level
  have hsame := unlink_same t y
  have hlist := Removes.mem_above ha
  have htop : (t.unlink y).level = l + 1 := by
    obtain ⟨r, hr, -, -, hlv⟩ := h.body.top
    rw [if_neg (by omega)] at hlv
    obtain rfl : list = r := Option.mem_unique hroot hr
    exact h.body.apart _ _ list (by rw [hlv]; simp) hlist
  obtain ⟨-, rfl, rfl, -⟩ := h.top ha htop
  have hlevel : t'.level = l := by
    have := hs.level
    omega
  have hpages : lv l = [z] := by rw [h.pages_eq ha, hz]; simp
  have hother : ∀ l' ≤ l, update lv (l + 1) [] l' = lv l' :=
    fun l' hle => update_of_ne (by omega) ..
  have hzero := hother 0 (Nat.zero_le _)
  have hne : ∀ l' ≤ l, ∀ a ∈ lv l', a ≠ list := by
    rintro l' hle a hmem rfl
    have := h.body.apart l' (l + 1) a hmem hlist
    omega
  have hnodes : ∀ l' ≤ l, ∀ a ∈ lv l', t'.nodes a = (t.unlink y).nodes a :=
    fun l' hle a hmem => hs.nodes a (hne l' hle a hmem)
  have hsub : ∀ l', (update lv (l + 1) [] l').Sublist (lv l') := by
    intro l'
    by_cases heq : l' = l + 1
    · rw [heq, update_self]
      exact nil_sublist _
    · rw [update_of_ne heq]
  refine ⟨?_, ?_, ?_, ?_, ?_, ?_, ?_, ?_, ?_, ?_, ?_, ?_, ?_⟩
  · intro l' hl'
    rw [hlevel] at hl'
    rw [hother l' hl', hs.next, hs.prev]
    exact h.body.links l' (by omega)
  · intro l' hl'
    rw [hlevel] at hl' ⊢
    rw [hother (l' + 1) hl', if_neg (by omega), hother l' hl'.le,
      flatMap_congr (hnodes (l' + 1) hl'), h.body.kids_below (by omega) hl']
  · intro l' hl' a hmem c hc
    rw [hlevel] at hl'
    rw [hother (l' + 1) hl'] at hmem
    rw [hnodes (l' + 1) hl' a hmem] at hc
    have hc' : c ∈ lv l' := by
      rw [← h.body.kids_below (by omega : l' < (t.unlink y).level) hl']
      exact mem_flatMap.2 ⟨a, hmem, hc⟩
    have hcz : c ≠ z := by
      rintro rfl
      have := h.body.apart l' l c hc' (by rw [hpages]; simp)
      omega
    have hh := h.body.hangs l' (by omega) a hmem c hc
    exact ⟨by rw [hs.parent, update_of_ne hcz, hh.1], by rw [hs.nodeLevel]; exact hh.2⟩
  · intro l' hl' a hmem
    rw [hlevel] at hl'
    rw [hother (l' + 1) hl'] at hmem
    rw [NodeCount, hnodes (l' + 1) hl' a hmem]
    exact h.body.counts l' (by omega) a hmem
  · intro l' hl'
    rw [hlevel] at hl'
    rw [hother (l' + 1) hl']
    refine (h.body.pairs l' (by omega)).imp fun a hmem hone => ?_
    rwa [← hnodes (l' + 1) hl' a hmem]
  · refine ⟨z, hs.root, by rw [hs.parent, update_self], fun l' hl' => ?_, ?_⟩
    · rw [hlevel] at hl'
      have hzmem : z ∈ (t.unlink y).nodes list := by
        have hmem : z ∈ K₁ ++ K₂ := by rw [hz]; simp
        rw [ha.nodes]
        simp only [mem_append] at hmem ⊢
        tauto
      refine ⟨?_, ?_⟩
      · rw [hs.nodeLevel]
        exact (h.body.hangs l hlt list hlist z hzmem).2 l' hl'
      · rw [hnodes l (Nat.le_refl l) z (by rw [hpages]; simp), hsame.nodes]
        exact h.single (by omega) z (by rw [← h.pages, hpages])
    · rw [if_neg (by omega), hlevel, hother l (Nat.le_refl l), hpages]
  · rw [hzero, hs.items]
    exact h.body.leaves
  · rw [hzero, hs.items]
    exact fun _ => h.body.filled (.inl (by omega))
  · exact fun l' => (h.body.nodup l').sublist (hsub l')
  · exact fun l' l'' a hmem hmem' =>
      h.body.apart l' l'' a ((hsub l').subset hmem) ((hsub l'').subset hmem')
  · intro l' a hmem
    by_cases heq : l' = l + 1
    · rw [heq, update_self] at hmem
      simp at hmem
    · rw [update_of_ne heq] at hmem
      have hal : a ≠ list := by
        rintro rfl
        exact heq (h.body.apart l' (l + 1) a hmem hlist)
      rw [hs.live, Finset.mem_erase]
      exact ⟨hal, h.body.live l' a hmem⟩
  · intro l' hl'
    by_cases heq : l' = l + 1
    · rw [heq, update_self]
    · rw [update_of_ne heq]
      exact h.body.above l' (by omega)
  · rw [hzero, hs.items]
    exact h.body.sorted

theorem Rep.deallocate {a : Addr} (h : Rep p t lv) (hout : ∀ l', a ∉ lv l') :
    Rep p (t.deallocate a) lv where
  links := by exact h.links
  kids := by exact h.kids
  hangs := by exact h.hangs
  counts := by exact h.counts
  pairs := by exact h.pairs
  top := by exact h.top
  leaves := by exact h.leaves
  filled := by exact h.filled
  nodup := by exact h.nodup
  apart := by exact h.apart
  live l' b hb := by
    refine Finset.mem_erase.2 ⟨?_, h.live l' b hb⟩
    rintro rfl
    exact hout l' hb
  above := by exact h.above
  sorted := by exact h.sorted

end Firebird.Common.Pages
