import Firebird.Jrd.Pag

/-!
# Page allocation keeps the inventory

What the search of an inventory page finds, and the invariant that page allocation and release keep.
-/
namespace Firebird.Jrd

open Lib Bitmap List Function

/-- What a search says about the bits `free`, if it starts with `m₀` for the lowest candidate. -/
def Found.Meets (fake : Nat → Fake) (free : Nat → Prop) (m₀ : Int) : Found → Prop
  | .nothing m => m ≤ m₀ ∧ (0 ≤ m₀ → 0 ≤ m) ∧ ∀ b, free b → m ≤ b ∧ fake b = .refused
  | .found r m =>
    m ≤ m₀ ∧ (0 ≤ m₀ → 0 ≤ m) ∧ (free r ∧ fake r = .faked) ∧ ∀ b, free b → m ≤ b
  | .thrown => ∃ b, free b ∧ fake b = .thrown

variable {fake : Nat → Fake} {m₀ : Int} {r : Found}

theorem Found.Meets.congr {free free' : Nat → Prop}
    (h : r.Meets fake free m₀) (he : ∀ b, free b ↔ free' b) : r.Meets fake free' m₀ := by
  obtain rfl : free = free' := funext fun b => propext (he b)
  exact h

theorem Found.Meets.append {free₁ free₂ : Nat → Prop} {m₁ : Int}
    (h₁ : (Found.nothing m₁).Meets fake free₁ m₀) (h₂ : r.Meets fake free₂ m₁) :
    r.Meets fake (fun b => free₁ b ∨ free₂ b) m₀ := by
  obtain ⟨hle, hnn, hfree⟩ := h₁
  cases r with
  | nothing m =>
    obtain ⟨hle', hnn', hfree'⟩ := h₂
    refine ⟨hle'.trans hle, fun h => hnn' (hnn h), ?_⟩
    rintro b (hb | hb)
    · exact ⟨hle'.trans (hfree b hb).1, (hfree b hb).2⟩
    · exact hfree' b hb
  | found b' m =>
    obtain ⟨hle', hnn', hmem, hfree'⟩ := h₂
    refine ⟨hle'.trans hle, fun h => hnn' (hnn h), ⟨.inr hmem.1, hmem.2⟩, ?_⟩
    rintro b (hb | hb)
    · exact hle'.trans (hfree b hb).1
    · exact hfree' b hb
  | thrown =>
    obtain ⟨b, hb, hfake⟩ := h₂
    exact ⟨b, .inr hb, hfake⟩

theorem Found.Meets.stop {free₁ free₂ : Nat → Prop}
    (h : r.Meets fake free₁ m₀) (hend : ∀ m, r ≠ .nothing m)
    (hlt : ∀ b₁ b₂, free₁ b₁ → free₂ b₂ → b₁ ≤ b₂) :
    r.Meets fake (fun b => free₁ b ∨ free₂ b) m₀ := by
  cases r with
  | nothing m => exact absurd rfl (hend m)
  | found b' m =>
    obtain ⟨hle, hnn, hmem, hfree⟩ := h
    refine ⟨hle, hnn, ⟨.inl hmem.1, hmem.2⟩, ?_⟩
    rintro b (hb | hb)
    · exact hfree b hb
    · have := hfree b' hmem.1
      have := hlt b' b hmem.1 hb
      omega
  | thrown =>
    obtain ⟨b, hb, hfake⟩ := h
    exact ⟨b, .inl hb, hfake⟩

theorem Found.nothing_meets {free : Nat → Prop}
    (h : ∀ b, ¬ free b) : (Found.nothing m₀).Meets fake free m₀ :=
  ⟨le_rfl, id, fun b hb => absurd hb (h b)⟩

theorem tryBits_meets (fake : Nat → Fake) (byte : BitVec 8) (j : Nat) {is : List Nat} (m₀ : Int)
    (hsorted : is.Pairwise (· < ·)) (hlt : ∀ i ∈ is, i < 8) :
    (tryBits fake byte j is m₀).Meets fake
      (fun b => ∃ i ∈ is, b = j * 8 + i ∧ byte.getLsbD i = true) m₀ := by
  induction is generalizing m₀ with
  | nil => exact Found.nothing_meets (by simp)
  | cons i is ih =>
    obtain ⟨hhead, hsorted⟩ := pairwise_cons.mp hsorted
    have ih := fun m => ih m hsorted fun i' hi' => hlt i' (mem_cons_of_mem _ hi')
    have hi : i < 8 := hlt i (by simp)
    have hone : ∀ b, (b = j * 8 + i ∧ byte.getLsbD i = true) ∨
        (∃ i ∈ is, b = j * 8 + i ∧ byte.getLsbD i = true) ↔
        ∃ i' ∈ i :: is, b = j * 8 + i' ∧ byte.getLsbD i' = true := by simp
    unfold tryBits
    split_ifs with hbit
    · have hbit : byte.getLsbD i = true := by
        rw [BitVec.and_comm, ne_eq, and_mask_eq_zero hi] at hbit
        simpa using hbit
      dsimp only
      set free₁ : Nat → Prop := fun b => b = j * 8 + i ∧ byte.getLsbD i = true
      set m₁ : Int := min m₀ (j * 8 + i : Nat)
      have hle : m₁ ≤ m₀ := min_le_left _ _
      have hnn : 0 ≤ m₀ → 0 ≤ m₁ := fun h => le_min h (Int.natCast_nonneg _)
      have hfree : ∀ b, free₁ b → m₁ ≤ b := by
        rintro b ⟨rfl, -⟩
        exact min_le_right _ _
      cases hfake : fake (j * 8 + i) with
      | refused =>
        have h₁ : (Found.nothing m₁).Meets fake free₁ m₀ := by
          refine ⟨hle, hnn, fun b hb => ⟨hfree b hb, ?_⟩⟩
          rw [hb.1, hfake]
        exact (h₁.append (ih m₁)).congr hone
      | faked =>
        have h₁ : (Found.found (j * 8 + i) m₁).Meets fake free₁ m₀ :=
          ⟨hle, hnn, ⟨⟨rfl, hbit⟩, hfake⟩, hfree⟩
        refine (h₁.stop (by simp) ?_).congr hone
        rintro b₁ b₂ ⟨rfl, -⟩ ⟨i', hi', rfl, -⟩
        have := hhead i' hi'
        omega
      | thrown => exact ⟨j * 8 + i, ⟨i, by simp, rfl, hbit⟩, hfake⟩
    · have hbit : byte.getLsbD i = false := by
        rw [BitVec.and_comm, ne_eq, not_not, and_mask_eq_zero hi] at hbit
        exact hbit
      exact (ih m₀).congr (by simp [hbit])

theorem tryBytes_meets (fake : Nat → Fake) (bits : Nat → BitVec 8) {js : List Nat} (m₀ : Int)
    (hsorted : js.Pairwise (· < ·)) :
    (tryBytes fake bits js m₀).Meets fake (fun b => b / 8 ∈ js ∧ test bits b = true) m₀ := by
  induction js generalizing m₀ with
  | nil => exact Found.nothing_meets (by simp)
  | cons j js ih =>
    obtain ⟨hhead, hsorted⟩ := pairwise_cons.mp hsorted
    have hone : ∀ b, (b / 8 = j ∧ test bits b = true) ∨ (b / 8 ∈ js ∧ test bits b = true) ↔
        b / 8 ∈ j :: js ∧ test bits b = true := by
      intro b
      rw [← or_and_right, mem_cons]
    unfold tryBytes
    split_ifs with hbyte
    · have h : (tryBits fake (bits j) j (List.range 8) m₀).Meets fake
          (fun b => b / 8 = j ∧ test bits b = true) m₀ := by
        refine (tryBits_meets fake (bits j) j m₀ (by decide) (by simp)).congr fun b => ?_
        constructor
        · rintro ⟨i, hi, rfl, hbit⟩
          have hi : i < 8 := mem_range.mp hi
          exact ⟨by omega, by rw [test_mul_add bits j hi, hbit]⟩
        · rintro ⟨rfl, hbit⟩
          exact ⟨b % 8, mem_range.mpr (by omega), by omega, hbit⟩
      cases hr : tryBits fake (bits j) j (List.range 8) m₀ with
      | nothing m =>
        rw [hr] at h
        exact (h.append (ih m hsorted)).congr hone
      | _ =>
        rw [hr] at h
        refine (h.stop (by simp) ?_).congr hone
        rintro b₁ b₂ ⟨hb₁, -⟩ ⟨hb₂, -⟩
        have := hhead _ hb₂
        omega
    · refine (ih m₀ hsorted).congr fun b => ?_
      rw [← hone b]
      refine ⟨.inr, Or.rec ?_ id⟩
      rintro ⟨rfl, hbit⟩
      rw [ne_eq, not_not] at hbyte
      simp [test, hbyte] at hbit

/-- The hints of an inventory page: no free page lies below the byte of `pip_min`. -/
structure PageInvPage.Ok (pageSize : Nat) (pip : PageInvPage) : Prop where
  nonneg : 0 ≤ pip.pipMin
  low : ∀ b < pagesPerPIP pageSize, test pip.pipBits b = true → pip.pipMin / 8 ≤ b / 8

variable {pip : PageInvPage} {pageSize : Nat}

theorem PageInvPage.Ok.searchPip (h : pip.Ok pageSize)
    (fake : Nat → Fake) : (searchPip pageSize fake pip).Meets fake
      (fun b => b < pagesPerPIP pageSize ∧ test pip.pipBits b = true) (2 ^ 31 - 1) := by
  refine (tryBytes_meets fake pip.pipBits _ pairwise_lt_range').congr fun b => ?_
  rw [mem_range'_1]
  have hppp : pagesPerPIP pageSize = bytesBitPIP pageSize * 8 := rfl
  constructor
  · rintro ⟨hb, hbit⟩
    exact ⟨by omega, hbit⟩
  · rintro ⟨hb, hbit⟩
    have := h.low b hb hbit
    exact ⟨by omega, hbit⟩

theorem PageInvPage.Ok.takeBit {r : Nat} {m : Int}
    (hr : r < 2 ^ 31 - 1) (hm : 0 ≤ m)
    (hlow : ∀ b < pagesPerPIP pageSize, test pip.pipBits b = true → m ≤ b) :
    (takeBit r m pip).Ok pageSize := by
  have hmin : (Jrd.takeBit r m pip).pipMin = if m = r then m + 1 else m := by
    unfold Jrd.takeBit
    split_ifs with e
    · exact slong_of_lt (by omega) (by omega)
    · rfl
  refine ⟨by rw [hmin]; split_ifs <;> omega, fun b hb hbit => ?_⟩
  rw [Jrd.takeBit, test_clear, Bool.and_eq_true, decide_eq_true_iff] at hbit
  have := hlow b hb hbit.1
  rw [hmin]
  split_ifs <;> omega

theorem PageInvPage.Ok.release (h : pip.Ok pageSize) (r : Nat) :
    PageInvPage.Ok pageSize ⟨min pip.pipMin r, Bitmap.set pip.pipBits r⟩ := by
  refine ⟨le_min h.nonneg (Int.natCast_nonneg _), fun b hb hbit => ?_⟩
  rw [test_set, Bool.or_eq_true, decide_eq_true_iff] at hbit
  dsimp only
  rcases hbit with hbit | rfl
  · have := h.low b hb hbit
    omega
  · omega

/-! ## The invariant -/

/-- Where inventory page `k` lives. -/
def pipAt (pageSize k : Nat) : Int := if k = 0 then 1 else k * pagesPerPIP pageSize - 1

/-- The invariant of a page space with `n` inventory pages, `c` giving their contents. -/
structure PageSpace.Ok (pageSize : Nat) (s : PageSpace) (n : Nat) (c : Nat → PageInvPage) :
    Prop where
  pips : s.pips = (List.range n).map fun k => (pipAt pageSize k, c k)
  size : 20 < pageSize
  fits : n * pagesPerPIP pageSize ≤ 2 ^ 31
  highWater : 0 ≤ s.pipHighWater ∧ s.pipHighWater < n
  pip : ∀ k < n, (c k).Ok pageSize
  /-- The last page of an inventory page becomes the next inventory page. -/
  last : ∀ k < n, test (c k).pipBits (pagesPerPIP pageSize - 1) = decide (k + 1 = n)
  fixed : ∀ b < 3, test (c 0).pipBits b = false

def Used (pageSize n : Nat) (c : Nat → PageInvPage) (p : Int) : Prop :=
  ∃ k < n, ∃ b < pagesPerPIP pageSize, p = k * pagesPerPIP pageSize + b ∧
    test (c k).pipBits b = false

/-- A page that `PAG_allocate` may take, with the lowest candidate it has seen. -/
structure Candidate (pageSize n : Nat) (c : Nat → PageInvPage) (k r : Nat) (m : Int) : Prop where
  pip : k < n
  bit : r < pagesPerPIP pageSize
  free : test (c k).pipBits r = true
  nonneg : 0 ≤ m
  low : ∀ b < pagesPerPIP pageSize, test (c k).pipBits b = true → m ≤ b

namespace PageSpace

variable {pageSize n : Nat} {s : PageSpace} {c : Nat → PageInvPage}

theorem pagesPerPIP_pos (h : 20 < pageSize) : 8 ≤ pagesPerPIP pageSize := by
  unfold pagesPerPIP bytesBitPIP
  omega

variable {k : Nat}

theorem mul_le_mul_ppp {n : Nat} (h : k ≤ n) :
    (k : Int) * pagesPerPIP pageSize ≤ n * pagesPerPIP pageSize := by
  exact_mod_cast Nat.mul_le_mul_right _ h

theorem mul_ppp_nonneg (k : Nat) : 0 ≤ (k : Int) * pagesPerPIP pageSize := by
  exact_mod_cast Nat.zero_le _

variable {k' : Nat}

theorem pipAt_lt (h : 20 < pageSize) (hlt : k < k') :
    pipAt pageSize k < pipAt pageSize k' := by
  have hp := pagesPerPIP_pos h
  have h₁ : ((k + 1 : Nat) : Int) * pagesPerPIP pageSize ≤ k' * pagesPerPIP pageSize :=
    mul_le_mul_ppp hlt
  have h₂ : (0 : Int) ≤ k * pagesPerPIP pageSize := mul_ppp_nonneg k
  push_cast [add_mul] at h₁
  unfold pipAt
  split_ifs <;> omega

theorem pipAt_inj (h : 20 < pageSize) (he : pipAt pageSize k = pipAt pageSize k') :
    k = k' := by
  rcases Nat.lt_trichotomy k k' with hlt | heq | hlt
  · have := pipAt_lt h hlt
    omega
  · exact heq
  · have := pipAt_lt h hlt
    omega

theorem pipPage_eq (hn : n * pagesPerPIP pageSize ≤ 2 ^ 31) (hk : k ≤ n) :
    pipPage pageSize k = pipAt pageSize k := by
  have h₁ := Nat.mul_le_mul_right (pagesPerPIP pageSize) hk
  unfold pipPage pipAt
  split_ifs with e₁ e₂ e₂
  · rfl
  · omega
  · omega
  · refine slong_of_lt ?_ ?_
    · have : (0 : Int) ≤ k * pagesPerPIP pageSize := mul_ppp_nonneg k
      omega
    · have : (k * pagesPerPIP pageSize : Int) ≤ 2 ^ 31 := by exact_mod_cast h₁.trans hn
      omega

variable {b : Nat}

theorem pageNum_eq (hn : n * pagesPerPIP pageSize ≤ 2 ^ 31) (hk : k < n)
    (hb : b < pagesPerPIP pageSize) :
    pageNum pageSize k b = k * pagesPerPIP pageSize + b := by
  have h₁ := Nat.mul_le_mul_right (pagesPerPIP pageSize) (Nat.succ_le_of_lt hk)
  rw [Nat.succ_eq_add_one, Nat.add_mul, Nat.one_mul] at h₁
  unfold pageNum
  rw [Int.add_comm]
  refine slong_of_lt ?_ ?_
  · have : (0 : Int) ≤ k * pagesPerPIP pageSize := mul_ppp_nonneg k
    omega
  · have : ((k * pagesPerPIP pageSize + b : Nat) : Int) < 2 ^ 31 := by omega
    exact_mod_cast this

theorem page_div (hb : b < pagesPerPIP pageSize) :
    (k * pagesPerPIP pageSize + b : Int) / pagesPerPIP pageSize = k := by
  have : (k * pagesPerPIP pageSize + b) / pagesPerPIP pageSize = k := by
    rw [Nat.add_comm, Nat.add_mul_div_right _ _ (by omega), Nat.div_eq_of_lt hb, Nat.zero_add]
  exact_mod_cast this

theorem page_mod (hb : b < pagesPerPIP pageSize) :
    (k * pagesPerPIP pageSize + b : Int) % pagesPerPIP pageSize = b := by
  have : (k * pagesPerPIP pageSize + b) % pagesPerPIP pageSize = b := by
    rw [Nat.add_comm, Nat.add_mul_mod_self_right, Nat.mod_eq_of_lt hb]
  exact_mod_cast this

theorem page_inj {b' : Nat} (hb : b < pagesPerPIP pageSize) (hb' : b' < pagesPerPIP pageSize)
    (h : (k * pagesPerPIP pageSize + b : Int) = k' * pagesPerPIP pageSize + b') :
    k = k' ∧ b = b' := by
  have hdiv := congrArg (· / (pagesPerPIP pageSize : Int)) h
  have hmod := congrArg (· % (pagesPerPIP pageSize : Int)) h
  simp only [page_div hb, page_div hb', page_mod hb, page_mod hb'] at hdiv hmod
  exact ⟨by exact_mod_cast hdiv, by exact_mod_cast hmod⟩

theorem used_iff (hb : b < pagesPerPIP pageSize) :
    Used pageSize n c (k * pagesPerPIP pageSize + b) ↔ k < n ∧ test (c k).pipBits b = false := by
  constructor
  · rintro ⟨k', hk', b', hb', he, hbit⟩
    obtain ⟨rfl, rfl⟩ := page_inj hb hb' he
    exact ⟨hk', hbit⟩
  · rintro ⟨hk, hbit⟩
    exact ⟨k, hk, b, hb, rfl, hbit⟩

theorem used_bounds {p : Int} (h : Used pageSize n c p) : 0 ≤ p ∧ p < n * pagesPerPIP pageSize := by
  obtain ⟨k, hk, b, hb, rfl, -⟩ := h
  have h₁ : (0 : Int) ≤ k * pagesPerPIP pageSize := mul_ppp_nonneg k
  have h₂ : ((k + 1 : Nat) * pagesPerPIP pageSize : Int) ≤ n * pagesPerPIP pageSize :=
    mul_le_mul_ppp hk
  push_cast [add_mul] at h₂
  omega

namespace Ok

theorem fetch (h : s.Ok pageSize n c) {k : Nat} (hk : k ≤ n) :
    s.fetch (pipPage pageSize k) = if k < n then some (c k) else none := by
  rw [pipPage_eq h.fits hk, PageSpace.fetch, h.pips, find?_map]
  have hfind : ((fun p : Int × PageInvPage => decide (p.1 = pipAt pageSize k)) ∘
      fun k => (pipAt pageSize k, c k)) = fun k' => decide (k' = k) := by
    funext k'
    simp only [comp_apply, decide_eq_decide]
    exact ⟨pipAt_inj h.size, fun e => e ▸ rfl⟩
  rw [hfind]
  split_ifs with hlt
  · have : (List.range n).find? (fun k' => decide (k' = k)) = some k := by
      rw [find?_eq_some_iff_getElem]
      refine ⟨by simp, k, by simpa using hlt, by simp, fun j hj => ?_⟩
      simp only [getElem_range, Bool.not_eq_eq_eq_not, Bool.not_true, decide_eq_false_iff_not]
      omega
    simp [this]
  · have : (List.range n).find? (fun k' => decide (k' = k)) = none := by
      rw [find?_eq_none]
      intro k' hk'
      have := mem_range.mp hk'
      simp only [decide_eq_true_eq]
      omega
    simp [this]

theorem mark (h : s.Ok pageSize n c) {k : Nat} (hk : k < n) (pip : PageInvPage) :
    (s.mark (pipPage pageSize k) pip).pips =
      (List.range n).map fun k' => (pipAt pageSize k', update c k pip k') := by
  rw [pipPage_eq h.fits hk.le, PageSpace.mark, h.pips, map_map]
  refine map_congr_left fun k' _ => ?_
  rw [comp_apply]
  split_ifs with e
  · rw [pipAt_inj h.size e, update_self]
  · have : k' ≠ k := fun e' => e (e' ▸ rfl)
    rw [update_of_ne this]

theorem used_fixed (h : s.Ok pageSize n c) {p : Int} (lo : 0 ≤ p) (hi : p ≤ 2) :
    Used pageSize n c p := by
  have := pagesPerPIP_pos h.size
  refine ⟨0, ?_, p.toNat, by omega, by simpa using lo, h.fixed _ (by omega)⟩
  have := h.highWater
  omega

theorem used_pips (h : s.Ok pageSize n c) {k : Nat} (hk : k < n) :
    Used pageSize n c (pipAt pageSize k) := by
  have hp := pagesPerPIP_pos h.size
  unfold pipAt
  split_ifs with e
  · exact h.used_fixed (by omega) (by omega)
  · obtain ⟨k, rfl⟩ := Nat.exists_eq_succ_of_ne_zero e
    refine ⟨k, by omega, pagesPerPIP pageSize - 1, by omega, ?_, ?_⟩
    · push_cast [add_mul, Nat.cast_sub (show 1 ≤ pagesPerPIP pageSize by omega)]
      omega
    · rw [h.last k (by omega)]
      simp only [decide_eq_false_iff_not]
      omega

theorem mem_pips (h : s.Ok pageSize n c) {p : Int} :
    p ∈ s.pips.map (·.1) ↔ ∃ k < n, p = pipAt pageSize k := by
  rw [h.pips]
  simp [eq_comm]

theorem n_lt (h : s.Ok pageSize n c) : n * 8 ≤ 2 ^ 31 :=
  (Nat.mul_le_mul_left n (pagesPerPIP_pos h.size)).trans h.fits

theorem searchPips_some (h : s.Ok pageSize n c) {fake : Int → Fake} {fuel q : Nat} (hq : q ≤ n)
    {sequence : Int} {pip : PageInvPage} {r : Nat} {m : Int}
    (hs : searchPips pageSize fake s fuel q = some (sequence, pip, r, m)) :
    ∃ k, Candidate pageSize n c k r m ∧ sequence = k ∧ pip = c k := by
  induction fuel generalizing q with
  | zero => cases hs
  | succ fuel ih =>
    rw [searchPips, h.fetch hq] at hs
    split_ifs at hs with hlt
    · have hmeets := (h.pip q hlt).searchPip fun b => fake (pageNum pageSize q b)
      dsimp only at hs
      split at hs
      · have hslong : slong (q + 1 : Int) = (q + 1 : Nat) := by
          have := h.n_lt
          push_cast
          exact slong_of_lt (by omega) (by omega)
        rw [hslong] at hs
        exact ih hlt hs
      · rename_i r' m' hr
        rw [hr] at hmeets
        obtain ⟨-, hnn, ⟨hfree, -⟩, hlow⟩ := hmeets
        cases hs
        exact ⟨q, ⟨hlt, hfree.1, hfree.2, hnn (by omega), fun b hb hbit => hlow b ⟨hb, hbit⟩⟩, rfl,
          rfl⟩
      · cases hs

theorem searchPips_isSome (h : s.Ok pageSize n c) {fake : Int → Fake} (hfake : ∀ p, fake p = .faked)
    {fuel q : Nat} (hq : q < n) (hfuel : n ≤ fuel + q) :
    (searchPips pageSize fake s fuel q).isSome := by
  induction fuel generalizing q with
  | zero => omega
  | succ fuel ih =>
    have hp := pagesPerPIP_pos h.size
    have hmeets := (h.pip q hq).searchPip fun b => fake (pageNum pageSize q b)
    rw [searchPips, h.fetch hq.le, if_pos hq]
    dsimp only
    split
    · rename_i m hr
      rw [hr] at hmeets
      -- The last inventory page has a free page, so this is not it.
      have hlt : q + 1 < n := by
        by_contra hge
        have hlast : test (c q).pipBits (pagesPerPIP pageSize - 1) = true := by
          rw [h.last q hq, decide_eq_true_iff]
          omega
        have hrefused := (hmeets.2.2 _ ⟨by omega, hlast⟩).2
        exact Fake.noConfusion ((hfake _).symm.trans hrefused)
      have hslong : slong (q + 1 : Int) = (q + 1 : Nat) := by
        have := h.n_lt
        push_cast
        exact slong_of_lt (by omega) (by omega)
      rw [hslong]
      exact ih hlt (by omega)
    · rfl
    · rename_i hr
      rw [hr] at hmeets
      obtain ⟨b, -, hthrown⟩ := hmeets
      exact Fake.noConfusion ((hfake _).symm.trans hthrown)

end Ok

variable {k r : Nat} {m : Int}

/-- The contents of the inventory after page `r` of inventory page `k` is taken. -/
def take (c : Nat → PageInvPage) (k r : Nat) (m : Int) : Nat → PageInvPage :=
  Function.update c k (takeBit r m (c k))

theorem test_take (c : Nat → PageInvPage) (k r : Nat) (m : Int) (k' b : Nat) :
    test (take c k r m k').pipBits b = (test (c k').pipBits b && decide (¬ (k' = k ∧ b = r))) := by
  unfold take
  by_cases e : k' = k
  · subst e
    rw [update_self, takeBit, test_clear]
    simp
  · rw [update_of_ne e]
    simp [e]

theorem Ok.take_pip (h : s.Ok pageSize n c)
    (hcand : Candidate pageSize n c k r m) (hr : r < 2 ^ 31 - 1) (hk' : k' < n) :
    (take c k r m k').Ok pageSize := by
  unfold take
  by_cases e : k' = k
  · subst e
    rw [update_self]
    exact .takeBit hr hcand.nonneg hcand.low
  · rw [update_of_ne e]
    exact h.pip k' hk'

theorem used_take (hcand : Candidate pageSize n c k r m) (p : Int) :
    Used pageSize n (take c k r m) p ↔ p = k * pagesPerPIP pageSize + r ∨ Used pageSize n c p := by
  constructor
  · rintro ⟨k', hk', b, hb, rfl, hbit⟩
    rw [test_take, Bool.and_eq_false_iff, decide_eq_false_iff_not, not_not] at hbit
    rcases hbit with hbit | ⟨rfl, rfl⟩
    · exact .inr ⟨k', hk', b, hb, rfl, hbit⟩
    · exact .inl rfl
  · rintro (rfl | ⟨k', hk', b, hb, rfl, hbit⟩)
    · exact ⟨k, hcand.pip, r, hcand.bit, rfl, by rw [test_take]; simp⟩
    · exact ⟨k', hk', b, hb, rfl, by rw [test_take, hbit, Bool.false_and]⟩

theorem not_used (hcand : Candidate pageSize n c k r m) :
    ¬ Used pageSize n c (k * pagesPerPIP pageSize + r) := by
  rw [used_iff hcand.bit, hcand.free]
  simp

theorem Ok.take (h : s.Ok pageSize n c) (hcand : Candidate pageSize n c k r m)
    (hne : r ≠ pagesPerPIP pageSize - 1) :
    PageSpace.Ok pageSize { s.mark (pipPage pageSize k) (takeBit r m (c k)) with pipHighWater := k }
      n
      (PageSpace.take c k r m) where
  pips := h.mark hcand.pip _
  size := h.size
  fits := h.fits
  highWater := ⟨by simp, by simpa using hcand.pip⟩
  pip k' hk' := by
    refine h.take_pip hcand ?_ hk'
    have h₁ := Nat.mul_le_mul_right (pagesPerPIP pageSize) (show 1 ≤ n by omega)
    have h₂ := h.fits
    have h₃ := hcand.bit
    omega
  last k' hk' := by
    rw [test_take, h.last k' hk']
    have : ¬ (k' = k ∧ pagesPerPIP pageSize - 1 = r) := fun e => hne e.2.symm
    simp [this]
  fixed b hb := by rw [test_take, h.fixed b hb, Bool.false_and]

theorem test_formattedPip (b : Nat) : test formattedPip.pipBits b = true := by
  have hones : formattedPip.pipBits (b / 8) = 255#8 := rfl
  have hb : b / 8 * 8 + b % 8 = b := by omega
  have := byte_eq_ones_iff.mp hones (b % 8) (Nat.mod_lt _ (by decide))
  rwa [hb] at this

theorem formattedPip_ok : formattedPip.Ok pageSize :=
  ⟨le_rfl, fun b _ _ => by simp only [formattedPip]; omega⟩

theorem Ok.last_candidate (h : s.Ok pageSize n c)
    (hcand : Candidate pageSize n c k (pagesPerPIP pageSize - 1) m) : n = k + 1 := by
  have := hcand.free
  rw [h.last k hcand.pip, decide_eq_true_iff] at this
  exact this.symm

/-- The contents of the inventory after the last page of inventory page `k` has become an inventory
page. -/
def grow (pageSize : Nat) (c : Nat → PageInvPage) (k : Nat) (m : Int) : Nat → PageInvPage :=
  Function.update (take c k (pagesPerPIP pageSize - 1) m) (k + 1) formattedPip

theorem grow_of_le (c : Nat → PageInvPage) (m : Int) (h : k' ≤ k) :
    grow pageSize c k m k' = take c k (pagesPerPIP pageSize - 1) m k' := by
  unfold grow
  rw [update_of_ne (by omega)]

theorem grow_last (c : Nat → PageInvPage) (m : Int) :
    grow pageSize c k m (k + 1) = formattedPip := by
  unfold grow
  rw [update_self]

theorem used_grow (hcand : Candidate pageSize (k + 1) c k (pagesPerPIP pageSize - 1) m) (p : Int) :
    Used pageSize (k + 2) (grow pageSize c k m) p ↔
      p = k * pagesPerPIP pageSize + (pagesPerPIP pageSize - 1 : Nat) ∨
        Used pageSize (k + 1) c p := by
  rw [← used_take hcand]
  constructor
  · rintro ⟨k', hk', b, hb, rfl, hbit⟩
    rcases Nat.lt_or_eq_of_le (Nat.le_of_lt_succ hk') with hlt | rfl
    · exact ⟨k', hlt, b, hb, rfl, by rwa [grow_of_le c m (Nat.le_of_lt_succ hlt)] at hbit⟩
    · rw [grow_last, test_formattedPip] at hbit
      cases hbit
  · rintro ⟨k', hk', b, hb, rfl, hbit⟩
    exact ⟨k', by omega, b, hb, rfl, by rwa [grow_of_le c m (Nat.le_of_lt_succ hk')]⟩

theorem pageNum_last (hfits : (k + 1) * pagesPerPIP pageSize ≤ 2 ^ 31) (hsize : 20 < pageSize) :
    pageNum pageSize k (pagesPerPIP pageSize - 1) = pipAt pageSize (k + 1) := by
  have hp := pagesPerPIP_pos hsize
  rw [pageNum_eq hfits (Nat.lt_succ_self k) (by omega), pipAt, if_neg (by omega)]
  push_cast [add_mul, Nat.cast_sub (show 1 ≤ pagesPerPIP pageSize by omega)]
  omega

theorem Ok.grow (h : s.Ok pageSize (k + 1) c)
    (hcand : Candidate pageSize (k + 1) c k (pagesPerPIP pageSize - 1) m)
    (hfits : (k + 2) * pagesPerPIP pageSize ≤ 2 ^ 31) :
    PageSpace.Ok pageSize
      { pipHighWater := k
        pips := (s.mark (pipPage pageSize k) (takeBit (pagesPerPIP pageSize - 1) m (c k))).pips ++
          [(pageNum pageSize k (pagesPerPIP pageSize - 1), formattedPip)] }
      (k + 2) (PageSpace.grow pageSize c k m) where
  pips := by
    rw [pageNum_last h.fits h.size, h.mark hcand.pip, range_succ (n := k + 1), map_append,
      map_singleton, grow_last]
    refine congrArg (· ++ _) (map_congr_left fun k' hk' => ?_)
    rw [grow_of_le c m (Nat.le_of_lt_succ (mem_range.mp hk'))]
    rfl
  size := h.size
  fits := hfits
  highWater := ⟨by simp, by simp only; omega⟩
  pip k' hk' := by
    rcases Nat.lt_or_eq_of_le (Nat.le_of_lt_succ hk') with hlt | rfl
    · rw [grow_of_le c m (Nat.le_of_lt_succ hlt)]
      refine h.take_pip hcand ?_ hlt
      have h₁ := Nat.mul_le_mul_right (pagesPerPIP pageSize) (show 2 ≤ k + 2 by omega)
      omega
    · rw [grow_last]
      exact formattedPip_ok
  last k' hk' := by
    rcases Nat.lt_or_eq_of_le (Nat.le_of_lt_succ hk') with hlt | rfl
    · rw [grow_of_le c m (Nat.le_of_lt_succ hlt), test_take, h.last k' hlt]
      rcases Nat.lt_or_eq_of_le (Nat.le_of_lt_succ hlt) with hlt | rfl
      · have h₁ : decide (k' + 1 = k + 1) = false := decide_eq_false (by omega)
        have h₂ : decide (k' + 1 = k + 2) = false := decide_eq_false (by omega)
        rw [h₁, h₂, Bool.false_and]
      · simp
    · rw [grow_last, test_formattedPip]
      simp
  fixed b hb := by
    rw [grow_of_le c m (Nat.zero_le k), test_take, h.fixed b hb, Bool.false_and]

/-- What a call of `PAG_allocate` comes to in a page space with `n` inventory pages. -/
structure Allocates (pageSize n : Nat) (c : Nat → PageInvPage) (r : Allocation)
    (c' : Nat → PageInvPage) :
    Prop where
  ok : r.space.Ok pageSize (n + r.formatted.length) c'
  used : ∀ p, Used pageSize (n + r.formatted.length) c' p ↔
    p ∈ r.formatted ∨ r.page = some p ∨ Used pageSize n c p
  fresh : ∀ p, r.page = some p → ¬ Used pageSize n c p ∧ p ∉ r.space.pips.map (·.1)

theorem Ok.allocates_none (h : s.Ok pageSize n c) : Allocates pageSize n c ⟨none, [], s⟩ c :=
  ⟨h, by simp, by simp⟩

theorem Ok.allocates_take (h : s.Ok pageSize n c) (hcand : Candidate pageSize n c k r m)
    (hne : r ≠ pagesPerPIP pageSize - 1) :
    Allocates pageSize n c
      ⟨some (pageNum pageSize k r), [],
        { s.mark (pipPage pageSize k) (takeBit r m (c k)) with pipHighWater := k }⟩
      (PageSpace.take c k r m) := by
  have hnum := pageNum_eq h.fits hcand.pip hcand.bit
  refine ⟨h.take hcand hne, fun p => ?_, ?_⟩
  · simp [used_take hcand, hnum, eq_comm]
  · rintro p hp
    obtain rfl : pageNum pageSize k r = p := Option.some.inj hp
    rw [hnum]
    refine ⟨not_used hcand, fun hmem => ?_⟩
    -- Inventory pages are in use, and they are where they were.
    obtain ⟨k', hk', e⟩ := (h.take hcand hne).mem_pips.mp hmem
    exact not_used hcand (e ▸ h.used_pips hk')

theorem Ok.allocates_grow {c' : Nat → PageInvPage} {r : Allocation} (h : s.Ok pageSize (k + 1) c)
    (hcand : Candidate pageSize (k + 1) c k (pagesPerPIP pageSize - 1) m)
    (hr : Allocates pageSize (k + 2) (PageSpace.grow pageSize c k m) r c') :
    Allocates pageSize (k + 1) c
      { r with formatted := pageNum pageSize k (pagesPerPIP pageSize - 1) :: r.formatted } c' := by
  have hlen : k + 1 + (r.formatted.length + 1) = k + 2 + r.formatted.length := by omega
  have hnum := pageNum_eq h.fits hcand.pip hcand.bit
  refine ⟨?_, fun p => ?_, fun p hp => ?_⟩
  · simpa only [length_cons, hlen] using hr.ok
  · simp only [length_cons, hlen, hr.used, used_grow hcand, hnum]
    grind
  · obtain ⟨h₁, h₂⟩ := hr.fresh p hp
    rw [used_grow hcand] at h₁
    exact ⟨fun hu => h₁ (.inr hu), h₂⟩

theorem Ok.takePage_cases (h : s.Ok pageSize n c) (fake : Int → Fake) :
    (takePage pageSize fake s = none ∧ ∃ p, fake p ≠ .faked) ∨
    (∃ k r m, Candidate pageSize n c k r m ∧ r ≠ pagesPerPIP pageSize - 1 ∧
      takePage pageSize fake s = some (pageNum pageSize k r, false,
        { s.mark (pipPage pageSize k) (takeBit r m (c k)) with pipHighWater := k })) ∨
    ∃ k m, n = k + 1 ∧ Candidate pageSize n c k (pagesPerPIP pageSize - 1) m ∧
      takePage pageSize fake s = some (pageNum pageSize k (pagesPerPIP pageSize - 1), true,
        { s.mark (pipPage pageSize k) (takeBit (pagesPerPIP pageSize - 1) m (c k)) with
          pipHighWater := k }) := by
  obtain ⟨q, hq⟩ := Int.eq_ofNat_of_zero_le h.highWater.1
  have hqn : q < n := by
    have := h.highWater.2
    omega
  have hlen : s.pips.length = n := by simp [h.pips]
  unfold takePage
  rw [hq, hlen]
  cases hsearch : searchPips pageSize fake s (n + 1) q with
  | none =>
    refine .inl ⟨rfl, ?_⟩
    by_contra hall
    push Not at hall
    have hsome := h.searchPips_isSome hall hqn (show n ≤ n + 1 + q by omega)
    simp [hsearch] at hsome
  | some x =>
    obtain ⟨sequence, pip, r, m⟩ := x
    obtain ⟨k, hcand, rfl, rfl⟩ := h.searchPips_some hqn.le hsearch
    by_cases hlast : r = pagesPerPIP pageSize - 1
    · subst hlast
      exact .inr (.inr ⟨k, m, h.last_candidate hcand, hcand, by simp⟩)
    · exact .inr (.inl ⟨k, r, m, hcand, hlast, by simp [hlast]⟩)

theorem Ok.pagAllocate (h : s.Ok pageSize n c) (fake : Nat → Int → Fake) {depth : Nat}
    (hfits : (n + depth) * pagesPerPIP pageSize ≤ 2 ^ 31) :
    ∃ c', Allocates pageSize n c (pagAllocate pageSize fake depth s) c' := by
  induction depth generalizing s n c with
  | zero =>
    rcases h.takePage_cases (fake 0) with ⟨e, -⟩ | ⟨k, r, m, hcand, hne, e⟩ | ⟨k, m, -, -, e⟩
    · exact ⟨c, by simpa only [Jrd.pagAllocate, e] using h.allocates_none⟩
    · exact ⟨_, by simpa only [Jrd.pagAllocate, e] using h.allocates_take hcand hne⟩
    · exact ⟨c, by simpa only [Jrd.pagAllocate, e] using h.allocates_none⟩
  | succ depth ih =>
    rcases h.takePage_cases (fake (depth + 1)) with ⟨e, -⟩ | ⟨k, r, m, hcand, hne, e⟩ |
      ⟨k, m, rfl, hcand, e⟩
    · exact ⟨c, by simpa only [Jrd.pagAllocate, e] using h.allocates_none⟩
    · exact ⟨_, by simpa only [Jrd.pagAllocate, e] using h.allocates_take hcand hne⟩
    · have hdepth : k + 1 + (depth + 1) = k + 2 + depth := by omega
      rw [hdepth] at hfits
      have hgrow := h.grow hcand ((Nat.mul_le_mul_right _ (Nat.le_add_right _ _)).trans hfits)
      obtain ⟨c', hc'⟩ := ih hgrow hfits
      exact ⟨c', by simpa only [Jrd.pagAllocate, e] using h.allocates_grow hcand hc'⟩

theorem pagAllocate_zero_formatted (fake : Nat → Int → Fake) (s : PageSpace) :
    (Jrd.pagAllocate pageSize fake 0 s).formatted = [] := by
  unfold Jrd.pagAllocate
  split <;> rfl

theorem Ok.pagAllocate_one (h : s.Ok pageSize n c) (fake : Nat → Int → Fake)
    (hfake : ∀ p, fake 1 p = .faked) :
    (Jrd.pagAllocate pageSize fake 1 s).formatted.length = 1 ∨
      (Jrd.pagAllocate pageSize fake 1 s).formatted = [] ∧
        ∃ p, (Jrd.pagAllocate pageSize fake 1 s).page = some p := by
  rcases h.takePage_cases (fake 1) with ⟨-, p, hp⟩ | ⟨k, r, m, -, -, e⟩ | ⟨k, m, -, -, e⟩
  · exact absurd (hfake p) hp
  · exact .inr (by simp [Jrd.pagAllocate, e])
  · refine .inl ?_
    simp only [Jrd.pagAllocate, e]
    exact congrArg (List.length · + 1) (pagAllocate_zero_formatted fake _)

/-- The contents of the inventory after page `r` of inventory page `k` is released. -/
def give (c : Nat → PageInvPage) (k r : Nat) : Nat → PageInvPage :=
  Function.update c k ⟨min (c k).pipMin r, Bitmap.set (c k).pipBits r⟩

theorem test_give (c : Nat → PageInvPage) (k r k' b : Nat) :
    test (give c k r k').pipBits b = (test (c k').pipBits b || decide (k' = k ∧ b = r)) := by
  unfold give
  by_cases e : k' = k
  · subst e
    rw [update_self, test_set]
    simp
  · rw [update_of_ne e]
    simp [e]

theorem used_give (hb : r < pagesPerPIP pageSize) (p : Int) :
    Used pageSize n (give c k r) p ↔ Used pageSize n c p ∧ p ≠ k * pagesPerPIP pageSize + r := by
  constructor
  · rintro ⟨k', hk', b, hb', rfl, hbit⟩
    rw [test_give, Bool.or_eq_false_iff, decide_eq_false_iff_not] at hbit
    exact ⟨⟨k', hk', b, hb', rfl, hbit.1⟩, fun e => hbit.2 (page_inj hb' hb e)⟩
  · rintro ⟨⟨k', hk', b, hb', rfl, hbit⟩, hne⟩
    refine ⟨k', hk', b, hb', rfl, ?_⟩
    rw [test_give, hbit, Bool.false_or, decide_eq_false_iff_not]
    rintro ⟨rfl, rfl⟩
    exact hne rfl

theorem Ok.pagReleasePage (h : s.Ok pageSize n c) {p : Int} (hused : Used pageSize n c p)
    (hlow : 2 < p) (hpip : p ∉ s.pips.map (·.1)) :
    ∃ c', (pagReleasePage pageSize p s).Ok pageSize n c' ∧
      ∀ p', Used pageSize n c' p' ↔ Used pageSize n c p' ∧ p' ≠ p := by
  obtain ⟨k, hk, r, hr, rfl, hbit⟩ := hused
  have hrelease : Jrd.pagReleasePage pageSize (k * pagesPerPIP pageSize + r) s =
      { s.mark (pipPage pageSize k) ⟨min (c k).pipMin r, Bitmap.set (c k).pipBits r⟩ with
        pipHighWater := min s.pipHighWater k } := by
    unfold Jrd.pagReleasePage
    dsimp only
    rw [page_div hr, page_mod hr, h.fetch hk.le, if_pos hk, Int.toNat_natCast]
  -- The last page of an inventory page is free or an inventory page itself.
  have hlast : r ≠ pagesPerPIP pageSize - 1 := by
    rintro rfl
    rw [h.last k hk, decide_eq_false_iff_not] at hbit
    refine hpip (h.mem_pips.mpr ⟨k + 1, by omega, ?_⟩)
    rw [pipAt, if_neg (by omega)]
    push_cast [add_mul, Nat.cast_sub (show 1 ≤ pagesPerPIP pageSize by omega)]
    omega
  refine ⟨give c k r, ?_, used_give hr⟩
  rw [hrelease]
  refine ⟨h.mark hk _, h.size, h.fits, ?_, fun k' hk' => ?_, fun k' hk' => ?_, fun b hb => ?_⟩
  · have := h.highWater
    dsimp only
    omega
  · unfold give
    by_cases e : k' = k
    · subst e
      rw [update_self]
      exact (h.pip k' hk').release r
    · rw [update_of_ne e]
      exact h.pip k' hk'
  · rw [test_give, h.last k' hk']
    simp [hlast.symm]
  · rw [test_give, h.fixed b hb, Bool.false_or, decide_eq_false_iff_not]
    rintro ⟨rfl, rfl⟩
    omega

end PageSpace

end Firebird.Jrd
