import Mathlib.Data.Finset.Card
import Mathlib.Tactic.IntervalCases
import Firebird.Jrd.PagSafety

/-!
# Runs of page allocations and releases

Every page that `PAG_allocate` hands out is one that was free, and `PAG_last_page` finds the highest
page in use, as long as its `USHORT` counts the inventory pages.
-/
namespace Firebird.Jrd

open Lib Bitmap List

theorem lastUsedByte_spec {pip : PageInvPage} {m : Nat}
    (h : ∃ j < m, pip.byteAt ((j : Int) - 4) ≠ 255#8) :
    ∃ j < m, lastUsedByte pip m = some ((j : Int) - 4) ∧ pip.byteAt ((j : Int) - 4) ≠ 255#8 ∧
      ∀ j' < m, j < j' → pip.byteAt ((j' : Int) - 4) = 255#8 := by
  induction m with
  | zero =>
    omega
  | succ m ih =>
    unfold lastUsedByte
    split_ifs with hbyte
    · have hbelow : ∃ j < m, pip.byteAt ((j : Int) - 4) ≠ 255#8 := by
        obtain ⟨j, hj, hne⟩ := h
        rcases Nat.lt_or_eq_of_le (Nat.le_of_lt_succ hj) with hlt | rfl
        · exact ⟨j, hlt, hne⟩
        · exact absurd hbyte hne
      obtain ⟨j, hj, hlast, hne, hall⟩ := ih hbelow
      refine ⟨j, by omega, hlast, hne, fun j' hj' hlt => ?_⟩
      rcases Nat.lt_or_eq_of_le (Nat.le_of_lt_succ hj') with hlt' | rfl
      · exact hall j' hlt' hlt
      · exact hbyte
    · exact ⟨m, Nat.lt_succ_self m, rfl, hbyte, fun j' hj' hlt => by omega⟩

theorem lastUsedBit_spec {byte : BitVec 8} {m : Nat} (hm : m ≤ 8)
    (h : ∃ i < m, byte.getLsbD i = false) :
    ∃ i < m, lastUsedBit byte m = (i : Int) ∧ byte.getLsbD i = false ∧
      ∀ i' < m, i < i' → byte.getLsbD i' = true := by
  induction m with
  | zero =>
    omega
  | succ m ih =>
    unfold lastUsedBit
    split_ifs with hbit
    · rw [and_mask_eq_zero (by omega)] at hbit
      exact ⟨m, Nat.lt_succ_self m, rfl, hbit, fun i' hi' hlt => by omega⟩
    · rw [and_mask_eq_zero (by omega), Bool.not_eq_false] at hbit
      have hbelow : ∃ i < m, byte.getLsbD i = false := by
        obtain ⟨i, hi, hfalse⟩ := h
        rcases Nat.lt_or_eq_of_le (Nat.le_of_lt_succ hi) with hlt | rfl
        · exact ⟨i, hlt, hfalse⟩
        · rw [hbit] at hfalse
          cases hfalse
      obtain ⟨i, hi, hlast, hfalse, hall⟩ := ih (by omega) hbelow
      refine ⟨i, by omega, hlast, hfalse, fun i' hi' hlt => ?_⟩
      rcases Nat.lt_or_eq_of_le (Nat.le_of_lt_succ hi') with hlt' | rfl
      · exact hall i' hlt' hlt
      · exact hbit

namespace PageInvPage

variable {pageSize : Nat} {pip : PageInvPage}

theorem byteAt_add (pip : PageInvPage) (j : Nat) :
    pip.byteAt (((j + 4 : Nat) : Int) - 4) = pip.pipBits j := by
  unfold byteAt
  rw [if_pos (by omega)]
  congr 1
  omega

theorem exists_bit_of_ne {j : Nat} (h : pip.pipBits j ≠ 255#8) :
    ∃ i < 8, (pip.pipBits j).getLsbD i = false := by
  by_contra hall
  push Not at hall
  refine h (byte_eq_ones_iff.mpr fun i hi => ?_)
  rw [test_mul_add _ _ hi]
  simpa using hall i hi

theorem lastRelativeBit_used (hsize : pagesPerPIP pageSize ≤ 2 ^ 31)
    (h : ∃ b < pagesPerPIP pageSize, test pip.pipBits b = false) :
    ∃ b < pagesPerPIP pageSize, lastRelativeBit pageSize pip = some (b : Int) ∧
      test pip.pipBits b = false ∧
      ∀ b' < pagesPerPIP pageSize, b < b' → test pip.pipBits b' = true := by
  have hppp : pagesPerPIP pageSize = bytesBitPIP pageSize * 8 := rfl
  have hbyte : ∃ j < bytesBitPIP pageSize + 4, pip.byteAt ((j : Int) - 4) ≠ 255#8 := by
    obtain ⟨b, hb, hbit⟩ := h
    refine ⟨b / 8 + 4, by omega, fun e => ?_⟩
    rw [byteAt_add] at e
    have := byte_eq_ones_iff.mp e (b % 8) (by omega)
    rw [Nat.div_add_mod' b 8, hbit] at this
    cases this
  obtain ⟨j, hj, hlast, hne, hall⟩ := lastUsedByte_spec hbyte
  -- The byte is one of the bitmap, for one of them is in use.
  have hj4 : 4 ≤ j := by
    by_contra hlt
    obtain ⟨b, hb, hbit⟩ := h
    have := hall (b / 8 + 4) (by omega) (by omega)
    rw [byteAt_add] at this
    have := byte_eq_ones_iff.mp this (b % 8) (by omega)
    rw [Nat.div_add_mod' b 8, hbit] at this
    cases this
  obtain ⟨j, rfl⟩ := Nat.exists_eq_add_of_le' hj4
  rw [byteAt_add] at hne
  obtain ⟨i, hi, hlasti, hbit, halli⟩ := lastUsedBit_spec le_rfl (exists_bit_of_ne hne)
  refine ⟨j * 8 + i, by omega, ?_, by rw [test_mul_add _ _ hi, hbit], fun b' hb' hlt => ?_⟩
  · rw [lastRelativeBit, hlast, Option.map_some, byteAt_add, hlasti, ulong_of_lt (by omega)
      (by omega)]
    congr 1
    push_cast
    omega
  · rcases Nat.lt_or_eq_of_le (show j ≤ b' / 8 by omega) with hlt' | heq
    · have := hall (b' / 8 + 4) (by omega) (by omega)
      rw [byteAt_add] at this
      have := byte_eq_ones_iff.mp this (b' % 8) (by omega)
      rwa [Nat.div_add_mod' b' 8] at this
    · rw [← Nat.div_add_mod' b' 8, ← heq, test_mul_add _ _ (by omega)]
      exact halli _ (by omega) (by omega)

/-- An inventory page without a page in use: the loop stops at the high byte of `pip_min`. -/
theorem lastRelativeBit_free (hmin : 0 ≤ pip.pipMin) (hmin' : pip.pipMin ≤ 7)
    (h : ∀ b < pagesPerPIP pageSize, test pip.pipBits b = true) :
    lastRelativeBit pageSize pip = some (2 ^ 32 - 1) := by
  have hppp : pagesPerPIP pageSize = bytesBitPIP pageSize * 8 := rfl
  have hzero : pip.byteAt (-1) = 0#8 := by
    unfold byteAt
    generalize pip.pipMin = m at hmin hmin'
    interval_cases m <;> rfl
  have hbyte : ∃ j < bytesBitPIP pageSize + 4, pip.byteAt ((j : Int) - 4) ≠ 255#8 := by
    refine ⟨3, by omega, ?_⟩
    change pip.byteAt (-1) ≠ 255#8
    rw [hzero]
    decide
  obtain ⟨j, hj, hlast, hne, hall⟩ := lastUsedByte_spec hbyte
  have hj3 : j = 3 := by
    rcases Nat.lt_trichotomy j 3 with hlt | heq | hgt
    · have := hall 3 (by omega) hlt
      change pip.byteAt (-1) = 255#8 at this
      rw [hzero] at this
      cases this
    · exact heq
    · obtain ⟨j, rfl⟩ := Nat.exists_eq_add_of_le' (show 4 ≤ j by omega)
      rw [byteAt_add] at hne
      exact absurd (byte_eq_ones_iff.mpr fun i hi => h _ (by omega)) hne
  subst hj3
  change _ = some (-1) at hlast
  rw [lastRelativeBit, hlast, Option.map_some, hzero]
  rfl

end PageInvPage

namespace PageSpace

variable {pageSize n k : Nat} {s : PageSpace} {c : Nat → PageInvPage}

theorem Ok.ppp_le (h : s.Ok pageSize n c) (hk : k < n) : pagesPerPIP pageSize ≤ 2 ^ 31 := by
  have := Nat.mul_le_mul_right (pagesPerPIP pageSize) (show 1 ≤ n by omega)
  have := h.fits
  omega

theorem Ok.fetch_last (h : s.Ok pageSize n c) (hk : k < n) :
    s.fetch (if k = 0 then 1 else slong (ulong (k * pagesPerPIP pageSize) - 1)) = some (c k) := by
  have hle : ((k * pagesPerPIP pageSize : Nat) : Int) ≤ 2 ^ 31 := by
    exact_mod_cast (Nat.mul_le_mul_right _ hk.le).trans h.fits
  push_cast at hle
  have hnn : (0 : Int) ≤ k * pagesPerPIP pageSize := mul_ppp_nonneg k
  have hfetch := h.fetch hk.le
  rw [if_pos hk, pipPage] at hfetch
  rw [ulong_of_lt hnn (by omega)]
  simpa using hfetch

theorem Ok.pagLastPage_next (h : s.Ok pageSize n c) (hk : k + 1 < n) (fuel : Nat) :
    pagLastPage pageSize s (fuel + 1) k = pagLastPage pageSize s fuel (ushort (k + 1)) := by
  have hp := pagesPerPIP_pos h.size
  have hfull : test (c k).pipBits (pagesPerPIP pageSize - 1) = false := by
    rw [h.last k (by omega), decide_eq_false_iff_not]
    omega
  obtain ⟨b, hb, hlast, -, hall⟩ := PageInvPage.lastRelativeBit_used (h.ppp_le (k := k) (by omega))
    ⟨_, by omega, hfull⟩
  have hb : b = pagesPerPIP pageSize - 1 := by
    by_contra hne
    have := hall (pagesPerPIP pageSize - 1) (by omega) (by omega)
    rw [hfull] at this
    cases this
  rw [pagLastPage, h.fetch_last (by omega), Option.bind_some, hlast]
  dsimp only
  rw [if_neg (by omega)]

theorem Ok.pagLastPage_last (h : s.Ok pageSize (k + 1) c) (fuel : Nat) :
    ∃ last, pagLastPage pageSize s (fuel + 1) k = some last ∧ Used pageSize (k + 1) c last ∧
      ∀ p, Used pageSize (k + 1) c p → p ≤ last := by
  have hp := pagesPerPIP_pos h.size
  have hppp := h.ppp_le (Nat.lt_succ_self k)
  have hfits : ((k + 1) * pagesPerPIP pageSize : Int) ≤ 2 ^ 31 := by exact_mod_cast h.fits
  have hnn : (0 : Int) ≤ k * pagesPerPIP pageSize := mul_ppp_nonneg k
  rw [add_mul] at hfits
  have hbelow : ∀ k' b : Nat, k' < k → b < pagesPerPIP pageSize →
      (k' * pagesPerPIP pageSize + b : Int) ≤ k * pagesPerPIP pageSize - 1 := by
    intro k' b hlt hb
    have : ((k' + 1 : Nat) * pagesPerPIP pageSize : Int) ≤ k * pagesPerPIP pageSize :=
      mul_le_mul_ppp hlt
    push_cast [add_mul] at this
    omega
  by_cases hused : ∃ b < pagesPerPIP pageSize, test (c k).pipBits b = false
  · obtain ⟨b, hb, hlast, hbit, hall⟩ := PageInvPage.lastRelativeBit_used hppp hused
    have hne : b ≠ pagesPerPIP pageSize - 1 := by
      rintro rfl
      rw [h.last k (Nat.lt_succ_self k)] at hbit
      simp at hbit
    refine ⟨k * pagesPerPIP pageSize + b, ?_, ⟨k, Nat.lt_succ_self k, b, hb, rfl, hbit⟩, ?_⟩
    · rw [pagLastPage, h.fetch_last (Nat.lt_succ_self k), Option.bind_some, hlast]
      dsimp only
      rw [if_pos (by omega), ulong_of_lt (by omega) (by omega), slong_of_lt (by omega) (by omega)]
    · rintro p ⟨k', hk', b', hb', rfl, hbit'⟩
      rcases Nat.lt_or_eq_of_le (Nat.le_of_lt_succ hk') with hlt | rfl
      · have := hbelow k' b' hlt hb'
        omega
      · have : ¬ b < b' := fun hlt => by simp [hall b' hb' hlt] at hbit'
        omega
  · -- No page in use: the last page is the inventory page itself.
    push Not at hused
    simp only [Bool.not_eq_false] at hused
    have hk : k ≠ 0 := by
      rintro rfl
      have := h.fixed 0 (by omega)
      rw [hused 0 (by omega)] at this
      cases this
    have hmin := (h.pip k (Nat.lt_succ_self k)).low 0 (by omega) (hused 0 (by omega))
    have hnonneg := (h.pip k (Nat.lt_succ_self k)).nonneg
    have hlast := PageInvPage.lastRelativeBit_free hnonneg (by omega) hused
    have hpip : pipAt pageSize k = k * pagesPerPIP pageSize - 1 := if_neg hk
    refine ⟨k * pagesPerPIP pageSize - 1, ?_, hpip ▸ h.used_pips (Nat.lt_succ_self k), ?_⟩
    · rw [pagLastPage, h.fetch_last (Nat.lt_succ_self k), Option.bind_some, hlast]
      dsimp only
      have hk1 : (1 * pagesPerPIP pageSize : Int) ≤ k * pagesPerPIP pageSize := by
        exact_mod_cast Nat.mul_le_mul_right (pagesPerPIP pageSize) (Nat.one_le_iff_ne_zero.mpr hk)
      have hwrap : ulong (k * pagesPerPIP pageSize + (2 ^ 32 - 1)) = k * pagesPerPIP pageSize -
        1 := by
        unfold ulong
        omega
      rw [if_pos (by omega), hwrap, slong_of_lt (by omega) (by omega)]
    · rintro p ⟨k', hk', b', hb', rfl, hbit'⟩
      rcases Nat.lt_or_eq_of_le (Nat.le_of_lt_succ hk') with hlt | rfl
      · exact hbelow k' b' hlt hb'
      · rw [hused b' hb'] at hbit'
        cases hbit'

/-- `PAG_last_page` comes back with the highest page in use. -/
def LastPage (pageSize : Nat) (s : PageSpace) (allocated : Int → Prop) : Prop :=
  ∃ fuel last, pagLastPage pageSize s fuel 0 = some last ∧ allocated last ∧
    ∀ p, allocated p → p ≤ last

theorem Ok.lastPage (h : s.Ok pageSize n c) (hn : n ≤ 65536) :
    LastPage pageSize s (Used pageSize n c) := by
  have hrun : ∀ d k, k + d + 1 = n → ∃ last, pagLastPage pageSize s (d + 1) k = some last ∧
      Used pageSize n c last ∧ ∀ p, Used pageSize n c p → p ≤ last := by
    intro d
    induction d with
    | zero =>
      rintro k rfl
      exact h.pagLastPage_last 0
    | succ d ih =>
      intro k hk
      rw [h.pagLastPage_next (by omega), ushort_of_lt (by omega)]
      exact ih (k + 1) (by omega)
  have := h.highWater
  obtain ⟨n, rfl⟩ := Nat.exists_eq_succ_of_ne_zero (show n ≠ 0 by omega)
  exact ⟨n + 1, hrun n 0 (by omega)⟩

theorem Ok.pagLastPage_none (h : s.Ok pageSize n c) (hn : 65536 < n) (fuel : Nat) :
    ∀ k < 65536, pagLastPage pageSize s fuel k = none := by
  induction fuel with
  | zero => exact fun _ _ => rfl
  | succ fuel ih =>
    intro k hk
    rw [h.pagLastPage_next (by omega)]
    exact ih _ (Nat.mod_lt _ (by decide))

theorem Ok.lastPage_iff (h : s.Ok pageSize n c) :
    LastPage pageSize s (Used pageSize n c) ↔ n ≤ 65536 := by
  refine ⟨fun ⟨fuel, last, hlast, _⟩ => ?_, h.lastPage⟩
  by_contra hn
  rw [h.pagLastPage_none (by omega) fuel 0 (by decide)] at hlast
  cases hlast

theorem Ok.length (h : s.Ok pageSize n c) : s.pips.length = n := by simp [h.pips]

end PageSpace

/-! ## Runs -/

structure PagWorld where
  space : PageSpace
  allocated : List Int

inductive PagAction where
  | allocate (depth : Nat) (fake : Nat → Int → Fake)
  | release (page : Int)

namespace PagAction

def Legal (w : PagWorld) : PagAction → Prop
  | allocate _ _ => True
  | release page => page ∈ w.allocated ∧ page ∉ w.space.pips.map (·.1)

/-- Page numbers fit into an `SLONG`, and the first three pages stay. -/
def Within (pageSize : Nat) (w : PagWorld) : PagAction → Prop
  | allocate depth _ => (w.space.pips.length + depth) * pagesPerPIP pageSize ≤ 2 ^ 31
  | release page => 2 < page

def apply (pageSize : Nat) (w : PagWorld) : PagAction → PagWorld
  | allocate depth fake =>
    let r := pagAllocate pageSize fake depth w.space
    ⟨r.space, r.page.toList ++ r.formatted ++ w.allocated⟩
  | release page =>
    ⟨pagReleasePage pageSize page w.space, w.allocated.filter (· ≠ page)⟩

end PagAction

/-- A page space as `PAG_format_pip` leaves it. -/
def PagWorld.init : PagWorld := ⟨pagFormatPip, [0, 1, 2]⟩

def PagRun (pageSize : Nat) : List PagAction → PagWorld → Prop
  | [], _ => True
  | a :: as, w => a.Legal w ∧ a.Within pageSize w ∧ PagRun pageSize as (a.apply pageSize w)

def runPag (pageSize : Nat) (as : List PagAction) (w : PagWorld) : PagWorld :=
  as.foldl (fun w a => a.apply pageSize w) w

theorem pagRun_append {pageSize : Nat} {as bs : List PagAction} {w : PagWorld}
    (has : PagRun pageSize as w) (hbs : PagRun pageSize bs (runPag pageSize as w)) :
    PagRun pageSize (as ++ bs) w := by
  induction as generalizing w with
  | nil => exact hbs
  | cons a as ih => exact ⟨has.1, has.2.1, ih has.2.2 hbs⟩

/-- The invariant of a run, with the number of inventory pages. -/
def PagWorld.Ok (pageSize : Nat) (w : PagWorld) (n : Nat) : Prop :=
  ∃ c, w.space.Ok pageSize n c ∧ ∀ p, p ∈ w.allocated ↔ Used pageSize n c p

namespace PagWorld

variable {pageSize n : Nat} {w : PagWorld}

theorem init_ok (hsize : 20 < pageSize) (hsize' : pageSize < 65536) : init.Ok pageSize 1 := by
  have hppp : pagesPerPIP pageSize = (pageSize - 20) * 8 := rfl
  set bits : Nat → BitVec 8 := Function.update (fun _ => 255#8) 0 (255#8 &&& ~~~ 7#8) with hbits
  have htest : ∀ b, test bits b = decide (3 ≤ b) := by
    intro b
    unfold test
    by_cases e : b / 8 = 0
    · rw [e, hbits, Function.update_self]
      have hb : b < 8 := by omega
      interval_cases b <;> rfl
    · have hmod : b % 8 < 8 := Nat.mod_lt _ (by decide)
      rw [hbits, Function.update_of_ne e, decide_eq_true (by omega)]
      generalize b % 8 = i at hmod
      interval_cases i <;> rfl
  refine ⟨fun _ => ⟨4, bits⟩, ⟨rfl, hsize, by omega, by simp [init, pagFormatPip], ?_, ?_, ?_⟩, ?_⟩
  · exact fun _ _ => ⟨by simp, fun b _ _ => by simp only; omega⟩
  · intro k hk
    rw [htest, decide_eq_decide]
    omega
  · intro b hb
    rw [htest, decide_eq_false_iff_not]
    omega
  · intro p
    constructor
    · intro hmem
      have hmem : p = 0 ∨ p = 1 ∨ p = 2 := by simpa [init] using hmem
      refine ⟨0, by omega, p.toNat, by omega, by omega, ?_⟩
      rw [htest, decide_eq_false_iff_not]
      omega
    · rintro ⟨k, hk, b, hb, rfl, hbit⟩
      rw [htest, decide_eq_false_iff_not] at hbit
      obtain rfl : k = 0 := by omega
      interval_cases b <;> simp [init]

theorem Ok.allocate (h : w.Ok pageSize n) {depth : Nat} (fake : Nat → Int → Fake)
    (hfits : (w.space.pips.length + depth) * pagesPerPIP pageSize ≤ 2 ^ 31) :
    ((PagAction.allocate depth fake).apply pageSize w).Ok pageSize
        (n + (pagAllocate pageSize fake depth w.space).formatted.length) ∧
      ∀ page, (pagAllocate pageSize fake depth w.space).page = some page →
        page ∉ w.allocated ∧ 2 < page ∧
          page ∉ (pagAllocate pageSize fake depth w.space).space.pips.map (·.1) := by
  obtain ⟨c, hok, hused⟩ := h
  rw [hok.length] at hfits
  obtain ⟨c', hc'⟩ := hok.pagAllocate fake hfits
  refine ⟨⟨c', hc'.ok, fun p => ?_⟩, fun page hpage => ?_⟩
  · rw [hc'.used, PagAction.apply, mem_append, mem_append, hused, Option.mem_toList]
    grind
  · obtain ⟨hfree, hpip⟩ := hc'.fresh page hpage
    refine ⟨fun hmem => hfree ((hused page).mp hmem), ?_, hpip⟩
    have hbounds := PageSpace.used_bounds ((hc'.used page).mpr (.inr (.inl hpage)))
    by_contra hle
    exact hfree (hok.used_fixed (by omega) (by omega))

theorem Ok.release (h : w.Ok pageSize n) {page : Int} (hlegal : (PagAction.release page).Legal w)
    (hlow : 2 < page) : ((PagAction.release page).apply pageSize w).Ok pageSize n := by
  obtain ⟨c, hok, hused⟩ := h
  obtain ⟨c', hok', hused'⟩ := hok.pagReleasePage ((hused page).mp hlegal.1) hlow hlegal.2
  refine ⟨c', hok', fun p => ?_⟩
  rw [hused', PagAction.apply, mem_filter, hused, decide_eq_true_iff]

theorem Ok.run (h : w.Ok pageSize n) {as : List PagAction} (hrun : PagRun pageSize as w) :
    ∃ n', (runPag pageSize as w).Ok pageSize n' := by
  induction as generalizing w n with
  | nil => exact ⟨n, h⟩
  | cons a as ih =>
    cases a with
    | allocate depth fake => exact ih (h.allocate fake hrun.2.1).1 hrun.2.2
    | release page => exact ih (h.release hrun.1 hrun.2.1) hrun.2.2

/-- The inventory says which pages are allocated, its hints leave no free page out, and its pages
are where `PAG_allocate` and `PAG_release_page` look for them. -/
structure Safe (pageSize : Nat) (w : PagWorld) : Prop where
  allocated : ∀ p, p ∈ w.allocated ↔ ∃ (k : Nat) (page : Int) (pip : PageInvPage),
    w.space.pips[k]? = some (page, pip) ∧ ∃ b < pagesPerPIP pageSize,
      p = k * pagesPerPIP pageSize + b ∧ test pip.pipBits b = false
  pipMin : ∀ page pip, (page, pip) ∈ w.space.pips → ∀ b < pagesPerPIP pageSize,
    test pip.pipBits b = true → pip.pipMin / 8 ≤ b / 8
  pips : ∀ (k : Nat) (page : Int) (pip : PageInvPage), w.space.pips[k]? = some (page, pip) →
    page = if k = 0 then 1 else (k * pagesPerPIP pageSize - 1 : Int)

theorem Ok.safe (h : w.Ok pageSize n) : w.Safe pageSize := by
  obtain ⟨c, hok, hused⟩ := h
  have hget : ∀ (k : Nat) (page : Int) (pip : PageInvPage), w.space.pips[k]? = some (page, pip) ↔
      k < n ∧ page = pipAt pageSize k ∧ pip = c k := by
    intro k page pip
    rw [hok.pips, getElem?_map]
    by_cases hk : k < n
    · simp [hk, eq_comm]
    · simp [hk]
  refine ⟨fun p => ?_, fun page pip hmem => ?_, fun k page pip hk => ?_⟩
  · simp only [hused, hget]
    constructor
    · rintro ⟨k, hk, b, hb, rfl, hbit⟩
      exact ⟨k, _, _, ⟨hk, rfl, rfl⟩, b, hb, rfl, hbit⟩
    · rintro ⟨k, page, pip, ⟨hk, rfl, rfl⟩, b, hb, rfl, hbit⟩
      exact ⟨k, hk, b, hb, rfl, hbit⟩
  · obtain ⟨k, hk⟩ := mem_iff_getElem?.mp hmem
    obtain ⟨hlt, -, rfl⟩ := (hget k page pip).mp hk
    exact (hok.pip k hlt).low
  · exact ((hget k page pip).mp hk).2.1

theorem Ok.length (h : w.Ok pageSize n) : w.space.pips.length = n := by
  obtain ⟨c, hok, -⟩ := h
  exact hok.length

theorem Ok.lastPage_iff (h : w.Ok pageSize n) :
    PageSpace.LastPage pageSize w.space (· ∈ w.allocated) ↔ n ≤ 65536 := by
  obtain ⟨c, hok, hused⟩ := h
  have : (· ∈ w.allocated) = Used pageSize n c := funext fun p => propext (hused p)
  rw [this, hok.lastPage_iff]

end PagWorld

/-- In every run that stays within the page numbers of an `SLONG` and releases none of the first
three pages, the inventory is right, `PAG_allocate` returns only pages that are free, and
`PAG_last_page` returns the last page exactly as long as a `USHORT` can count the inventory pages.
-/
theorem pag_run_safe {pageSize : Nat} (hsize : 20 < pageSize) (hsize' : pageSize < 65536)
    (as : List PagAction) (h : PagRun pageSize as .init) :
    let w := runPag pageSize as .init
    w.Safe pageSize ∧
      (PageSpace.LastPage pageSize w.space (· ∈ w.allocated) ↔ w.space.pips.length ≤ 65536) ∧
      ∀ depth fake, (PagAction.allocate depth fake).Within pageSize w →
        let r := pagAllocate pageSize fake depth w.space
        ∀ page, r.page = some page →
          page ∉ w.allocated ∧ 2 < page ∧ page ∉ r.space.pips.map (·.1) := by
  intro w
  obtain ⟨n, hok⟩ := (PagWorld.init_ok hsize hsize').run h
  refine ⟨hok.safe, ?_, fun depth fake hfits => (hok.allocate fake hfits).2⟩
  rw [hok.lastPage_iff, hok.length]

instance (w : PagWorld) : (a : PagAction) → Decidable (a.Legal w)
  | .allocate _ _ => isTrue trivial
  | .release page =>
    inferInstanceAs (Decidable (page ∈ w.allocated ∧ page ∉ w.space.pips.map (·.1)))

instance (pageSize : Nat) (w : PagWorld) : (a : PagAction) → Decidable (a.Within pageSize w)
  | .allocate depth _ =>
    inferInstanceAs (Decidable ((w.space.pips.length + depth) * pagesPerPIP pageSize ≤ 2 ^ 31))
  | .release page => inferInstanceAs (Decidable (2 < page))

instance decidablePagRun (pageSize : Nat) :
    (as : List PagAction) → (w : PagWorld) → Decidable (PagRun pageSize as w)
  | [], _ => isTrue trivial
  | a :: as, w =>
    have := decidablePagRun pageSize as (a.apply pageSize w)
    inferInstanceAs (Decidable (a.Legal w ∧ a.Within pageSize w ∧ _))

/-- Two pages are allocated, the first candidate refused, and one of them is released again. -/
theorem pag_run_safe_three :
    let as : List PagAction := [.allocate 0 fun _ p => if p = 3 then .refused else .faked,
      .allocate 0 fun _ _ => .faked, .release 4]
    (runPag 1024 as .init).allocated = [3, 0, 1, 2] ∧ (runPag 1024 as .init).Safe 1024 := by
  intro as
  have hrun : PagRun 1024 as .init := by decide +kernel
  exact ⟨by decide +kernel, (pag_run_safe (by decide) (by decide) as hrun).1⟩

def allocateAny : PagAction := .allocate 1 fun _ _ => .faked

namespace PagWorld

variable {pageSize n : Nat} {w : PagWorld}

def freePages (pageSize n : Nat) (w : PagWorld) : Finset Nat :=
  (Finset.range (n * pagesPerPIP pageSize)).filter fun p => (p : Int) ∉ w.allocated

theorem Ok.allocateAny (h : w.Ok pageSize n) (hfits : (n + 1) * pagesPerPIP pageSize ≤ 2 ^ 31) :
    (allocateAny.apply pageSize w).Ok pageSize (n + 1) ∨
      (allocateAny.apply pageSize w).Ok pageSize n ∧
        (freePages pageSize n (allocateAny.apply pageSize w)).card <
          (freePages pageSize n w).card := by
  have hlen := h.length
  obtain ⟨hok, hfresh⟩ := h.allocate (fun _ _ => .faked) (show _ ≤ _ by rwa [hlen])
  obtain ⟨c, hspace, -⟩ := h
  rcases hspace.pagAllocate_one (fun _ _ => .faked) (fun _ => rfl) with hone | ⟨hnil, page, hpage⟩
  · rw [hone] at hok
    exact .inl hok
  · rw [hnil] at hok
    refine .inr ⟨hok, Finset.card_lt_card ?_⟩
    have hallocated : (Jrd.allocateAny.apply pageSize w).allocated = page :: w.allocated := by
      simp only [Jrd.allocateAny, PagAction.apply, hpage, hnil]
      rfl
    obtain ⟨c', -, hused⟩ := hok
    have hpage' := (hused page).mp (hallocated ▸ mem_cons_self)
    have hbounds := PageSpace.used_bounds hpage'
    have hfree : page.toNat ∈ freePages pageSize n w := by
      refine Finset.mem_filter.mpr ⟨Finset.mem_range.mpr ?_, ?_⟩
      · have : page < (n * pagesPerPIP pageSize : Nat) := by exact_mod_cast hbounds.2
        omega
      · rw [Int.toNat_of_nonneg hbounds.1]
        exact (hfresh page hpage).1
    refine Finset.ssubset_iff_subset_ne.mpr ⟨fun p hp => ?_, fun e => ?_⟩
    · obtain ⟨hlt, hnot⟩ := Finset.mem_filter.mp hp
      rw [hallocated, mem_cons, not_or] at hnot
      exact Finset.mem_filter.mpr ⟨hlt, hnot.2⟩
    · rw [← e, freePages, Finset.mem_filter, hallocated, Int.toNat_of_nonneg hbounds.1] at hfree
      exact hfree.2 mem_cons_self

theorem Ok.grow (h : w.Ok pageSize n) (hfits : (n + 1) * pagesPerPIP pageSize ≤ 2 ^ 31) :
    ∃ m, PagRun pageSize (replicate m Jrd.allocateAny) w ∧
      (runPag pageSize (replicate m Jrd.allocateAny) w).Ok pageSize (n + 1) := by
  induction hcard : (freePages pageSize n w).card using Nat.strong_induction_on generalizing w with
  | _ d ih =>
    subst hcard
    have hwithin : Jrd.allocateAny.Within pageSize w := by
      have hlen := h.length
      rw [Jrd.allocateAny, PagAction.Within, hlen]
      exact hfits
    rcases h.allocateAny hfits with hgrown | ⟨hok, hlt⟩
    · exact ⟨1, ⟨trivial, hwithin, trivial⟩, hgrown⟩
    · obtain ⟨m, hrun, hgrown⟩ := ih _ hlt hok rfl
      exact ⟨m + 1, ⟨trivial, hwithin, hrun⟩, hgrown⟩

theorem runPag_append (as bs : List PagAction) :
    runPag pageSize (as ++ bs) w = runPag pageSize bs (runPag pageSize as w) :=
  foldl_append

theorem exists_run (hsize : 20 < pageSize) (hsize' : pageSize < 65536) (d : Nat)
    (hfits : (d + 1) * pagesPerPIP pageSize ≤ 2 ^ 31) :
    ∃ m, PagRun pageSize (replicate m Jrd.allocateAny) init ∧
      (runPag pageSize (replicate m Jrd.allocateAny) init).Ok pageSize (d + 1) := by
  induction d with
  | zero => exact ⟨0, trivial, init_ok hsize hsize'⟩
  | succ d ih =>
    obtain ⟨m, hrun, hok⟩ := ih ((Nat.mul_le_mul_right _ (by omega)).trans hfits)
    obtain ⟨m', hrun', hok'⟩ := hok.grow hfits
    refine ⟨m + m', ?_, ?_⟩
    · rw [replicate_add]
      exact pagRun_append hrun hrun'
    · rwa [replicate_add, runPag_append]

end PagWorld

/-- With pages of 1024 bytes, allocations alone come to a page space whose last page `PAG_last_page`
never finds: it looks for it for ever. -/
theorem pag_last_page_never_returns :
    ∃ m, PagRun 1024 (replicate m allocateAny) .init ∧
      ¬ PageSpace.LastPage 1024 (runPag 1024 (replicate m allocateAny) .init).space
        (· ∈ (runPag 1024 (replicate m allocateAny) .init).allocated) := by
  obtain ⟨m, hrun, hok⟩ := PagWorld.exists_run (show 20 < 1024 by decide) (by decide) 65536
    (by decide)
  refine ⟨m, hrun, fun hlast => ?_⟩
  have := hok.lastPage_iff.mp hlast
  omega

end Firebird.Jrd
