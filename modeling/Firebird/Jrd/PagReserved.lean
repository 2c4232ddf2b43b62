import Firebird.Jrd.PagRun

/-!
# Initialised pages

In ODS 11.1 an inventory page counts in `pip_header.reserved` the pages that have been written to
the file. `PAG_allocate` keeps that count ahead of the pages it hands out, and `PAG_page_count`
relies on it.
-/
namespace Firebird.Jrd

open Lib Lib.Bitmap List Function

/-- A page space with the `reserved` of each inventory page. -/
structure ReservedSpace where
  space : PageSpace
  reserved : Nat → Nat

/-- What an attempt to allocate a page meets: whether `CCH_fake` lets it have a candidate, the
state of the backup, the flag `DBB_no_reserve`, the pages that `PIO_init_data` initialises of those
it is asked for, and whether the page itself can be written. -/
structure PagAnswers where
  fake : Int → Bool
  stalled : Bool
  noReserve : Bool
  pioInitData : Nat → Nat
  written : Bool
  pioInitData_le : ∀ n, pioInitData n ≤ n

def minExtendBytes : Nat := 128 * 1024

/-- The pages that `PIO_init_data` is asked for. -/
def initPages (pageSize : Nat) (noReserve : Bool) (sequence reserved : Nat) : Nat :=
  if noReserve then 1
  else
    let minExtendPages := minExtendBytes / pageSize
    let initPages := if sequence = 0 then min (reserved / 16) 64 else 64
    -- Pages that belong to the next inventory page are not touched.
    let initPages := min initPages (pagesPerPIP pageSize - reserved)
    if initPages < minExtendPages then 1 else initPages

namespace PagAnswers

/-- `CCH_fake` as the search sees it. -/
def candidate (a : PagAnswers) (page : Int) : Fake := if a.fake page then .faked else .refused

/-- The pages that are initialised for a page behind `reserved`. -/
def initialised (pageSize : Nat) (a : PagAnswers) (sequence reserved : Nat) : Nat :=
  if a.stalled then 0 else a.pioInitData (initPages pageSize a.noReserve sequence reserved)

/-- The `reserved` of the inventory page from which a page is taken; `none` if the page has to be
written and cannot be. -/
def reserve (pageSize : Nat) (a : PagAnswers) (sequence relativeBit reserved : Nat) : Option Nat :=
  if relativeBit + 1 > reserved then
    let init := a.initialised pageSize sequence reserved
    if init ≠ 0 then some (reserved + init)
    else if a.written then some (relativeBit + 1)
    else none
  else some reserved

end PagAnswers

namespace ReservedSpace

def find (pageSize : Nat) (a : PagAnswers) (s : ReservedSpace) :
    Option (Int × PageInvPage × Nat × Int) :=
  searchPips pageSize a.candidate s.space (s.space.pips.length + 1) s.space.pipHighWater

/-- `PAG_allocate` up to the test for the last page of an inventory page. -/
def takePage (pageSize : Nat) (a : PagAnswers) (s : ReservedSpace) :
    Option (Int × Bool × ReservedSpace) :=
  match s.find pageSize a with
  | none => none
  | some (sequence, pip, relativeBit, pipMin) =>
    match a.reserve pageSize sequence.toNat relativeBit (s.reserved sequence.toNat) with
    | none => none
    | some reserved =>
      some (pageNum pageSize sequence relativeBit, relativeBit == pagesPerPIP pageSize - 1,
        ⟨{ s.space.mark (pipPage pageSize sequence) (takeBit relativeBit pipMin pip) with
            pipHighWater := sequence },
          Function.update s.reserved sequence.toNat reserved⟩)

/-- A new inventory page has no `reserved` yet: `CCH_fake` has cleared it. -/
def format (page : Int) (s : ReservedSpace) : ReservedSpace where
  space := { s.space with pips := s.space.pips ++ [(page, formattedPip)] }
  reserved := Function.update s.reserved s.space.pips.length 0

end ReservedSpace

/-- What `PAG_allocate` returns, if it returns, with the pages it has made inventory pages. -/
structure ReservedAllocation where
  page : Option Int
  formatted : List Int
  space : ReservedSpace

/-- `PAG_allocate`; `depth` bounds the inventory pages it may format. -/
def pagAllocateReserved (pageSize : Nat) (a : Nat → PagAnswers) :
    Nat → ReservedSpace → ReservedAllocation
  | 0, s =>
    match s.takePage pageSize (a 0) with
    | some (page, false, s') => ⟨some page, [], s'⟩
    | _ => ⟨none, [], s⟩
  | depth + 1, s =>
    match s.takePage pageSize (a (depth + 1)) with
    | none => ⟨none, [], s⟩
    | some (page, false, s') => ⟨some page, [], s'⟩
    | some (page, true, s') =>
      let r := pagAllocateReserved pageSize a depth (s'.format page)
      { r with formatted := page :: r.formatted }

/-- `PAG_page_count`, from an inventory page on. A page that has not been written since its space
was initialised reads as zeros. -/
def pagPageCount (pageSize : Nat) (s : ReservedSpace) : Nat → Nat → Option Int
  | 0, _ => none
  | fuel + 1, sequence =>
    let pageNo := if sequence = 0 then 1 else ulong (pagesPerPIP pageSize * sequence - 1)
    if s.reserved sequence = pagesPerPIP pageSize then pagPageCount pageSize s fuel (sequence + 1)
    else some (ulong (s.reserved sequence + pageNo + if sequence = 0 then -1 else 1))

/-- The page that is found is not behind the page that comes next, or the pages that are
initialised go beyond it, or it is written itself. -/
def PagAnswers.Reaches (pageSize : Nat) (a : PagAnswers) (s : ReservedSpace) : Prop :=
  ∀ sequence pip relativeBit pipMin,
    s.find pageSize a = some (sequence, pip, relativeBit, pipMin) →
    let reserved := s.reserved sequence.toNat
    let init := a.initialised pageSize sequence.toNat reserved
    relativeBit ≤ reserved ∨ init = 0 ∨ relativeBit < reserved + init

section Reserve

variable {pageSize sequence relativeBit reserved reserved' : Nat} {a : PagAnswers}

theorem initPages_le (hpos : reserved < pagesPerPIP pageSize) :
    initPages pageSize a.noReserve sequence reserved ≤ pagesPerPIP pageSize - reserved := by
  unfold initPages
  dsimp only
  split_ifs <;> omega

theorem initialised_le (hpos : reserved < pagesPerPIP pageSize) :
    a.initialised pageSize sequence reserved ≤ pagesPerPIP pageSize - reserved := by
  unfold PagAnswers.initialised
  split_ifs
  · exact Nat.zero_le _
  · exact (a.pioInitData_le _).trans (initPages_le hpos)

theorem reserve_bounds (h : a.reserve pageSize sequence relativeBit reserved = some reserved')
    (hbit : relativeBit < pagesPerPIP pageSize) (hle : reserved ≤ pagesPerPIP pageSize) :
    reserved ≤ reserved' ∧ reserved' ≤ pagesPerPIP pageSize := by
  unfold PagAnswers.reserve at h
  dsimp only at h
  split_ifs at h with hgt hinit hwritten
  · cases h
    have := @initialised_le pageSize sequence reserved a (by omega)
    omega
  · cases h
    omega
  · cases h
    omega

theorem reserve_covers_iff (h : a.reserve pageSize sequence relativeBit reserved = some reserved') :
    relativeBit < reserved' ↔
      relativeBit ≤ reserved ∨ a.initialised pageSize sequence reserved = 0 ∨
        relativeBit < reserved + a.initialised pageSize sequence reserved := by
  unfold PagAnswers.reserve at h
  dsimp only at h
  split_ifs at h with hgt hinit hwritten <;> cases h <;> omega

end Reserve

/-- The invariant of a page space with `n` inventory pages, with that of the counts. -/
structure ReservedSpace.Ok (pageSize : Nat) (s : ReservedSpace) (n : Nat) (c : Nat → PageInvPage) :
    Prop where
  space : s.space.Ok pageSize n c
  le : ∀ k, s.reserved k ≤ pagesPerPIP pageSize
  zero : ∀ k, n ≤ k → s.reserved k = 0
  below : ∀ k < n, ∀ b < pagesPerPIP pageSize, test (c k).pipBits b = false → b < s.reserved k

namespace ReservedSpace

open PageSpace (take test_take grow grow_of_le)

variable {pageSize n k r reserved : Nat} {s s' : ReservedSpace} {c : Nat → PageInvPage}
    {m page : Int}
  {a : PagAnswers}

structure Takes (pageSize n : Nat) (c : Nat → PageInvPage) (a : PagAnswers) (s s' : ReservedSpace)
    (k r : Nat) (m : Int) : Prop where
  candidate : Candidate pageSize n c k r m
  space : s'.space = { s.space.mark (pipPage pageSize k) (takeBit r m (c k)) with pipHighWater := k
    }
  reserved : ∃ reserved, a.reserve pageSize k r (s.reserved k) = some reserved ∧
    s'.reserved = Function.update s.reserved k reserved
  found : ∃ pip, s.find pageSize a = some ((k : Int), pip, r, m)

theorem Ok.find_some (h : s.Ok pageSize n c) {sequence : Int} {pip : PageInvPage}
    (hfind : s.find pageSize a = some (sequence, pip, r, m)) :
    ∃ k, Candidate pageSize n c k r m ∧ sequence = k ∧ pip = c k := by
  obtain ⟨q, hq⟩ := Int.eq_ofNat_of_zero_le h.space.highWater.1
  have hqn := h.space.highWater.2
  rw [find, hq] at hfind
  exact h.space.searchPips_some (by omega) hfind

theorem Ok.takePage_some (h : s.Ok pageSize n c) {last : Bool}
    (htake : s.takePage pageSize a = some (page, last, s')) :
    ∃ k r m, Takes pageSize n c a s s' k r m ∧ page = pageNum pageSize k r ∧
      last = (r == pagesPerPIP pageSize - 1) := by
  unfold takePage at htake
  cases hfind : s.find pageSize a with
  | none =>
    rw [hfind] at htake
    cases htake
  | some x =>
    obtain ⟨sequence, pip, r, m⟩ := x
    obtain ⟨k, hcand, rfl, rfl⟩ := h.find_some hfind
    rw [hfind] at htake
    simp only [Int.toNat_natCast] at htake
    cases hreserve : a.reserve pageSize k r (s.reserved k) with
    | none =>
      rw [hreserve] at htake
      cases htake
    | some reserved =>
      rw [hreserve] at htake
      simp only [Option.some.injEq, Prod.mk.injEq] at htake
      obtain ⟨rfl, rfl, rfl⟩ := htake
      exact ⟨k, r, m, ⟨hcand, rfl, ⟨reserved, hreserve, rfl⟩, _, hfind⟩, rfl, rfl⟩

theorem Takes.counts (ht : Takes pageSize n c a s s' k r m) (h : s.Ok pageSize n c)
    (hreach : a.Reaches pageSize s) :
    (∀ k, s'.reserved k ≤ pagesPerPIP pageSize) ∧ (∀ k, n ≤ k → s'.reserved k = 0) ∧
      ∀ k' < n, ∀ b < pagesPerPIP pageSize, test (take c k r m k').pipBits b = false →
        b < s'.reserved k' := by
  obtain ⟨reserved, hreserve, hs'⟩ := ht.reserved
  obtain ⟨pip, hfind⟩ := ht.found
  obtain ⟨hup, hle⟩ := reserve_bounds hreserve ht.candidate.bit (h.le k)
  have hreach := hreach _ _ _ _ hfind
  have hr := (reserve_covers_iff hreserve).2 hreach
  have hk := ht.candidate.pip
  rw [hs']
  refine ⟨fun k' => ?_, fun k' hk' => ?_, fun k' hk' b hb hbit => ?_⟩
  · by_cases e : k' = k
    · rwa [e, update_self]
    · rw [update_of_ne e]
      exact h.le k'
  · rw [update_of_ne (by omega)]
    exact h.zero k' hk'
  · rw [test_take, Bool.and_eq_false_iff, decide_eq_false_iff_not, not_not] at hbit
    by_cases e : k' = k
    · subst e
      rw [update_self]
      obtain hbit | ⟨-, rfl⟩ := hbit
      · exact (h.below k' hk' b hb hbit).trans_le hup
      · exact hr
    · rw [update_of_ne e]
      exact h.below k' hk' b hb (hbit.resolve_right fun he => e he.1)

theorem Takes.ok (ht : Takes pageSize n c a s s' k r m) (h : s.Ok pageSize n c)
    (hreach : a.Reaches pageSize s) (hne : r ≠ pagesPerPIP pageSize - 1) :
    s'.Ok pageSize n (take c k r m) := by
  obtain ⟨hle, hzero, hbelow⟩ := ht.counts h hreach
  exact ⟨ht.space ▸ h.space.take ht.candidate hne, hle, hzero, hbelow⟩

theorem Takes.format (ht : Takes pageSize (k + 1) c a s s' k (pagesPerPIP pageSize - 1) m)
    (h : s.Ok pageSize (k + 1) c) (hreach : a.Reaches pageSize s)
    (hpage : page = pageNum pageSize k (pagesPerPIP pageSize - 1))
    (hfits : (k + 2) * pagesPerPIP pageSize ≤ 2 ^ 31) :
    (s'.format page).Ok pageSize (k + 2) (grow pageSize c k m) := by
  obtain ⟨hle, hzero, hbelow⟩ := ht.counts h hreach
  have hlen : s'.space.pips.length = k + 1 := by
    rw [ht.space, ← h.space.length]
    simp [PageSpace.mark]
  have hgrow := h.space.grow ht.candidate hfits
  refine ⟨?_, fun k' => ?_, fun k' hk' => ?_, fun k' hk' b hb hbit => ?_⟩
  · simpa only [ReservedSpace.format, ht.space, hpage] using hgrow
  · unfold ReservedSpace.format
    dsimp only
    by_cases e : k' = s'.space.pips.length
    · rw [e, update_self]
      exact Nat.zero_le _
    · rw [update_of_ne e]
      exact hle k'
  · unfold ReservedSpace.format
    dsimp only
    rw [update_of_ne (by omega)]
    exact hzero k' (by omega)
  · unfold ReservedSpace.format
    dsimp only
    obtain hlt | rfl := Nat.lt_or_eq_of_le (Nat.le_of_lt_succ hk')
    · rw [update_of_ne (by omega)]
      rw [grow_of_le c m (Nat.le_of_lt_succ hlt)] at hbit
      exact hbelow k' hlt b hb hbit
    · rw [PageSpace.grow_last, PageSpace.test_formattedPip] at hbit
      cases hbit

def ReachesAll (pageSize : Nat) (a : Nat → PagAnswers) : Nat → ReservedSpace → Prop
  | 0, s => (a 0).Reaches pageSize s
  | depth + 1, s => (a (depth + 1)).Reaches pageSize s ∧
      ∀ page s', s.takePage pageSize (a (depth + 1)) = some (page, true, s') →
        ReachesAll pageSize a depth (s'.format page)

structure Allocates (pageSize n : Nat) (c : Nat → PageInvPage) (r : ReservedAllocation)
    (c' : Nat → PageInvPage) : Prop where
  ok : r.space.Ok pageSize (n + r.formatted.length) c'
  used : ∀ p, Used pageSize (n + r.formatted.length) c' p ↔
    p ∈ r.formatted ∨ r.page = some p ∨ Used pageSize n c p

theorem Ok.allocates_none (h : s.Ok pageSize n c) : Allocates pageSize n c ⟨none, [], s⟩ c :=
  ⟨h, by simp⟩

theorem Takes.allocates (ht : Takes pageSize n c a s s' k r m) (h : s.Ok pageSize n c)
    (hreach : a.Reaches pageSize s) (hpage : page = pageNum pageSize k r)
    (hne : r ≠ pagesPerPIP pageSize - 1) :
    Allocates pageSize n c ⟨some page, [], s'⟩ (take c k r m) := by
  rw [hpage]
  exact ⟨ht.ok h hreach hne, (h.space.allocates_take ht.candidate hne).used⟩

theorem Takes.allocates_format {c' : Nat → PageInvPage} {result : ReservedAllocation}
    (ht : Takes pageSize (k + 1) c a s s' k (pagesPerPIP pageSize - 1) m)
    (h : s.Ok pageSize (k + 1) c)
    (hpage : page = pageNum pageSize k (pagesPerPIP pageSize - 1))
    (hresult : Allocates pageSize (k + 2) (grow pageSize c k m) result c') :
    Allocates pageSize (k + 1) c { result with formatted := page :: result.formatted } c' := by
  have hlen : k + 1 + (result.formatted.length + 1) = k + 2 + result.formatted.length := by omega
  have hnum := hpage.trans (PageSpace.pageNum_eq h.space.fits ht.candidate.pip ht.candidate.bit)
  refine ⟨?_, fun p => ?_⟩
  · simpa only [length_cons, hlen] using hresult.ok
  · simp only [length_cons, hlen, hresult.used, PageSpace.used_grow ht.candidate]
    grind

theorem Ok.pagAllocate (h : s.Ok pageSize n c) (a : Nat → PagAnswers) {depth : Nat}
    (hfits : (n + depth) * pagesPerPIP pageSize ≤ 2 ^ 31) (hreach : ReachesAll pageSize a depth s) :
    ∃ c', Allocates pageSize n c (pagAllocateReserved pageSize a depth s) c' := by
  induction depth generalizing s n c with
  | zero =>
    rw [pagAllocateReserved]
    cases htake : s.takePage pageSize (a 0) with
    | none => exact ⟨c, h.allocates_none⟩
    | some x =>
      obtain ⟨page, last, s'⟩ := x
      obtain ⟨k, r, m, ht, hpage, hlast⟩ := h.takePage_some htake
      cases last with
      | true => exact ⟨c, h.allocates_none⟩
      | false => exact ⟨_, ht.allocates h hreach hpage (by simpa using hlast.symm)⟩
  | succ depth ih =>
    rw [pagAllocateReserved]
    cases htake : s.takePage pageSize (a (depth + 1)) with
    | none => exact ⟨c, h.allocates_none⟩
    | some x =>
      obtain ⟨page, last, s'⟩ := x
      obtain ⟨k, r, m, ht, hpage, hlast⟩ := h.takePage_some htake
      cases last with
      | false => exact ⟨_, ht.allocates h hreach.1 hpage (by simpa using hlast.symm)⟩
      | true =>
        obtain rfl : r = pagesPerPIP pageSize - 1 := by simpa using hlast.symm
        obtain rfl := h.space.last_candidate ht.candidate
        have hdepth : k + 1 + (depth + 1) = k + 2 + depth := by omega
        rw [hdepth] at hfits
        have hformat := ht.format h hreach.1 hpage
          ((Nat.mul_le_mul_right _ (Nat.le_add_right _ _)).trans hfits)
        obtain ⟨c', hc'⟩ := ih hformat hfits (hreach.2 _ _ htake)
        exact ⟨c', ht.allocates_format h hpage hc'⟩

theorem Ok.pagReleasePage (h : s.Ok pageSize n c) {p : Int} (hused : Used pageSize n c p)
    (hlow : 2 < p) (hpip : p ∉ s.space.pips.map (·.1)) :
    ∃ c', Ok pageSize ⟨Jrd.pagReleasePage pageSize p s.space, s.reserved⟩ n c' ∧
      ∀ p', Used pageSize n c' p' ↔ Used pageSize n c p' ∧ p' ≠ p := by
  obtain ⟨c', hok, hused'⟩ := h.space.pagReleasePage hused hlow hpip
  refine ⟨c', ⟨hok, h.le, h.zero, fun k hk b hb hbit => ?_⟩, hused'⟩
  have hpage := (hused' (k * pagesPerPIP pageSize + b)).1 ⟨k, hk, b, hb, rfl, hbit⟩
  obtain ⟨k', hk', b', hb', heq, hbit'⟩ := hpage.1
  obtain ⟨rfl, rfl⟩ := PageSpace.page_inj hb hb' heq
  exact h.below k hk b hb hbit'

theorem Ok.pagPageCount (h : s.Ok pageSize n c) : ∃ fuel count,
    Jrd.pagPageCount pageSize s fuel 0 = some count ∧ ∀ p, Used pageSize n c p → p < count := by
  have hp := PageSpace.pagesPerPIP_pos h.space.size
  have hfits : (n * pagesPerPIP pageSize : Int) ≤ 2 ^ 31 := by exact_mod_cast h.space.fits
  -- The loop comes as far as the first inventory page whose pages are not all initialised.
  have hex : ∃ k, s.reserved k ≠ pagesPerPIP pageSize :=
    ⟨n, by
      rw [h.zero n le_rfl]
      omega⟩
  have hrun : ∀ d k, k + d = Nat.find hex →
      Jrd.pagPageCount pageSize s (d + 1) k =
        some ((Nat.find hex * pagesPerPIP pageSize + s.reserved (Nat.find hex) : Nat) : Int) := by
    have hle : Nat.find hex ≤ n := Nat.find_min' hex (by
      rw [h.zero n le_rfl]
      omega)
    have hmul : (Nat.find hex * pagesPerPIP pageSize : Int) ≤ n * pagesPerPIP pageSize :=
      PageSpace.mul_le_mul_ppp hle
    have hres := lt_of_le_of_ne (h.le (Nat.find hex)) (Nat.find_spec hex)
    have hppp : (pagesPerPIP pageSize : Int) ≤ 2 ^ 31 := by
      exact_mod_cast h.space.ppp_le (k := 0) (by
        have := h.space.highWater
        omega)
    intro d
    induction d with
    | zero =>
      rintro k hk
      obtain rfl : k = Nat.find hex := by omega
      rw [Jrd.pagPageCount]
      rw [if_neg (Nat.find_spec hex)]
      by_cases e : Nat.find hex = 0
      · rw [e] at hres ⊢
        rw [if_pos rfl, if_pos rfl, ulong_of_lt (by omega) (by omega)]
        congr 1
        push_cast
        omega
      · have h1 : (1 * pagesPerPIP pageSize : Int) ≤ Nat.find hex * pagesPerPIP pageSize := by
          exact_mod_cast Nat.mul_le_mul_right (pagesPerPIP pageSize) (Nat.one_le_iff_ne_zero.mpr e)
        have hpage := ulong_of_lt (n := Nat.find hex * pagesPerPIP pageSize - 1) (by omega)
          (by omega)
        rw [if_neg e, if_neg e, mul_comm (pagesPerPIP pageSize : Int), hpage,
          ulong_of_lt (by omega) (by omega)]
        congr 1
        push_cast
        omega
    | succ d ih =>
      intro k hk
      rw [Jrd.pagPageCount]
      rw [if_pos (not_not.mp (Nat.find_min hex (show k < Nat.find hex by omega)))]
      exact ih (k + 1) (by omega)
  refine ⟨Nat.find hex + 1, _, hrun _ 0 (by omega), ?_⟩
  rintro p ⟨k, hk, b, hb, rfl, hbit⟩
  have hbelow := h.below k hk b hb hbit
  -- An inventory page behind which another one lies has all its pages initialised.
  have hk' : k ≤ Nat.find hex := by
    by_contra hlt
    have hlast : test (c (Nat.find hex)).pipBits (pagesPerPIP pageSize - 1) = false := by
      rw [h.space.last _ (by omega), decide_eq_false_iff_not]
      omega
    have := h.below _ (by omega) _ (by omega) hlast
    have := h.le (Nat.find hex)
    exact Nat.find_spec hex (by omega)
  obtain hlt | heq := Nat.lt_or_eq_of_le hk'
  · have : ((k + 1 : Nat) * pagesPerPIP pageSize : Int) ≤ Nat.find hex * pagesPerPIP pageSize :=
      PageSpace.mul_le_mul_ppp hlt
    push_cast [add_mul] at this ⊢
    omega
  · rw [← heq]
    push_cast
    omega

end ReservedSpace

/-! ## Runs -/

structure ReservedWorld where
  space : ReservedSpace
  allocated : List Int

inductive ReservedAction where
  | allocate (depth : Nat) (a : Nat → PagAnswers)
  | release (page : Int)

namespace ReservedAction

def Legal (w : ReservedWorld) : ReservedAction → Prop
  | allocate _ _ => True
  | release page => page ∈ w.allocated ∧ page ∉ w.space.space.pips.map (·.1)

/-- Page numbers fit into an `SLONG`, and the first three pages stay. -/
def Within (pageSize : Nat) (w : ReservedWorld) : ReservedAction → Prop
  | allocate depth _ => (w.space.space.pips.length + depth) * pagesPerPIP pageSize ≤ 2 ^ 31
  | release page => 2 < page

def Reaches (pageSize : Nat) (w : ReservedWorld) : ReservedAction → Prop
  | allocate depth a => ReservedSpace.ReachesAll pageSize a depth w.space
  | release _ => True

def apply (pageSize : Nat) (w : ReservedWorld) : ReservedAction → ReservedWorld
  | allocate depth a =>
    let r := pagAllocateReserved pageSize a depth w.space
    ⟨r.space, r.page.toList ++ r.formatted ++ w.allocated⟩
  | release page =>
    ⟨⟨pagReleasePage pageSize page w.space.space, w.space.reserved⟩,
      w.allocated.filter (· ≠ page)⟩

end ReservedAction

/-- A page space as `PAG_format_pip` leaves it: `reserved` is `pip_min - 1`. -/
def ReservedWorld.init : ReservedWorld :=
  ⟨⟨pagFormatPip, fun k => if k = 0 then 3 else 0⟩, [0, 1, 2]⟩

def ReservedRun (pageSize : Nat) : List ReservedAction → ReservedWorld → Prop
  | [], _ => True
  | a :: as, w => a.Legal w ∧ a.Within pageSize w ∧ ReservedRun pageSize as (a.apply pageSize w)

def RunReaches (pageSize : Nat) : List ReservedAction → ReservedWorld → Prop
  | [], _ => True
  | a :: as, w => a.Reaches pageSize w ∧ RunReaches pageSize as (a.apply pageSize w)

def runReserved (pageSize : Nat) (as : List ReservedAction) (w : ReservedWorld) : ReservedWorld :=
  as.foldl (fun w a => a.apply pageSize w) w

namespace ReservedWorld

variable {pageSize n : Nat} {w : ReservedWorld}

/-- The pages that are allocated are initialised, and `PAG_page_count` counts them all. -/
structure Counted (pageSize : Nat) (w : ReservedWorld) : Prop where
  below : ∀ p ∈ w.allocated,
    p % pagesPerPIP pageSize < w.space.reserved (p / pagesPerPIP pageSize).toNat
  le : ∀ k, w.space.reserved k ≤ pagesPerPIP pageSize
  count : ∃ fuel count, pagPageCount pageSize w.space fuel 0 = some count ∧
    ∀ p ∈ w.allocated, p < count

/-- The invariant of a run, with the number of inventory pages. -/
def Ok (pageSize : Nat) (w : ReservedWorld) (n : Nat) : Prop :=
  ∃ c, w.space.Ok pageSize n c ∧ ∀ p, p ∈ w.allocated ↔ Used pageSize n c p

theorem Ok.counted (h : w.Ok pageSize n) : w.Counted pageSize := by
  obtain ⟨c, hok, hused⟩ := h
  obtain ⟨fuel, count, hcount, hlt⟩ := hok.pagPageCount
  refine ⟨fun p hp => ?_, hok.le, fuel, count, hcount, fun p hp => hlt p ((hused p).1 hp)⟩
  obtain ⟨k, hk, b, hb, rfl, hbit⟩ := (hused p).1 hp
  have hb' : (b : Int) < pagesPerPIP pageSize := by exact_mod_cast hb
  have hmod : (k * pagesPerPIP pageSize + b : Int) % pagesPerPIP pageSize = b := by
    rw [add_comm, Int.add_mul_emod_self_right, Int.emod_eq_of_lt (by omega) hb']
  have hdiv : (k * pagesPerPIP pageSize + b : Int) / pagesPerPIP pageSize = k := by
    rw [add_comm, Int.add_mul_ediv_right _ _ (by omega), Int.ediv_eq_zero_of_lt (by omega) hb',
      zero_add]
  rw [hmod, hdiv, Int.toNat_natCast]
  exact_mod_cast hok.below k hk b hb hbit

theorem init_ok (hsize : 20 < pageSize) (hsize' : pageSize < 65536) : init.Ok pageSize 1 := by
  obtain ⟨c, hok, hused⟩ := PagWorld.init_ok hsize hsize'
  have hppp : pagesPerPIP pageSize = (pageSize - 20) * 8 := rfl
  refine ⟨c, ⟨hok, fun k => ?_, fun k hk => ?_, fun k hk b hb hbit => ?_⟩, hused⟩
  · change (if k = 0 then 3 else 0) ≤ _
    split_ifs <;> omega
  · change (if k = 0 then 3 else 0) = 0
    rw [if_neg (by omega)]
  · have hmem := (hused (k * pagesPerPIP pageSize + b)).2 ⟨k, hk, b, hb, rfl, hbit⟩
    obtain rfl : k = 0 := by omega
    have hmem : (b : Int) = 0 ∨ (b : Int) = 1 ∨ (b : Int) = 2 := by
      simpa [PagWorld.init] using hmem
    change b < if (0 : Nat) = 0 then 3 else 0
    rw [if_pos rfl]
    omega

theorem Ok.allocate (h : w.Ok pageSize n) {depth : Nat} {a : Nat → PagAnswers}
    (hfits : (w.space.space.pips.length + depth) * pagesPerPIP pageSize ≤ 2 ^ 31)
    (hreach : ReservedSpace.ReachesAll pageSize a depth w.space) :
    ∃ n', ((ReservedAction.allocate depth a).apply pageSize w).Ok pageSize n' := by
  obtain ⟨c, hok, hused⟩ := h
  rw [hok.space.length] at hfits
  obtain ⟨c', hc'⟩ := hok.pagAllocate a hfits hreach
  refine ⟨_, c', hc'.ok, fun p => ?_⟩
  rw [hc'.used, ReservedAction.apply, mem_append, mem_append, hused, Option.mem_toList]
  grind

theorem Ok.release (h : w.Ok pageSize n) {page : Int}
    (hlegal : (ReservedAction.release page).Legal w) (hlow : 2 < page) :
    ((ReservedAction.release page).apply pageSize w).Ok pageSize n := by
  obtain ⟨c, hok, hused⟩ := h
  obtain ⟨c', hok', hused'⟩ := hok.pagReleasePage ((hused page).1 hlegal.1) hlow hlegal.2
  refine ⟨c', hok', fun p => ?_⟩
  rw [hused', ReservedAction.apply, mem_filter, hused, decide_eq_true_iff]

theorem Ok.run (h : w.Ok pageSize n) {as : List ReservedAction}
    (hrun : ReservedRun pageSize as w) (hreach : RunReaches pageSize as w) :
    ∃ n', (runReserved pageSize as w).Ok pageSize n' := by
  induction as generalizing w n with
  | nil => exact ⟨n, h⟩
  | cons a as ih =>
    cases a with
    | allocate depth a =>
      obtain ⟨n', hn'⟩ := h.allocate hrun.2.1 hreach.1
      exact ih hn' hrun.2.2 hreach.2
    | release page => exact ih (h.release hrun.1 hrun.2.1) hrun.2.2 hreach.2

end ReservedWorld

/-- In every run whose calls of `PAG_allocate` reach the pages that they take, the pages that are
allocated are initialised, and `PAG_page_count` counts them all. -/
theorem initialised_pages_counted {pageSize : Nat} (hsize : 20 < pageSize)
    (hsize' : pageSize < 65536)
    (as : List ReservedAction) (hrun : ReservedRun pageSize as .init)
    (hreach : RunReaches pageSize as .init) :
    (runReserved pageSize as .init).Counted pageSize := by
  obtain ⟨n, hok⟩ := (ReservedWorld.init_ok hsize hsize').run hrun hreach
  exact hok.counted

/-- `CCH_fake` lets `PAG_allocate` have every page but those in `refused`, and `PIO_init_data`
initialises what it is asked for. -/
def PagAnswers.refusing (refused : List Int) : PagAnswers where
  fake page := page ∉ refused
  stalled := false
  noReserve := false
  pioInitData n := n
  written := true
  pioInitData_le _ := le_rfl

instance (pageSize : Nat) (a : PagAnswers) (s : ReservedSpace) :
    Decidable (a.Reaches pageSize s) :=
  match h : s.find pageSize a with
  | none => isTrue fun _ _ _ _ he => by
    rw [h] at he
    cases he
  | some (sequence, pip, relativeBit, pipMin) =>
    let reserved := s.reserved sequence.toNat
    let init := a.initialised pageSize sequence.toNat reserved
    decidable_of_iff (relativeBit ≤ reserved ∨ init = 0 ∨ relativeBit < reserved + init)
      ⟨fun hr _ _ _ _ he => by
        rw [h] at he
        cases he
        exact hr, fun hr => hr _ _ _ _ h⟩

instance decidableReachesAll (pageSize : Nat) (a : Nat → PagAnswers) : (depth : Nat) →
    (s : ReservedSpace) → Decidable (ReservedSpace.ReachesAll pageSize a depth s)
  | 0, s => inferInstanceAs (Decidable ((a 0).Reaches pageSize s))
  | depth + 1, s =>
    match h : s.takePage pageSize (a (depth + 1)) with
    | some (page, true, s') =>
      have := decidableReachesAll pageSize a depth (s'.format page)
      decidable_of_iff ((a (depth + 1)).Reaches pageSize s ∧
          ReservedSpace.ReachesAll pageSize a depth (s'.format page))
        ⟨fun hr => ⟨hr.1, fun _ _ he => by
          rw [h] at he
          cases he
          exact hr.2⟩, fun hr => ⟨hr.1, hr.2 _ _ h⟩⟩
    | some (page, false, s') =>
      decidable_of_iff ((a (depth + 1)).Reaches pageSize s)
        ⟨fun hr => ⟨hr, fun _ _ he => by
          rw [h] at he
          cases he⟩, fun hr => hr.1⟩
    | none =>
      decidable_of_iff ((a (depth + 1)).Reaches pageSize s)
        ⟨fun hr => ⟨hr, fun _ _ he => by
          rw [h] at he
          cases he⟩, fun hr => hr.1⟩

instance (w : ReservedWorld) : (a : ReservedAction) → Decidable (a.Legal w)
  | .allocate _ _ => isTrue trivial
  | .release page =>
    inferInstanceAs (Decidable (page ∈ w.allocated ∧ page ∉ w.space.space.pips.map (·.1)))

instance (pageSize : Nat) (w : ReservedWorld) :
    (a : ReservedAction) → Decidable (a.Within pageSize w)
  | .allocate depth _ => inferInstanceAs
      (Decidable ((w.space.space.pips.length + depth) * pagesPerPIP pageSize ≤ 2 ^ 31))
  | .release page => inferInstanceAs (Decidable (2 < page))

instance (pageSize : Nat) (w : ReservedWorld) :
    (a : ReservedAction) → Decidable (a.Reaches pageSize w)
  | .allocate depth a => decidableReachesAll pageSize a depth w.space
  | .release _ => isTrue trivial

instance decidableReservedRun (pageSize : Nat) :
    (as : List ReservedAction) → (w : ReservedWorld) → Decidable (ReservedRun pageSize as w)
  | [], _ => isTrue trivial
  | a :: as, w =>
    have := decidableReservedRun pageSize as (a.apply pageSize w)
    inferInstanceAs (Decidable (a.Legal w ∧ a.Within pageSize w ∧ _))

instance decidableRunReaches (pageSize : Nat) :
    (as : List ReservedAction) → (w : ReservedWorld) → Decidable (RunReaches pageSize as w)
  | [], _ => isTrue trivial
  | a :: as, w =>
    have := decidableRunReaches pageSize as (a.apply pageSize w)
    inferInstanceAs (Decidable (a.Reaches pageSize w ∧ _))

/-- Two pages are allocated and the first of them is released, but not to be had for the next call.
-/
theorem initialised_pages_counted_refused :
    let as : List ReservedAction := [.allocate 0 fun _ => .refusing [], .allocate 0 fun _ =>
      .refusing [],
      .release 3, .allocate 0 fun _ => .refusing [3]]
    (runReserved 1024 as .init).allocated = [5, 4, 0, 1, 2] ∧
      (runReserved 1024 as .init).Counted 1024 := by
  intro as
  have hrun : ReservedRun 1024 as .init := by decide +kernel
  have hreach : RunReaches 1024 as .init := by decide +kernel
  exact ⟨by decide +kernel, initialised_pages_counted (by decide) (by decide) as hrun hreach⟩

/-- The page next to be initialised is refused: page 4 is taken, one page is initialised, which is
page 3, and neither `reserved` nor `PAG_page_count` tells of page 4. -/
theorem not_initialised_pages_counted :
    let as : List ReservedAction := [.allocate 0 fun _ => .refusing [3]]
    ReservedRun 1024 as .init ∧ (runReserved 1024 as .init).allocated = [4, 0, 1, 2] ∧
      (runReserved 1024 as .init).space.reserved 0 = 4 ∧
      pagPageCount 1024 (runReserved 1024 as .init).space 1 0 = some 4 ∧
      ¬ (runReserved 1024 as .init).Counted 1024 := by
  intro as
  have hallocated : (runReserved 1024 as .init).allocated = [4, 0, 1, 2] := by decide +kernel
  have hreserved : (runReserved 1024 as .init).space.reserved 0 = 4 := by decide +kernel
  have hrun : ReservedRun 1024 as .init := by decide +kernel
  refine ⟨hrun, hallocated, hreserved, by decide +kernel, fun h => ?_⟩
  have hbelow := h.below 4 (by simp [hallocated])
  change (4 : Int) < (runReserved 1024 as .init).space.reserved 0 at hbelow
  omega

end Firebird.Jrd
