import Firebird.Jrd.EventTiles

/-!
# Blocks allocated and freed

What `alloc_global` and `free_global` make of the tiles of the region, over any sequence of calls.
-/
namespace Firebird.Jrd.Alloc

open Lib.Chain List
open Event (slong slong_eq)

section Free

variable {start n : Int} {r : Region} {as bs : List Tile}

theorem Separate.head {a b : Tile} {ts : List Tile} (h : Separate (a :: ts))
    (hb : b.free = a.free) :
    Separate (b :: ts) := by
  cases ts with
  | nil => exact .singleton b
  | cons t ts =>
    obtain ⟨hat, hts⟩ := isChain_cons_cons.1 h
    exact isChain_cons_cons.2 ⟨hb ▸ hat, hts⟩

theorem Tiles.mergeNext (h : Tiles start r (as ++ ⟨n, true⟩ :: bs))
    (hsep : Separate (⟨n, false⟩ :: bs)) :
    ∃ n' bs', Tiles start (if start + span as + (r.block (start + span as)).hdrLength =
          r.link (some (start + span as)) then
        mergeBlock r (start + span as) (r.link (some (start + span as))) else r)
        (as ++ ⟨n', true⟩ :: bs') ∧
      used (start + span as + n') bs' = used (start + span as + n) bs ∧
      Separate (⟨n', true⟩ :: bs') ∧ n ≤ n' := by
  obtain ⟨-, hlb⟩ := Long.append.1 h.long
  obtain ⟨hn, hlb⟩ := Long.cons.1 hlb
  obtain ⟨-, hhb⟩ := Headers.append.1 h.headers
  obtain ⟨ho, -⟩ := Headers.cons.1 hhb
  have hlinked := h.linked
  rw [freeTiles_free] at hlinked
  obtain ⟨-, -, -, hrest⟩ := linked_append.1 hlinked
  rw [show (r.block (start + span as)).hdrLength = n from ho.1]
  have hpos := h.pos
  have hnonneg := (Long.append.1 h.long).1.span_nonneg
  dsimp only at hn
  unfold sizeofFrb at hn
  cases bs with
  | nil =>
    rw [if_neg (by rw [show r.link (some (start + span as)) = 0 from hrest]; omega)]
    exact ⟨n, [], h, rfl, .singleton _, Int.le_refl _⟩
  | cons t bs =>
    obtain ⟨m, free⟩ := t
    obtain ⟨hm, hlbs⟩ := Long.cons.1 hlb
    dsimp only at hm
    unfold sizeofFrb at hm
    cases free with
    | true =>
      rw [if_pos hrest.1.symm, hrest.1]
      refine ⟨n + m, bs, h.merge, ?_, ?_, by omega⟩
      · rw [used_cons]
        rw [← Int.add_assoc]
        rfl
      · exact Separate.head (isChain_cons_cons.1 hsep).2 rfl
    | false =>
      have hne : ¬start + span as + n = r.link (some (start + span as)) := by
        obtain hz | hmem := hrest.link_mem
        · omega
        · have := hlbs.freeTiles_bounds hmem
          dsimp only at this
          omega
      rw [if_neg hne]
      exact ⟨n, _, h, rfl, isChain_cons_cons.2 ⟨by simp, (isChain_cons_cons.1 hsep).2⟩,
        Int.le_refl _⟩

theorem Tiles.mergePrior (h : Tiles start r (as ++ ⟨n, true⟩ :: bs)) (has : Separate as)
    (hbs : Separate (⟨n, true⟩ :: bs)) :
    ∃ ts, Tiles start (Alloc.mergePrior r (start + span as) (lastLink none (freeTiles start as)))
      ts ∧
      used start ts = used start as ++ used (start + span as + n) bs ∧ Separate ts ∧
      ∃ t ∈ ts, t.free = true ∧ n ≤ t.length := by
  have hfree : ∀ as' : List Tile, ∃ t ∈ as' ++ ⟨n, true⟩ :: bs, t.free = true ∧ n ≤ t.length :=
    fun as' => ⟨⟨n, true⟩, by simp, rfl, Int.le_refl _⟩
  obtain rfl | ⟨as, t, rfl⟩ := eq_nil_or_concat as
  · exact ⟨_, h, by simp [used_cons], hbs, hfree []⟩
  obtain ⟨m, free⟩ := t
  rw [concat_eq_append] at *
  have hsep := isChain_append.1 has
  cases free with
  | true =>
    have hprior : lastLink none (freeTiles start (as ++ [⟨m, true⟩])) = some (start + span as) := by
      rw [freeTiles_free]
      exact lastLink_append _ _ _
    rw [append_assoc, singleton_append] at h
    obtain ⟨-, hhb⟩ := Headers.append.1 h.headers
    obtain ⟨ho, -⟩ := Headers.cons.1 hhb
    rw [hprior]
    unfold Alloc.mergePrior
    dsimp only
    rw [show (r.block (start + span as)).hdrLength = m from ho.1, span_append, span_cons, span_nil,
      Int.add_zero, ← Int.add_assoc, if_pos rfl]
    have hm := (Long.append.1 h.long).2 _ mem_cons_self
    refine ⟨as ++ ⟨m + n, true⟩ :: bs, h.merge, ?_, ?_, ⟨m + n, true⟩, by simp, rfl, by
      unfold sizeofFrb at hm; dsimp only at hm ⊢; omega⟩
    · simp [used_append, used_cons, Int.add_assoc]
    · exact isChain_append.2 ⟨hsep.1, hbs.head rfl, fun x hx y hy => by
        cases hy
        exact hsep.2.2 x hx ⟨m, true⟩ rfl⟩
  | false =>
    refine ⟨_, ?_, by simp [used_append, used_cons, Int.add_assoc], isChain_append.2 ⟨has, hbs,
      fun x hx y hy => by simp at hx; simp [← hx]⟩, hfree _⟩
    have hprior : lastLink none (freeTiles start (as ++ [⟨m, false⟩])) =
        lastLink none (freeTiles start as) := by
      rw [freeTiles_used]
      simp [freeTiles, placed]
    rw [hprior]
    obtain ⟨hnone, -⟩ | ⟨o, ho, hsome⟩ := @lastLink_mem _ none (freeTiles start as)
    · rwa [hnone]
    · rw [hsome]
      obtain ⟨t, ht, -⟩ := mem_freeTiles.1 ho
      obtain ⟨hla, hlm⟩ := Long.append.1 (Long.append.1 h.long).1
      have hm := hlm _ mem_cons_self
      have hbounds := hla.mem_placed ht
      have hheader := (Headers.append.1 (Headers.append.1 h.headers).1).1 _ ht
      dsimp only at hm hbounds
      unfold sizeofFrb at hm
      unfold Alloc.mergePrior
      dsimp only
      rwa [show (r.block o).hdrLength = t.length from hheader.1, if_neg (by
        rw [span_append, span_cons, span_nil]
        dsimp only
        omega)]

theorem Tiles.freeGlobal (h : Tiles start r (as ++ ⟨n, false⟩ :: bs))
    (hsep : Separate (as ++ ⟨n, false⟩ :: bs)) :
    ∃ r' ts, freeGlobal r (start + span as) = some r' ∧ Tiles start r' ts ∧ Separate ts ∧
      used start ts = used start as ++ used (start + span as + n) bs ∧
      ∃ t ∈ ts, t.free = true ∧ n ≤ t.length := by
  obtain ⟨hla, hlb⟩ := Long.append.1 h.long
  obtain ⟨hn, hlb⟩ := Long.cons.1 hlb
  dsimp only at hn
  unfold sizeofFrb at hn
  have hlinked := h.linked
  rw [freeTiles_used] at hlinked
  have hpos := h.pos
  have hnonneg := hla.span_nonneg
  have hnonneg' := hlb.span_nonneg
  have hlen := h.length
  simp only [span_append, span_cons] at hlen
  have hprior : findPrior r (start + span as) r.evhLength.toNat none none =
      some (lastLink none (freeTiles start as), lastLink none (freeTiles start as)) := by
    refine findPrior_eq hlinked (fun o ho => ?_) (fun o ho => ?_) ?_
    · have := hla.freeTiles_bounds ho
      unfold sizeofFrb at this
      omega
    · have := hlb.freeTiles_bounds ho
      omega
    · have := hla.length_le start
      omega
  obtain ⟨hsa, hsn, hsb⟩ := isChain_append.1 hsep
  -- the block becomes a free one, and takes the next one and the one before if they are free
  have hrelease := h.release
  obtain ⟨n', bs', hnext, hused, hsep', hle⟩ := hrelease.mergeNext hsn
  obtain ⟨ts, hts, hused', hsep'', t, ht, hfree, hle'⟩ := hnext.mergePrior hsa hsep'
  rw [hused] at hused'
  have hne : some (start + span as) ≠ lastLink none (freeTiles start as) := by
    have hnd := hrelease.long.freeTiles_nodup start
    rw [freeTiles_free] at hnd
    exact lastLink_ne hnd _ mem_cons_self
  rw [link_setLink, if_neg hne, link_setBlock, if_pos rfl] at hts
  have hgood : overlaps r (start + span as) (lastLink none (freeTiles start as)) = false := by
    obtain ⟨hnone, -⟩ | ⟨o, ho, hsome⟩ := @lastLink_mem _ none (freeTiles start as)
    · rw [hnone]
      rfl
    · obtain ⟨t, ht, -⟩ := mem_freeTiles.1 ho
      have hbounds := hla.mem_placed ht
      have hheader := (Headers.append.1 h.headers).1 _ ht
      dsimp only at hbounds
      rw [hsome]
      refine decide_eq_false ?_
      rw [show (r.block o).hdrLength = t.length from hheader.1]
      omega
  refine ⟨_, ts, ?_, hts, hsep'', hused', t, ht, hfree, Int.le_trans hle hle'⟩
  unfold Alloc.freeGlobal
  rw [hprior]
  simp only [Option.bind_eq_bind, Option.bind_some]
  rw [hgood, if_neg (by simp; omega)]
  rfl

end Free

section Allocate

variable {start length : Int} {r : Region} {ts : List Tile}

/-- What `alloc_global` knows of the free blocks it has seen. -/
def Fits (r : Region) (length : Int) (seen : List Int) : Option (Option Int × Int) → Prop
  | none => ∀ o ∈ seen, (r.block o).hdrLength < length
  | some (ptr, tail) => ∃ as o bs, seen = as ++ o :: bs ∧ ptr = lastLink none as ∧
    tail = (r.block o).hdrLength - length ∧ 0 ≤ tail

theorem findBest_fits (seen os : List Int) {fuel : Nat} {best : Option (Option Int × Int)}
    (h : Linked 0 r.link (lastLink none seen) os) (hlength : 0 ≤ length ∧ length ≤ 2 ^ 31)
    (hos : ∀ o ∈ os, 0 ≤ (r.block o).hdrLength ∧ (r.block o).hdrLength < 2 ^ 31)
    (hfuel : os.length < fuel) (hbest : Fits r length seen best) :
    ∃ best', findBest r length fuel (lastLink none seen) best = some best' ∧
      Fits r length (seen ++ os) best' := by
  induction os generalizing seen fuel best with
  | nil =>
    obtain ⟨fuel, rfl⟩ := Nat.exists_eq_succ_of_ne_zero (Nat.ne_of_gt hfuel)
    exact ⟨best, if_pos h, by rwa [append_nil]⟩
  | cons o os ih =>
    obtain ⟨fuel, rfl⟩ := Nat.exists_eq_succ_of_ne_zero (Nat.ne_of_gt (Nat.zero_lt_of_lt hfuel))
    obtain ⟨ho, hlt⟩ := hos o mem_cons_self
    have htail : slong ((r.block o).hdrLength - length) = (r.block o).hdrLength - length := by
      unfold slong
      omega
    unfold findBest
    rw [h.1, if_neg h.2.1, htail, append_cons]
    have hnext : lastLink none (seen ++ [o]) = some o := lastLink_append _ _ _
    rw [← hnext]
    refine ih _ (hnext ▸ h.2.2) (fun a ha => hos a (mem_cons_of_mem o ha))
      (Nat.lt_of_succ_lt_succ hfuel) ?_
    split_ifs with hc
    · exact ⟨seen, o, [], rfl, rfl, rfl, hc.1⟩
    · cases best with
      | none =>
        intro a ha
        obtain ha | ha := mem_append.1 ha
        · exact hbest a ha
        · rw [mem_singleton.1 ha]
          simp at hc
          omega
      | some best =>
        obtain ⟨as, o', bs, rfl, hptr, htail'⟩ := hbest
        exact ⟨as, o', bs ++ [o], by simp, hptr, htail'⟩

theorem Tiles.findBest (h : Tiles start r ts) (length : Int)
    (hlength : 0 ≤ length ∧ length ≤ 2 ^ 31) :
    ∃ best, findBest r length r.evhLength.toNat none none = some best ∧
      Fits r length (freeTiles start ts) best := by
  have hle := h.long.length_le start
  have hlen := h.length
  have hbound := h.bound
  have hpos := h.pos
  refine findBest_fits [] (freeTiles start ts) h.linked hlength (fun o ho => ?_) (by omega)
    fun _ ha => absurd ha not_mem_nil
  obtain ⟨t, ht, -⟩ := mem_freeTiles.1 ho
  have hbounds := h.long.mem_placed ht
  have ht' := h.long t (mem_of_mem_placed ht)
  unfold sizeofFrb at ht'
  rw [show (r.block o).hdrLength = t.length from (h.headers _ ht).1]
  dsimp only at hbounds
  omega

theorem exists_tile {as' bs' : List Int} {o : Int} (h : freeTiles start ts = as' ++ o :: bs') :
    ∃ as n bs, ts = as ++ ⟨n, true⟩ :: bs ∧ o = start + span as ∧ freeTiles start as = as' := by
  induction ts generalizing start as' with
  | nil => simp [freeTiles, placed] at h
  | cons t ts ih =>
    obtain ⟨m, free⟩ := t
    cases free with
    | false =>
      obtain ⟨as, n, bs, rfl, ho, has⟩ := ih h
      exact ⟨⟨m, false⟩ :: as, n, bs, rfl, by rw [ho, span_cons, Int.add_assoc], by
        exact has⟩
    | true =>
      cases as' with
      | nil =>
        obtain ⟨rfl, -⟩ := List.cons.inj h
        exact ⟨[], m, ts, rfl, by simp, rfl⟩
      | cons a as' =>
        obtain ⟨rfl, hrest⟩ := List.cons.inj h
        obtain ⟨as, n, bs, rfl, ho, has⟩ := ih hrest
        exact ⟨⟨m, true⟩ :: as, n, bs, rfl, by rw [ho, span_cons, Int.add_assoc], by
          exact congrArg (start :: ·) has⟩

variable {type : Nat}

theorem Tiles.takeBlock {n : Int} {as bs : List Tile}
    (h : Tiles start r (as ++ ⟨n, true⟩ :: bs)) (hsep : Separate (as ++ ⟨n, true⟩ :: bs))
    (htype : type ≠ typeFrb) (hlength : sizeofFrb ≤ length) (hn : length ≤ n) :
    ∃ block len r' ts, Alloc.takeBlock r type length (lastLink none (freeTiles start as))
      (n - length) =
        (block, r') ∧ Tiles start r' ts ∧ Separate ts ∧ length ≤ len ∧
      used start ts = used start as ++ (block, len) :: used (start + span as + n) bs := by
  obtain ⟨hsa, hsn, hlast⟩ := isChain_append.1 hsep
  have hbs : ∀ m, Separate (⟨m, false⟩ :: bs) := by
    intro m
    cases bs with
    | nil => exact .singleton _
    | cons t bs => exact isChain_cons_cons.2 ⟨by simp, (isChain_cons_cons.1 hsn).2⟩
  unfold Alloc.takeBlock
  rw [h.link_last]
  by_cases hrest : n - length < sizeofFrb
  · rw [if_pos hrest]
    refine ⟨_, n, _, _, rfl, h.takeWhole htype, ?_, hn, ?_⟩
    · exact isChain_append.2 ⟨hsa, hbs n, fun x _ y hy => by cases hy; simp⟩
    · rw [used_append, used_cons]
      rfl
  · rw [if_neg hrest]
    obtain ⟨-, hhb⟩ := Headers.append.1 h.headers
    obtain ⟨ho, -⟩ := Headers.cons.1 hhb
    have hlen := h.length
    have hbound := h.bound
    have hpos := h.pos
    obtain ⟨hla, hlb⟩ := Long.append.1 h.long
    have hnonneg := hla.span_nonneg
    have hnonneg' := (Long.cons.1 hlb).2.span_nonneg
    simp only [span_append, span_cons] at hlen
    have hslong : slong ((r.block (start + span as)).hdrLength - length) = n - length := by
      unfold sizeofFrb at hlength hrest
      rw [ho.1]
      exact slong_eq (by dsimp only; omega) (by dsimp only; omega)
    have hslong' : slong length = length := by
      unfold sizeofFrb at hlength
      exact slong_eq (by omega) (by omega)
    rw [hslong, hslong']
    refine ⟨_, length, _, _, rfl, h.takeRest htype hlength (by omega), ?_, Int.le_refl _, ?_⟩
    · exact isChain_append.2 ⟨hsa, isChain_cons_cons.2 ⟨by simp, hbs length⟩, fun x hx y hy => by
        cases hy
        exact hlast x hx ⟨n, true⟩ rfl⟩
    · rw [used_append, used_cons, used_cons]
      rw [show start + span as + (n - length) + length = start + span as + n by omega]
      rfl

variable {r' : Region}

theorem findPrior_congr {r : Region} (h : ∀ q, r'.link q = r.link q) (block : Int) (fuel : Nat)
    (prior ptr : Option Int) : findPrior r' block fuel prior ptr = findPrior r block fuel prior
      ptr := by
  induction fuel generalizing prior ptr with
  | zero => rfl
  | succ fuel ih => simp only [findPrior, h, ih]

theorem freeGlobal_type (r : Region) (block : Int) (b : Frb) (type : Nat) :
    Alloc.freeGlobal (r.setBlock block { b with hdrType := type }) block =
      Alloc.freeGlobal (r.setBlock block b) block := by
  have hlink : ∀ q, (r.setBlock block { b with hdrType := type }).link q =
      (r.setBlock block b).link q := fun q => by simp
  have hoverlaps : ∀ prior, overlaps (r.setBlock block { b with hdrType := type }) block prior =
      overlaps (r.setBlock block b) block prior := by
    intro prior
    cases prior with
    | none => rfl
    | some prior =>
      unfold overlaps
      dsimp only
      rw [block_setBlock, block_setBlock]
      split_ifs <;> rfl
  have hlinkBlock : ∀ prior ptr, linkBlock (r.setBlock block { b with hdrType := type }) block prior
    ptr =
      linkBlock (r.setBlock block b) block prior ptr := by
    intro prior ptr
    unfold linkBlock
    rw [hlink]
    simp [Region.setBlock]
  unfold Alloc.freeGlobal
  rw [findPrior_congr hlink]
  simp only [hoverlaps, hlinkBlock]
  rfl

theorem Tiles.grows (h : Tiles start r ts) (hr : extendRegion r = some r') :
    r.evhLength + eventExtendSize < 2 ^ 31 := by
  have hbound := h.bound
  unfold extendRegion slong eventExtendSize at hr
  unfold eventExtendSize
  dsimp only at hr
  split_ifs at hr with hle
  omega

theorem Tiles.extend (h : Tiles start r ts) (hsep : Separate ts)
    (hgrows : r.evhLength + eventExtendSize < 2 ^ 31) :
    ∃ r' ts', extendRegion r = some r' ∧ Tiles start r' ts' ∧ Separate ts' ∧
      used start ts' = used start ts ∧ ∃ t ∈ ts', t.free = true ∧ eventExtendSize ≤ t.length := by
  have hpos := h.pos
  have hlen := h.length
  have hnonneg := h.long.span_nonneg
  have hev : slong (r.evhLength + eventExtendSize) = r.evhLength + 32768 :=
    slong_eq (by unfold eventExtendSize; omega) hgrows
  let grown : Region := { r with evhLength := r.evhLength + 32768 }
  have hgrown : Tiles start (grown.setBlock (start + span ts) ⟨32768, 0, 0⟩)
    (ts ++ [⟨32768, false⟩]) := by
    refine ⟨hpos, Long.append.2 ⟨h.long, Long.cons.2 ⟨by decide, fun _ ht => absurd ht
      not_mem_nil⟩⟩, ?_, ?_, ?_, ?_⟩
    · simp [grown, hlen, Int.add_assoc]
    · exact hgrows
    · refine Headers.append.2 ⟨h.headers.congr h.long fun o _ ho => ?_, Headers.cons.2
        ⟨?_, fun _ ht =>
        absurd ht not_mem_nil⟩⟩
      · rw [block_setBlock, if_neg (by omega)]
        exact ⟨rfl, rfl⟩
      · unfold Header
        rw [block_setBlock, if_pos rfl]
        exact ⟨rfl, by simp [typeFrb]⟩
    · rw [freeTiles_used]
      have hother : ∀ o ∈ freeTiles start ts, (some o : Option Int) ≠ some (start + span ts) := by
        intro o ho heq
        have := h.long.freeTiles_bounds ho
        unfold sizeofFrb at this
        cases heq
        omega
      refine Linked.congr (by simpa [freeTiles, placed] using h.linked) ?_ fun o ho => ?_
      · rw [link_setBlock, if_neg (fun h => by cases h)]
        rfl
      · rw [link_setBlock, if_neg (hother o (by simpa [freeTiles, placed] using ho))]
        rfl
  have hsep' : Separate (ts ++ [⟨32768, false⟩]) :=
    isChain_append.2 ⟨hsep, .singleton _, fun x _ y hy => by cases hy; simp⟩
  obtain ⟨r₁, ts', hfree, htiles, hsepts, hused, hlong⟩ := hgrown.freeGlobal hsep'
  refine ⟨r₁, ts', ?_, htiles, hsepts, by simpa using hused, hlong⟩
  have hfree' := (freeGlobal_type grown (start + span ts) ⟨32768, 0, 0⟩ typeFrb).trans hfree
  unfold extendRegion
  dsimp only
  rw [hev, show r.evhLength + 32768 - r.evhLength = 32768 by omega, if_neg (by omega)]
  rw [← hlen] at hfree'
  exact hfree'

theorem roundupIptr_bounds (h : 9 ≤ length) (h' : length ≤ 2 ^ 31) :
    length ≤ roundupIptr length ∧ sizeofFrb ≤ roundupIptr length ∧ roundupIptr length ≤ 2 ^ 31 ∧
      roundupIptr (roundupIptr length) = roundupIptr length := by
  unfold roundupIptr sizeofFrb
  omega

structure Allocated (start : Int) (r' : Region) (ts : List Tile) (block length : Int) : Prop where
  exists_tiles : ∃ ts' len us vs, Tiles start r' ts' ∧ Separate ts' ∧ length ≤ len ∧
    used start ts = us ++ vs ∧ used start ts' = us ++ (block, len) :: vs

theorem Tiles.allocBest {best : Option Int} {bestTail : Int} (h : Tiles start r ts)
    (hsep : Separate ts) (htype : type ≠ typeFrb) (hlength : sizeofFrb ≤ length)
    (hfits : Fits r length (freeTiles start ts) (some (best, bestTail))) :
    Allocated start (Alloc.takeBlock r type length best bestTail).2 ts
      (Alloc.takeBlock r type length best bestTail).1 length := by
  obtain ⟨as', o, bs', hfree, rfl, rfl, htail⟩ := hfits
  obtain ⟨as, n, bs, rfl, rfl, rfl⟩ := exists_tile hfree
  obtain ⟨-, hhb⟩ := Headers.append.1 h.headers
  obtain ⟨ho, -⟩ := Headers.cons.1 hhb
  rw [show (r.block (start + span as)).hdrLength = n from ho.1] at htail ⊢
  obtain ⟨block, len, r', ts', htake, htiles, hsep', hlen, hused⟩ :=
    h.takeBlock hsep htype hlength (by omega)
  rw [htake]
  refine ⟨ts', len, _, _, htiles, hsep', hlen, ?_, hused⟩
  rw [used_append, used_cons]
  rfl

theorem Tiles.allocGlobal {block : Int} (h : Tiles start r ts)
    (hsep : Separate ts) (htype : type ≠ typeFrb) (hlo : 9 ≤ length) (hhi : length ≤ 2 ^ 31)
    (hr : allocGlobal r type length = some (block, r')) : Allocated start r' ts block length := by
  obtain ⟨hle, hfrb, hmax, hidem⟩ := roundupIptr_bounds hlo hhi
  have hmono : Allocated start r' ts block (roundupIptr length) →
      Allocated start r' ts block length := by
    rintro ⟨ts', len, us, vs, htiles, hsep', hlen, hrest⟩
    exact ⟨ts', len, us, vs, htiles, hsep', by omega, hrest⟩
  apply hmono
  obtain ⟨best, hbest, hfits⟩ := h.findBest (roundupIptr length)
    ⟨by unfold sizeofFrb at hfrb; omega, hmax⟩
  unfold Alloc.allocGlobal at hr
  simp only [hbest, Option.bind_eq_bind, Option.bind_some] at hr
  cases best with
  | some best =>
    have hbest := h.allocBest hsep htype hfrb hfits
    rw [Option.some.inj hr] at hbest
    exact hbest
  | none =>
    simp only [Option.bind_eq_some_iff, hidem] at hr
    obtain ⟨r₁, hextend, hr⟩ := hr
    obtain ⟨r₂, ts₁, hextend', h₁, hsep₁, hused₁, -⟩ := h.extend hsep (h.grows hextend)
    cases hextend.symm.trans hextend'
    obtain ⟨best, hbest, hfits⟩ := h₁.findBest (roundupIptr length)
      ⟨by unfold sizeofFrb at hfrb; omega, hmax⟩
    simp only [hbest, Option.some.injEq] at hr
    obtain ⟨_, rfl, best, rfl, hr⟩ := hr
    have hbest' := h₁.allocBest hsep₁ htype hfrb hfits
    rw [Option.some.inj hr] at hbest'
    obtain ⟨ts', len, us, vs, htiles, hsep', hlen, hus, hvs⟩ := hbest'
    exact ⟨ts', len, us, vs, htiles, hsep', hlen, hused₁ ▸ hus, hvs⟩

theorem Tiles.allocGlobal_isSome (h : Tiles start r ts) (hsep : Separate ts)
    (hlo : 9 ≤ length) (hhi : length ≤ eventExtendSize)
    (hgrows : r.evhLength + eventExtendSize < 2 ^ 31) :
    (Alloc.allocGlobal r type length).isSome := by
  have hmax : roundupIptr length ≤ eventExtendSize := by
    unfold roundupIptr eventExtendSize at *
    omega
  unfold eventExtendSize at hhi
  obtain ⟨hle, hfrb, hlong, hidem⟩ := roundupIptr_bounds hlo (by omega)
  obtain ⟨best, hbest, hfits⟩ := h.findBest (roundupIptr length) ⟨by omega, hlong⟩
  unfold Alloc.allocGlobal
  simp only [hbest, Option.bind_eq_bind]
  cases best with
  | some best => rfl
  | none =>
    obtain ⟨r₁, ts₁, hextend, h₁, -, -, t, ht, hfree, htlen⟩ := h.extend hsep hgrows
    obtain ⟨best, hbest, hfits⟩ := h₁.findBest (roundupIptr length) ⟨by omega, hlong⟩
    simp only [hextend, hidem, hbest, Option.bind_some]
    cases best with
    | some best => rfl
    | none =>
      obtain ⟨as, bs, rfl⟩ := append_of_mem ht
      obtain ⟨m, free⟩ := t
      cases hfree
      have hshort := hfits (start + span as) (by rw [freeTiles_free]; simp)
      obtain ⟨-, hhb⟩ := Headers.append.1 h₁.headers
      obtain ⟨ho, -⟩ := Headers.cons.1 hhb
      rw [show (r₁.block (start + span as)).hdrLength = m from ho.1] at hshort
      dsimp only at htlen
      omega

end Allocate

/-- A length that `alloc_global` can be asked for. -/
def Asked (length : Int) : Prop := 9 ≤ length ∧ length ≤ 2 ^ 31

/-- The regions that a sequence of calls makes of a new one, with the offsets of the blocks that are
allocated, if the lengths satisfy a condition. -/
inductive Reach (ask : Int → Prop) (sizeofEvh mapped : Int) : Region → List Int → Prop
  | init : Reach ask sizeofEvh mapped (initRegion sizeofEvh mapped) []
  | alloc {r r' : Region} {live : List Int} {type : Nat} {length block : Int} :
    Reach ask sizeofEvh mapped r live → type ≠ typeFrb → ask length →
      allocGlobal r type length = some (block, r') → Reach ask sizeofEvh mapped r' (block :: live)
  | free {r r' : Region} {live : List Int} {block : Int} :
    Reach ask sizeofEvh mapped r live → block ∈ live → freeGlobal r block = some r' →
      Reach ask sizeofEvh mapped r' (live.erase block)

/-- The blocks that are allocated and the free ones tile the region behind its header. -/
structure Tiled (start : Int) (r : Region) (live : List Int) (ts : List Tile) : Prop
    extends Tiles start r ts where
  separate : Separate ts
  live : live.Perm ((used start ts).map Prod.fst)

theorem tiled_init {sizeofEvh mapped : Int} (hpos : 0 < sizeofEvh)
    (hmin : sizeofEvh + sizeofFrb ≤ mapped) (hmax : mapped < 2 ^ 31) :
    Tiled sizeofEvh (initRegion sizeofEvh mapped) [] [⟨mapped - sizeofEvh, true⟩] := by
  refine ⟨⟨hpos, Long.cons.2 ⟨by dsimp only; omega, fun _ h => absurd h not_mem_nil⟩, ?_, hmax, ?_,
    ?_⟩, .singleton _, by simp [used_cons]⟩
  · show mapped = sizeofEvh + (mapped - sizeofEvh + 0)
    omega
  · refine Headers.cons.2 ⟨?_, fun _ h => absurd h not_mem_nil⟩
    simp [Header, initRegion]
  · rw [freeTiles_cons]
    simp only [freeTiles, placed, initRegion]
    refine ⟨rfl, by omega, ?_⟩
    simp [Linked, Region.link]

variable {block : Int} {ts : List Tile} {start : Int}

theorem exists_used (h : block ∈ (used start ts).map Prod.fst) :
    ∃ as n bs, ts = as ++ ⟨n, false⟩ :: bs ∧ block = start + span as := by
  induction ts generalizing start with
  | nil => simp at h
  | cons t ts ih =>
    obtain ⟨m, free⟩ := t
    rw [used_cons, map_append, mem_append] at h
    obtain h | h := h
    · cases free with
      | true => simp at h
      | false => exact ⟨[], m, ts, rfl, by simpa using h⟩
    · obtain ⟨as, n, bs, rfl, rfl⟩ := ih h
      exact ⟨⟨m, free⟩ :: as, n, bs, rfl, by rw [span_cons, Int.add_assoc]⟩

variable {live : List Int} {r : Region}

theorem Tiled.free
    (h : Tiled start r live ts) (hlive : block ∈ live) :
    ∃ r' ts', Alloc.freeGlobal r block = some r' ∧ Tiled start r' (live.erase block) ts' := by
  obtain ⟨as, n, bs, rfl, rfl⟩ := exists_used (h.live.mem_iff.1 hlive)
  obtain ⟨r', ts', hfree, htiles, hsep, hused, -⟩ := h.toTiles.freeGlobal h.separate
  refine ⟨r', ts', hfree, htiles, hsep, ?_⟩
  have hlist : (used start (as ++ ⟨n, false⟩ :: bs)).map Prod.fst =
      (used start as).map Prod.fst ++ (start + span as) ::
        (used (start + span as + n) bs).map Prod.fst := by
    rw [used_append, used_cons]
    simp
  have hlive' := h.live
  rw [hlist] at hlive'
  rw [hused, map_append]
  have hperm := (hlive'.trans perm_middle).erase (start + span as)
  rwa [erase_cons_head] at hperm

theorem Tiled.alloc {length : Int} {r' : Region}
    {type : Nat} (h : Tiled start r live ts) (htype : type ≠ typeFrb) (hask : Asked length)
    (hr : Alloc.allocGlobal r type length = some (block, r')) :
    ∃ ts' len, Tiled start r' (block :: live) ts' ∧ (block, len) ∈ used start ts' ∧ length ≤
      len := by
  obtain ⟨ts', len, us, vs, htiles, hsep, hlen, hus, hvs⟩ :=
    h.toTiles.allocGlobal h.separate htype hask.1 hask.2 hr
  refine ⟨ts', len, ⟨htiles, hsep, ?_⟩, by simp [hvs], hlen⟩
  have hlive := h.live
  rw [hus] at hlive
  rw [hvs, map_append, map_cons]
  rw [map_append] at hlive
  exact (hlive.cons block).trans perm_middle.symm

theorem Reach.tiled {sizeofEvh mapped : Int} (hpos : 0 < sizeofEvh)
    (hmin : sizeofEvh + sizeofFrb ≤ mapped) (hmax : mapped < 2 ^ 31)
    (h : Reach Asked sizeofEvh mapped r live) : ∃ ts, Tiled sizeofEvh r live ts := by
  induction h with
  | init => exact ⟨_, tiled_init hpos hmin hmax⟩
  | alloc _ htype hask hr ih =>
    obtain ⟨ts, hts⟩ := ih
    obtain ⟨ts', _, hts', _⟩ := hts.alloc htype hask hr
    exact ⟨ts', hts'⟩
  | free _ hlive hr ih =>
    obtain ⟨ts, hts⟩ := ih
    obtain ⟨r', ts', hr', hts'⟩ := hts.free hlive
    cases hr.symm.trans hr'
    exact ⟨ts', hts'⟩

theorem Tiled.hdrLength
    (h : Tiled start r live ts) {p : Int × Int} (hp : p ∈ used start ts) :
    (r.block p.1).hdrLength = p.2 := by
  obtain ⟨q, hq, rfl⟩ := mem_map.1 hp
  exact (h.headers q (mem_of_mem_filter hq)).1

theorem Tiled.apart
    (h : Tiled start r live ts) : (used start ts).Pairwise fun p q =>
    p.1 + p.2 ≤ q.1 ∧ p.1 < q.1 := by
  refine pairwise_map.2 ((h.long.apart.imp_of_mem fun {p q} hp _ hpq => ?_).filter _)
  have hlen := h.long p.2 (mem_of_mem_placed hp)
  unfold sizeofFrb at hlen
  dsimp only
  omega

theorem Tiled.disjoint
    (h : Tiled start r live ts) {a b : Int} (ha : a ∈ live) (hb : b ∈ live) (hne : a ≠ b) :
    a + (r.block a).hdrLength ≤ b ∨ b + (r.block b).hdrLength ≤ a := by
  obtain ⟨p, hp, rfl⟩ := mem_map.1 (h.live.mem_iff.1 ha)
  obtain ⟨q, hq, rfl⟩ := mem_map.1 (h.live.mem_iff.1 hb)
  rw [h.hdrLength hp, h.hdrLength hq]
  have hsym : Std.Symm fun p q : Int × Int => p.1 + p.2 ≤ q.1 ∨ q.1 + q.2 ≤ p.1 :=
    ⟨fun _ _ => Or.symm⟩
  have hor : (used start ts).Pairwise fun p q => p.1 + p.2 ≤ q.1 ∨ q.1 + q.2 ≤ p.1 :=
    h.apart.imp fun hpq => .inl hpq.1
  exact hor.forall hp hq fun hpq => hne (congrArg Prod.fst hpq)

theorem Tiled.nodup
    (h : Tiled start r live ts) : live.Nodup := by
  refine h.live.nodup_iff.2 (pairwise_map.2 (h.apart.imp fun hpq => ?_))
  exact Int.ne_of_lt hpq.2

/-- The blocks that are allocated and the free ones always tile the region, with the free ones in
order and no two of them adjacent. A block that is allocated is as long as asked for and does not
overlap another one, and a block that is freed is not a bad one. -/
theorem event_region_allocator {sizeofEvh mapped : Int} (hpos : 0 < sizeofEvh)
    (hmin : sizeofEvh + sizeofFrb ≤ mapped) (hmax : mapped < 2 ^ 31) {r : Region} {live : List Int}
    (h : Reach Asked sizeofEvh mapped r live) :
    (∃ ts, Tiled sizeofEvh r live ts ∧ (freeTiles sizeofEvh ts).Pairwise (· < ·)) ∧
    (∀ type length block r', type ≠ typeFrb → Asked length →
      allocGlobal r type length = some (block, r') → length ≤ (r'.block block).hdrLength ∧
        ∀ o ∈ live, o + (r'.block o).hdrLength ≤ block ∨ block + (r'.block block).hdrLength ≤ o) ∧
    (∀ type length, 9 ≤ length → length ≤ eventExtendSize →
      r.evhLength + eventExtendSize < 2 ^ 31 → (allocGlobal r type length).isSome) ∧
    ∀ block ∈ live, (freeGlobal r block).isSome := by
  obtain ⟨ts, hts⟩ := h.tiled hpos hmin hmax
  refine ⟨⟨ts, hts, hts.long.freeTiles_sorted _⟩, ?_, ?_, ?_⟩
  · intro type length block r' htype hask hr
    obtain ⟨ts', len, hts', hmem, hlen⟩ := hts.alloc htype hask hr
    refine ⟨?_, fun o ho => ?_⟩
    · rwa [hts'.hdrLength hmem]
    · have hne : o ≠ block := by
        rintro rfl
        exact (nodup_cons.1 hts'.nodup).1 ho
      exact hts'.disjoint (mem_cons_of_mem _ ho) mem_cons_self hne
  · intro type length hlo hhi hgrows
    exact hts.allocGlobal_isSome hts.separate hlo hhi hgrows
  · intro block hlive
    obtain ⟨r', -, hfree, -⟩ := hts.free hlive
    simp [hfree]

/-- A new region with a block that is allocated, another one, and the first one freed. -/
theorem event_region_allocator_free :
    ∃ r, Reach Asked 64 32768 r [32504] ∧
      (∃ ts, Tiled 64 r [32504] ts ∧ (freeTiles 64 ts).Pairwise (· < ·)) ∧
      (freeGlobal r 32504).isSome := by
  have hr : Reach Asked 64 32768 _ [32504] :=
    ((Reach.init.alloc (by decide : (5 : Nat) ≠ typeFrb) (by unfold Asked; decide : Asked 64)
      rfl).alloc
      (by decide : (3 : Nat) ≠ typeFrb) (by unfold Asked; decide : Asked 200) rfl).free
        (mem_cons_of_mem _ mem_cons_self : (32704 : Int) ∈ [32504, 32704]) rfl
  obtain ⟨htiled, -, -, hfree⟩ :=
    event_region_allocator (by decide) (by decide) (by decide) hr
  exact ⟨_, hr, htiled, hfree _ mem_cons_self⟩

/-- A block of eight bytes is too short to be a free one, and the length of a block does not fit
`SLONG` if it is almost as long as an `ULONG` can be. -/
theorem lengths_not_arbitrary :
    (∃ r live, Reach (fun _ => True) 64 32768 r live ∧ r.evhFree = 32760 ∧
      (r.block r.evhFree).hdrLength < sizeofFrb) ∧
    ∃ block r', allocGlobal (initRegion 64 32768) 3 4294967288 = some (block, r') ∧
      (r'.block block).hdrLength < 4294967288 := by
  refine ⟨⟨_, _, ((Reach.init.alloc (by decide : (5 : Nat) ≠ typeFrb) trivial
    (rfl : allocGlobal _ _ 8 = _)).alloc (by decide : (3 : Nat) ≠ typeFrb) trivial
      (rfl : allocGlobal _ _ 32696 = _)).free
        (mem_cons_of_mem _ mem_cons_self : (32760 : Int) ∈ _) rfl, rfl, by decide⟩, ?_⟩
  exact ⟨_, _, rfl, by decide⟩

end Firebird.Jrd.Alloc
