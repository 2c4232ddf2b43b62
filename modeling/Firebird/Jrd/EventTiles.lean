import Mathlib.Data.List.Chain
import Firebird.Lib.Chain
import Firebird.Jrd.EventRegion

/-!
# The blocks of the event table

The blocks of the region lie one behind the other, from its header to its end, and the free ones are
linked in the order of their offsets.
-/
namespace Firebird.Jrd.Alloc

open Lib.Chain List Function
open Event (slong slong_eq)

/-- A block of the region: its length, and if it is free. -/
structure Tile where
  length : Int
  free : Bool

def span (ts : List Tile) : Int := (ts.map Tile.length).sum

@[simp] theorem span_nil : span [] = 0 := rfl

@[simp] theorem span_cons (t : Tile) (ts : List Tile) : span (t :: ts) = t.length + span ts := rfl

@[simp] theorem span_append (as bs : List Tile) : span (as ++ bs) = span as + span bs := by
  simp [span]

def placed : Int → List Tile → List (Int × Tile)
  | _, [] => []
  | start, t :: ts => (start, t) :: placed (start + t.length) ts

theorem placed_append (start : Int) (as bs : List Tile) :
    placed start (as ++ bs) = placed start as ++ placed (start + span as) bs := by
  induction as generalizing start with
  | nil => simp [placed]
  | cons a as ih => simp [placed, ih, Int.add_assoc]

def freeTiles (start : Int) (ts : List Tile) : List Int :=
  ((placed start ts).filter fun p => p.2.free).map Prod.fst

theorem freeTiles_append (start : Int) (as bs : List Tile) :
    freeTiles start (as ++ bs) = freeTiles start as ++ freeTiles (start + span as) bs := by
  simp [freeTiles, placed_append]

theorem freeTiles_cons (start : Int) (t : Tile) (ts : List Tile) : freeTiles start (t :: ts) =
    (if t.free then [start] else []) ++ freeTiles (start + t.length) ts := by
  rw [freeTiles, placed]
  cases ht : t.free <;> simp [ht, freeTiles]

def Long (ts : List Tile) : Prop := ∀ t ∈ ts, sizeofFrb ≤ t.length

theorem Long.append {as bs : List Tile} : Long (as ++ bs) ↔ Long as ∧ Long bs := by
  simp [Long, or_imp, forall_and]

variable {ts : List Tile}

theorem Long.cons {t : Tile} : Long (t :: ts) ↔ sizeofFrb ≤ t.length ∧ Long ts := by
  simp [Long]

theorem Long.span_nonneg (h : Long ts) : 0 ≤ span ts := by
  induction ts with
  | nil => exact Int.le_refl _
  | cons t ts ih =>
    obtain ⟨ht, hts⟩ := Long.cons.1 h
    have := ih hts
    unfold sizeofFrb at ht
    rw [span_cons]
    omega

variable {start : Int}

theorem Long.mem_placed (h : Long ts) {p : Int × Tile}
    (hp : p ∈ placed start ts) : start ≤ p.1 ∧ p.1 + p.2.length ≤ start + span ts := by
  induction ts generalizing start with
  | nil => exact absurd hp not_mem_nil
  | cons t ts ih =>
    obtain ⟨ht, hts⟩ := Long.cons.1 h
    have hnonneg := hts.span_nonneg
    unfold sizeofFrb at ht
    rw [span_cons]
    obtain rfl | hp := mem_cons.1 hp
    · dsimp only
      omega
    · have := ih hts hp
      omega

theorem Long.apart (h : Long ts) :
    (placed start ts).Pairwise fun p q => p.1 + p.2.length ≤ q.1 := by
  induction ts generalizing start with
  | nil => exact .nil
  | cons t ts ih =>
    obtain ⟨-, hts⟩ := Long.cons.1 h
    exact pairwise_cons.2 ⟨fun q hq => (hts.mem_placed hq).1, ih hts⟩

theorem mem_freeTiles {o : Int} :
    o ∈ freeTiles start ts ↔ ∃ t, (o, t) ∈ placed start ts ∧ t.free = true := by
  simp [freeTiles]

theorem mem_of_mem_placed {p : Int × Tile} (hp : p ∈ placed start ts) : p.2 ∈ ts := by
  induction ts generalizing start with
  | nil => exact absurd hp not_mem_nil
  | cons t ts ih =>
    obtain rfl | hp := mem_cons.1 hp
    · exact mem_cons_self
    · exact mem_cons_of_mem t (ih hp)

theorem Long.freeTiles_sorted (h : Long ts) (start : Int) :
    (freeTiles start ts).Pairwise (· < ·) := by
  refine pairwise_map.2 ((h.apart.imp_of_mem fun {p q} hp _ hpq => ?_).filter _)
  have hlen := h p.2 (mem_of_mem_placed hp)
  unfold sizeofFrb at hlen
  omega

theorem Long.freeTiles_nodup (h : Long ts) (start : Int) :
    (freeTiles start ts).Nodup := (h.freeTiles_sorted start).imp fun h => Int.ne_of_lt h

theorem Long.freeTiles_bounds (h : Long ts) {o : Int}
    (ho : o ∈ freeTiles start ts) : start ≤ o ∧ o + sizeofFrb ≤ start + span ts := by
  obtain ⟨t, ht, -⟩ := mem_freeTiles.1 ho
  have hbounds := h.mem_placed ht
  have hlen := h t (mem_of_mem_placed ht)
  dsimp only at hbounds
  omega

/-! ## The region and its tiles -/

def Header (block : Int → Frb) (p : Int × Tile) : Prop :=
  (block p.1).hdrLength = p.2.length ∧ ((block p.1).hdrType = typeFrb ↔ p.2.free = true)

def Headers (block : Int → Frb) (start : Int) (ts : List Tile) : Prop :=
  ∀ p ∈ placed start ts, Header block p

variable {block : Int → Frb}

theorem Headers.append {as bs : List Tile} : Headers block start (as ++ bs) ↔
      Headers block start as ∧ Headers block (start + span as) bs := by
  unfold Headers
  rw [placed_append]
  exact forall_mem_append

theorem Headers.cons {t : Tile} : Headers block start (t :: ts) ↔
      Header block (start, t) ∧ Headers block (start + t.length) ts := forall_mem_cons

theorem Headers.congr {block' : Int → Frb}
    (h : Headers block start ts) (hlong : Long ts)
    (hagree : ∀ o, start ≤ o → o < start + span ts → (block' o).hdrLength = (block o).hdrLength ∧
      (block' o).hdrType = (block o).hdrType) : Headers block' start ts := by
  intro p hp
  have hbounds := hlong.mem_placed hp
  have hlen := hlong p.2 (mem_of_mem_placed hp)
  unfold sizeofFrb at hlen
  obtain ⟨hl, ht⟩ := hagree p.1 hbounds.1 (by omega)
  unfold Header
  rw [hl, ht]
  exact h p hp

structure Tiles (start : Int) (r : Region) (ts : List Tile) : Prop where
  pos : 0 < start
  long : Long ts
  length : r.evhLength = start + span ts
  bound : r.evhLength < 2 ^ 31
  headers : Headers r.block start ts
  linked : Linked 0 r.link none (freeTiles start ts)

@[simp] theorem link_setLink (r : Region) (ptr q : Option Int) (next : Int) :
    (r.setLink ptr next).link q = if q = ptr then next else r.link q := by
  cases ptr <;> cases q <;> simp [Region.setLink, Region.link, update_apply]
  split_ifs with h
  · rfl
  · rfl

@[simp] theorem link_setBlock (r : Region) (offset : Int) (b : Frb) (q : Option Int) :
    (r.setBlock offset b).link q = if q = some offset then b.frbNext else r.link q := by
  cases q <;> simp [Region.setBlock, Region.link, update_apply]
  split_ifs with h
  · rfl
  · rfl

@[simp] theorem block_setBlock (r : Region) (offset o : Int) (b : Frb) :
    (r.setBlock offset b).block o = if o = offset then b else r.block o := by
  simp [Region.setBlock, update_apply]

theorem header_setLink (r : Region) (ptr : Option Int) (next o : Int) :
    ((r.setLink ptr next).block o).hdrLength = (r.block o).hdrLength ∧
      ((r.setLink ptr next).block o).hdrType = (r.block o).hdrType := by
  cases ptr with
  | none => exact ⟨rfl, rfl⟩
  | some p =>
    simp only [Region.setLink, update_apply]
    split_ifs with h
    · exact ⟨congrArg (fun o => (r.block o).hdrLength) h.symm,
        congrArg (fun o => (r.block o).hdrType) h.symm⟩
    · exact ⟨rfl, rfl⟩

@[simp] theorem evhLength_setLink (r : Region) (ptr : Option Int) (next : Int) :
    (r.setLink ptr next).evhLength = r.evhLength := by
  cases ptr <;> rfl

@[simp] theorem evhLength_setBlock (r : Region) (offset : Int) (b : Frb) :
    (r.setBlock offset b).evhLength = r.evhLength := rfl

section Take

variable {start n length : Int} {r : Region} {as bs : List Tile}

theorem freeTiles_free : freeTiles start (as ++ ⟨n, true⟩ :: bs) =
    freeTiles start as ++ (start + span as) :: freeTiles (start + span as + n) bs := by
  rw [freeTiles_append, freeTiles_cons]
  rfl

theorem freeTiles_used : freeTiles start (as ++ ⟨n, false⟩ :: bs) =
    freeTiles start as ++ freeTiles (start + span as + n) bs := by
  rw [freeTiles_append, freeTiles_cons]
  rfl

variable (h : Tiles start r (as ++ ⟨n, true⟩ :: bs))

include h

theorem Tiles.link_last : r.link (lastLink none (freeTiles start as)) = start + span as := by
  have hlinked := h.linked
  rw [freeTiles_free] at hlinked
  exact (linked_append.1 hlinked).2.1

theorem Tiles.takeWhole {type : Nat} (htype : type ≠ typeFrb) :
    Tiles start ((r.setLink (lastLink none (freeTiles start as))
      (r.block (start + span as)).frbNext).setBlock
      (start + span as) { (r.setLink (lastLink none (freeTiles start as))
        (r.block (start + span as)).frbNext).block (start + span as) with
          hdrType := type, frbNext := 0 })
      (as ++ ⟨n, false⟩ :: bs) := by
  obtain ⟨hla, hlb⟩ := Long.append.1 h.long
  obtain ⟨hn, hlb⟩ := Long.cons.1 hlb
  obtain ⟨hha, hhb⟩ := Headers.append.1 h.headers
  obtain ⟨ho, hhb⟩ := Headers.cons.1 hhb
  have hnd := h.long.freeTiles_nodup start
  have hlinked := h.linked
  rw [freeTiles_free] at hnd hlinked
  unfold sizeofFrb at hn
  refine ⟨h.pos, Long.append.2 ⟨hla, Long.cons.2 ⟨hn, hlb⟩⟩, ?_, ?_, ?_, ?_⟩
  · simpa using h.length
  · simpa using h.bound
  · refine Headers.append.2 ⟨hha.congr hla fun o _ ho' => ?_, Headers.cons.2 ⟨?_, hhb.congr hlb
      fun o ho' _ => ?_⟩⟩
    · rw [block_setBlock, if_neg (by omega)]
      exact header_setLink _ _ _ _
    · simp only [Header, block_setBlock]
      exact ⟨(header_setLink _ _ _ _).1.trans ho.1, by simpa using htype⟩
    · rw [block_setBlock, if_neg (by omega)]
      exact header_setLink _ _ _ _
  · rw [freeTiles_used]
    refine hlinked.remove hnd ?_ fun q hq hq' => ?_
    · rw [link_setBlock, if_neg (lastLink_ne hnd _ mem_cons_self).symm, link_setLink, if_pos rfl]
      rfl
    · rw [link_setBlock, if_neg hq, link_setLink, if_neg hq']

theorem Tiles.takeRest {type : Nat} (htype : type ≠ typeFrb) (hlength : sizeofFrb ≤ length)
    (hrest : sizeofFrb ≤ n - length) :
    Tiles start ((r.setBlock (start + span as) { r.block (start + span as) with
        hdrLength := n - length }).setBlock (start + span as + (n - length)) ⟨length, type, 0⟩)
      (as ++ ⟨n - length, true⟩ :: ⟨length, false⟩ :: bs) := by
  obtain ⟨hla, hlb⟩ := Long.append.1 h.long
  obtain ⟨hn, hlb⟩ := Long.cons.1 hlb
  obtain ⟨hha, hhb⟩ := Headers.append.1 h.headers
  obtain ⟨ho, hhb⟩ := Headers.cons.1 hhb
  have hlinked := h.linked
  have hsplit : start + span as + (n - length) + length = start + span as + n := by omega
  dsimp only at hhb
  have hrest' := hrest
  have hlength' := hlength
  unfold sizeofFrb at hrest' hlength'
  refine ⟨h.pos, Long.append.2 ⟨hla, Long.cons.2 ⟨hrest, Long.cons.2 ⟨hlength, hlb⟩⟩⟩, ?_, ?_, ?_,
    ?_⟩
  · have := h.length
    simp only [span_append, span_cons, evhLength_setBlock] at this ⊢
    omega
  · exact h.bound
  · refine Headers.append.2 ⟨hha.congr hla fun o _ ho' => ?_, Headers.cons.2
      ⟨?_, Headers.cons.2 ⟨?_,
      ?_⟩⟩⟩
    · rw [block_setBlock, if_neg (by omega), block_setBlock, if_neg (by omega)]
      exact ⟨rfl, rfl⟩
    · unfold Header
      rw [block_setBlock, if_neg (by omega), block_setBlock, if_pos rfl]
      exact ⟨rfl, ho.2⟩
    · unfold Header
      rw [block_setBlock, if_pos rfl]
      exact ⟨rfl, by simpa using htype⟩
    · dsimp only
      rw [hsplit]
      refine hhb.congr hlb fun o ho' _ => ?_
      rw [block_setBlock, if_neg (by omega), block_setBlock, if_neg (by omega)]
      exact ⟨rfl, rfl⟩
  · have heq : freeTiles start (as ++ ⟨n - length, true⟩ :: ⟨length, false⟩ :: bs) =
        freeTiles start (as ++ ⟨n, true⟩ :: bs) := by
      rw [freeTiles_free, freeTiles_free, freeTiles_cons]
      rw [hsplit]
      rfl
    have hother : ∀ o ∈ freeTiles start (as ++ ⟨n, true⟩ :: bs), o ≠ start + span as +
      (n - length) := by
      intro o hmem
      rw [freeTiles_free, mem_append, mem_cons] at hmem
      obtain hmem | rfl | hmem := hmem
      · have := hla.freeTiles_bounds hmem
        unfold sizeofFrb at this
        omega
      · omega
      · have := hlb.freeTiles_bounds hmem
        omega
    have hlink : ∀ q, q ≠ some (start + span as + (n - length)) →
        ((r.setBlock (start + span as) { r.block (start + span as) with
          hdrLength := n - length }).setBlock (start + span as + (n - length))
            ⟨length, type, 0⟩).link q = r.link q := by
      intro q hq
      rw [link_setBlock, if_neg hq, link_setBlock]
      split_ifs with hq'
      · rw [hq']
        rfl
      · rfl
    rw [heq]
    exact hlinked.congr (hlink none (fun h => nomatch h)) fun o hmem =>
      hlink (some o) fun h => hother o hmem (Option.some.inj h)

end Take

section Release

variable {start n m : Int} {r : Region} {as bs : List Tile}

theorem Tiles.release (h : Tiles start r (as ++ ⟨n, false⟩ :: bs)) :
    Tiles start ((r.setBlock (start + span as) { r.block (start + span as) with
        hdrType := typeFrb, frbNext := r.link (lastLink none (freeTiles start as)) }).setLink
      (lastLink none (freeTiles start as)) (start + span as)) (as ++ ⟨n, true⟩ :: bs) := by
  obtain ⟨hla, hlb⟩ := Long.append.1 h.long
  obtain ⟨hn, hlb⟩ := Long.cons.1 hlb
  obtain ⟨hha, hhb⟩ := Headers.append.1 h.headers
  obtain ⟨ho, hhb⟩ := Headers.cons.1 hhb
  have hnd := h.long.freeTiles_nodup start
  have hlinked := h.linked
  have hpos := h.pos
  have hspan := hla.span_nonneg
  rw [freeTiles_used] at hnd hlinked
  dsimp only at hn hhb
  unfold sizeofFrb at hn
  have hmem : start + span as ∉ freeTiles start as ++ freeTiles (start + span as + n) bs := by
    intro hmem
    obtain hmem | hmem := mem_append.1 hmem
    · have := hla.freeTiles_bounds hmem
      unfold sizeofFrb at this
      omega
    · have := hlb.freeTiles_bounds hmem
      omega
  have hne : lastLink none (freeTiles start as) ≠ some (start + span as) := by
    intro heq
    obtain ⟨h', -⟩ | ⟨a, ha, h'⟩ := @lastLink_mem _ none (freeTiles start as)
    · exact nomatch h'.symm.trans heq
    · cases h'.symm.trans heq
      exact hmem (mem_append_left _ ha)
  refine ⟨h.pos, Long.append.2 ⟨hla, Long.cons.2 ⟨hn, hlb⟩⟩, ?_, ?_, ?_, ?_⟩
  · simpa using h.length
  · simpa using h.bound
  · refine Headers.append.2 ⟨hha.congr hla fun o _ ho' => ?_, Headers.cons.2 ⟨?_, hhb.congr hlb
      fun o ho' _ => ?_⟩⟩
    · rw [(header_setLink _ _ _ _).1, (header_setLink _ _ _ _).2, block_setBlock, if_neg (by omega)]
      exact ⟨rfl, rfl⟩
    · unfold Header
      rw [(header_setLink _ _ _ _).1, (header_setLink _ _ _ _).2, block_setBlock, if_pos rfl]
      exact ⟨ho.1, by simp⟩
    · rw [(header_setLink _ _ _ _).1, (header_setLink _ _ _ _).2, block_setBlock, if_neg (by omega)]
      exact ⟨rfl, rfl⟩
  · rw [freeTiles_free]
    refine hlinked.insert hnd hmem (by omega) ?_ ?_ fun q hq hq' => ?_
    · rw [link_setLink, if_neg hne.symm, link_setBlock, if_pos rfl]
    · rw [link_setLink, if_pos rfl]
    · rw [link_setLink, if_neg hq', link_setBlock, if_neg hq]

theorem Tiles.merge (h : Tiles start r (as ++ ⟨m, true⟩ :: ⟨n, true⟩ :: bs)) :
    Tiles start (mergeBlock r (start + span as) (start + span as + m))
      (as ++ ⟨m + n, true⟩ :: bs) := by
  obtain ⟨hla, hlb⟩ := Long.append.1 h.long
  obtain ⟨hm, hlb⟩ := Long.cons.1 hlb
  obtain ⟨hn, hlb⟩ := Long.cons.1 hlb
  obtain ⟨hha, hhb⟩ := Headers.append.1 h.headers
  obtain ⟨ho, hhb⟩ := Headers.cons.1 hhb
  obtain ⟨ho', hhb⟩ := Headers.cons.1 hhb
  have hsum : slong ((r.block (start + span as)).hdrLength +
      (r.block (start + span as + m)).hdrLength) = m + n := by
    have hlen := h.length
    have hbound := h.bound
    have hpos := h.pos
    have hnonneg := hla.span_nonneg
    have hnonneg' := hlb.span_nonneg
    unfold sizeofFrb at hm hn
    simp only [span_append, span_cons] at hlen
    rw [ho.1, ho'.1]
    exact slong_eq (by dsimp only at *; omega) (by dsimp only; omega)
  unfold mergeBlock
  rw [hsum]
  have hnd := h.long.freeTiles_nodup start
  have hlinked := h.linked
  have hsplit : start + span as + m + n = start + span as + (m + n) := by omega
  rw [freeTiles_free, freeTiles_cons] at hnd hlinked
  dsimp only at hm hn hhb hnd hlinked
  rw [hsplit] at hnd hlinked hhb
  unfold sizeofFrb at hm hn
  refine ⟨h.pos, Long.append.2 ⟨hla, Long.cons.2 ⟨?_, hlb⟩⟩, ?_, h.bound, ?_, ?_⟩
  · unfold sizeofFrb
    dsimp only
    omega
  · have := h.length
    simp only [span_append, span_cons, evhLength_setBlock] at this ⊢
    omega
  · refine Headers.append.2 ⟨hha.congr hla fun o _ ho' => ?_, Headers.cons.2 ⟨?_, hhb.congr hlb
      fun o ho' _ => ?_⟩⟩
    · rw [block_setBlock, if_neg (by omega)]
      exact ⟨rfl, rfl⟩
    · unfold Header
      rw [block_setBlock, if_pos rfl]
      exact ⟨rfl, ho.2⟩
    · rw [block_setBlock, if_neg (by omega)]
      exact ⟨rfl, rfl⟩
  · have hlist : ∀ os : List Int, freeTiles start as ++ (start + span as) :: os =
        (freeTiles start as ++ [start + span as]) ++ os := fun os => (append_cons _ _ _)
    rw [hlist] at hnd hlinked
    rw [freeTiles_free, hlist]
    refine hlinked.remove hnd ?_ fun q _ hq => ?_
    · rw [lastLink_append, link_setBlock, if_pos rfl]
      rfl
    · rw [lastLink_append] at hq
      rw [link_setBlock, if_neg hq]

/-- The offsets and the lengths of the blocks that are not free. -/
def used (start : Int) (ts : List Tile) : List (Int × Int) :=
  ((placed start ts).filter fun p => !p.2.free).map fun p => (p.1, p.2.length)

@[simp] theorem used_nil (start : Int) : used start [] = [] := rfl

theorem used_append (start : Int) (as bs : List Tile) :
    used start (as ++ bs) = used start as ++ used (start + span as) bs := by
  simp [used, placed_append]

theorem used_cons (start : Int) (t : Tile) (ts : List Tile) : used start (t :: ts) =
    (if t.free then [] else [(start, t.length)]) ++ used (start + t.length) ts := by
  rw [used, placed]
  cases ht : t.free <;> simp [ht, used]

def Separate (ts : List Tile) : Prop := ts.IsChain fun a b => ¬(a.free = true ∧ b.free = true)

theorem Long.length_le {ts : List Tile} (h : Long ts) (start : Int) :
    ((freeTiles start ts).length : Int) ≤ span ts := by
  induction ts generalizing start with
  | nil => exact Int.le_refl _
  | cons t ts ih =>
    obtain ⟨ht, hts⟩ := Long.cons.1 h
    have := ih hts (start + t.length)
    unfold sizeofFrb at ht
    rw [freeTiles_cons, span_cons, length_append]
    split_ifs <;> simp <;> omega

theorem findPrior_eq {block : Int} {os rest : List Int} {fuel : Nat} {p : Option Int}
    (h : Linked 0 r.link p (os ++ rest)) (hos : ∀ o ∈ os, ¬block < o)
    (hrest : ∀ o ∈ rest, block < o) (hfuel : os.length < fuel) :
    findPrior r block fuel p p = some (lastLink p os, lastLink p os) := by
  induction os generalizing p fuel with
  | nil =>
    obtain ⟨fuel, rfl⟩ := Nat.exists_eq_succ_of_ne_zero (Nat.ne_of_gt hfuel)
    refine if_pos ?_
    cases rest with
    | nil => exact .inl h
    | cons o rest => exact .inr (h.1 ▸ hrest o mem_cons_self)
  | cons o os ih =>
    obtain ⟨fuel, rfl⟩ := Nat.exists_eq_succ_of_ne_zero (Nat.ne_of_gt (Nat.zero_lt_of_lt hfuel))
    unfold findPrior
    rw [h.1, if_neg (not_or.2 ⟨h.2.1, hos o mem_cons_self⟩)]
    exact ih h.2.2 (fun a ha => hos a (mem_cons_of_mem o ha)) (Nat.lt_of_succ_lt_succ hfuel)

end Release

end Firebird.Jrd.Alloc
