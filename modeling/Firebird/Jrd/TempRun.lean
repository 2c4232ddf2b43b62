import Mathlib.Logic.Relation
import Firebird.Jrd.TempAtomic

/-!
# Callers of temporary space

Any sequence of calls of `allocateSpace`, `releaseSpace` and `allocateBatch`, with the segments that
the callers hold. A caller gives back a segment or the end of one. `allocateSpace` raises where
`extend` does, and the space that it has added by then is lost; `allocateBatch` is made for chunks
that are not smaller than the alignment.
-/
namespace Firebird.Jrd.Temp

open Common

variable (minBlockSize alignment : Nat)

structure Held where
  growing : Growing
  used : List Segment

inductive Request
  | allocateSpace (env : Env) (size : Nat)
  | releaseSpace (position size : Nat)
  | allocateBatch (count minSize maxSize : Nat)

/-- A call, which may raise. The position that `allocateSpace` returns does not depend on the place
of a new block. -/
inductive Step : Held → Request → Held → Prop
  | allocateSpace {g g' : Growing} {used : List Segment} {ok : Bool} (env : Env) (size : Nat) :
      g.call minBlockSize alignment env (.allocateSpace size) = (ok, g') →
      Step ⟨g, used⟩ (.allocateSpace env size) ⟨g', if ok then
        used ++ [⟨(allocateSpace minBlockSize g.space (.file 0) size).1, size⟩] else used⟩
  | releaseSpace {g : Growing} {u₁ u₂ : List Segment} {seg : Segment} {position size : Nat} :
      0 < size → seg.position ≤ position → position + size = seg.position + seg.size →
      Step ⟨g, u₁ ++ seg :: u₂⟩ (.releaseSpace position size)
        ⟨g.finish minBlockSize alignment (.releaseSpace position size),
          u₁ ++ ⟨seg.position, position - seg.position⟩ :: u₂⟩
  | allocateBatch {g : Growing} {s' : TempSpace} {used : List Segment}
      {segments : List SegmentInMemory} {count minSize maxSize : Nat} :
      allocateBatch minBlockSize alignment g.space count minSize maxSize = some (s', segments) →
      Step ⟨g, used⟩ (.allocateBatch count minSize maxSize)
        ⟨g.finish minBlockSize alignment (.allocateBatch count minSize maxSize),
          used ++ segments.map SegmentInMemory.segment⟩

/-- The condition for a call: there is room for it, or its chunks are not smaller than the
alignment. -/
def Request.Meets (g : Growing) : Request → Prop
  | .allocateSpace env size => g.HasRoom env (.allocateSpace size)
  | .releaseSpace _ _ => True
  | .allocateBatch count minSize maxSize => 0 < count ∧
      alignment ≤ max (min ((g.space.freeSegments.items.map Segment.size).sum / count) maxSize)
        minSize

/-- The free segments are sorted, and tile the space with those that are held. -/
structure Held.Valid (h : Held) : Prop where
  sorted : Sorted h.growing.space.freeSegments.items
  tiles : Tiles h.growing.space.freeSegments.items h.used h.growing.space.logicalSize

variable {minBlockSize alignment}

theorem chunkSize_pos {k : Nat} (halign : alignment = 2 ^ k) (hblock : alignment ≤ minBlockSize)
    {s : TempSpace} {count minSize maxSize : Nat}
    (hmin : alignment ≤ max (min ((s.freeSegments.items.map Segment.size).sum / count) maxSize)
      minSize) :
    0 < chunkSize minBlockSize alignment s count minSize maxSize := by
  rw [chunkSize]
  generalize hx : min (max (min ((s.freeSegments.items.map Segment.size).sum / count) maxSize)
    minSize)
    minBlockSize = x
  subst halign
  simp only [Nat.and_two_pow_sub_one_eq_mod]
  omega

theorem allocateBatch_spec {s : TempSpace} {used : List Segment} {count minSize maxSize : Nat}
    (hpos : 0 < chunkSize minBlockSize alignment s count minSize maxSize)
    (hs : Sorted s.freeSegments.items) (ht : Tiles s.freeSegments.items used s.logicalSize) :
    ∃ s' segments,
      allocateBatch minBlockSize alignment s count minSize maxSize = some (s', segments) ∧
      Sorted s'.freeSegments.items ∧
      Tiles s'.freeSegments.items (used ++ segments.map SegmentInMemory.segment)
        s'.logicalSize := by
  rw [allocateBatch]
  simp only [BePlusTree.getFirst]
  have ht' : Tiles s.freeSegments.items (used ++ ([] : List SegmentInMemory).map
      SegmentInMemory.segment) s.logicalSize := by simpa using ht
  by_cases hempty : (!s.freeSegments.items.isEmpty) = true
  · simp only [hempty]
    refine batchLoop_spec hpos hs ht' ?_
    simp only [List.length_nil]
    omega
  · simp only [hempty]
    exact ⟨_, _, rfl, hs, ht'⟩

theorem Growing.place_free (g : Growing) (env : Env) (s : TempSpace) (size : Nat) :
    (g.place env s size).2.space.logicalSize = s.logicalSize ∧
      (g.place env s size).2.space.freeSegments = s.freeSegments := by
  rw [Growing.place]
  cases env.memory with
  | some fresh => exact ⟨appendBlock_logicalSize .., appendBlock_freeSegments ..⟩
  | none =>
    obtain ⟨found, files, dirs⟩ := findRoom env.directories s.tempFiles g.fileDirs
    cases found with
    | some index => exact ⟨appendBlock_logicalSize .., appendBlock_freeSegments ..⟩
    | none => exact ⟨rfl, rfl⟩

theorem Growing.extend_free (g : Growing) (env : Env) (size : Nat) :
    (g.extend minBlockSize env size).2.space.logicalSize = g.space.logicalSize + size ∧
      (g.extend minBlockSize env size).2.space.freeSegments = g.space.freeSegments := by
  simp only [Growing.extend]
  split_ifs
  · exact ⟨rfl, rfl⟩
  · exact g.place_free env _ _
  · exact g.place_free env _ _
  · exact ⟨rfl, rfl⟩

theorem Growing.call_allocateSpace {g g' : Growing} {env : Env} {size : Nat} {ok : Bool}
    (hcall : g.call minBlockSize alignment env (.allocateSpace size) = (ok, g')) :
    (ok = true → g'.space.freeSegments =
        (Temp.allocateSpace minBlockSize g.space (.file 0) size).2.freeSegments ∧
      g'.space.logicalSize =
        (Temp.allocateSpace minBlockSize g.space (.file 0) size).2.logicalSize) ∧
    (ok = false → g'.space.freeSegments = g.space.freeSegments ∧
      g'.space.logicalSize = g.space.logicalSize + size) := by
  rw [Growing.call, Growing.growth] at hcall
  cases hbest : findBest size g.space.freeSegments.items 0 none with
  | some best =>
    simp only [hbest, Option.isSome_some, if_true, Growing.finish, Prod.mk.injEq] at hcall
    obtain ⟨rfl, rfl⟩ := hcall
    exact ⟨fun _ => ⟨rfl, rfl⟩, fun h => absurd h (by simp)⟩
  | none =>
    obtain ⟨hlog, hfree⟩ := @Growing.extend_free minBlockSize g env size
    simp only [hbest, Option.isSome_none, Bool.false_eq_true, if_false, Growing.finish, hfree]
      at hcall
    split_ifs at hcall with hok
    · obtain ⟨rfl, rfl⟩ := Prod.mk.inj hcall
      refine ⟨fun _ => ?_, fun h => absurd h (by simp)⟩
      simp only [Temp.allocateSpace, hbest, extend_freeSegments, extend_logicalSize]
      exact ⟨hfree, hlog⟩
    · obtain ⟨rfl, rfl⟩ := Prod.mk.inj hcall
      exact ⟨fun h => absurd h (by simp), fun _ => ⟨hfree, hlog⟩⟩

theorem not_tiles_extended {free used : List Segment} {logicalSize size : Nat} (hpos : 0 < size)
    (ht : Tiles free used logicalSize) : ¬ Tiles free used (logicalSize + size) := by
  intro ht'
  have hbefore := ht logicalSize
  rw [ht' logicalSize, if_pos (by omega), if_neg (by omega)] at hbefore
  exact absurd hbefore (by decide)

theorem allocateSpace_valid_iff {h h' : Held} {env : Env} {size : Nat} (hv : h.Valid)
    (hsound : h.growing.Sound)
    (hstep : Step minBlockSize alignment h (.allocateSpace env size) h') :
    h'.Valid ↔ h.growing.HasRoom env (.allocateSpace size) := by
  obtain ⟨hs, ht⟩ := hv
  cases hstep with
  | @allocateSpace g g' used ok _ _ hcall =>
    obtain ⟨htrue, hfalse⟩ := Growing.call_allocateSpace hcall
    by_cases hroom : g.HasRoom env (.allocateSpace size)
    · refine iff_of_true ?_ hroom
      have hok := (@Growing.Sound.call_room minBlockSize alignment g env (.allocateSpace size)
        hsound
        trivial hroom).1
      rw [hcall] at hok
      obtain rfl : ok = true := hok
      obtain ⟨hfree, hlog⟩ := htrue rfl
      have hspec := @allocateSpace_spec minBlockSize used g.space hs ht (.file 0) size
      rw [← hfree, ← hlog] at hspec
      exact ⟨hspec.1, hspec.2⟩
    · refine iff_of_false (fun hv' => ?_) hroom
      have hok := (@Growing.Sound.call_noRoom minBlockSize alignment g env (.allocateSpace size)
        hsound hroom).1
      rw [hcall] at hok
      obtain rfl : ok = false := hok
      obtain ⟨hfree, hlog⟩ := hfalse rfl
      have hsize : 0 < size := by
        by_contra hzero
        refine hroom fun size' hgrowth => .inl ?_
        obtain rfl : size = size' := by
          simp only [Growing.growth] at hgrowth
          split_ifs at hgrowth
          exact Option.some.inj hgrowth
        have hle : g.space.logicalSize ≤ g.space.physicalSize := hsound.wf.logical
        omega
      have htiles := hv'.tiles
      dsimp only at htiles
      rw [hfree, hlog] at htiles
      exact not_tiles_extended hsize ht htiles

theorem Step.valid {k : Nat} (halign : alignment = 2 ^ k) (hblock : alignment ≤ minBlockSize)
    {h h' : Held} {r : Request} (hstep : Step minBlockSize alignment h r h')
    (hmeets : r.Meets alignment h.growing) (hv : h.Valid) (hsound : h.growing.Sound) :
    h'.Valid ∧ h'.growing.Sound := by
  cases r with
  | allocateSpace env size =>
    refine ⟨(allocateSpace_valid_iff hv hsound hstep).2 hmeets, ?_⟩
    cases hstep with
    | allocateSpace _ _ hcall =>
      have hnext := (@Growing.Sound.call_room minBlockSize alignment _ env (.allocateSpace size)
        hsound trivial hmeets).2
      rwa [hcall] at hnext
  | releaseSpace position size =>
    cases hstep with
    | releaseSpace hsize hpos hend =>
      obtain ⟨hs', ht'⟩ := releaseSpace_spec hv.sorted hv.tiles hsize hpos hend
      exact ⟨⟨hs', ht'⟩, @Growing.Sound.finish minBlockSize alignment _ hsound
        (.releaseSpace position size) (by simp)⟩
  | allocateBatch count minSize maxSize =>
    cases hstep with
    | allocateBatch hbatch =>
      obtain ⟨s', segments, hbatch', hs', ht'⟩ :=
        allocateBatch_spec (chunkSize_pos halign hblock hmeets.2) hv.sorted hv.tiles
      obtain ⟨rfl, rfl⟩ := Prod.mk.inj (Option.some.inj (hbatch.symm.trans hbatch'))
      refine ⟨?_, @Growing.Sound.finish minBlockSize alignment _ hsound
        (.allocateBatch count minSize maxSize) (by simp)⟩
      rw [Growing.finish, hbatch]
      exact ⟨hs', ht'⟩

theorem new_valid (dynamic : Bool) : Held.Valid ⟨Growing.new dynamic, []⟩ :=
  ⟨Sorted.nil, fun x => by simp [Growing.new, new]⟩

theorem pairwise_of_cover {segs : List Segment} (h : ∀ x, cover segs x ≤ 1) :
    segs.Pairwise fun a b => ∀ x, ¬ (a.Contains x ∧ b.Contains x) := by
  induction segs with
  | nil => exact List.Pairwise.nil
  | cons seg segs ih =>
    refine List.pairwise_cons.mpr ⟨fun b hb x hx => ?_, ih fun x => ?_⟩
    · have hcover := h x
      have hpos := cover_pos hb hx.2
      rw [cover_cons, if_pos hx.1] at hcover
      omega
    · have hcover := h x
      rw [cover_cons] at hcover
      omega

variable (minBlockSize alignment) in
def Runs : Held → Held → Prop :=
  Relation.ReflTransGen fun h h' =>
    ∃ r, Step minBlockSize alignment h r h' ∧ r.Meets alignment h.growing

/-- After any calls that meet the condition the free segments are sorted, not empty and not
adjacent, and tile the space with the segments that are held; none of them overlap. `allocateBatch`
always returns, and the next `allocateSpace` keeps the tiles if and only if there is room for it. -/
theorem segments_tile {k : Nat} (halign : alignment = 2 ^ k) (hblock : alignment ≤ minBlockSize)
    {dynamic : Bool} {h : Held} (hrun : Runs minBlockSize alignment ⟨Growing.new dynamic, []⟩ h) :
    Sorted h.growing.space.freeSegments.items ∧
      Tiles h.growing.space.freeSegments.items h.used h.growing.space.logicalSize ∧
      (h.growing.space.freeSegments.items ++ h.used).Pairwise
        (fun a b => ∀ x, ¬ (a.Contains x ∧ b.Contains x)) ∧
      (∀ count minSize maxSize, Request.Meets alignment h.growing
          (.allocateBatch count minSize maxSize) →
        (allocateBatch minBlockSize alignment h.growing.space count minSize maxSize).isSome) ∧
      ∀ env size h', Step minBlockSize alignment h (.allocateSpace env size) h' →
        (h'.Valid ↔ h.growing.HasRoom env (.allocateSpace size)) := by
  obtain ⟨hv, hsound⟩ : h.Valid ∧ h.growing.Sound := by
    induction hrun with
    | refl => exact ⟨new_valid dynamic, sound_new dynamic⟩
    | tail _ hstep ih =>
      obtain ⟨r, hstep, hmeets⟩ := hstep
      exact hstep.valid halign hblock hmeets ih.1 ih.2
  refine ⟨hv.sorted, hv.tiles, pairwise_of_cover fun x => ?_, fun count minSize maxSize hmeets =>
    ?_,
    fun env size h' hstep => allocateSpace_valid_iff hv hsound hstep⟩
  · rw [cover_append, hv.tiles x]
    split <;> omega
  · obtain ⟨s', segments, hbatch, -⟩ :=
      @allocateBatch_spec minBlockSize alignment h.growing.space h.used count minSize maxSize
        (chunkSize_pos halign hblock hmeets.2) hv.sorted hv.tiles
    rw [hbatch]
    rfl

def roomy : Env := ⟨some fun _ => 0, fun _ => 0, []⟩

/-- A space of 100 bytes, of which the last 60 have been given back. -/
def givenBack : Growing :=
  ((Growing.new true).call minTempBlockSize 8 roomy (.allocateSpace 100)).2.finish minTempBlockSize
    8
    (.releaseSpace 40 60)

theorem runs_givenBack : Runs minTempBlockSize 8 ⟨Growing.new true, []⟩ ⟨givenBack, [⟨0, 40⟩]⟩ := by
  have hcall : (Growing.new true).call minTempBlockSize 8 roomy (.allocateSpace 100) =
      (true, ((Growing.new true).call minTempBlockSize 8 roomy (.allocateSpace 100)).2) := rfl
  refine .tail (.tail .refl ⟨.allocateSpace roomy 100, .allocateSpace roomy 100 hcall, ?_⟩)
    ⟨.releaseSpace 40 60, @Step.releaseSpace _ _ _ [] [] ⟨0, 100⟩ 40 60 (by decide) (by decide)
      (by decide), trivial⟩
  exact fun _ _ => .inr (.inr (.inl rfl))

/-- A chunk of what was given back is taken. -/
theorem segments_tile_givenBack :
    let s := (givenBack.finish minTempBlockSize 8 (.allocateBatch 1 16 16)).space
    s.freeSegments.items = [⟨56, 44⟩] ∧ Sorted s.freeSegments.items ∧
      Tiles s.freeSegments.items [⟨0, 40⟩, ⟨40, 16⟩] s.logicalSize := by
  intro s
  have hchunk : (allocateBatch minTempBlockSize 8 givenBack.space 1 16 16).map Prod.snd =
      some [⟨(0, 40), 40, 16⟩] := by decide +kernel
  obtain ⟨⟨s', segments⟩, hbatch, hsegments⟩ := Option.map_eq_some_iff.1 hchunk
  obtain rfl : segments = [⟨(0, 40), 40, 16⟩] := hsegments
  have hrun : Runs minTempBlockSize 8 ⟨Growing.new true, []⟩
      ⟨givenBack.finish minTempBlockSize 8 (.allocateBatch 1 16 16), [⟨0, 40⟩, ⟨40, 16⟩]⟩ :=
    .tail runs_givenBack ⟨.allocateBatch 1 16 16, .allocateBatch hbatch, by decide,
      by decide +kernel⟩
  obtain ⟨hs, ht, -⟩ := @segments_tile _ _ 3 rfl (by decide) _ _ hrun
  exact ⟨by decide +kernel, hs, ht⟩

/-- A block in a file and one in memory, both given back. -/
def fileThenMemory : Growing :=
  let g := ((Growing.new false).call minTempBlockSize 8 ⟨none, fun _ => 0, [(0, ⟨true, none⟩)]⟩
    (.allocateSpace 65536)).2
  let g := (g.call minTempBlockSize 8 roomy (.allocateSpace 65536)).2
  (g.finish minTempBlockSize 8 (.releaseSpace 0 65536)).finish minTempBlockSize 8
    (.releaseSpace 65536 65536)

def AnyRuns : Held → Held → Prop :=
  Relation.ReflTransGen fun h h' => ∃ r, Step minTempBlockSize 8 h r h'

theorem anyRuns_fileThenMemory :
    AnyRuns ⟨Growing.new false, []⟩ ⟨fileThenMemory, [⟨0, 0⟩, ⟨65536, 0⟩]⟩ := by
  have hfile : (Growing.new false).call minTempBlockSize 8 ⟨none, fun _ => 0, [(0, ⟨true, none⟩)]⟩
      (.allocateSpace 65536) = (true, ((Growing.new false).call minTempBlockSize 8
        ⟨none, fun _ => 0, [(0, ⟨true, none⟩)]⟩ (.allocateSpace 65536)).2) := rfl
  have hmemory (g : Growing) (hok : (g.call minTempBlockSize 8 roomy (.allocateSpace 65536)).1 =
      true) : g.call minTempBlockSize 8 roomy (.allocateSpace 65536) =
        (true, (g.call minTempBlockSize 8 roomy (.allocateSpace 65536)).2) := Prod.ext hok rfl
  refine .tail (.tail (.tail (.tail .refl ⟨_, .allocateSpace _ 65536 hfile⟩)
    ⟨_, .allocateSpace roomy 65536 (hmemory _ (by decide +kernel))⟩)
    ⟨_, @Step.releaseSpace _ _ _ [] [⟨65536, 65536⟩] ⟨0, 65536⟩ 0 65536 (by decide) (by decide)
      (by decide)⟩)
    ⟨_, @Step.releaseSpace _ _ _ [⟨0, 0⟩] [] ⟨65536, 65536⟩ 65536 65536 (by decide) (by decide)
      (by decide)⟩

/-- When a call raises, the space that it has added is lost; and chunks of no size leave two free
segments that are adjacent. -/
theorem segments_not_tile :
    (∃ h, AnyRuns ⟨Growing.new false, []⟩ h ∧
      ¬ Tiles h.growing.space.freeSegments.items h.used h.growing.space.logicalSize) ∧
    ∃ h, AnyRuns ⟨Growing.new false, []⟩ h ∧ ¬ Sorted h.growing.space.freeSegments.items := by
  constructor
  · have hcall : ((Growing.new false).call minTempBlockSize 8 fullDisk (.allocateSpace 65536)).1 =
        false ∧
        ((Growing.new false).call minTempBlockSize 8 fullDisk
          (.allocateSpace 65536)).2.space.logicalSize = 65536 ∧
        ((Growing.new false).call minTempBlockSize 8 fullDisk
          (.allocateSpace 65536)).2.space.freeSegments.items = [] := by decide +kernel
    obtain ⟨hfalse, hlog, hfree⟩ := hcall
    have hraised : (Growing.new false).call minTempBlockSize 8 fullDisk (.allocateSpace 65536) =
        (false, ((Growing.new false).call minTempBlockSize 8 fullDisk (.allocateSpace 65536)).2) :=
      Prod.ext hfalse rfl
    generalize ((Growing.new false).call minTempBlockSize 8 fullDisk (.allocateSpace 65536)).2 = g
      at hraised hlog hfree
    refine ⟨⟨g, []⟩, .tail .refl ⟨_, .allocateSpace fullDisk 65536 hraised⟩, fun ht => ?_⟩
    have hzero := ht 0
    rw [hlog, hfree] at hzero
    exact Nat.zero_ne_one hzero
  · have hchunk : (allocateBatch minTempBlockSize 8 fileThenMemory.space 1 0 0).map Prod.snd =
        some [⟨(1, 0), 65536, 0⟩] := by decide +kernel
    obtain ⟨⟨s', segments⟩, hbatch, -⟩ := Option.map_eq_some_iff.1 hchunk
    refine ⟨_, .tail anyRuns_fileThenMemory ⟨.allocateBatch 1 0 0, .allocateBatch hbatch⟩,
      fun hs => ?_⟩
    have hfree : (fileThenMemory.finish minTempBlockSize 8
        (.allocateBatch 1 0 0)).space.freeSegments.items = [⟨0, 65536⟩, ⟨65536, 65536⟩] := by
      decide +kernel
    dsimp only at hs
    rw [hfree] at hs
    exact absurd (List.rel_of_pairwise_cons hs.apart (List.mem_singleton_self _))
      (Nat.lt_irrefl 65536)

end Firebird.Jrd.Temp
