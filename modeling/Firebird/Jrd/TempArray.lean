import Firebird.Jrd.TempFlat

/-!
# Calls of temporary space

Any sequence of calls of `write` and `extend`, beside the array that they are meant to fill: a byte
of it is unknown until it is written. The space is as long as the array, and reads what was written.
-/
namespace Firebird.Jrd.Temp

open List

variable {files files' : List (List UInt8)} {blocks : List Block} {b c : Block}

/-! ## `extend` -/

theorem le_fbAlign (n b : Nat) : n ≤ fbAlign n b := by
  have h : (n + (b - 1)) &&& (b - 1) ≤ b - 1 := Nat.and_le_right
  rw [fbAlign]
  omega

theorem setupFile_spec (files : List (List UInt8)) (index size : Nat) :
    (setupFile files index size).1 < (setupFile files index size).2.length ∧
    ((setupFile files index size).2.getD (setupFile files index size).1 []).length =
      (files.getD (setupFile files index size).1 []).length + size ∧
    ∀ i, files.getD i [] <+: (setupFile files index size).2.getD i [] := by
  rw [setupFile]
  split_ifs with hlt
  · refine ⟨by simpa using hlt, ?_, fun i => ?_⟩
    · simp only [getD_modify _ hlt]
      simp
    · simp only [getD_modify _ hlt]
      split_ifs
      · exact prefix_append _ _
      · exact prefix_rfl
  · refine ⟨by simp, by simp, fun i => ?_⟩
    simp only [getD_eq_getElem?_getD]
    rcases Nat.lt_or_ge i files.length with hi | hi
    · simp [getElem?_append_left hi]
    · rw [getElem?_eq_none hi]
      exact nil_prefix

theorem Block.Fits.grow (h : b.Fits files) (hpos : 0 < b.size)
    (hgrow : ∀ i, files.getD i [] <+: files'.getD i []) : b.bytes files' = b.bytes files := by
  cases hs : b.storage with
  | memory ptr => simp only [bytes, hs]
  | initial buffer => simp only [bytes, hs]
  | file file seek =>
    simp only [bytes, hs]
    obtain ⟨-, hfit⟩ := h.file hs hpos
    obtain ⟨rest, hrest⟩ := hgrow file
    rw [← hrest, drop_append_of_le_length (by omega), take_append_of_le_length]
    rw [length_drop]
    omega

theorem Laid.grow (h : Laid files blocks) (hpos : ∀ b ∈ blocks, 0 < b.size)
    (hgrow : ∀ i, files.getD i [] <+: files'.getD i []) :
    Laid files' blocks ∧ flat files' blocks = flat files blocks := by
  have hkeep : ∀ b ∈ blocks, b.bytes files' = b.bytes files :=
    fun b hb => (h.fits b hb).grow (hpos b hb) hgrow
  refine ⟨⟨fun b hb => ?_, h.before⟩, flat_congr hkeep⟩
  rw [Block.Fits, hkeep b hb]
  exact h.fits b hb

theorem Laid.append (h : Laid files blocks) (hb : b.Fits files)
    (hbefore : ∀ c ∈ blocks, Before c.extent b.extent) {initial : List UInt8}
    (hsize : initial.length ≤ b.size) :
    Laid (b.filesWritten files 0 initial) (blocks ++ [b.written files 0 initial]) ∧
    ∃ rest, flat (b.filesWritten files 0 initial) (blocks ++ [b.written files 0 initial]) =
      flat files blocks ++ initial ++ rest := by
  have hkeep : ∀ c ∈ blocks, c.bytes (b.filesWritten files 0 initial) = c.bytes files :=
    fun c hc => Block.bytes_filesWritten hb (Nat.zero_le _) (.inr (hbefore c hc))
  have hcut : b.cut 0 initial.length = initial.length := by
    rw [Block.cut, if_neg (by omega)]
  refine ⟨⟨?_, ?_⟩, (b.bytes files).drop initial.length, ?_⟩
  · intro c hc
    rcases mem_append.1 hc with hc | hc
    · rw [Block.Fits, hkeep c hc]
      exact h.fits c hc
    · obtain rfl := mem_singleton.1 hc
      exact Block.fits_written hb (Nat.zero_le _)
  · rw [map_append, pairwise_append]
    refine ⟨h.before, pairwise_singleton _ _, ?_⟩
    simpa using hbefore
  · rw [flat_append, flat_congr hkeep, flat_cons, flat_nil, append_nil,
      Block.bytes_written hb (Nat.zero_le _), hcut, take_length, memcpy, take_zero,
      nil_append, Nat.zero_add, append_assoc]

theorem Laid.fuse {file seek size : Nat} (h : Laid files (blocks ++ [b]))
    (hpos : ∀ c ∈ blocks ++ [b], 0 < c.size) (hs : b.storage = .file file seek)
    (hgrow : ∀ i, files.getD i [] <+: files'.getD i [])
    (hlen : (files'.getD file []).length = (files.getD file []).length + size) :
    Laid files' (blocks ++ [{ b with size := b.size + size }]) ∧
    ∃ rest, flat files' (blocks ++ [{ b with size := b.size + size }]) =
      flat files (blocks ++ [b]) ++ rest := by
  obtain ⟨-, hfit⟩ := (h.fits b (by simp)).file hs (hpos b (by simp))
  have hkeep : ∀ c ∈ blocks, c.bytes files' = c.bytes files :=
    fun c hc => (h.fits c (by simp [hc])).grow (hpos c (by simp [hc])) hgrow
  refine ⟨⟨?_, ?_⟩, (((files'.getD file []).drop seek).drop b.size).take size, ?_⟩
  · intro c hc
    rcases mem_append.1 hc with hc | hc
    · rw [Block.Fits, hkeep c hc]
      exact h.fits c (by simp [hc])
    · obtain rfl := mem_singleton.1 hc
      simp only [Block.Fits, Block.bytes, hs, length_take, length_drop]
      omega
  · have hb := h.before
    rw [map_append, pairwise_append] at hb ⊢
    refine ⟨hb.1, pairwise_singleton _ _, fun e he f hf => ?_⟩
    have hbef := hb.2.2 e he b.extent (by simp)
    obtain rfl : f = ⟨b.size + size, false, some (file, seek)⟩ := by
      simpa [Block.extent, hs] using hf
    simpa [Before, Block.extent, hs] using hbef
  · have hold : b.bytes files' = b.bytes files :=
      (h.fits b (by simp)).grow (hpos b (by simp)) hgrow
    rw [flat_append, flat_append, flat_congr hkeep, append_assoc]
    congr 1
    simp only [flat_cons]
    rw [← hold]
    simp [Block.bytes, hs, take_add]

structure Wf (s : TempSpace) : Prop where
  laid : Laid s.tempFiles s.blocks
  pos : ∀ b ∈ s.blocks, 0 < b.size
  physical : total s.blocks = s.physicalSize
  logical : s.logicalSize ≤ s.physicalSize
  dynamic : s.initiallyDynamic → s.blocks = [] ∨
    (∃ size, s.blocks.map Block.extent = [⟨size, true, none⟩]) ∨ minTempBlockSize ≤ s.physicalSize

def TempSpace.bytes (s : TempSpace) : List UInt8 := flat s.tempFiles s.blocks

theorem Wf.length_bytes {s : TempSpace} (h : Wf s) : s.bytes.length = s.physicalSize := by
  rw [TempSpace.bytes, length_flat h.laid.fits, h.physical]

theorem appendBlock_physicalSize (s : TempSpace) (p : Placement) (size : Nat)
    (initial : List UInt8) : (appendBlock s p size initial).physicalSize = s.physicalSize ∧
      (appendBlock s p size initial).initiallyDynamic = s.initiallyDynamic := by
  cases p with
  | memory fresh => exact ⟨rfl, rfl⟩
  | file index =>
    simp only [appendBlock]
    split_ifs <;> exact ⟨rfl, rfl⟩

theorem appendBlock_spec {s : TempSpace} (h : Laid s.tempFiles s.blocks)
    (hpos : ∀ b ∈ s.blocks, 0 < b.size) (p : Placement) {size : Nat} {initial : List UInt8}
    (hsize : 0 < size) (hinitial : initial.length ≤ size) (honly : initial = [] ∨ s.blocks = []) :
    Laid (appendBlock s p size initial).tempFiles (appendBlock s p size initial).blocks ∧
    (∀ b ∈ (appendBlock s p size initial).blocks, 0 < b.size) ∧
    total (appendBlock s p size initial).blocks = total s.blocks + size ∧
    ∃ rest, (appendBlock s p size initial).bytes = s.bytes ++ initial ++ rest := by
  cases p with
  | memory fresh =>
    simp only [appendBlock, Block.write_eq]
    obtain ⟨hlaid, hbytes⟩ := @Laid.append s.tempFiles s.blocks
      ⟨size, .memory ((List.range size).map fresh)⟩ h (by simp [Block.Fits, Block.bytes])
      (fun c _ => by simp [Before, Block.extent]) initial hinitial
    exact ⟨hlaid, by simpa [or_imp, forall_and] using ⟨hpos, hsize⟩, by simp, hbytes⟩
  | file index =>
    obtain ⟨hlt, hlen, hgrow⟩ := setupFile_spec s.tempFiles index size
    simp only [appendBlock, Block.write_eq, TempSpace.bytes]
    split_ifs with hsame
    · -- The last block is in the same file and grows with it.
      obtain hnil | ⟨blocks, b, hblocks⟩ := eq_nil_or_concat s.blocks
      · simp [hnil] at hsame
      rw [concat_eq_append] at hblocks
      obtain ⟨seek, hs⟩ : ∃ seek, b.storage = .file (setupFile s.tempFiles index size).1 seek := by
        cases hs : b.storage <;> simp_all [Block.sameFile]
      have hnil : initial = [] := by simpa [hblocks] using honly
      subst hnil
      rw [hblocks] at h hpos ⊢
      obtain ⟨hlaid, rest, hbytes⟩ := h.fuse hpos hs hgrow hlen
      have hmodify : (blocks ++ [b]).modify ((blocks ++ [b]).length - 1)
          (fun b => { b with size := b.size + size }) =
            blocks ++ [{ b with size := b.size + size }] := by
        rw [length_append, length_singleton, Nat.add_sub_cancel]
        exact Common.modify_append _
      rw [hmodify]
      refine ⟨hlaid, ?_, by simp; omega, rest, by simpa using hbytes⟩
      intro c hc
      rcases mem_append.1 hc with hc | hc
      · exact hpos c (by simp [hc])
      · obtain rfl := mem_singleton.1 hc
        exact Nat.add_pos_right _ hsize
    · obtain ⟨hlaid, hflat⟩ := h.grow hpos hgrow
      have hfits : Block.Fits (setupFile s.tempFiles index size).2
          ⟨size, .file (setupFile s.tempFiles index size).1
            (((setupFile s.tempFiles index size).2.getD (setupFile s.tempFiles index size).1
              []).length - size)⟩ := by
        simp only [Block.Fits, Block.bytes, length_take, length_drop]
        omega
      obtain ⟨hlaid', hbytes⟩ := hlaid.append hfits (fun c hc => by
        cases hs : c.storage with
        | memory ptr => simp [Block.extent, hs, Before]
        | initial buffer => simp [Block.extent, hs, Before]
        | file file seek =>
          obtain ⟨-, hfit⟩ := (h.fits c hc).file hs (hpos c hc)
          simp only [Block.extent, hs, Before, Option.some.injEq, Prod.mk.injEq]
          rintro _ _ _ ⟨rfl, rfl⟩ ⟨heq, rfl⟩
          rw [← heq] at hfit
          omega) hinitial
      rw [hflat] at hbytes
      exact ⟨hlaid', by simpa [or_imp, forall_and] using ⟨hpos, hsize⟩, by simp, hbytes⟩

variable {minBlockSize : Nat}

theorem initialBuffer_ne_nil {s : TempSpace} (h : initialBuffer s ≠ []) :
    ∃ size, s.blocks = [⟨size, .initial (initialBuffer s)⟩] := by
  revert h
  rw [initialBuffer]
  split
  · rename_i size buffer hblocks
    exact fun _ => ⟨size, hblocks⟩
  · exact fun h => absurd rfl h

theorem initialBuffer_of_eq {s : TempSpace} {size : Nat} {buffer : List UInt8}
    (h : s.blocks = [⟨size, .initial buffer⟩]) : initialBuffer s = buffer := by
  rw [initialBuffer, h]

theorem exists_initial {size : Nat} (h : blocks.map Block.extent = [⟨size, true, none⟩]) :
    ∃ buffer, blocks = [⟨size, .initial buffer⟩] := by
  obtain ⟨⟨n, storage⟩, rfl, hb⟩ := map_eq_singleton_iff.1 h
  cases storage with
  | memory ptr => simp [Block.extent] at hb
  | initial buffer =>
    obtain rfl : n = size := by simpa [Block.extent] using hb
    exact ⟨buffer, rfl⟩
  | file file seek => simp [Block.extent] at hb

theorem Wf.initialBuffer_eq {s : TempSpace} (h : Wf s) (hdyn : s.initiallyDynamic)
    (hsmall : s.physicalSize < minTempBlockSize) :
    s.bytes = initialBuffer s ∧ (initialBuffer s).length = s.physicalSize := by
  have heq : s.bytes = initialBuffer s := by
    obtain hnil | ⟨size, hext⟩ | hge := h.dynamic hdyn
    · simp [TempSpace.bytes, initialBuffer, hnil]
    · obtain ⟨buffer, hblocks⟩ := exists_initial hext
      rw [initialBuffer_of_eq hblocks, TempSpace.bytes, hblocks]
      simp [Block.bytes]
    · omega
  exact ⟨heq, heq ▸ h.length_bytes⟩

theorem Wf.growInitial {s : TempSpace} (h : Wf s) {size : Nat} (hsize : 0 < size)
    (hdyn : s.initiallyDynamic) (hsmall : s.physicalSize < minTempBlockSize)
    {buffer rest : List UInt8} (hbuffer : buffer = initialBuffer s ++ rest)
    (hrest : rest.length = size) :
    Wf { s with
      logicalSize := s.logicalSize + size
      blocks := [⟨buffer.length, .initial buffer⟩]
      physicalSize := buffer.length } ∧
    flat s.tempFiles [⟨buffer.length, .initial buffer⟩] = s.bytes ++ rest := by
  obtain ⟨hbytes, hlen⟩ := h.initialBuffer_eq hdyn hsmall
  have hlog := h.logical
  have hlen' : buffer.length = s.physicalSize + size := by
    rw [hbuffer, length_append, hlen, hrest]
  refine ⟨⟨⟨?_, ?_⟩, ?_, ?_, ?_, ?_⟩, ?_⟩
  · simp [Block.Fits, Block.bytes]
  · simp
  · simp only [mem_singleton, forall_eq]
    omega
  · simp
  · simp only
    omega
  · exact fun _ => .inr (.inl ⟨_, rfl⟩)
  · simp [Block.bytes, hbytes, hbuffer]

theorem Wf.appendBlock {s : TempSpace} (h : Laid s.tempFiles s.blocks)
    (hpos : ∀ b ∈ s.blocks, 0 < b.size) (p : Placement) {size : Nat} {initial : List UInt8}
    (hsize : 0 < size) (hinitial : initial.length ≤ size) (honly : initial = [] ∨ s.blocks = [])
    (hphys : s.physicalSize = total s.blocks + size) (hlog : s.logicalSize ≤ s.physicalSize)
    (hdyn : s.initiallyDynamic → minTempBlockSize ≤ s.logicalSize) :
    Wf (appendBlock s p size initial) ∧
    ∃ rest, (Temp.appendBlock s p size initial).bytes = s.bytes ++ initial ++ rest := by
  obtain ⟨hlaid, hpos', htotal, hbytes⟩ := appendBlock_spec h hpos p hsize hinitial honly
  obtain ⟨hphys', hdyn'⟩ := appendBlock_physicalSize s p size initial
  refine ⟨⟨hlaid, hpos', ?_, ?_, ?_⟩, hbytes⟩
  · rw [htotal, hphys', hphys]
  · rw [appendBlock_logicalSize, hphys']
    exact hlog
  · intro hd
    rw [hphys']
    exact .inr (.inr ((hdyn (hdyn' ▸ hd)).trans hlog))

theorem Wf.extend {s : TempSpace} (h : Wf s) (p : Placement) (size : Nat) :
    Wf (extend minBlockSize s p size) ∧
    ∃ rest, (Temp.extend minBlockSize s p size).bytes = s.bytes ++ rest := by
  have hlog := h.logical
  have hinitial : initialBuffer { s with logicalSize := s.logicalSize + size } = initialBuffer s :=
    rfl
  rw [Temp.extend]
  simp only [hinitial]
  split_ifs with hmore hsmall hinit
  · -- The initial block grows.
    split
    · rename_i fresh hnil
      obtain ⟨hwf, hbytes⟩ := h.growInitial (show 0 < size by omega) hsmall.1 (by omega)
        (show (List.range size).map fresh = initialBuffer s ++ (List.range size).map fresh by
          rw [hnil, nil_append]) (by simp)
      exact ⟨hwf, _, hbytes⟩
    · obtain ⟨hwf, hbytes⟩ := h.growInitial (by omega) hsmall.1 (by omega) rfl
        (show (replicate size (0 : UInt8)).length = size by simp)
      exact ⟨hwf, _, hbytes⟩
  · -- The initial contents move to a large block.
    obtain ⟨n, hblocks⟩ := initialBuffer_ne_nil hinit
    have hbytes : s.bytes = initialBuffer s := by
      have hflat : flat s.tempFiles [⟨n, .initial (initialBuffer s)⟩] = initialBuffer s := by
        simp [Block.bytes]
      rw [TempSpace.bytes, hblocks, hflat]
    have hlen := hbytes ▸ h.length_bytes
    have halign := le_fbAlign (s.logicalSize + size) minBlockSize
    obtain ⟨hwf, rest, hrest⟩ := @Wf.appendBlock
      { s with
        logicalSize := s.logicalSize + size
        blocks := []
        physicalSize := fbAlign (s.logicalSize + size) minBlockSize }
      ⟨by simp, by simp⟩ (by simp) p (fbAlign (s.logicalSize + size) minBlockSize)
      (initialBuffer s) (by omega) (by omega) (.inr rfl) (by simp) halign
      (fun hd => Nat.le_of_not_lt fun hlt => hsmall ⟨hd, hlt⟩)
    refine ⟨hwf, rest, ?_⟩
    rw [hrest, hbytes]
    simp [TempSpace.bytes]
  · have halign := le_fbAlign (s.logicalSize + size - s.physicalSize) minBlockSize
    obtain ⟨hwf, rest, hrest⟩ := @Wf.appendBlock
      { s with
        logicalSize := s.logicalSize + size
        physicalSize := s.physicalSize + fbAlign (s.logicalSize + size - s.physicalSize)
          minBlockSize }
      h.laid h.pos p (fbAlign (s.logicalSize + size - s.physicalSize) minBlockSize) []
      (by omega) (by simp) (.inl rfl) (by simp [h.physical]) (by simp only; omega)
      (fun hd => Nat.le_of_not_lt fun hlt => hsmall ⟨hd, hlt⟩)
    refine ⟨hwf, rest, ?_⟩
    rw [hrest]
    simp [TempSpace.bytes]
  · exact ⟨⟨h.laid, h.pos, h.physical, by simpa using hmore, h.dynamic⟩, [],
      by simp [TempSpace.bytes]⟩

variable {s : TempSpace} {offset : Nat} {data : List UInt8}

theorem total_take_append_drop (blocks : List Block) (i : Nat) :
    total (blocks.take i) + total (blocks.drop i) = total blocks := by
  rw [← total_append, take_append_drop]

theorem Laid.drop (h : Laid files blocks) (i : Nat) : Laid files (blocks.drop i) where
  fits := fun b hb => h.fits b (mem_of_mem_drop hb)
  before := by
    rw [map_drop]
    exact h.before.sublist (drop_sublist _ _)

theorem Laid.take_before (h : Laid files blocks) {i : Nat} (hc : c ∈ blocks.take i) :
    ∀ b ∈ blocks.drop i, Before c.extent b.extent := by
  have hb := h.before
  rw [← take_append_drop i blocks, map_append, pairwise_append] at hb
  exact fun b hb' => hb.2.2 _ (mem_map_of_mem hc) _ (mem_map_of_mem hb')

theorem Laid.flat_take (h : Laid files blocks) (i : Nat) :
    flat files blocks = flat files (blocks.take i) ++ flat files (blocks.drop i) ∧
    (flat files (blocks.take i)).length = total (blocks.take i) := by
  refine ⟨by rw [← flat_append, take_append_drop], length_flat fun b hb => ?_⟩
  exact h.fits b (mem_of_mem_take hb)

theorem Wf.read (h : Wf s) {length : Nat} (hle : offset + length ≤ s.physicalSize) :
    read s offset length = some ((s.bytes.drop offset).take length) := by
  rw [Temp.read]
  split_ifs with hzero
  · simp [hzero]
  obtain ⟨i, o, hfind, htotal, ho⟩ := findBlock_spec h.physical
    (show offset < s.physicalSize by omega)
  obtain ⟨hflat, hlen⟩ := h.laid.flat_take i
  have hsum := total_take_append_drop s.blocks i
  have hphys := h.physical
  rw [hfind, Option.map_some, readBlocks_eq (h.laid.drop i) (Nat.le_of_lt ho) (by omega),
    TempSpace.bytes, hflat, ← htotal, ← hlen, drop_length_add_append]

theorem total_eq_extents (blocks : List Block) :
    total blocks = ((blocks.map Block.extent).map Extent.size).sum := by
  rw [total, map_map]
  congr 2
  funext b
  exact b.extent_size.symm

theorem Wf.of_extents (h : Wf s) (hlaid : Laid files' blocks)
    (hext : blocks.map Block.extent = s.blocks.map Block.extent) :
    Wf { s with blocks := blocks, tempFiles := files' } where
  laid := hlaid
  pos := by
    intro b hb
    have hmem : b.extent ∈ s.blocks.map Block.extent := hext ▸ mem_map_of_mem hb
    obtain ⟨c, hc, hcb⟩ := mem_map.1 hmem
    rw [← b.extent_size, ← hcb, c.extent_size]
    exact h.pos c hc
  physical := by
    simp only
    rw [total_eq_extents, hext, ← total_eq_extents, h.physical]
  logical := h.logical
  dynamic := by
    intro hdyn
    simp only [hext]
    refine (h.dynamic hdyn).imp_left fun hnil => ?_
    rw [hnil] at hext
    exact map_eq_nil_iff.1 hext

theorem Wf.writeInside (h : Wf s) (hne : data ≠ []) (hle : offset + data.length ≤ s.logicalSize)
    {p : Placement} :
    ∃ s', write minBlockSize s p offset data = some s' ∧ Wf s' ∧ s'.logicalSize = s.logicalSize ∧
      s'.bytes = memcpy s.bytes offset data := by
  have hlog := h.logical
  have hphys := h.physical
  have hpos : 0 < data.length := length_pos_iff.2 hne
  obtain ⟨i, o, hfind, htotal, ho⟩ := findBlock_spec h.physical
    (show offset < s.physicalSize by omega)
  obtain ⟨hflat, hlen⟩ := h.laid.flat_take i
  have hsum := total_take_append_drop s.blocks i
  obtain ⟨hlaid, hext, hbytes, hframe⟩ :=
    @writeBlocks_spec s.tempFiles o data (s.blocks.drop i) (h.laid.drop i) (Nat.le_of_lt ho)
      (by omega)
  have hkeep : ∀ c ∈ s.blocks.take i, c.bytes (writeBlocks (s.blocks.drop i) s.tempFiles o data).2 =
      c.bytes s.tempFiles := fun c hc => hframe c (h.laid.take_before hc)
  have hextents : (s.blocks.take i ++ (writeBlocks (s.blocks.drop i) s.tempFiles o data).1).map
      Block.extent = s.blocks.map Block.extent := by
    rw [map_append, hext, ← map_append, take_append_drop]
  refine ⟨{ s with
    blocks := s.blocks.take i ++ (writeBlocks (s.blocks.drop i) s.tempFiles o data).1
    tempFiles := (writeBlocks (s.blocks.drop i) s.tempFiles o data).2 }, ?_, ?_, rfl, ?_⟩
  · simp [Temp.write, if_neg (show ¬offset + data.length > s.logicalSize by omega), if_neg hne,
      hfind]
  · refine h.of_extents ⟨fun b hb => ?_, by rw [hextents]; exact h.laid.before⟩ hextents
    rcases mem_append.1 hb with hb | hb
    · rw [Block.Fits, hkeep b hb]
      exact h.laid.fits b (mem_of_mem_take hb)
    · exact hlaid.fits b hb
  · rw [TempSpace.bytes, TempSpace.bytes, flat_append, flat_congr hkeep, hbytes, hflat, ← htotal,
      ← hlen, memcpy_append_right]

def Block.memory (b : Block) : Option (List UInt8) :=
  match b.storage with
  | .memory ptr => some ptr
  | .initial buffer => some buffer
  | .file _ _ => none

def Block.store (b : Block) (ptr : List UInt8) : Block :=
  match b.storage with
  | .memory _ => { b with storage := .memory ptr }
  | .initial _ => { b with storage := .initial ptr }
  | .file _ _ => b

theorem Block.inMemory_spec {size : Nat} (h : b.inMemory offset size) :
    ∃ ptr, b.memory = some ptr ∧ b.bytes files = ptr ∧ offset + size ≤ b.size ∧ offset < b.size ∧
      ∀ data, data.length ≤ size →
        b.write files offset data = (data.length, b.store (memcpy ptr offset data), files) := by
  have hcut : ∀ data : List UInt8, offset + size ≤ b.size → data.length ≤ size →
      b.cut offset data.length = data.length := by
    intro data hle hlen
    rw [cut, if_neg (by omega)]
  cases hs : b.storage with
  | memory ptr =>
    have hb : offset < b.size ∧ offset + size ≤ b.size := by simpa [inMemory, hs] using h
    refine ⟨ptr, by simp [memory, hs], by simp [bytes, hs], hb.2, hb.1, fun data hdata => ?_⟩
    simp [write, store, hs, hcut data hb.2 hdata]
  | initial ptr =>
    have hb : offset < b.size ∧ offset + size ≤ b.size := by simpa [inMemory, hs] using h
    refine ⟨ptr, by simp [memory, hs], by simp [bytes, hs], hb.2, hb.1, fun data hdata => ?_⟩
    simp [write, store, hs, hcut data hb.2 hdata]
  | file file seek => simp [inMemory, hs] at h

theorem Block.store_memory {ptr : List UInt8} (h : b.memory = some ptr) : b.store ptr = b := by
  obtain ⟨size, storage⟩ := b
  cases storage <;> simp_all [memory, store]

theorem writeBlocks_nil (blocks : List Block) (files : List (List UInt8)) :
    writeBlocks blocks files offset [] = (blocks, files) := by
  cases blocks <;> simp [writeBlocks]

theorem Wf.lt_of_inMemory (h : Wf s) {size : Nat} {found : Nat × Nat}
    (hmem : inMemory s offset size = some found) : offset < s.physicalSize := by
  by_contra hge
  have hback : ¬offset < s.physicalSize / 2 := by omega
  have hphys := h.physical
  obtain hnil | ⟨blocks, b, hblocks⟩ := eq_nil_or_concat s.blocks
  · simp [inMemory, hnil] at hmem
  · rw [concat_eq_append] at hblocks
    rw [hblocks, total_append, total_cons, total_nil] at hphys
    have hwalk : findBlock s offset = some (blocks.length, offset - (s.physicalSize - b.size)) := by
      rw [findBlock, if_neg hback, hblocks, reverse_append, reverse_singleton,
        singleton_append, walkBackward, if_neg (by omega)]
      simp
    have hnone : b.inMemory (offset - (s.physicalSize - b.size)) size = false := by
      cases hs : b.storage <;> simp [Block.inMemory, hs]
      all_goals omega
    simp [inMemory, hwalk, hblocks, hnone] at hmem

theorem Wf.inMemory (h : Wf s) {size i o : Nat} (hmem : inMemory s offset size = some (i, o)) :
    ∃ b ptr, s.blocks[i]? = some b ∧ b.memory = some ptr ∧ total (s.blocks.take i) + o = offset ∧
      o + size ≤ ptr.length ∧ (ptr.drop o).take size = (s.bytes.drop offset).take size ∧
      ∀ p data, data.length ≤ size → offset + data.length ≤ s.logicalSize →
        write minBlockSize s p offset data =
          some { s with blocks := s.blocks.set i (b.store (memcpy ptr o data)) } := by
  obtain ⟨j, o', hfind, htotal, ho⟩ := findBlock_spec h.physical (h.lt_of_inMemory hmem)
  simp only [Temp.inMemory, hfind, Option.bind_some] at hmem
  split_ifs at hmem with hb
  obtain ⟨rfl, rfl⟩ : j = i ∧ o' = o := by simpa using hmem
  obtain ⟨b, hget, hb⟩ : ∃ b, s.blocks[j]? = some b ∧ b.inMemory o' size := by
    cases hget : s.blocks[j]? with
    | none => simp [hget] at hb
    | some b => exact ⟨b, rfl, by simpa [hget] using hb⟩
  obtain ⟨ptr, hptr, hbytes, hle, -, hwrite⟩ := @Block.inMemory_spec s.tempFiles b o' size hb
  have hfits : ptr.length = b.size := by
    rw [← hbytes]
    exact h.laid.fits b (mem_of_getElem? hget)
  obtain ⟨hlt, hj⟩ := List.getElem?_eq_some_iff.1 hget
  have hdrop : s.blocks.drop j = b :: s.blocks.drop (j + 1) := by
    rw [drop_eq_getElem_cons hlt, hj]
  refine ⟨b, ptr, hget, hptr, htotal, by omega, ?_, ?_⟩
  · obtain ⟨hflat, hlen⟩ := h.laid.flat_take j
    rw [TempSpace.bytes, hflat, ← htotal, ← hlen, drop_length_add_append, hdrop, flat_cons,
      hbytes, drop_append_of_le_length (by omega), take_append_of_le_length]
    rw [length_drop]
    omega
  · intro p data hdata hlog
    simp only [Temp.write, if_neg (show ¬offset + data.length > s.logicalSize by omega)]
    split_ifs with hnil
    · subst hnil
      rw [memcpy_nil, Block.store_memory hptr, ← hj, set_getElem_self]
    · simp only [hfind, Option.map_some, hdrop]
      rw [writeBlocks, if_neg hnil]
      simp only [hwrite data hdata, drop_length, writeBlocks_nil]
      rw [set_eq_take_append_cons_drop, if_pos hlt]

/-- `write` to an array. -/
def put (a : List (Option UInt8)) (offset : Nat) (data : List UInt8) : List (Option UInt8) :=
  a.take offset ++ data.map some ++ a.drop (offset + data.length)

variable (minBlockSize) in
inductive Run (dynamic : Bool) : TempSpace → List (Option UInt8) → Prop
  | new : Run dynamic (new dynamic) []
  | write {s s' : TempSpace} {a : List (Option UInt8)} {p : Placement} {offset : Nat}
      {data : List UInt8} : Run dynamic s a → offset ≤ s.logicalSize →
      write minBlockSize s p offset data = some s' → Run dynamic s' (put a offset data)
  | extend {s : TempSpace} {a : List (Option UInt8)} {p : Placement} {size : Nat} :
      Run dynamic s a →
      Run dynamic (extend minBlockSize s p size) (a ++ List.replicate size none)

/-- The bytes that were written are those of the space. -/
def Agree (a : List (Option UInt8)) (bytes : List UInt8) : Prop :=
  ∀ (i : Nat) (x : UInt8), a[i]? = some (some x) → bytes[i]? = some x

variable {a : List (Option UInt8)} {bytes : List UInt8}

theorem length_put (h : offset ≤ a.length) :
    (put a offset data).length = max a.length (offset + data.length) := by
  simp only [put, length_append, length_take, length_map, length_drop]
  omega

theorem getElem?_put (h : offset ≤ a.length) (i : Nat) :
    (put a offset data)[i]? =
      if i < offset then a[i]?
      else if i < offset + data.length then data[i - offset]?.map some else a[i]? := by
  rw [put, append_assoc, getElem?_append, length_take, Nat.min_eq_left h,
    getElem?_append, length_map]
  split_ifs with h1 h2 h3 h3
  · rw [getElem?_take_of_lt h1]
  · rw [getElem?_map]
  · omega
  · omega
  · rw [getElem?_drop]
    congr 1
    omega

theorem Agree.append (h : Agree a bytes) (size : Nat) (rest : List UInt8) :
    Agree (a ++ replicate size none) (bytes ++ rest) := by
  intro i x hx
  rw [getElem?_append] at hx
  split_ifs at hx with hi
  · exact List.getElem?_append_left (List.getElem?_eq_some_iff.1 (h i x hx)).1 ▸ h i x hx
  · rw [getElem?_replicate] at hx
    split_ifs at hx
    exact absurd hx (by simp)

theorem Agree.put (h : Agree a bytes) (ho : offset ≤ a.length) (ho' : offset ≤ bytes.length) :
    Agree (put a offset data) (memcpy bytes offset data) := by
  intro i x hx
  rw [getElem?_put ho] at hx
  rw [getElem?_memcpy ho']
  split_ifs at hx ⊢ with h1 h2
  · exact h i x hx
  · simpa using hx
  · exact h i x hx

theorem put_append (ho : offset ≤ a.length) (hle : a.length ≤ offset + data.length) :
    put (a ++ replicate (offset + data.length - a.length) none) offset data =
      put a offset data := by
  rw [put, put, take_append_of_le_length ho, drop_of_length_le, drop_of_length_le hle]
  rw [length_append, length_replicate]
  omega

theorem Wf.put (h : Wf s) (ha : s.logicalSize = a.length) (hagree : Agree a s.bytes)
    (hle : offset + data.length ≤ s.logicalSize) (p : Placement) :
    ∃ s', write minBlockSize s p offset data = some s' ∧ Wf s' ∧
      s'.logicalSize = (put a offset data).length ∧ Agree (put a offset data) s'.bytes := by
  have hlog := h.logical
  have hlen := h.length_bytes
  by_cases hnil : data = []
  · subst hnil
    have hsame : Temp.put a offset [] = a := by simp [Temp.put]
    rw [length_nil, Nat.add_zero] at hle
    rw [hsame]
    exact ⟨s, by simp [write, hle], h, ha, hagree⟩
  · obtain ⟨s', hwrite, hwf, hlog', hbytes⟩ :=
      @Wf.writeInside minBlockSize s offset data h hnil hle p
    refine ⟨s', hwrite, hwf, ?_, ?_⟩
    · rw [length_put (by omega)]
      omega
    · rw [hbytes]
      exact hagree.put (by omega) (by omega)

theorem Wf.write (h : Wf s) (ha : s.logicalSize = a.length) (hagree : Agree a s.bytes)
    (hle : offset ≤ s.logicalSize) (p : Placement) (data : List UInt8) :
    ∃ s', write minBlockSize s p offset data = some s' ∧ Wf s' ∧
      s'.logicalSize = (Temp.put a offset data).length ∧
      Agree (Temp.put a offset data) s'.bytes := by
  by_cases hmore : offset + data.length > s.logicalSize
  · obtain ⟨hwf, rest, hbytes⟩ :=
      @Wf.extend minBlockSize s h p (offset + data.length - s.logicalSize)
    have hlog := @extend_logicalSize minBlockSize s p (offset + data.length - s.logicalSize)
    have hagree' := hagree.append (offset + data.length - a.length) rest
    rw [← hbytes] at hagree'
    obtain ⟨s', hwrite, hspec⟩ := @Wf.put minBlockSize _ offset data _ hwf
      (by rw [hlog, length_append, length_replicate]; omega) hagree' (by omega) p
    rw [put_append (by omega) (by omega)] at hspec
    refine ⟨s', ?_, hspec⟩
    rw [← hwrite, Temp.write, Temp.write]
    have hless : ¬offset + data.length > (Temp.extend minBlockSize s p
        (offset + data.length - s.logicalSize)).logicalSize := by omega
    simp [if_pos hmore, if_neg hless]
  · exact h.put ha hagree (by omega) p

theorem Run.wf {dynamic : Bool} (h : Run minBlockSize dynamic s a) :
    Wf s ∧ s.logicalSize = a.length ∧ Agree a s.bytes := by
  induction h with
  | new =>
    exact ⟨⟨⟨by simp [Temp.new], by simp [Temp.new]⟩, by simp [Temp.new], rfl, Nat.le_refl _,
      fun _ => .inl rfl⟩,
      rfl, by simp [Agree]⟩
  | write _ hle hwrite ih =>
    obtain ⟨hwf, ha, hagree⟩ := ih
    obtain ⟨s', hwrite', hspec⟩ := hwf.write ha hagree hle _ _
    rw [hwrite] at hwrite'
    cases hwrite'
    exact hspec
  | extend _ ih =>
    obtain ⟨hwf, ha, hagree⟩ := ih
    obtain ⟨hwf', rest, hbytes⟩ := hwf.extend _ _
    refine ⟨hwf', ?_, hbytes ▸ hagree.append _ _⟩
    rw [extend_logicalSize, length_append, length_replicate, ha]

theorem Agree.slice (h : Agree a bytes) (offset length : Nat) :
    Agree ((a.drop offset).take length) ((bytes.drop offset).take length) := by
  intro i x hx
  rw [getElem?_take] at hx ⊢
  split_ifs at hx ⊢ with hi
  rw [getElem?_drop] at hx ⊢
  exact h _ x hx

/-- The space is the array that its calls fill, whatever the mode and the places of its blocks:
it is as long, each call returns, `read` returns what was written, and so does the memory that
`inMemory` points to, where a store is a write. -/
theorem run_array {dynamic : Bool} (h : Run minBlockSize dynamic s a) :
    s.logicalSize = a.length ∧
    (∀ p offset data, offset ≤ s.logicalSize → (write minBlockSize s p offset data).isSome) ∧
    (∀ offset length, offset + length ≤ s.logicalSize → ∃ bytes, read s offset length = some bytes ∧
      bytes.length = length ∧ Agree ((a.drop offset).take length) bytes) ∧
    ∀ offset size i o, inMemory s offset size = some (i, o) → ∃ b ptr,
      s.blocks[i]? = some b ∧ b.memory = some ptr ∧ total (s.blocks.take i) + o = offset ∧
      o + size ≤ ptr.length ∧ Agree ((a.drop offset).take size) ((ptr.drop o).take size) ∧
      ∀ p data, data.length ≤ size → offset + data.length ≤ s.logicalSize →
        write minBlockSize s p offset data =
          some { s with blocks := s.blocks.set i (b.store (memcpy ptr o data)) } := by
  obtain ⟨hwf, ha, hagree⟩ := h.wf
  have hlog := hwf.logical
  refine ⟨ha, fun p offset data hle => ?_, fun offset length hle => ?_, fun offset size i o hmem =>
    ?_⟩
  · obtain ⟨s', hwrite, -⟩ := hwf.write ha hagree hle p data
    rw [hwrite]
    rfl
  · refine ⟨_, hwf.read (by omega), ?_, hagree.slice offset length⟩
    rw [length_take, length_drop, hwf.length_bytes]
    omega
  · obtain ⟨b, ptr, hget, hptr, htotal, hle, hbytes, hwrite⟩ := hwf.inMemory hmem
    exact ⟨b, ptr, hget, hptr, htotal, hle, hbytes ▸ hagree.slice offset size, hwrite⟩

/-- Two writes to a dynamic space, and a read across them. -/
theorem run_array_dynamic : ∃ s, Run minTempBlockSize true s [some 1, some 3, some 4] ∧
    s.logicalSize = 3 ∧ read s 0 3 = some [1, 3, 4] := by
  have h₁ : write minTempBlockSize (new true) (.memory fun _ => 0) 0 [1, 2] =
      some { new true with
        logicalSize := 2, physicalSize := 2, blocks := [⟨2, .initial [1, 2]⟩] } := by decide
  have h₂ : write minTempBlockSize { new true with
        logicalSize := 2, physicalSize := 2, blocks := [⟨2, .initial [1, 2]⟩] } (.file 0) 1 [3, 4] =
      some { new true with
        logicalSize := 3, physicalSize := 3, blocks := [⟨3, .initial [1, 3, 4]⟩] } := by decide
  have hrun := Run.write (Run.write (@Run.new minTempBlockSize true) (Nat.zero_le _) h₁) (by decide)
    h₂
  obtain ⟨bytes, hread, hlen, hagree⟩ := (run_array hrun).2.2.1 0 3 (by decide)
  have hbytes : bytes = [1, 3, 4] := by
    match bytes, hlen with
    | [x, y, z], _ =>
      have h0 : some x = some 1 := hagree 0 1 rfl
      have h1 : some y = some 3 := hagree 1 3 rfl
      have h2 : some z = some 4 := hagree 2 4 rfl
      simp_all
  exact ⟨_, hrun, rfl, hbytes ▸ hread⟩

end Firebird.Jrd.Temp
