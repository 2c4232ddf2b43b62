import Mathlib.Data.List.Induction
import Firebird.Jrd.TempSegments

/-!
# Temporary space as a flat byte array

The bytes of a space are those of its blocks, one after the other. A write to the blocks is a write
to these bytes, and a space that is extended keeps them in front of the new ones, wherever its
blocks are placed.
-/
namespace Firebird.Jrd.Temp

open List

section Memcpy

variable {buffer data : List UInt8} {offset : Nat}

theorem length_memcpy (h : offset + data.length ≤ buffer.length) :
    (memcpy buffer offset data).length = buffer.length := by
  simp only [memcpy, length_append, length_take, length_drop]
  omega

theorem getElem?_memcpy (h : offset ≤ buffer.length) (i : Nat) :
    (memcpy buffer offset data)[i]? =
      if i < offset then buffer[i]?
      else if i < offset + data.length then data[i - offset]? else buffer[i]? := by
  rw [memcpy, append_assoc, getElem?_append, length_take, Nat.min_eq_left h, getElem?_append]
  split_ifs with h1 h2 h3 h3
  · rw [getElem?_take_of_lt h1]
  · rfl
  · omega
  · omega
  · rw [getElem?_drop]
    congr 1
    omega

theorem memcpy_nil (buffer : List UInt8) (offset : Nat) : memcpy buffer offset [] = buffer := by
  simp [memcpy]

theorem memcpy_append_left (h : offset + data.length ≤ buffer.length) (rest : List UInt8) :
    memcpy (buffer ++ rest) offset data = memcpy buffer offset data ++ rest := by
  rw [memcpy, memcpy, take_append_of_le_length (by omega), drop_append_of_le_length h]
  simp

theorem memcpy_append_right (rest : List UInt8) :
    memcpy (buffer ++ rest) (buffer.length + offset) data = buffer ++ memcpy rest offset data := by
  rw [memcpy, memcpy, take_length_add_append, Nat.add_assoc, drop_length_add_append]
  simp

theorem memcpy_append (h : offset ≤ buffer.length) (rest : List UInt8) (hlong :
    buffer.length ≤ offset + data.length) :
    memcpy (buffer ++ rest) offset data =
      memcpy buffer offset (data.take (buffer.length - offset)) ++
        memcpy rest 0 (data.drop (buffer.length - offset)) := by
  have hdrop : (buffer ++ rest).drop (offset + data.length) =
      rest.drop (offset + data.length - buffer.length) := by
    rw [drop_append, drop_of_length_le hlong, nil_append]
  have hfirst : buffer.drop (offset + (data.take (buffer.length - offset)).length) = [] := by
    apply drop_of_length_le
    rw [length_take]
    omega
  simp only [memcpy, hdrop, hfirst, take_append_of_le_length h, take_zero, nil_append, length_drop,
    append_assoc]
  rw [← append_assoc (data.take _), take_append_drop]
  congr 3
  omega

theorem take_drop_memcpy_of_disjoint {seek size : Nat} (h : offset ≤ buffer.length)
    (hdisj : offset + data.length ≤ seek ∨ seek + size ≤ offset) :
    ((memcpy buffer offset data).drop seek).take size = (buffer.drop seek).take size := by
  apply ext_getElem?
  intro i
  simp only [getElem?_take, getElem?_drop, getElem?_memcpy h]
  grind

theorem take_drop_memcpy {seek size : Nat} (hfit : seek + size ≤ buffer.length)
    (h : offset + data.length ≤ size) :
    ((memcpy buffer (offset + seek) data).drop seek).take size =
      memcpy ((buffer.drop seek).take size) offset data := by
  apply ext_getElem?
  intro i
  have hlen : offset ≤ ((buffer.drop seek).take size).length := by
    rw [length_take, length_drop]
    omega
  rw [getElem?_memcpy hlen]
  simp only [getElem?_take, getElem?_drop,
    getElem?_memcpy (show offset + seek ≤ buffer.length by omega)]
  grind

end Memcpy

def Block.bytes (files : List (List UInt8)) (b : Block) : List UInt8 :=
  match b.storage with
  | .memory ptr => ptr
  | .initial buffer => buffer
  | .file file seek => ((files.getD file []).drop seek).take b.size

/-- What a write to a block leaves as it is: its size, whether it is the initial block, and its
place if it is in a file. -/
structure Extent where
  size : Nat
  initial : Bool
  place : Option (Nat × Nat)

def Block.extent (b : Block) : Extent :=
  match b.storage with
  | .memory _ => ⟨b.size, false, none⟩
  | .initial _ => ⟨b.size, true, none⟩
  | .file file seek => ⟨b.size, false, some (file, seek)⟩

/-- Of two blocks in one file, the first one ends in front of the second one. -/
def Before (d e : Extent) : Prop :=
  ∀ file seek seek', d.place = some (file, seek) → e.place = some (file, seek') →
    seek + d.size ≤ seek'

def Block.Fits (files : List (List UInt8)) (b : Block) : Prop := (b.bytes files).length = b.size

variable {files files' : List (List UInt8)} {b c : Block} {offset : Nat} {data : List UInt8}

@[simp]
theorem Block.extent_size (b : Block) : b.extent.size = b.size := by
  cases hs : b.storage <;> simp [extent, hs]

theorem Block.cut_le (b : Block) (h : offset ≤ b.size) (length : Nat) :
    offset + b.cut offset length ≤ b.size := by
  rw [cut]
  split_ifs <;> omega

theorem Block.read_eq (b : Block) (h : offset ≤ b.size) (length : Nat) :
    b.read files offset length = ((b.bytes files).drop offset).take (b.cut offset length) := by
  have hcut := b.cut_le h length
  cases hs : b.storage with
  | memory ptr => simp only [read, bytes, hs]
  | initial buffer => simp only [read, bytes, hs]
  | file file seek =>
    simp only [read, bytes, hs]
    rw [drop_take, drop_drop, take_take, Nat.add_comm seek]
    congr 1
    omega

/-- The block that `write` leaves. -/
def Block.written (b : Block) (files : List (List UInt8)) (offset : Nat) (data : List UInt8) :
    Block :=
  (b.write files offset data).2.1

/-- The files that `write` leaves. -/
def Block.filesWritten (b : Block) (files : List (List UInt8)) (offset : Nat) (data : List UInt8) :
    List (List UInt8) :=
  (b.write files offset data).2.2

theorem Block.write_eq (b : Block) :
    b.write files offset data =
      (b.cut offset data.length, b.written files offset data, b.filesWritten files offset
        data) := by
  simp only [written, filesWritten, write]
  split <;> rfl

@[simp]
theorem Block.extent_written (b : Block) : (b.written files offset data).extent = b.extent := by
  cases hs : b.storage <;> simp [written, write, extent, hs]

@[simp]
theorem Block.size_written (b : Block) : (b.written files offset data).size = b.size := by
  rw [← extent_size, extent_written, extent_size]

theorem Block.Fits.file (h : b.Fits files) {file seek : Nat} (hs : b.storage = .file file seek)
    (hsize : 0 < b.size) : file < files.length ∧ seek + b.size ≤ (files.getD file []).length := by
  have hlen : min b.size ((files.getD file []).length - seek) = b.size := by
    simpa [Fits, bytes, hs] using h
  have hfit : seek + b.size ≤ (files.getD file []).length := by omega
  refine ⟨?_, hfit⟩
  by_contra hge
  rw [getD_eq_getElem?_getD, getElem?_eq_none (by omega)] at hfit
  simp only [Option.getD_none, length_nil] at hfit
  omega

theorem getD_modify (f : List UInt8 → List UInt8) {file : Nat} (h : file < files.length) (i : Nat) :
    (files.modify file f).getD i [] = if file = i then f (files.getD i []) else files.getD i
      [] := by
  simp only [getD_eq_getElem?_getD, getElem?_modify]
  split_ifs with heq
  · subst heq
    simp [getElem?_eq_getElem h]
  · simp

theorem Block.bytes_written (h : b.Fits files) (ho : offset ≤ b.size) :
    (b.written files offset data).bytes (b.filesWritten files offset data) =
      memcpy (b.bytes files) offset (data.take (b.cut offset data.length)) := by
  have hcut := b.cut_le ho data.length
  cases hs : b.storage with
  | memory ptr => simp only [written, write, bytes, hs]
  | initial buffer => simp only [written, write, bytes, hs]
  | file file seek =>
    simp only [written, filesWritten, write, bytes, hs]
    by_cases hsize : 0 < b.size
    · obtain ⟨hfile, hfit⟩ := h.file hs hsize
      rw [getD_modify _ hfile, if_pos rfl, take_drop_memcpy hfit]
      rw [length_take]
      omega
    · have hzero : b.size = 0 := by omega
      have hnone : b.cut offset data.length = 0 := by omega
      simp [hnone, memcpy]

theorem Block.bytes_filesWritten (h : b.Fits files) (ho : offset ≤ b.size)
    (hbefore : Before b.extent c.extent ∨ Before c.extent b.extent) :
    c.bytes (b.filesWritten files offset data) = c.bytes files := by
  have hcut := b.cut_le ho data.length
  have htake : (data.take (b.cut offset data.length)).length ≤ b.cut offset data.length :=
    length_take_le ..
  cases hs : b.storage with
  | memory ptr => simp only [filesWritten, write, hs]
  | initial buffer => simp only [filesWritten, write, hs]
  | file file seek =>
    cases hc : c.storage with
    | memory ptr => simp only [bytes, hc]
    | initial buffer => simp only [bytes, hc]
    | file file' seek' =>
      simp only [filesWritten, write, bytes, hs, hc]
      by_cases hsize : 0 < b.size
      · obtain ⟨hfile, hfit⟩ := h.file hs hsize
        rw [getD_modify _ hfile]
        split_ifs with heq
        · subst heq
          have hbefore : seek + b.size ≤ seek' ∨ seek' + c.size ≤ seek := by
            refine hbefore.imp (fun h => ?_) (fun h => ?_)
            · simpa using h file seek seek' (by simp [extent, hs]) (by simp [extent, hc])
            · simpa using h file seek' seek (by simp [extent, hc]) (by simp [extent, hs])
          exact take_drop_memcpy_of_disjoint (by omega) (by omega)
        · rfl
      · have hnone : b.cut offset data.length = 0 := by omega
        simp [hnone, memcpy_nil, getElem?_modify]

theorem Block.fits_written (h : b.Fits files) (ho : offset ≤ b.size) :
    (b.written files offset data).Fits (b.filesWritten files offset data) := by
  have hcut := b.cut_le ho data.length
  rw [Fits, bytes_written h ho, size_written, length_memcpy, h]
  rw [length_take, h]
  omega

def flat (files : List (List UInt8)) (blocks : List Block) : List UInt8 :=
  blocks.flatMap (Block.bytes files)

/-- The blocks fit, and lie apart from each other in their files. -/
structure Laid (files : List (List UInt8)) (blocks : List Block) : Prop where
  fits : ∀ b ∈ blocks, b.Fits files
  before : (blocks.map Block.extent).Pairwise Before

def total (blocks : List Block) : Nat := (blocks.map Block.size).sum

variable {blocks : List Block}

@[simp]
theorem flat_nil (files : List (List UInt8)) : flat files [] = [] := rfl

@[simp]
theorem flat_cons (files : List (List UInt8)) (b : Block) (blocks : List Block) :
    flat files (b :: blocks) = b.bytes files ++ flat files blocks := rfl

@[simp]
theorem flat_append (files : List (List UInt8)) (as bs : List Block) :
    flat files (as ++ bs) = flat files as ++ flat files bs := flatMap_append

@[simp]
theorem total_nil : total [] = 0 := rfl

@[simp]
theorem total_cons (b : Block) (blocks : List Block) :
    total (b :: blocks) = b.size + total blocks := by
  simp [total]

@[simp]
theorem total_append (as bs : List Block) : total (as ++ bs) = total as + total bs := by
  simp [total]

theorem flat_congr (h : ∀ b ∈ blocks, b.bytes files' = b.bytes files) :
    flat files' blocks = flat files blocks := by
  rw [flat, flat]
  exact flatMap_congr h

theorem length_flat (h : ∀ b ∈ blocks, b.Fits files) :
    (flat files blocks).length = total blocks := by
  induction blocks with
  | nil => rfl
  | cons b blocks ih =>
    have hb : (b.bytes files).length = b.size := h b mem_cons_self
    rw [flat_cons, length_append, total_cons, hb, ih fun c hc => h c (mem_cons_of_mem _ hc)]

theorem Laid.tail (h : Laid files (b :: blocks)) : Laid files blocks where
  fits := fun c hc => h.fits c (mem_cons_of_mem _ hc)
  before := by
    have hb := h.before
    rw [map_cons, pairwise_cons] at hb
    exact hb.2

theorem Laid.head (h : Laid files (b :: blocks)) : ∀ c ∈ blocks, Before b.extent c.extent := by
  have hb := h.before
  rw [map_cons, pairwise_cons] at hb
  exact fun c hc => hb.1 _ (mem_map_of_mem hc)

theorem readBlocks_eq {l : Nat} (h : Laid files blocks) (ho : offset ≤ total (blocks.take 1))
    (hl : offset + l ≤ total blocks) :
    readBlocks files blocks offset l = ((flat files blocks).drop offset).take l := by
  induction blocks generalizing offset l with
  | nil => simp [readBlocks]
  | cons b blocks ih =>
    rw [readBlocks]
    split_ifs with hzero
    · simp [hzero]
    have hlen : (b.bytes files).length = b.size := h.fits b mem_cons_self
    have hob : offset ≤ b.size := by simpa using ho
    rw [total_cons] at hl
    rw [Block.read_eq b hob, ih h.tail (Nat.zero_le _) (by rw [Block.cut]; split_ifs <;> omega),
      flat_cons, drop_append_of_le_length (by omega), take_append, length_drop, hlen, drop_zero]
    congr 1
    · rw [Block.cut]
      split_ifs with hover
      · rw [take_of_length_le, take_of_length_le]
        all_goals rw [length_drop]; omega
      · rfl
    · congr 1
      rw [Block.cut]
      split_ifs <;> omega

theorem memcpy_cut (h : b.Fits files) (ho : offset ≤ b.size) (rest : List UInt8) :
    memcpy (b.bytes files) offset (data.take (b.cut offset data.length)) ++
        memcpy rest 0 (data.drop (b.cut offset data.length)) =
      memcpy (b.bytes files ++ rest) offset data := by
  have hlen : (b.bytes files).length = b.size := h
  rw [Block.cut]
  split_ifs with hover
  · rw [memcpy_append (by omega) rest (by omega), hlen]
  · rw [take_length, drop_length, memcpy_nil, memcpy_append_left (by omega)]

theorem writeBlocks_spec (h : Laid files blocks) (ho : offset ≤ total (blocks.take 1))
    (hl : offset + data.length ≤ total blocks) :
    Laid (writeBlocks blocks files offset data).2 (writeBlocks blocks files offset data).1 ∧
    (writeBlocks blocks files offset data).1.map Block.extent = blocks.map Block.extent ∧
    flat (writeBlocks blocks files offset data).2 (writeBlocks blocks files offset data).1 =
      memcpy (flat files blocks) offset data ∧
    ∀ c : Block, (∀ b ∈ blocks, Before c.extent b.extent) →
      c.bytes (writeBlocks blocks files offset data).2 = c.bytes files := by
  induction blocks generalizing files offset data with
  | nil =>
    have hdata : data = [] := by
      rw [total_nil] at hl
      exact eq_nil_of_length_eq_zero (by omega)
    subst hdata
    exact ⟨h, rfl, by simp [writeBlocks, memcpy_nil], fun c _ => rfl⟩
  | cons b blocks ih =>
    rw [writeBlocks]
    split_ifs with hnil
    · subst hnil
      exact ⟨h, rfl, by rw [memcpy_nil], fun c _ => rfl⟩
    have hb : b.Fits files := h.fits b mem_cons_self
    have hob : offset ≤ b.size := by simpa using ho
    rw [total_cons] at hl
    simp only [Block.write_eq]
    -- The files after the write to the first block: the other blocks keep their bytes.
    have hkeep : ∀ c ∈ blocks, c.bytes (b.filesWritten files offset data) = c.bytes files :=
      fun c hc => Block.bytes_filesWritten hb hob (.inl (h.head c hc))
    have hlaid : Laid (b.filesWritten files offset data) blocks := by
      refine ⟨fun c hc => ?_, h.tail.before⟩
      rw [Block.Fits, hkeep c hc]
      exact h.tail.fits c hc
    obtain ⟨hlaid', hext, hflat, hframe⟩ := @ih (b.filesWritten files offset data) 0
      (data.drop (b.cut offset data.length)) hlaid (Nat.zero_le _)
      (by rw [length_drop, Block.cut]; split_ifs <;> omega)
    have hbytes := hframe (b.written files offset data)
      (fun c hc => by rw [Block.extent_written]; exact h.head c hc)
    rw [Block.bytes_written hb hob] at hbytes
    refine ⟨⟨?_, ?_⟩, ?_, ?_, ?_⟩
    · refine forall_mem_cons.2 ⟨?_, hlaid'.fits⟩
      rw [Block.Fits, hbytes, ← Block.bytes_written hb hob]
      exact Block.fits_written hb hob
    · rw [map_cons, Block.extent_written, hext]
      exact h.before
    · rw [map_cons, Block.extent_written, hext, map_cons]
    · rw [flat_cons, hbytes, hflat, flat_congr hkeep, flat_cons]
      exact memcpy_cut hb hob _
    · intro c hc
      rw [hframe c fun d hd => hc d (mem_cons_of_mem _ hd)]
      exact Block.bytes_filesWritten hb hob (.inr (hc b mem_cons_self))

theorem walkForward_spec {i : Nat} (h : offset < total blocks) :
    ∃ j o, walkForward blocks i offset = some (i + j, o) ∧ total (blocks.take j) + o = offset ∧
      o < total ((blocks.drop j).take 1) := by
  induction blocks generalizing i offset with
  | nil => simp at h
  | cons b blocks ih =>
    rw [total_cons] at h
    rw [walkForward]
    split_ifs with hge
    · obtain ⟨j, o, hwalk, htotal, ho⟩ := @ih (offset - b.size) (i + 1) (by omega)
      refine ⟨j + 1, o, ?_, ?_, by simpa using ho⟩
      · rw [hwalk, Nat.add_right_comm, Nat.add_assoc]
      · rw [take_succ_cons, total_cons]
        omega
    · exact ⟨0, offset, rfl, by simp, by simp; omega⟩

theorem walkBackward_spec {i physicalSize past : Nat} (h : offset < physicalSize)
    (hp : total blocks = physicalSize - past) (hpast : past ≤ offset) :
    ∃ j o, walkBackward physicalSize blocks.reverse i offset = some (i + j, o) ∧
      j < blocks.length ∧ total (blocks.take (blocks.length - 1 - j)) + past + o = offset ∧
      o < total ((blocks.drop (blocks.length - 1 - j)).take 1) := by
  induction blocks using List.reverseRecOn generalizing i offset past with
  | nil => simp at hp; omega
  | append_singleton blocks b ih =>
    simp only [total_append, total_cons, total_nil] at hp
    rw [reverse_append, reverse_singleton, singleton_append, walkBackward]
    split_ifs with hgt
    · obtain ⟨j, o, hwalk, hj, htotal, ho⟩ :=
        @ih (offset + b.size) (i + 1) (past + b.size) (by omega) (by omega) (by omega)
      have hidx : (blocks ++ [b]).length - 1 - (j + 1) = blocks.length - 1 - j := by
        simp only [length_append, length_singleton]
        omega
      refine ⟨j + 1, o, ?_, by simpa using hj, ?_, ?_⟩
      · rw [hwalk, Nat.add_right_comm, Nat.add_assoc]
      · rw [hidx, take_append_of_le_length (by omega)]
        omega
      · rw [hidx, drop_append_of_le_length (by omega), take_append_of_le_length]
        · exact ho
        · rw [length_drop]
          omega
    · refine ⟨0, offset - (physicalSize - b.size), rfl, by simp, ?_, ?_⟩
      · simp
        omega
      · simp
        omega

theorem findBlock_spec {s : TempSpace} (hp : total s.blocks = s.physicalSize)
    (h : offset < s.physicalSize) :
    ∃ i o, findBlock s offset = some (i, o) ∧ total (s.blocks.take i) + o = offset ∧
      o < total ((s.blocks.drop i).take 1) := by
  rw [findBlock]
  split_ifs with hhalf
  · obtain ⟨j, o, hwalk, htotal, ho⟩ := @walkForward_spec offset s.blocks 0 (by omega)
    exact ⟨j, o, by rw [hwalk, Nat.zero_add], htotal, ho⟩
  · obtain ⟨j, o, hwalk, -, htotal, ho⟩ :=
      @walkBackward_spec offset s.blocks 0 s.physicalSize 0 h (by omega) (Nat.zero_le _)
    refine ⟨s.blocks.length - 1 - j, o, ?_, by omega, ho⟩
    rw [hwalk, Nat.zero_add]
    rfl

end Firebird.Jrd.Temp
