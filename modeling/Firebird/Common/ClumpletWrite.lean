import Firebird.Common.ClumpletRead

/-!
# Reading what was written

Clumplets that are appended to a new buffer are visited by the reader in their order, with the tag,
the type and the data they were written with.
-/
namespace Firebird.Common.Clumplet

open List

structure Visited where
  type : ClumpletType
  tag : UInt8
  length : Nat
  bytes : List UInt8
  int : Option (BitVec 32)
  bigInt : Option (BitVec 64)

def Reader.visit (s : Space) : Nat → Reader → Except Error (List Visited)
  | 0, _ => .ok []
  | n + 1, r =>
    if r.isEof then .ok []
    else do
      let tag ← r.getClumpTag
      let type ← getClumpletType r.kind r.spbState tag
      let length ← r.getClumpLength s
      let ptr ← r.getBytes s
      let next ← r.moveNext s
      let rest ← next.visit s n
      .ok (⟨type, tag, length, (r.buffer.drop ptr).take length, (r.getInt s).toOption,
        (r.getBigInt s).toOption⟩ :: rest)

inductive Insertion
  | bytes (tag : UInt8) (bytes : List UInt8)
  | int (tag : UInt8) (value : BitVec 32)
  | bigInt (tag : UInt8) (value : BitVec 64)
  deriving DecidableEq

def Insertion.tag : Insertion → UInt8
  | bytes tag _ | int tag _ | bigInt tag _ => tag

def Insertion.data : Insertion → List UInt8
  | bytes _ data => data
  | int _ value => Writer.littleEndian 4 value.toNat
  | bigInt _ value => Writer.littleEndian 8 value.toNat

def Writer.apply (s : Space) (w : Writer) : Insertion → Except Error Writer
  | .bytes tag bytes => w.insertBytesLengthCheck s tag bytes
  | .int tag value => w.insertInt s tag value
  | .bigInt tag value => w.insertBigInt s tag value

def Writer.applyAll (s : Space) : Writer → List Insertion → Except Error
    (Writer × List ClumpletType)
  | w, [] => .ok (w, [])
  | w, i :: l => do
    let type ← getClumpletType w.kind w.spbState i.tag
    let w ← w.apply s i
    let (w, types) ← w.applyAll s l
    .ok (w, type :: types)

def Reads (i : Insertion) (v : Visited) : Prop :=
  v.tag = i.tag ∧ v.length = i.data.length ∧ v.bytes = i.data ∧
    match i with
    | .bytes _ _ => True
    | .int _ value => v.int = some value
    | .bigInt _ value => v.bigInt = some value

variable {s : Space} {kind : Kind} {tag spbState : UInt8} {bytes pre post : List UInt8}
variable {type : ClumpletType} {lenSize : Nat} {r : Reader} {w w' : Writer}

theorem length_littleEndian (n value : Nat) : (Writer.littleEndian n value).length = n := by
  induction n generalizing value with
  | zero => rfl
  | succ n ih => rw [Writer.littleEndian, length_cons, ih]

theorem toNat_ofNat_mod (value : Nat) : (UInt8.ofNat (value % 256)).toNat = value % 256 := by
  simp

theorem integer_littleEndian {v : Nat} (n value shift : Nat) (acc : BitVec v) :
    Reader.integer acc shift (Writer.littleEndian n value) =
      acc + BitVec.ofNat v (value % 256 ^ n * 2 ^ shift) := by
  induction n generalizing value shift acc with
  | zero => simp [Writer.littleEndian, Reader.integer, Nat.mod_one]
  | succ n ih =>
    rw [Writer.littleEndian, Reader.integer, ih, toNat_ofNat_mod, BitVec.add_assoc]
    congr 1
    have hshift : BitVec.ofNat v (value % 256) <<< shift =
        BitVec.ofNat v (value % 256 * 2 ^ shift) := by
      apply BitVec.eq_of_toNat_eq
      simp [Nat.shiftLeft_eq]
    have hsplit : value % 256 ^ (n + 1) = value % 256 + 256 * (value / 256 % 256 ^ n) := by
      rw [Nat.pow_succ', Nat.mod_mul]
    rw [hshift, ← BitVec.ofNat_add, hsplit, Nat.pow_add, Nat.add_mul]
    congr 1
    ring

variable {n : Nat}

theorem integer_toNat (value : BitVec (8 * n)) :
    Reader.integer 0 0 (Writer.littleEndian n value.toNat) = value := by
  have hlt := value.isLt
  rw [Nat.pow_mul] at hlt
  rw [integer_littleEndian, Nat.pow_zero, Nat.mul_one, Nat.mod_eq_of_lt hlt]
  simp

def nextState (kind : Kind) (spbState tag : UInt8) : UInt8 :=
  if kind = .spbStart ∧ spbState = 0 then tag else spbState

theorem adjustSpbState_eq (hbuffer : r.buffer = pre ++ tag :: post)
    (hoffset : r.curOffset = pre.length) :
    r.adjustSpbState = .ok { r with spbState := nextState r.kind r.spbState tag } := by
  have htag : r.getClumpTag = .ok tag := by
    rw [Reader.getClumpTag, hbuffer, hoffset, drop_left]
  rw [Reader.adjustSpbState, nextState]
  split_ifs
  · rw [htag]
    rfl
  · rfl

theorem insert_end (offset : Nat) (buffer bytes : List UInt8) (h : offset = buffer.length) :
    Writer.insert buffer offset bytes = buffer ++ bytes := by
  rw [Writer.insert, h, take_length, drop_length, append_nil]

theorem checkLength_lenSize (h : Writer.checkLength bytes.length type = .ok lenSize) :
    (type = .wide ∧ lenSize = 4 ∧ bytes.length < 2 ^ 32) ∨
    (type = .traditionalDpb ∧ lenSize = 1 ∧ bytes.length < 256) ∨
    (type = .singleTpb ∧ lenSize = 0 ∧ bytes.length = 0) ∨
    (type = .stringSpb ∧ lenSize = 2 ∧ bytes.length < 65536) ∨
    (type = .intSpb ∧ lenSize = 0 ∧ bytes.length = 4) ∨
    (type = .byteSpb ∧ lenSize = 0 ∧ bytes.length = 1) := by
  cases type <;> simp only [Writer.checkLength] at h <;> split_ifs at h with hlen <;> cases h
  · exact .inr (.inl ⟨rfl, rfl, by omega⟩)
  · exact .inr (.inr (.inl ⟨rfl, rfl, by omega⟩))
  · exact .inr (.inr (.inr (.inl ⟨rfl, rfl, by omega⟩)))
  · exact .inr (.inr (.inr (.inr (.inl ⟨rfl, rfl, by omega⟩))))
  · exact .inr (.inr (.inr (.inr (.inr ⟨rfl, rfl, by omega⟩))))
  · exact .inl ⟨rfl, rfl, by omega⟩

theorem insertBytesLengthCheck_spec (hend : w.curOffset = w.buffer.length)
    (h : w.insertBytesLengthCheck s tag bytes = .ok w') :
    ∃ type lenSize, getClumpletType w.kind w.spbState tag = .ok type ∧
      Writer.checkLength bytes.length type = .ok lenSize ∧ w'.kind = w.kind ∧
      w'.buffer = w.buffer ++ (tag :: Writer.littleEndian lenSize bytes.length ++ bytes) ∧
      w'.curOffset = w'.buffer.length ∧ w'.spbState = nextState w.kind w.spbState tag := by
  rw [Writer.insertBytesLengthCheck, if_neg (by omega)] at h
  cases htype : getClumpletType w.kind w.spbState tag with
  | error e =>
    rw [htype] at h
    cases h
  | ok type =>
    cases hlen : Writer.checkLength bytes.length type with
    | error e =>
      simp only [htype, hlen, bind, Except.bind] at h
      cases h
    | ok lenSize =>
      simp only [htype, hlen, bind, Except.bind] at h
      split_ifs at h
      rw [insert_end _ _ _ hend, insert_end _ (w.buffer ++ [tag]) _ (by simp [hend]),
        insert_end _ (w.buffer ++ [tag] ++ _) _ (by simp [length_littleEndian]; omega)] at h
      have hbuffer : w.buffer ++ [tag] ++ Writer.littleEndian lenSize bytes.length ++ bytes =
          w.buffer ++ tag :: (Writer.littleEndian lenSize bytes.length ++ bytes) := by simp
      rw [hbuffer] at h
      have hadjust := @adjustSpbState_eq tag w.buffer
        (Writer.littleEndian lenSize bytes.length ++ bytes) ⟨w.kind, _, w.curOffset, w.spbState⟩ rfl
          hend
      rw [hadjust] at h
      cases h
      refine ⟨type, lenSize, rfl, hlen, rfl, by simp, ?_, rfl⟩
      simp [length_littleEndian]
      omega

theorem sizes_written (h : Writer.checkLength bytes.length type = .ok lenSize) :
    Reader.sizes (tag :: (Writer.littleEndian lenSize bytes.length ++ bytes) ++ post) type =
      .ok (lenSize, bytes.length) := by
  rcases checkLength_lenSize h with ⟨rfl, rfl, hlt⟩ | ⟨rfl, rfl, hlt⟩ | ⟨rfl, rfl, hlt⟩ |
    ⟨rfl, rfl, hlt⟩ | ⟨rfl, rfl, hlt⟩ | ⟨rfl, rfl, hlt⟩
  · simp [Writer.littleEndian, Reader.sizes]
    omega
  · simp [Writer.littleEndian, Reader.sizes]
    omega
  · simp [Reader.sizes, hlt]
  · simp [Writer.littleEndian, Reader.sizes]
    omega
  · simp [Reader.sizes, hlt]
  · simp [Reader.sizes, hlt]

def written (tag : UInt8) (lenSize : Nat) (bytes : List UInt8) : List UInt8 :=
  tag :: (Writer.littleEndian lenSize bytes.length ++ bytes)

theorem length_written : (written tag lenSize bytes).length = 1 + lenSize + bytes.length := by
  rw [written, length_cons, length_append, length_littleEndian]
  omega

/-- The reader stands in front of a clumplet that was written in its state. -/
structure At (r : Reader) (tag : UInt8) (bytes : List UInt8) (type : ClumpletType) (lenSize : Nat) :
    Prop where
  buffer : ∃ pre post, r.buffer = pre ++ (written tag lenSize bytes ++ post) ∧
    r.curOffset = pre.length
  typed : getClumpletType r.kind r.spbState tag = .ok type
  length : Writer.checkLength bytes.length type = .ok lenSize

theorem At.announced (h : At r tag bytes type lenSize) :
    r.announced = .ok (lenSize, bytes.length) := by
  obtain ⟨pre, post, hbuffer, hoffset⟩ := h.buffer
  rw [Reader.announced, hbuffer, hoffset, drop_left, written]
  simp only [cons_append, h.typed]
  exact sizes_written h.length

theorem At.inside (h : At r tag bytes type lenSize) :
    r.curOffset + (1 + lenSize + bytes.length) ≤ r.buffer.length := by
  obtain ⟨pre, post, hbuffer, hoffset⟩ := h.buffer
  rw [hbuffer, hoffset, length_append, length_append, length_written]
  omega

theorem At.getClumpletSize_eq (h : At r tag bytes type lenSize) (hs : s.Holds r.buffer.length)
    (wTag wLength wData : Bool) :
    r.getClumpletSize s wTag wLength wData =
      .ok ((if wTag then 1 else 0) + (if wLength then lenSize else 0) +
        (if wData then bytes.length else 0)) := by
  have hin := h.inside
  have hfits := hs.fits
  have hwraps : ¬r.Wraps s := by
    rintro ⟨l, d, hann, hle⟩
    rw [h.announced, Except.ok.injEq, Prod.mk.injEq] at hann
    omega
  rw [Reader.getClumpletSize_of_not_wraps h.announced hwraps, if_neg (by omega)]

theorem At.getClumpTag_eq (h : At r tag bytes type lenSize) : r.getClumpTag = .ok tag := by
  obtain ⟨pre, post, hbuffer, hoffset⟩ := h.buffer
  rw [Reader.getClumpTag, hbuffer, hoffset, drop_left, written]
  rfl

theorem At.getClumpLength_eq (h : At r tag bytes type lenSize) (hs : s.Holds r.buffer.length) :
    r.getClumpLength s = .ok bytes.length := by
  rw [Reader.getClumpLength, h.getClumpletSize_eq hs]
  simp

theorem At.getBytes_eq (h : At r tag bytes type lenSize) (hs : s.Holds r.buffer.length) :
    r.getBytes s = .ok (r.curOffset + (1 + lenSize)) := by
  rw [Reader.getBytes, h.getClumpletSize_eq hs]
  rfl

theorem At.bytes_eq (h : At r tag bytes type lenSize) :
    (r.buffer.drop (r.curOffset + (1 + lenSize))).take bytes.length = bytes := by
  obtain ⟨pre, post, hbuffer, hoffset⟩ := h.buffer
  have hsplit : r.buffer =
      (pre ++ tag :: Writer.littleEndian lenSize bytes.length) ++ (bytes ++ post) := by
    rw [hbuffer, written]
    simp
  have hlen : r.curOffset + (1 + lenSize) =
      (pre ++ tag :: Writer.littleEndian lenSize bytes.length).length := by
    rw [hoffset, length_append, length_cons, length_littleEndian]
    omega
  rw [hsplit, hlen, drop_left, take_left]

theorem At.getInt_eq {value : BitVec 32} (h : At r tag bytes type lenSize)
    (hs : s.Holds r.buffer.length) (hvalue : bytes = Writer.littleEndian 4 value.toNat) :
    r.getInt s = .ok value := by
  have hlen : bytes.length = 4 := by rw [hvalue, length_littleEndian]
  rw [Reader.getInt, h.getBytes_eq hs, h.getClumpLength_eq hs]
  simp only [bind, Except.bind]
  rw [if_neg (by omega), h.bytes_eq, hvalue]
  exact congrArg _ (integer_toNat (n := 4) value)

theorem At.getBigInt_eq {value : BitVec 64} (h : At r tag bytes type lenSize)
    (hs : s.Holds r.buffer.length) (hvalue : bytes = Writer.littleEndian 8 value.toNat) :
    r.getBigInt s = .ok value := by
  have hlen : bytes.length = 8 := by rw [hvalue, length_littleEndian]
  rw [Reader.getBigInt, h.getBytes_eq hs, h.getClumpLength_eq hs]
  simp only [bind, Except.bind]
  rw [if_neg (by omega), h.bytes_eq, hvalue]
  exact congrArg _ (integer_toNat (n := 8) value)

theorem At.moveNext_eq (h : At r tag bytes type lenSize) (hs : s.Holds r.buffer.length)
    (heof : r.isEof = false) :
    r.moveNext s = .ok { r with
      curOffset := r.curOffset + (1 + lenSize + bytes.length)
      spbState := nextState r.kind r.spbState tag } := by
  have hin := h.inside
  have hfits := hs.fits
  have hadjust : r.adjustSpbState = .ok { r with spbState := nextState r.kind r.spbState tag } := by
    obtain ⟨pre, post, hbuffer, hoffset⟩ := h.buffer
    exact @adjustSpbState_eq tag pre (Writer.littleEndian lenSize bytes.length ++ bytes ++ post) r
      (by rw [hbuffer, written]; simp) hoffset
  rw [Reader.moveNext, if_neg (by simp [heof]), h.getClumpletSize_eq hs, hadjust]
  simp only [bind, Except.bind, if_true]
  rw [Nat.mod_eq_of_lt (by omega)]

theorem Writer.apply_eq (i : Insertion) : w.apply s i = w.insertBytesLengthCheck s i.tag
    i.data := by
  cases i <;> rfl

def Started (kind : Kind) (n : Nat) : Prop :=
  kind = .unTagged ∨ kind = .spbStart ∨ kind = .wideUnTagged ∨ kind = .spbItems ∨ 1 ≤ n

theorem isEof_eq_false (hstart : Started r.kind r.curOffset) (hlt : r.curOffset < r.buffer.length) :
    r.isEof = false := by
  rw [Reader.isEof, decide_eq_false_iff_not, Reader.getBufferLength, if_neg]
  · omega
  · rintro ⟨hone, h₁, h₂, h₃, h₄⟩
    rcases hstart with h | h | h | h | h
    · exact h₁ h
    · exact h₂ h
    · exact h₃ h
    · exact h₄ h
    · omega

theorem At.visit_eq {rest : List Visited} (h : At r tag bytes type lenSize)
    (hs : s.Holds r.buffer.length) (hstart : Started r.kind r.curOffset)
    (hrest : Reader.visit s n { r with
      curOffset := r.curOffset + (1 + lenSize + bytes.length)
      spbState := nextState r.kind r.spbState tag } = .ok rest) :
    r.visit s (n + 1) = .ok (⟨type, tag, bytes.length, bytes, (r.getInt s).toOption,
      (r.getBigInt s).toOption⟩ :: rest) := by
  have hin := h.inside
  have heof := isEof_eq_false hstart (by omega)
  rw [Reader.visit, if_neg (by simp [heof]), h.getClumpTag_eq]
  simp [bind, Except.bind, h.typed, h.getClumpLength_eq hs, h.getBytes_eq hs, h.moveNext_eq hs heof,
    hrest, h.bytes_eq]

theorem At.reads {i : Insertion} (h : At r i.tag i.data type lenSize)
    (hs : s.Holds r.buffer.length) :
    Reads i ⟨type, i.tag, i.data.length, i.data, (r.getInt s).toOption,
      (r.getBigInt s).toOption⟩ := by
  refine ⟨rfl, rfl, rfl, ?_⟩
  cases i with
  | bytes tag bytes => trivial
  | int tag value =>
    rw [h.getInt_eq hs rfl]
    rfl
  | bigInt tag value =>
    rw [h.getBigInt_eq hs rfl]
    rfl

variable {l : List Insertion} {types : List ClumpletType}

theorem applyAll_cons {i : Insertion} (h : w.applyAll s (i :: l) = .ok (w', types)) :
    ∃ type w₁ types', getClumpletType w.kind w.spbState i.tag = .ok type ∧
      w.insertBytesLengthCheck s i.tag i.data = .ok w₁ ∧ w₁.applyAll s l = .ok (w', types') ∧
      types = type :: types' := by
  rw [Writer.applyAll, Writer.apply_eq] at h
  cases htype : getClumpletType w.kind w.spbState i.tag with
  | error e =>
    rw [htype] at h
    cases h
  | ok type =>
    cases hinsert : w.insertBytesLengthCheck s i.tag i.data with
    | error e =>
      simp only [htype, hinsert] at h
      cases h
    | ok w₁ =>
      cases hrest : w₁.applyAll s l with
      | error e =>
        simp only [htype, hinsert, hrest, bind, Except.bind] at h
        cases h
      | ok p =>
        simp only [htype, hinsert, hrest, bind, Except.bind] at h
        cases h
        exact ⟨type, w₁, p.2, rfl, rfl, hrest, rfl⟩

theorem applyAll_append
    (hend : w.curOffset = w.buffer.length) (h : w.applyAll s l = .ok (w', types)) :
    w'.kind = w.kind ∧ ∃ post, w'.buffer = w.buffer ++ post := by
  induction l generalizing w types with
  | nil =>
    cases h
    exact ⟨rfl, [], by simp⟩
  | cons i l ih =>
    obtain ⟨type, w₁, types', -, hinsert, hrest, -⟩ := applyAll_cons h
    obtain ⟨_, _, _, _, hkind, hbuffer, hend', -⟩ := insertBytesLengthCheck_spec hend hinsert
    obtain ⟨hkind', post, hpost⟩ := ih hend' hrest
    exact ⟨hkind'.trans hkind, _, by rw [hpost, hbuffer, append_assoc]⟩

theorem visit_of_end (hend : r.curOffset = r.buffer.length) : r.visit s n = .ok [] := by
  have heof : r.isEof = true := by
    have hle := Reader.getBufferLength_le (r := r)
    exact decide_eq_true (by omega : r.curOffset ≥ r.getBufferLength)
  cases n with
  | zero => rfl
  | succ n => rw [Reader.visit, if_pos heof]

theorem Started.add (h : Started kind n) (m : Nat) : Started kind (n + m) := by
  rcases h with h | h | h | h | h
  · exact .inl h
  · exact .inr (.inl h)
  · exact .inr (.inr (.inl h))
  · exact .inr (.inr (.inr (.inl h)))
  · exact .inr (.inr (.inr (.inr (by omega))))

theorem visit_applyAll (hend : w.curOffset = w.buffer.length) (hstart : Started w.kind w.curOffset)
    (h : w.applyAll s l = .ok (w', types)) (hs : s.Holds w'.buffer.length) (hn : l.length ≤ n) :
    ∃ visited, Reader.visit s n ⟨w.kind, w'.buffer, w.curOffset, w.spbState⟩ = .ok visited ∧
      visited.map (·.type) = types ∧ Forall₂ Reads l visited := by
  induction l generalizing w types n with
  | nil =>
    cases h
    exact ⟨[], visit_of_end hend, rfl, .nil⟩
  | cons i l ih =>
    obtain ⟨n, rfl⟩ : ∃ m, n = m + 1 := ⟨n - 1, by rw [length_cons] at hn; omega⟩
    obtain ⟨type, w₁, types', htype, hinsert, hrest, rfl⟩ := applyAll_cons h
    obtain ⟨type', lenSize, htype', hlen, hkind, hbuffer, hend', hstate⟩ :=
      insertBytesLengthCheck_spec hend hinsert
    obtain rfl : type = type' := by
      rw [htype] at htype'
      exact Except.ok.inj htype'
    obtain ⟨-, post, hpost⟩ := applyAll_append hend' hrest
    -- The reader stands where the writer stood.
    have hat : At ⟨w.kind, w'.buffer, w.curOffset, w.spbState⟩ i.tag i.data type lenSize := by
      refine ⟨⟨w.buffer, post, ?_, hend⟩, htype, hlen⟩
      rw [hpost, hbuffer, append_assoc, written]
      rfl
    have hoffset : w₁.curOffset = w.curOffset + (1 + lenSize + i.data.length) := by
      rw [hend', hbuffer, length_append, hend, length_append, length_cons, length_littleEndian]
      omega
    have hstart' : Started w₁.kind w₁.curOffset := by
      rw [hkind, hoffset]
      exact hstart.add _
    have hn' : l.length ≤ n := by
      rw [length_cons] at hn
      omega
    obtain ⟨visited, hvisit, htypes, hreads⟩ := ih hend' hstart' hrest hn'
    refine ⟨_, hat.visit_eq hs hstart ?_, congrArg _ htypes, .cons (hat.reads hs) hreads⟩
    rw [← hvisit, hkind, hoffset, hstate]

theorem rewind_append (hs : 0 < s.address) (offset : Nat) (state : UInt8) (post : List UInt8) :
    Reader.rewind s ⟨kind, Writer.initNewBuffer kind tag ++ post, offset, state⟩ =
      ⟨kind, Writer.initNewBuffer kind tag ++ post, (Writer.initNewBuffer kind tag).length, 0⟩ := by
  have hne : s.address ≠ 0 := by omega
  have hversion : iscSpbVersion ≠ iscSpbVersion1 := by decide
  by_cases htag : tag = iscSpbVersion1
  · cases kind <;> simp [Writer.initNewBuffer, Reader.rewind, hne, htag]
  · cases kind <;> simp [Writer.initNewBuffer, Reader.rewind, Reader.getBufferLength, hne, htag,
      hversion]

theorem new_eq (hs : 0 < s.address) (limit : Nat) :
    Writer.new s kind limit tag =
      ⟨⟨kind, Writer.initNewBuffer kind tag, (Writer.initNewBuffer kind tag).length, 0⟩,
        limit⟩ := by
  have hrewind := @rewind_append s kind tag hs 0 0 []
  rw [append_nil] at hrewind
  rw [Writer.new, hrewind]

theorem started_new (kind : Kind) (tag : UInt8) :
    Started kind (Writer.initNewBuffer kind tag).length := by
  cases kind <;> simp [Started, Writer.initNewBuffer]
  split_ifs <;> simp

/-- Clumplets that are appended to a new block of any kind are read in order, with the tags, the
bytes and the types they were written with, and numbers with their values. -/
theorem visit_new {l : List Insertion} {types : List ClumpletType} {limit n : Nat}
    (haddress : 0 < s.address) (h : (Writer.new s kind limit tag).applyAll s l = .ok (w, types))
    (hs : s.Holds w.buffer.length) (hn : l.length ≤ n) :
    ∃ visited, (Reader.rewind s w.toReader).visit s n = .ok visited ∧
      visited.map (·.type) = types ∧ Forall₂ Reads l visited := by
  rw [new_eq haddress] at h
  obtain ⟨hkind, post, hpost⟩ := applyAll_append rfl h
  have hreader : Reader.rewind s w.toReader =
      ⟨kind, w.buffer, (Writer.initNewBuffer kind tag).length, 0⟩ := by
    obtain ⟨⟨kind', buffer, offset, state⟩, limit'⟩ := w
    simp only at hkind hpost
    rw [hkind, hpost]
    exact rewind_append haddress offset state post
  rw [hreader]
  exact visit_applyAll rfl (started_new kind tag) h hs hn

def backupBlock : List Insertion :=
  [.bytes iscActionSvcBackup [], .bytes iscSpbDbname [97, 46, 102, 100, 98], .int iscSpbOptions 4]

def backupWriter : Writer :=
  ⟨⟨.spbStart, [1, 106, 5, 0, 97, 46, 102, 100, 98, 108, 4, 0, 0, 0], 14, 1⟩, 1024⟩

theorem visit_new_backupBlock :
    (Writer.new ⟨32, 4096⟩ .spbStart 1024 0).applyAll ⟨32, 4096⟩ backupBlock =
        .ok (backupWriter, [.singleTpb, .stringSpb, .intSpb]) ∧
      ∃ visited, (Reader.rewind ⟨32, 4096⟩ backupWriter.toReader).visit ⟨32, 4096⟩ 3 = .ok visited ∧
        visited.map (·.type) = [.singleTpb, .stringSpb, .intSpb] ∧
        Forall₂ Reads backupBlock visited := by
  have happly : (Writer.new ⟨32, 4096⟩ .spbStart 1024 0).applyAll ⟨32, 4096⟩ backupBlock =
      .ok (backupWriter, [.singleTpb, .stringSpb, .intSpb]) := by decide
  exact ⟨happly, visit_new (by decide) happly ⟨by decide, by decide, by decide⟩ (by decide)⟩

end Firebird.Common.Clumplet
