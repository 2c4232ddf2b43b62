import Firebird.Jrd.TempGrow

/-!
# When temporary space grows as a whole

While there is room, the calls keep the sizes of the space equal to those of its blocks. A call that
finds no room has already changed the sizes, and may have lost the initial block.
-/
namespace Firebird.Jrd.Temp

open List

variable {minBlockSize alignment : Nat} {g : Growing} {env : Env} {s s' : TempSpace} {size : Nat}

/-- The blocks are well formed, the initial buffer is that of the initial block, and each file has
its directory. -/
structure Growing.Sound (g : Growing) : Prop where
  wf : Wf g.space
  initial : g.initialBuffer = Temp.initialBuffer g.space
  dirs : g.fileDirs.length = g.space.tempFiles.length

theorem Wf.sizes (h : Wf s) : Sizes s := ⟨h.physical.symm, h.logical⟩

theorem sound_new (dynamic : Bool) : (Growing.new dynamic).Sound :=
  ⟨⟨⟨by simp [Growing.new, Temp.new], by simp [Growing.new, Temp.new]⟩,
    by simp [Growing.new, Temp.new], rfl, Nat.le_refl _, fun _ => .inl rfl⟩, rfl, rfl⟩

theorem initialBuffer_of_last {b : Block} (h : s.blocks.getLast? = some b)
    (hb : ∀ buffer, b.storage ≠ .initial buffer) : initialBuffer s = [] := by
  rw [initialBuffer]
  split
  · rename_i size buffer hblocks
    rw [hblocks] at h
    cases h
    exact absurd rfl (hb buffer)
  · rfl

theorem initialBuffer_appendBlock (s : TempSpace) (p : Placement) (size : Nat)
    (initial : List UInt8) : initialBuffer (appendBlock s p size initial) = [] := by
  cases p with
  | memory fresh =>
    refine initialBuffer_of_last (by simp only [appendBlock, getLast?_concat]; rfl) ?_
    simp [Block.write]
  | file index =>
    simp only [appendBlock]
    split_ifs with hsame
    · cases hlast : s.blocks.getLast? with
      | none =>
        rw [hlast] at hsame
        simp at hsame
      | some b =>
        obtain ⟨before, hblocks⟩ := getLast?_eq_some_iff.1 hlast
        rw [hlast] at hsame
        refine initialBuffer_of_last (b := { b with size := b.size + size }) ?_ ?_
        · simp [hblocks, Common.modify_append]
        · intro buffer hstorage
          simp only at hstorage
          simp [Block.sameFile, hstorage] at hsame
    · refine initialBuffer_of_last (by simp only [getLast?_concat]; rfl) ?_
      simp [Block.write]

theorem appendBlock_tempFiles_memory (s : TempSpace) (fresh : Nat → UInt8) (size : Nat)
    (initial : List UInt8) :
    (appendBlock s (.memory fresh) size initial).tempFiles = s.tempFiles := by
  simp [appendBlock, Block.write]

theorem appendBlock_tempFiles_file (s : TempSpace) (index size : Nat) (initial : List UInt8) :
    (appendBlock s (.file index) size initial).tempFiles.length =
      (setupFile s.tempFiles index size).2.length := by
  simp only [appendBlock]
  split_ifs
  · rfl
  · simp [Block.write]

theorem Wf.grow {files : List (List UInt8)} (h : Wf s)
    (hgrow : ∀ i, s.tempFiles.getD i [] <+: files.getD i []) :
    Wf { s with tempFiles := files } ∧ flat files s.blocks = s.bytes := by
  obtain ⟨hlaid, hflat⟩ := h.laid.grow h.pos hgrow
  exact ⟨⟨hlaid, h.pos, h.physical, h.logical, h.dynamic⟩, hflat⟩

theorem Growing.Sound.extend_small (h : g.Sound)
    (hroom : g.space.logicalSize + size ≤ g.space.physicalSize ∨
      (g.space.initiallyDynamic = true ∧ g.space.logicalSize + size < minTempBlockSize)) :
    (g.extend minBlockSize env size).1 = true ∧ (g.extend minBlockSize env size).2.Sound ∧
      (g.extend minBlockSize env size).2.space =
        Temp.extend minBlockSize g.space (.memory env.fresh) size := by
  obtain ⟨s, initial, dirs⟩ := g
  obtain ⟨hwf, hinitial, hdirs⟩ := h
  obtain rfl : initial = Temp.initialBuffer s := hinitial
  have hext := (@Wf.extend minBlockSize s hwf (.memory env.fresh) size).1
  have hsame : Temp.initialBuffer { s with logicalSize := s.logicalSize + size } =
    Temp.initialBuffer s := rfl
  dsimp only at hroom
  by_cases hmore : s.logicalSize + size > s.physicalSize
  · have hsmall : s.initiallyDynamic = true ∧ s.logicalSize + size < minTempBlockSize :=
      hroom.resolve_left (by omega)
    simp only [Growing.extend, Temp.extend, hsame] at hext ⊢
    rw [if_pos hmore, if_pos hsmall] at hext ⊢
    rw [if_pos hmore, if_pos hsmall]
    refine ⟨rfl, ⟨?_, rfl, hdirs⟩, ?_⟩
    · cases hbuf : Temp.initialBuffer s <;> rw [hbuf] at hext <;> exact hext
    · cases Temp.initialBuffer s <;> rfl
  · simp only [Growing.extend, Temp.extend] at hext ⊢
    rw [if_neg hmore] at hext ⊢
    rw [if_neg hmore]
    exact ⟨rfl, ⟨hext, rfl, hdirs⟩, rfl⟩

/-- A large block, when memory or a directory takes it: the space is what the model without failures
makes of it, beside what the attempts before have left in the files. -/
theorem Growing.Sound.place_room (h : g.Sound) (s : TempSpace)
    (hs : s.tempFiles = g.space.tempFiles)
    (hroom : env.memory.isSome ∨ Room env.directories g.fileDirs) :
    ∃ files p, (∀ i, g.space.tempFiles.getD i [] <+: files.getD i []) ∧
      (g.place env s size).1 = true ∧
      (g.place env s size).2.space =
        Temp.appendBlock { s with tempFiles := files } p size g.initialBuffer ∧
      (g.place env s size).2.initialBuffer = [] ∧
      (g.place env s size).2.fileDirs.length = (g.place env s size).2.space.tempFiles.length := by
  rw [Growing.place]
  cases hmem : env.memory with
  | some fresh =>
    refine ⟨g.space.tempFiles, .memory fresh, fun i => prefix_rfl, rfl, ?_, rfl, ?_⟩
    · rw [← hs]
    · simp only
      rw [appendBlock_tempFiles_memory, hs, h.dirs]
  | none =>
    have hfound : (findRoom env.directories s.tempFiles g.fileDirs).1.isSome := by
      rw [findRoom_isSome]
      simpa [hmem] using hroom
    obtain ⟨hgrow, -, hlen⟩ := findRoom_spec env.directories s.tempFiles g.fileDirs (hs ▸ h.dirs)
    obtain ⟨index, hindex⟩ := Option.isSome_iff_exists.1 hfound
    rcases hr : findRoom env.directories s.tempFiles g.fileDirs with ⟨found, files, dirs⟩
    rw [hr] at hindex hgrow hlen
    obtain rfl : found = some index := hindex
    refine ⟨files, .file index, hs ▸ hgrow, rfl, rfl, rfl, ?_⟩
    simp only
    rw [appendBlock_tempFiles_file]
    exact hlen index size rfl

theorem Growing.place_noRoom {s : TempSpace}
    (hroom : ¬ (env.memory.isSome ∨ Room env.directories g.fileDirs)) :
    (g.place env s size).1 = false ∧
      (g.place env s size).2.space.logicalSize = s.logicalSize ∧
      (g.place env s size).2.space.physicalSize = s.physicalSize ∧
      (g.place env s size).2.space.blocks = s.blocks := by
  have hmem : env.memory = none := by
    cases hmem : env.memory with
    | none => rfl
    | some fresh => exact absurd (.inl (by simp [hmem])) hroom
  have hnone : (findRoom env.directories s.tempFiles g.fileDirs).1 = none := by
    rw [← Option.not_isSome_iff_eq_none, findRoom_isSome]
    exact fun h => hroom (.inr h)
  rw [Growing.place, hmem]
  rcases hr : findRoom env.directories s.tempFiles g.fileDirs with ⟨found, files, dirs⟩
  rw [hr] at hnone
  obtain rfl : found = none := hnone
  exact ⟨rfl, rfl, rfl, rfl⟩

theorem Growing.extend_large (hmore : g.space.physicalSize < g.space.logicalSize + size)
    (hlarge : ¬ (g.space.initiallyDynamic = true ∧ g.space.logicalSize + size < minTempBlockSize)) :
    g.extend minBlockSize env size =
      if g.initialBuffer ≠ [] then
        g.place env { g.space with
          logicalSize := g.space.logicalSize + size
          blocks := []
          physicalSize := fbAlign (g.space.logicalSize + size) minBlockSize }
          (fbAlign (g.space.logicalSize + size) minBlockSize)
      else
        g.place env { g.space with
          logicalSize := g.space.logicalSize + size
          physicalSize := g.space.physicalSize +
            fbAlign (g.space.logicalSize + size - g.space.physicalSize) minBlockSize }
          (fbAlign (g.space.logicalSize + size - g.space.physicalSize) minBlockSize) := by
  simp only [Growing.extend]
  rw [if_pos hmore, if_neg hlarge]

theorem Growing.Sound.extend_room (h : g.Sound)
    (hroom : g.space.logicalSize + size ≤ g.space.physicalSize ∨
      (g.space.initiallyDynamic = true ∧ g.space.logicalSize + size < minTempBlockSize) ∨
      env.memory.isSome ∨ Room env.directories g.fileDirs) :
    (g.extend minBlockSize env size).1 = true ∧ (g.extend minBlockSize env size).2.Sound ∧
      (g.extend minBlockSize env size).2.space.logicalSize = g.space.logicalSize + size := by
  by_cases hsmall : g.space.logicalSize + size ≤ g.space.physicalSize ∨
      (g.space.initiallyDynamic = true ∧ g.space.logicalSize + size < minTempBlockSize)
  · obtain ⟨htrue, hsound, hspace⟩ :=
      @Growing.Sound.extend_small minBlockSize g env size h hsmall
    refine ⟨htrue, hsound, ?_⟩
    rw [hspace, extend_logicalSize]
  · have hmore : g.space.physicalSize < g.space.logicalSize + size := by
      by_contra hle
      exact hsmall (.inl (by omega))
    have hlarge : ¬ (g.space.initiallyDynamic = true ∧
        g.space.logicalSize + size < minTempBlockSize) := fun hs => hsmall (.inr hs)
    have htaken : env.memory.isSome ∨ Room env.directories g.fileDirs := by
      rcases hroom with hle | hsm | htaken
      · exact absurd (.inl hle) hsmall
      · exact absurd hsm hlarge
      · exact htaken
    have hsame : ∀ files, Temp.initialBuffer { g.space with
        logicalSize := g.space.logicalSize + size, tempFiles := files } =
          Temp.initialBuffer g.space := fun _ => rfl
    -- both branches are the branches of the model without failures
    have hspec : ∃ files p, (∀ i, g.space.tempFiles.getD i [] <+: files.getD i []) ∧
        (g.extend minBlockSize env size).1 = true ∧
        (g.extend minBlockSize env size).2.space =
          Temp.extend minBlockSize { g.space with tempFiles := files } p size ∧
        (g.extend minBlockSize env size).2.initialBuffer = [] ∧
        (g.extend minBlockSize env size).2.fileDirs.length =
          (g.extend minBlockSize env size).2.space.tempFiles.length ∧
        Temp.initialBuffer (Temp.extend minBlockSize { g.space with tempFiles := files } p size) =
          [] := by
      rw [Growing.extend_large hmore hlarge]
      by_cases hinit : g.initialBuffer ≠ []
      · rw [if_pos hinit]
        obtain ⟨files, p, hgrow, htrue, hspace, hnil, hlen⟩ := h.place_room
          { g.space with
            logicalSize := g.space.logicalSize + size
            blocks := []
            physicalSize := fbAlign (g.space.logicalSize + size) minBlockSize } rfl htaken
        have hext : Temp.extend minBlockSize { g.space with tempFiles := files } p size =
            Temp.appendBlock { g.space with
              logicalSize := g.space.logicalSize + size
              blocks := []
              physicalSize := fbAlign (g.space.logicalSize + size) minBlockSize
              tempFiles := files } p (fbAlign (g.space.logicalSize + size) minBlockSize)
              g.initialBuffer := by
          rw [h.initial] at hinit ⊢
          simp only [Temp.extend, hsame files]
          rw [if_pos hmore, if_neg hlarge, if_pos hinit]
        exact ⟨files, p, hgrow, htrue, by rw [hspace, hext], hnil, hlen,
          by rw [hext, initialBuffer_appendBlock]⟩
      · rw [if_neg hinit]
        obtain ⟨files, p, hgrow, htrue, hspace, hnil, hlen⟩ := h.place_room
          { g.space with
            logicalSize := g.space.logicalSize + size
            physicalSize := g.space.physicalSize +
              fbAlign (g.space.logicalSize + size - g.space.physicalSize) minBlockSize } rfl htaken
        have hnone : g.initialBuffer = [] := by simpa using hinit
        have hext : Temp.extend minBlockSize { g.space with tempFiles := files } p size =
            Temp.appendBlock { g.space with
              logicalSize := g.space.logicalSize + size
              physicalSize := g.space.physicalSize +
                fbAlign (g.space.logicalSize + size - g.space.physicalSize) minBlockSize
              tempFiles := files } p
              (fbAlign (g.space.logicalSize + size - g.space.physicalSize) minBlockSize) [] := by
          rw [h.initial] at hinit
          simp only [Temp.extend, hsame files]
          rw [if_pos hmore, if_neg hlarge, if_neg hinit]
        exact ⟨files, p, hgrow, htrue, by rw [hspace, hext, hnone], hnil, hlen,
          by rw [hext, initialBuffer_appendBlock]⟩
    obtain ⟨files, p, hgrow, htrue, hspace, hnil, hlen, hno⟩ := hspec
    obtain ⟨hwf, -⟩ := h.wf.grow hgrow
    refine ⟨htrue, ⟨?_, ?_, hlen⟩, ?_⟩
    · rw [hspace]
      exact (hwf.extend p size).1
    · rw [hspace, hnil, hno]
    · rw [hspace, extend_logicalSize]

theorem Growing.Sound.extend_noRoom (h : g.Sound)
    (hroom : ¬ (g.space.logicalSize + size ≤ g.space.physicalSize ∨
      (g.space.initiallyDynamic = true ∧ g.space.logicalSize + size < minTempBlockSize) ∨
      env.memory.isSome ∨ Room env.directories g.fileDirs)) :
    (g.extend minBlockSize env size).1 = false ∧
      (g.extend minBlockSize env size).2.space.logicalSize ≠ g.space.logicalSize ∧
      (g.extend minBlockSize env size).2.space.physicalSize ≠
        ((g.extend minBlockSize env size).2.space.blocks.map Block.size).sum := by
  have hlog := h.wf.logical
  have hphys : (g.space.blocks.map Block.size).sum = g.space.physicalSize := h.wf.physical
  obtain ⟨hmore, hlarge, htaken⟩ : g.space.physicalSize < g.space.logicalSize + size ∧
      ¬ (g.space.initiallyDynamic = true ∧ g.space.logicalSize + size < minTempBlockSize) ∧
      ¬ (env.memory.isSome ∨ Room env.directories g.fileDirs) := by
    refine ⟨?_, fun hs => hroom (.inr (.inl hs)), fun ht => hroom (.inr (.inr ht))⟩
    by_contra hle
    exact hroom (.inl (by omega))
  rw [Growing.extend_large hmore hlarge]
  split_ifs with hinit
  · obtain ⟨hfalse, hl, hp, hb⟩ := @Growing.place_noRoom g env
      (fbAlign (g.space.logicalSize + size) minBlockSize) _ htaken
    have halign := le_fbAlign (g.space.logicalSize + size) minBlockSize
    refine ⟨hfalse, ?_, ?_⟩
    · rw [hl]
      simp only
      omega
    · rw [hp, hb]
      simp only [map_nil, sum_nil]
      omega
  · obtain ⟨hfalse, hl, hp, hb⟩ := @Growing.place_noRoom g env
      (fbAlign (g.space.logicalSize + size - g.space.physicalSize) minBlockSize) _ htaken
    have halign := le_fbAlign (g.space.logicalSize + size - g.space.physicalSize) minBlockSize
    refine ⟨hfalse, ?_, ?_⟩
    · rw [hl]
      simp only
      omega
    · rw [hp, hb]
      simp only [hphys]
      omega

theorem writeBlocks_shape (blocks : List Block) (files : List (List UInt8)) (offset : Nat)
    (data : List UInt8) :
    (writeBlocks blocks files offset data).1.map Block.extent = blocks.map Block.extent ∧
      (writeBlocks blocks files offset data).2.length = files.length := by
  induction blocks generalizing files offset data with
  | nil => exact ⟨rfl, rfl⟩
  | cons b blocks ih =>
    rw [writeBlocks]
    split
    · exact ⟨rfl, rfl⟩
    · obtain ⟨hext, hlen⟩ := ih (b.write files offset data).2.2 0
        (data.drop (b.write files offset data).1)
      obtain ⟨size, storage⟩ := b
      cases storage <;> exact ⟨by simpa [Block.write, Block.extent] using hext,
        by simpa [Block.write] using hlen⟩

theorem write_shape {offset : Nat} {data : List UInt8} {p : Placement}
    (hle : offset + data.length ≤ s.logicalSize)
    (hwrite : write minBlockSize s p offset data = some s') :
    s'.blocks.map Block.extent = s.blocks.map Block.extent ∧
      s'.tempFiles.length = s.tempFiles.length := by
  simp only [write, if_neg (Nat.not_lt.2 hle)] at hwrite
  split_ifs at hwrite with hnil
  · cases hwrite
    exact ⟨rfl, rfl⟩
  · obtain ⟨found, -, rfl⟩ := Option.map_eq_some_iff.1 hwrite
    obtain ⟨hext, hlen⟩ := writeBlocks_shape (s.blocks.drop found.1) s.tempFiles found.2 data
    refine ⟨?_, hlen⟩
    simp only [map_append, hext]
    rw [← map_append, take_append_drop]

theorem Growing.Sound.withSpace (h : g.Sound) (hwf : Wf s)
    (hext : s.blocks.map Block.extent = g.space.blocks.map Block.extent)
    (hlen : s.tempFiles.length = g.space.tempFiles.length) : (g.withSpace s).Sound := by
  rw [Growing.withSpace]
  split
  · rename_i n buffer hblocks
    exact ⟨hwf, (initialBuffer_of_eq hblocks).symm, h.dirs.trans hlen.symm⟩
  · rename_i hno
    refine ⟨hwf, ?_, h.dirs.trans hlen.symm⟩
    have hnil : Temp.initialBuffer g.space = [] := by
      by_contra hne
      obtain ⟨n, hblocks⟩ := initialBuffer_ne_nil hne
      rw [hblocks] at hext
      obtain ⟨buffer, hbuffer⟩ := exists_initial hext
      exact hno n buffer hbuffer
    have hnil' : Temp.initialBuffer s = [] := by
      by_contra hne
      obtain ⟨n, hblocks⟩ := initialBuffer_ne_nil hne
      exact hno n _ hblocks
    simp only
    rw [h.initial, hnil, hnil']

theorem Growing.Sound.segments (h : g.Sound) (free : Common.BePlusTree Segment) :
    { g with space := { g.space with freeSegments := free } : Growing }.Sound :=
  ⟨⟨h.wf.laid, h.wf.pos, h.wf.physical, h.wf.logical, h.wf.dynamic⟩, h.initial, h.dirs⟩

theorem releaseSpace_segments (s : TempSpace) (position size : Nat) :
    ∃ free, releaseSpace s position size = { s with freeSegments := free } := by
  simp only [releaseSpace]
  split
  · split
    · split <;> exact ⟨_, rfl⟩
    · exact ⟨_, rfl⟩
  · split
    · split <;> exact ⟨_, rfl⟩
    · exact ⟨_, rfl⟩

theorem batchLoop_segments {count freeMem fuel : Nat} {segments : List SegmentInMemory}
    {r : TempSpace × List SegmentInMemory}
    (h : batchLoop count freeMem fuel s segments = some r) :
    ∃ free, r.1 = { s with freeSegments := free } := by
  induction fuel generalizing s segments with
  | zero => cases h
  | succ fuel ih =>
    rw [batchLoop] at h
    split_ifs at h with hcount
    · split at h
      · cases h
        exact ⟨_, rfl⟩
      · split at h
        · simp only at h
          split_ifs at h with hzero hfound
          · obtain ⟨free, hr⟩ := ih h
            exact ⟨free, hr⟩
          · cases h
            exact ⟨_, rfl⟩
          · obtain ⟨free, hr⟩ := ih h
            exact ⟨free, hr⟩
        · simp only at h
          split_ifs at h with hfound
          · obtain ⟨free, hr⟩ := ih h
            exact ⟨free, hr⟩
          · cases h
            exact ⟨_, rfl⟩
    · cases h
      exact ⟨_, rfl⟩

theorem allocateBatch_segments {count minSize maxSize : Nat}
    {r : TempSpace × List SegmentInMemory}
    (h : allocateBatch minBlockSize alignment s count minSize maxSize = some r) :
    ∃ free, r.1 = { s with freeSegments := free } := by
  simp only [allocateBatch] at h
  split_ifs at h with hfound
  · obtain ⟨free, hr⟩ := batchLoop_segments h
    exact ⟨free, hr⟩
  · cases h
    exact ⟨_, rfl⟩

theorem allocateSpace_segments {p : Placement}
    (h : (findBest size s.freeSegments.items 0 none).isSome) :
    ∃ free, (allocateSpace minBlockSize s p size).2 = { s with freeSegments := free } := by
  obtain ⟨⟨i, best⟩, hbest⟩ := Option.isSome_iff_exists.1 h
  simp only [allocateSpace, hbest]
  split_ifs <;> exact ⟨_, rfl⟩

theorem Growing.Sound.finish (h : g.Sound) (c : Call)
    (hc : ∀ offset data, c = .write offset data → offset + data.length ≤ g.space.logicalSize) :
    (g.finish minBlockSize alignment c).Sound := by
  cases c with
  | extend size => exact h
  | write offset data =>
    have hle := hc offset data rfl
    rw [Growing.finish]
    by_cases hnil : data = []
    · subst hnil
      have hle' : offset ≤ g.space.logicalSize := by simpa using hle
      have hwrite : write minBlockSize g.space (.file 0) offset [] = some g.space := by
        simp [write, hle']
      rw [hwrite]
      exact h.withSpace h.wf rfl rfl
    · obtain ⟨s, hwrite, hwf, -⟩ := @Wf.writeInside minBlockSize _ _ _ h.wf hnil hle (.file 0)
      obtain ⟨hext, hlen⟩ := write_shape hle hwrite
      rw [hwrite]
      exact h.withSpace hwf hext hlen
  | allocateSpace size =>
    rw [Growing.finish]
    split_ifs with hbest
    · obtain ⟨free, hfree⟩ := @allocateSpace_segments minBlockSize _ size (.file 0) hbest
      rw [hfree]
      exact h.segments free
    · exact h
  | releaseSpace position size =>
    obtain ⟨free, hfree⟩ := releaseSpace_segments g.space position size
    rw [Growing.finish, hfree]
    exact h.segments free
  | allocateBatch count minSize maxSize =>
    rw [Growing.finish]
    cases hbatch : allocateBatch minBlockSize alignment g.space count minSize maxSize with
    | none => exact h
    | some r =>
      obtain ⟨free, hfree⟩ := allocateBatch_segments hbatch
      simp only [Option.map_some, hfree]
      exact h.segments free

def Growing.Valid (g : Growing) : Call → Prop
  | .write offset _ => offset ≤ g.space.logicalSize
  | _ => True

theorem Growing.Sound.call_room {c : Call} (h : g.Sound) (hvalid : g.Valid c)
    (hroom : g.HasRoom env c) :
    (g.call minBlockSize alignment env c).1 = true ∧
      (g.call minBlockSize alignment env c).2.Sound := by
  rw [Growing.call]
  cases hgrowth : g.growth c with
  | none =>
    refine ⟨rfl, h.finish c ?_⟩
    rintro offset data rfl
    simpa [Growing.growth] using hgrowth
  | some size =>
    obtain ⟨htrue, hsound, hlog⟩ :=
      @Growing.Sound.extend_room minBlockSize g env size h (hroom size hgrowth)
    simp only [htrue, if_true]
    refine ⟨trivial, hsound.finish c ?_⟩
    rintro offset data rfl
    simp only [Growing.growth, Option.ite_none_right_eq_some, Option.some.injEq]
      at hgrowth
    omega

theorem Growing.Sound.call_noRoom {c : Call} (h : g.Sound) (hroom : ¬ g.HasRoom env c) :
    (g.call minBlockSize alignment env c).1 = false ∧
      (g.call minBlockSize alignment env c).2.space.logicalSize ≠ g.space.logicalSize ∧
      ¬ Sizes (g.call minBlockSize alignment env c).2.space := by
  obtain ⟨size, hsize⟩ := not_forall.1 hroom
  obtain ⟨hgrowth, hno⟩ := Classical.not_imp.1 hsize
  obtain ⟨hfalse, hlog, hphys⟩ := @Growing.Sound.extend_noRoom minBlockSize g env size h hno
  rw [Growing.call, hgrowth]
  simp only [hfalse, Bool.false_eq_true, if_false]
  exact ⟨trivial, hlog, fun hsizes => hphys hsizes.physical⟩

variable (minBlockSize alignment) in
inductive Grows (dynamic : Bool) : Growing → Prop
  | new : Grows dynamic (Growing.new dynamic)
  | call {g : Growing} (env : Env) (c : Call) : Grows dynamic g → g.Valid c → g.HasRoom env c →
      Grows dynamic (g.call minBlockSize alignment env c).2

theorem Grows.sound {dynamic : Bool} (h : Grows minBlockSize alignment dynamic g) : g.Sound := by
  induction h with
  | new => exact sound_new dynamic
  | call env c _ hvalid hroom ih => exact (ih.call_room hvalid hroom).2

/-- In every run whose calls find room the sizes of the space are those of its blocks, and the next
call leaves the space as it was if it raises, and such sizes in any case, if and only if there is
room for it too. -/
theorem growth_atomic_iff {dynamic : Bool} (h : Grows minBlockSize alignment dynamic g) :
    Sizes g.space ∧ ∀ (env : Env) (c : Call), g.Valid c →
      (Atomic g.space (g.call minBlockSize alignment env c) ↔ g.HasRoom env c) ∧
      (Sizes (g.call minBlockSize alignment env c).2.space ↔ g.HasRoom env c) := by
  have hsound := h.sound
  refine ⟨hsound.wf.sizes, fun env c hvalid => ?_⟩
  by_cases hroom : g.HasRoom env c
  · obtain ⟨htrue, hnext⟩ := @Growing.Sound.call_room minBlockSize alignment g env c hsound hvalid
      hroom
    refine ⟨iff_of_true (fun hfalse => ?_) hroom, iff_of_true hnext.wf.sizes hroom⟩
    rw [htrue] at hfalse
    cases hfalse
  · obtain ⟨hfalse, hlog, hsizes⟩ := @Growing.Sound.call_noRoom minBlockSize alignment g env c
      hsound hroom
    exact ⟨iff_of_false (fun hatomic => hlog (hatomic hfalse).1) hroom, iff_of_false hsizes hroom⟩

/-- No memory, and a directory where a file can be created that no byte can be written to. -/
def fullDisk : Env := ⟨none, fun _ => 0, [(0, ⟨true, some 0⟩)]⟩

def threeBytes : Growing :=
  ((Growing.new true).call minTempBlockSize 8 fullDisk (.write 0 [1, 2, 3])).2

theorem grows_threeBytes : Grows minTempBlockSize 8 true threeBytes := by
  refine .call fullDisk (.write 0 [1, 2, 3]) .new (Nat.le_refl 0) ?_
  intro size hsize
  cases hsize
  exact .inr (.inl ⟨rfl, by decide⟩)

/-- The initial block needs no room on the disk. -/
theorem growth_atomic_threeBytes :
    Sizes threeBytes.space ∧
      Sizes (threeBytes.call minTempBlockSize 8 fullDisk (.extend 100)).2.space := by
  obtain ⟨hsizes, hcalls⟩ := growth_atomic_iff grows_threeBytes
  refine ⟨hsizes, (hcalls fullDisk (.extend 100) trivial).2.2 ?_⟩
  intro size hsize
  cases hsize
  exact .inr (.inl ⟨rfl, by decide⟩)

/-- A space of three bytes that cannot become a large one has lost them, and its sizes have grown
without any block. -/
theorem growth_not_atomic : Grows minTempBlockSize 8 true threeBytes ∧
    ¬ Atomic threeBytes.space (threeBytes.call minTempBlockSize 8 fullDisk (.extend 65536)) ∧
    ¬ Sizes (threeBytes.call minTempBlockSize 8 fullDisk (.extend 65536)).2.space ∧
    threeBytes.space.bytes = [1, 2, 3] ∧
    (threeBytes.call minTempBlockSize 8 fullDisk (.extend 65536)).2.space.bytes = [] := by
  have hcall : (threeBytes.call minTempBlockSize 8 fullDisk (.extend 65536)).1 = false ∧
      (threeBytes.call minTempBlockSize 8 fullDisk (.extend 65536)).2.space.logicalSize = 65539 ∧
      (threeBytes.call minTempBlockSize 8 fullDisk (.extend 65536)).2.space.physicalSize = 131072 ∧
      (threeBytes.call minTempBlockSize 8 fullDisk (.extend 65536)).2.space.blocks = [] := by
    decide +kernel
  obtain ⟨hfalse, hlog, hphys, hblocks⟩ := hcall
  refine ⟨grows_threeBytes, fun h => ?_, fun h => ?_, rfl, ?_⟩
  · have hkept := (h hfalse).1
    rw [hlog] at hkept
    exact absurd hkept (by decide)
  · have hsum := h.physical
    rw [hphys, hblocks] at hsum
    exact absurd hsum (by decide)
  · rw [TempSpace.bytes, hblocks]
    rfl

end Firebird.Jrd.Temp
