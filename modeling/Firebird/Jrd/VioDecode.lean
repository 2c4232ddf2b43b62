import Firebird.Jrd.VioUpdate

/-!
# Back version chains stay decodable

Whatever changes are applied to a record one after another, each version that is left can be read
and has the contents it has been created with.
-/
namespace Firebird.Jrd.Vio

open Sqz List

variable {disk : Disk} {v b : Version} {back rest vs : List Version} {c new : List SCHAR}
  {cs : List (List SCHAR)} {newer : Option (List SCHAR)} {rpb : Rpb}

structure HasRead (rpb : Rpb) (v : Version) (back : List Version) (c : List SCHAR) : Prop where
  version : rpb.version = v
  loaded : ∃ r, rpb.record = some r ∧ Loaded r c
  prior : rpb.prior = if !back.isEmpty && v.delta then .self else .null

theorem HasRead.data (h : HasRead rpb v back c) : rpb.data = c := by
  obtain ⟨r, hr, hl⟩ := h.loaded
  rw [Rpb.data, hr]
  simp only
  rw [hl.length_eq]
  exact (prefix_iff_eq_take.mp hl.isPrefix).symm

theorem HasRead.isSome (h : HasRead rpb v back c) :
    rpb.priorRecord.isSome = (!back.isEmpty && v.delta) := by
  obtain ⟨r, hr, hl⟩ := h.loaded
  rw [Rpb.priorRecord, h.prior]
  cases !back.isEmpty && v.delta
  · rfl
  · simp only [hr]
    rfl

/-- A record is there exactly if a version is stored against it. -/
def Serves (data : Option Record) (newer : Option (List SCHAR)) : Prop :=
  match newer with
  | none => data = none
  | some c => ∃ r, data = some r ∧ Loaded r c

theorem HasRead.serves (h : HasRead rpb v back c) :
    Serves rpb.priorRecord (if !back.isEmpty && v.delta then some c else none) := by
  obtain ⟨r, hr, hl⟩ := h.loaded
  rw [Rpb.priorRecord, h.prior]
  cases !back.isEmpty && v.delta
  · rfl
  · exact ⟨r, hr, hl⟩

theorem Chain.behind (h : Chain (v.newer c) back cs) :
    Chain (if !back.isEmpty && v.delta then some c else none) back cs := by
  cases h with
  | nil => exact .nil _
  | cons hw hc => exact .cons hw hc

theorem Serves.ready {data : Option Record} {record : Option Record} (h : Serves data newer)
    (hs : ∀ r ∈ record, r.recLength ≤ r.recData.length) :
    Ready ⟨v, back, vs, record, otherPrior data⟩ newer := by
  cases newer with
  | none =>
    rw [show data = none from h]
    rfl
  | some c =>
    obtain ⟨r, rfl, hl⟩ := h
    exact .inr ⟨⟨r, rfl, hl⟩, hs⟩

variable {junk : Nat → SCHAR}

theorem vioData_serves {data : Option Record} {record : Option Record}
    (h : Serves data newer) (hs : ∀ r ∈ record, r.recLength ≤ r.recData.length)
    (hw : Written newer v c) :
    ∃ rpb, vioData junk ⟨v, back, vs, record, otherPrior data⟩ = .ok rpb ∧ HasRead rpb v back
      c := by
  obtain ⟨r, hr, hl⟩ := @vioData_written junk ⟨v, back, vs, record, otherPrior data⟩ newer c
    (h.ready hs) hw
  exact ⟨_, hr, rfl, ⟨r, rfl, hl⟩, rfl⟩

theorem vioData_first {record : Option Record} (hw : Written none v c) :
    ∃ rpb, vioData junk ⟨v, back, vs, record, .null⟩ = .ok rpb ∧ HasRead rpb v back c := by
  obtain ⟨r, hr, hl⟩ := @vioData_written junk ⟨v, back, vs, record, .null⟩ none c rfl hw
  exact ⟨_, hr, rfl, ⟨r, rfl, hl⟩, rfl⟩

theorem written_pack {image : List SCHAR} (hdel : v.deleted = false) (hlen : c.length = v.fmtLength)
    (hle : c.length ≤ 65535) (hi : IsImage newer c image) (hile : image.length ≤ 65535)
    (hp : v.pieces = disk.pack image) : Written newer v c :=
  ⟨hdel, hlen, hle, image, hi, hp ▸ disk.holds image hile⟩

theorem differences_spec (disk : Disk) (new old : List SCHAR) :
    ∃ delta, differences disk new old = .ok delta ∧
      ∀ image ∈ delta, IsDelta new old image ∧ image.length ≤ 65535 := by
  have harea := length_area disk.junk MAX_DIFFERENCES
  obtain ⟨l, out, h⟩ := sqzDifferences_eq_some new old (area disk.junk MAX_DIFFERENCES)
  rw [differences, h]
  refine ⟨_, rfl, fun image himage => ?_⟩
  split at himage
  next hl =>
    cases himage
    refine ⟨.differences h (by rw [harea]; exact hl.1.le) harea.le, ?_⟩
    rw [length_take]
    have := hl.1
    simp only [MAX_DIFFERENCES] at this
    omega
  next => cases himage

theorem prepareUpdate_update (h : HasRead rpb v back c) (hw : Written newer v c)
    (new : List SCHAR) :
    ∃ temp delta, prepareUpdate disk rpb (some new) false = .ok (temp, delta) ∧
      Written (if delta then some new else none) temp c ∧
      temp.delta = (!back.isEmpty && v.delta) := by
  obtain ⟨delta, hd, hspec⟩ := differences_spec disk new c
  rw [prepareUpdate, h.data, hd, ← h.isSome, h.version]
  refine ⟨_, _, rfl, ?_, rfl⟩
  cases delta with
  | none =>
    exact written_pack rfl hw.length_eq hw.length_le (.full c) hw.length_le rfl
  | some image =>
    obtain ⟨hdelta, hle⟩ := hspec image rfl
    exact written_pack rfl hw.length_eq hw.length_le (.delta hdelta) hle rfl

theorem prepareUpdate_writelock (h : HasRead rpb v back c) (hw : Written newer v c) :
    ∃ temp delta, prepareUpdate disk rpb none true = .ok (temp, delta) ∧
      Written (some c) temp c ∧ temp.delta = (!back.isEmpty && v.delta) := by
  have hdelta := IsDelta.noDifferences c
  rw [prepareUpdate, h.data, ← h.isSome, h.version]
  refine ⟨_, _, rfl, ?_, rfl⟩
  obtain ⟨-, -, hle, -⟩ := hdelta.covers hw.length_le
  exact written_pack rfl hw.length_eq hw.length_le (.delta hdelta)
    (hle.trans (by decide)) rfl

theorem vioModify_chain (transactionNr : Nat) (hlen : new.length ≤ 65535)
    (h : Chain none (v :: back) (c :: cs)) :
    ∃ vs, vioModify disk new transactionNr (v :: back) = .ok vs ∧ Chain none vs
      (new :: c :: cs) := by
  obtain ⟨⟩ | ⟨hw, hc⟩ := h
  obtain ⟨rpb, hfetch, hread⟩ := @vioData_first v back (v :: back) c disk.junk none hw
  obtain ⟨temp, delta, hprep, htemp, hdelta⟩ :=
    @prepareUpdate_update disk v back c none rpb hread hw new
  rw [vioModify, fetch, hfetch]
  simp only [bind, Except.bind, hprep]
  refine ⟨_, rfl, .cons (written_pack hw.deleted rfl hlen (.full new) hlen rfl) (.cons htemp ?_)⟩
  have hb := hc.behind
  rwa [← hdelta] at hb

theorem vioWritelock_chain (transactionNr : Nat) (h : Chain none (v :: back) (c :: cs)) :
    ∃ vs, vioWritelock disk transactionNr (v :: back) = .ok vs ∧ Chain none vs (c :: c :: cs) := by
  obtain ⟨⟩ | ⟨hw, hc⟩ := h
  obtain ⟨rpb, hfetch, hread⟩ := @vioData_first v back (v :: back) c disk.junk none hw
  obtain ⟨temp, delta, hprep, htemp, hdelta⟩ :=
    @prepareUpdate_writelock disk v back c none rpb hread hw
  rw [vioWritelock, fetch, hfetch]
  simp only [bind, Except.bind, hprep, hread.data]
  refine ⟨_, rfl, .cons (written_pack hw.deleted hw.length_eq hw.length_le (.full c) hw.length_le
    rfl) (.cons htemp ?_)⟩
  have hb := hc.behind
  rwa [← hdelta] at hb

theorem fetchBack_chain {data : Option Record} (hs : Serves data newer) (hw : Written newer b c) :
    ∃ rpb, fetchBack disk data b rest = .ok rpb ∧ HasRead rpb b rest c :=
  vioData_serves hs (by rintro r ⟨⟩; exact disk.gcRec1_sound) hw

theorem completeBack_chain {data : Option Record} (hs : Serves data newer) (hw : Written newer b c)
    (hc : Chain (b.newer c) rest cs) :
    ∃ temp2, completeBack disk data b rest = .ok temp2 ∧ Chain none (temp2 :: rest) (c :: cs) := by
  obtain ⟨rpb, hfetch, hread⟩ := @fetchBack_chain disk b rest c newer data hs hw
  rw [completeBack, hfetch]
  simp only [bind, Except.bind, hread.data, hread.isSome]
  exact ⟨_, rfl, .cons (written_pack rfl hw.length_eq hw.length_le (.full c) hw.length_le rfl)
    hc.behind⟩

theorem updateInPlace_chain (hlen : new.length ≤ 65535) (h : Chain none (v :: back) (c :: cs)) :
    ∃ vs, updateInPlace disk new (v :: back) = .ok vs ∧ Chain none vs (new :: cs) := by
  obtain ⟨⟩ | ⟨hw, hc⟩ := h
  obtain ⟨rpb, hfetch, hread⟩ := @vioData_first v back (v :: back) c disk.junk none hw
  have hnew (v' : Version) (hd : v'.deleted = false) (hf : new.length = v'.fmtLength)
      (hp : v'.pieces = disk.pack new) : Written none v' new :=
    written_pack hd hf hlen (.full new) hlen hp
  rw [updateInPlace, fetch, hfetch]
  simp only [bind, Except.bind]
  cases back with
  | nil =>
    obtain ⟨⟩ := hc
    cases rpb.priorRecord <;> exact ⟨_, rfl, .cons (hnew _ hw.deleted rfl rfl) (.nil _)⟩
  | cons b rest =>
    obtain ⟨⟩ | ⟨hwb, hcb⟩ := hc
    have hserves := hread.serves
    cases hp : rpb.priorRecord with
    | none =>
      -- Nothing is stored against the version that is overwritten.
      have hdelta : v.delta = false := by
        have := hread.isSome
        rw [hp] at this
        simpa using this.symm
      refine ⟨_, rfl, .cons (hnew _ hw.deleted rfl rfl) ?_⟩
      simp only [Version.newer, hdelta] at hwb ⊢
      exact .cons hwb hcb
    | some r =>
      rw [hp] at hserves
      obtain ⟨temp2, htemp, hchain⟩ := @completeBack_chain disk b rest _ _ _ _ hserves hwb hcb
      simp only [htemp]
      exact ⟨_, rfl, .cons (hnew _ hw.deleted rfl rfl) hchain⟩

theorem listStaying_chain {data : Option Record} {delta : Bool} (h : Chain newer vs cs)
    (hs : Serves (if delta then data else none) newer) :
    listStaying disk data delta vs = .ok () := by
  induction h generalizing data delta with
  | nil => rfl
  | @cons newer v back c cs hw hc ih =>
    obtain ⟨rpb, hread, hr⟩ := @vioData_serves v back (v :: back) c newer disk.junk _ none hs
      nofun hw
    rw [listStaying, hw.deleted, if_neg Bool.false_ne_true]
    simp only [hread]
    refine ih ?_
    obtain ⟨r, hrec, hl⟩ := hr.loaded
    rw [hrec, Version.newer]
    cases v.delta
    · rfl
    · exact ⟨r, rfl, hl⟩

theorem garbageCollect_chain {prior : Option Record} (h : Chain newer vs cs)
    (hs : Serves prior newer) :
    garbageCollect disk prior vs = .ok () := by
  induction h generalizing prior with
  | nil => rfl
  | @cons newer v back c cs hw hc ih =>
    obtain ⟨r, hread, hl⟩ := @read_written disk.junk ⟨v, back, v :: back, none, otherPrior prior⟩
      newer c
      (hs.ready nofun) hw
    rw [garbageCollect, hw.deleted, if_neg Bool.false_ne_true]
    simp only [hread]
    refine ih ?_
    rw [Version.newer]
    cases v.delta
    · rfl
    · exact ⟨r, rfl, hl⟩

theorem outgoing_serves (hw : Written none v c) :
    ∃ data, outgoing disk v (b :: rest) = .ok data ∧ Serves data (v.newer c) := by
  obtain ⟨rpb, hfetch, hread⟩ :=
    @vioData_first v (b :: rest) (v :: b :: rest) c disk.junk (some disk.gcRec2) hw
  rw [outgoing, hw.deleted, Bool.false_and, if_neg Bool.false_ne_true]
  simp only [hfetch]
  refine ⟨_, rfl, ?_⟩
  have hs := hread.serves
  rw [Version.newer]
  cases hd : v.delta
  · rfl
  · rw [hd] at hs
    exact hs

theorem bringForward_chain {data : Option Record} (hs : Serves data newer) (hw : Written newer b c)
    (hc : Chain (b.newer c) rest cs) :
    ∃ v', bringForward disk data b rest = .ok v' ∧ Chain none (v' :: rest) (c :: cs) := by
  obtain ⟨rpb, hfetch, hread⟩ := @fetchBack_chain disk b rest c newer data hs hw
  rw [bringForward, hw.deleted, if_neg Bool.false_ne_true, hfetch]
  simp only [bind, Except.bind, hread.data, hread.isSome]
  exact ⟨_, rfl, .cons (written_pack rfl hw.length_eq hw.length_le (.full c) hw.length_le rfl)
    hc.behind⟩

theorem vioBackout_chain (h : Chain none (v :: back) (c :: cs)) :
    ∃ vs, vioBackout disk (v :: back) = .ok vs ∧ Chain none vs cs := by
  obtain ⟨⟩ | ⟨hw, hc⟩ := id h
  cases back with
  | nil =>
    obtain ⟨⟩ := hc
    obtain ⟨rpb, hfetch, -⟩ := @vioData_first v [] [v] c disk.junk (some disk.gcRec2) hw
    rw [vioBackout, outgoing, hw.deleted, Bool.false_and, if_neg Bool.false_ne_true, hfetch]
    exact ⟨[], rfl, .nil _⟩
  | cons b rest =>
    obtain ⟨⟩ | ⟨hwb, hcb⟩ := hc
    obtain ⟨data, hout, hserves⟩ := @outgoing_serves disk v b rest c hw
    obtain ⟨v', hforward, hchain⟩ := @bringForward_chain disk b rest _ _ _ _ hserves hwb hcb
    have hstaying : listStaying disk none false (v :: b :: rest) = .ok () :=
      listStaying_chain h rfl
    rw [vioBackout, hout]
    simp only [bind, Except.bind, hforward, hw.deleted, hstaying]
    by_cases hsame : (disk.samePage && data.isNone) = true
    · rw [if_pos hsame]
      -- The version behind stays where it is, since it is stored in full.
      have hdelta : v.newer c = none := by
        rw [Bool.and_eq_true, Option.isNone_iff_eq_none] at hsame
        cases hn : v.newer c with
        | none => rfl
        | some d =>
          rw [hn] at hserves
          obtain ⟨r, hr, -⟩ := hserves
          rw [hsame.2] at hr
          cases hr
      rw [hdelta] at hwb
      exact ⟨_, rfl, .cons ⟨hwb.deleted, hwb.length_eq, hwb.length_le, hwb.image⟩ hcb⟩
    · rw [if_neg hsame]
      exact ⟨_, rfl, hchain⟩

theorem purge_chain (h : Chain none (v :: back) (c :: cs)) :
    ∃ vs, purge disk (v :: back) = .ok vs ∧ Chain none vs [c] := by
  obtain ⟨⟩ | ⟨hw, hc⟩ := h
  obtain ⟨rpb, hfetch, hread⟩ := @vioData_first v back (v :: back) c disk.junk (some disk.gcRec1) hw
  rw [purge, hfetch]
  simp only [bind, Except.bind]
  cases back with
  | nil =>
    exact ⟨_, rfl, .cons hw (.nil _)⟩
  | cons b rest =>
    rw [garbageCollect_chain hc.behind hread.serves]
    exact ⟨_, rfl, .cons ⟨hw.deleted, hw.length_eq, hw.length_le, hw.image⟩ (.nil _)⟩

theorem Change.apply_chain (change : Change) (hv : change.Valid) (h : Chain none vs cs) :
    ∃ vs', change.apply disk vs = .ok vs' ∧ Chain none vs' (change.contents cs) := by
  cases h with
  | nil => cases change <;> exact ⟨[], rfl, .nil _⟩
  | cons hw hc =>
    have h := Chain.cons hw hc
    cases change with
    | update new transactionNr => exact vioModify_chain transactionNr hv.2 h
    | writelock transactionNr => exact vioWritelock_chain transactionNr h
    | updateInPlace new => exact updateInPlace_chain hv.2 h
    | backout => exact vioBackout_chain h
    | purge => exact purge_chain h

theorem run_chain (changes : List (Disk × Change)) (hv : ∀ p ∈ changes, p.2.Valid)
    (h : Chain none vs cs) :
    ∃ vs', run changes vs = .ok vs' ∧
      Chain none vs' (changes.foldl (fun cs p => p.2.contents cs) cs) := by
  induction changes generalizing vs cs with
  | nil => exact ⟨vs, rfl, h⟩
  | cons p changes ih =>
    obtain ⟨vs', happly, hchain⟩ :=
      @Change.apply_chain p.1 vs cs p.2 (hv p mem_cons_self) h
    obtain ⟨vs'', hrun, hchain'⟩ := ih (fun q hq => hv q (mem_cons_of_mem _ hq)) hchain
    refine ⟨vs'', ?_, hchain'⟩
    rw [run, happly]
    exact hrun

theorem readAll_chain (h : Chain newer vs cs) {record : Option Record}
    {prior : Prior} (hr : ∀ v back, Ready ⟨v, back, v :: back, record, prior⟩ newer) :
    readAll junk record prior vs = .ok cs := by
  induction h generalizing record prior with
  | nil => rfl
  | @cons newer v back c cs hw hc ih =>
    obtain ⟨r, hread, hl⟩ := @vioData_written junk ⟨v, back, v :: back, record, prior⟩ newer c
      (hr v back) hw
    have hdata : Rpb.data ⟨v, back, v :: back, some r,
        if !back.isEmpty && v.delta then .self else .null⟩ = c :=
      @HasRead.data v back c _ ⟨rfl, ⟨r, rfl, hl⟩, rfl⟩
    have hrest : readAll junk (some r) (if !back.isEmpty && v.delta then .self else .null) back =
        .ok cs := by
      cases back with
      | nil =>
        obtain ⟨⟩ := hc
        rfl
      | cons b rest =>
        refine ih fun v' back' => ready_newer rfl hl ?_
        simp
    rw [readAll, hread]
    simp only [bind, Except.bind, hrest, hdata]
    rfl

/-- Whatever changes are applied to a record one after another, none of them ends in a bugcheck, and
each version that is left decodes to the contents it has been created with. -/
theorem chain_decodable (disk : Disk) (junk : Nat → SCHAR) (v : Version) (c : List SCHAR)
    (changes : List (Disk × Change)) (hc : 1 ≤ c.length ∧ c.length ≤ 65535)
    (hv : v.deleted = false ∧ v.fmtLength = c.length ∧ v.pieces = disk.pack c)
    (hvalid : ∀ p ∈ changes, p.2.Valid) :
    ∃ vs, run changes [v] = .ok vs ∧
      readAll junk none .null vs = .ok (changes.foldl (fun cs p => p.2.contents cs) [c]) := by
  have hw : Written none v c := written_pack hv.1 hv.2.1.symm hc.2 (.full c) hc.2 hv.2.2
  obtain ⟨vs, hrun, hchain⟩ := run_chain changes hvalid (.cons hw (.nil _))
  exact ⟨vs, hrun, readAll_chain hchain fun _ _ => rfl⟩

theorem holds_bytes (image : List SCHAR) : Holds (image.map fun b => [1, b]) image := by
  refine ⟨image.map fun b => [b], ?_, ?_⟩
  · induction image with
    | nil => rfl
    | cons b image ih => rw [map_cons, flatten_cons, ih, singleton_append]
  · induction image with
    | nil => exact .nil
    | cons b image ih =>
      refine .cons (fun cap hcap => ?_) ih
      rw [length_singleton] at hcap
      have hle : ¬cap < 1 := by omega
      simp [sqzDecompress, ushort, decompressLoop, bind, Except.bind, pure, Except.pure, hle]

def bytesDisk : Disk where
  pack image := image.map fun b => [1, b]
  holds image _ := holds_bytes image
  gcRec1 := ⟨0, []⟩
  gcRec2 := ⟨0, []⟩
  gcRec1_sound := le_rfl
  samePage := false
  junk _ := 0

/-- A record is changed to a longer one, locked and changed again in place. -/
theorem chain_decodable_changes :
    ∃ vs, run [(bytesDisk, .update [1, 2, 3, 4, 5] 7), (bytesDisk, .writelock 8),
        (bytesDisk, .updateInPlace [1, 2, 9, 9, 9])]
        [⟨false, false, false, false, false, 3, 3, bytesDisk.pack [1, 2, 3]⟩] = .ok vs ∧
      readAll (fun _ => 0) none .null vs =
        .ok [[1, 2, 9, 9, 9], [1, 2, 3, 4, 5], [1, 2, 3]] :=
  chain_decodable bytesDisk (fun _ => 0) _ [1, 2, 3] _ (by decide) ⟨rfl, rfl, rfl⟩ (by
    simp [Change.Valid])

end Firebird.Jrd.Vio
