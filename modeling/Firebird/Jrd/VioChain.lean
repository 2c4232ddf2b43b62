import Firebird.Jrd.Vio
import Mathlib.Data.List.Forall2

/-!
# Chains of record versions

What the versions of a record have been written with, and that `VIO_data` gives it back. A version
is stored in full, or as differences against the next newer one if that one has `rpb_delta` set.
-/
namespace Firebird.Jrd.Vio

open Lib Sqz Patch List

def Holds (pieces : List (List SCHAR)) (image : List SCHAR) : Prop :=
  ∃ parts : List (List SCHAR), parts.flatten = image ∧
    List.Forall₂ (fun piece part => ∀ cap, part.length ≤ cap →
      sqzDecompress piece piece.length cap = .ok part) pieces parts

/-- The differences that lead from the contents of a version to the contents of the older one: those
of `SQZ_differences` in an area that is large enough, or those of `SQZ_no_differences`. -/
inductive IsDelta : List SCHAR → List SCHAR → List SCHAR → Prop
  | differences {newer older out area : List SCHAR} {l : Nat} :
    sqzDifferences newer older area = some (l, out) → l ≤ area.length →
    area.length ≤ MAX_DIFFERENCES → IsDelta newer older (out.take l)
  | noDifferences (data : List SCHAR) : IsDelta data data (sqzNoDifferences data.length)

/-- The bytes of a version, as they are stored: in full, or against a newer version. -/
inductive IsImage : Option (List SCHAR) → List SCHAR → List SCHAR → Prop
  | full (contents : List SCHAR) : IsImage none contents contents
  | delta {newer contents image : List SCHAR} :
    IsDelta newer contents image → IsImage (some newer) contents image

structure Written (newer : Option (List SCHAR)) (v : Version) (contents : List SCHAR) : Prop where
  deleted : v.deleted = false
  length_eq : contents.length = v.fmtLength
  length_le : contents.length ≤ 65535
  image : ∃ image, IsImage newer contents image ∧ Holds v.pieces image

def Version.newer (v : Version) (contents : List SCHAR) : Option (List SCHAR) :=
  if v.delta then some contents else none

inductive Chain : Option (List SCHAR) → List Version → List (List SCHAR) → Prop
  | nil (newer : Option (List SCHAR)) : Chain newer [] []
  | cons {newer : Option (List SCHAR)} {v : Version} {vs : List Version} {c : List SCHAR}
    {cs : List (List SCHAR)} :
    Written newer v c → Chain (v.newer c) vs cs → Chain newer (v :: vs) (c :: cs)

variable {pieces : List (List SCHAR)}

theorem decompressPieces_holds {image : List SCHAR} {cap : Nat}
    (h : Holds pieces image) (hcap : image.length ≤ cap) :
    decompressPieces pieces cap = .ok image := by
  obtain ⟨parts, rfl, hf⟩ := h
  induction hf generalizing cap with
  | nil => rfl
  | @cons piece part pieces parts hp _ ih =>
    rw [flatten_cons, length_append] at hcap
    rw [decompressPieces, hp cap (by omega)]
    simp only
    rw [ih (by omega)]
    rfl

theorem holds_sqzFast {data out : List SCHAR} (hlen : data.length ≤ 65535)
    (hfit : (sqzLength data).1 ≤ 65535) (h : sqzFast (sqzLength data).2 data = some out) :
    Holds [out] data := by
  obtain ⟨ts, hl, hc, rfl, hf⟩ := sqzLength_whole hlen
  rw [sqzFast_tokens hc hf] at h
  cases h
  refine ⟨[RunLength.expand ts], append_nil _, .cons (fun cap hcap => ?_) .nil⟩
  rw [hl] at hfit
  rw [RunLength.length_encode]
  exact sqzDecompress_tokens ts cap (fun t ht => (hf t ht).atMost) hfit hcap

variable {newer : List SCHAR}

theorem IsDelta.covers {older image : List SCHAR} (h : IsDelta newer older image)
    (hlen : older.length ≤ 65535) :
    ∃ ts : List (Token SCHAR), image = encode Int8.ofInt ts ∧
      image.length ≤ MAX_DIFFERENCES ∧ (∀ t ∈ ts, t.Within 127) ∧
      Covers ts (newer.take (min newer.length older.length)) older := by
  cases h with
  | @differences _ out area l hd hl harea =>
    obtain ⟨ts, hout, hsize, hw, hc⟩ := sqzDifferences_covers harea hd hl
    exact ⟨ts, hout, by rwa [hout], hw, hc⟩
  | noDifferences =>
    obtain ⟨ts, hout, hsize, hw, hc⟩ := sqzNoDifferences_covers newer hlen
    refine ⟨ts, hout, by rwa [hout], hw, ?_⟩
    rwa [Nat.min_self, take_length]

theorem IsDelta.apply {older image record : List SCHAR} (h : IsDelta newer older image)
    (hlen : older.length ≤ 65535) (hrec : record.length = older.length)
    (hpre : newer.take (min newer.length older.length) <+: record) :
    sqzApplyDifferences record image = .ok (older.length, older) := by
  obtain ⟨ts, rfl, hsize, hw, hc⟩ := h.covers hlen
  rw [sqzApplyDifferences_covers hsize hw hc hpre hrec.ge hlen, ← hrec, drop_length, append_nil]

structure Loaded (r : Record) (contents : List SCHAR) : Prop where
  length_eq : r.recLength = contents.length
  isPrefix : contents <+: r.recData

/-- What is left to find the contents of a version: the record of the newer version, if the version
is stored against it. -/
def Ready (rpb : Rpb) : Option (List SCHAR) → Prop
  | none => rpb.prior = .null
  | some newer => (rpb.prior = .self ∧ ∃ r, rpb.record = some r ∧ Loaded r newer) ∨
      (∃ r, rpb.prior = .other r ∧ Loaded r newer) ∧
        ∀ r ∈ rpb.record, r.recLength ≤ r.recData.length

structure Based (r : Record) (fmtLength : Nat) (newer : List SCHAR) : Prop where
  recLength_eq : r.recLength = fmtLength
  le_length : fmtLength ≤ r.recData.length
  isPrefix : newer.take (min newer.length fmtLength) <+: r.recData.take fmtLength

theorem length_area (junk : Nat → SCHAR) (n : Nat) : (area junk n).length = n := by
  simp [area]

theorem vioRecord_recLength (junk : Nat → SCHAR) (n : Nat) (r : Option Record) :
    (vioRecord junk n r).recLength = n := by
  cases r with
  | none => rfl
  | some r =>
    rw [vioRecord]
    split <;> rfl

variable {r : Record}

theorem Loaded.based (h : Loaded r newer) (junk : Nat → SCHAR)
    (n : Nat) : Based (vioRecord junk n (some r)) n newer := by
  obtain ⟨hlen, tl, hdata⟩ := h
  by_cases hlt : r.recLength < n
  · have hrec : (vioRecord junk n (some r)).recData = newer ++ (area junk n).drop newer.length := by
      rw [vioRecord, if_pos hlt, Record.realloc, ← hdata, hlen, take_left]
    refine ⟨vioRecord_recLength junk n _, ?_, ?_⟩
    · rw [hrec, length_append, length_drop, length_area]
      omega
    · rw [hrec, Nat.min_eq_left (by omega), take_length, prefix_take_iff]
      exact ⟨prefix_append _ _, by omega⟩
  · have hrec : (vioRecord junk n (some r)).recData = newer ++ tl := by
      rw [vioRecord, if_neg hlt, hdata]
    refine ⟨vioRecord_recLength junk n _, ?_, ?_⟩
    · rw [hrec, length_append]
      omega
    · have htake :
          (vioRecord junk n (some r)).recData.take n = newer.take (min newer.length n) := by
        rw [hrec, Nat.min_eq_right (by omega), take_append_of_le_length (by omega)]
      exact htake ▸ prefix_rfl

theorem le_length_vioRecord (junk : Nat → SCHAR) (n : Nat) {record : Option Record}
    (h : ∀ r ∈ record, r.recLength ≤ r.recData.length) :
    n ≤ (vioRecord junk n record).recData.length := by
  cases record with
  | none => exact (length_area junk n).ge
  | some r =>
    have hr := h r rfl
    rw [vioRecord]
    split
    · simp only [Record.realloc, length_append, length_take, length_drop, length_area]
      omega
    · simp only
      omega

theorem Loaded.based_move {record : Record} (h : Loaded r newer)
    (junk : Nat → SCHAR) (hle : record.recLength ≤ record.recData.length) :
    Based (record.move junk r) record.recLength newer := by
  obtain ⟨hlen, tl, hdata⟩ := h
  have hfront : r.recData.take r.recLength = newer := by rw [← hdata, hlen, take_left]
  rw [Record.move, hfront, hlen]
  refine ⟨by simp only; split <;> rfl, ?_, ?_⟩
  · simp only [length_append, length_drop]
    split
    · omega
    · omega
  · rw [prefix_take_iff, length_take]
    have hpre (k : Nat) : newer.take k <+: newer := take_prefix k newer
    exact ⟨(hpre _).trans (prefix_append _ _), by omega⟩

theorem Based.patch {contents image : List SCHAR}
    (h : Based r contents.length newer) (hlen : contents.length ≤ 65535)
    (hd : IsDelta newer contents image) (hp : Holds pieces image) :
    ∃ r', r.patch pieces = .ok (r', contents.length) ∧ Loaded r' contents := by
  obtain ⟨-, -, hsize, -, -⟩ := hd.covers hlen
  have hrec : (r.recData.take r.recLength).length = contents.length := by
    rw [length_take, h.recLength_eq, Nat.min_eq_left h.le_length]
  have happly := hd.apply hlen hrec (by
    rw [h.recLength_eq]
    exact h.isPrefix)
  refine ⟨{ r with recData := contents ++ r.recData.drop r.recLength }, ?_, h.recLength_eq,
    prefix_append _ _⟩
  rw [Record.patch, decompressPieces_holds hp hsize]
  simp only [Except.bind, bind, happly]
  rfl

theorem load_holds {contents : List SCHAR}
    (h : r.recLength = contents.length) (hp : Holds pieces contents) :
    ∃ r', r.load pieces = .ok (r', contents.length) ∧ Loaded r' contents := by
  refine ⟨{ r with recData := contents ++ r.recData.drop contents.length }, ?_, h,
    prefix_append _ _⟩
  rw [Record.load, decompressPieces_holds hp h.ge]
  rfl

theorem read_written {junk : Nat → SCHAR} {rpb : Rpb} {newer : Option (List SCHAR)}
    {contents : List SCHAR} (hready : Ready rpb newer) (h : Written newer rpb.version contents) :
    ∃ r, rpb.read junk = .ok (r, contents.length) ∧ Loaded r contents := by
  obtain ⟨image, himage, hp⟩ := h.image
  have hrec := vioRecord_recLength junk rpb.version.fmtLength rpb.record
  unfold Rpb.read
  cases himage with
  | full =>
    rw [show rpb.prior = .null from hready]
    exact load_holds (hrec.trans h.length_eq.symm) hp
  | @delta newer _ _ hd =>
    rcases hready with ⟨hprior, r, hr, hl⟩ | ⟨⟨r, hprior, hl⟩, hsound⟩
    · have hb := hl.based junk rpb.version.fmtLength
      rw [← hr, ← h.length_eq] at hb
      rw [hprior, ← h.length_eq]
      exact hb.patch h.length_le hd hp
    · have hle := le_length_vioRecord junk rpb.version.fmtLength hsound
      have hb := hl.based_move junk (hrec.trans_le hle)
      rw [hrec, ← h.length_eq] at hb
      rw [hprior, ← h.length_eq]
      exact hb.patch h.length_le hd hp

theorem vioData_written {junk : Nat → SCHAR} {rpb : Rpb} {newer : Option (List SCHAR)}
    {contents : List SCHAR} (hready : Ready rpb newer) (h : Written newer rpb.version contents) :
    ∃ r, vioData junk rpb = .ok { rpb with
        record := some r
        prior := if !rpb.back.isEmpty && rpb.version.delta then .self else .null } ∧
      Loaded r contents := by
  obtain ⟨r, hr, hl⟩ := @read_written junk rpb newer contents hready h
  refine ⟨r, ?_, hl⟩
  rw [vioData, hr]
  simp only [bind, Except.bind]
  rw [if_neg (fun hne => hne h.length_eq.symm)]
  rfl

theorem ready_newer {rpb : Rpb} {v : Version} {contents : List SCHAR}
    (hrecord : rpb.record = some r) (hl : Loaded r contents)
    (hprior : rpb.prior = if v.delta then .self else .null) : Ready rpb (v.newer contents) := by
  unfold Version.newer
  by_cases hd : v.delta = true
  · rw [if_pos hd] at hprior ⊢
    exact .inl ⟨hprior, r, hrecord, hl⟩
  · rw [if_neg hd] at hprior ⊢
    exact hprior

end Firebird.Jrd.Vio
