import Firebird.Jrd.EventCalls

/-!
# Event blocks

`EVENT_que` as it gets an event block: some bytes in the memory of the process, with a length. Each
item has a length byte, a name of that length and the four bytes of a count; the length byte is
compared with the length of the whole block and not with what is left of it.
-/
namespace Firebird.Jrd.Event

open List

def epbVersion1 : UInt8 := 1

/-- `gds__vax_integer(p, 4)` -/
def vaxInteger (memory : Nat → UInt8) (p : Nat) : Int :=
  slong (((List.range 4).map fun i => (memory (p + i)).toNat * 256 ^ i).sum : Nat)

/-- What the loop of `EVENT_que` does with a block: the addresses that it reads, the items up to an
error, and whether it finds one. -/
structure Block where
  reads : List Nat
  entries : List Entry
  invalid : Bool

/-- The loop, from an address on. All bytes of an item are read: the blanks at the end of the name
as they are stripped, what is in front of them by `find_event` or `make_event`. -/
def readBlock (memory : Nat → UInt8) (eventsLength p : Nat) : Block :=
  if p < eventsLength then
    let count := (memory p).toNat
    if eventsLength < count then { reads := [p], entries := [], invalid := true }
    else
      let block := readBlock memory eventsLength (p + count + 5)
      { block with
        reads := List.range' p (count + 5) ++ block.reads
        entries := { name := (List.range' (p + 1) count).map memory,
                     count := vaxInteger memory (p + 1 + count) } :: block.entries }
  else { reads := [], entries := [], invalid := false }
  termination_by eventsLength - p

/-- A call of `EVENT_que`: what it reads of the block, the table after it, and whether it has raised
"Invalid EPB form". -/
structure Called where
  reads : List Nat
  evh : Evh
  raised : Bool

/-- `EVENT_que`. After an error the request stays, with the interests of the items in front, and no
process is posted. -/
def eventQueBlock (evh : Evh) (process session : Nat) (string : List UInt8)
    (memory : Nat → UInt8) (eventsLength : Nat) : Called :=
  if 0 < eventsLength ∧ memory 0 ≠ epbVersion1 then { reads := [0], evh, raised := true }
  else
    let block := readBlock memory eventsLength 1
    let after := eventQue evh process session string block.entries
    { reads := (if 0 < eventsLength then [0] else []) ++ block.reads
      evh := if block.invalid then { after with evhProcesses := evh.evhProcesses } else after
      raised := block.invalid }

inductive Items (memory : Nat → UInt8) (eventsLength : Nat) : Nat → Prop where
  | done : Items memory eventsLength eventsLength
  | item {p : Nat} (fits : p + (memory p).toNat + 5 ≤ eventsLength)
      (rest : Items memory eventsLength (p + (memory p).toNat + 5)) : Items memory eventsLength p

/-- No request is left on the queue of the session, no interest refers to one, and the historical
interests of the session and the events are still there. -/
structure Undone (evh evh' : Evh) (session : Nat) : Prop where
  requests : (evh'.session session).map Ses.sesRequests = (evh.session session).map Ses.sesRequests
  interests : ∀ i ∈ evh'.rints, i.rintRequest ≠ some evh.evhFree
  history : ∀ s ∈ evh.session session, ∃ s' ∈ evh'.session session,
    ∀ i ∈ s.sesInterests, i ∈ s'.sesInterests
  events : ∀ e ∈ evh.evhEvents, e ∈ evh'.evhEvents

/-- A call stays within the block, and leaves nothing behind if it raises an error. -/
structure Contained (evh : Evh) (session eventsLength : Nat) (c : Called) : Prop where
  reads : ∀ a ∈ c.reads, a < eventsLength
  undone : c.raised = true → Undone evh c.evh session

variable {memory : Nat → UInt8} {n p : Nat}

theorem readBlock_iff (h : p ≤ n) :
    (∀ a ∈ (readBlock memory n p).reads, a < n) ∧ (readBlock memory n p).invalid = false ↔
      Items memory n p := by
  induction p using readBlock.induct memory n with
  | case1 p hlt count hlarge =>
    rw [readBlock, if_pos hlt, if_pos hlarge]
    refine iff_of_false (fun hor => Bool.noConfusion hor.2) fun hitems => ?_
    cases hitems with
    | done => exact Nat.lt_irrefl _ hlt
    | item fits _ => omega
  | case2 p hlt count hlarge ih =>
    rw [readBlock, if_pos hlt, if_neg hlarge]
    dsimp only
    constructor
    · rintro ⟨hreads, hvalid⟩
      have hlast := hreads (p + count + 4) (mem_append_left _ (by simp; omega))
      exact .item hlast ((ih hlast).1 ⟨fun a ha => hreads a (mem_append_right _ ha), hvalid⟩)
    · intro hitems
      cases hitems with
      | done => exact absurd hlt (Nat.lt_irrefl _)
      | item fits rest =>
        obtain ⟨hreads, hvalid⟩ := (ih fits).2 rest
        refine ⟨fun a ha => ?_, hvalid⟩
        obtain ha | ha := mem_append.1 ha
        · rw [mem_range'_1] at ha
          omega
        · exact hreads a ha
  | case3 p hge =>
    obtain rfl : p = n := by omega
    rw [readBlock, if_neg hge]
    exact iff_of_true ⟨fun a ha => absurd ha not_mem_nil, rfl⟩ .done

variable {evh : Evh} {s : Ses} {session : Nat}

theorem not_undone_eventQue (hs : evh.session session = some s) (process : Nat)
    (string : List UInt8) (entries : List Entry) (processes : List Prb) :
    ¬Undone evh { eventQue evh process session string entries with evhProcesses := processes }
      session := by
  intro h
  obtain ⟨-, rfl⟩ := mem_of_session hs
  have hrequests := h.requests
  rw [eventQue_eq hs] at hrequests
  unfold Evh.session at hs hrequests
  dsimp only at hrequests
  rw [find?_updateSession, hs] at hrequests
  · simp at hrequests
  · exact fun _ => rfl

/-- A block is contained if and only if it is a sequence of items. -/
theorem eventQueBlock_contained_iff (hs : evh.session session = some s) (process : Nat)
    (string : List UInt8) (hlength : 0 < n) (hversion : memory 0 = epbVersion1) :
    Contained evh session n (eventQueBlock evh process session string memory n) ↔
      Items memory n 1 := by
  rw [← readBlock_iff hlength, eventQueBlock, if_neg fun h => h.2 hversion]
  dsimp only
  constructor
  · intro h
    refine ⟨fun a ha => h.reads a (mem_append_right _ ha), ?_⟩
    cases hinvalid : (readBlock memory n 1).invalid with
    | false => rfl
    | true =>
      have hundone := h.undone hinvalid
      dsimp only at hundone
      rw [if_pos hinvalid] at hundone
      exact absurd hundone (not_undone_eventQue hs _ _ _ _)
  · rintro ⟨hreads, hvalid⟩
    refine ⟨fun a ha => ?_, fun hraised => absurd (hvalid.symm.trans hraised) Bool.false_ne_true⟩
    obtain ha | ha := mem_append.1 ha
    · rw [if_pos hlength] at ha
      rwa [mem_singleton.1 ha]
    · exact hreads a ha

/-- For a sequence of items `EVENT_que` is the call with these items. -/
theorem eventQueBlock_of_items (hs : evh.session session = some s) (string : List UInt8)
    (hlength : 0 < n) (hversion : memory 0 = epbVersion1) (hitems : Items memory n 1) :
    (eventQueBlock evh s.sesProcess session string memory n).evh =
      call evh (.que session string (readBlock memory n 1).entries) := by
  have hvalid := ((readBlock_iff hlength).2 hitems).2
  rw [eventQueBlock, if_neg fun h => h.2 hversion, call, hs]
  dsimp only
  rw [hvalid]
  rfl

def oneClient : Evh := eventCreateSession (createProcess initialEvh) 1

/-- One item, with the name "A" and the count 1. -/
theorem eventQueBlock_contained_one : Contained oneClient 2 7 (eventQueBlock oneClient 1 2 [100]
    (fun a => [1, 1, 65, 1, 0, 0, 0].getD a 0) 7) :=
  (eventQueBlock_contained_iff (s := ⟨2, 1, [], [], false, false⟩) (by decide) 1 [100] (by decide)
    (by decide)).2 (.item (by decide) .done)

/-- A name longer than the block. -/
theorem not_contained : ¬Contained oneClient 2 2 (eventQueBlock oneClient 1 2 [100]
    (fun a => [1, 200].getD a 0) 2) := by
  intro h
  have hinvalid : (readBlock (fun a => [1, 200].getD a 0) 2 1).invalid = true := by
    rw [readBlock, if_pos (by decide), if_pos (by decide)]
  rw [eventQueBlock, if_neg (by decide)] at h
  have hundone := h.undone hinvalid
  dsimp only at hundone
  rw [if_pos hinvalid] at hundone
  exact not_undone_eventQue (s := ⟨2, 1, [], [], false, false⟩) (by decide) _ _ _ _ hundone

end Firebird.Jrd.Event
