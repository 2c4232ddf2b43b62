import Firebird.Jrd.EventNotify

/-!
# Dead processes

`probe_processes` and what it deletes. `delete_session` leaves a session that delivers to its
watcher thread and releases the table meanwhile; the watcher thread of a dead process never comes.
-/
namespace Firebird.Jrd.Event

open Lib List

/-- The session that a part of `deliver` is about. -/
def Call.watched : Call → Option Nat
  | .startDelivering session | .deliverRequest session _ | .endDelivering session => some session
  | _ => none

/-- What others do while the table is released: anything but what the watcher thread of the dead
process would do. -/
def runOthers (process : Nat) (evh : Evh) (calls : List Call) : Evh :=
  calls.foldl (fun evh c =>
    if c.watched.any (· ∈ sessionsOf evh process) then evh else call evh c) evh

/-- The first loop of `delete_process`, with what others do at each turn if the table is released,
or nothing if it takes more turns. -/
def deleteSessions (others : Nat → List Call) (process : Nat) : Nat → Evh → Option Evh
  | 0, _ => none
  | turns + 1, evh =>
    match sessionsOf evh process with
    | [] => some evh
    | session :: _ =>
      let released := ((evh.session session).map Ses.delivering).getD false
      let evh := deleteSession evh session
      deleteSessions others process turns
        (if released then runOthers process evh (others turns) else evh)

/-- `delete_process`, of another process -/
def deleteProcess (others : Nat → List Call) (turns process : Nat) (evh : Evh) : Option Evh :=
  (deleteSessions others process turns evh).map fun evh =>
    { evh with evhProcesses := evh.evhProcesses.filter fun p => p.offset ≠ process }

def nextProcess (processes : List Nat) : Option Nat → Option Nat
  | none => processes.head?
  | some process => (processes.dropWhile (· ≠ process)).tail.head?

/-- `probe_processes` by the process `self`, from a place on the queue on. It steps back before it
deletes a process. -/
def probeFrom (alive : Nat → Bool) (self : Nat) (others : Nat → List Call) :
    Nat → Option Nat → Evh → Option Evh
  | 0, _, _ => none
  | turns + 1, place, evh =>
    match nextProcess (evh.evhProcesses.map Prb.offset) place with
    | none => some evh
    | some process =>
      if process ≠ self ∧ alive process = false then
        (deleteProcess others turns process evh).bind (probeFrom alive self others turns place)
      else probeFrom alive self others turns (some process) evh

def probeProcesses (alive : Nat → Bool) (self : Nat) (others : Nat → List Call) (turns : Nat)
    (evh : Evh) : Option Evh := probeFrom alive self others turns none evh

def dead (alive : Nat → Bool) (self : Nat) (processes : List Nat) : List Nat :=
  processes.filter fun process => process ≠ self ∧ alive process = false

/-- Some sessions are gone, and with them their requests and interests; the others are as before,
and the events that they wait for. -/
structure Leaves (c : Ses → Bool) (evh evh' : Evh) : Prop where
  tidy : Tidy evh'
  sessions : evh'.evhSessions = evh.evhSessions.filter c
  events : ∀ e ∈ evh.evhEvents, e.evntParent ≠ none →
    (∃ i ∈ evh'.rints, i.rintEvent = e.offset) → ∃ e' ∈ evh'.evhEvents, e.Same e'

structure Probed (dead : List Nat) (evh evh' : Evh) : Prop
    extends Leaves (fun s => s.sesProcess ∉ dead) evh evh' where
  processes : evh'.evhProcesses = evh.evhProcesses.filter fun p => p.offset ∉ dead

variable {evh evh' evh'' : Evh} {s : Ses} {o : Nat} {others : Nat → List Call} {turns : Nat}

theorem filter_updateSession {f : Ses → Ses} (hf : ∀ s, (f s).offset = s.offset) (l : List Ses) :
    (updateSession l o f).filter (fun s => s.offset ≠ o) = l.filter fun s => s.offset ≠ o := by
  induction l with
  | nil => rfl
  | cons s l ih =>
    have hcons : updateSession (s :: l) o f = (if s.offset = o then f s else s) ::
      updateSession l o f := rfl
    rw [hcons]
    by_cases ho : s.offset = o
    · rw [if_pos ho, filter_cons_of_neg (by simp [hf, ho]), filter_cons_of_neg (by simp [ho]), ih]
    · rw [if_neg ho, filter_cons_of_pos (by simp [ho]), filter_cons_of_pos (by simp [ho]), ih]

theorem filter_deleteRequests (requests : List EvtReq) (evh : Evh) :
    (deleteRequests evh o requests).evhSessions.filter (fun s => s.offset ≠ o) =
      evh.evhSessions.filter fun s => s.offset ≠ o := by
  induction requests generalizing evh with
  | nil => rfl
  | cons r rest ih =>
    unfold deleteRequests
    cases hs : evh.session o with
    | none => rfl
    | some s =>
      obtain ⟨-, rfl⟩ := mem_of_session hs
      exact (ih _).trans (filter_updateSession (by exact fun _ => rfl) _)

theorem deleteSession_sessions (hs : evh.session o = some s) (hd : s.delivering = false) :
    (deleteSession evh o).evhSessions = evh.evhSessions.filter fun s => s.offset ≠ o := by
  unfold deleteSession
  rw [hs]
  dsimp only
  rw [if_neg (by simp [hd])]
  exact filter_deleteRequests _ _

/-! ## The sessions of a process -/

variable {c c' : Ses → Bool} {d d' : List Nat}

theorem Leaves.congr (h : Leaves c evh evh') (hc : ∀ s ∈ evh.evhSessions, c s = c' s) :
    Leaves c' evh evh' := ⟨h.tidy, h.sessions.trans (filter_congr hc), h.events⟩

theorem Leaves.refl (h : Tidy evh) (hc : ∀ s ∈ evh.evhSessions, c s = true) : Leaves c evh evh :=
  ⟨h, (filter_eq_self.2 hc).symm, fun e he _ _ => ⟨e, he, .refl e⟩⟩

theorem Leaves.rints (h : Leaves c evh evh') {i : Rint} (hi : i ∈ evh'.rints) : i ∈ evh.rints := by
  unfold Evh.rints at hi ⊢
  rw [h.sessions] at hi
  obtain ⟨s, hs, his⟩ := mem_flatMap.1 hi
  exact mem_flatMap.2 ⟨s, (mem_filter.1 hs).1, his⟩

theorem Leaves.trans (h : Leaves c evh evh') (h' : Leaves c' evh' evh'') :
    Leaves (fun s => c' s && c s) evh evh'' := by
  refine ⟨h'.tidy, ?_, fun e he hp ⟨i, hi, hie⟩ => ?_⟩
  · rw [h'.sessions, h.sessions, filter_filter]
  · obtain ⟨e', he', hsame⟩ := h.events e he hp ⟨i, h'.rints hi, hie⟩
    obtain ⟨e'', he'', hsame'⟩ :=
      h'.events e' he' (hsame.2.1 ▸ hp) ⟨i, hi, hie.trans hsame.1.symm⟩
    exact ⟨e'', he'', hsame.trans hsame'⟩

theorem Probed.trans (h : Probed d evh evh') (h' : Probed d' evh' evh'') :
    Probed (d ++ d') evh evh'' := by
  refine ⟨(h.toLeaves.trans h'.toLeaves).congr fun s _ => ?_, ?_⟩
  · simp [Bool.and_comm]
  · rw [h'.processes, h.processes, filter_filter]
    exact filter_congr fun p _ => by simp [Bool.and_comm]

theorem mem_sessionsOf_of_mem (hs : s ∈ evh.evhSessions) :
    s.offset ∈ sessionsOf evh s.sesProcess :=
  mem_map_of_mem (mem_filter.2 ⟨hs, decide_eq_true rfl⟩)

theorem Tidy.leaves_deleteSession (h : Tidy evh) (hs : evh.session o = some s)
    (hd : s.delivering = false) :
    Leaves (fun s => s.offset ≠ o) evh (Event.deleteSession evh o) :=
  have ⟨htidy, hev⟩ := h.deleteSession o
  ⟨htidy, deleteSession_sessions hs hd, hev.events⟩

theorem Tidy.deleteSessions (h : Tidy evh) (others : Nat → List Call) (turns : Nat)
    (hd : ∀ s ∈ evh.evhSessions, s.sesProcess = o → s.delivering = false) :
    (deleteSessions others o turns evh = none ∧ turns ≤ evh.evhSessions.length) ∨
    ∃ evh', deleteSessions others o turns evh = some evh' ∧
      evh'.evhProcesses = evh.evhProcesses ∧ Leaves (fun s => s.sesProcess ≠ o) evh evh' := by
  induction turns generalizing evh with
  | zero => exact .inl ⟨rfl, Nat.zero_le _⟩
  | succ turns ih =>
    unfold Event.deleteSessions
    cases hof : sessionsOf evh o with
    | nil =>
      refine .inr ⟨evh, rfl, rfl, .refl h fun s hs => decide_eq_true fun ho => ?_⟩
      have := ho ▸ mem_sessionsOf_of_mem hs
      rw [hof] at this
      cases this
    | cons session rest =>
      obtain ⟨s, hs, rfl, hso⟩ := mem_sessionsOf.1
        (show session ∈ sessionsOf evh o by rw [hof]; exact mem_cons_self)
      have hsess : evh.session s.offset = some s := Keyed.find?_eq h.offsets hs
      have hds := hd s hs hso
      have hleaves := h.leaves_deleteSession hsess hds
      have hfewer : (Event.deleteSession evh s.offset).evhSessions.length <
          evh.evhSessions.length := by
        rw [hleaves.sessions]
        exact length_filter_lt_length_iff_exists.2 ⟨s, hs, by simp⟩
      dsimp only
      rw [hsess, Option.map_some, Option.getD_some, hds, if_neg Bool.false_ne_true]
      obtain ⟨hnone, hle⟩ | ⟨evh', hsome, hp, hl⟩ := ih hleaves.tidy
        fun t ht => hd t (mem_filter.1 (hleaves.sessions ▸ ht)).1
      · exact .inl ⟨hnone, by omega⟩
      · refine .inr ⟨evh', hsome, hp.trans (deleteSession_processes evh s.offset).1,
          (hleaves.trans hl).congr fun t ht => ?_⟩
        rw [Bool.and_eq_left_iff_imp]
        intro hne
        refine decide_eq_true fun hto => of_decide_eq_true hne ?_
        rw [h.eq_of_session hsess ht hto, hso]

def Delivers (evh : Evh) (process : Nat) : Prop :=
  ∃ s ∈ evh.evhSessions, s.sesProcess = process ∧ s.delivering = true

theorem Delivers.flagsKept (hd : Delivers evh o)
    (h : FlagsKept evh.evhSessions evh'.evhSessions) : Delivers evh' o :=
  have ⟨s, hs, hso, hds⟩ := hd
  have ⟨s', hs', hsame⟩ := h.stay s hs hds
  ⟨s', hs', hsame.2.1 ▸ hso, hsame.2.2.1 ▸ hds⟩

theorem Delivers.endDelivering (hd : Delivers evh o) (h : Tidy evh) {session : Nat}
    (hsession : session ∉ sessionsOf evh o) : Delivers (Event.endDelivering evh session) o := by
  have hclear : Delivers (clearDelivering evh session) o := by
    obtain ⟨s, hs, rfl, hds⟩ := hd
    refine ⟨s, mem_map.2 ⟨s, hs, if_neg fun ho => hsession ?_⟩, rfl, hds⟩
    exact ho ▸ mem_sessionsOf_of_mem hs
  unfold Event.endDelivering
  dsimp only
  split
  · exact hclear
  · split_ifs
    · exact hclear.flagsKept ((h.clearDelivering session).1.flagsKept_deleteSession session)
    · exact hclear

theorem Delivers.runOthers (hd : Delivers evh o) (h : Tidy evh) (calls : List Call) :
    Delivers (runOthers o evh calls) o ∧ Tidy (Event.runOthers o evh calls) := by
  induction calls generalizing evh with
  | nil => exact ⟨hd, h⟩
  | cons c calls ih =>
    unfold Event.runOthers
    rw [foldl_cons]
    split_ifs with hc
    · exact ih hd h
    · refine ih ?_ (h.moves c).tidy
      cases c with
      | startDelivering session =>
        obtain ⟨s, hs, hso, hds⟩ := hd
        refine ⟨_, mem_map_of_mem hs, ?_⟩
        split_ifs
        · exact ⟨hso, rfl⟩
        · exact ⟨hso, hds⟩
      | deliverRequest session request =>
        cases hr : evh.requestOf session request with
        | none => simpa only [call, hr] using hd
        | some q =>
          simp only [call, hr]
          exact hd.flagsKept (flagsKept_deleteRequest evh q.1 q.2)
      | endDelivering session => exact hd.endDelivering h (by simpa [Call.watched] using hc)
      | createProcess | createSession | que | post | deliver | cancel | deleteSession =>
        exact hd.flagsKept (h.follows_call rfl).flags

theorem Delivers.deleteSessions_eq_none (hd : Delivers evh o) (h : Tidy evh) :
    deleteSessions others o turns evh = none := by
  induction turns generalizing evh with
  | zero => rfl
  | succ turns ih =>
    unfold deleteSessions
    cases hof : sessionsOf evh o with
    | nil =>
      obtain ⟨s, hs, rfl, -⟩ := hd
      have := mem_sessionsOf_of_mem hs
      rw [hof] at this
      cases this
    | cons session rest =>
      have htidy := (h.deleteSession session).1
      have hdel := hd.flagsKept (h.flagsKept_deleteSession session)
      dsimp only
      split_ifs
      · exact ih (hdel.runOthers htidy _).1 (hdel.runOthers htidy _).2
      · exact ih hdel htidy

/-- The processes of a table, those that the walk has passed and those that are still to come. -/
structure Walks (evh : Evh) (l rest : List Nat) : Prop where
  tidy : Tidy evh
  processes : evh.evhProcesses.map Prb.offset = l ++ rest
  nodup : (l ++ rest).Nodup

variable {alive : Nat → Bool} {self : Nat} {l rest : List Nat}

theorem Walks.next (h : Walks evh l rest) :
    nextProcess (evh.evhProcesses.map Prb.offset) l.getLast? = rest.head? := by
  have hnodup := h.nodup
  rw [h.processes]
  cases hl : l.getLast? with
  | none =>
    rw [getLast?_eq_none_iff.1 hl]
    rfl
  | some o =>
    obtain ⟨l, rfl⟩ := getLast?_eq_some_iff.1 hl
    have hnot : ∀ a ∈ l, decide (a ≠ o) = true := fun a ha => decide_eq_true fun heq => by
      rw [append_assoc, nodup_append] at hnodup
      exact hnodup.2.2 a ha o (mem_append_left _ (mem_singleton_self o)) heq
    unfold nextProcess
    dsimp only
    rw [append_assoc, dropWhile_append_of_pos hnot, singleton_append,
      dropWhile_cons_of_neg (by simp), tail_cons]

theorem Walks.probed (h : Walks evh l (o :: rest)) (hp : Probed [o] evh evh') :
    Walks evh' l rest := by
  have hnodup := h.nodup
  rw [nodup_middle, nodup_cons] at hnodup
  refine ⟨hp.tidy, ?_, hnodup.2⟩
  have hmap : evh'.evhProcesses.map Prb.offset =
      (evh.evhProcesses.map Prb.offset).filter (· ∉ [o]) := by
    rw [hp.processes, filter_map]
    rfl
  have hne : ∀ a ∈ l ++ rest, decide (a ∉ [o]) = true := fun a ha => decide_eq_true fun hao =>
    hnodup.1 (mem_singleton.1 hao ▸ ha)
  rw [hmap, h.processes, filter_append, filter_cons_of_neg (by simp), ← filter_append,
    filter_eq_self.2 hne]

theorem Tidy.withProcesses (h : Tidy evh) (processes : List Prb) :
    Tidy { evh with evhProcesses := processes } :=
  (h.congr (by exact rfl) (by exact rfl) (by exact Nat.le_refl _)).1

theorem Tidy.deleteProcess (h : Tidy evh) (others : Nat → List Call) (turns : Nat)
    (hd : ∀ s ∈ evh.evhSessions, s.sesProcess = o → s.delivering = false) :
    (deleteProcess others turns o evh = none ∧ turns ≤ evh.evhSessions.length) ∨
    ∃ evh', deleteProcess others turns o evh = some evh' ∧ Probed [o] evh evh' := by
  unfold Event.deleteProcess
  obtain ⟨hnone, hle⟩ | ⟨evh', hsome, hp, hl⟩ := h.deleteSessions others turns hd
  · exact .inl ⟨by rw [hnone]; rfl, hle⟩
  · rw [hsome, Option.map_some]
    refine .inr ⟨_, rfl, ⟨hl.tidy.withProcesses _, ?_, hl.events⟩, ?_⟩
    · exact hl.sessions.trans (filter_congr fun s _ => by simp)
    · rw [← hp]
      exact filter_congr fun p _ => by simp

theorem Walks.probeFrom_cons (h : Walks evh l (o :: rest)) :
    probeFrom alive self others (turns + 1) l.getLast? evh =
      if o ≠ self ∧ alive o = false then
        (deleteProcess others turns o evh).bind (probeFrom alive self others turns l.getLast?)
      else probeFrom alive self others turns (l ++ [o]).getLast? evh := by
  rw [probeFrom, h.next, getLast?_append, getLast?_singleton]
  rfl

theorem Walks.pass (h : Walks evh l (o :: rest)) : Walks evh (l ++ [o]) rest :=
  ⟨h.tidy, by rw [h.processes, append_assoc, singleton_append], by rw [append_assoc]; exact h.nodup⟩

theorem Walks.probeFrom_nil (h : Walks evh l []) :
    probeFrom alive self others (turns + 1) l.getLast? evh = some evh := by
  rw [probeFrom, h.next]
  rfl

theorem Walks.probeFrom (h : Walks evh l rest) (others : Nat → List Call)
    (hd : ∀ s ∈ evh.evhSessions, s.sesProcess ∈ dead alive self rest → s.delivering = false)
    (hturns : rest.length + evh.evhSessions.length < turns) :
    ∃ evh', probeFrom alive self others turns l.getLast? evh = some evh' ∧
      Probed (dead alive self rest) evh evh' := by
  induction rest generalizing l evh turns with
  | nil =>
    obtain ⟨turns, rfl⟩ := Nat.exists_eq_add_one_of_ne_zero (Nat.ne_zero_of_lt hturns)
    refine ⟨evh, h.probeFrom_nil, .refl h.tidy fun _ _ => decide_eq_true not_mem_nil, ?_⟩
    exact (filter_eq_self.2 fun _ _ => decide_eq_true not_mem_nil).symm
  | cons o rest ih =>
    obtain ⟨turns, rfl⟩ := Nat.exists_eq_add_one_of_ne_zero (Nat.ne_zero_of_lt hturns)
    rw [length_cons] at hturns
    rw [h.probeFrom_cons]
    split_ifs with ho
    · have hdead : dead alive self (o :: rest) = [o] ++ dead alive self rest :=
        filter_cons_of_pos (decide_eq_true ho)
      rw [hdead] at hd ⊢
      obtain ⟨-, hle⟩ | ⟨evh', hsome, hp⟩ := h.tidy.deleteProcess (o := o) others turns
        fun s hs hso => hd s hs (mem_append_left _ (mem_singleton.2 hso))
      · omega
      · have hsub : evh'.evhSessions.length ≤ evh.evhSessions.length := by
          rw [hp.sessions]
          exact length_filter_le _ _
        have hrest : rest.length + evh'.evhSessions.length < turns := by omega
        obtain ⟨evh'', hsome', hp'⟩ := ih (h.probed hp) (fun s hs hsd =>
          hd s (mem_filter.1 (hp.sessions ▸ hs)).1 (mem_append_right _ hsd)) hrest
        exact ⟨evh'', by rw [hsome]; exact hsome', hp.trans hp'⟩
    · have hdead : dead alive self (o :: rest) = dead alive self rest :=
        filter_cons_of_neg (by simpa using ho)
      rw [hdead] at hd ⊢
      exact ih h.pass hd (by omega)

theorem Walks.probeFrom_eq_none (h : Walks evh l rest) (others : Nat → List Call) (turns : Nat)
    (ho : o ∈ dead alive self rest) (hd : Delivers evh o) :
    Event.probeFrom alive self others turns l.getLast? evh = none := by
  induction rest generalizing l evh turns with
  | nil => cases ho
  | cons o' rest ih =>
    cases turns with
    | zero => rfl
    | succ turns =>
      rw [h.probeFrom_cons]
      obtain ⟨hmem, hdead⟩ := mem_filter.1 ho
      split_ifs with ho'
      · by_cases hd' : Delivers evh o'
        · unfold Event.deleteProcess
          rw [hd'.deleteSessions_eq_none h.tidy]
          rfl
        · have hne : o ≠ o' := fun heq => hd' (heq ▸ hd)
          obtain ⟨hnone, -⟩ | ⟨evh', hsome, hp⟩ := h.tidy.deleteProcess (o := o') others turns
            fun s hs hso => Bool.eq_false_iff.2 fun hds => hd' ⟨s, hs, hso, hds⟩
          · rw [hnone]
            rfl
          · rw [hsome]
            refine ih (h.probed hp) _ (mem_filter.2 ⟨(mem_cons.1 hmem).resolve_left hne, hdead⟩) ?_
            obtain ⟨s, hs, hso, hds⟩ := hd
            refine ⟨s, ?_, hso, hds⟩
            rw [hp.sessions]
            exact mem_filter.2 ⟨hs, by simpa [hso] using hne⟩
      · refine ih h.pass _ (mem_filter.2 ⟨(mem_cons.1 hmem).resolve_left fun heq => ?_, hdead⟩) hd
        exact ho' (heq ▸ of_decide_eq_true hdead)

structure Orderly (evh : Evh) : Prop where
  tidy : Tidy evh
  nodup : (evh.evhProcesses.map Prb.offset).Nodup
  lt : ∀ o ∈ evh.evhProcesses.map Prb.offset, o < evh.evhFree

theorem Orderly.congr (h : Orderly evh) (ht : Tidy evh') (hfree : evh.evhFree ≤ evh'.evhFree)
    (hp : evh'.evhProcesses.map Prb.offset = evh.evhProcesses.map Prb.offset) : Orderly evh' :=
  ⟨ht, hp ▸ h.nodup, fun o ho => Nat.lt_of_lt_of_le (h.lt o (hp ▸ ho)) hfree⟩

theorem map_offset {f : Prb → Prb} (hf : ∀ p, (f p).offset = p.offset) (processes : List Prb) :
    (processes.map f).map Prb.offset = processes.map Prb.offset := by
  rw [map_map]
  exact map_congr_left fun p _ => hf p

theorem endDelivering_processes (evh : Evh) (session : Nat) :
    (endDelivering evh session).evhProcesses = evh.evhProcesses := by
  unfold endDelivering
  dsimp only
  split
  · rfl
  · split_ifs
    · exact (deleteSession_processes _ _).1
    · rfl

theorem Orderly.endDelivering (h : Orderly evh) (session : Nat) :
    Orderly (Event.endDelivering evh session) :=
  have ⟨ht, hev⟩ := h.tidy.endDelivering session
  h.congr ht hev.free_le (by rw [endDelivering_processes])

theorem Orderly.call (h : Orderly evh) {c : Call} (hc : c.isClient = true) :
    Orderly (call evh c) := by
  have hm := h.tidy.moves c
  have hsame : (Event.call evh c).evhProcesses = evh.evhProcesses → Orderly (Event.call evh c) :=
    fun hp => h.congr hm.tidy hm.free_le (by rw [hp])
  cases c with
  | createProcess =>
    have hmap : (Event.call evh .createProcess).evhProcesses.map Prb.offset =
        evh.evhProcesses.map Prb.offset ++ [evh.evhFree] := map_append
    refine ⟨hm.tidy, ?_, ?_⟩
    · rw [hmap, ← concat_eq_append]
      exact h.nodup.concat fun hin => Nat.lt_irrefl _ (h.lt _ hin)
    · rw [hmap]
      intro o ho
      obtain ho | ho := mem_append.1 ho
      · exact Nat.lt_succ_of_lt (h.lt o ho)
      · rw [mem_singleton.1 ho]
        exact Nat.lt_succ_self _
  | createSession process => exact hsame rfl
  | que session string entries =>
    cases hs : evh.session session with
    | none => exact hsame (by simp only [Event.call, hs])
    | some s =>
      refine h.congr hm.tidy hm.free_le ?_
      obtain ⟨-, rfl⟩ := mem_of_session hs
      simp only [Event.call, hs, eventQue_eq hs]
      split_ifs
      · exact map_offset (fun p => by split_ifs <;> rfl) _
      · rfl
  | post major minor count =>
    obtain ⟨heq, _⟩ | ⟨d, hd, hevents, hsess, hfree, hproc⟩ :=
      eventPost_cases h.tidy major minor count
    · exact hsame (congrArg Evh.evhProcesses heq)
    · exact h.congr hm.tidy hm.free_le
        ((congrArg _ hproc).trans (map_offset (fun p => by split_ifs <;> rfl) _))
  | deliver => exact h.congr hm.tidy hm.free_le (map_offset (fun p => by split_ifs <;> rfl) _)
  | cancel process id =>
    refine hsame ?_
    change (eventCancel evh process id).evhProcesses = evh.evhProcesses
    unfold eventCancel
    split <;> rfl
  | deleteSession session => exact hsame (deleteSession_processes evh session).1
  | startDelivering | deliverRequest | endDelivering => cases hc

theorem Orderly.deliverRequests (h : Orderly evh) {next : Evh → Evh × Pc} (session : Nat)
    (hnext : ∀ {evh}, Orderly evh → Orderly (next evh).1) :
    Orderly (deliverRequests next evh session).1 ∧ Orderly (endSession next evh session).1 := by
  have hend : Orderly (endSession next evh session).1 := by
    unfold endSession
    split_ifs
    · exact h.endDelivering session
    · exact hnext (h.endDelivering session)
  refine ⟨?_, hend⟩
  unfold Event.deliverRequests
  cases hc : completedRequest evh session with
  | none => exact hend
  | some q =>
    obtain ⟨s, r⟩ := q
    obtain ⟨hs, hr⟩ := of_completedRequest hc
    obtain ⟨ht, hst⟩ := h.tidy.deleteRequest hs hr
    exact h.congr ht hst.free_le rfl

theorem Orderly.deliverSessions (sessions : List Nat) (h : Orderly evh) :
    Orderly (deliverSessions sessions evh).1 := by
  induction sessions generalizing evh with
  | nil => exact h
  | cons session rest ih =>
    obtain ⟨ht, hst⟩ := h.tidy.startDelivering session
    exact ((h.congr ht hst.free_le rfl).deliverRequests session ih).1

theorem Orderly.watch {σ : Region} (h : Orderly σ.evh) (a : Step) : Orderly (watch σ a).evh := by
  have hflags : ∀ o (f : Prb → Prb), (∀ p, (f p).offset = p.offset) →
      Orderly { σ.evh with evhProcesses := updateProcess σ.evh.evhProcesses o f } := fun o f hf =>
    h.congr (h.tidy.withProcesses _) (by exact Nat.le_refl _)
      (map_offset (fun p => by split_ifs; exacts [hf p, rfl]) _)
  cases a with
  | call c =>
    unfold Event.watch
    dsimp only
    split_ifs with hc
    · exact h.call hc
    · exact h
  | clear o | wait o | wake o =>
    unfold Event.watch
    dsimp only
    split_ifs
    · exact hflags o _ fun _ => by exact rfl
    · exact h
  | deliver o =>
    unfold Event.watch
    dsimp only
    split_ifs
    · exact (hflags o (fun p => { p with pending := false }) fun _ => rfl).deliverSessions _
    · exact h
  | resume o =>
    unfold Event.watch
    dsimp only
    split
    · rename_i session _
      have hr := h.deliverRequests session
        fun {evh} h => h.deliverSessions (nextSessions evh o session)
      unfold resumeDeliver
      dsimp only [go_evh]
      split_ifs
      · exact hr.2
      · exact hr.1
    · exact h

theorem orderly_foldl (steps : List Step) {σ : Region} (h : Orderly σ.evh) :
    Orderly (steps.foldl watch σ).evh := by
  induction steps generalizing σ with
  | nil => exact h
  | cons a steps ih => exact ih (h.watch a)

theorem walks_foldl (steps : List Step) : Walks (steps.foldl watch initialRegion).evh []
    ((steps.foldl watch initialRegion).evh.evhProcesses.map Prb.offset) :=
  have h : Orderly (steps.foldl watch initialRegion).evh :=
    orderly_foldl steps ⟨tidy_initialEvh, nodup_nil, fun _ ho => nomatch ho⟩
  ⟨h.tidy, rfl, h.nodup⟩

/-- The dead processes are deleted if and only if none of their watcher threads was in the call of a
client. -/
theorem probeProcesses_iff (steps : List Step) (alive : Nat → Bool) (self : Nat)
    (others : Nat → List Call) :
    let evh := (steps.foldl watch initialRegion).evh
    let gone := dead alive self (evh.evhProcesses.map Prb.offset)
    (∃ turns evh', probeProcesses alive self others turns evh = some evh' ∧ Probed gone evh evh') ↔
      ∀ s ∈ evh.evhSessions, s.sesProcess ∈ gone → s.delivering = false := by
  intro evh gone
  have hw := walks_foldl steps
  constructor
  · rintro ⟨turns, evh', hsome, -⟩ s hs hgone
    by_contra hds
    have hnone := hw.probeFrom_eq_none others turns hgone
      ⟨s, hs, rfl, by simpa using hds⟩
    exact absurd (hnone.symm.trans hsome) nofun
  · intro hd
    obtain ⟨evh', hsome, hp⟩ := hw.probeFrom others hd (Nat.lt_succ_self _)
    exact ⟨_, evh', hsome, hp⟩

/-- A process dies in the call of a client, while it tells its session of an event; then another one
comes. -/
def deathSteps : List Step :=
  [.call .createProcess, .call (.createSession 1),
    .call (.que 2 [100] [{ name := [65], count := 1 }]), .call (.post [100] [65] 1), .call .deliver,
    .clear 1, .deliver 1, .call .createProcess]

theorem not_probed : ¬∃ turns, (probeProcesses (· ≠ 1) 7 (fun _ => []) turns
    (deathSteps.foldl watch initialRegion).evh).isSome := by
  rintro ⟨turns, hsome⟩
  have hdead : 1 ∈ dead (· ≠ 1) 7
      ((deathSteps.foldl watch initialRegion).evh.evhProcesses.map Prb.offset) := by decide
  have hdelivers : ∃ s ∈ (deathSteps.foldl watch initialRegion).evh.evhSessions,
      s.sesProcess = 1 ∧ s.delivering = true := by decide
  have hnone : probeProcesses (· ≠ 1) 7 (fun _ => []) turns _ = none :=
    (walks_foldl deathSteps).probeFrom_eq_none (fun _ => []) turns hdead hdelivers
  rw [hnone] at hsome
  cases hsome

end Firebird.Jrd.Event
