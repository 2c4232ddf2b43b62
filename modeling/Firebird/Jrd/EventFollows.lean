import Firebird.Jrd.EventWatch

/-!
# What the clients leave to the watcher threads

A call of a client completes a request only if it wakes the process of the request, and it leaves
the sessions that a watcher thread delivers to.
-/
namespace Firebird.Jrd.Event

open Lib List

/-- The same session, with its flags. A session that delivers may have been purged. -/
def Ses.SameFlags (s s' : Ses) : Prop :=
  s.offset = s'.offset ∧ s.sesProcess = s'.sesProcess ∧ s.delivering = s'.delivering ∧
    (s'.purge = true → s.purge = true ∨ s.delivering = true)

theorem Ses.SameFlags.refl (s : Ses) : s.SameFlags s := ⟨rfl, rfl, rfl, .inl⟩

variable {s s' : Ses}

theorem Ses.SameFlags.trans {s'' : Ses} (h : s.SameFlags s') (h' : s'.SameFlags s'') :
    s.SameFlags s'' := by
  refine ⟨h.1.trans h'.1, h.2.1.trans h'.2.1, h.2.2.1.trans h'.2.2.1, fun hp => ?_⟩
  obtain hp | hd := h'.2.2.2 hp
  · exact h.2.2.2 hp
  · exact .inr (h.2.2.1.trans hd)

/-- What a call of a client does to the flags: new sessions have none, and sessions that deliver
stay. -/
structure FlagsKept (l l' : List Ses) : Prop where
  back : ∀ s' ∈ l', (s'.delivering = false ∧ s'.purge = false) ∨ ∃ s ∈ l, s.SameFlags s'
  stay : ∀ s ∈ l, s.delivering = true → ∃ s' ∈ l', s.SameFlags s'

variable {evh evh' : Evh} {l l' l'' : List Ses}

theorem FlagsKept.map {f : Ses → Ses} (hf : ∀ s ∈ l, s.SameFlags (f s)) :
    FlagsKept l (l.map f) := by
  refine ⟨fun s' hs' => ?_, fun s hs _ => ⟨f s, mem_map_of_mem hs, hf s hs⟩⟩
  obtain ⟨s, hs, rfl⟩ := mem_map.1 hs'
  exact .inr ⟨s, hs, hf s hs⟩

variable {o : Nat}

theorem FlagsKept.update {f : Ses → Ses}
    (hf : ∀ s ∈ l, s.offset = o → s.SameFlags (f s)) : FlagsKept l (updateSession l o f) := by
  refine FlagsKept.map fun s hs => ?_
  split_ifs with ho
  · exact hf s hs ho
  · exact .refl s

theorem FlagsKept.refl (l : List Ses) : FlagsKept l l :=
  ⟨fun s hs => .inr ⟨s, hs, .refl s⟩, fun s hs _ => ⟨s, hs, .refl s⟩⟩

theorem FlagsKept.trans (h : FlagsKept l l') (h' : FlagsKept l' l'') : FlagsKept l l'' := by
  refine ⟨fun s'' hs'' => ?_, fun s hs hd => ?_⟩
  · obtain hnew | ⟨s', hs', hsame'⟩ := h'.back s'' hs''
    · exact .inl hnew
    · obtain ⟨hd, hp⟩ | ⟨s, hs, hsame⟩ := h.back s' hs'
      · refine .inl ⟨hsame'.2.2.1.symm.trans hd, ?_⟩
        cases hp' : s''.purge with
        | false => rfl
        | true =>
          have := hsame'.2.2.2 hp'
          rw [hd, hp] at this
          simp at this
      · exact .inr ⟨s, hs, hsame.trans hsame'⟩
  · obtain ⟨s', hs', hsame⟩ := h.stay s hs hd
    obtain ⟨s'', hs'', hsame'⟩ := h'.stay s' hs' (hsame.2.2.1.symm.trans hd)
    exact ⟨s'', hs'', hsame.trans hsame'⟩

theorem FlagsKept.filter (ho : ∀ s ∈ l, s.offset = o → s.delivering = false) :
    FlagsKept l (l.filter fun s => s.offset ≠ o) := by
  refine ⟨fun s hs => .inr ⟨s, (mem_filter.1 hs).1, .refl s⟩, fun s hs hd => ⟨s, ?_, .refl s⟩⟩
  refine mem_filter.2 ⟨hs, ?_⟩
  have hne : s.offset ≠ o := fun heq => by
    rw [ho s hs heq] at hd
    cases hd
  simpa using hne

theorem flagsKept_deleteRequest (evh : Evh) (s : Ses) (r : EvtReq) :
    FlagsKept evh.evhSessions (deleteRequest evh s r).evhSessions :=
  FlagsKept.update fun _ _ _ => ⟨rfl, rfl, rfl, .inl⟩

theorem flagsKept_deleteRequests (o : Nat) (requests : List EvtReq) (evh : Evh) :
    FlagsKept evh.evhSessions (deleteRequests evh o requests).evhSessions := by
  induction requests generalizing evh with
  | nil => exact .refl _
  | cons r rest ih =>
    unfold deleteRequests
    split
    · exact .refl _
    · exact (flagsKept_deleteRequest evh _ r).trans (ih _)

theorem deleteRequests_processes (o : Nat) (requests : List EvtReq) (evh : Evh) :
    (deleteRequests evh o requests).evhProcesses = evh.evhProcesses ∧
      (deleteRequests evh o requests).evhFree = evh.evhFree := by
  induction requests generalizing evh with
  | nil => exact ⟨rfl, rfl⟩
  | cons r rest ih =>
    unfold deleteRequests
    split
    · exact ⟨rfl, rfl⟩
    · exact ih _

theorem deleteSession_processes (evh : Evh) (o : Nat) :
    (deleteSession evh o).evhProcesses = evh.evhProcesses ∧
      (deleteSession evh o).evhFree = evh.evhFree := by
  unfold deleteSession
  split
  · exact ⟨rfl, rfl⟩
  · split_ifs
    · exact ⟨rfl, rfl⟩
    · exact deleteRequests_processes o _ evh

theorem Tidy.eq_of_session (h : Tidy evh) (hs : evh.session o = some s)
    (hs' : s' ∈ evh.evhSessions) (ho : s'.offset = o) : s' = s :=
  inj_on_of_nodup_map h.offsets hs' (mem_of_session hs).1 (ho.trans (mem_of_session hs).2.symm)

theorem Tidy.flagsKept_deleteSession (h : Tidy evh) (o : Nat) :
    FlagsKept evh.evhSessions (Event.deleteSession evh o).evhSessions := by
  unfold Event.deleteSession
  cases hs : evh.session o with
  | none => exact .refl _
  | some s =>
    dsimp only
    split_ifs with hd
    · refine FlagsKept.update fun t ht hto => ⟨rfl, rfl, rfl, fun _ => .inr ?_⟩
      rw [h.eq_of_session hs ht hto]
      exact hd
    · have hreq := flagsKept_deleteRequests o s.sesRequests evh
      refine hreq.trans (FlagsKept.filter fun t ht hto => ?_)
      obtain hnew | ⟨t₀, ht₀, hsame⟩ := hreq.back t ht
      · exact hnew.1
      · rw [← hsame.2.2.1, h.eq_of_session hs ht₀ (hsame.1.trans hto)]
        simpa using hd

def Prb.Asleep (p : Prb) : Prop := p.posted = false ∧ p.wakeup = false

def Owed (evh : Evh) (process : Nat) (s : Ses) (r : EvtReq) : Prop :=
  s ∈ evh.evhSessions ∧ s.sesProcess = process ∧ r ∈ s.sesRequests ∧
    requestCompleted evh.evhEvents r = true

/-- What a call of a client does: it completes a request only if it wakes the process. -/
structure Follows (evh evh' : Evh) : Prop where
  tidy : Tidy evh'
  free_le : evh.evhFree ≤ evh'.evhFree
  processes : ∀ p' ∈ evh'.evhProcesses, (p'.offset = evh.evhFree ∧ evh.evhFree < evh'.evhFree) ∨
    ∃ p ∈ evh.evhProcesses, p.offset = p'.offset ∧ (p'.Asleep → p.Asleep)
  flags : FlagsKept evh.evhSessions evh'.evhSessions
  requests : ∀ p' ∈ evh'.evhProcesses, p'.Asleep → ∀ s' r, Owed evh' p'.offset s' r →
    ∃ s, Owed evh p'.offset s r ∧ s.offset = s'.offset

variable {r : EvtReq}

theorem Evh.mem_rints (hs : s ∈ evh.evhSessions) (hr : r ∈ s.sesRequests)
    {i : Rint} (hi : i ∈ r.reqInterests) : i ∈ evh.rints :=
  mem_flatMap.2 ⟨s, hs, mem_append_left _ (mem_flatMap.2 ⟨r, hr, hi⟩)⟩

theorem Evolves.completed (h : Tidy evh) (h' : Tidy evh') (hev : Evolves evh evh')
    (hs : s ∈ evh.evhSessions) (hr : r ∈ s.sesRequests) (hs' : s' ∈ evh'.evhSessions)
    (hr' : r ∈ s'.sesRequests) :
    requestCompleted evh'.evhEvents r = requestCompleted evh.evhEvents r := by
  have hcount : ∀ i ∈ r.reqInterests,
      eventCount evh'.evhEvents i.rintEvent = eventCount evh.evhEvents i.rintEvent := by
    intro i hi
    obtain ⟨e, he, heo, hep⟩ := h.linked.targets i.key (mem_map_of_mem (Evh.mem_rints hs hr hi))
    obtain ⟨e', he', hsame⟩ := hev.events e he hep ⟨i, Evh.mem_rints hs' hr' hi, heo.symm⟩
    have hio : i.rintEvent = e.offset := heo.symm
    rw [hio, eventCount_eq h.linked.offsets he, ← hsame.1, eventCount_eq h'.linked.offsets he',
      hsame.2.2.2]
  unfold requestCompleted
  rw [Bool.eq_iff_iff, any_eq_true, any_eq_true]
  refine exists_congr fun i => and_congr_right fun hi => ?_
  rw [hcount i hi]

theorem Evolves.owed (h : Tidy evh) (h' : Tidy evh') (hev : Evolves evh evh')
    (how : Owed evh' o s' r) (hs' : s'.offset < evh.evhFree)
    (hr : r.offset < evh.evhFree) : ∃ s, Owed evh o s r ∧ s.offset = s'.offset := by
  obtain ⟨hsm', hp, hrm', hc⟩ := how
  obtain ⟨s, hsm, hstay⟩ := hev.sessions s' hsm' hs'
  have hrm : r ∈ s.sesRequests := (hstay.requests r hrm').resolve_right (by omega)
  rw [hev.completed h h' hsm hrm hsm' hrm'] at hc
  exact ⟨s, ⟨hsm, hstay.process.trans hp, hrm, hc⟩, hstay.offset⟩

theorem Evolves.follows (h : Tidy evh) (h' : Tidy evh') (hev : Evolves evh evh')
    (hfree : evh'.evhFree = evh.evhFree)
    (hp : ∀ p' ∈ evh'.evhProcesses, ∃ p ∈ evh.evhProcesses, p.offset = p'.offset ∧
      (p'.Asleep → p.Asleep))
    (hflags : FlagsKept evh.evhSessions evh'.evhSessions) : Follows evh evh' := by
  refine ⟨h', hev.free_le, fun p' hp' => .inr (hp p' hp'), hflags, fun p' _ _ s' r how => ?_⟩
  refine hev.owed h h' how ?_ ?_
  · rw [← hfree]
    exact h'.fresh.sessions s' how.1
  · rw [← hfree]
    exact h'.fresh.requests s' how.1 r how.2.2.1

theorem asleep_same {processes : List Prb} : ∀ p' ∈ processes, ∃ p ∈ processes,
    p.offset = p'.offset ∧ (p'.Asleep → p.Asleep) := fun p hp => ⟨p, hp, rfl, id⟩

theorem Tidy.follows_createProcess (h : Tidy evh) : Follows evh (Event.createProcess evh) := by
  obtain ⟨h', hst⟩ := h.createProcess
  refine ⟨h', hst.free_le, fun p' hp' => ?_, .refl _, fun p' _ _ s' r how => ?_⟩
  · obtain hp' | hp' := mem_append.1 hp'
    · exact .inr ⟨p', hp', rfl, id⟩
    · obtain rfl := mem_singleton.1 hp'
      exact .inl ⟨rfl, Nat.lt_succ_self _⟩
  · exact ⟨s', how, rfl⟩

theorem Tidy.follows_createSession (h : Tidy evh) (process : Nat) :
    Follows evh (Event.eventCreateSession evh process) := by
  obtain ⟨h', hst⟩ := h.eventCreateSession process
  refine ⟨h', hst.free_le, fun p' hp' => .inr ⟨p', hp', rfl, id⟩,
    ⟨fun s' hs' => ?_, fun s hs _ => ?_⟩,
    fun p' _ _ s' r ⟨hs', hp, hr, hc⟩ => ?_⟩
  · obtain hs' | hs' := mem_append.1 hs'
    · exact .inr ⟨s', hs', .refl s'⟩
    · obtain rfl := mem_singleton.1 hs'
      exact .inl ⟨rfl, rfl⟩
  · exact ⟨s, mem_append_left _ hs, .refl s⟩
  · obtain hs' | hs' := mem_append.1 hs'
    · exact ⟨s', ⟨hs', hp, hr, hc⟩, rfl⟩
    · obtain rfl := mem_singleton.1 hs'
      cases hr

theorem Tidy.follows_deleteRequest (h : Tidy evh) (hs : s ∈ evh.evhSessions)
    (hr : r ∈ s.sesRequests) : Follows evh (Event.deleteRequest evh s r) := by
  obtain ⟨h', hst⟩ := h.deleteRequest hs hr
  exact hst.evolves.follows h h' rfl asleep_same (flagsKept_deleteRequest evh s r)

theorem Tidy.follows_refl (h : Tidy evh) : Follows evh evh :=
  (Steady.refl evh).evolves.follows h h rfl asleep_same (.refl _)

theorem Tidy.follows_cancel (h : Tidy evh) (process id : Nat) :
    Follows evh (Event.eventCancel evh process id) := by
  unfold Event.eventCancel
  split
  · exact h.follows_refl
  · rename_i hf
    obtain ⟨hs, hr⟩ := of_findRequestId hf
    exact h.follows_deleteRequest hs hr

theorem Tidy.follows_deleteSession (h : Tidy evh) (o : Nat) :
    Follows evh (Event.deleteSession evh o) := by
  obtain ⟨h', hev⟩ := h.deleteSession o
  obtain ⟨hproc, hfree⟩ := deleteSession_processes evh o
  refine hev.follows h h' hfree ?_ (h.flagsKept_deleteSession o)
  rw [hproc]
  exact asleep_same

theorem Tidy.follows_deliver (h : Tidy evh) : Follows evh (eventDeliver evh) := by
  have hsame : Tidy (eventDeliver evh) ∧ Steady evh (eventDeliver evh) :=
    h.congr rfl rfl (Nat.le_refl _)
  obtain ⟨h', hst⟩ := hsame
  refine hst.evolves.follows h h' rfl (fun p' hp' => ?_) (.refl _)
  obtain ⟨p, hp, rfl⟩ := mem_map.1 hp'
  refine ⟨p, hp, ?_, fun hasleep => ?_⟩
  · split_ifs <;> rfl
  · split_ifs at hasleep with hw
    · exact absurd hasleep.1 (by simp)
    · exact hasleep

theorem asleep_postProcess {processes : List Prb} {process : Nat} {p' : Prb}
    (hp' : p' ∈ postProcess processes process) (hasleep : p'.Asleep) :
    p' ∈ processes ∧ p'.offset ≠ process := by
  obtain ⟨p, hp, rfl⟩ := mem_map.1 hp'
  split_ifs at hasleep ⊢ with ho
  · exact absurd hasleep.1 (by simp)
  · exact ⟨hp, ho⟩

theorem Tidy.follows_que (h : Tidy evh) (hs : evh.session s.offset = some s)
    (string : List UInt8) (entries : List Entry) :
    Follows evh (Event.eventQue evh s.sesProcess s.offset string entries) := by
  obtain ⟨h', hst⟩ := h.eventQue hs string entries
  obtain ⟨l₁, l₂, ha⟩ := h.around (mem_of_session hs).1
  have hq := h.queued ha string entries
  rw [eventQue_eq hs] at h' hst ⊢
  generalize queResult evh s string entries = q at hq h' hst ⊢
  refine ⟨h', hst.free_le, fun p' hp' => .inr ?_, FlagsKept.update fun _ _ _ =>
    ⟨rfl, rfl, rfl, .inl⟩,
    fun p' hp' hasleep s' r how => ?_⟩
  · dsimp only at hp'
    split_ifs at hp' with hflag
    · obtain ⟨p, hp, rfl⟩ := mem_map.1 hp'
      refine ⟨p, hp, ?_, fun hasleep => ?_⟩
      · split_ifs <;> rfl
      · split_ifs at hasleep with ho
        · exact absurd hasleep.1 (by simp)
        · exact hasleep
    · exact ⟨p', hp', rfl, id⟩
  · obtain ⟨t, ht, hts⟩ := mem_map.1 how.1
    have hto : s'.offset = t.offset := by
      rw [← hts]
      split_ifs <;> rfl
    refine hst.evolves.owed h h' how (hto ▸ h.fresh.sessions t ht) ?_
    obtain ⟨_, hproc, hr, hc⟩ := how
    by_cases heq : t.offset = s.offset
    · have hseq : t = s := h.eq_of_session hs ht heq
      rw [← hts, if_pos heq, hseq] at hr hproc
      obtain hr | hr := mem_append.1 hr
      · exact h.fresh.requests s (mem_of_session hs).1 r hr
      · obtain rfl := mem_singleton.1 hr
        obtain ⟨i, hi, hle⟩ := any_eq_true.1 hc
        have hle : i.rintCount ≤ eventCount q.events i.rintEvent := by simpa using hle
        have hflag : q.flag = true := by
          by_contra hf
          exact absurd (hq.flag (by simpa using hf) i hi) (Int.not_lt.2 hle)
        dsimp only at hp'
        rw [if_pos hflag] at hp'
        exact absurd hproc.symm (asleep_postProcess hp' hasleep).2
    · rw [← hts, if_neg heq] at hr
      exact h.fresh.requests t ht r hr

theorem Tidy.wakeupProcess_eq (h : Tidy evh) (hs : s ∈ evh.evhSessions)
    (hr : r ∈ s.sesRequests) {i : Rint} (hi : i ∈ r.reqInterests) {n : Int}
    (hle : i.rintCount ≤ n) :
    wakeupProcess evh n i.offset = some s.sesProcess := by
  obtain ⟨_, hproc, hreq⟩ := (h.sessions s hs).requests r hr
  have hoff : (evh.rints.map Rint.offset).Nodup := by
    have := h.linked.interests
    rwa [map_map] at this
  have hrint : evh.rint i.offset = some i := Keyed.find?_eq hoff (Evh.mem_rints hs hr hi)
  have hrequest : evh.request r.offset = some r :=
    Keyed.find?_eq h.requestOffsets (mem_flatMap.2 ⟨s, hs, hr⟩)
  simp [wakeupProcess, hrint, hreq i hi, hle, hrequest, hproc]

theorem eventCount_setCount {events : List Evnt} {o' : Nat} {n : Int} (hne : o' ≠ o) :
    eventCount (updateEvent events o fun d => { d with evntCount := n }) o' =
      eventCount events o' := by
  unfold eventCount updateEvent
  rw [find?_map]
  have hfun : (fun e : Evnt => decide (e.offset = o')) ∘
      (fun e => if e.offset = o then { e with evntCount := n } else e) =
      fun e => decide (e.offset = o') := by
    funext e
    simp only [Function.comp_apply]
    split_ifs <;> rfl
  rw [hfun]
  cases hf : events.find? fun e => decide (e.offset = o') with
  | none => rfl
  | some e =>
    have ho : e.offset = o' := (Keyed.of_find?_eq hf).2
    rw [Option.map_some, if_neg (by rw [ho]; exact hne)]

theorem Tidy.follows_post (h : Tidy evh) (major minor : List UInt8) (count : Nat) :
    Follows evh (Event.eventPost evh major minor count) := by
  have hm := h.eventPost major minor count
  obtain ⟨heq, _⟩ | ⟨d, hd, hevents, hsess, hfree, hproc⟩ := eventPost_cases h major minor count
  · rw [heq]
    exact h.follows_refl
  · refine ⟨hm.tidy, hm.free_le, fun p' hp' => .inr ?_, hsess ▸ .refl _,
      fun p' hp' hasleep s' r ⟨hs', hpr, hr, hc⟩ => ?_⟩
    · rw [hproc] at hp'
      obtain ⟨p, hp, rfl⟩ := mem_map.1 hp'
      refine ⟨p, hp, ?_, fun hasleep => ?_⟩
      · split_ifs <;> rfl
      · split_ifs at hasleep
        · exact absurd hasleep.2 (by simp)
        · exact hasleep
    · rw [hsess] at hs'
      refine ⟨s', ⟨hs', hpr, hr, ?_⟩, rfl⟩
      obtain ⟨i, hi, hle⟩ := any_eq_true.1 hc
      have hle : i.rintCount ≤
          eventCount (Event.eventPost evh major minor count).evhEvents i.rintEvent := by
        simpa using hle
      rw [hevents] at hle
      by_cases hie : i.rintEvent = d.offset
      · have hlinked := h.linked.setCount hd.1 hd.parent_ne (slong (d.evntCount + count))
        have hmem : { d with evntCount := slong (d.evntCount + count) } ∈
            updateEvent evh.evhEvents d.offset
              (fun e => { e with evntCount := slong (d.evntCount + count) }) :=
          mem_updateEvent.2 ⟨d, hd.1, (if_pos rfl).symm⟩
        rw [hie, eventCount_eq hlinked.offsets hmem] at hle
        have hqueue : i.offset ∈ d.evntInterests := (h.linked.mem_queue hd.1).2
          (mem_map.2 ⟨i, Evh.mem_rints hs' hr hi, Prod.ext rfl hie⟩)
        have htarget := mem_filterMap.2 ⟨i.offset, hqueue, h.wakeupProcess_eq hs' hr hi hle⟩
        rw [hproc] at hp'
        obtain ⟨p, hp, rfl⟩ := mem_map.1 hp'
        have hpo : p.offset = s'.sesProcess := by
          rw [hpr]
          split_ifs <;> rfl
        rw [hpo, if_pos htarget] at hasleep
        exact absurd hasleep.2 (by simp)
      · rw [eventCount_setCount hie] at hle
        exact any_eq_true.2 ⟨i, hi, by simpa using hle⟩

theorem Tidy.follows_call (h : Tidy evh) {c : Call} (hc : c.isClient = true) :
    Follows evh (call evh c) := by
  cases c with
  | createProcess => exact h.follows_createProcess
  | createSession process => exact h.follows_createSession process
  | que session string entries =>
    cases hs : evh.session session with
    | none =>
      have hcall : call evh (.que session string entries) = evh := by simp only [call, hs]
      rw [hcall]
      exact h.follows_refl
    | some s =>
      have hcall : call evh (.que session string entries) =
          Event.eventQue evh s.sesProcess session string entries := by simp only [call, hs]
      obtain ⟨_, rfl⟩ := mem_of_session hs
      rw [hcall]
      exact h.follows_que hs string entries
  | post major minor count => exact h.follows_post major minor count
  | deliver => exact h.follows_deliver
  | cancel process id => exact h.follows_cancel process id
  | deleteSession session => exact h.follows_deleteSession session
  | startDelivering | deliverRequest | endDelivering => cases hc

end Firebird.Jrd.Event
