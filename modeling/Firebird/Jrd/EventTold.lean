import Mathlib.Data.List.DropRight
import Firebird.Jrd.EventRun

/-!
# What clients are told

A request stands for the event block it was queued with, and the block sent to the client has the
counts of the same events. So a client that queues again with the counts it was told is told of
every occurrence once.
-/
namespace Firebird.Jrd.Event

open Lib List

/-- An interest that an entry of an event block has led to. -/
def Asked (events : List Evnt) (parent : Nat) (entry : Entry) (i : Rint) : Prop :=
  i.rintCount = entry.count ∧ ∃ e ∈ events, e.offset = i.rintEvent ∧ e.evntParent = some parent ∧
    e.evntName = stripBlanks entry.name

section Que

variable {events events' : List Evnt} {others : List (Nat × Nat)} {history : List Rint}
  {free request parent : Nat} {string : List UInt8} {q : Que}

theorem Asked.kept {entry : Entry} {i : Rint} (h : Asked events parent entry i)
    (hk : Kept events events') : Asked events' parent entry i := by
  obtain ⟨hc, e, he, ho, hp, hn⟩ := h
  obtain ⟨e', he', hs⟩ := hk e he (by rw [hp]; exact Option.some_ne_none _)
  exact ⟨hc, e', he', hs.1.trans ho, hs.2.1.trans hp, hs.2.2.1.trans hn⟩

theorem Queued.rebase (h : Queued events others history free request parent string q) :
    Queued q.events others history q.free request parent string q :=
  { h with kept := .refl, born := .refl, free_le := Nat.le_refl _ }

theorem queEvent_interests (parent : Nat) (q : Que) (name : List UInt8) :
    (queEvent parent q name).2.interests = q.interests := by
  unfold queEvent
  split <;> rfl

theorem queInterest_interests (request event : Nat) (count : Int) (q : Que) :
    ∃ i : Rint, (queInterest request event count q).interests = q.interests ++ [i] ∧
      i.rintEvent = event ∧ i.rintCount = count := by
  unfold queInterest
  cases hf : historicalInterest q.history event with
  | some i => exact ⟨_, rfl, (Keyed.of_find?_eq hf).2, rfl⟩
  | none => exact ⟨_, rfl, rfl, rfl⟩

theorem Queued.asked_queEntry (h : Queued events others history free request parent string q)
    (entry : Entry) : ∃ i, (Event.queEntry request parent q entry).interests = q.interests ++ [i] ∧
      Asked (Event.queEntry request parent q entry).events parent entry i := by
  obtain ⟨hq, e, he, heo, hep, hen⟩ := h.queEvent (stripBlanks entry.name)
  obtain ⟨i, hi, hie, hic⟩ := queInterest_interests request
    (Event.queEvent parent q (stripBlanks entry.name)).1 entry.count
    (Event.queEvent parent q (stripBlanks entry.name)).2
  have hk := (hq.rebase.queInterest he (by rw [hep]; exact Option.some_ne_none _) entry.count).kept
  rw [queEvent_interests] at hi
  rw [heo] at hk
  refine ⟨i, hi, Asked.kept ⟨hic, e, he, heo.trans hie.symm, hep, hen⟩ hk⟩

theorem Queued.asked (h : Queued events others history free request parent string q)
    (entries : List Entry) : ∃ interests,
      (entries.foldl (Event.queEntry request parent) q).interests = q.interests ++ interests ∧
      Forall₂ (Asked (entries.foldl (Event.queEntry request parent) q).events parent) entries
        interests := by
  induction entries generalizing q with
  | nil => exact ⟨[], (append_nil _).symm, .nil⟩
  | cons entry rest ih =>
    obtain ⟨i, hi, hasked⟩ := h.asked_queEntry entry
    obtain ⟨interests, hrest, hall⟩ := ih (h.queEntry entry)
    refine ⟨i :: interests, ?_, .cons (hasked.kept ?_) hall⟩
    · rw [foldl_cons, hrest, hi, append_assoc]
      rfl
    · exact ((h.queEntry entry).rebase.foldl rest).kept

end Que

def Asks (evh : Evh) (major : List UInt8) (entries : List Entry) (r : EvtReq) : Prop :=
  List.Forall₂ (fun entry i => i.rintCount = entry.count ∧
    ∃ e, Named evh.evhEvents major (stripBlanks entry.name) e ∧ e.offset = i.rintEvent)
    entries r.reqInterests

variable {evh evh' : Evh} {major minor : List UInt8} {entries : List Entry}

variable {s : Ses}

theorem call_que (hs : evh.session s.offset = some s) :
    call evh (.que s.offset major entries) = eventQue evh s.sesProcess s.offset major entries := by
  simp [call, hs]

variable {r : EvtReq}

theorem Tidy.eq_queRequest (h : Tidy evh) {s' : Ses} (hs : evh.session s.offset = some s)
    (hs' : s' ∈ (call evh (.que s.offset major entries)).evhSessions) (ho : s'.offset = s.offset)
    (hr : r ∈ s'.sesRequests) (hro : r.offset = evh.evhFree) :
    r = queRequest evh s.sesProcess s.offset (queResult evh s major entries) := by
  rw [call_que hs, eventQue_eq hs] at hs'
  obtain ⟨t, ht, rfl⟩ := mem_map.1 hs'
  have hto : t.offset = s.offset := by
    split_ifs at ho <;> exact ho
  have hts : t = s := inj_on_of_nodup_map h.offsets ht (mem_of_session hs).1 hto
  rw [if_pos hto, hts] at hr
  obtain hr | hr := mem_append.1 hr
  · exact absurd (h.fresh.requests s (mem_of_session hs).1 r hr) (by omega)
  · exact mem_singleton.1 hr

theorem Tidy.asks_que (h : Tidy evh) (hs : evh.session s.offset = some s) :
    Asks (call evh (.que s.offset major entries)) major entries
      (queRequest evh s.sesProcess s.offset (queResult evh s major entries)) := by
  obtain ⟨l₁, l₂, ha⟩ := h.around (mem_of_session hs).1
  obtain ⟨p, hp, hpo, hpp, hpn⟩ := (h.queued ha major entries).parent
  obtain ⟨interests, hint, hall⟩ :=
    (h.queued_parent (h.sessions s ha.mem).isHistory ha.keys_perm major).asked entries
  rw [call_que hs, eventQue_eq hs]
  change Forall₂ _ entries (queResult evh s major entries).interests
  have hint' : (queResult evh s major entries).interests = interests := hint
  rw [hint']
  refine hall.imp fun entry i ⟨hc, e, he, heo, hep, hen⟩ =>
    ⟨hc, e, ⟨he, hen, p, hp, hpp, hpn, ?_⟩, heo⟩
  rw [hep, hpo]

theorem Asks.run (h : Tidy evh) (hs : s ∈ evh.evhSessions)
    (hr : r ∈ s.sesRequests) (ha : Asks evh major entries r) (calls : List Call)
    (halive : Alive (run evh calls) s.offset) : Asks (Event.run evh calls) major entries r := by
  have hw : ∀ i ∈ r.reqInterests, Waits evh s.offset i.rintEvent := fun i hi =>
    ⟨s, hs, rfl, i, mem_append_left _ (mem_flatMap.2 ⟨r, hr, hi⟩), rfl⟩
  unfold Asks at ha ⊢
  generalize r.reqInterests = interests at ha hw
  induction ha with
  | nil => exact .nil
  | cons hi _ ih =>
    obtain ⟨hc, e, he, heo⟩ := hi
    obtain ⟨e', he', heo', _⟩ := h.run_counts he (heo ▸ hw _ mem_cons_self) calls halive
    exact .cons ⟨hc, e', he', heo'.trans heo⟩ (ih fun i hi => hw i (mem_cons_of_mem _ hi))

def countOf (evh : Evh) (major minor : List UInt8) : Int :=
  match findEvent evh.evhEvents major none with
  | none => 0
  | some q => ((findEvent evh.evhEvents minor (some q.offset)).map Evnt.evntCount).getD 0

theorem Tidy.countOf_eq (h : Tidy evh) {e : Evnt} (he : Named evh.evhEvents major minor e) :
    countOf evh major minor = e.evntCount := by
  obtain ⟨hem, hen, q, hqm, hqp, hqn, hep⟩ := id he
  unfold countOf
  cases hq : findEvent evh.evhEvents major none with
  | none => exact absurd (mem_map.2 ⟨q, hqm, Prod.ext hqp hqn⟩) (findEvent_eq_none hq)
  | some q' =>
    obtain ⟨hqm', hqp', hqn'⟩ := findEvent_eq_some hq
    have hqq : q = q' := h.linked.eq_of_names hqm hqm' (hqp.trans hqp'.symm) (hqn.trans hqn'.symm)
    dsimp only
    cases hf : findEvent evh.evhEvents minor (some q'.offset) with
    | none =>
      exact absurd (mem_map.2 ⟨e, hem, Prod.ext (by rw [hep, hqq]) hen⟩) (findEvent_eq_none hf)
    | some e' =>
      obtain ⟨hem', hep', hen'⟩ := findEvent_eq_some hf
      have hee : e' = e :=
        h.linked.named_unique ⟨hem', hen', q, hqm, hqp, hqn, by rw [hep', hqq]⟩ he
      rw [hee]
      rfl

theorem requestCompleted_iff (h : Tidy evh) (ha : Asks evh major entries r) :
    requestCompleted evh.evhEvents r = true ↔
      ∃ entry ∈ entries, entry.count ≤ countOf evh major (stripBlanks entry.name) := by
  unfold requestCompleted Asks at *
  generalize r.reqInterests = interests at ha
  induction ha with
  | nil => simp
  | cons hi _ ih =>
    obtain ⟨hc, e, he, heo⟩ := hi
    rw [any_cons, Bool.or_eq_true, ih, exists_mem_cons_iff, hc, ← heo,
      eventCount_eq h.linked.offsets he.1, h.countOf_eq he, decide_eq_true_iff]

def blockLength (entries : List Entry) : Nat :=
  1 + (entries.map fun entry => entry.name.length + 5).sum

theorem stripBlanks_length (name : List UInt8) : (stripBlanks name).length ≤ name.length := by
  unfold stripBlanks
  rw [length_reverse]
  exact Nat.le_trans (dropWhile_suffix _).length_le (Nat.le_of_eq (length_reverse))

theorem stripBlanks_stripBlanks (name : List UInt8) :
    stripBlanks (stripBlanks name) = stripBlanks name := by
  unfold stripBlanks
  rw [reverse_reverse, dropWhile_idempotent]

def sent (evh : Evh) (major : List UInt8) (entry : Entry) : List UInt8 × Int :=
  (stripBlanks entry.name, slong (countOf evh major (stripBlanks entry.name) + 1))

theorem eventBuffer_eq (h : Tidy evh) (ha : Asks evh major entries r)
    (hfit : blockLength entries ≤ maxEventBuffer) :
    eventBuffer evh.evhEvents r.reqInterests 1 512 = entries.map (sent evh major) := by
  have hgen : ∀ p limit, limit = 512 ∨ limit = maxEventBuffer →
      p + (entries.map fun entry => entry.name.length + 5).sum ≤ maxEventBuffer →
      eventBuffer evh.evhEvents r.reqInterests p limit = entries.map (sent evh major) := by
    unfold Asks at ha
    generalize r.reqInterests = interests at ha
    clear hfit
    induction ha with
    | nil => exact fun _ _ _ _ => rfl
    | @cons entry i rest interests hi _ ih =>
      intro p limit hlimit hfit
      obtain ⟨_, e, he, heo⟩ := hi
      have hfind : (evh.evhEvents.find? fun d => d.offset = i.rintEvent) = some e := by
        rw [← heo]
        exact Keyed.find?_eq h.linked.offsets he.1
      have hlen := stripBlanks_length entry.name
      rw [map_cons, sum_cons] at hfit
      unfold eventBuffer
      simp only [hfind, map_cons, sent, h.countOf_eq he, he.2.1]
      split_ifs with hlt h512
      · exact congrArg _ (ih _ _ (.inr rfl) (by omega))
      · rcases hlimit with rfl | rfl
        · exact absurd rfl h512
        · exact absurd hlt (by omega)
      · exact congrArg _ (ih _ _ hlimit (by omega))
  exact hgen 1 512 (.inl rfl) hfit

theorem Asks.named (ha : Asks evh major entries r) {entry : Entry}
    (hentry : entry ∈ entries) : ∃ i ∈ r.reqInterests, ∃ e,
      Named evh.evhEvents major (stripBlanks entry.name) e ∧ e.offset = i.rintEvent := by
  unfold Asks at ha
  generalize r.reqInterests = interests at ha
  induction ha with
  | nil => cases hentry
  | cons hi _ ih =>
    obtain rfl | hentry := mem_cons.1 hentry
    · exact ⟨_, mem_cons_self, hi.2⟩
    · obtain ⟨i, him, he⟩ := ih hentry
      exact ⟨i, mem_cons_of_mem _ him, he⟩

theorem Asks.countOf_run (h : Tidy evh) (hs : s ∈ evh.evhSessions)
    (hr : r ∈ s.sesRequests) (ha : Asks evh major entries r) (calls : List Call)
    (halive : Alive (Event.run evh calls) s.offset) {entry : Entry} (hentry : entry ∈ entries) :
    countOf (Event.run evh calls) major (stripBlanks entry.name) =
      calls.foldl (Call.counted major (stripBlanks entry.name))
        (countOf evh major (stripBlanks entry.name)) := by
  obtain ⟨i, hi, e, he, heo⟩ := ha.named hentry
  have hw : Waits evh s.offset e.offset :=
    ⟨s, hs, rfl, i, mem_append_left _ (mem_flatMap.2 ⟨r, hr, hi⟩), heo.symm⟩
  obtain ⟨e', he', _, hc⟩ := h.run_counts he hw calls halive
  rw [(h.run calls).1.countOf_eq he', hc, h.countOf_eq he]

theorem Tidy.free_lt_que (h : Tidy evh) (hs : evh.session s.offset = some s) :
    evh.evhFree < (call evh (.que s.offset major entries)).evhFree := by
  obtain ⟨l₁, l₂, ha⟩ := h.around (mem_of_session hs).1
  rw [call_que hs, eventQue_eq hs]
  exact (h.queued ha major entries).request_lt

/-- The request that a session has queued, in a later state. -/
structure Queues (evh : Evh) (session : Ses) (calls : List Call) (s : Ses) (r : EvtReq) : Prop where
  mem : s ∈ (run evh calls).evhSessions
  offset : s.offset = session.offset
  request : r ∈ s.sesRequests
  made : r.offset = evh.evhFree

variable {calls : List Call}

theorem Queues.alive {s₀ : Ses} (h : Queues evh s₀ calls s r) :
    Alive (run evh calls) s₀.offset := ⟨s, h.mem, h.offset⟩

theorem session_offset {o : Nat} (h : evh.session o = some s) : evh.session s.offset = some s := by
  rw [(mem_of_session h).2]
  exact h

theorem Tidy.asks_queues (h : Tidy evh) {s₀ : Ses} (hs₀ : evh.session s₀.offset = some s₀)
    (hq : Queues evh s₀ (.que s₀.offset major entries :: calls) s r) :
    Asks (Event.run evh (.que s₀.offset major entries :: calls)) major entries r := by
  have hm := h.moves (.que s₀.offset major entries)
  obtain ⟨_, _, hstay⟩ := hm.tidy.run calls
  have hlt : s.offset < (call evh (.que s₀.offset major entries)).evhFree := by
    rw [hq.offset]
    exact Nat.lt_of_lt_of_le (h.fresh.sessions s₀ (mem_of_session hs₀).1) hm.free_le
  obtain ⟨s₁, hs₁, hst⟩ := hstay s hq.mem hlt
  have hr₁ : r ∈ s₁.sesRequests := by
    obtain hr | hr := hst.requests r hq.request
    · exact hr
    · have hlt' : evh.evhFree < (call evh (.que s₀.offset major entries)).evhFree :=
        h.free_lt_que hs₀
      have := hq.made
      omega
  have heq := h.eq_queRequest hs₀ hs₁ (hst.offset.trans hq.offset) hr₁ hq.made
  exact Asks.run hm.tidy hs₁ hr₁ (heq ▸ h.asks_que hs₀) calls ⟨s, hq.mem, hst.offset.symm⟩

/-- The event block of a client that queues again with the counts it was told. -/
def toldEntries (told : List (List UInt8 × Int)) : List Entry :=
  told.map fun t => { name := t.1, count := t.2 }

theorem blockLength_sent_le (evh : Evh) (major : List UInt8) (entries : List Entry) :
    blockLength (toldEntries (entries.map (sent evh major))) ≤ blockLength entries := by
  refine Nat.add_le_add_left ?_ 1
  induction entries with
  | nil => exact Nat.le_refl _
  | cons entry entries ih =>
    exact Nat.add_le_add (Nat.add_le_add_right (stripBlanks_length entry.name) 5) ih

theorem told_again (h : Tidy evh) (hs : s ∈ evh.evhSessions)
    (hr : r ∈ s.sesRequests) (ha : Asks evh major entries r)
    (hfit : blockLength entries ≤ maxEventBuffer) {s' : Ses} {r' : EvtReq}
    (halive : Alive (run evh calls) s.offset)
    (ha' : Asks (run evh calls) major (toldEntries (deliverRequest evh s r).1) r')
    (hcount : ∀ entry ∈ entries, 0 ≤ countOf evh major (stripBlanks entry.name) ∧
      countOf evh major (stripBlanks entry.name) +
        occurrences major (stripBlanks entry.name) calls < 2 ^ 31 - 1) :
    (requestCompleted (run evh calls).evhEvents r' = true ↔
      ∃ t ∈ (deliverRequest evh s r).1, 0 < occurrences major t.1 calls) ∧
    (deliverRequest (run evh calls) s' r').1 =
      (deliverRequest evh s r).1.map fun t => (t.1, t.2 + (occurrences major t.1 calls : Int)) := by
  have hrun : Tidy (run evh calls) := (h.run calls).1
  have htold : (deliverRequest evh s r).1 = entries.map (sent evh major) := eventBuffer_eq h ha hfit
  have hsent : ∀ entry ∈ entries, sent evh major entry =
      (stripBlanks entry.name, countOf evh major (stripBlanks entry.name) + 1) := by
    intro entry hentry
    have := hcount entry hentry
    exact Prod.ext rfl (slong_eq (by omega) (by omega))
  have hnow : ∀ entry ∈ entries, countOf (run evh calls) major (stripBlanks entry.name) =
      countOf evh major (stripBlanks entry.name) +
        occurrences major (stripBlanks entry.name) calls := by
    intro entry hentry
    have := hcount entry hentry
    rw [ha.countOf_run h hs hr calls halive hentry, foldl_counted (by omega) (by omega)]
  rw [htold] at ha' ⊢
  constructor
  · rw [requestCompleted_iff hrun ha']
    simp only [toldEntries, mem_map, exists_exists_and_eq_and]
    refine exists_congr fun entry => and_congr_right fun hentry => ?_
    simp only [hsent entry hentry, stripBlanks_stripBlanks, hnow entry hentry]
    omega
  · have hlen := Nat.le_trans (blockLength_sent_le evh major entries) hfit
    have hsecond : (deliverRequest (run evh calls) s' r').1 = _ := eventBuffer_eq hrun ha' hlen
    rw [hsecond]
    unfold toldEntries
    rw [map_map, map_map, map_map]
    refine map_congr_left fun entry hentry => ?_
    have := hcount entry hentry
    simp only [Function.comp_apply, sent, stripBlanks_stripBlanks, hnow entry hentry]
    rw [slong_eq (by omega) (by omega), slong_eq (by omega) (by omega)]
    exact Prod.ext rfl (by omega)

theorem Tidy.told_once (h : Tidy evh) {s₂ s₃ : Ses} (hs : s ∈ evh.evhSessions) {r' : EvtReq}
    (hr : r ∈ s.sesRequests) (ha : Asks evh major entries r)
    (hfit : blockLength entries ≤ maxEventBuffer) {told : List (List UInt8 × Int)}
    (htold : told = (deliverRequest evh s r).1) {between after : List Call}
    (hs₂ : (Event.run evh between).session s.offset = some s₂)
    (hq : Queues (Event.run evh between) s₂ (.que s₂.offset major (toldEntries told) :: after) s₃
    r')
    (hcount : ∀ entry ∈ entries, 0 ≤ countOf evh major (stripBlanks entry.name) ∧
      countOf evh major (stripBlanks entry.name) +
        occurrences major (stripBlanks entry.name) (between ++ after) < 2 ^ 31 - 1) :
    let evh₃ := Event.run (Event.run evh between)
      (.que s₂.offset major (toldEntries told) :: after)
    (requestCompleted evh₃.evhEvents r' = true ↔
      ∃ t ∈ told, 0 < occurrences major t.1 (between ++ after)) ∧
    (deliverRequest evh₃ s₃ r').1 =
      told.map fun t => (t.1, t.2 + (occurrences major t.1 (between ++ after) : Int)) := by
  intro evh₃
  have hrun : evh₃ = Event.run evh
      (between ++ .que s₂.offset major (toldEntries told) :: after) := (run_append _ _ _).symm
  have hocc : ∀ minor, occurrences major minor
      (between ++ .que s₂.offset major (toldEntries told) :: after) =
      occurrences major minor (between ++ after) := fun minor => by
    rw [occurrences_append, occurrences_append, occurrences_cons]
    exact congrArg _ (Nat.zero_add _)
  have ha₃ : Asks evh₃ major (toldEntries told) r' :=
    (h.run between).1.asks_queues (session_offset hs₂) hq
  have halive : Alive evh₃ s.offset := (mem_of_session hs₂).2 ▸ hq.alive
  simp only [hrun] at ha₃ halive ⊢
  simp only [← hocc] at hcount ⊢
  rw [htold] at ha₃ halive hcount ⊢
  exact told_again h hs hr ha hfit halive ha₃ hcount

/-- The table as a whole: one block for a name below a parent, the number of its events with every
parent, and every interest on the queue of its event and on one list. -/
structure Bookkept (evh : Evh) : Prop where
  names : (evh.evhEvents.map fun e => (e.evntParent, e.evntName)).Nodup
  counts : ∀ q ∈ evh.evhEvents, q.evntParent = none →
    q.evntCount = (evh.evhEvents.countP fun e => e.evntParent = some q.offset : Nat)
  lists : (evh.rints.map Rint.offset).Nodup
  targets : ∀ i ∈ evh.rints, ∃ e ∈ evh.evhEvents, e.offset = i.rintEvent
  queues : ∀ e ∈ evh.evhEvents, e.evntInterests.Nodup ∧
    ∀ k, k ∈ e.evntInterests ↔ ∃ i ∈ evh.rints, i.offset = k ∧ i.rintEvent = e.offset
  history : ∀ s ∈ evh.evhSessions, (s.sesInterests.map Rint.rintEvent).Nodup

theorem Tidy.bookkept (h : Tidy evh) : Bookkept evh := by
  have hkeys : (evh.rints.map Rint.key).map Prod.fst = evh.rints.map Rint.offset := by
    rw [map_map]
    rfl
  refine ⟨h.linked.names, h.linked.counts, hkeys ▸ h.linked.interests, fun i hi => ?_,
    fun e he => ⟨?_, fun k => ?_⟩, fun s hs => (h.sessions s hs).isHistory.once⟩
  · obtain ⟨e, he, heo, _⟩ := h.linked.targets i.key (mem_map_of_mem hi)
    exact ⟨e, he, heo⟩
  · refine (h.linked.queues e he).nodup_iff.2 (h.linked.interests.sublist ?_)
    exact filter_sublist.map Prod.fst
  · rw [h.linked.mem_queue he, mem_map]
    refine exists_congr fun i => and_congr_right fun _ => ?_
    exact ⟨fun heq => ⟨congrArg Prod.fst heq, congrArg Prod.snd heq⟩, fun ⟨h₁, h₂⟩ => Prod.ext h₁
      h₂⟩

theorem Tidy.survives (h : Tidy evh) (hs : s ∈ evh.evhSessions) {i : Rint}
    (hi : i ∈ s.rints) (calls : List Call) (halive : Alive (Event.run evh calls) s.offset) :
    ∃ major minor e e', Named evh.evhEvents major minor e ∧ e.offset = i.rintEvent ∧
      Named (Event.run evh calls).evhEvents major minor e' ∧ e'.offset = e.offset ∧
      e'.evntCount = calls.foldl (Call.counted major minor) e.evntCount := by
  have him : i.key ∈ evh.rints.map Rint.key :=
    mem_map_of_mem (mem_flatMap.2 ⟨s, hs, hi⟩)
  obtain ⟨e, he, heo, hep⟩ := h.linked.targets i.key him
  obtain ⟨major, hnamed⟩ := h.linked.exists_named he hep
  obtain ⟨e', he', heo', hc⟩ := h.run_counts hnamed ⟨s, hs, rfl, i, hi, heo.symm⟩ calls halive
  exact ⟨major, e.evntName, e, e', hnamed, heo, he', heo', hc⟩

theorem countOf_le (calls : List Call) {e : Evnt}
    (he : Named (run initialEvh calls).evhEvents major minor e)
    (hlt : occurrences major minor calls < 2 ^ 31) :
    0 ≤ e.evntCount ∧ e.evntCount ≤ occurrences major minor calls := by
  have hnone : ∀ d, Named initialEvh.evhEvents major minor d → 0 ≤ d.evntCount ∧
      d.evntCount ≤ (0 : Nat) := fun d hd => absurd hd.1 not_mem_nil
  have := tidy_initialEvh.run_le calls hnone (by omega) he
  omega

/-- The offsets and counts are right after any calls; a live interest keeps its event, which counts
what is posted; and who queues a block, is told, and queues what it is told, is told of each event
once. -/
theorem event_bookkeeping (before : List Call) :
    Bookkept (run initialEvh before) ∧
    (∀ s ∈ (run initialEvh before).evhSessions, ∀ i ∈ s.rints, ∀ calls,
      Alive (run (run initialEvh before) calls) s.offset →
      ∃ major minor e e', Named (run initialEvh before).evhEvents major minor e ∧
        e.offset = i.rintEvent ∧
        Named (run (run initialEvh before) calls).evhEvents major minor e' ∧
        e'.offset = e.offset ∧ e'.evntCount = calls.foldl (Call.counted major minor) e.evntCount) ∧
    ∀ (evh evh₁ evh₂ evh₃ : Evh) (s₀ s₁ s₂ s₃ : Ses) (r r' : EvtReq) (major : List UInt8)
      (entries : List Entry) (waiting between after : List Call) (told : List (List UInt8 × Int)),
      evh = run initialEvh before →
      -- the client queues an event block, which fits the buffer, and is told
      evh.session s₀.offset = some s₀ → blockLength entries ≤ maxEventBuffer →
      evh₁ = run evh (.que s₀.offset major entries :: waiting) →
      Queues evh s₀ (.que s₀.offset major entries :: waiting) s₁ r →
      told = (deliverRequest evh₁ s₁ r).1 →
      -- it queues again with the counts
      evh₂ = run evh₁ between → evh₂.session s₀.offset = some s₂ →
      evh₃ = run evh₂ (.que s₂.offset major (toldEntries told) :: after) →
      Queues evh₂ s₂ (.que s₂.offset major (toldEntries told) :: after) s₃ r' →
      (∀ entry ∈ entries, occurrences major (stripBlanks entry.name)
        (before ++ waiting ++ between ++ after) < 2 ^ 31 - 1) →
      told.map Prod.fst = entries.map (fun entry => stripBlanks entry.name) ∧
      (requestCompleted evh₃.evhEvents r' = true ↔
        ∃ t ∈ told, 0 < occurrences major t.1 (between ++ after)) ∧
      (deliverRequest evh₃ s₃ r').1 =
        told.map fun t => (t.1, t.2 + (occurrences major t.1 (between ++ after) : Int)) := by
  have htidy : Tidy (run initialEvh before) := (tidy_initialEvh.run before).1
  refine ⟨htidy.bookkept, fun s hs i hi calls halive => htidy.survives hs hi calls halive, ?_⟩
  rintro evh evh₁ _ _ s₀ s₁ s₂ s₃ r r' major entries waiting between after told rfl hs₀ hfit hevh₁
    hq
    htold rfl hs₂ rfl hq' hbound
  have htidy₁ : Tidy evh₁ := hevh₁ ▸ (htidy.run _).1
  have ha : Asks evh₁ major entries r := hevh₁ ▸ htidy.asks_queues hs₀ hq
  have hmem : s₁ ∈ evh₁.evhSessions := hevh₁ ▸ hq.mem
  rw [← hq.offset] at hs₂
  refine ⟨?_, htidy₁.told_once hmem hq.request ha hfit htold hs₂ hq' fun entry hentry => ?_⟩
  · rw [htold, show (deliverRequest evh₁ s₁ r).1 = _ from eventBuffer_eq htidy₁ ha hfit, map_map]
    rfl
  · obtain ⟨i, _, e, he, _⟩ := ha.named hentry
    have hlt := hbound entry hentry
    rw [append_assoc, occurrences_append, occurrences_append] at hlt
    rw [htidy₁.countOf_eq he]
    rw [hevh₁, ← run_append] at he
    have hposted : occurrences major (stripBlanks entry.name)
        (before ++ .que s₀.offset major entries :: waiting) =
        occurrences major (stripBlanks entry.name) before +
          occurrences major (stripBlanks entry.name) waiting := by
      rw [occurrences_append, occurrences_cons]
      exact congrArg _ (Nat.zero_add _)
    have := countOf_le _ he (by omega)
    omega

/-- A session that queues for one event and is told of one post; it queues again and is told of two
more. -/
def oneSession : List Call := [.createProcess, .createSession 1]

def firstQue : List Call := [.que 2 [100] [{ name := [65, 32], count := 1 }], .post [100] [65] 1]

def secondQue : List Call := [.que 2 [100] [{ name := [65], count := 2 }], .post [100] [65] 2]

theorem told_of_two :
    ∃ s r, (deliverRequest (run (run (run (run initialEvh oneSession) firstQue)
      [.deliverRequest 2 3]) secondQue) s r).1 = [([65], 4)] := by
  have h := (event_bookkeeping oneSession).2.2 _ _ _ _
    { offset := 2, sesProcess := 1, sesRequests := [], sesInterests := [], delivering := false,
      purge := false } _ _ _ _ _ [100] [{ name := [65, 32], count := 1 }] [.post [100] [65] 1]
    [.deliverRequest 2 3] [.post [100] [65] 2] [([65], 2)] rfl rfl (by decide) rfl
    ⟨mem_singleton.2 rfl, rfl, mem_singleton.2 rfl, rfl⟩ rfl rfl rfl rfl
    ⟨mem_singleton.2 rfl, rfl, mem_singleton.2 rfl, rfl⟩ (by decide)
  exact ⟨_, _, h.2.2⟩

/-- An event block of 65521 bytes: one name 251 times, and another one. -/
def longBlock : List Entry :=
  List.replicate 251 { name := List.replicate 255 65, count := 1 } ++
    [{ name := List.replicate 255 66, count := 1 }]

def longEvh : Evh :=
  run initialEvh (oneSession ++ [.que 2 [100] longBlock, .post [100] (List.replicate 255 66) 1])

/-- The second name was posted, but is not in the block that is sent. -/
theorem long_block_not_told :
    blockLength longBlock = 65521 ∧ ((longEvh.requestOf 2 3).any fun (s, r) =>
      requestCompleted longEvh.evhEvents r &&
        (deliverRequest longEvh s r).1.all fun t => t.1 ≠ replicate 255 66) = true := by
  decide +kernel

end Firebird.Jrd.Event
