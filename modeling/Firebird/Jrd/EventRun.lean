import Firebird.Jrd.EventCalls

/-!
# Runs of the event table

In every state that calls lead to the table is tidy, and as long as a session waits for an event the
event counts what is posted. So a client that queues again with the counts it was told is told of
every occurrence once.
-/
namespace Firebird.Jrd.Event

open Lib List

/-- The event of a name below the name of a database. -/
def Named (events : List Evnt) (major minor : List UInt8) (e : Evnt) : Prop :=
  e ∈ events ∧ e.evntName = minor ∧
    ∃ q ∈ events, q.evntParent = none ∧ q.evntName = major ∧ e.evntParent = some q.offset

def Call.counted (major minor : List UInt8) (n : Int) : Call → Int
  | .post ma mi count => if ma = major ∧ mi = minor then slong (n + count) else n
  | _ => n

def Call.occurrences (major minor : List UInt8) : Call → Nat
  | .post ma mi count => if ma = major ∧ mi = minor then count else 0
  | _ => 0

def occurrences (major minor : List UInt8) (calls : List Call) : Nat :=
  (calls.map (Call.occurrences major minor)).sum

def run (evh : Evh) (calls : List Call) : Evh := calls.foldl call evh

variable {events : List Evnt} {keys : List (Nat × Nat)} {evh evh' : Evh} {major minor : List UInt8}

variable {e : Evnt}

theorem Named.parent_ne (h : Named events major minor e) : e.evntParent ≠ none := by
  obtain ⟨_, _, q, _, _, _, hp⟩ := h
  rw [hp]
  exact Option.some_ne_none _

variable {e' : Evnt}

theorem Linked.eq_of_names (h : Linked events keys) (he : e ∈ events)
    (he' : e' ∈ events) (hp : e.evntParent = e'.evntParent) (hn : e.evntName = e'.evntName) :
    e = e' :=
  inj_on_of_nodup_map h.names he he' (Prod.ext hp hn)

theorem Linked.named_unique (h : Linked events keys)
    (he : Named events major minor e) (he' : Named events major minor e') : e = e' := by
  obtain ⟨hm, hn, q, hq, hqp, hqn, hp⟩ := he
  obtain ⟨hm', hn', q', hq', hqp', hqn', hp'⟩ := he'
  have hqq : q = q' := h.eq_of_names hq hq' (hqp.trans hqp'.symm) (hqn.trans hqn'.symm)
  exact h.eq_of_names hm hm' (by rw [hp, hp', hqq]) (hn.trans hn'.symm)

theorem Linked.exists_named (h : Linked events keys) (he : e ∈ events)
    (hp : e.evntParent ≠ none) : ∃ major, Named events major e.evntName e := by
  obtain ⟨p, hp⟩ := Option.ne_none_iff_exists'.1 hp
  obtain ⟨q, hq, hqo, hqp⟩ := h.parents e he p hp
  exact ⟨q.evntName, he, rfl, q, hq, hqp, rfl, by rw [hp, hqo]⟩

structure Moves (evh : Evh) (c : Call) (evh' : Evh) : Prop where
  tidy : Tidy evh'
  free_le : evh.evhFree ≤ evh'.evhFree
  sessions : SessionsStay evh evh'
  stays : ∀ {major minor e}, Named evh.evhEvents major minor e →
    (∃ i ∈ evh'.rints, i.rintEvent = e.offset) →
    ∃ e', Named evh'.evhEvents major minor e' ∧ e'.offset = e.offset ∧
      e'.evntCount = c.counted major minor e.evntCount
  comes : ∀ {major minor e'}, Named evh'.evhEvents major minor e' → e'.evntCount = 0 ∨
    ∃ e, Named evh.evhEvents major minor e ∧ e'.evntCount = c.counted major minor e.evntCount

variable {c : Call}

theorem Call.Quiet.counted (hc : c.Quiet) (n : Int) : c.counted major minor n = n := by
  cases c with
  | post => exact hc.elim
  | _ => rfl

theorem Tidy.name_of_born (h : Tidy evh) (hb : Born evh.evhFree evh.evhEvents events) {q q' : Evnt}
    (hq : q ∈ evh.evhEvents) (hq' : q' ∈ events) (ho : q'.offset = q.offset) :
    q'.evntName = q.evntName ∧ q'.evntParent = q.evntParent := by
  obtain ⟨hlt, _⟩ | ⟨q₀, hq₀, ho₀, hp₀, hn₀, _⟩ := hb q' hq'
  · exact absurd (h.fresh.events q hq) (by omega)
  · have heq : q₀ = q := h.linked.eq_of_offset hq₀ hq (ho₀.symm.trans ho)
    exact ⟨hn₀.trans (by rw [heq]), hp₀.trans (by rw [heq])⟩

theorem Evolves.moves (h : Tidy evh) (h' : Tidy evh') (hev : Evolves evh evh')
    (hc : c.Quiet) : Moves evh c evh' where
  tidy := h'
  free_le := hev.free_le
  sessions := hev.sessions
  stays := by
    intro major minor e hnamed hi
    obtain ⟨he, hn, q, hq, hqp, hqn, hp⟩ := hnamed
    obtain ⟨e', he', ho', hp', hn', hc'⟩ := hev.events e he
      (by rw [hp]; exact Option.some_ne_none _) hi
    obtain ⟨q', hq', hqo', hqp'⟩ := h'.linked.parents e' he' q.offset (hp'.trans hp)
    obtain ⟨hqn', _⟩ := h.name_of_born hev.born hq hq' hqo'
    exact ⟨e', ⟨he', hn'.trans hn, q', hq', hqp', hqn'.trans hqn, by rw [hp', hp, hqo']⟩, ho',
      by rw [hc', hc.counted]⟩
  comes := by
    intro major minor e' hnamed
    obtain ⟨he', hn', q', hq', hqp', hqn', hp'⟩ := hnamed
    have hne : e'.evntParent ≠ none := by
      rw [hp']
      exact Option.some_ne_none _
    obtain ⟨_, hz⟩ | ⟨e, he, ho, hp, hn, hcount⟩ := hev.born e' he'
    · exact .inl (hz hne)
    · have hpe : e.evntParent = some q'.offset := hp.symm.trans hp'
      obtain ⟨q, hq, hqo, hqp⟩ := h.linked.parents e he _ hpe
      obtain ⟨hqn, _⟩ := h.name_of_born hev.born hq hq' hqo.symm
      refine .inr ⟨e, ⟨he, hn.symm.trans hn', q, hq, hqp, hqn.symm.trans hqn', by rw [hpe, hqo]⟩,
        ?_⟩
      rw [hcount (by rwa [← hp]), hc.counted]

theorem eventPost_cases (h : Tidy evh) (major minor : List UInt8) (count : Nat) :
    (eventPost evh major minor count = evh ∧ ∀ e, ¬ Named evh.evhEvents major minor e) ∨
    ∃ e, Named evh.evhEvents major minor e ∧
      (eventPost evh major minor count).evhEvents = updateEvent evh.evhEvents e.offset
        (fun d => { d with evntCount := slong (e.evntCount + count) }) ∧
      (eventPost evh major minor count).evhSessions = evh.evhSessions ∧
      (eventPost evh major minor count).evhFree = evh.evhFree ∧
      (eventPost evh major minor count).evhProcesses = evh.evhProcesses.map fun p =>
        if p.offset ∈ e.evntInterests.filterMap (wakeupProcess evh (slong (e.evntCount + count)))
        then { p with wakeup := true } else p := by
  unfold eventPost
  cases hq : findEvent evh.evhEvents major none with
  | none =>
    refine .inl ⟨rfl, fun e ⟨_, _, q, hqm, hqp, hqn, _⟩ => findEvent_eq_none hq ?_⟩
    exact mem_map.2 ⟨q, hqm, Prod.ext hqp hqn⟩
  | some q =>
    obtain ⟨hqm, hqp, hqn⟩ := findEvent_eq_some hq
    dsimp only
    cases he : findEvent evh.evhEvents minor (some q.offset) with
    | none =>
      refine .inl ⟨rfl, fun e ⟨hem, hen, q', hqm', hqp', hqn', hep⟩ => findEvent_eq_none he ?_⟩
      have heq : q' = q := h.linked.eq_of_names hqm' hqm (hqp'.trans hqp.symm) (hqn'.trans hqn.symm)
      exact mem_map.2 ⟨e, hem, Prod.ext (by rw [hep, heq]) hen⟩
    | some e =>
      obtain ⟨hem, hep, hen⟩ := findEvent_eq_some he
      exact .inr ⟨e, ⟨hem, hen, q, hqm, hqp, hqn, hep⟩, rfl, rfl, rfl, rfl⟩

variable {o : Nat} {n : Int}

theorem named_setCount (h : Named events major minor e) :
    ∃ e', Named (updateEvent events o fun d => { d with evntCount := n }) major minor e' ∧
      e'.offset = e.offset ∧ e'.evntCount = if e.offset = o then n else e.evntCount := by
  obtain ⟨he, hn, q, hq, hqp, hqn, hp⟩ := h
  refine ⟨_, ⟨mem_updateEvent.2 ⟨e, he, rfl⟩, ?_, _, mem_updateEvent.2 ⟨q, hq, rfl⟩, ?_, ?_, ?_⟩,
    ?_⟩
  · split_ifs <;> exact hn
  · split_ifs <;> exact hqp
  · split_ifs <;> exact hqn
  · split_ifs <;> exact hp
  · split_ifs <;> exact ⟨rfl, rfl⟩

theorem of_named_setCount
    (h : Named (updateEvent events o fun d => { d with evntCount := n }) major minor e') :
    ∃ e, Named events major minor e ∧ e'.offset = e.offset ∧
      e'.evntCount = if e.offset = o then n else e.evntCount := by
  obtain ⟨he', hn', q', hq', hqp', hqn', hp'⟩ := h
  obtain ⟨e, he, rfl⟩ := mem_updateEvent.1 he'
  obtain ⟨q, hq, rfl⟩ := mem_updateEvent.1 hq'
  refine ⟨e, ⟨he, ?_, q, hq, ?_, ?_, ?_⟩, ?_⟩
  · split_ifs at hn' <;> exact hn'
  · split_ifs at hqp' <;> exact hqp'
  · split_ifs at hqn' <;> exact hqn'
  · split_ifs at hp' <;> exact hp'
  · split_ifs <;> exact ⟨rfl, rfl⟩

theorem Tidy.counted_post (h : Tidy evh) {ma mi : List UInt8} {count : Nat} {d : Evnt}
    (hd : Named evh.evhEvents ma mi d) (he : Named evh.evhEvents major minor e) :
    (if e.offset = d.offset then slong (d.evntCount + count) else e.evntCount) =
      (Call.post ma mi count).counted major minor e.evntCount := by
  simp only [Call.counted]
  by_cases heq : e.offset = d.offset
  · have hed : e = d := h.linked.eq_of_offset he.1 hd.1 heq
    subst hed
    obtain ⟨_, hn, q, hq, _, hqn, hp⟩ := he
    obtain ⟨_, hn', q', hq', _, hqn', hp'⟩ := hd
    have hqq : q = q' := h.linked.eq_of_offset hq hq' (Option.some.inj (hp.symm.trans hp'))
    rw [if_pos rfl, if_pos ⟨by rw [← hqn, ← hqn', hqq], hn'.symm.trans hn⟩]
  · rw [if_neg heq, if_neg]
    rintro ⟨rfl, rfl⟩
    exact heq (by rw [h.linked.named_unique he hd])

theorem Tidy.eventPost (h : Tidy evh) (ma mi : List UInt8) (count : Nat) :
    Moves evh (.post ma mi count) (eventPost evh ma mi count) := by
  obtain ⟨heq, hno⟩ | ⟨d, hd, hevents, hsess, hfree, _⟩ := eventPost_cases h ma mi count
  · have hcounted : ∀ {major minor e}, Named evh.evhEvents major minor e →
        (Call.post ma mi count).counted major minor e.evntCount = e.evntCount := by
      intro major minor e he
      refine if_neg ?_
      rintro ⟨rfl, rfl⟩
      exact hno e he
    rw [heq]
    exact ⟨h, Nat.le_refl _, fun s hs _ => ⟨s, hs, .refl _ s⟩,
      fun he _ => ⟨_, he, rfl, (hcounted he).symm⟩, fun he => .inr ⟨_, he, (hcounted he).symm⟩⟩
  · have hrints : (Event.eventPost evh ma mi count).rints = evh.rints := by
      unfold Evh.rints
      rw [hsess]
    have hlinked := h.linked.setCount hd.1 hd.parent_ne (slong (d.evntCount + count))
    refine ⟨⟨?_, ?_, ?_, ?_, ⟨?_, ?_, ?_, ?_⟩⟩, ?_, ?_, ?_, ?_⟩
    · rw [hrints, hevents]
      exact hlinked
    · rw [hsess]
      exact h.sorted
    · rw [hsess]
      exact h.requestOffsets
    · rw [hsess]
      exact h.sessions
    · intro e' he'
      rw [hevents] at he'
      obtain ⟨e, he, rfl⟩ := mem_updateEvent.1 he'
      have hlt := h.fresh.events e he
      rw [hfree]
      split_ifs <;> exact hlt
    · rw [hrints, hfree]
      exact h.fresh.interests
    · rw [hsess, hfree]
      exact h.fresh.sessions
    · rw [hsess, hfree]
      exact h.fresh.requests
    · exact Nat.le_of_eq hfree.symm
    · intro s hs _
      rw [hsess] at hs
      exact ⟨s, hs, .refl _ s⟩
    · intro major minor e he _
      rw [hevents]
      obtain ⟨e', he', ho, hc⟩ := named_setCount (o := d.offset) (n := slong (d.evntCount + count))
        he
      exact ⟨e', he', ho, hc.trans (h.counted_post hd he)⟩
    · intro major minor e' he'
      rw [hevents] at he'
      obtain ⟨e, he, _, hc⟩ := of_named_setCount he'
      exact .inr ⟨e, he, hc.trans (h.counted_post hd he)⟩

theorem Tidy.moves (h : Tidy evh) (c : Call) : Moves evh c (call evh c) := by
  by_cases hc : c.Quiet
  · obtain ⟨ht, hev⟩ := h.call_quiet hc
    exact hev.moves h ht hc
  · cases c with
    | post major minor count => exact h.eventPost major minor count
    | _ => exact absurd trivial hc

theorem tidy_initialEvh : Tidy initialEvh where
  linked := by
    constructor <;> simp [initialEvh, Evh.rints]
  sorted := Pairwise.nil
  requestOffsets := nodup_nil
  sessions := fun s hs => absurd hs not_mem_nil
  fresh := by
    constructor <;> simp [initialEvh, Evh.rints]

theorem Tidy.run (h : Tidy evh) (calls : List Call) :
    Tidy (run evh calls) ∧ evh.evhFree ≤ (Event.run evh calls).evhFree ∧
      SessionsStay evh (Event.run evh calls) := by
  induction calls generalizing evh with
  | nil => exact ⟨h, Nat.le_refl _, fun s hs _ => ⟨s, hs, .refl _ s⟩⟩
  | cons c calls ih =>
    have hm := h.moves c
    obtain ⟨ht, hf, hs⟩ := ih hm.tidy
    exact ⟨ht, Nat.le_trans hm.free_le hf, hm.sessions.trans hm.free_le hs⟩

def Waits (evh : Evh) (session event : Nat) : Prop :=
  ∃ s ∈ evh.evhSessions, s.offset = session ∧ ∃ i ∈ s.rints, i.rintEvent = event

def Alive (evh : Evh) (session : Nat) : Prop := ∃ s ∈ evh.evhSessions, s.offset = session

variable {k : Nat}

theorem SessionsStay.waits (h : Tidy evh) (hs : SessionsStay evh evh')
    (hw : Waits evh o k) (halive : Alive evh' o) : Waits evh' o k := by
  obtain ⟨s, hsm, hso, i, hi, hik⟩ := hw
  obtain ⟨s', hsm', hso'⟩ := halive
  have hlt : s'.offset < evh.evhFree := by
    rw [hso', ← hso]
    exact h.fresh.sessions s hsm
  obtain ⟨s₀, hsm₀, hstay⟩ := hs s' hsm' hlt
  have heq : s₀ = s := inj_on_of_nodup_map h.offsets hsm₀ hsm
    (hstay.offset.trans (hso'.trans hso.symm))
  obtain ⟨i', hi', hik'⟩ := hstay.interests i (heq ▸ hi)
  exact ⟨s', hsm', hso', i', hi', hik'.trans hik⟩

theorem SessionsStay.alive (hs : SessionsStay evh evh')
    (ho : o < evh.evhFree) (halive : Alive evh' o) : Alive evh o := by
  obtain ⟨s', hsm', rfl⟩ := halive
  obtain ⟨s, hsm, hstay⟩ := hs s' hsm' ho
  exact ⟨s, hsm, hstay.offset⟩

theorem Waits.rint (h : Waits evh o k) : ∃ i ∈ evh.rints, i.rintEvent = k := by
  obtain ⟨s, hs, _, i, hi, hik⟩ := h
  exact ⟨i, mem_flatMap.2 ⟨s, hs, hi⟩, hik⟩

theorem Tidy.waits_lt (h : Tidy evh) (hw : Waits evh o k) : o < evh.evhFree := by
  obtain ⟨s, hs, rfl, _⟩ := hw
  exact h.fresh.sessions s hs

theorem Tidy.run_counts (h : Tidy evh)
    (he : Named evh.evhEvents major minor e) (hw : Waits evh o e.offset) (calls : List Call)
    (halive : Alive (Event.run evh calls) o) :
    ∃ e', Named (Event.run evh calls).evhEvents major minor e' ∧ e'.offset = e.offset ∧
      e'.evntCount = calls.foldl (Call.counted major minor) e.evntCount := by
  induction calls generalizing evh e with
  | nil => exact ⟨e, he, rfl, rfl⟩
  | cons c calls ih =>
    have hm := h.moves c
    have hstay : SessionsStay (call evh c) (Event.run (call evh c) calls) := (hm.tidy.run calls).2.2
    have halive' : Alive (call evh c) o :=
      hstay.alive (Nat.lt_of_lt_of_le (h.waits_lt hw) hm.free_le) halive
    have hw' : Waits (call evh c) o e.offset := hm.sessions.waits h hw halive'
    obtain ⟨e₁, he₁, ho₁, hc₁⟩ := hm.stays he hw'.rint
    obtain ⟨e₂, he₂, ho₂, hc₂⟩ := ih hm.tidy he₁ (ho₁ ▸ hw') halive
    exact ⟨e₂, he₂, ho₂.trans ho₁, by rw [hc₂, hc₁]; rfl⟩

theorem Call.counted_eq (h₀ : 0 ≤ n) (h : n + c.occurrences major minor < 2 ^ 31) :
    c.counted major minor n = n + c.occurrences major minor := by
  cases c with
  | post ma mi count =>
    simp only [Call.counted, Call.occurrences] at h ⊢
    split_ifs with hc
    · rw [if_pos hc] at h
      exact slong_eq (by omega) h
    · simp
  | _ => simp [Call.counted, Call.occurrences]

theorem occurrences_cons (c : Call) (calls : List Call) :
    occurrences major minor (c :: calls) =
      c.occurrences major minor + occurrences major minor calls := by
  simp [occurrences]

theorem occurrences_append (calls calls' : List Call) :
    occurrences major minor (calls ++ calls') =
      occurrences major minor calls + occurrences major minor calls' := by
  simp [occurrences]

theorem foldl_counted {calls : List Call} (h₀ : 0 ≤ n)
    (h : n + occurrences major minor calls < 2 ^ 31) :
    calls.foldl (Call.counted major minor) n = n + occurrences major minor calls := by
  induction calls generalizing n with
  | nil => simp [occurrences]
  | cons c calls ih =>
    rw [occurrences_cons] at h ⊢
    rw [foldl_cons, Call.counted_eq h₀ (by omega), ih (by omega) (by omega)]
    omega

theorem Tidy.run_le (h : Tidy evh) (calls : List Call) {n : Nat}
    (hle : ∀ e, Named evh.evhEvents major minor e → 0 ≤ e.evntCount ∧ e.evntCount ≤ n)
    (hlt : n + occurrences major minor calls < 2 ^ 31)
    (he : Named (Event.run evh calls).evhEvents major minor e) :
    0 ≤ e.evntCount ∧ e.evntCount ≤ n + occurrences major minor calls := by
  induction calls generalizing evh n with
  | nil =>
    have := hle e he
    omega
  | cons c calls ih =>
    rw [occurrences_cons] at hlt ⊢
    have hm := h.moves c
    have hc : ∀ d, Named (call evh c).evhEvents major minor d →
        0 ≤ d.evntCount ∧ d.evntCount ≤ (n + c.occurrences major minor : Nat) := by
      intro d hd
      obtain hz | ⟨d₀, hd₀, hcount⟩ := hm.comes hd
      · omega
      · have := hle d₀ hd₀
        rw [hcount, Call.counted_eq this.1 (by omega)]
        omega
    have := ih hm.tidy hc (by omega) he
    omega

theorem run_append (evh : Evh) (calls calls' : List Call) :
    run evh (calls ++ calls') = run (run evh calls) calls' := by
  unfold run
  rw [foldl_append]

end Firebird.Jrd.Event
