import Firebird.Jrd.EventTidy

/-!
# The calls keep the event table tidy

Every call keeps the table tidy. As long as a session stays it has an interest in the events it has
queued for, and these events keep their blocks and their counts.
-/
namespace Firebird.Jrd.Event

open Lib List

/-- A session: the interests of its requests know their request. -/
structure Ses.Tidy (s : Ses) : Prop where
  isHistory : History s.sesInterests
  requests : ∀ r ∈ s.sesRequests, r.reqSession = s.offset ∧ r.reqProcess = s.sesProcess ∧
    ∀ i ∈ r.reqInterests, i.rintRequest = some r.offset

structure Fresh (evh : Evh) : Prop where
  events : ∀ e ∈ evh.evhEvents, e.offset < evh.evhFree
  interests : ∀ i ∈ evh.rints, i.offset < evh.evhFree
  sessions : ∀ s ∈ evh.evhSessions, s.offset < evh.evhFree
  requests : ∀ s ∈ evh.evhSessions, ∀ r ∈ s.sesRequests, r.offset < evh.evhFree

structure Tidy (evh : Evh) : Prop where
  linked : Linked evh.evhEvents (evh.rints.map Rint.key)
  sorted : (evh.evhSessions.map Ses.offset).Pairwise (· < ·)
  requestOffsets : ((evh.evhSessions.flatMap Ses.sesRequests).map EvtReq.offset).Nodup
  sessions : ∀ s ∈ evh.evhSessions, s.Tidy
  fresh : Fresh evh

variable {evh : Evh}

theorem Tidy.offsets (h : Tidy evh) : (evh.evhSessions.map Ses.offset).Nodup :=
  h.sorted.imp Nat.ne_of_lt

/-! ## What a call does -/

/-- A session after a call: it has an interest in every event it had one in, and no request but
those it had and new ones. -/
structure Ses.Stays (free : Nat) (s s' : Ses) : Prop where
  offset : s.offset = s'.offset
  process : s.sesProcess = s'.sesProcess
  interests : ∀ i ∈ s.rints, ∃ i' ∈ s'.rints, i'.rintEvent = i.rintEvent
  requests : ∀ r ∈ s'.sesRequests, r ∈ s.sesRequests ∨ free ≤ r.offset

theorem Ses.Stays.refl (free : Nat) (s : Ses) : s.Stays free s :=
  ⟨rfl, rfl, fun i hi => ⟨i, hi, rfl⟩, fun _ hr => .inl hr⟩

variable {s s' : Ses}

theorem Ses.Stays.trans {free free' : Nat} {s'' : Ses} (h : s.Stays free s')
    (hf : free ≤ free') (h' : s'.Stays free' s'') : s.Stays free s'' := by
  refine ⟨h.offset.trans h'.offset, h.process.trans h'.process, fun i hi => ?_, fun r hr => ?_⟩
  · obtain ⟨j, hj, hje⟩ := h.interests i hi
    obtain ⟨j', hj', hje'⟩ := h'.interests j hj
    exact ⟨j', hj', hje'.trans hje⟩
  · obtain hr | hr := h'.requests r hr
    · exact h.requests r hr
    · exact .inr (Nat.le_trans hf hr)

def SessionsStay (evh evh' : Evh) : Prop :=
  ∀ s' ∈ evh'.evhSessions, s'.offset < evh.evhFree →
    ∃ s ∈ evh.evhSessions, s.Stays evh.evhFree s'

/-- A call that deletes no event: sessions that stay keep their interests, and the events stay. -/
structure Steady (evh evh' : Evh) : Prop where
  free_le : evh.evhFree ≤ evh'.evhFree
  sessions : SessionsStay evh evh'
  kept : Kept evh.evhEvents evh'.evhEvents
  born : Born evh.evhFree evh.evhEvents evh'.evhEvents

theorem Steady.refl (evh : Evh) : Steady evh evh :=
  ⟨Nat.le_refl _, fun s hs _ => ⟨s, hs, .refl _ s⟩, .refl, .refl⟩

variable {evh' evh'' : Evh}

theorem SessionsStay.trans (h : SessionsStay evh evh')
    (hf : evh.evhFree ≤ evh'.evhFree) (h' : SessionsStay evh' evh'') : SessionsStay evh evh'' := by
  intro s'' hs'' hlt
  obtain ⟨s', hs', hstay'⟩ := h' s'' hs'' (Nat.lt_of_lt_of_le hlt hf)
  obtain ⟨s, hs, hstay⟩ := h s' hs' (by rwa [hstay'.offset])
  exact ⟨s, hs, hstay.trans hf hstay'⟩

theorem Steady.trans (h : Steady evh evh') (h' : Steady evh' evh'') : Steady evh evh'' :=
  ⟨Nat.le_trans h.free_le h'.free_le, h.sessions.trans h.free_le h'.sessions,
    h.kept.trans h'.kept, h.born.trans h.free_le h'.born⟩

structure Around (evh : Evh) (s : Ses) (l₁ l₂ : List Ses) : Prop where
  split : evh.evhSessions = l₁ ++ s :: l₂
  update : ∀ f : Ses → Ses, updateSession evh.evhSessions s.offset f = l₁ ++ f s :: l₂
  filter : (evh.evhSessions.filter fun s' => s'.offset ≠ s.offset) = l₁ ++ l₂

theorem Tidy.around (h : Tidy evh) (hs : s ∈ evh.evhSessions) : ∃ l₁ l₂, Around evh s l₁ l₂ := by
  obtain ⟨l₁, l₂, hl, hu, hf⟩ := Keyed.exists_split h.offsets hs
  exact ⟨l₁, l₂, hl, hu, hf⟩

def otherRints (l₁ l₂ : List Ses) : List Rint := l₁.flatMap Ses.rints ++ l₂.flatMap Ses.rints

variable {l₁ l₂ : List Ses}

theorem rints_perm
    (hl : evh.evhSessions = l₁ ++ s :: l₂) : evh.rints.Perm (otherRints l₁ l₂ ++ s.rints) := by
  unfold Evh.rints otherRints
  rw [hl, flatMap_append, flatMap_cons, append_assoc]
  exact perm_append_comm.append_left _

theorem Tidy.replace (h : Tidy evh)
    (ha : Around evh s l₁ l₂) (hsess : evh'.evhSessions = l₁ ++ s' :: l₂)
    (hoff : s'.offset = s.offset) (htidy : s'.Tidy)
    (hl : Linked evh'.evhEvents ((otherRints l₁ l₂).map Rint.key ++ s'.rints.map Rint.key))
    (hreq : ((l₁ ++ s' :: l₂).flatMap Ses.sesRequests |>.map EvtReq.offset).Nodup)
    (hfree : evh.evhFree ≤ evh'.evhFree) (he : ∀ e ∈ evh'.evhEvents, e.offset < evh'.evhFree)
    (hi : ∀ i ∈ s'.rints, i.offset < evh'.evhFree)
    (hr : ∀ r ∈ s'.sesRequests, r.offset < evh'.evhFree) : Tidy evh' := by
  have hmem : ∀ t, t ∈ l₁ ++ s' :: l₂ → t ∈ evh.evhSessions ∨ t = s' := by
    intro t ht
    rw [ha.split]
    simp only [mem_append, mem_cons] at ht ⊢
    rcases ht with ht | ht | ht
    · exact .inl (.inl ht)
    · exact .inr ht
    · exact .inl (.inr (.inr ht))
  have hperm := rints_perm hsess
  refine ⟨hl.perm ?_, ?_, ?_, ?_, ⟨he, ?_, ?_, ?_⟩⟩
  · rw [← map_append]
    exact (hperm.map Rint.key).symm
  · have hn := h.sorted
    rw [ha.split, map_append, map_cons] at hn
    rw [hsess, map_append, map_cons, hoff]
    exact hn
  · rwa [hsess]
  · intro t ht
    rw [hsess] at ht
    obtain ht | rfl := hmem t ht
    · exact h.sessions t ht
    · exact htidy
  · intro i hi'
    obtain hi' | hi' := mem_append.1 (hperm.mem_iff.1 hi')
    · refine Nat.lt_of_lt_of_le (h.fresh.interests i ?_) hfree
      exact (rints_perm ha.split).mem_iff.2 (mem_append_left _ hi')
    · exact hi i hi'
  · intro t ht
    rw [hsess] at ht
    obtain ht | rfl := hmem t ht
    · exact Nat.lt_of_lt_of_le (h.fresh.sessions t ht) hfree
    · have hs : s ∈ evh.evhSessions := by
        rw [ha.split]
        exact mem_append_right _ mem_cons_self
      rw [hoff]
      exact Nat.lt_of_lt_of_le (h.fresh.sessions s hs) hfree
  · intro t ht r hr'
    rw [hsess] at ht
    obtain ht | rfl := hmem t ht
    · exact Nat.lt_of_lt_of_le (h.fresh.requests t ht r hr') hfree
    · exact hr r hr'

theorem Around.sessionsStay (ha : Around evh s l₁ l₂) (hsess : evh'.evhSessions = l₁ ++ s' :: l₂)
    (hstay : s.Stays evh.evhFree s') : SessionsStay evh evh' := by
  intro t ht _
  rw [hsess] at ht
  rw [ha.split]
  simp only [mem_append, mem_cons] at ht ⊢
  rcases ht with ht | rfl | ht
  · exact ⟨t, .inl ht, .refl _ t⟩
  · exact ⟨s, .inr (.inl rfl), hstay⟩
  · exact ⟨t, .inr (.inr ht), .refl _ t⟩

theorem Around.mem (ha : Around evh s l₁ l₂) : s ∈ evh.evhSessions := by
  rw [ha.split]
  exact mem_append_right _ mem_cons_self

theorem Around.requests_sublist (ha : Around evh s l₁ l₂)
    {requests : List EvtReq} (hsub : requests.Sublist s.sesRequests) (s' : Ses)
    (hs' : s'.sesRequests = requests) :
    ((l₁ ++ s' :: l₂).flatMap Ses.sesRequests).Sublist
      (evh.evhSessions.flatMap Ses.sesRequests) := by
  rw [ha.split, flatMap_append, flatMap_append, flatMap_cons, flatMap_cons, hs']
  exact (Sublist.refl _).append (hsub.append (Sublist.refl _))

variable {r : EvtReq}

theorem Tidy.deleteRequest (h : Tidy evh) (hs : s ∈ evh.evhSessions) (hr : r ∈ s.sesRequests) :
    Tidy (deleteRequest evh s r) ∧ Steady evh (Event.deleteRequest evh s r) := by
  obtain ⟨l₁, l₂, ha⟩ := h.around hs
  have hreq : (s.sesRequests.map EvtReq.offset).Nodup := by
    refine h.requestOffsets.sublist (Sublist.map _ ?_)
    rw [ha.split, flatMap_append, flatMap_cons]
    exact (sublist_append_left _ _).trans (sublist_append_right _ _)
  obtain ⟨m₁, m₂, hm, _, hfilter⟩ := Keyed.exists_split hreq hr
  have hrints : s.rints.Perm ((m₁ ++ m₂).flatMap EvtReq.reqInterests ++
      (r.reqInterests ++ s.sesInterests)) := by
    unfold Ses.rints
    rw [hm, ← append_assoc, flatMap_append, flatMap_append, flatMap_cons]
    refine Perm.append_right _ ?_
    rw [append_assoc]
    exact perm_append_comm.append_left _
  have htidy := h.sessions s hs
  have hlinked : Linked evh.evhEvents
      ((otherRints l₁ l₂ ++ (m₁ ++ m₂).flatMap EvtReq.reqInterests).map Rint.key ++
        (r.reqInterests ++ s.sesInterests).map Rint.key) := by
    refine h.linked.perm ?_
    rw [← map_append, append_assoc]
    exact ((rints_perm ha.split).trans (hrints.append_left _)).map Rint.key
  have hrel := released_releaseInterests hlinked htidy.isHistory
  obtain ⟨hl, hhist, hkept, hborn, hkeys, hcov⟩ := hrel
  let R := releaseInterests evh.evhEvents s.sesInterests r.reqInterests
  let s' : Ses := { s with sesRequests := m₁ ++ m₂, sesInterests := R.2 }
  have hrun : Event.deleteRequest evh s r =
      { evh with evhEvents := R.1, evhSessions := l₁ ++ s' :: l₂ } := by
    unfold Event.deleteRequest
    simp only [ha.update]
    rw [hfilter]
  have hkeyin : ∀ i ∈ R.2, ∃ j ∈ s.rints, j.offset = i.offset := by
    intro i hi
    obtain ⟨j, hj, hjk⟩ := mem_map.1 (hkeys i hi)
    exact ⟨j, hrints.mem_iff.2 (mem_append_right _ hj), congrArg Prod.fst hjk⟩
  have hmsub : (m₁ ++ m₂).Sublist s.sesRequests := by
    rw [hm]
    exact Sublist.append_left (sublist_cons_self r m₂) m₁
  have hsrints : ∀ i ∈ s.rints, i.offset < evh.evhFree := fun i hi =>
    h.fresh.interests i ((rints_perm ha.split).mem_iff.2 (mem_append_right _ hi))
  rw [hrun]
  refine ⟨h.replace ha rfl rfl ⟨hhist, fun q hq => htidy.requests q (hmsub.subset hq)⟩ ?_ ?_
    (Nat.le_refl _) ?_ ?_ ?_, Nat.le_refl _,
    ha.sessionsStay rfl ⟨rfl, rfl, ?_, fun q hq => .inl (hmsub.subset hq)⟩, hkept, hborn _⟩
  · refine hl.perm (Perm.of_eq ?_)
    simp [Ses.rints, s', R]
  · exact h.requestOffsets.sublist ((ha.requests_sublist hmsub s' rfl).map _)
  · intro e he
    obtain ⟨hlt, _⟩ | ⟨e', he', ho, _⟩ := hborn (evh.evhFree + e.offset + 1) e he
    · omega
    · rw [ho]
      exact h.fresh.events e' he'
  · intro i hi
    obtain hi | hi := mem_append.1 hi
    · exact hsrints i (hrints.mem_iff.2 (mem_append_left _ hi))
    · obtain ⟨j, hj, hjo⟩ := hkeyin i hi
      rw [← hjo]
      exact hsrints j hj
  · exact fun q hq => h.fresh.requests s hs q (hmsub.subset hq)
  · intro i hi
    obtain hi | hi := mem_append.1 (hrints.mem_iff.1 hi)
    · exact ⟨i, mem_append_left _ hi, rfl⟩
    · obtain ⟨j, hj, hje⟩ := hcov i hi
      exact ⟨j, mem_append_right _ hj, hje⟩

variable {o : Nat}

theorem find?_updateSession {sessions : List Ses} {f : Ses → Ses}
    (hf : ∀ s, (f s).offset = s.offset) :
    ((updateSession sessions o f).find? fun s => s.offset = o) =
      (sessions.find? fun s => s.offset = o).map f :=
  Keyed.find?_update hf o

theorem session_deleteRequest (hs : evh.session s.offset = some s)
    (r : EvtReq) : (deleteRequest evh s r).session s.offset = some { s with
      sesRequests := s.sesRequests.filter fun q => q.offset ≠ r.offset
      sesInterests := (releaseInterests evh.evhEvents s.sesInterests r.reqInterests).2 } := by
  unfold Evh.session at hs
  unfold deleteRequest Evh.session
  rw [find?_updateSession, hs]
  · rfl
  · exact fun _ => rfl

theorem mem_of_session (h : evh.session o = some s) : s ∈ evh.evhSessions ∧ s.offset = o :=
  Keyed.of_find?_eq h

theorem Tidy.nodup_requests (h : Tidy evh) (hs : s ∈ evh.evhSessions) :
    (s.sesRequests.map EvtReq.offset).Nodup := by
  obtain ⟨l₁, l₂, ha⟩ := h.around hs
  refine h.requestOffsets.sublist (Sublist.map _ ?_)
  rw [ha.split, flatMap_append, flatMap_cons]
  exact (sublist_append_left _ _).trans (sublist_append_right _ _)

theorem Tidy.deleteRequests {requests : List EvtReq} :
    ∀ {evh : Evh} {s : Ses}, Tidy evh → evh.session s.offset = some s → s.sesRequests = requests →
      Tidy (deleteRequests evh s.offset requests) ∧
      Steady evh (Event.deleteRequests evh s.offset requests) ∧
      (Event.deleteRequests evh s.offset requests).evhFree = evh.evhFree ∧
      ∃ s', (Event.deleteRequests evh s.offset requests).session s.offset = some s' ∧
        s'.sesRequests = [] := by
  induction requests with
  | nil => exact fun h hs hr => ⟨h, .refl _, rfl, _, hs, hr⟩
  | cons r rest ih =>
    intro evh s h hs hr
    obtain ⟨hmem, _⟩ := mem_of_session hs
    obtain ⟨htidy, hsteady⟩ := h.deleteRequest hmem (r := r) (hr ▸ mem_cons_self)
    let s' : Ses := { s with
      sesRequests := s.sesRequests.filter fun q => q.offset ≠ r.offset
      sesInterests := (releaseInterests evh.evhEvents s.sesInterests r.reqInterests).2 }
    have hsess : (Event.deleteRequest evh s r).session s'.offset = some s' :=
      session_deleteRequest hs r
    have hrest : (s.sesRequests.filter fun q => q.offset ≠ r.offset) = rest := by
      have hn := h.nodup_requests hmem
      rw [hr, map_cons, nodup_cons] at hn
      rw [hr, filter_cons_of_neg (by simp), filter_eq_self]
      intro q hq
      have hne : q.offset ≠ r.offset := fun heq => hn.1 (heq ▸ mem_map_of_mem hq)
      simpa using hne
    obtain ⟨ht, hst, hfree, hs'⟩ := ih (s := s') htidy hsess hrest
    unfold Event.deleteRequests
    rw [hs]
    exact ⟨ht, hsteady.trans hst, hfree, hs'⟩

/-- What a call does to the table: as a steady one, but events that no session waits for go. -/
structure Evolves (evh evh' : Evh) : Prop where
  free_le : evh.evhFree ≤ evh'.evhFree
  sessions : SessionsStay evh evh'
  events : ∀ e ∈ evh.evhEvents, e.evntParent ≠ none →
    (∃ i ∈ evh'.rints, i.rintEvent = e.offset) → ∃ e' ∈ evh'.evhEvents, e.Same e'
  born : Born evh.evhFree evh.evhEvents evh'.evhEvents

theorem Steady.evolves (h : Steady evh evh') : Evolves evh evh' :=
  ⟨h.free_le, h.sessions, fun e he hp _ => h.kept e he hp, h.born⟩

theorem Tidy.updateFlags {f : Ses → Ses} (h : Tidy evh)
    (hs : evh'.evhSessions = updateSession evh.evhSessions o f)
    (he : evh'.evhEvents = evh.evhEvents) (hfree : evh'.evhFree = evh.evhFree)
    (hf : ∀ s, (f s).offset = s.offset ∧ (f s).sesProcess = s.sesProcess ∧
      (f s).sesRequests = s.sesRequests ∧ (f s).sesInterests = s.sesInterests) :
    Tidy evh' ∧ Steady evh evh' := by
  let g : Ses → Ses := fun s => if s.offset = o then f s else s
  have hg : ∀ s, (g s).offset = s.offset ∧ (g s).sesProcess = s.sesProcess ∧
      (g s).sesRequests = s.sesRequests ∧ (g s).sesInterests = s.sesInterests := by
    intro s
    unfold g
    split_ifs
    · exact hf s
    · exact ⟨rfl, rfl, rfl, rfl⟩
  have hsess : evh'.evhSessions = evh.evhSessions.map g := hs
  have hgr : ∀ s, (g s).rints = s.rints := fun s => by
    unfold Ses.rints
    rw [(hg s).2.2.1, (hg s).2.2.2]
  have hrints : evh'.rints = evh.rints := by
    unfold Evh.rints
    rw [hsess, flatMap_map]
    exact congrArg (fun r => evh.evhSessions.flatMap r) (funext hgr)
  have hmem : ∀ s' ∈ evh'.evhSessions, ∃ s ∈ evh.evhSessions, g s = s' := by
    rw [hsess]
    exact fun s' hs' => mem_map.1 hs'
  refine ⟨⟨?_, ?_, ?_, ?_, ⟨?_, ?_, ?_, ?_⟩⟩, Nat.le_of_eq hfree.symm, ?_, he ▸ .refl, he ▸ .refl⟩
  · rw [hrints, he]
    exact h.linked
  · rw [hsess, map_map, show Ses.offset ∘ g = Ses.offset from funext fun s => (hg s).1]
    exact h.sorted
  · rw [hsess, flatMap_map, show (fun a => (g a).sesRequests) = Ses.sesRequests from
      funext fun s => (hg s).2.2.1]
    exact h.requestOffsets
  · intro s' hs'
    obtain ⟨s, hs, rfl⟩ := hmem s' hs'
    obtain ⟨ho, hp, hr, hi⟩ := hg s
    refine ⟨hi ▸ (h.sessions s hs).isHistory, ?_⟩
    rw [ho, hp, hr]
    exact (h.sessions s hs).requests
  · rw [he, hfree]
    exact h.fresh.events
  · rw [hrints, hfree]
    exact h.fresh.interests
  · intro s' hs'
    obtain ⟨s, hs, rfl⟩ := hmem s' hs'
    rw [(hg s).1, hfree]
    exact h.fresh.sessions s hs
  · intro s' hs' r hr
    obtain ⟨s, hs, rfl⟩ := hmem s' hs'
    rw [(hg s).2.2.1] at hr
    rw [hfree]
    exact h.fresh.requests s hs r hr
  · intro s' hs' _
    obtain ⟨s, hs, rfl⟩ := hmem s' hs'
    obtain ⟨ho, hp, hr, _⟩ := hg s
    exact ⟨s, hs, ho.symm, hp.symm, fun i hi => ⟨i, by rwa [hgr], rfl⟩, fun r hr' => .inl
      (hr ▸ hr')⟩

theorem rints_filter (hsess : evh.evhSessions = l₁ ++ l₂) : evh.rints = otherRints l₁ l₂ := by
  unfold Evh.rints otherRints
  rw [hsess, flatMap_append]

theorem Tidy.dropSession (h : Tidy evh) (hs : s ∈ evh.evhSessions) (hr : s.sesRequests = [])
    (hevh : evh' = { evh with
      evhEvents := releaseHistory evh.evhEvents s.sesInterests
      evhSessions := evh.evhSessions.filter fun s' => s'.offset ≠ s.offset }) :
    Tidy evh' ∧ Evolves evh evh' := by
  obtain ⟨l₁, l₂, ha⟩ := h.around hs
  rw [ha.filter] at hevh
  subst hevh
  have hrints : Evh.rints { evh with
      evhEvents := releaseHistory evh.evhEvents s.sesInterests, evhSessions := l₁ ++ l₂ } =
      otherRints l₁ l₂ := rints_filter rfl
  have hsr : s.rints = s.sesInterests := by
    unfold Ses.rints
    rw [hr]
    rfl
  have hl : Linked evh.evhEvents
      ((otherRints l₁ l₂).map Rint.key ++ s.sesInterests.map Rint.key) := by
    refine h.linked.perm ?_
    rw [← map_append, ← hsr]
    exact (rints_perm ha.split).map Rint.key
  obtain ⟨hlinked, hborn, hkept⟩ := linked_releaseHistory hl
  have hsub : (l₁ ++ l₂).Sublist evh.evhSessions := by
    rw [ha.split]
    exact Sublist.append_left (sublist_cons_self s l₂) l₁
  have hmem : ∀ i ∈ otherRints l₁ l₂, i ∈ evh.rints := fun i hi =>
    (rints_perm ha.split).mem_iff.2 (mem_append_left _ hi)
  refine ⟨⟨?_, h.sorted.sublist (hsub.map _), ?_, fun t ht => h.sessions t (hsub.subset ht),
    ⟨?_, ?_, fun t ht => h.fresh.sessions t (hsub.subset ht),
      fun t ht => h.fresh.requests t (hsub.subset ht)⟩⟩,
    ⟨Nat.le_refl _, fun t ht _ => ⟨t, hsub.subset ht, .refl _ t⟩, ?_, hborn _⟩⟩
  · rw [hrints]
    exact hlinked
  · refine h.requestOffsets.sublist (Sublist.map _ ?_)
    rw [ha.split, flatMap_append, flatMap_append, flatMap_cons]
    exact Sublist.append_left (sublist_append_right _ _) _
  · intro e he
    obtain ⟨hlt, _⟩ | ⟨e', he', ho, _⟩ := hborn (evh.evhFree + e.offset + 1) e he
    · omega
    · rw [ho]
      exact h.fresh.events e' he'
  · rw [hrints]
    exact fun i hi => h.fresh.interests i (hmem i hi)
  · intro e he hp ⟨i, hi, hie⟩
    rw [hrints] at hi
    exact hkept e he hp ⟨i.key, mem_map_of_mem hi, hie⟩

theorem Steady.trans_evolves (h : Steady evh evh') (h' : Evolves evh' evh'') :
    Evolves evh evh'' := by
  refine ⟨Nat.le_trans h.free_le h'.free_le, h.sessions.trans h.free_le h'.sessions, ?_,
    h.born.trans h.free_le h'.born⟩
  intro e he hp ⟨i, hi, hie⟩
  obtain ⟨e', he', hs⟩ := h.kept e he hp
  obtain ⟨e'', he'', hs'⟩ := h'.events e' he' (by rwa [hs.2.1]) ⟨i, hi, by rw [hie, hs.1]⟩
  exact ⟨e'', he'', hs.trans hs'⟩

theorem Tidy.deleteSession (h : Tidy evh) (o : Nat) :
    Tidy (deleteSession evh o) ∧ Evolves evh (Event.deleteSession evh o) := by
  unfold Event.deleteSession
  cases hs : evh.session o with
  | none => exact ⟨h, (Steady.refl evh).evolves⟩
  | some s =>
    obtain ⟨hmem, rfl⟩ := mem_of_session hs
    dsimp only
    split_ifs with hd
    · refine And.imp_right Steady.evolves (h.updateFlags (o := s.offset)
        (f := fun s => { s with purge := true }) rfl rfl rfl fun _ => ⟨rfl, rfl, rfl, rfl⟩)
    · obtain ⟨ht, hst, _, s', hs', hr'⟩ := h.deleteRequests hs rfl
      obtain ⟨hmem', ho'⟩ := mem_of_session hs'
      obtain ⟨ht', hev⟩ := ht.dropSession hmem' hr' rfl
      rw [ho'] at ht' hev
      rw [hs']
      exact ⟨ht', hst.trans_evolves hev⟩

theorem Tidy.queued_parent (h : Tidy evh) {keys : List (Nat × Nat)}
    {history : List Rint} (hh : History history)
    (hk : (evh.rints.map Rint.key).Perm (keys ++ history.map Rint.key)) (string : List UInt8) :
    Queued evh.evhEvents keys history evh.evhFree evh.evhFree
      (queParent evh.evhEvents (evh.evhFree + 1) string).1 string
      { events := (queParent evh.evhEvents (evh.evhFree + 1) string).2.1, history, interests := [],
        free := (queParent evh.evhEvents (evh.evhFree + 1) string).2.2, flag := false } := by
  have hkeys : ∀ k ∈ keys ++ history.map Rint.key, k.1 < evh.evhFree := by
    intro k hk'
    obtain ⟨i, hi, rfl⟩ := mem_map.1 (hk.mem_iff.2 hk')
    exact h.fresh.interests i hi
  have hcov : ∀ i ∈ history, ∃ j ∈ [] ++ history, j.rintEvent = i.rintEvent :=
    fun i hi => ⟨i, hi, rfl⟩
  unfold queParent
  cases hf : findEvent evh.evhEvents string none with
  | some e =>
    obtain ⟨he, hp, hn⟩ := findEvent_eq_some hf
    exact ⟨h.linked.perm hk, ⟨e, he, rfl, hp, hn⟩, hh, Nat.lt_succ_self _,
      fun i hi => absurd hi not_mem_nil, .refl, .refl, Nat.le_succ _, fun e he =>
        Nat.lt_succ_of_lt (h.fresh.events e he),
      fun k hk => Nat.lt_succ_of_lt (hkeys k hk), hcov, fun _ i hi => absurd hi not_mem_nil⟩
  | none =>
    have hfresh : evh.evhFree + 1 ∉ evh.evhEvents.map Evnt.offset := by
      intro hmem
      obtain ⟨e, he, heo⟩ := mem_map.1 hmem
      exact absurd (h.fresh.events e he) (by omega)
    have hnew : newEvent (evh.evhFree + 1) string none ∈
        makeEvent evh.evhEvents (evh.evhFree + 1) string none :=
      mem_append_right _ (mem_singleton.2 rfl)
    have hborn : Born evh.evhFree evh.evhEvents
        (makeEvent evh.evhEvents (evh.evhFree + 1) string none) := born_newEvent (Nat.le_succ _)
    refine ⟨(h.linked.perm hk).makeParent hf hfresh, ⟨_, hnew, rfl, rfl, rfl⟩, hh,
      Nat.lt_add_of_pos_right (Nat.succ_pos 1), fun i hi => absurd hi not_mem_nil,
      kept_makeParent, hborn, Nat.le_add_right _ 2, fun e he => ?_,
      fun k hk => Nat.lt_of_lt_of_le (hkeys k hk) (Nat.le_add_right _ 2), hcov,
      fun _ i hi => absurd hi not_mem_nil⟩
    obtain he | he := mem_append.1 he
    · exact Nat.lt_of_lt_of_le (h.fresh.events e he) (Nat.le_add_right _ 2)
    · obtain rfl := mem_singleton.1 he
      exact Nat.lt_succ_self _

/-- The state at the end of the loop of `EVENT_que`. -/
def queResult (evh : Evh) (s : Ses) (string : List UInt8) (entries : List Entry) : Que :=
  let (parent, events, free) := queParent evh.evhEvents (evh.evhFree + 1) string
  entries.foldl (queEntry evh.evhFree parent)
    { events, history := s.sesInterests, interests := [], free, flag := false }

/-- The request that `EVENT_que` makes. -/
def queRequest (evh : Evh) (process session : Nat) (q : Que) : EvtReq :=
  { offset := evh.evhFree, reqProcess := process, reqSession := session,
    reqInterests := q.interests, reqRequestId := evh.evhRequestId + 1 }

theorem eventQue_eq {process : Nat} (hs : evh.session s.offset = some s)
    (string : List UInt8) (entries : List Entry) :
    eventQue evh process s.offset string entries =
      { evhEvents := (queResult evh s string entries).events
        evhProcesses := if (queResult evh s string entries).flag then
          postProcess evh.evhProcesses process else evh.evhProcesses
        evhSessions := updateSession evh.evhSessions s.offset fun t =>
          { t with
            sesInterests := (queResult evh s string entries).history
            sesRequests := t.sesRequests ++
              [queRequest evh process s.offset (queResult evh s string entries)] }
        evhRequestId := evh.evhRequestId + 1
        evhFree := (queResult evh s string entries).free } := by
  unfold eventQue
  rw [hs]
  rfl

theorem Around.keys_perm (ha : Around evh s l₁ l₂) : (evh.rints.map Rint.key).Perm
      ((otherRints l₁ l₂ ++ s.sesRequests.flatMap EvtReq.reqInterests).map Rint.key ++
        s.sesInterests.map Rint.key) := by
  rw [← map_append, append_assoc]
  exact (rints_perm ha.split).map Rint.key

theorem Tidy.queued (h : Tidy evh)
    (ha : Around evh s l₁ l₂) (string : List UInt8) (entries : List Entry) :
    Queued evh.evhEvents
      ((otherRints l₁ l₂ ++ s.sesRequests.flatMap EvtReq.reqInterests).map Rint.key) s.sesInterests
      evh.evhFree evh.evhFree (queParent evh.evhEvents (evh.evhFree + 1) string).1 string
      (queResult evh s string entries) :=
  (h.queued_parent (h.sessions s ha.mem).isHistory ha.keys_perm string).foldl entries

theorem Tidy.eventQue (h : Tidy evh) (hs : evh.session s.offset = some s)
    (string : List UInt8) (entries : List Entry) :
    Tidy (eventQue evh s.sesProcess s.offset string entries) ∧
      Steady evh (Event.eventQue evh s.sesProcess s.offset string entries) := by
  obtain ⟨l₁, l₂, ha⟩ := h.around (mem_of_session hs).1
  have hq := h.queued ha string entries
  rw [eventQue_eq hs]
  generalize queResult evh s string entries = q at hq ⊢
  let r := queRequest evh s.sesProcess s.offset q
  let s' : Ses := { s with sesInterests := q.history, sesRequests := s.sesRequests ++ [r] }
  have hsrints : s'.rints =
      s.sesRequests.flatMap EvtReq.reqInterests ++ (q.interests ++ q.history) := by
    simp [s', r, Ses.rints, queRequest]
  have hkeys : (otherRints l₁ l₂ ++ s.sesRequests.flatMap EvtReq.reqInterests).map Rint.key ++
      (q.interests ++ q.history).map Rint.key =
      (otherRints l₁ l₂).map Rint.key ++ s'.rints.map Rint.key := by
    rw [hsrints]
    simp
  have hreqs : ((l₁ ++ s' :: l₂).flatMap Ses.sesRequests).Perm
      (r :: evh.evhSessions.flatMap Ses.sesRequests) := by
    rw [ha.split, flatMap_append, flatMap_append, flatMap_cons, flatMap_cons,
      append_assoc, ← append_assoc]
    refine perm_middle.trans ?_
    rw [append_assoc]
    exact Perm.refl _
  have hrfresh : r.offset ∉ (evh.evhSessions.flatMap Ses.sesRequests).map EvtReq.offset := by
    intro hmem
    obtain ⟨r', hr', hro⟩ := mem_map.1 hmem
    obtain ⟨t, ht, hr'⟩ := mem_flatMap.1 hr'
    exact absurd (h.fresh.requests t ht r' hr') (by rw [hro]; exact Nat.lt_irrefl _)
  have htidy := h.sessions s ha.mem
  refine ⟨h.replace ha (ha.update _) rfl ⟨hq.isHistory, ?_⟩ (hkeys ▸ hq.linked) ?_ hq.free_le
    hq.freshEvents ?_ ?_, hq.free_le, ha.sessionsStay (ha.update _) ⟨rfl, rfl, ?_, ?_⟩, hq.kept,
    hq.born⟩
  · intro t ht
    obtain ht | ht := mem_append.1 ht
    · exact htidy.requests t ht
    · obtain rfl := mem_singleton.1 ht
      exact ⟨rfl, rfl, hq.request⟩
  · rw [(hreqs.map EvtReq.offset).nodup_iff]
    exact nodup_cons.2 ⟨hrfresh, h.requestOffsets⟩
  · intro i hi
    refine hq.freshKeys i.key ?_
    rw [hkeys]
    exact mem_append_right _ (mem_map_of_mem hi)
  · intro t ht
    obtain ht | ht := mem_append.1 ht
    · exact Nat.lt_of_lt_of_le (h.fresh.requests s ha.mem t ht) hq.free_le
    · obtain rfl := mem_singleton.1 ht
      exact hq.request_lt
  · intro i hi
    rw [hsrints]
    obtain hi | hi := mem_append.1 hi
    · exact ⟨i, mem_append_left _ hi, rfl⟩
    · obtain ⟨j, hj, hje⟩ := hq.covers i hi
      exact ⟨j, mem_append_right _ hj, hje⟩
  · intro t ht
    obtain ht | ht := mem_append.1 ht
    · exact .inl ht
    · obtain rfl := mem_singleton.1 ht
      exact .inr (Nat.le_refl _)

theorem Tidy.congr (h : Tidy evh) (he : evh'.evhEvents = evh.evhEvents)
    (hs : evh'.evhSessions = evh.evhSessions) (hfree : evh.evhFree ≤ evh'.evhFree) :
    Tidy evh' ∧ Steady evh evh' := by
  have hrints : evh'.rints = evh.rints := by
    unfold Evh.rints
    rw [hs]
  refine ⟨⟨?_, ?_, ?_, ?_, ⟨?_, ?_, ?_, ?_⟩⟩, hfree, ?_, he ▸ .refl, he ▸ .refl⟩
  · rw [he, hrints]
    exact h.linked
  · rw [hs]
    exact h.sorted
  · rw [hs]
    exact h.requestOffsets
  · rw [hs]
    exact h.sessions
  · rw [he]
    exact fun e hm => Nat.lt_of_lt_of_le (h.fresh.events e hm) hfree
  · rw [hrints]
    exact fun i hm => Nat.lt_of_lt_of_le (h.fresh.interests i hm) hfree
  · rw [hs]
    exact fun s hm => Nat.lt_of_lt_of_le (h.fresh.sessions s hm) hfree
  · rw [hs]
    exact fun s hm r hr => Nat.lt_of_lt_of_le (h.fresh.requests s hm r hr) hfree
  · intro s hm _
    rw [hs] at hm
    exact ⟨s, hm, .refl _ s⟩

theorem Tidy.createProcess (h : Tidy evh) :
    Tidy (createProcess evh) ∧ Steady evh (Event.createProcess evh) :=
  h.congr rfl rfl (Nat.le_succ _)

theorem Tidy.eventCreateSession (h : Tidy evh) (process : Nat) :
    Tidy (eventCreateSession evh process) ∧ Steady evh (Event.eventCreateSession evh process) := by
  let s : Ses :=
    { offset := evh.evhFree, sesProcess := process, sesRequests := [], sesInterests := [],
      delivering := false, purge := false }
  have hsess : (Event.eventCreateSession evh process).evhSessions = evh.evhSessions ++ [s] := rfl
  have hrints : (Event.eventCreateSession evh process).rints = evh.rints := by
    unfold Evh.rints
    rw [hsess, flatMap_append]
    exact append_nil _
  have hmem : ∀ t ∈ (Event.eventCreateSession evh process).evhSessions,
      t ∈ evh.evhSessions ∨ t = s := fun t ht =>
    (mem_append.1 ht).imp_right mem_singleton.1
  refine ⟨⟨?_, ?_, ?_, ?_, ⟨fun e he => Nat.lt_succ_of_lt (h.fresh.events e he), ?_, ?_, ?_⟩⟩,
    Nat.le_succ _, ?_, .refl, .refl⟩
  · rw [hrints]
    exact h.linked
  · rw [hsess, map_append, map_singleton, pairwise_append]
    refine ⟨h.sorted, pairwise_singleton _ _, fun o ho o' ho' => ?_⟩
    obtain ⟨t, ht, rfl⟩ := mem_map.1 ho
    obtain rfl := mem_singleton.1 ho'
    exact h.fresh.sessions t ht
  · rw [hsess, flatMap_append]
    change ((evh.evhSessions.flatMap Ses.sesRequests ++ []).map EvtReq.offset).Nodup
    rw [append_nil]
    exact h.requestOffsets
  · intro t ht
    obtain ht | rfl := hmem t ht
    · exact h.sessions t ht
    · exact ⟨⟨fun i hi => absurd hi not_mem_nil, nodup_nil⟩, fun r hr => absurd hr not_mem_nil⟩
  · rw [hrints]
    exact fun i hi => Nat.lt_succ_of_lt (h.fresh.interests i hi)
  · intro t ht
    obtain ht | rfl := hmem t ht
    · exact Nat.lt_succ_of_lt (h.fresh.sessions t ht)
    · exact Nat.lt_succ_self _
  · intro t ht r hr
    obtain ht | rfl := hmem t ht
    · exact Nat.lt_succ_of_lt (h.fresh.requests t ht r hr)
    · cases hr
  · intro t ht hlt
    obtain ht | rfl := hmem t ht
    · exact ⟨t, ht, .refl _ t⟩
    · exact absurd hlt (Nat.lt_irrefl _)

theorem of_findRequestId {process id : Nat} (h : findRequestId evh process id = some (s, r)) :
    s ∈ evh.evhSessions ∧ r ∈ s.sesRequests := by
  obtain ⟨t, ht, hf⟩ := exists_of_findSome?_eq_some h
  split_ifs at hf
  obtain ⟨q, hq, heq⟩ := Option.map_eq_some_iff.1 hf
  cases heq
  exact ⟨ht, mem_of_find?_eq_some hq⟩

theorem Tidy.eventCancel (h : Tidy evh) (process id : Nat) :
    Tidy (eventCancel evh process id) ∧ Steady evh (Event.eventCancel evh process id) := by
  unfold Event.eventCancel
  split
  · exact ⟨h, .refl evh⟩
  · rename_i hf
    obtain ⟨hs, hr⟩ := of_findRequestId hf
    exact h.deleteRequest hs hr

theorem of_requestOf {session request : Nat} (h : evh.requestOf session request = some (s, r)) :
    evh.session session = some s ∧ r ∈ s.sesRequests := by
  unfold Evh.requestOf at h
  split at h
  · cases h
  · rename_i hs
    obtain ⟨q, hq, heq⟩ := Option.map_eq_some_iff.1 h
    cases heq
    exact ⟨hs, mem_of_find?_eq_some hq⟩

theorem Tidy.startDelivering (h : Tidy evh) (session : Nat) :
    Tidy (startDelivering evh session) ∧ Steady evh (Event.startDelivering evh session) :=
  h.updateFlags (o := session) (f := fun s => { s with delivering := true }) rfl rfl rfl
    fun _ => ⟨rfl, rfl, rfl, rfl⟩

theorem Tidy.endDelivering (h : Tidy evh) (session : Nat) :
    Tidy (endDelivering evh session) ∧ Evolves evh (Event.endDelivering evh session) := by
  let evh₁ := { evh with evhSessions := updateSession evh.evhSessions session fun s =>
    { s with delivering := false } }
  have hflags : Tidy evh₁ ∧ Steady evh evh₁ :=
    h.updateFlags (o := session) (f := fun s => { s with delivering := false }) rfl rfl rfl
      fun _ => ⟨rfl, rfl, rfl, rfl⟩
  obtain ⟨ht, hst⟩ := hflags
  unfold Event.endDelivering
  dsimp only
  split
  · exact ⟨ht, hst.evolves⟩
  · split_ifs
    · obtain ⟨ht', hev⟩ := ht.deleteSession session
      exact ⟨ht', hst.trans_evolves hev⟩
    · exact ⟨ht, hst.evolves⟩

/-- A call other than `EVENT_post`. -/
def Call.Quiet : Call → Prop
  | .post .. => False
  | _ => True

theorem Tidy.call_quiet (h : Tidy evh) {c : Call} (hc : c.Quiet) :
    Tidy (call evh c) ∧ Evolves evh (call evh c) := by
  cases c with
  | createProcess => exact And.imp_right Steady.evolves h.createProcess
  | createSession process => exact And.imp_right Steady.evolves (h.eventCreateSession process)
  | que session string entries =>
    cases hs : evh.session session with
    | none =>
      have hcall : call evh (.que session string entries) = evh := by simp only [call, hs]
      rw [hcall]
      exact ⟨h, (Steady.refl evh).evolves⟩
    | some s =>
      have hcall : call evh (.que session string entries) =
          Event.eventQue evh s.sesProcess session string entries := by simp only [call, hs]
      obtain ⟨_, rfl⟩ := mem_of_session hs
      rw [hcall]
      exact And.imp_right Steady.evolves (h.eventQue hs string entries)
  | post major minor count => exact hc.elim
  | deliver => exact And.imp_right Steady.evolves (h.congr rfl rfl (Nat.le_refl _))
  | cancel process id => exact And.imp_right Steady.evolves (h.eventCancel process id)
  | deleteSession session => exact h.deleteSession session
  | startDelivering session => exact And.imp_right Steady.evolves (h.startDelivering session)
  | deliverRequest session request =>
    cases hr : evh.requestOf session request with
    | none =>
      have hcall : call evh (.deliverRequest session request) = evh := by simp only [call, hr]
      rw [hcall]
      exact ⟨h, (Steady.refl evh).evolves⟩
    | some sr =>
      have hcall : call evh (.deliverRequest session request) =
          Event.deleteRequest evh sr.1 sr.2 := by simp only [call, hr, deliverRequest]
      obtain ⟨hs, hr⟩ := of_requestOf hr
      rw [hcall]
      exact And.imp_right Steady.evolves (h.deleteRequest (mem_of_session hs).1 hr)
  | endDelivering session => exact h.endDelivering session

end Firebird.Jrd.Event
