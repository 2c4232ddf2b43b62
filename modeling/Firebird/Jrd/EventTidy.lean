import Firebird.Jrd.EventLinks

/-!
# The loops over events and interests

Every turn of the loops of `EVENT_que`, `delete_request` and `delete_session` keeps the events
linked to the interests. An event that there is still an interest in keeps its block and its count.
-/
namespace Firebird.Jrd.Event

open Lib List

/-! ## What happens to the events -/

def Evnt.Same (e e' : Evnt) : Prop :=
  e'.offset = e.offset ∧ e'.evntParent = e.evntParent ∧ e'.evntName = e.evntName ∧
    e'.evntCount = e.evntCount

def Kept (events events' : List Evnt) : Prop :=
  ∀ e ∈ events, e.evntParent ≠ none → ∃ e' ∈ events', e.Same e'

/-- Every event was there before, or is new and has not been posted. -/
def Born (free : Nat) (events events' : List Evnt) : Prop :=
  ∀ e' ∈ events', (free ≤ e'.offset ∧ (e'.evntParent ≠ none → e'.evntCount = 0)) ∨ ∃ e ∈ events,
    e'.offset = e.offset ∧ e'.evntParent = e.evntParent ∧ e'.evntName = e.evntName ∧
      (e.evntParent ≠ none → e'.evntCount = e.evntCount)

variable {events events' events'' : List Evnt} {keys others : List (Nat × Nat)} {free free' : Nat}

theorem Evnt.Same.refl (e : Evnt) : e.Same e := ⟨rfl, rfl, rfl, rfl⟩

variable {e : Evnt}

theorem Evnt.Same.trans {e' e'' : Evnt} (h : e.Same e') (h' : e'.Same e'') : e.Same e'' :=
  ⟨h'.1.trans h.1, h'.2.1.trans h.2.1, h'.2.2.1.trans h.2.2.1, h'.2.2.2.trans h.2.2.2⟩

theorem Kept.refl : Kept events events := fun e he _ => ⟨e, he, .refl e⟩

theorem Kept.trans (h : Kept events events') (h' : Kept events' events'') :
    Kept events events'' := by
  intro e he hp
  obtain ⟨e', he', hs⟩ := h e he hp
  obtain ⟨e'', he'', hs'⟩ := h' e' he' (by rwa [hs.2.1])
  exact ⟨e'', he'', hs.trans hs'⟩

theorem Born.refl : Born free events events :=
  fun e he => .inr ⟨e, he, rfl, rfl, rfl, fun _ => rfl⟩

theorem Born.trans (h : Born free events events') (hf : free ≤ free')
    (h' : Born free' events' events'') : Born free events events'' := by
  intro e'' he''
  obtain ⟨hlt, hz⟩ | ⟨e', he', ho, hp, hn, hc⟩ := h' e'' he''
  · exact .inl ⟨Nat.le_trans hf hlt, hz⟩
  · obtain ⟨hlt, hz⟩ | ⟨e, he, ho', hp', hn', hc'⟩ := h e' he'
    · refine .inl ⟨by rwa [ho], fun hne => ?_⟩
      rw [hp] at hne
      rw [hc hne, hz hne]
    · refine .inr ⟨e, he, ho.trans ho', hp.trans hp', hn.trans hn', fun hne => ?_⟩
      rw [hc (by rwa [hp']), hc' hne]

variable {o : Nat}

theorem kept_updateEvent {f : Evnt → Evnt} (hf : ∀ e : Evnt, e.Same (f e)) :
    Kept events (updateEvent events o f) := by
  intro e he _
  refine ⟨_, mem_updateEvent.2 ⟨e, he, rfl⟩, ?_⟩
  split_ifs
  · exact hf e
  · exact .refl e

theorem born_updateEvent {f : Evnt → Evnt} (hf : ∀ e : Evnt, e.Same (f e)) :
    Born free events (updateEvent events o f) := by
  intro e' he'
  obtain ⟨e, he, rfl⟩ := mem_updateEvent.1 he'
  refine .inr ⟨e, he, ?_⟩
  split_ifs
  · obtain ⟨ho, hp, hn, hc⟩ := hf e
    exact ⟨ho, hp, hn, fun _ => hc⟩
  · exact ⟨rfl, rfl, rfl, fun _ => rfl⟩

theorem born_addCount {p : Nat} {n : Int}
    (hp : ∀ e ∈ events, e.offset = p → e.evntParent = none) :
    Born free events (updateEvent events p (addCount n)) := by
  intro e' he'
  obtain ⟨e, he, ho, hpar, hn, _, hc⟩ := of_mem_updateEvent he'
  refine .inr ⟨e, he, ho, hpar, hn, fun hne => ?_⟩
  rw [hc, if_neg fun heq => hne (hp e he heq)]

theorem born_filter {c : Evnt → Bool} : Born free events (events.filter c) :=
  fun e he => .inr ⟨e, (mem_filter.1 he).1, rfl, rfl, rfl, fun _ => rfl⟩

theorem kept_removeInterest (i : Rint) : Kept events (removeInterest events i) :=
  kept_updateEvent fun _ => ⟨rfl, rfl, rfl, rfl⟩

theorem born_removeInterest (i : Rint) : Born free events (removeInterest events i) :=
  born_updateEvent fun _ => ⟨rfl, rfl, rfl, rfl⟩

theorem kept_insertInterest (o i : Nat) : Kept events (insertInterest events o i) :=
  kept_updateEvent fun _ => ⟨rfl, rfl, rfl, rfl⟩

theorem born_insertInterest (o i : Nat) : Born free events (insertInterest events o i) :=
  born_updateEvent fun _ => ⟨rfl, rfl, rfl, rfl⟩

variable {name : List UInt8}

theorem born_newEvent {parent : Option Nat} (ho : free ≤ o) :
    Born free events (events ++ [newEvent o name parent]) := by
  intro e he
  obtain he | he := mem_append.1 he
  · exact .inr ⟨e, he, rfl, rfl, rfl, fun _ => rfl⟩
  · obtain rfl := mem_singleton.1 he
    exact .inl ⟨ho, fun _ => rfl⟩

theorem kept_makeParent : Kept events (makeEvent events o name none) :=
  fun e he _ => ⟨e, mem_append_left _ he, .refl e⟩

theorem Linked.kept_makeChild (h : Linked events keys) {q : Evnt} (hq : q ∈ events)
    (hqp : q.evntParent = none) : Kept events (makeEvent events o name (some q.offset)) := by
  intro e he hp
  obtain ⟨e', he', ho', hp', hn', _, hc'⟩ :=
    mem_updateEvent_of_mem (p := q.offset) (n := 1) (mem_append_left [_] he)
  rw [if_neg fun heq => hp (h.eq_of_offset he hq heq ▸ hqp)] at hc'
  exact ⟨e', he', ho', hp', hn', hc'⟩

theorem Linked.born_makeChild (h : Linked events keys) {q : Evnt} (hq : q ∈ events)
    (hqp : q.evntParent = none) (ho : free ≤ o) (hfresh : o ∉ events.map Evnt.offset) :
    Born free events (makeEvent events o name (some q.offset)) := by
  refine (born_newEvent ho).trans (Nat.le_refl free) (born_addCount fun e he heq => ?_)
  obtain he | he := mem_append.1 he
  · exact h.eq_of_offset he hq heq ▸ hqp
  · obtain rfl := mem_singleton.1 he
    exact absurd (mem_map.2 ⟨q, hq, heq.symm⟩) hfresh

theorem Linked.born_deleteEvent (h : Linked events keys) (he : e ∈ events) :
    Born free events (Event.deleteEvent events e) := by
  unfold Event.deleteEvent
  cases hp : e.evntParent with
  | none => exact born_filter
  | some p =>
    dsimp only
    have hparent : ∀ d ∈ events.filter (fun e' => e'.offset ≠ e.offset), d.offset = p →
        d.evntParent = none := by
      intro d hd hdo
      obtain ⟨q, hq, hqo, hqp⟩ := h.parents e he p hp
      exact h.eq_of_offset (mem_filter.1 hd).1 hq (hdo.trans hqo.symm) ▸ hqp
    have hborn : Born free events (updateEvent (events.filter fun e' => e'.offset ≠ e.offset) p
        (addCount (-1))) := born_filter.trans (Nat.le_refl free) (born_addCount hparent)
    split_ifs
    · exact hborn.trans (Nat.le_refl free) born_filter
    · exact hborn

theorem Linked.kept_deleteEvent (h : Linked events keys) (he : e ∈ events) {d : Evnt}
    (hd : d ∈ events) (hdp : d.evntParent ≠ none) (hne : d.offset ≠ e.offset) :
    ∃ d' ∈ Event.deleteEvent events e, d.Same d' := by
  have hfilter : d ∈ events.filter fun e' => e'.offset ≠ e.offset :=
    mem_filter.2 ⟨hd, by simpa using hne⟩
  unfold Event.deleteEvent
  cases hp : e.evntParent with
  | none => exact ⟨d, hfilter, .refl d⟩
  | some p =>
    have hdne : d.offset ≠ p := by
      obtain ⟨q, hq, hqo, hqp⟩ := h.parents e he p hp
      intro heq
      exact hdp (h.eq_of_offset hd hq (heq.trans hqo.symm) ▸ hqp)
    obtain ⟨d', hd', ho, hp', hn, _, hc⟩ := mem_updateEvent_of_mem (p := p) (n := -1) hfilter
    rw [if_neg hdne] at hc
    have hsame : d.Same d' := ⟨ho, hp', hn, hc⟩
    dsimp only
    split_ifs
    · exact ⟨d', mem_filter.2 ⟨hd', by simpa [ho] using hdne⟩, hsame⟩
    · exact ⟨d', hd', hsame⟩

structure History (history : List Rint) : Prop where
  request : ∀ i ∈ history, i.rintRequest = none
  once : (history.map Rint.rintEvent).Nodup

variable {history : List Rint}

theorem historicalInterest_isSome {e : Nat} :
    (historicalInterest history e).isSome ↔ e ∈ history.map Rint.rintEvent := by
  simp [historicalInterest]

theorem History.cons {i : Rint} (h : History history)
    (hi : i.rintRequest = none) (hn : ¬ (historicalInterest history i.rintEvent).isSome) :
    History (i :: history) := by
  refine ⟨fun j hj => ?_, ?_⟩
  · obtain rfl | hj := mem_cons.1 hj
    · exact hi
    · exact h.request j hj
  · rw [historicalInterest_isSome] at hn
    exact nodup_cons.2 ⟨hn, h.once⟩

/-- What `delete_request` does to the events and to the history. -/
structure Released (events : List Evnt) (others : List (Nat × Nat)) (interests history : List Rint)
    (r : List Evnt × List Rint) : Prop where
  linked : Linked r.1 (others ++ r.2.map Rint.key)
  isHistory : History r.2
  kept : Kept events r.1
  born : ∀ free, Born free events r.1
  keys : ∀ i ∈ r.2, i.key ∈ (interests ++ history).map Rint.key
  covers : ∀ i ∈ interests ++ history, ∃ j ∈ r.2, j.rintEvent = i.rintEvent

theorem released_releaseInterests {interests : List Rint} :
    ∀ {events : List Evnt} {history : List Rint},
      Linked events (others ++ (interests ++ history).map Rint.key) → History history →
      Released events others interests history (releaseInterests events history interests) := by
  induction interests with
  | nil =>
    intro events history h hh
    exact ⟨h, hh, .refl, fun _ => .refl, fun i hi => mem_map_of_mem hi, fun i hi => ⟨i, hi, rfl⟩⟩
  | cons i rest ih =>
    intro events history h hh
    have hperm : (others ++ (i :: rest ++ history).map Rint.key).Perm
        (i.key :: (others ++ (rest ++ history).map Rint.key)) := perm_middle
    unfold releaseInterests
    split_ifs with hist
    · obtain ⟨hl, hhist, hk, hb, hkeys, hcov⟩ := ih (h.perm hperm).removeInterest hh
      refine ⟨hl, hhist, (kept_removeInterest i).trans hk,
        fun free => (born_removeInterest i).trans (Nat.le_refl free) (hb free), ?_, ?_⟩
      · exact fun j hj => mem_cons_of_mem _ (hkeys j hj)
      · intro j hj
        obtain rfl | hj := mem_cons.1 hj
        · rw [historicalInterest_isSome] at hist
          obtain ⟨m, hm, hme⟩ := mem_map.1 hist
          obtain ⟨m', hm', hme'⟩ := hcov m (mem_append_right _ hm)
          exact ⟨m', hm', hme'.trans hme⟩
        · exact hcov j hj
    · have hperm' : (others ++ (i :: rest ++ history).map Rint.key).Perm
          (others ++ (rest ++ { i with rintRequest := none } :: history).map Rint.key) := by
        refine Perm.append_left _ ?_
        rw [map_append, map_append]
        exact perm_middle.symm
      obtain ⟨hl, hhist, hk, hb, hkeys, hcov⟩ := ih (h.perm hperm') (hh.cons rfl hist)
      refine ⟨hl, hhist, hk, hb, ?_, ?_⟩
      · intro j hj
        have hj' := hkeys j hj
        rw [map_append] at hj'
        rw [cons_append, map_cons, map_append]
        exact perm_middle.mem_iff.1 hj'
      · intro j hj
        obtain rfl | hj := mem_cons.1 hj
        · exact hcov { j with rintRequest := none } (mem_append_right _ mem_cons_self)
        · obtain hj | hj := mem_append.1 hj
          · exact hcov j (mem_append_left _ hj)
          · exact hcov j (mem_append_right _ (mem_cons_of_mem _ hj))

theorem linked_releaseHistory :
    ∀ {events : List Evnt}, Linked events (others ++ history.map Rint.key) →
      Linked (releaseHistory events history) others ∧
      (∀ free, Born free events (releaseHistory events history)) ∧
      ∀ e ∈ events, e.evntParent ≠ none → (∃ k ∈ others, k.2 = e.offset) →
        ∃ e' ∈ releaseHistory events history, e.Same e' := by
  induction history with
  | nil =>
    intro events h
    rw [map_nil, append_nil] at h
    exact ⟨h, fun _ => .refl, fun e he _ _ => ⟨e, he, .refl e⟩⟩
  | cons i rest ih =>
    intro events h
    have hperm : (others ++ (i :: rest).map Rint.key).Perm
      (i.key :: (others ++ rest.map Rint.key)) :=
      perm_middle
    have hrem := (h.perm hperm).removeInterest
    obtain ⟨e₀, he₀, heo, hep⟩ := (h.perm hperm).targets i.key mem_cons_self
    obtain ⟨e, he, hso, hsp, _⟩ := kept_removeInterest i e₀ he₀ hep
    have hfind : ((removeInterest events i).find? fun e => e.offset = i.rintEvent) = some e := by
      have hoff : e.offset = i.rintEvent := hso.trans heo
      rw [← hoff]
      exact Keyed.find?_eq hrem.offsets he
    have hrun : releaseHistory events (i :: rest) = releaseHistory
        (if e.evntInterests = [] then deleteEvent (removeInterest events i) e
          else removeInterest events i) rest := by
      conv_lhs => unfold releaseHistory
      simp [hfind]
    rw [hrun]
    split_ifs with hnil
    · obtain ⟨hl, hb, hk⟩ := ih (hrem.deleteEvent he (by rwa [hsp]) hnil)
      refine ⟨hl, fun free => ((born_removeInterest i).trans (Nat.le_refl free)
        (hrem.born_deleteEvent he)).trans (Nat.le_refl free) (hb free), ?_⟩
      intro d hd hdp ⟨k, hk', hkd⟩
      obtain ⟨d', hd', hs⟩ := kept_removeInterest i d hd hdp
      have hne : d'.offset ≠ e.offset := by
        intro heq
        have hq := (hrem.mem_queue he (i := k.1)).2
          (by rw [← heq, hs.1, ← hkd]; exact mem_append_left _ hk')
        rw [hnil] at hq
        cases hq
      obtain ⟨d'', hd'', hs'⟩ := hrem.kept_deleteEvent he hd' (by rwa [hs.2.1]) hne
      obtain ⟨d₃, hd₃, hs₃⟩ := hk d'' hd'' (by rwa [hs'.2.1, hs.2.1])
        ⟨k, hk', by rw [hs'.1, hs.1, hkd]⟩
      exact ⟨d₃, hd₃, (hs.trans hs').trans hs₃⟩
    · obtain ⟨hl, hb, hk⟩ := ih hrem
      refine ⟨hl, fun free => (born_removeInterest i).trans (Nat.le_refl free) (hb free), ?_⟩
      intro d hd hdp ⟨k, hk', hkd⟩
      obtain ⟨d', hd', hs⟩ := kept_removeInterest i d hd hdp
      obtain ⟨d₃, hd₃, hs₃⟩ := hk d' hd' (by rwa [hs.2.1]) ⟨k, hk', by rw [hs.1, hkd]⟩
      exact ⟨d₃, hd₃, hs.trans hs₃⟩

theorem Linked.eventCount_kept (h : Linked events keys) (hoff : (events'.map Evnt.offset).Nodup)
    (hk : Kept events events') {k : Nat × Nat} (hmem : k ∈ keys) :
    eventCount events' k.2 = eventCount events k.2 := by
  obtain ⟨e, he, heo, hep⟩ := h.targets k hmem
  obtain ⟨e', he', hs⟩ := hk e he hep
  rw [← heo, eventCount_eq h.offsets he, ← hs.1, eventCount_eq hoff he', hs.2.2.2]

/-- What the loop of `EVENT_que` keeps. The keys of `others` are those of all other interests. -/
structure Queued (events : List Evnt) (others : List (Nat × Nat)) (history : List Rint)
    (free request parent : Nat) (string : List UInt8) (q : Que) : Prop where
  linked : Linked q.events (others ++ (q.interests ++ q.history).map Rint.key)
  parent : ∃ p ∈ q.events, p.offset = parent ∧ p.evntParent = none ∧ p.evntName = string
  isHistory : History q.history
  request_lt : request < q.free
  request : ∀ i ∈ q.interests, i.rintRequest = some request
  kept : Kept events q.events
  born : Born free events q.events
  free_le : free ≤ q.free
  freshEvents : ∀ e ∈ q.events, e.offset < q.free
  freshKeys : ∀ k ∈ others ++ (q.interests ++ q.history).map Rint.key, k.1 < q.free
  covers : ∀ i ∈ history, ∃ j ∈ q.interests ++ q.history, j.rintEvent = i.rintEvent
  flag : q.flag = false → ∀ i ∈ q.interests, eventCount q.events i.rintEvent < i.rintCount

section Que

variable {history : List Rint} {request parent : Nat} {string : List UInt8} {q : Que}

theorem mem_interests_keys {i : Rint} (hi : i ∈ q.interests) :
    i.key ∈ others ++ (q.interests ++ q.history).map Rint.key :=
  mem_append_right _ (mem_map_of_mem (mem_append_left _ hi))

theorem Queued.queEvent (h : Queued events others history free request parent string q)
    (name : List UInt8) :
    Queued events others history free request parent string (queEvent parent q name).2 ∧
      ∃ e ∈ (Event.queEvent parent q name).2.events,
        e.offset = (Event.queEvent parent q name).1 ∧ e.evntParent = some parent ∧
          e.evntName = name := by
  unfold Event.queEvent
  cases hf : findEvent q.events name (some parent) with
  | some e =>
    obtain ⟨he, hp, hn⟩ := findEvent_eq_some hf
    exact ⟨h, e, he, rfl, hp, hn⟩
  | none =>
    obtain ⟨p, hp, rfl, hpp, hpn⟩ := h.parent
    have hfresh : q.free ∉ q.events.map Evnt.offset := by
      intro hmem
      obtain ⟨e, he, heo⟩ := mem_map.1 hmem
      exact absurd (h.freshEvents e he) (by omega)
    have hl := h.linked.makeChild hp hpp hf hfresh
    have hk : Kept q.events (makeEvent q.events q.free name (some p.offset)) :=
      h.linked.kept_makeChild hp hpp
    have hborn : Born q.free q.events (makeEvent q.events q.free name (some p.offset)) :=
      h.linked.born_makeChild hp hpp (Nat.le_refl _) hfresh
    obtain ⟨p', hp', hpo', hpp', hpn', _⟩ :=
      mem_updateEvent_of_mem (p := p.offset) (n := 1)
        (mem_append_left [newEvent q.free name (some p.offset)] hp)
    have hnew : newEvent q.free name (some p.offset) ∈
        q.events ++ [newEvent q.free name (some p.offset)] :=
      mem_append_right _ (mem_singleton.2 rfl)
    obtain ⟨e, he, heo, hep, hen, _⟩ := mem_updateEvent_of_mem (p := p.offset) (n := 1) hnew
    refine ⟨⟨hl, ⟨p', hp', hpo', hpp'.trans hpp, hpn'.trans hpn⟩, h.isHistory, Nat.lt_succ_of_lt
      h.request_lt, h.request,
      h.kept.trans hk, h.born.trans h.free_le hborn, Nat.le_succ_of_le h.free_le, ?_,
      fun k hk => Nat.lt_succ_of_lt (h.freshKeys k hk), h.covers, ?_⟩, e, he, heo, hep, hen⟩
    · intro d' hd'
      obtain ⟨d, hd, hdo, _⟩ := of_mem_updateEvent hd'
      rw [hdo]
      obtain hd | hd := mem_append.1 hd
      · exact Nat.lt_succ_of_lt (h.freshEvents d hd)
      · obtain rfl := mem_singleton.1 hd
        exact Nat.lt_succ_self _
    · intro hflag i hi
      have heq := h.linked.eventCount_kept hl.offsets hk (mem_interests_keys hi)
      exact heq ▸ h.flag hflag i hi

theorem lt_of_not_le_decide {a b : Int} {f : Bool} (h : (f || decide (a ≤ b)) = false) :
    f = false ∧ b < a := by
  simpa using h

theorem Queued.queInterest (h : Queued events others history free request parent string q)
    {e : Evnt}
    (he : e ∈ q.events) (hp : e.evntParent ≠ none) (count : Int) :
    Queued events others history free request parent string
      (queInterest request e.offset count q) := by
  unfold Event.queInterest
  cases hf : historicalInterest q.history e.offset with
  | some i =>
    obtain ⟨hie, l₁, l₂, hl, hl₁⟩ := find?_eq_some_iff_append.1 hf
    have herase : (q.history.eraseP fun i => i.rintEvent = e.offset) = l₁ ++ l₂ := by
      rw [hl, eraseP_append_right _ (fun b hb => by simpa using hl₁ b hb),
        eraseP_cons_of_pos (p := fun i : Rint => decide (i.rintEvent = e.offset)) hie]
    have hsub : (l₁ ++ l₂).Sublist q.history := by
      rw [hl]
      exact Sublist.append_left (sublist_cons_self i l₂) l₁
    have hie : i.rintEvent = e.offset := by simpa using hie
    let i' : Rint := { i with rintRequest := some request, rintCount := count }
    have hperm : ((q.interests ++ q.history).map Rint.key).Perm
        ((q.interests ++ [i'] ++ (l₁ ++ l₂)).map Rint.key) := by
      rw [hl, append_assoc]
      refine ((perm_middle.append_left q.interests).map Rint.key).trans ?_
      rw [map_append, map_append]
      exact Perm.refl _
    rw [herase]
    refine ⟨h.linked.perm (hperm.append_left others), h.parent,
      ⟨fun j hj => h.isHistory.request j (hsub.subset hj), h.isHistory.once.sublist (hsub.map _)⟩,
      h.request_lt, ?_, h.kept, h.born, h.free_le, h.freshEvents, ?_, ?_, ?_⟩
    · intro j hj
      obtain hj | hj := mem_append.1 hj
      · exact h.request j hj
      · obtain rfl := mem_singleton.1 hj
        rfl
    · exact fun k hk => h.freshKeys k ((hperm.append_left others).mem_iff.2 hk)
    · intro j hj
      obtain ⟨m, hm, hme⟩ := h.covers j hj
      obtain ⟨m', hm', hk⟩ := mem_map.1 (hperm.mem_iff.1 (mem_map_of_mem hm))
      exact ⟨m', hm', (congrArg Prod.snd hk).trans hme⟩
    · intro hflag j hj
      obtain ⟨hflag, hlt⟩ := lt_of_not_le_decide hflag
      obtain hj | hj := mem_append.1 hj
      · exact h.flag hflag j hj
      · obtain rfl := mem_singleton.1 hj
        rwa [hie]
  | none =>
    let i' : Rint :=
      { offset := q.free, rintEvent := e.offset, rintRequest := some request, rintCount := count }
    have hfresh : q.free ∉ (others ++ (q.interests ++ q.history).map Rint.key).map Prod.fst := by
      intro hmem
      obtain ⟨k, hk, hko⟩ := mem_map.1 hmem
      exact absurd (h.freshKeys k hk) (by omega)
    have hperm : (i'.key :: (others ++ (q.interests ++ q.history).map Rint.key)).Perm
        (others ++ (q.interests ++ [i'] ++ q.history).map Rint.key) := by
      refine perm_middle.symm.trans (Perm.append_left _ ?_)
      rw [map_append, append_assoc, map_append]
      exact perm_middle.symm
    have hl := (h.linked.insertInterest he hp hfresh).perm hperm
    have hk : Kept q.events (insertInterest q.events e.offset q.free) := kept_insertInterest _ _
    obtain ⟨p, hpm, hpo, hpp, hpn⟩ := h.parent
    refine ⟨hl, ?_, h.isHistory, Nat.lt_succ_of_lt h.request_lt, ?_, h.kept.trans hk,
      h.born.trans h.free_le (born_insertInterest _ _), Nat.le_succ_of_le h.free_le, ?_, ?_, ?_, ?_⟩
    · refine ⟨_, mem_updateEvent.2 ⟨p, hpm, rfl⟩, ?_⟩
      split_ifs <;> exact ⟨hpo, hpp, hpn⟩
    · intro j hj
      obtain hj | hj := mem_append.1 hj
      · exact h.request j hj
      · obtain rfl := mem_singleton.1 hj
        rfl
    · intro d' hd'
      obtain ⟨d, hd, rfl⟩ := mem_updateEvent.1 hd'
      have := h.freshEvents d hd
      split_ifs <;> exact Nat.lt_succ_of_lt this
    · intro k hk
      obtain rfl | hk := mem_cons.1 (hperm.mem_iff.2 hk)
      · exact Nat.lt_succ_self _
      · exact Nat.lt_succ_of_lt (h.freshKeys k hk)
    · intro j hj
      obtain ⟨m, hm, hme⟩ := h.covers j hj
      refine ⟨m, ?_, hme⟩
      simp only [mem_append] at hm ⊢
      exact hm.imp_left .inl
    · intro hflag j hj
      obtain ⟨hflag, hlt⟩ := lt_of_not_le_decide hflag
      obtain hj | hj := mem_append.1 hj
      · have heq := h.linked.eventCount_kept hl.offsets hk (mem_interests_keys hj)
        exact heq ▸ h.flag hflag j hj
      · obtain rfl := mem_singleton.1 hj
        obtain ⟨e', he', hs⟩ := hk e he hp
        rw [eventCount_eq h.linked.offsets he] at hlt
        have heq := eventCount_eq hl.offsets he'
        rw [hs.1, hs.2.2.2] at heq
        exact heq ▸ hlt

theorem Queued.queEntry (h : Queued events others history free request parent string q)
    (entry : Entry) :
    Queued events others history free request parent string (queEntry request parent q entry) := by
  obtain ⟨hq, e, he, heo, hep, _⟩ := h.queEvent (stripBlanks entry.name)
  have := hq.queInterest he (by rw [hep]; exact Option.some_ne_none _) entry.count
  rw [heo] at this
  exact this

theorem Queued.foldl (h : Queued events others history free request parent string q)
    (entries : List Entry) : Queued events others history free request parent string
      (entries.foldl (Event.queEntry request parent) q) := by
  induction entries generalizing q with
  | nil => exact h
  | cons entry rest ih => exact ih (h.queEntry entry)

end Que

end Firebird.Jrd.Event
