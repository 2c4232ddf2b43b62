import Mathlib.Data.List.Perm.Basic
import Firebird.Lib.Keyed
import Firebird.Jrd.Event

/-!
# The events and the interests in them

What the queues of the events and the counts of their parents say, for the interests there are. An
interest is known here by its offset and the offset of its event.
-/
namespace Firebird.Jrd.Event

open Lib List Function

def Rint.key (i : Rint) : Nat × Nat := (i.offset, i.rintEvent)

structure Linked (events : List Evnt) (keys : List (Nat × Nat)) : Prop where
  offsets : (events.map Evnt.offset).Nodup
  names : (events.map fun e => (e.evntParent, e.evntName)).Nodup
  parents : ∀ e ∈ events, ∀ p, e.evntParent = some p →
    ∃ q ∈ events, q.offset = p ∧ q.evntParent = none
  counts : ∀ q ∈ events, q.evntParent = none →
    q.evntCount = (events.countP fun e => e.evntParent = some q.offset : Nat)
  interests : (keys.map Prod.fst).Nodup
  queues : ∀ e ∈ events,
    e.evntInterests.Perm ((keys.filter fun k => k.2 = e.offset).map Prod.fst)
  targets : ∀ k ∈ keys, ∃ e ∈ events, e.offset = k.2 ∧ e.evntParent ≠ none

variable {events : List Evnt} {keys keys' : List (Nat × Nat)}

theorem Linked.perm (h : Linked events keys) (hp : keys.Perm keys') : Linked events keys' where
  offsets := h.offsets
  names := h.names
  parents := h.parents
  counts := h.counts
  interests := (hp.map Prod.fst).nodup_iff.1 h.interests
  queues := fun e he => (h.queues e he).trans ((hp.filter _).map Prod.fst)
  targets := fun k hk => h.targets k (hp.mem_iff.2 hk)

variable {e e' : Evnt}

theorem Linked.eq_of_offset (h : Linked events keys) (he : e ∈ events)
    (he' : e' ∈ events) (heq : e.offset = e'.offset) : e = e' :=
  inj_on_of_nodup_map h.offsets he he' heq

theorem Linked.mem_queue (h : Linked events keys) (he : e ∈ events) {i : Nat} :
    i ∈ e.evntInterests ↔ (i, e.offset) ∈ keys := by
  rw [(h.queues e he).mem_iff]
  simp

theorem eventCount_eq (h : (events.map Evnt.offset).Nodup) (he : e ∈ events) :
    eventCount events e.offset = e.evntCount := by
  unfold eventCount
  rw [Keyed.find?_eq h he]
  rfl

theorem mem_updateEvent {offset : Nat} {f : Evnt → Evnt} : e' ∈ updateEvent events offset f ↔
      ∃ e ∈ events, e' = if e.offset = offset then f e else e := by
  simp [updateEvent, eq_comm]

theorem Linked.map (h : Linked events keys) {g : Evnt → Evnt}
    (ho : ∀ e, (g e).offset = e.offset) (hp : ∀ e, (g e).evntParent = e.evntParent)
    (hn : ∀ e, (g e).evntName = e.evntName)
    (hc : ∀ e ∈ events, e.evntParent = none → (g e).evntCount = e.evntCount)
    (hi : (keys'.map Prod.fst).Nodup)
    (hq : ∀ e ∈ events,
      (g e).evntInterests.Perm ((keys'.filter fun k => k.2 = e.offset).map Prod.fst))
    (ht : ∀ k ∈ keys', ∃ e ∈ events, e.offset = k.2 ∧ e.evntParent ≠ none) :
    Linked (events.map g) keys' where
  offsets := by
    rw [map_map, show Evnt.offset ∘ g = Evnt.offset from funext ho]
    exact h.offsets
  names := by
    have hg : (fun e : Evnt => (e.evntParent, e.evntName)) ∘ g =
        fun e => (e.evntParent, e.evntName) := by
      funext e
      simp [hp, hn]
    rw [map_map, hg]
    exact h.names
  parents := by
    intro e' he' p hpar
    obtain ⟨e, he, rfl⟩ := mem_map.1 he'
    rw [hp] at hpar
    obtain ⟨q, hq, hqo, hqp⟩ := h.parents e he p hpar
    exact ⟨g q, mem_map_of_mem hq, by rw [ho, hqo], by rw [hp, hqp]⟩
  counts := by
    intro q' hq' hpar
    obtain ⟨q, hq, rfl⟩ := mem_map.1 hq'
    rw [hp] at hpar
    rw [hc q hq hpar, h.counts q hq hpar, countP_map, ho]
    simp [comp_def, hp]
  interests := hi
  queues := by
    intro e' he'
    obtain ⟨e, he, rfl⟩ := mem_map.1 he'
    rw [ho]
    exact hq e he
  targets := by
    intro k hk
    obtain ⟨e, he, heo, hep⟩ := ht k hk
    exact ⟨g e, mem_map_of_mem he, by rw [ho, heo], by rw [hp]; exact hep⟩

theorem filter_key_cons (k : Nat × Nat) (offset : Nat) :
    (((k :: keys).filter fun k => k.2 = offset).map Prod.fst) =
      if k.2 = offset then k.1 :: (keys.filter fun k => k.2 = offset).map Prod.fst
      else (keys.filter fun k => k.2 = offset).map Prod.fst := by
  rw [filter_cons]
  by_cases h : k.2 = offset <;> simp [h]

theorem Linked.insertInterest (h : Linked events keys) (he : e ∈ events)
    (hp : e.evntParent ≠ none) {i : Nat} (hi : i ∉ keys.map Prod.fst) :
    Linked (insertInterest events e.offset i) ((i, e.offset) :: keys) := by
  refine h.map (fun e => ?_) (fun e => ?_) (fun e => ?_) (fun e _ _ => ?_) ?_ (fun e' he' => ?_) ?_
  iterate 4 split_ifs <;> rfl
  · exact nodup_cons.2 ⟨hi, h.interests⟩
  · rw [filter_key_cons]
    by_cases heq : e'.offset = e.offset
    · rw [if_pos heq, if_pos heq.symm]
      exact (perm_append_singleton i _).trans ((h.queues e' he').cons i)
    · rw [if_neg heq, if_neg (Ne.symm heq)]
      exact h.queues e' he'
  · intro k hk
    obtain rfl | hk := mem_cons.1 hk
    · exact ⟨e, he, rfl, hp⟩
    · exact h.targets k hk

theorem Linked.removeInterest {i : Rint} (h : Linked events (i.key :: keys)) :
    Linked (removeInterest events i) keys := by
  refine h.map (fun e => ?_) (fun e => ?_) (fun e => ?_) (fun e _ _ => ?_) ?_ (fun e' he' => ?_) ?_
  iterate 4 split_ifs <;> rfl
  · exact (nodup_cons.1 h.interests).2
  · have hq := h.queues e' he'
    rw [filter_key_cons] at hq
    by_cases heq : e'.offset = i.rintEvent
    · rw [if_pos heq]
      rw [if_pos (show i.key.2 = e'.offset from heq.symm)] at hq
      simpa [Rint.key] using hq.erase i.offset
    · rw [if_neg heq]
      rwa [if_neg (show ¬ i.key.2 = e'.offset from fun h => heq h.symm)] at hq
  · exact fun k hk => h.targets k (mem_cons_of_mem _ hk)

theorem Linked.setCount (h : Linked events keys) (he : e ∈ events)
    (hp : e.evntParent ≠ none) (n : Int) :
    Linked (updateEvent events e.offset fun e => { e with evntCount := n }) keys := by
  refine h.map (fun e => ?_) (fun e => ?_) (fun e => ?_) (fun e' he' hp' => ?_) h.interests
    (fun e' he' => ?_) h.targets
  iterate 3 split_ifs <;> rfl
  · rw [if_neg fun heq => hp ?_]
    rw [← h.eq_of_offset he' he heq]
    exact hp'
  · have hq := h.queues e' he'
    split_ifs <;> exact hq

variable {name : List UInt8}

theorem findEvent_eq_none {parent : Option Nat} (h : findEvent events name parent = none) :
    (parent, name) ∉ events.map fun e => (e.evntParent, e.evntName) := by
  intro hmem
  obtain ⟨e, he, heq⟩ := mem_map.1 hmem
  have := find?_eq_none.1 h e he
  simp_all

theorem findEvent_eq_some {parent : Option Nat} (h : findEvent events name parent = some e) :
    e ∈ events ∧ e.evntParent = parent ∧ e.evntName = name := by
  have := find?_some h
  exact ⟨mem_of_find?_eq_some h, by simpa using this⟩

variable {o : Nat}

theorem Linked.not_key (h : Linked events keys) (ho : o ∉ events.map Evnt.offset) :
    (keys.filter fun k => k.2 = o) = [] := by
  rw [filter_eq_nil_iff]
  intro k hk hko
  obtain ⟨e, he, heo, _⟩ := h.targets k hk
  refine ho (mem_map.2 ⟨e, he, ?_⟩)
  rw [heo]
  simpa using hko

theorem Linked.countP_fresh (h : Linked events keys) (ho : o ∉ events.map Evnt.offset) :
    (events.countP fun e => e.evntParent = some o) = 0 := by
  rw [countP_eq_zero]
  intro e he hp
  obtain ⟨q, hq, hqo, _⟩ := h.parents e he o (by simpa using hp)
  exact ho (mem_map.2 ⟨q, hq, hqo⟩)

theorem Linked.makeParent (h : Linked events keys)
    (hf : findEvent events name none = none) (ho : o ∉ events.map Evnt.offset) :
    Linked (makeEvent events o name none) keys := by
  have hz := h.countP_fresh ho
  refine ⟨?_, ?_, ?_, ?_, h.interests, ?_, ?_⟩
  · simpa [makeEvent, newEvent, nodup_append] using ⟨h.offsets, by simpa using ho⟩
  · have hn := findEvent_eq_none hf
    rw [makeEvent, map_append, nodup_append]
    refine ⟨h.names, nodup_singleton _, fun a ha b hb => ?_⟩
    rintro rfl
    simp only [map_cons, map_nil, mem_singleton] at hb
    exact hn (hb ▸ ha)
  · intro e he p hp
    obtain he | he := mem_append.1 he
    · obtain ⟨q, hq, hqo, hqp⟩ := h.parents e he p hp
      exact ⟨q, mem_append_left _ hq, hqo, hqp⟩
    · obtain rfl := mem_singleton.1 he
      cases hp
  · intro q hq hp
    rw [makeEvent, countP_append]
    obtain hq | hq := mem_append.1 hq
    · simp [newEvent, h.counts q hq hp]
    · obtain rfl := mem_singleton.1 hq
      change (0 : Int) = ((events.countP fun e => e.evntParent = some o) +
        [newEvent o name none].countP fun e => e.evntParent = some o : Nat)
      rw [hz]
      rfl
  · intro e he
    obtain he | he := mem_append.1 he
    · exact h.queues e he
    · obtain rfl := mem_singleton.1 he
      change Perm [] ((keys.filter fun k => k.2 = o).map Prod.fst)
      rw [h.not_key ho]
      exact Perm.refl _
  · intro k hk
    obtain ⟨e, he, heo, hep⟩ := h.targets k hk
    exact ⟨e, mem_append_left _ he, heo, hep⟩

variable {p : Nat} {n : Int}

theorem map_updateEvent_addCount {β : Type*} (φ : Evnt → β) (hφ : ∀ e, φ (addCount n e) = φ e) :
    (updateEvent events p (addCount n)).map φ = events.map φ := by
  unfold updateEvent
  rw [map_map]
  refine map_congr_left fun e _ => ?_
  simp only [comp_apply]
  split_ifs
  · exact hφ e
  · rfl

theorem countP_updateEvent_addCount :
    ((updateEvent events p (addCount n)).countP fun e => e.evntParent = some o) =
      events.countP fun e => e.evntParent = some o := by
  have hmap : (updateEvent events p (addCount n)).map Evnt.evntParent = events.map
    Evnt.evntParent :=
    map_updateEvent_addCount Evnt.evntParent fun _ => rfl
  have h := congrArg (List.countP fun x => x = some o) hmap
  simpa [comp_def] using h

theorem mem_updateEvent_of_mem (he : e ∈ events) :
    ∃ e' ∈ updateEvent events p (addCount n), e'.offset = e.offset ∧
      e'.evntParent = e.evntParent ∧ e'.evntName = e.evntName ∧
      e'.evntInterests = e.evntInterests ∧
      e'.evntCount = if e.offset = p then e.evntCount + n else e.evntCount := by
  refine ⟨_, mem_updateEvent.2 ⟨e, he, rfl⟩, ?_⟩
  split_ifs <;> exact ⟨rfl, rfl, rfl, rfl, rfl⟩

theorem of_mem_updateEvent (he' : e' ∈ updateEvent events p (addCount n)) :
    ∃ e ∈ events, e'.offset = e.offset ∧ e'.evntParent = e.evntParent ∧ e'.evntName = e.evntName ∧
      e'.evntInterests = e.evntInterests ∧
      e'.evntCount = if e.offset = p then e.evntCount + n else e.evntCount := by
  obtain ⟨e, he, rfl⟩ := mem_updateEvent.1 he'
  refine ⟨e, he, ?_⟩
  split_ifs <;> exact ⟨rfl, rfl, rfl, rfl, rfl⟩

theorem Linked.makeChild (h : Linked events keys) {q : Evnt}
    (hq : q ∈ events) (hqp : q.evntParent = none)
    (hf : findEvent events name (some q.offset) = none) (ho : o ∉ events.map Evnt.offset) :
    Linked (makeEvent events o name (some q.offset)) keys := by
  refine ⟨?_, ?_, ?_, ?_, h.interests, ?_, ?_⟩
  · rw [makeEvent, map_updateEvent_addCount _ fun _ => rfl]
    simpa [newEvent, nodup_append] using ⟨h.offsets, by simpa using ho⟩
  · have hn := findEvent_eq_none hf
    rw [makeEvent, map_updateEvent_addCount (fun e => (e.evntParent, e.evntName)) fun _ => rfl,
      map_append, nodup_append]
    refine ⟨h.names, nodup_singleton _, fun a ha b hb => ?_⟩
    rintro rfl
    simp only [map_cons, map_nil, mem_singleton] at hb
    exact hn (hb ▸ ha)
  · intro e' he' p hp
    obtain ⟨e, he, _, hep, _⟩ := of_mem_updateEvent he'
    rw [hep] at hp
    have hex : ∃ q' ∈ events, q'.offset = p ∧ q'.evntParent = none := by
      obtain he | he := mem_append.1 he
      · exact h.parents e he p hp
      · obtain rfl := mem_singleton.1 he
        exact ⟨q, hq, Option.some.inj hp, hqp⟩
    obtain ⟨q', hq', hqo', hqp'⟩ := hex
    obtain ⟨r, hr, hro, hrp, _⟩ := mem_updateEvent_of_mem (mem_append_left _ hq')
    exact ⟨r, hr, hro.trans hqo', hrp.trans hqp'⟩
  · intro r' hr' hp
    obtain ⟨r, hr, hro, hrp, _, _, hrc⟩ := of_mem_updateEvent hr'
    rw [hrp] at hp
    obtain hr | hr := mem_append.1 hr
    · rw [makeEvent, countP_updateEvent_addCount, countP_append, hro, hrc]
      by_cases heq : r.offset = q.offset
      · simp [newEvent, heq, h.counts r hr hp]
      · simp [newEvent, heq, Ne.symm heq, h.counts r hr hp]
    · obtain rfl := mem_singleton.1 hr
      cases hp
  · intro e' he'
    obtain ⟨e, he, heo, _, _, hei, _⟩ := of_mem_updateEvent he'
    rw [hei, heo]
    obtain he | he := mem_append.1 he
    · exact h.queues e he
    · obtain rfl := mem_singleton.1 he
      change Perm [] ((keys.filter fun k => k.2 = o).map Prod.fst)
      rw [h.not_key ho]
      exact Perm.refl _
  · intro k hk
    obtain ⟨e, he, heo, hep⟩ := h.targets k hk
    obtain ⟨e', he', heo', hep', _⟩ := mem_updateEvent_of_mem (mem_append_left _ he)
    exact ⟨e', he', heo'.trans heo, by rwa [hep']⟩

theorem nodup_map_filter {β : Type*} {φ : Evnt → β} {c : Evnt → Bool} (h : (events.map φ).Nodup) :
    ((events.filter c).map φ).Nodup :=
  h.sublist (filter_sublist.map φ)

theorem Linked.dropChild (h : Linked events keys) (he : e ∈ events)
    (hp : e.evntParent = some p) (hi : e.evntInterests = []) :
    Linked (updateEvent (events.filter fun e' => e'.offset ≠ e.offset) p (addCount (-1))) keys := by
  have hmem : ∀ e', e' ∈ (events.filter fun e' => e'.offset ≠ e.offset) ↔
      e' ∈ events ∧ e'.offset ≠ e.offset := by simp
  obtain ⟨l₁, l₂, hl, _, hfilter⟩ := Keyed.exists_split h.offsets he
  have hcount : ∀ o, (events.countP fun e' => e'.evntParent = some o) =
      ((events.filter fun e' => e'.offset ≠ e.offset).countP fun e' => e'.evntParent = some o) +
        if p = o then 1 else 0 := by
    intro o
    rw [hfilter]
    conv_lhs => rw [hl]
    simp only [countP_append, countP_cons, hp, Option.some.injEq, decide_eq_true_eq]
    omega
  refine ⟨?_, ?_, ?_, ?_, h.interests, ?_, ?_⟩
  · rw [map_updateEvent_addCount _ fun _ => rfl]
    exact nodup_map_filter h.offsets
  · rw [map_updateEvent_addCount (fun e => (e.evntParent, e.evntName)) fun _ => rfl]
    exact nodup_map_filter h.names
  · intro e' he' p' hp'
    obtain ⟨d, hd, _, hdp, _⟩ := of_mem_updateEvent he'
    rw [hdp] at hp'
    obtain ⟨q, hq, hqo, hqp⟩ := h.parents d ((hmem d).1 hd).1 p' hp'
    have hne : q.offset ≠ e.offset := by
      intro heq
      rw [h.eq_of_offset hq he heq, hp] at hqp
      cases hqp
    obtain ⟨r, hr, hro, hrp, _⟩ := mem_updateEvent_of_mem ((hmem q).2 ⟨hq, hne⟩)
    exact ⟨r, hr, hro.trans hqo, hrp.trans hqp⟩
  · intro r' hr' hrp'
    obtain ⟨r, hr, hro, hrp, _, _, hrc⟩ := of_mem_updateEvent hr'
    rw [hrp] at hrp'
    rw [countP_updateEvent_addCount, hro, hrc]
    have hc := h.counts r ((hmem r).1 hr).1 hrp'
    have hc' := hcount r.offset
    by_cases heq : r.offset = p
    · rw [if_pos heq.symm] at hc'
      omega
    · rw [if_neg (Ne.symm heq)] at hc'
      omega
  · intro e' he'
    obtain ⟨d, hd, hdo, _, _, hdi, _⟩ := of_mem_updateEvent he'
    rw [hdi, hdo]
    exact h.queues d ((hmem d).1 hd).1
  · intro k hk
    obtain ⟨d, hd, hdo, hdp⟩ := h.targets k hk
    have hne : d.offset ≠ e.offset := by
      intro heq
      have hq := (h.mem_queue he (i := k.1)).2 (by rw [← heq, hdo]; exact hk)
      rw [hi] at hq
      cases hq
    obtain ⟨d', hd', hdo', hdp', _⟩ := mem_updateEvent_of_mem ((hmem d).2 ⟨hd, hne⟩)
    exact ⟨d', hd', hdo'.trans hdo, by rwa [hdp']⟩

theorem Linked.dropParent (h : Linked events keys) {q : Evnt} (hq : q ∈ events)
    (hp : q.evntParent = none) (hc : q.evntCount = 0) :
    Linked (events.filter fun e => e.offset ≠ q.offset) keys := by
  have hmem : ∀ e, e ∈ (events.filter fun e => e.offset ≠ q.offset) ↔
      e ∈ events ∧ e.offset ≠ q.offset := by simp
  have hnone : ∀ e ∈ events, e.evntParent ≠ some q.offset := by
    have hz := h.counts q hq hp
    have hz' : (events.countP fun e => e.evntParent = some q.offset) = 0 := by omega
    simpa using hz'
  refine ⟨nodup_map_filter h.offsets, nodup_map_filter h.names, ?_, ?_, h.interests, ?_, ?_⟩
  · intro e he p hep
    obtain ⟨r, hr, hro, hrp⟩ := h.parents e ((hmem e).1 he).1 p hep
    refine ⟨r, (hmem r).2 ⟨hr, fun heq => ?_⟩, hro, hrp⟩
    exact hnone e ((hmem e).1 he).1 (by rw [hep, ← hro, heq])
  · intro r hr hrp
    rw [h.counts r ((hmem r).1 hr).1 hrp, countP_filter]
    congr 1
    refine countP_congr fun e he => ?_
    simp only [decide_eq_true_eq, Bool.and_eq_true, iff_self_and]
    intro hep heq
    rw [h.eq_of_offset he hq heq, hp] at hep
    cases hep
  · exact fun e he => h.queues e ((hmem e).1 he).1
  · intro k hk
    obtain ⟨e, he, heo, hep⟩ := h.targets k hk
    refine ⟨e, (hmem e).2 ⟨he, fun heq => hep ?_⟩, heo, hep⟩
    rw [h.eq_of_offset he hq heq, hp]

theorem Linked.deleteEvent (h : Linked events keys) (he : e ∈ events)
    (hp : e.evntParent ≠ none) (hi : e.evntInterests = []) :
    Linked (deleteEvent events e) keys := by
  obtain ⟨p, hp⟩ := Option.ne_none_iff_exists'.1 hp
  have hdrop := h.dropChild he hp hi
  unfold Event.deleteEvent
  rw [hp]
  dsimp only
  split_ifs with hz
  · obtain ⟨q, hq, hqo, hqp⟩ := h.parents e he p hp
    have hne : q.offset ≠ e.offset := by
      intro heq
      rw [h.eq_of_offset hq he heq, hp] at hqp
      cases hqp
    have hq' : q ∈ events.filter fun e' => e'.offset ≠ e.offset :=
      mem_filter.2 ⟨hq, by simpa using hne⟩
    obtain ⟨r, hr, hro, hrp, _⟩ := mem_updateEvent_of_mem (p := p) (n := -1) hq'
    have hrp' : r.offset = p := hro.trans hqo
    rw [← hrp', eventCount_eq (hrp' ▸ hdrop.offsets) (hrp' ▸ hr)] at hz
    rw [← hrp'] at hdrop ⊢
    exact hdrop.dropParent (hrp' ▸ hr) (hrp.trans hqp) hz
  · exact hdrop

end Firebird.Jrd.Event
