import Firebird.Jrd.EventFollows

/-!
# No lost notification

A watcher thread that waits has left no completed request of its process, unless the event of the
process has been posted again. What can go wrong is the end of a purged session, which ends the
delivery although sessions after it have not been looked at.
-/
namespace Firebird.Jrd.Event

open Lib List

variable {evh evh' : Evh}

/-- The sessions whose requests a watcher thread is still going to look at. -/
def Pc.Covers : Pc → Nat → Prop
  | .top, _ | .cleared, _ => True
  | .callback c, session => c ≤ session
  | .delivered, _ | .waiting, _ => False

/-- What every step keeps: a session delivers while its watcher thread is in the call of a client,
and a completed request of a process asleep is one that its watcher thread will look at. -/
structure Watched (σ : Region) : Prop where
  tidy : Tidy σ.evh
  processes : ∀ p ∈ σ.evh.evhProcesses, p.offset < σ.evh.evhFree
  fresh : ∀ o, σ.evh.evhFree ≤ o → σ.pc o = .top
  callback : ∀ o c, σ.pc o = .callback c →
    ∃ s ∈ σ.evh.evhSessions, s.offset = c ∧ s.sesProcess = o ∧ s.delivering = true
  delivering : ∀ s ∈ σ.evh.evhSessions, s.delivering = true → σ.pc s.sesProcess = .callback s.offset
  purge : ∀ s ∈ σ.evh.evhSessions, s.purge = true → s.delivering = true
  told : ∀ p ∈ σ.evh.evhProcesses, p.Asleep → ∀ s r, Owed σ.evh p.offset s r →
    (σ.pc p.offset).Covers s.offset

variable {σ : Region} {o c : Nat}

theorem watched_initialRegion : Watched initialRegion where
  tidy := tidy_initialEvh
  processes := fun _ hp => absurd hp not_mem_nil
  fresh := fun _ _ => rfl
  callback := fun _ _ h => nomatch h
  delivering := fun _ hs => absurd hs not_mem_nil
  purge := fun _ hs => absurd hs not_mem_nil
  told := fun _ hp => absurd hp not_mem_nil

theorem Watched.follows (h : Watched σ) (hf : Follows σ.evh evh') :
    Watched { σ with evh := evh' } where
  tidy := hf.tidy
  processes := by
    intro p' hp'
    obtain ⟨heq, hlt⟩ | ⟨p, hp, heq, _⟩ := hf.processes p' hp'
    · exact heq ▸ hlt
    · exact heq ▸ Nat.lt_of_lt_of_le (h.processes p hp) hf.free_le
  fresh := fun o ho => h.fresh o (Nat.le_trans hf.free_le ho)
  callback := by
    intro o c hpc
    obtain ⟨s, hs, hso, hsp, hd⟩ := h.callback o c hpc
    obtain ⟨s', hs', ho, hp, hd', _⟩ := hf.flags.stay s hs hd
    exact ⟨s', hs', ho.symm.trans hso, hp.symm.trans hsp, hd'.symm.trans hd⟩
  delivering := by
    intro s' hs' hd'
    obtain ⟨hd, _⟩ | ⟨s, hs, ho, hp, hd, _⟩ := hf.flags.back s' hs'
    · rw [hd] at hd'
      cases hd'
    · rw [← ho, ← hp]
      exact h.delivering s hs (hd.trans hd')
  purge := by
    intro s' hs' hp'
    obtain ⟨_, hp⟩ | ⟨s, hs, _, _, hd, hp⟩ := hf.flags.back s' hs'
    · rw [hp] at hp'
      cases hp'
    · rw [← hd]
      exact (hp hp').elim (h.purge s hs) id
  told := by
    intro p' hp' hasleep s' r how
    obtain ⟨heq, _⟩ | ⟨p, hp, heq, hasleep'⟩ := hf.processes p' hp'
    · have htop : σ.pc p'.offset = .top := h.fresh _ (Nat.le_of_eq heq.symm)
      rw [show ({ σ with evh := evh' } : Region).pc p'.offset = .top from htop]
      trivial
    · obtain ⟨s, how', hso⟩ := hf.requests p' hp' hasleep s' r how
      rw [← heq] at how' ⊢
      rw [← hso]
      exact h.told p hp (hasleep' hasleep) s r how'

@[simp] theorem go_evh (σ : Region) (o : Nat) (r : Evh × Pc) : (σ.go o r).evh = r.1 := rfl

@[simp] theorem go_pc (σ : Region) (o : Nat) (r : Evh × Pc) : (σ.go o r).pc o = r.2 := by
  simp [Region.go]

theorem go_pc_of_ne (σ : Region) {o o' : Nat} (h : o' ≠ o) (r : Evh × Pc) :
    (σ.go o r).pc o' = σ.pc o' := by
  simp [Region.go, h]

@[simp] theorem go_go (σ : Region) (o : Nat) (r r' : Evh × Pc) :
    (σ.go o r).go o r' = σ.go o r' := by
  unfold Region.go
  rw [Function.update_idem]

theorem Watched.go_of_processes (h : Watched σ) {evh' : Evh} {pc' : Pc} {f : Prb → Prb}
    (hevh : evh' = { σ.evh with evhProcesses := updateProcess σ.evh.evhProcesses o f })
    (hf : ∀ p, (f p).offset = p.offset) (ho : o < σ.evh.evhFree)
    (hpc : ∀ c, σ.pc o ≠ .callback c) (hpc' : ∀ c, pc' ≠ .callback c)
    (htold : ∀ p ∈ σ.evh.evhProcesses, p.offset = o → (f p).Asleep → ∀ s r, Owed σ.evh o s r →
      pc'.Covers s.offset) : Watched (σ.go o (evh', pc')) := by
  have htidy : Tidy evh' := (h.tidy.congr (by rw [hevh]) (by rw [hevh])
    (Nat.le_of_eq (by rw [hevh]))).1
  subst hevh
  refine ⟨htidy, ?_, ?_, ?_, ?_, h.purge, ?_⟩
  · intro p' hp'
    obtain ⟨p, hp, rfl⟩ := mem_map.1 hp'
    have := h.processes p hp
    split_ifs
    · rw [hf]
      exact this
    · exact this
  · intro o' ho'
    have hne : o' ≠ o := fun heq => by
      subst heq
      exact absurd ho (Nat.not_lt.2 ho')
    rw [go_pc_of_ne _ hne]
    exact h.fresh o' ho'
  · intro o' c hc
    by_cases heq : o' = o
    · rw [heq, go_pc] at hc
      exact absurd hc (hpc' c)
    · rw [go_pc_of_ne _ heq] at hc
      exact h.callback o' c hc
  · intro s hs hd
    have hs' := h.delivering s hs hd
    have hne : s.sesProcess ≠ o := fun heq => hpc s.offset (heq ▸ hs')
    rw [go_pc_of_ne _ hne]
    exact hs'
  · intro p' hp' hasleep s r how
    obtain ⟨p, hp, rfl⟩ := mem_map.1 hp'
    by_cases heq : p.offset = o
    · rw [if_pos heq] at hasleep how ⊢
      rw [hf, heq] at how ⊢
      rw [go_pc]
      exact htold p hp heq hasleep s r how
    · rw [if_neg heq] at hasleep how ⊢
      rw [go_pc_of_ne _ heq]
      exact h.told p hp hasleep s r how

variable {p : Nat} {s : Ses} {r : EvtReq}

theorem owed_updateFlags {f : Ses → Ses}
    (hf : ∀ s, (f s).offset = s.offset ∧ (f s).sesProcess = s.sesProcess ∧
      (f s).sesRequests = s.sesRequests)
    (h : Owed { evh with evhSessions := updateSession evh.evhSessions c f } p s r) :
    ∃ s₀, Owed evh p s₀ r ∧ s₀.offset = s.offset := by
  obtain ⟨hs, hp, hr, hc⟩ := h
  obtain ⟨s₀, hs₀, rfl⟩ := mem_map.1 hs
  refine ⟨s₀, ⟨hs₀, ?_, ?_, hc⟩, ?_⟩
  · split_ifs at hp
    · rw [← hp, (hf s₀).2.1]
    · exact hp
  · split_ifs at hr
    · rwa [(hf s₀).2.2] at hr
    · exact hr
  · split_ifs
    · exact (hf s₀).1.symm
    · rfl

theorem Watched.start (h : Watched σ) (hpc : σ.pc o = .cleared) (ho : o < σ.evh.evhFree)
    (hs : s ∈ σ.evh.evhSessions) (hso : s.sesProcess = o)
    (htold : ∀ p ∈ σ.evh.evhProcesses, p.offset = o → p.Asleep → ∀ t r, Owed σ.evh o t r →
      s.offset ≤ t.offset) :
    Watched (σ.go o (startDelivering σ.evh s.offset, .callback s.offset)) := by
  refine ⟨(h.tidy.startDelivering s.offset).1, h.processes, ?_, ?_, ?_, ?_, ?_⟩
  · intro o' ho'
    have hne : o' ≠ o := fun heq => absurd (heq ▸ ho) (Nat.not_lt.2 ho')
    rw [go_pc_of_ne _ hne]
    exact h.fresh o' ho'
  · intro o' c hc
    by_cases heq : o' = o
    · rw [heq, go_pc] at hc
      cases hc
      refine ⟨_, mem_map.2 ⟨s, hs, if_pos rfl⟩, rfl, hso.trans heq.symm, rfl⟩
    · rw [go_pc_of_ne _ heq] at hc
      obtain ⟨t, ht, hto, htp, hd⟩ := h.callback o' c hc
      refine ⟨_, mem_map.2 ⟨t, ht, rfl⟩, ?_⟩
      split_ifs
      · exact ⟨hto, htp, rfl⟩
      · exact ⟨hto, htp, hd⟩
  · intro t' ht' hd
    obtain ⟨t, ht, rfl⟩ := mem_map.1 ht'
    by_cases heq : t.offset = s.offset
    · have hts : t = s := inj_on_of_nodup_map h.tidy.offsets ht hs heq
      rw [if_pos heq, hts]
      rw [hso, go_pc]
    · rw [if_neg heq] at hd ⊢
      have hpc' := h.delivering t ht hd
      have hne : t.sesProcess ≠ o := fun heq' => by
        rw [heq', hpc] at hpc'
        cases hpc'
      rw [go_pc_of_ne _ hne]
      exact hpc'
  · intro t' ht' hp
    obtain ⟨t, ht, rfl⟩ := mem_map.1 ht'
    split_ifs at hp ⊢
    · rfl
    · exact h.purge t ht hp
  · intro p hp hasleep t r how
    obtain ⟨t₀, how₀, hto⟩ := owed_updateFlags (c := s.offset)
      (f := fun s => { s with delivering := true }) (fun _ => ⟨rfl, rfl, rfl⟩) how
    rw [← hto]
    by_cases heq : p.offset = o
    · rw [heq] at how₀ ⊢
      rw [go_pc]
      exact htold p hp heq hasleep t₀ r how₀
    · rw [go_pc_of_ne _ heq]
      exact h.told p hp hasleep t₀ r how₀

def clearDelivering (evh : Evh) (session : Nat) : Evh :=
  { evh with
    evhSessions := updateSession evh.evhSessions session fun s => { s with delivering := false } }

theorem Tidy.clearDelivering (h : Tidy evh) (session : Nat) :
    Tidy (clearDelivering evh session) ∧ Steady evh (Event.clearDelivering evh session) :=
  h.updateFlags (o := session) (f := fun s => { s with delivering := false }) rfl rfl rfl
    fun _ => ⟨rfl, rfl, rfl, rfl⟩

theorem owed_clearDelivering
    (h : Owed (clearDelivering evh c) p s r) : ∃ s₀, Owed evh p s₀ r ∧ s₀.offset = s.offset :=
  owed_updateFlags (c := c) (f := fun s => { s with delivering := false })
    (fun _ => ⟨rfl, rfl, rfl⟩) h

theorem Watched.finish (h : Watched σ) (hpc : σ.pc o = .callback c)
    (hpurge : ∀ s ∈ σ.evh.evhSessions, s.offset = c → s.purge = false) :
    Watched (σ.go o (clearDelivering σ.evh c, .cleared)) := by
  obtain ⟨s, hs, hso, hsp, hd⟩ := h.callback o c hpc
  refine ⟨(h.tidy.clearDelivering c).1, h.processes, ?_, ?_, ?_, ?_, ?_⟩
  · intro o' ho'
    have hne : o' ≠ o := fun heq => by
      have := h.fresh o' ho'
      rw [heq, hpc] at this
      cases this
    rw [go_pc_of_ne _ hne]
    exact h.fresh o' ho'
  · intro o' c' hc'
    by_cases heq : o' = o
    · rw [heq, go_pc] at hc'
      cases hc'
    · rw [go_pc_of_ne _ heq] at hc'
      obtain ⟨t, ht, hto, htp, hd'⟩ := h.callback o' c' hc'
      have hne : t.offset ≠ c := fun heq' => by
        have hts : t = s := inj_on_of_nodup_map h.tidy.offsets ht hs (heq'.trans hso.symm)
        exact heq (by rw [← htp, ← hsp, hts])
      exact ⟨t, mem_map.2 ⟨t, ht, if_neg hne⟩, hto, htp, hd'⟩
  · intro t' ht' hd'
    obtain ⟨t, ht, rfl⟩ := mem_map.1 ht'
    by_cases heq : t.offset = c
    · rw [if_pos heq] at hd'
      cases hd'
    · rw [if_neg heq] at hd' ⊢
      have hpc' := h.delivering t ht hd'
      have hne : t.sesProcess ≠ o := fun heq' => by
        rw [heq', hpc] at hpc'
        exact heq (Pc.callback.inj hpc').symm
      rw [go_pc_of_ne _ hne]
      exact hpc'
  · intro t' ht' hp
    obtain ⟨t, ht, rfl⟩ := mem_map.1 ht'
    by_cases heq : t.offset = c
    · rw [if_pos heq] at hp
      exact absurd hp (by rw [show ({ t with delivering := false } : Ses).purge = t.purge from rfl,
        hpurge t ht heq]; simp)
    · rw [if_neg heq] at hp ⊢
      exact h.purge t ht hp
  · intro p hp hasleep t r how
    by_cases heq : p.offset = o
    · rw [heq, go_pc]
      trivial
    · obtain ⟨t₀, how₀, hto⟩ := owed_clearDelivering how
      rw [← hto, go_pc_of_ne _ heq]
      exact h.told p hp hasleep t₀ r how₀

theorem Watched.lt_of_hasProcess (h : Watched σ) (ho : σ.evh.hasProcess o = true) :
    o < σ.evh.evhFree := by
  obtain ⟨p, hp, heq⟩ := any_eq_true.1 ho
  have heq : p.offset = o := by simpa using heq
  exact heq ▸ h.processes p hp

theorem Watched.lt_of_callback (h : Watched σ) (hpc : σ.pc o = .callback c) :
    o < σ.evh.evhFree := by
  by_contra hle
  have := h.fresh o (Nat.not_lt.1 hle)
  rw [hpc] at this
  cases this

theorem session_of_mem (h : Tidy evh) (hs : s ∈ evh.evhSessions) : evh.session s.offset = some s :=
  Keyed.find?_eq h.offsets hs

theorem purged_eq (h : Tidy evh) (hs : s ∈ evh.evhSessions) : purged evh s.offset = s.purge := by
  unfold purged
  rw [session_of_mem h hs]
  rfl

theorem not_owed_of_completedRequest (h : Tidy evh) (hc : completedRequest evh c = none)
    (how : Owed evh p s r) : s.offset ≠ c := by
  rintro rfl
  unfold completedRequest at hc
  rw [session_of_mem h how.1] at hc
  have hnone := find?_eq_none.1 (Option.map_eq_none_iff.1 hc) r how.2.2.1
  exact hnone how.2.2.2

theorem of_completedRequest (hc : completedRequest evh c = some (s, r)) :
    s ∈ evh.evhSessions ∧ r ∈ s.sesRequests := by
  unfold completedRequest at hc
  split at hc
  · cases hc
  · rename_i hs
    obtain ⟨q, hq, heq⟩ := Option.map_eq_some_iff.1 hc
    cases heq
    exact ⟨(mem_of_session hs).1, mem_of_find?_eq_some hq⟩

theorem endDelivering_eq (h : Tidy evh) (hs : s ∈ evh.evhSessions) :
    endDelivering evh s.offset = if s.purge then deleteSession (clearDelivering evh s.offset)
      s.offset
      else clearDelivering evh s.offset := by
  have hsess : (clearDelivering evh s.offset).session s.offset =
      some { s with delivering := false } :=
    session_of_mem (h.clearDelivering s.offset).1 (mem_map.2 ⟨s, hs, if_pos rfl⟩)
  unfold endDelivering
  dsimp only
  rw [← clearDelivering, hsess]

theorem Watched.deliverRequests (h : Watched σ) (hpc : σ.pc o = .callback c)
    (hpurge : ∀ s ∈ σ.evh.evhSessions, s.offset = c → s.purge = false) (next : Evh → Evh × Pc)
    (hnext : Watched (σ.go o (clearDelivering σ.evh c, .cleared)) →
      completedRequest σ.evh c = none → Watched (σ.go o (next (clearDelivering σ.evh c)))) :
    Watched (σ.go o (deliverRequests next σ.evh c)) := by
  obtain ⟨s, hs, rfl, hsp, _⟩ := h.callback o c hpc
  unfold Event.deliverRequests
  cases hc : completedRequest σ.evh s.offset with
  | some sr =>
    obtain ⟨hs', hr'⟩ := of_completedRequest hc
    have hw := h.follows (h.tidy.follows_deleteRequest hs' hr')
    have heq : σ.go o (Event.deleteRequest σ.evh sr.1 sr.2, .callback s.offset) =
        { σ with evh := Event.deleteRequest σ.evh sr.1 sr.2 } := by
      unfold Region.go
      rw [← hpc, Function.update_eq_self]
    change Watched (σ.go o (Event.deleteRequest σ.evh sr.1 sr.2, .callback s.offset))
    rw [heq]
    exact hw
  | none =>
    have hp := hpurge s hs rfl
    unfold endSession
    rw [purged_eq h.tidy hs, endDelivering_eq h.tidy hs, hp]
    exact hnext (h.finish hpc hpurge) hc

theorem Watched.deliverSessions {rest : List Nat} :
    ∀ {σ : Region}, Watched σ → σ.pc o = .cleared → o < σ.evh.evhFree →
      (∀ c ∈ rest, ∃ s ∈ σ.evh.evhSessions, s.offset = c ∧ s.sesProcess = o) →
      rest.Pairwise (· < ·) →
      (∀ p ∈ σ.evh.evhProcesses, p.offset = o → p.Asleep → ∀ s r, Owed σ.evh o s r →
        s.offset ∈ rest) →
      Watched (σ.go o (deliverSessions rest σ.evh)) := by
  induction rest with
  | nil =>
    intro σ h hpc ho _ _ htold
    refine h.go_of_processes (f := id) ?_ (fun _ => rfl) ho (fun c => by rw [hpc]; nofun) nofun
      fun p hp heq hasleep s r how => absurd (htold p hp heq hasleep s r how) not_mem_nil
    have hid : updateProcess σ.evh.evhProcesses o id = σ.evh.evhProcesses := by
      unfold updateProcess
      simp
    rw [hid]
  | cons c rest ih =>
    intro σ h hpc ho hmem hsorted htold
    obtain ⟨s, hs, rfl, hsp⟩ := hmem c mem_cons_self
    obtain ⟨hlt, hsorted⟩ := pairwise_cons.1 hsorted
    have hstart := h.start hpc ho hs hsp fun p hp heq hasleep t r how => by
      obtain heq' | ht := mem_cons.1 (htold p hp heq hasleep t r how)
      · exact Nat.le_of_eq heq'.symm
      · exact Nat.le_of_lt (hlt _ ht)
    have hpurge : ∀ t ∈ (Event.startDelivering σ.evh s.offset).evhSessions, t.offset = s.offset →
        t.purge = false := by
      intro t' ht' hto
      obtain ⟨t, ht, rfl⟩ := mem_map.1 ht'
      have hts : t = s := inj_on_of_nodup_map h.tidy.offsets ht hs (by
        split_ifs at hto <;> exact hto)
      rw [hts, if_pos rfl]
      by_contra hp
      have hd := h.delivering s hs (h.purge s hs (by simpa using hp))
      rw [hsp, hpc] at hd
      cases hd
    have hrun := hstart.deliverRequests (go_pc _ _ _) hpurge (Event.deliverSessions rest)
      fun hw hnone => by
        rw [← go_go _ o (clearDelivering _ s.offset, .cleared)]
        refine ih hw (go_pc _ _ _) ho (fun c' hc' => ?_) hsorted fun p hp heq hasleep t r how => ?_
        · obtain ⟨t, ht, hto, htp⟩ := hmem c' (mem_cons_of_mem _ hc')
          refine ⟨_, mem_map.2 ⟨_, mem_map.2 ⟨t, ht, rfl⟩, rfl⟩, ?_⟩
          split_ifs <;> exact ⟨hto, htp⟩
        · obtain ⟨t₁, how₁, hto₁⟩ := owed_clearDelivering how
          have hne := not_owed_of_completedRequest hstart.tidy hnone how₁
          obtain ⟨t₀, how₀, hto₀⟩ := owed_updateFlags (c := s.offset)
            (f := fun s => { s with delivering := true }) (fun _ => ⟨rfl, rfl, rfl⟩) how₁
          have hrest := htold p hp heq hasleep t₀ r how₀
          rw [hto₀, hto₁] at hrest
          exact (mem_cons.1 hrest).resolve_left fun heq => hne (hto₁.trans heq)
    rw [go_go] at hrun
    exact hrun

theorem mem_tail_dropWhile {l : List Nat} {c x : Nat} (hl : l.Pairwise (· < ·)) (hc : c ∈ l)
    (hx : x ∈ l) (hlt : c < x) : x ∈ (l.dropWhile (· ≠ c)).tail := by
  obtain ⟨l₁, l₂, rfl⟩ := append_of_mem hc
  obtain ⟨_, hl₂, hcross⟩ := pairwise_append.1 hl
  have hne : ∀ y ∈ l₁, decide (y ≠ c) = true := fun y hy => by
    have := hcross y hy c mem_cons_self
    simpa using Nat.ne_of_lt this
  rw [dropWhile_append_of_pos hne, dropWhile_cons_of_neg (by simp)]
  obtain hx | hx := mem_append.1 hx
  · exact absurd (hcross x hx c mem_cons_self) (by omega)
  · exact (mem_cons.1 hx).resolve_left (by omega)

theorem mem_sessionsOf {x : Nat} : x ∈ sessionsOf evh o ↔
    ∃ s ∈ evh.evhSessions, s.offset = x ∧ s.sesProcess = o := by
  simp only [sessionsOf, mem_map, mem_filter, decide_eq_true_iff]
  exact ⟨fun ⟨s, ⟨hs, hp⟩, ho⟩ => ⟨s, hs, ho, hp⟩, fun ⟨s, hs, ho, hp⟩ => ⟨s, ⟨hs, hp⟩, ho⟩⟩

theorem Tidy.sessionsOf_sorted (h : Tidy evh) : (sessionsOf evh o).Pairwise (· < ·) :=
  h.sorted.sublist (filter_sublist.map Ses.offset)

theorem not_mem_deleteSession (hs : evh.session s.offset = some s)
    (hd : s.delivering = false) : ∀ s' ∈ (deleteSession evh s.offset).evhSessions,
      s'.offset ≠ s.offset := by
  unfold deleteSession
  rw [hs]
  dsimp only
  rw [if_neg (by rw [hd]; simp)]
  intro s' hs'
  simpa using (mem_filter.1 hs').2

theorem Watched.resume (h : Watched σ) (hpc : σ.pc o = .callback c)
    (hpurge : purged σ.evh c = false) : Watched (σ.go o (resumeDeliver σ.evh o c)) := by
  obtain ⟨s, hs, rfl, hsp, _⟩ := h.callback o c hpc
  have hp : s.purge = false := (purged_eq h.tidy hs).symm.trans hpurge
  unfold resumeDeliver
  rw [if_neg (by rw [hpurge]; simp)]
  refine h.deliverRequests hpc (fun t ht hto => ?_) _ fun hw hnone => ?_
  · rw [inj_on_of_nodup_map h.tidy.offsets ht hs hto]
    exact hp
  · have hsorted := hw.tidy.sessionsOf_sorted (o := o)
    have hmem : ∀ x ∈ nextSessions (clearDelivering σ.evh s.offset) o s.offset,
        ∃ t ∈ (clearDelivering σ.evh s.offset).evhSessions, t.offset = x ∧ t.sesProcess = o :=
      fun x hx => mem_sessionsOf.1 ((dropWhile_suffix _).subset (mem_of_mem_tail hx))
    have hcur : s.offset ∈ sessionsOf (clearDelivering σ.evh s.offset) o :=
      mem_sessionsOf.2 ⟨_, mem_map.2 ⟨s, hs, if_pos rfl⟩, rfl, hsp⟩
    rw [← go_go _ o (clearDelivering _ s.offset, .cleared)]
    refine Watched.deliverSessions hw (go_pc _ _ _) (h.lt_of_callback hpc) hmem
      (hsorted.sublist ((tail_sublist _).trans (dropWhile_sublist _)))
      fun p hp heq hasleep t r how => ?_
    obtain ⟨t₀, how₀, hto⟩ := owed_clearDelivering how
    have hne := not_owed_of_completedRequest h.tidy hnone how₀
    have hcov := h.told p hp hasleep t₀ r (heq ▸ how₀)
    rw [heq, hpc] at hcov
    have hle : s.offset ≤ t₀.offset := hcov
    refine mem_tail_dropWhile hsorted hcur (mem_sessionsOf.2 ⟨t, how.1, rfl, how.2.1⟩) ?_
    omega

theorem Watched.resume_purged (h : Watched σ) (hpc : σ.pc o = .callback c)
    (hpurge : purged σ.evh c = true)
    (htold : ∀ p ∈ σ.evh.evhProcesses, p.offset = o → p.Asleep → ∀ s r, Owed σ.evh o s r →
      s.offset ≤ c) : Watched (σ.go o (resumeDeliver σ.evh o c)) := by
  obtain ⟨s, hs, rfl, hsp, _⟩ := h.callback o c hpc
  have hp : s.purge = true := (purged_eq h.tidy hs).symm.trans hpurge
  obtain ⟨htidy, hev⟩ := h.tidy.endDelivering s.offset
  have hresume : resumeDeliver σ.evh o s.offset =
    (Event.endDelivering σ.evh s.offset, .delivered) := by
    unfold resumeDeliver endSession
    simp [hpurge]
  have hend : Event.endDelivering σ.evh s.offset =
      deleteSession (clearDelivering σ.evh s.offset) s.offset := by
    rw [endDelivering_eq h.tidy hs, if_pos hp]
  have hclear := (h.tidy.clearDelivering s.offset).1
  obtain ⟨hproc, hfree⟩ := deleteSession_processes (clearDelivering σ.evh s.offset) s.offset
  have hflags := hclear.flagsKept_deleteSession s.offset
  have hgone := not_mem_deleteSession
    (session_of_mem hclear (mem_map.2 ⟨s, hs, if_pos rfl⟩)) rfl
  rw [hresume]
  rw [hend] at htidy hev ⊢
  generalize deleteSession (clearDelivering σ.evh s.offset) s.offset = evh' at *
  have hback : ∀ s' ∈ evh'.evhSessions, (s'.delivering = false ∧ s'.purge = false) ∨
      ∃ t ∈ σ.evh.evhSessions, t.SameFlags s' := by
    intro s' hs'
    refine (hflags.back s' hs').imp_right fun ⟨t', ht', hsame⟩ => ?_
    obtain ⟨t, ht, rfl⟩ := mem_map.1 ht'
    have hne : t.offset ≠ s.offset := fun heq => hgone s' hs' (by
      rw [← hsame.1, if_pos heq, ← heq])
    rw [if_neg hne] at hsame
    exact ⟨t, ht, hsame⟩
  refine ⟨htidy, ?_, ?_, ?_, ?_, ?_, ?_⟩
  · change ∀ p ∈ evh'.evhProcesses, p.offset < evh'.evhFree
    rw [hproc, hfree]
    exact h.processes
  · intro o' ho'
    have ho' : σ.evh.evhFree ≤ o' := hfree ▸ ho'
    have hne : o' ≠ o := fun heq => absurd (h.lt_of_callback hpc) (Nat.not_lt.2 (heq ▸ ho'))
    rw [go_pc_of_ne _ hne]
    exact h.fresh o' ho'
  · intro o' c' hc'
    by_cases heq : o' = o
    · rw [heq, go_pc] at hc'
      cases hc'
    · rw [go_pc_of_ne _ heq] at hc'
      obtain ⟨t, ht, hto, htp, hd⟩ := h.callback o' c' hc'
      have hne : t.offset ≠ s.offset := fun heq' => by
        have hts : t = s := inj_on_of_nodup_map h.tidy.offsets ht hs heq'
        exact heq (by rw [← htp, ← hsp, hts])
      obtain ⟨t', ht', ho, hp', hd', _⟩ :=
        hflags.stay t (mem_map.2 ⟨t, ht, if_neg hne⟩) hd
      exact ⟨t', ht', ho.symm.trans hto, hp'.symm.trans htp, hd'.symm.trans hd⟩
  · intro s' hs' hd'
    obtain ⟨hd, _⟩ | ⟨t, ht, hto, htp, hd, _⟩ := hback s' hs'
    · rw [hd] at hd'
      cases hd'
    · have hpc' := h.delivering t ht (hd.trans hd')
      have hne : s'.sesProcess ≠ o := fun heq => by
        rw [htp, heq, hpc] at hpc'
        exact hgone s' hs' (hto.symm.trans (Pc.callback.inj hpc').symm)
      rw [go_pc_of_ne _ hne, ← htp, ← hto]
      exact hpc'
  · intro s' hs' hp'
    obtain ⟨_, hp⟩ | ⟨t, ht, _, _, hd, hpt⟩ := hback s' hs'
    · rw [hp] at hp'
      cases hp'
    · rw [← hd]
      exact (hpt hp').elim (h.purge t ht) id
  · intro p hpm hasleep s' r how
    have hpm : p ∈ σ.evh.evhProcesses := by
      have hpm : p ∈ evh'.evhProcesses := hpm
      rw [hproc] at hpm
      exact hpm
    have hlt : s'.offset < σ.evh.evhFree := hfree ▸ htidy.fresh.sessions s' how.1
    have hltr : r.offset < σ.evh.evhFree := hfree ▸ htidy.fresh.requests s' how.1 r how.2.2.1
    obtain ⟨t, how', hto⟩ := hev.owed h.tidy htidy how hlt hltr
    have hcov := h.told p hpm hasleep t r how'
    by_cases heq : p.offset = o
    · rw [heq] at how'
      rw [heq, hpc] at hcov
      have hle : s.offset ≤ t.offset := hcov
      have hge := htold p hpm heq hasleep t r how'
      exact absurd (show s'.offset = s.offset by omega) (hgone s' how.1)
    · rw [go_pc_of_ne _ heq, ← hto]
      exact hcov

/-- A watcher thread that is back from a client and finds the session purged leaves no completed
request in the sessions after it, unless the process is to be woken anyway. -/
def Region.Spares (σ : Region) : Step → Prop
  | .resume o => ∀ c, σ.pc o = .callback c → purged σ.evh c = true →
      ∀ p ∈ σ.evh.evhProcesses, p.offset = o → p.posted = false → p.wakeup = false →
      ∀ s ∈ σ.evh.evhSessions, s.offset ∈ nextSessions σ.evh o c →
      ∀ r ∈ s.sesRequests, requestCompleted σ.evh.evhEvents r = false
  | _ => True

inductive Reached (ok : Region → Step → Prop) : Region → Prop where
  | start : Reached ok initialRegion
  | step {σ : Region} {a : Step} : Reached ok σ → ok σ a → Reached ok (watch σ a)

/-- A process whose watcher thread waits and is not to be woken has no completed request. -/
def NoneLost (σ : Region) : Prop :=
  ∀ p ∈ σ.evh.evhProcesses, σ.pc p.offset = .waiting → p.posted = false →
    (∀ q ∈ σ.evh.evhProcesses, q.wakeup = false) →
    ∀ s ∈ σ.evh.evhSessions, s.sesProcess = p.offset →
    ∀ r ∈ s.sesRequests, requestCompleted σ.evh.evhEvents r = false

theorem Watched.noneLost (h : Watched σ) : NoneLost σ := by
  intro p hp hpc hposted hwakeup s hs hsp r hr
  by_contra hc
  have := h.told p hp ⟨hposted, hwakeup p hp⟩ s r ⟨hs, hsp, hr, by simpa using hc⟩
  rw [hpc] at this
  exact this

theorem Watched.watch (h : Watched σ) {a : Step} (hok : σ.Spares a) : Watched (watch σ a) := by
  cases a with
  | call c =>
    unfold Event.watch
    dsimp only
    split_ifs with hc
    · exact h.follows (h.tidy.follows_call hc)
    · exact h
  | clear o =>
    unfold Event.watch
    dsimp only
    split_ifs with hc
    · exact h.go_of_processes rfl (fun _ => rfl) (h.lt_of_hasProcess hc.1)
        (fun c => by rw [hc.2]; nofun) nofun fun _ _ _ _ _ _ _ => trivial
    · exact h
  | deliver o =>
    unfold Event.watch
    dsimp only
    split_ifs with hc
    · let evh₁ : Evh := { σ.evh with
        evhProcesses := updateProcess σ.evh.evhProcesses o fun p => { p with pending := false } }
      have hw : Watched (σ.go o (evh₁, .cleared)) :=
        h.go_of_processes rfl (fun _ => rfl) (h.lt_of_hasProcess hc.1)
          (fun c => by rw [hc.2]; nofun) nofun fun _ _ _ _ _ _ _ => trivial
      have hrun : Watched ((σ.go o (evh₁, .cleared)).go o
          (Event.deliverSessions (sessionsOf σ.evh o) evh₁)) :=
        Watched.deliverSessions hw (go_pc _ _ _) (h.lt_of_hasProcess hc.1)
          (fun c hc => mem_sessionsOf.1 hc) h.tidy.sessionsOf_sorted
          fun p _ _ _ s r how => mem_sessionsOf.2 ⟨s, how.1, rfl, how.2.1⟩
      rw [go_go] at hrun
      exact hrun
    · exact h
  | resume o =>
    unfold Event.watch
    dsimp only
    cases hpc : σ.pc o with
    | callback c =>
      cases hp : purged σ.evh c with
      | false => exact h.resume hpc hp
      | true =>
        refine h.resume_purged hpc hp fun p hpm heq hasleep s r how => ?_
        obtain ⟨t, ht, rfl, htp, _⟩ := h.callback o c hpc
        by_contra hlt
        have hnext : s.offset ∈ nextSessions σ.evh o t.offset :=
          mem_tail_dropWhile h.tidy.sessionsOf_sorted (mem_sessionsOf.2 ⟨t, ht, rfl, htp⟩)
            (mem_sessionsOf.2 ⟨s, how.1, rfl, how.2.1⟩) (Nat.not_le.1 hlt)
        have hfalse := hok t.offset hpc hp p hpm heq hasleep.1 hasleep.2 s how.1 hnext r how.2.2.1
        rw [how.2.2.2] at hfalse
        cases hfalse
    | top | cleared | delivered | waiting => exact h
  | wait o =>
    unfold Event.watch
    dsimp only
    split_ifs with hc
    · refine h.go_of_processes rfl (fun _ => rfl) (h.lt_of_hasProcess hc.1)
        (fun c => by rw [hc.2]; nofun) nofun fun p hp heq hasleep s r how => ?_
      have hcov := h.told p hp hasleep s r (heq ▸ how)
      rw [heq, hc.2] at hcov
      exact hcov
    · exact h
  | wake o =>
    unfold Event.watch
    dsimp only
    split_ifs with hc
    · have ho : σ.evh.hasProcess o = true := by
        obtain ⟨p, hp, heq⟩ := any_eq_true.1 hc.1
        have heq : p.offset = o ∧ p.posted = true := by simpa using heq
        exact any_eq_true.2 ⟨p, hp, by simpa using heq.1⟩
      exact h.go_of_processes rfl (fun _ => rfl) (h.lt_of_hasProcess ho)
        (fun c => by rw [hc.2]; nofun) nofun fun _ _ _ _ _ _ _ => trivial
    · exact h

theorem Reached.watched (h : Reached Region.Spares σ) : Watched σ := by
  induction h with
  | start => exact watched_initialRegion
  | step _ hok ih => exact ih.watch hok

/-- No notification is lost while no watcher thread leaves completed requests behind a session that
has been purged. -/
theorem no_lost_notification (h : Reached Region.Spares σ) : NoneLost σ :=
  h.watched.noneLost

/-- A session is told of an event and deleted while it is told. -/
def purgeSteps : List Step :=
  [.call .createProcess, .call (.createSession 1),
    .call (.que 2 [100] [{ name := [65], count := 1 }]), .call (.post [100] [65] 1), .call .deliver,
    .clear 1, .deliver 1, .call (.deleteSession 2)]

/-- The same with a second session, which waits for the same event. -/
def lostSteps : List Step :=
  [.call .createProcess, .call (.createSession 1), .call (.createSession 1),
    .call (.que 2 [100] [{ name := [65], count := 1 }]),
    .call (.que 3 [100] [{ name := [65], count := 1 }]), .call (.post [100] [65] 1), .call .deliver,
    .clear 1, .deliver 1, .call (.deleteSession 2), .resume 1, .wait 1]

theorem reached_foldl {ok : Region → Step → Prop} (steps : List Step)
    (hok : ∀ a ∈ steps, ∀ σ, ok σ a) (h : Reached ok σ) : Reached ok (steps.foldl watch σ) := by
  induction steps generalizing σ with
  | nil => exact h
  | cons a steps ih =>
    exact ih (fun b hb => hok b (mem_cons_of_mem _ hb)) (h.step (hok a mem_cons_self σ))

theorem no_lost_notification_purged :
    NoneLost (watch (watch (purgeSteps.foldl watch initialRegion) (.resume 1)) (.wait 1)) := by
  have hreached : Reached Region.Spares (purgeSteps.foldl watch initialRegion) :=
    reached_foldl purgeSteps (by simp [purgeSteps, Region.Spares]) .start
  have hspares : (purgeSteps.foldl watch initialRegion).Spares (.resume 1) := by
    intro c hc _ p _ _ _ _ s _ hnext
    have hc' : Pc.callback 2 = .callback c := hc
    cases hc'
    cases hnext
  exact no_lost_notification ((hreached.step hspares).step trivial)

/-- The watcher thread leaves the loop after the purged session, before it has looked at the second
one. -/
theorem lost_notification :
    Reached (fun _ _ => True) (lostSteps.foldl watch initialRegion) ∧
      ¬ NoneLost (lostSteps.foldl watch initialRegion) := by
  refine ⟨reached_foldl lostSteps (fun _ _ _ => trivial) .start, fun h => ?_⟩
  have hfalse := h _ (mem_singleton.2 rfl) rfl rfl (by decide) _ (mem_singleton.2 rfl) rfl
    _ (mem_singleton.2 rfl)
  revert hfalse
  decide

end Firebird.Jrd.Event
