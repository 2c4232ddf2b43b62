import Firebird.Jrd.VioChain

/-!
# Version visibility

`VIO_chase_record_version` stops at the newest version that has been written by a committed
transaction or by the transaction itself, if the attachment does no cleanup and there is nobody to
wait for.
-/
namespace Firebird.Jrd.Vio

open Sqz List

/-- The versions of a record with their contents; only the newest one may be a deleted stub. -/
inductive History : List Version → List (Option (List SCHAR)) → Prop
  | live {vs : List Version} {cs : List (List SCHAR)} : Chain none vs cs → History vs (cs.map some)
  | stub {v : Version} {vs : List Version} {cs : List (List SCHAR)} :
    v.deleted = true → v.delta = false → Chain none vs cs → History (v :: vs) (none :: cs.map some)

def Env.Sees (env : Env) (v : Version) : Prop :=
  env.state v.transactionNr = .committed ∨ env.state v.transactionNr = .us

instance (env : Env) (v : Version) : Decidable (env.Sees v) :=
  inferInstanceAs (Decidable (_ ∨ _))

/-- The newest version that is seen, by its contents; nothing stands for a deleted stub. -/
def Env.visible (env : Env) : List Version → List (Option (List SCHAR)) → Option
    (Option (List SCHAR))
  | v :: vs, c :: cs => if env.Sees v then some c else env.visible vs cs
  | _, _ => none

/-- A version whose writer need not be waited for, and that nobody backs out. -/
structure Env.Quiet (env : Env) (v : Version) : Prop where
  damaged : v.damaged = false
  gcActive : v.gcActive = false
  limbo : env.state v.transactionNr = .limbo → env.ignoreLimbo = true
  waits : env.state v.transactionNr = .active ∨ env.state v.transactionNr = .limbo →
    env.waits = false ∧ env.garbageCollector = false

variable {env : Env} {rpb : Rpb} {newer : Option (List SCHAR)} {c : List SCHAR}
  {cs : List (List SCHAR)} {n : Nat}

theorem Env.Quiet.turn (h : env.Quiet rpb.version) :
    env.turn (env.state rpb.version.transactionNr) rpb =
      env.switch (env.state rpb.version.transactionNr) rpb := by
  have hl : env.limboState rpb (env.state rpb.version.transactionNr) =
      env.state rpb.version.transactionNr := by
    cases hs : env.state rpb.version.transactionNr with
    | limbo => rw [Env.limboState, if_pos (h.limbo hs)]
    | _ => rfl
  rw [Env.turn, h.damaged, if_neg Bool.false_ne_true, hl]
  cases hs : env.state rpb.version.transactionNr with
  | active => simp [(h.waits (.inl hs)).1]
  | limbo => simp [(h.waits (.inr hs)).1]
  | _ => simp

def Leads (rpb : Rpb) (c : List SCHAR) (turn : Except Stop Turn) : Prop :=
  match rpb.back with
  | [] => turn = .ok (.ret false rpb)
  | v :: back => ∃ rpb', turn = .ok (.next rpb') ∧ rpb'.version = v ∧ rpb'.back = back ∧
      Ready rpb' (rpb.version.newer c)

theorem dead_leads (hno : env.noCleanup = true) (hready : Ready rpb newer)
    (hw : Written newer rpb.version c) : Leads rpb c (env.dead rpb) := by
  unfold Leads Env.dead
  rw [hno, Bool.true_or, Bool.true_or, Bool.true_or, if_pos rfl]
  cases hb : rpb.back with
  | nil => rfl
  | cons v back =>
    obtain ⟨r, hr, hl⟩ := @vioData_written env.junk rpb newer c hready hw
    simp only [hw.deleted, hr]
    refine ⟨_, rfl, rfl, rfl, ready_newer rfl hl ?_⟩
    by_cases hd : rpb.version.delta = true
    · rw [if_pos hd, if_pos hd]
    · rw [if_neg hd, if_neg hd]
      simp [hd]

theorem active_leads (hgc : env.garbageCollector = false) (hready : Ready rpb newer)
    (hw : Written newer rpb.version c) : Leads rpb c (env.active rpb) := by
  unfold Leads Env.active
  cases hb : rpb.back with
  | nil => rfl
  | cons v back =>
    rw [hgc]
    by_cases hd : rpb.version.delta = true
    · obtain ⟨r, hr, hl⟩ := @vioData_written env.junk rpb newer c hready hw
      simp only [hd, hr]
      refine ⟨_, rfl, rfl, rfl, ready_newer rfl hl ?_⟩
      simp [hb, hd]
    · rw [Version.newer, if_neg hd]
      simp only [hd]
      exact ⟨_, rfl, rfl, rfl, rfl⟩

theorem switch_hidden (hno : env.noCleanup = true) (hq : env.Quiet rpb.version)
    (hsees : ¬env.Sees rpb.version) (hready : Ready rpb newer) (hw : Written newer rpb.version c) :
    Leads rpb c (env.switch (env.state rpb.version.transactionNr) rpb) := by
  cases hs : env.state rpb.version.transactionNr with
  | dead => exact dead_leads hno hready hw
  | precommitted => exact dead_leads hno hready hw
  | active => exact active_leads (hq.waits (.inl hs)).2 hready hw
  | limbo =>
    rw [Env.switch, if_pos (hq.limbo hs)]
    exact active_leads (hq.waits (.inr hs)).2 hready hw
  | committed => exact absurd (.inl hs) hsees
  | us => exact absurd (.inr hs) hsees

theorem switch_seen (hno : env.noCleanup = true) (hsees : env.Sees rpb.version) :
    env.switch (env.state rpb.version.transactionNr) rpb =
      .ok (.ret (!rpb.version.deleted) rpb) := by
  rcases hsees with hs | hs
  · rw [hs, Env.switch, Env.committed]
    cases rpb.version.deleted <;> simp [hno]
  · rw [hs, Env.switch]

/-- What the chase gives: it is done after so many turns, it has found a version exactly if one with
contents is visible, and `VIO_data` then gives the contents. -/
def Env.Gives (env : Env) (chase : Nat → Option (Except Stop (Bool × Rpb))) (turns : Nat)
    (visible : Option (Option (List SCHAR))) : Prop :=
  ∃ found rpb', (∀ n ≥ turns, chase n = some (.ok (found, rpb'))) ∧
    (found = true ↔ ∃ c, visible = some (some c)) ∧
    ∀ c, visible = some (some c) → ∃ rpb'' r, vioData env.junk rpb' = .ok rpb'' ∧
      rpb''.record = some r ∧ r.recLength = c.length ∧ r.recData.take c.length = c

variable {turns : Nat}

theorem gives_seen {chase : Nat → Option (Except Stop (Bool × Rpb))}
    (hchase : ∀ n ≥ turns, chase n = some (.ok (true, rpb))) (hready : Ready rpb newer)
    (hw : Written newer rpb.version c) : env.Gives chase turns (some (some c)) := by
  obtain ⟨r, hr, hl⟩ := @vioData_written env.junk rpb newer c hready hw
  refine ⟨true, rpb, hchase, ⟨fun _ => ⟨c, rfl⟩, fun _ => rfl⟩, ?_⟩
  rintro _ ⟨⟩
  exact ⟨_, r, hr, rfl, hl.length_eq, (prefix_iff_eq_take.mp hl.isPrefix).symm⟩

theorem gives_none {chase : Nat → Option (Except Stop (Bool × Rpb))}
    {visible : Option (Option (List SCHAR))}
    (hchase : ∀ n ≥ turns, chase n = some (.ok (false, rpb))) (hv : ∀ c, visible ≠ some (some c)) :
    env.Gives chase turns visible :=
  ⟨false, rpb, hchase, ⟨nofun, fun ⟨c, hc⟩ => absurd hc (hv c)⟩, fun c hc => absurd hc (hv c)⟩

variable {state : State} {rpb' : Rpb}

theorem chaseLoop_ret {found : Bool}
    (h : env.turn state rpb = .ok (.ret found rpb')) (hn : 1 ≤ n) :
    env.chaseLoop n state rpb = some (.ok (found, rpb')) := by
  obtain ⟨n, rfl⟩ := Nat.exists_eq_add_of_le' hn
  rw [Env.chaseLoop, h]

theorem chaseLoop_next (h : env.turn state rpb = .ok (.next rpb'))
    (hgc : rpb'.version.gcActive = false) :
    env.chaseLoop (n + 1) state rpb =
      env.chaseLoop n (env.state rpb'.version.transactionNr) rpb' := by
  rw [Env.chaseLoop, h]
  simp [hgc]

theorem gives_next
    {visible : Option (Option (List SCHAR))} (hturn : env.turn state rpb = .ok (.next rpb'))
    (hgc : rpb'.version.gcActive = false)
    (h : env.Gives (fun n => env.chaseLoop n (env.state rpb'.version.transactionNr) rpb') turns
      visible) : env.Gives (fun n => env.chaseLoop n state rpb) (turns + 1) visible := by
  obtain ⟨found, last, hchase, hfound, hread⟩ := h
  refine ⟨found, last, fun n hn => ?_, hfound, hread⟩
  obtain ⟨n, rfl⟩ := Nat.exists_eq_add_of_le' (show 1 ≤ n by omega)
  exact (chaseLoop_next hturn hgc).trans (hchase n (Nat.le_of_succ_le_succ hn))

theorem chaseLoop_seen {vs : List Version} (hno : env.noCleanup = true)
    (hready : Ready rpb newer) (hq : env.Quiet rpb.version) (hw : Written newer rpb.version c)
    (hsees : env.Sees rpb.version) :
    env.Gives (fun n => env.chaseLoop n (env.state rpb.version.transactionNr) rpb) (turns + 1)
      (env.visible (rpb.version :: vs) ((c :: cs).map some)) := by
  have hturn := hq.turn
  rw [switch_seen hno hsees, hw.deleted] at hturn
  rw [map_cons, Env.visible, if_pos hsees]
  exact gives_seen (fun n hn => chaseLoop_ret hturn (Nat.le_of_add_left_le hn)) hready hw

theorem chaseLoop_gives (hno : env.noCleanup = true) (hready : Ready rpb newer)
    (hq : ∀ v ∈ rpb.version :: rpb.back, env.Quiet v)
    (hc : Chain newer (rpb.version :: rpb.back) cs) :
    env.Gives (fun n => env.chaseLoop n (env.state rpb.version.transactionNr) rpb)
      (rpb.back.length + 1) (env.visible (rpb.version :: rpb.back) (cs.map some)) := by
  generalize hb : rpb.back = back at hq hc ⊢
  induction back generalizing rpb newer cs with
  | nil =>
    cases hc with
    | @cons _ _ _ c cs hw hc =>
      have hfirst := hq _ mem_cons_self
      by_cases hsees : env.Sees rpb.version
      · exact chaseLoop_seen hno hready hfirst hw hsees
      · have hl := switch_hidden hno hfirst hsees hready hw
        rw [Leads, hb] at hl
        rw [map_cons, Env.visible, if_neg hsees]
        refine gives_none (fun n hn => chaseLoop_ret (hfirst.turn.trans hl) hn) ?_
        cases cs <;> nofun
  | cons v back ih =>
    cases hc with
    | @cons _ _ _ c cs hw hc =>
      have hfirst := hq _ mem_cons_self
      by_cases hsees : env.Sees rpb.version
      · exact chaseLoop_seen hno hready hfirst hw hsees
      · have hl := switch_hidden hno hfirst hsees hready hw
        rw [Leads, hb] at hl
        obtain ⟨rpb', hnext, rfl, hback, hready'⟩ := hl
        have hrest (u : Version) (hu : u ∈ rpb'.version :: back) : env.Quiet u :=
          hq u (mem_cons_of_mem _ hu)
        have hgc := (hrest rpb'.version mem_cons_self).gcActive
        rw [map_cons, Env.visible, if_neg hsees]
        exact gives_next (hfirst.turn.trans hnext) hgc (ih hready' hback hrest hc)

theorem stub_leads (hno : env.noCleanup = true) (hq : env.Quiet rpb.version)
    (hsees : ¬env.Sees rpb.version) (hdel : rpb.version.deleted = true)
    (hdelta : rpb.version.delta = false) (hprior : rpb.prior = .null) :
    match rpb.back with
    | [] => env.switch (env.state rpb.version.transactionNr) rpb = .ok (.ret false rpb)
    | v :: back => env.switch (env.state rpb.version.transactionNr) rpb =
        .ok (.next { rpb with version := v, back := back }) := by
  cases hs : env.state rpb.version.transactionNr with
  | dead => cases hb : rpb.back <;> simp [Env.switch, Env.dead, hno, hdel, hdelta, hb]
  | precommitted => cases hb : rpb.back <;> simp [Env.switch, Env.dead, hno, hdel, hdelta, hb]
  | active =>
    have hgc := (hq.waits (.inl hs)).2
    cases hb : rpb.back <;> simp [Env.switch, Env.active, hgc, hdelta, hprior, hb]
  | limbo =>
    have hgc := (hq.waits (.inr hs)).2
    cases hb : rpb.back <;>
      simp [Env.switch, Env.active, hq.limbo hs, hgc, hdelta, hprior, hb]
  | committed => exact absurd (.inl hs) hsees
  | us => exact absurd (.inr hs) hsees

theorem chaseLoop_history {cs : List (Option (List SCHAR))} (hno : env.noCleanup = true)
    (hprior : rpb.prior = .null) (hq : ∀ v ∈ rpb.version :: rpb.back, env.Quiet v)
    (h : History (rpb.version :: rpb.back) cs) :
    env.Gives (fun n => env.chaseLoop n (env.state rpb.version.transactionNr) rpb)
      (rpb.back.length + 1) (env.visible (rpb.version :: rpb.back) cs) := by
  generalize hvs : rpb.version :: rpb.back = vs at h
  cases h with
  | live hc =>
    subst hvs
    exact chaseLoop_gives hno (show Ready rpb none from hprior) hq hc
  | @stub v vs cs hdel hdelta hc =>
    obtain ⟨rfl, rfl⟩ := List.cons.inj hvs
    have hfirst := hq _ mem_cons_self
    rw [Env.visible]
    by_cases hsees : env.Sees rpb.version
    · have hturn := hfirst.turn
      rw [switch_seen hno hsees, hdel] at hturn
      rw [if_pos hsees]
      exact gives_none (fun n hn => chaseLoop_ret hturn (Nat.le_of_add_left_le hn)) nofun
    · rw [if_neg hsees]
      have hl := stub_leads hno hfirst hsees hdel hdelta hprior
      cases hb : rpb.back with
      | nil =>
        rw [hb] at hl
        refine gives_none (fun n hn => chaseLoop_ret (hfirst.turn.trans hl) hn) ?_
        cases cs <;> nofun
      | cons v back =>
        rw [hb] at hl hc
        have hrest (u : Version) (hu : u ∈ v :: back) : env.Quiet u :=
          hq u (mem_cons_of_mem _ (hb ▸ hu))
        have hgc := (hrest v mem_cons_self).gcActive
        exact gives_next (hfirst.turn.trans hl) hgc (@chaseLoop_gives env
          { rpb with version := v, back := back } none cs hno hprior hrest hc)

theorem History.fast {cs : List (Option (List SCHAR))} (h : History (rpb.version :: rpb.back) cs)
    (hdel : rpb.version.deleted = false) :
    ∃ c cs', cs = some c :: cs' ∧ Written none rpb.version c := by
  generalize hvs : rpb.version :: rpb.back = vs at h
  cases h with
  | live hc =>
    cases hc with
    | nil => cases hvs
    | cons hw _ =>
      obtain ⟨rfl, -⟩ := List.cons.inj hvs
      exact ⟨_, _, rfl, hw⟩
  | stub hd =>
    obtain ⟨rfl, -⟩ := List.cons.inj hvs
    rw [hd] at hdel
    cases hdel

/-- The chase terminates; it finds a version exactly if the newest version whose writer is
committed or us has not been deleted, and the contents of the version are then those it has been
written with. -/
theorem version_visibility (env : Env) (rpb : Rpb) (cs : List (Option (List SCHAR)))
    (hno : env.noCleanup = true) (hprior : rpb.prior = .null)
    (hq : ∀ v ∈ rpb.version :: rpb.back, env.Quiet v)
    (h : History (rpb.version :: rpb.back) cs) :
    ∃ found rpb', (∀ n > rpb.back.length,
        env.vioChaseRecordVersion n rpb = some (.ok (found, rpb'))) ∧
      (found = true ↔ ∃ c, env.visible (rpb.version :: rpb.back) cs = some (some c)) ∧
      ∀ c, env.visible (rpb.version :: rpb.back) cs = some (some c) →
        ∃ rpb'' r, vioData env.junk rpb' = .ok rpb'' ∧ rpb''.record = some r ∧
          r.recLength = c.length ∧ r.recData.take c.length = c := by
  have hgc := (hq _ mem_cons_self).gcActive
  have hstart (n : Nat) : env.vioChaseRecordVersion n rpb =
      if env.fast (env.state rpb.version.transactionNr) rpb then some (.ok (true, rpb))
      else env.chaseLoop n (env.state rpb.version.transactionNr) rpb := by
    rw [Env.vioChaseRecordVersion, hgc, if_neg Bool.false_ne_true]
  suffices hg : env.Gives (fun n => env.vioChaseRecordVersion n rpb) (rpb.back.length + 1)
      (env.visible (rpb.version :: rpb.back) cs) from hg
  by_cases hf : env.fast (env.state rpb.version.transactionNr) rpb = true
  · have hf' := hf
    simp only [Env.fast, Bool.and_eq_true, Bool.or_eq_true, beq_iff_eq, Bool.not_eq_true'] at hf'
    obtain ⟨c, cs', rfl, hw⟩ := h.fast hf'.1.1.2
    rw [Env.visible, if_pos (show env.Sees rpb.version from hf'.1.1.1)]
    exact gives_seen (fun n _ => by rw [hstart, if_pos hf]) (show Ready rpb none from hprior) hw
  · have hloop := chaseLoop_history hno hprior hq h
    simpa only [hstart, if_neg hf] using hloop

def changedRecord : Rpb where
  version := ⟨false, false, true, false, false, 5, 4, [[4, 1, 2, 3, 4]]⟩
  back := [⟨false, true, false, false, false, 3, 4, [[4, -2, 2, 9, 4]]⟩]
  all := []
  record := none
  prior := .null

def whileActive (readCommitted : Bool) : Env where
  state number := if number = 5 then .active else .committed
  wait _ := .active
  readCommitted := readCommitted
  recVersion := false
  ignoreLimbo := false
  writelock := false
  oldestActive := 4
  noCleanup := true
  notifyGc := false
  garbageCollector := false
  gcCooperative := true
  temporary := false
  backout := id
  purge := id
  junk _ := 0

theorem changedRecord_history : History (changedRecord.version :: changedRecord.back)
    [some [1, 2, 3, 4], some [1, 2, 9, 4]] := by
  have hnew : Holds [[4, 1, 2, 3, 4]] [1, 2, 3, 4] :=
    holds_sqzFast (by decide) (by decide) (by decide)
  have hold : Holds [[4, -2, 2, 9, 4]] [-2, 2, 9, 4] :=
    holds_sqzFast (by decide) (by decide) (by decide)
  have hdelta : IsDelta [1, 2, 3, 4] [1, 2, 9, 4] [-2, 2, 9, 4] :=
    @IsDelta.differences _ _ [-2, 2, 9, 4, 0, 0, 0, 0] (replicate 8 0) 4 (by decide)
      (by decide) (by decide)
  refine @History.live _ [[1, 2, 3, 4], [1, 2, 9, 4]] (.cons ?_ (.cons ?_ (.nil _)))
  · exact ⟨rfl, rfl, by decide, _, .full _, hnew⟩
  · exact ⟨rfl, rfl, by decide, _, .delta hdelta, hold⟩

/-- A snapshot reads the version of transaction 3. -/
theorem version_visibility_snapshot :
    ∃ rpb', (∀ n > 1, (whileActive false).vioChaseRecordVersion n changedRecord =
        some (.ok (true, rpb'))) ∧
      ∃ rpb'' r, vioData (fun _ => 0) rpb' = .ok rpb'' ∧ rpb''.record = some r ∧
        r.recLength = 4 ∧ r.recData.take 4 = [1, 2, 9, 4] := by
  obtain ⟨found, rpb', hchase, hfound, hread⟩ :=
    version_visibility (whileActive false) changedRecord
    _ rfl rfl (fun v hv => by
      simp only [changedRecord, mem_cons, not_mem_nil, or_false] at hv
      rcases hv with rfl | rfl <;> exact ⟨rfl, rfl, by decide, by decide⟩) changedRecord_history
  obtain rfl := hfound.mpr ⟨[1, 2, 9, 4], rfl⟩
  exact ⟨rpb', hchase, hread [1, 2, 9, 4] rfl⟩

/-- A read committed transaction without record versions waits for the writer instead, and gets an
error. -/
theorem visible_version_not_returned :
    (whileActive true).visible (changedRecord.version :: changedRecord.back)
        [some [1, 2, 3, 4], some [1, 2, 9, 4]] = some (some [1, 2, 9, 4]) ∧
      ∀ n > 0, (whileActive true).vioChaseRecordVersion n changedRecord =
        some (.error .deadlock) := by
  refine ⟨rfl, fun n hn => ?_⟩
  obtain ⟨n, rfl⟩ := Nat.exists_eq_add_of_le' hn
  rfl

end Firebird.Jrd.Vio
