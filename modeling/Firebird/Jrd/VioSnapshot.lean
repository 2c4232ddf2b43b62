import Firebird.Jrd.VioChase
import Firebird.Jrd.VioDecode

/-!
# Repeatable reads

A snapshot reads a record as before, whatever transactions it does not see change of it meanwhile,
and whatever is removed behind a version it sees.
-/
namespace Firebird.Jrd.Vio

open Sqz List

/-- The end of `VIO_get`: the contents of the version found. -/
def Env.contents (env : Env) (chased : Bool × Rpb) : Except Stop (Option (List SCHAR)) :=
  if chased.1 then do
    let rpb ← vioData env.junk chased.2
    return some rpb.data
  else .ok none

/-- `VIO_get`, for so many turns of the chase. -/
def Env.vioGet (env : Env) (n : Nat) : List Version → Option (Except Stop (Option (List SCHAR)))
  | [] => some (.ok none)
  | v :: back =>
    match Rpb.get ⟨v, back, v :: back, none, .null⟩ with
    | none => some (.ok none)
    | some rpb => (env.vioChaseRecordVersion n rpb).map (· >>= env.contents)

def Change.writers : Change → List Nat → List Nat
  | _, [] => []
  | update _ transactionNr, ws | writelock transactionNr, ws => transactionNr :: ws
  | updateInPlace _, ws => ws
  | backout, _ :: ws => ws
  | purge, w :: _ => [w]

def Env.SeesWriter (env : Env) (w : Nat) : Prop := env.state w = .committed ∨ env.state w = .us

instance (env : Env) (w : Nat) : Decidable (env.SeesWriter w) := inferInstanceAs (Decidable (_ ∨ _))

/-- A transaction that the reader does not see and need not wait for. -/
structure Env.Passes (env : Env) (w : Nat) : Prop where
  unseen : ¬env.SeesWriter w
  limbo : env.state w = .limbo → env.ignoreLimbo = true
  waits : env.state w = .active ∨ env.state w = .limbo →
    env.waits = false ∧ env.garbageCollector = false

/-- A change that the reader does not see: by such a transaction, of a version of such a
transaction, or of what is behind a version that the reader sees. -/
def Change.Unseen (env : Env) (ws : List Nat) : Change → Prop
  | update _ transactionNr | writelock transactionNr => env.Passes transactionNr
  | updateInPlace _ | backout => ∀ w ∈ ws.head?, ¬env.SeesWriter w
  | purge => ∀ w ∈ ws.head?, env.SeesWriter w

def UnseenRun (env : Env) : List (Disk × Change) → List Nat → Prop
  | [], _ => True
  | (_, change) :: changes, ws =>
    change.Unseen env ws ∧ UnseenRun env changes (change.writers ws)

def Env.seen (env : Env) : List Nat → List (List SCHAR) → Option (List SCHAR)
  | w :: ws, c :: cs => if env.SeesWriter w then some c else env.seen ws cs
  | _, _ => none

/-- There is nobody to wait for, and the primary version is not chained. -/
structure Env.Calm (env : Env) (vs : List Version) : Prop where
  quiet : ∀ v ∈ vs, env.Quiet v
  primary : ∀ v ∈ vs.head?, v.chained = false

variable {env : Env} {disk : Disk} {vs vs' : List Version} {cs : List (List SCHAR)}
variable {v : Version} {rpb rpb' : Rpb} {change : Change}

theorem visible_eq_seen : env.visible vs (cs.map some) =
    (env.seen (vs.map Version.transactionNr) cs).map some := by
  induction vs generalizing cs with
  | nil => rfl
  | cons v vs ih =>
    cases cs with
    | nil => rfl
    | cons c cs =>
      rw [map_cons, map_cons, Env.visible, Env.seen]
      by_cases hs : env.Sees v
      · rw [if_pos hs, if_pos (show env.SeesWriter _ from hs), Option.map_some]
      · rw [if_neg hs, if_neg (show ¬env.SeesWriter _ from hs), ih]

theorem Change.Unseen.seen_eq {ws : List Nat} (h : change.Unseen env ws)
    (hlen : ws.length = cs.length) :
    env.seen (change.writers ws) (change.contents cs) = env.seen ws cs := by
  cases ws with
  | nil =>
    obtain rfl := length_eq_zero_iff.1 hlen.symm
    cases change <;> rfl
  | cons w ws =>
    cases cs with
    | nil => cases hlen
    | cons c cs =>
      cases change with
      | update new t => exact if_neg h.unseen
      | writelock t => exact if_neg h.unseen
      | updateInPlace new => exact (if_neg (h w rfl)).trans (if_neg (h w rfl)).symm
      | backout => exact (if_neg (h w rfl)).symm
      | purge => exact (if_pos (h w rfl)).trans (if_pos (h w rfl)).symm

theorem ok_of_bind {α β : Type} {x : Except Stop α} {f : α → Except Stop β} {z : β}
    (h : (x >>= f) = .ok z) : ∃ y, x = .ok y ∧ f y = .ok z := by
  cases x with
  | error e => cases h
  | ok y => exact ⟨y, rfl, h⟩

theorem vioData_version {junk : Nat → SCHAR} (h : vioData junk rpb = .ok rpb') :
    rpb'.version = rpb.version := by
  rw [vioData] at h
  obtain ⟨⟨record, length⟩, -, h⟩ := ok_of_bind h
  dsimp only at h
  split at h
  · cases h
  · cases h
    rfl

theorem Env.Quiet.congr {w : Version} (h : env.Quiet v) (hnr : w.transactionNr = v.transactionNr)
    (hd : w.damaged = false) (hg : w.gcActive = false) : env.Quiet w :=
  ⟨hd, hg, hnr ▸ h.limbo, hnr ▸ h.waits⟩

theorem prepareUpdate_quiet {new : Option (List SCHAR)} {writelock delta : Bool}
    (h : prepareUpdate disk rpb new writelock = .ok (v, delta)) (hq : env.Quiet rpb.version) :
    v.transactionNr = rpb.version.transactionNr ∧ env.Quiet v := by
  unfold prepareUpdate at h
  cases new <;>
  · obtain ⟨delta, -, h⟩ := ok_of_bind h
    cases h
    exact ⟨rfl, hq.congr rfl rfl rfl⟩

theorem bringForward_quiet {data : Option Record} {b : Version} {rest : List Version}
    (h : bringForward disk data b rest = .ok v) (hq : env.Quiet b) :
    v.transactionNr = b.transactionNr ∧ env.Quiet v ∧ v.chained = false := by
  rw [bringForward] at h
  split at h
  · cases h
    exact ⟨rfl, hq.congr rfl rfl rfl, rfl⟩
  · obtain ⟨temp, -, h⟩ := ok_of_bind h
    cases h
    exact ⟨rfl, hq.congr rfl rfl rfl, rfl⟩

theorem calm_cons (hv : env.Quiet v) (hchained : v.chained = false)
    (hvs : ∀ u ∈ vs, env.Quiet u) : env.Calm (v :: vs) :=
  ⟨forall_mem_cons.2 ⟨hv, hvs⟩, by rintro _ ⟨⟩; exact hchained⟩

theorem Env.Calm.prepared {new : Option (List SCHAR)} {writelock delta : Bool} {w temp : Version}
    {back : List Version} (h : env.Calm (v :: back)) (hw : env.Passes w.transactionNr)
    (hd : w.damaged = v.damaged) (hg : w.gcActive = false) (hchained : w.chained = false)
    (hfetch : fetch disk v back = .ok rpb)
    (hprep : prepareUpdate disk rpb new writelock = .ok (temp, delta)) :
    env.Calm (w :: temp :: back) ∧ (w :: temp :: back).map Version.transactionNr =
      w.transactionNr :: (v :: back).map Version.transactionNr := by
  obtain ⟨hq, hback⟩ := forall_mem_cons.1 h.quiet
  have hversion : rpb.version = v := vioData_version hfetch
  obtain ⟨hnr, htemp⟩ := prepareUpdate_quiet hprep (hversion ▸ hq)
  exact ⟨calm_cons ⟨hd.trans hq.damaged, hg, hw.limbo, hw.waits⟩ hchained
    (forall_mem_cons.2 ⟨htemp, hback⟩), by simp [hnr, hversion]⟩

theorem vioBackout_calm {b : Version} {rest : List Version} (hb : ∀ u ∈ b :: rest, env.Quiet u)
    (h : vioBackout disk (v :: b :: rest) = .ok vs') :
    env.Calm vs' ∧ vs'.map Version.transactionNr = (b :: rest).map Version.transactionNr := by
  obtain ⟨hq, hrest⟩ := forall_mem_cons.1 hb
  rw [vioBackout] at h
  obtain ⟨data, -, h⟩ := ok_of_bind h
  obtain ⟨forward, hforward, h⟩ := ok_of_bind h
  obtain ⟨hnr, hf, hchained⟩ := bringForward_quiet hforward hq
  have hends : (if disk.samePage && data.isNone then
      .ok ({ b with chained := false, gcActive := false } :: rest)
      else .ok (forward :: rest) : Except Stop (List Version)) = .ok vs' := by
    dsimp only at h
    split at h
    · obtain ⟨-, -, h⟩ := ok_of_bind h
      exact h
    · exact h
  split at hends
  · cases hends
    exact ⟨calm_cons (hq.congr rfl hq.damaged rfl) rfl hrest, rfl⟩
  · cases hends
    exact ⟨calm_cons hf hchained hrest, congrArg (· :: _) hnr⟩

theorem Env.Calm.apply (h : env.Calm vs) (hu : change.Unseen env (vs.map Version.transactionNr))
    (happly : change.apply disk vs = .ok vs') :
    env.Calm vs' ∧
      vs'.map Version.transactionNr = change.writers (vs.map Version.transactionNr) := by
  cases vs with
  | nil => cases change <;> cases happly <;> exact ⟨h, rfl⟩
  | cons v back =>
    obtain ⟨hq, hback⟩ := forall_mem_cons.1 h.quiet
    cases change with
    | update new t =>
      obtain ⟨rpb, hfetch, happly⟩ := ok_of_bind happly
      obtain ⟨⟨temp, delta⟩, hprep, happly⟩ := ok_of_bind happly
      cases happly
      exact h.prepared hu rfl rfl rfl hfetch hprep
    | writelock t =>
      obtain ⟨rpb, hfetch, happly⟩ := ok_of_bind happly
      obtain ⟨⟨temp, delta⟩, hprep, happly⟩ := ok_of_bind happly
      cases happly
      exact h.prepared hu rfl rfl rfl hfetch hprep
    | updateInPlace new =>
      rw [Change.apply, Vio.updateInPlace] at happly
      obtain ⟨rpb, -, happly⟩ := ok_of_bind happly
      split at happly
      · obtain ⟨temp2, hcomplete, happly⟩ := ok_of_bind happly
        obtain ⟨temp, -, hcomplete⟩ := ok_of_bind hcomplete
        cases happly
        cases hcomplete
        obtain ⟨hb, hrest⟩ := forall_mem_cons.1 hback
        exact ⟨calm_cons (hq.congr rfl hq.damaged rfl) rfl
          (forall_mem_cons.2 ⟨hb.congr rfl rfl rfl, hrest⟩), rfl⟩
      · cases happly
        exact ⟨calm_cons (hq.congr rfl hq.damaged rfl) rfl hback, rfl⟩
    | backout =>
      cases back with
      | nil =>
        obtain ⟨-, -, happly⟩ := ok_of_bind happly
        cases happly
        exact ⟨⟨fun _ hv => (by cases hv), fun _ hv => (by cases hv)⟩, rfl⟩
      | cons b rest => exact vioBackout_calm hback happly
    | purge =>
      rw [Change.apply, Vio.purge] at happly
      obtain ⟨rpb, -, happly⟩ := ok_of_bind happly
      split at happly
      · next hempty =>
        cases happly
        rw [isEmpty_iff.1 hempty] at h ⊢
        exact ⟨h, rfl⟩
      · obtain ⟨-, -, happly⟩ := ok_of_bind happly
        cases happly
        exact ⟨calm_cons (hq.congr rfl hq.damaged rfl) (h.primary v rfl) fun _ hw => (by cases hw),
          rfl⟩

theorem Chain.length_eq {newer : Option (List SCHAR)} (h : Chain newer vs cs) :
    vs.length = cs.length := by
  induction h with
  | nil => rfl
  | cons _ _ ih => rw [length_cons, length_cons, ih]

theorem run_unseen (changes : List (Disk × Change)) (hvalid : ∀ p ∈ changes, p.2.Valid)
    (hunseen : UnseenRun env changes (vs.map Version.transactionNr)) (hcalm : env.Calm vs)
    (h : Chain none vs cs) :
    ∃ vs' cs', run changes vs = .ok vs' ∧ env.Calm vs' ∧ Chain none vs' cs' ∧
      env.seen (vs'.map Version.transactionNr) cs' =
        env.seen (vs.map Version.transactionNr) cs := by
  induction changes generalizing vs cs with
  | nil => exact ⟨vs, cs, rfl, hcalm, h, rfl⟩
  | cons p changes ih =>
    obtain ⟨hu, hunseen⟩ := hunseen
    obtain ⟨vs₁, happly, h₁⟩ := @Change.apply_chain p.1 vs cs p.2 (hvalid p mem_cons_self) h
    obtain ⟨hcalm₁, hwriters⟩ := hcalm.apply hu happly
    obtain ⟨vs', cs', hrun, hcalm', h', hseen⟩ :=
      ih (fun q hq => hvalid q (mem_cons_of_mem _ hq)) (hwriters ▸ hunseen) hcalm₁ h₁
    refine ⟨vs', cs', ?_, hcalm', h', hseen.trans ?_⟩
    · rw [run, happly]
      exact hrun
    · rw [hwriters]
      exact hu.seen_eq (by rw [length_map, h.length_eq])

theorem Env.Gives.contents {chase : Nat → Option (Except Stop (Bool × Rpb))} {turns n : Nat}
    {x : Option (List SCHAR)} (h : env.Gives chase turns (x.map some)) (hn : turns ≤ n) :
    (chase n).map (· >>= env.contents) = some (.ok x) := by
  obtain ⟨found, rpb, hchase, hfound, hread⟩ := h
  rw [hchase n hn]
  cases x with
  | none =>
    have hnot : found = false := by
      cases found with
      | false => rfl
      | true =>
        obtain ⟨c, hc⟩ := hfound.1 rfl
        cases hc
    rw [hnot]
    rfl
  | some c =>
    obtain ⟨rpb', r, hdata, hr, hlen, htake⟩ := hread c rfl
    rw [hfound.2 ⟨c, rfl⟩]
    have : rpb'.data = c := by
      simp only [Rpb.data, hr, hlen, htake]
    simp [Env.contents, hdata, this, bind, Except.bind, pure, Except.pure]

theorem vioGet_seen (hno : env.noCleanup = true) (hcalm : env.Calm vs) (h : Chain none vs cs)
    {n : Nat} (hn : vs.length ≤ n) :
    env.vioGet n vs = some (.ok (env.seen (vs.map Version.transactionNr) cs)) := by
  cases vs with
  | nil =>
    cases h
    rfl
  | cons v back =>
    generalize hrpb : (⟨v, back, v :: back, none, .null⟩ : Rpb) = rpb
    obtain ⟨rfl, rfl, hprior⟩ : v = rpb.version ∧ back = rpb.back ∧ rpb.prior = .null := by
      subst hrpb
      exact ⟨rfl, rfl, rfl⟩
    have hchase (n : Nat) : env.vioChaseRecordVersion n rpb =
        if env.fast (env.state rpb.version.transactionNr) rpb then some (.ok (true, rpb))
        else env.chaseLoop n (env.state rpb.version.transactionNr) rpb := by
      rw [Env.vioChaseRecordVersion, (hcalm.quiet _ mem_cons_self).gcActive,
        if_neg Bool.false_ne_true]
    have hgives : env.Gives (env.vioChaseRecordVersion · rpb) (rpb.back.length + 1)
        ((env.seen ((rpb.version :: rpb.back).map Version.transactionNr) cs).map some) := by
      by_cases hf : env.fast (env.state rpb.version.transactionNr) rpb = true
      · have hf' := hf
        simp only [Env.fast, Bool.and_eq_true, Bool.or_eq_true, beq_iff_eq] at hf'
        cases h with
        | cons hw _ =>
          rw [map_cons, Env.seen, if_pos (show env.SeesWriter _ from hf'.1.1.1)]
          exact gives_seen (fun n _ => by rw [hchase, if_pos hf])
            (show Ready rpb none from hprior) hw
      · rw [← visible_eq_seen]
        simpa only [hchase, if_neg hf] using chaseLoop_gives hno (show Ready rpb none from hprior)
          hcalm.quiet h
    simpa [Env.vioGet, Rpb.get, hcalm.primary _ rfl, hrpb] using hgives.contents hn

/-- A reader that does no cleanup reads a record as before, however often it is changed meanwhile,
if it does not see the changes. -/
theorem snapshot_repeatable (env : Env) (vs : List Version) (cs : List (List SCHAR))
    (changes : List (Disk × Change)) (hno : env.noCleanup = true) (hcalm : env.Calm vs)
    (h : Chain none vs cs) (hvalid : ∀ p ∈ changes, p.2.Valid)
    (hunseen : UnseenRun env changes (vs.map Version.transactionNr)) :
    ∃ vs' contents, run changes vs = .ok vs' ∧
      ∀ n, vs.length ≤ n → vs'.length ≤ n →
        env.vioGet n vs = some (.ok contents) ∧ env.vioGet n vs' = some (.ok contents) := by
  obtain ⟨vs', cs', hrun, hcalm', h', hseen⟩ := run_unseen changes hvalid hunseen hcalm h
  refine ⟨vs', _, hrun, fun n hn hn' => ⟨vioGet_seen hno hcalm h hn, ?_⟩⟩
  rw [← hseen]
  exact vioGet_seen hno hcalm' h' hn'

/-- Transaction 5 changes a record, changes it again in place and rolls back. -/
theorem snapshot_repeatable_backout :
    ∃ vs' contents, run [(bytesDisk, .update [1, 2, 9] 5), (bytesDisk, .updateInPlace [7, 7]),
          (bytesDisk, .backout)]
        [⟨false, false, false, false, false, 3, 3, bytesDisk.pack [1, 2, 3]⟩] = .ok vs' ∧
      ∀ n, 1 ≤ n → vs'.length ≤ n → (whileActive false).vioGet n
          [⟨false, false, false, false, false, 3, 3, bytesDisk.pack [1, 2, 3]⟩] =
        some (.ok contents) ∧ (whileActive false).vioGet n vs' = some (.ok contents) :=
  snapshot_repeatable (whileActive false) _ [[1, 2, 3]] _ rfl
    ⟨forall_mem_singleton.2 ⟨rfl, rfl, by decide, by decide⟩, by rintro _ ⟨⟩; rfl⟩
    (.cons (@written_pack bytesDisk _ _ _ _ rfl rfl (by decide) (.full _) (by decide) rfl) (.nil _))
    (by simp [Change.Valid])
    ⟨⟨by decide, by decide, by decide⟩, by rintro _ ⟨⟩; decide, by rintro _ ⟨⟩; decide, trivial⟩

end Firebird.Jrd.Vio
