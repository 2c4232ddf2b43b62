import Firebird.Jrd.TpcSafety

/-!
# Runs of the cache routines

The routines of `tpc.cpp` called in any order, between changes that the other processes make to the
header and to the inventory pages.
-/
namespace Firebird.Jrd.Tpc

open Lib List

structure Coherent (dbb : Database) : Prop where
  sound : Sound dbb
  committed : ∀ n, 0 < n → n < dbb.oldestInteresting → dbb.tipState n = .committed
  contiguous : Contiguous dbb.transPerTIP dbb.dbbTipCache
  first : ∀ tpc ∈ dbb.dbbTipCache.head?, tpc.tpcBase ≤ dbb.oldestInteresting
  agrees : ∀ tpc ∈ dbb.dbbTipCache, Agrees dbb tpc

/-- An answer committed or dead is that of the page; the system transaction is always committed. -/
def AnswerOk (dbb : Database) (number : Nat) (a : Answer) : Prop :=
  ∀ s, a = .state s → s.Final → number = 0 ∧ s = .committed ∨ s = dbb.tipState number

variable {dbb : Database} {n : Nat}

theorem Coherent.startsBelow {bound : Nat} (h : Coherent dbb)
    (hfirst : ∀ tpc ∈ dbb.dbbTipCache.head?, tpc.tpcBase ≤ bound) :
    StartsBelow dbb.transPerTIP bound dbb.dbbTipCache := by
  obtain ⟨k, hk⟩ := h.contiguous
  cases hl : dbb.dbbTipCache with
  | nil => trivial
  | cons tpc rest =>
    rw [hl] at hk hfirst
    exact hk.startsBelow (hk.1 ▸ hfirst tpc rfl)

theorem hdrOldest_le_oldestInteresting (dbb : Database) :
    dbb.hdrOldestTransaction ≤ dbb.oldestInteresting := Nat.le_max_left _ _

theorem passed_oldestInteresting (dbb : Database) : Passed dbb dbb.oldestInteresting :=
  fun _ _ h => h.trans (Nat.le_max_right _ _)

theorem Coherent.of_cache {dbb' : Database} (h : Coherent dbb)
    (hsame : dbb' = { dbb with dbbTipCache := dbb'.dbbTipCache })
    (hc : Contiguous dbb.transPerTIP dbb'.dbbTipCache)
    (hfirst : StartsBelow dbb.transPerTIP dbb.oldestInteresting dbb'.dbbTipCache)
    (ha : ∀ tpc ∈ dbb'.dbbTipCache, Agrees dbb tpc) : Coherent dbb' := by
  generalize dbb'.dbbTipCache = cache at *
  subst hsame
  have hs := h.sound
  exact ⟨⟨hs.1, hs.2, hs.3, hs.4, hs.5, hs.6⟩, h.committed, hc, hfirst.head, ha⟩

theorem Coherent.tpcUpdateCache (h : Coherent dbb) (s : Nat) :
    Coherent (tpcUpdateCache dbb (dbb.tip s) s) := by
  refine h.of_cache rfl (contiguous_tpcUpdateCache h.contiguous) ?_
    (agrees_tpcUpdateCache h.sound s h.agrees)
  refine ((h.startsBelow h.first).dropWhile fun tpc _ hq => ?_).updateFirst
  simp only [decide_eq_true_eq] at hq
  exact hq.trans (Nat.le_max_right _ _)

theorem Coherent.cacheTransactions {oldest : Nat} (h : Coherent dbb) (he : AtEnd dbb oldest) :
    Coherent (cacheTransactions dbb oldest).2 := by
  obtain ⟨hsame, hc, ha⟩ := cacheTransactions_filling h.sound h.contiguous h.agrees he
  exact h.of_cache hsame hc (cacheTransactions_startsBelow h.sound h.contiguous h.agrees he
    (passed_oldestInteresting dbb) (hdrOldest_le_oldestInteresting dbb) (h.startsBelow h.first)) ha

theorem atEnd_nil (h : dbb.dbbTipCache = []) : AtEnd dbb 0 :=
  ⟨fun _ => rfl, fun last hlast => by rw [h] at hlast; cases hlast⟩

theorem atEnd_last {last : TxPageCache} (h : dbb.dbbTipCache.getLast? = some last) :
    AtEnd dbb (last.tpcBase + dbb.transPerTIP) := by
  refine ⟨fun hnil => ?_, fun last' hlast => ?_⟩
  · rw [hnil] at h
    cases h
  · obtain rfl : last = last' := Option.some.inj (h.symm.trans hlast)
    rfl

theorem Coherent.tpcInitializeTpc (h : Coherent dbb) (n : Nat) :
    Coherent (tpcInitializeTpc dbb n) := by
  unfold Tpc.tpcInitializeTpc
  split
  next hlast => exact h.cacheTransactions (atEnd_nil (getLast?_eq_none_iff.1 hlast))
  next last hlast =>
    split_ifs
    · exact h
    · exact h.cacheTransactions (atEnd_last hlast)
    · exact h

theorem reaches_of_isEmpty (h : Coherent dbb) (hnil : dbb.dbbTipCache = []) :
    Reaches dbb.transPerTIP dbb.hdrNextTransaction (cacheTransactions dbb 0).2.dbbTipCache :=
  cacheTransactions_reaches h.sound h.contiguous h.agrees (atEnd_nil hnil) (Nat.zero_le _)

theorem Coherent.blockState (h : Coherent dbb) (hn : n < 2 ^ 31)
    (hfirst : ∀ tpc ∈ dbb.dbbTipCache.head?, tpc.tpcBase ≤ n) :
    ∃ a, blockState dbb n = some a ∧ AnswerOk dbb n a := by
  unfold Tpc.blockState
  cases hfind : findBlock dbb.transPerTIP n dbb.dbbTipCache with
  | none => exact ⟨_, rfl, fun s hs hf => by cases hs; rcases hf with h | h <;> cases h⟩
  | some tpc =>
    obtain ⟨k, hk⟩ := h.contiguous
    have hstart : k * dbb.transPerTIP ≤ n := by
      cases hl : dbb.dbbTipCache with
      | nil => rw [hl] at hfind; cases hfind
      | cons first rest =>
        rw [hl] at hk hfirst
        exact hk.1 ▸ hfirst first rfl
    have hold := (hk.findBlock_holds (Nat.dvd_mul_left _ _) hstart hfind).1
    refine ⟨.state (tpc.state n), ?_, fun s hs hf => .inr ?_⟩
    · simp [TxPageCache.lookup, hold]
    · cases hs
      exact h.agrees tpc (mem_of_find?_eq_some hfind) n hn hold hf

theorem answerOk_below (h : Coherent dbb) (hn : n < dbb.oldestInteresting ∨ n = 0) :
    AnswerOk dbb n (.state .committed) := by
  intro s hs _
  cases hs
  by_cases h0 : n = 0
  · exact .inl ⟨h0, rfl⟩
  · exact .inr (h.committed n (by omega) (by omega)).symm

def Answered (n : Nat) (r : Option Answer × Database) : Prop :=
  (∃ a, r.1 = some a ∧ AnswerOk r.2 n a) ∧ Coherent r.2

theorem answered_precommitted (h : Coherent dbb) : Answered n (some .precommitted, dbb) :=
  ⟨⟨_, rfl, fun _ hs => by cases hs⟩, h⟩

theorem answered_active (h : Coherent dbb) : Answered n (some (.state .active), dbb) :=
  ⟨⟨_, rfl, fun s hs hf => by cases hs; rcases hf with h | h <;> cases h⟩, h⟩

theorem Coherent.below_first (h : Coherent dbb) {first : TxPageCache}
    (hfirst : dbb.dbbTipCache.head? = some first) (hn : n < first.tpcBase ∨ n = 0) :
    Answered n (some (.state .committed), dbb) := by
  have hle := h.first first hfirst
  have hbelow : n < dbb.oldestInteresting ∨ n = 0 := by omega
  exact ⟨⟨_, rfl, answerOk_below h hbelow⟩, h⟩

theorem Coherent.tpcCacheState (h : Coherent dbb) (hn : n < 2 ^ 31) :
    Answered n (tpcCacheState dbb n) := by
  have hcoh : Coherent (if dbb.dbbTipCache.isEmpty then Tpc.tpcInitializeTpc dbb n else dbb) := by
    split_ifs
    · exact h.tpcInitializeTpc n
    · exact h
  have hne : (if dbb.dbbTipCache.isEmpty then Tpc.tpcInitializeTpc dbb n else dbb).dbbTipCache ≠
    [] := by
    split_ifs with he
    · rw [List.isEmpty_iff] at he
      obtain ⟨tpc, hmem, _⟩ := reaches_of_isEmpty h he
      have heq : Tpc.tpcInitializeTpc dbb n = (Tpc.cacheTransactions dbb 0).2 := by
        simp [Tpc.tpcInitializeTpc, he]
      rw [heq]
      exact ne_nil_of_mem hmem
    · simpa using he
  unfold Tpc.tpcCacheState
  generalize (if dbb.dbbTipCache.isEmpty then Tpc.tpcInitializeTpc dbb n else dbb) = d at *
  dsimp only
  split_ifs with hp
  · exact answered_precommitted hcoh
  · cases hl : d.dbbTipCache.head? with
    | none => exact absurd (head?_eq_none_iff.1 hl) hne
    | some first =>
      dsimp only
      split_ifs with hb
      · exact hcoh.below_first hl hb
      · refine ⟨hcoh.blockState hn fun tpc htpc => ?_, hcoh⟩
        obtain rfl : first = tpc := Option.some.inj (hl.symm.trans htpc)
        omega

/-- The number is not passed over by the blocks that an extension of the cache drops. -/
def NotPassed (dbb : Database) (n : Nat) : Prop :=
  n < dbb.hdrOldestTransaction ∨
    dbb.dbbOldestTransaction < (n / dbb.transPerTIP + 1) * dbb.transPerTIP

theorem passed_of_lt (hlt : dbb.dbbOldestTransaction < (n / dbb.transPerTIP + 1) *
    dbb.transPerTIP) :
    Passed dbb n := by
  rintro b ⟨k, rfl⟩ hle
  have hk : k < n / dbb.transPerTIP + 1 := by
    refine Nat.lt_of_mul_lt_mul_left (a := dbb.transPerTIP) ?_
    rw [Nat.mul_comm dbb.transPerTIP (n / dbb.transPerTIP + 1)]
    exact Nat.lt_of_le_of_lt hle hlt
  calc dbb.transPerTIP * k ≤ dbb.transPerTIP * (n / dbb.transPerTIP) :=
        Nat.mul_le_mul_left _ (by omega)
    _ ≤ n := Nat.mul_div_le _ _

theorem Coherent.extendCache (h : Coherent dbb) (hn : n < 2 ^ 31) (hne : dbb.dbbTipCache ≠ [])
    (hfirst : ∀ tpc ∈ dbb.dbbTipCache.head?, tpc.tpcBase ≤ n) (hpass : NotPassed dbb n) :
    Answered n (extendCache dbb n) := by
  unfold Tpc.extendCache
  cases hlast : dbb.dbbTipCache.getLast? with
  | none => exact absurd (getLast?_eq_none_iff.1 hlast) hne
  | some last =>
    dsimp only
    have he := atEnd_last hlast
    have hcoh := h.cacheTransactions he
    have hsame := (cacheTransactions_filling h.sound h.contiguous h.agrees he).1
    have hold : (Tpc.cacheTransactions dbb (last.tpcBase + dbb.transPerTIP)).1 =
        dbb.hdrOldestTransaction := rfl
    split_ifs with hmax hlt
    · refine ⟨⟨_, rfl, answerOk_below hcoh (.inl ?_)⟩, hcoh⟩
      rw [hsame]
      exact Nat.lt_of_lt_of_le hlt (hdrOldest_le_oldestInteresting dbb)
    · rw [hold] at hlt
      refine ⟨hcoh.blockState hn ?_, hcoh⟩
      exact (cacheTransactions_startsBelow h.sound h.contiguous h.agrees he
        (passed_of_lt (hpass.resolve_left hlt)) (by omega) (h.startsBelow hfirst)).head
    · exact ⟨h.blockState hn hfirst, h⟩

theorem findBlock_eq_none {t : Nat} {cache : List TxPageCache} (h : findBlock t n cache = none) :
    ∀ tpc ∈ cache, tpc.tpcBase + t ≤ n := by
  intro tpc hmem
  have := find?_eq_none.1 h tpc hmem
  simpa using this

theorem Coherent.traFetchState (h : Coherent dbb) (n : Nat) :
    Answered n (some (.state (traFetchState dbb n).1), (traFetchState dbb n).2) := by
  refine ⟨⟨_, rfl, fun s hs _ => .inr ?_⟩, h.tpcUpdateCache _⟩
  cases hs
  rfl

theorem Coherent.snapshotBlock (h : Coherent dbb) (hn : n < 2 ^ 31) {first : TxPageCache}
    (hfirst : dbb.dbbTipCache.head? = some first) (hle : first.tpcBase ≤ n)
    (hpass : (∀ tpc ∈ dbb.dbbTipCache, tpc.tpcBase + dbb.transPerTIP ≤ n) → NotPassed dbb n)
    (lockFree : Bool) :
    Answered n (snapshotBlock dbb n lockFree) := by
  have hhead : ∀ tpc ∈ dbb.dbbTipCache.head?, tpc.tpcBase ≤ n := by
    intro tpc htpc
    obtain rfl : first = tpc := Option.some.inj (hfirst.symm.trans htpc)
    exact hle
  unfold Tpc.snapshotBlock
  cases hfind : findBlock dbb.transPerTIP n dbb.dbbTipCache with
  | none =>
    refine h.extendCache hn (fun hnil => ?_) hhead (hpass (findBlock_eq_none hfind))
    rw [hnil] at hfirst
    cases hfirst
  | some tpc =>
    have hblock := h.blockState hn hhead
    simp only [Tpc.blockState, hfind] at hblock
    dsimp only
    cases hlook : tpc.lookup dbb.transPerTIP n with
    | none => simp [hlook] at hblock
    | some state =>
      simp only [hlook] at hblock
      dsimp only
      split_ifs
      · exact ⟨hblock, h⟩
      · exact h.traFetchState n
      · exact answered_active h

theorem Coherent.tpcSnapshotState (h : Coherent dbb) (hn : n < 2 ^ 31)
    (hpass : dbb.dbbTipCache ≠ [] →
      (∀ tpc ∈ dbb.dbbTipCache, tpc.tpcBase + dbb.transPerTIP ≤ n) → NotPassed dbb n)
    (lockFree : Bool) : Answered n (tpcSnapshotState dbb n lockFree) := by
  have hd : ∀ d, d = (if dbb.dbbTipCache.isEmpty then (Tpc.cacheTransactions dbb 0).2 else dbb) →
      Coherent d ∧ d.dbbTipCache ≠ [] ∧
        ((∀ tpc ∈ d.dbbTipCache, tpc.tpcBase + d.transPerTIP ≤ n) → NotPassed d n) := by
    rintro d rfl
    split_ifs with he
    · rw [List.isEmpty_iff] at he
      obtain ⟨tpc, hmem, hnext⟩ := reaches_of_isEmpty h he
      refine ⟨h.cacheTransactions (atEnd_nil he), ne_nil_of_mem hmem, fun hall => .inr ?_⟩
      have hend := hall tpc hmem
      rw [(cacheTransactions_filling h.sound h.contiguous h.agrees (atEnd_nil he)).1] at hend ⊢
      change tpc.tpcBase + dbb.transPerTIP ≤ n at hend
      change dbb.dbbOldestTransaction < (n / dbb.transPerTIP + 1) * dbb.transPerTIP
      have hlt : n < (n / dbb.transPerTIP + 1) * dbb.transPerTIP :=
        Nat.lt_mul_of_div_lt (Nat.lt_succ_self _) h.sound.transPerTIP_pos
      have hold := h.sound.dbbOldest_le
      omega
    · have hne : dbb.dbbTipCache ≠ [] := by simpa using he
      exact ⟨h, hne, hpass hne⟩
  obtain ⟨hcoh, hne, hpass'⟩ := hd _ rfl
  unfold Tpc.tpcSnapshotState
  generalize (if dbb.dbbTipCache.isEmpty then (Tpc.cacheTransactions dbb 0).2 else dbb) = d at *
  dsimp only
  split_ifs
  · exact answered_precommitted hcoh
  · cases hl : d.dbbTipCache.head? with
    | none => exact absurd (head?_eq_none_iff.1 hl) hne
    | some first =>
      dsimp only
      split_ifs with hb
      · exact hcoh.below_first hl hb
      · exact hcoh.snapshotBlock hn hl (by omega) hpass' lockFree

theorem Coherent.tpcSetState (h : Coherent dbb) {s : TraState}
    (hs : dbb.tipState n = s) (hfirst : ∀ tpc ∈ dbb.dbbTipCache.head?, tpc.tpcBase ≤ n) :
    Coherent (tpcSetState dbb n s) := by
  have h4 := h.sound.four_dvd
  rw [tpcSetState_eq dbb h4]
  obtain ⟨k, hk⟩ := h.contiguous
  refine h.of_cache rfl ⟨k, blocks_updateFirst hk⟩ (h.startsBelow h.first).updateFirst ?_
  refine forall_mem_updateFirst h.agrees fun tpc hfind => ?_
  have hstart : k * dbb.transPerTIP ≤ n := by
    cases hl : dbb.dbbTipCache with
    | nil => rw [hl] at hfind; cases hfind
    | cons first rest =>
      rw [hl] at hk hfirst
      exact hk.1 ▸ hfirst first rfl
  obtain ⟨hold, hdvd⟩ := hk.findBlock_holds (Nat.dvd_mul_left _ _) hstart hfind
  have hmod : n % dbb.transPerTIP = n - tpc.tpcBase := by
    obtain ⟨j, hj⟩ := hdvd
    obtain ⟨hlo, hhi⟩ := hold
    have e : n = j * dbb.transPerTIP + (n - tpc.tpcBase) := by
      rw [Nat.mul_comm j, ← hj]
      omega
    rw [e, mul_add_mod_tip j (by omega), ← e]
  intro m hm hmt hf
  rw [TxPageCache.state_set (h4.trans hdvd) hold hmt hm hmod] at hf ⊢
  split_ifs at hf ⊢ with he
  · rw [he, hs]
  · exact h.agrees tpc (mem_of_find?_eq_some hfind) m hm hmt hf

/-! ## Runs -/

/-- A call, or what the other processes and `TRA_start` do between two calls. -/
inductive Action where
  | initializeTpc (number : Nat)
  | cacheState (number : Nat)
  | snapshotState (number : Nat) (lockFree : Bool)
  | setState (number : Nat) (state : TraState)
  | updateCache (sequence : Nat)
  | others (tip : Nat → Bytes) (hdrOldest hdrNext dbbOldest : Nat) (pcTransactions : List Nat)

/-- How a call ends. `outside` is a read outside of a block. -/
inductive Outcome where
  | done
  | answered (number : Nat) (a : Answer)
  | outside

def Outcome.ofAnswer (number : Nat) : Option Answer → Outcome
  | some a => .answered number a
  | none => .outside

def exec (dbb : Database) : Action → Outcome × Database
  | .initializeTpc number => (.done, tpcInitializeTpc dbb number)
  | .cacheState number =>
    let (a, dbb) := tpcCacheState dbb number
    (.ofAnswer number a, dbb)
  | .snapshotState number lockFree =>
    let (a, dbb) := tpcSnapshotState dbb number lockFree
    (.ofAnswer number a, dbb)
  | .setState number state => (.done, tpcSetState dbb number state)
  | .updateCache sequence => (.done, tpcUpdateCache dbb (dbb.tip sequence) sequence)
  | .others tip hdrOldest hdrNext dbbOldest pcTransactions =>
    (.done, { dbb with
      tip, hdrOldestTransaction := hdrOldest, hdrNextTransaction := hdrNext,
      dbbOldestTransaction := dbbOldest, dbbPcTransactions := pcTransactions })

/-- What holds between two calls: the numbers of the header only grow, and all transactions below
the oldest one are committed. -/
def Promised (dbb : Database) : Action → Prop
  | .initializeTpc number => number < 2 ^ 31
  | .cacheState number => number < 2 ^ 31
  | .snapshotState number _ => number < 2 ^ 31
  | .setState number _ => number < 2 ^ 31
  | .updateCache _ => True
  | .others tip hdrOldest hdrNext dbbOldest pcTransactions =>
    let dbb' := (exec dbb (.others tip hdrOldest hdrNext dbbOldest pcTransactions)).2
    dbb.hdrOldestTransaction ≤ hdrOldest ∧ dbb.hdrNextTransaction ≤ hdrNext ∧
      dbb.oldestInteresting ≤ dbb'.oldestInteresting ∧ Sound dbb' ∧
      ∀ n, 0 < n → n < dbb'.oldestInteresting → dbb'.tipState n = .committed

/-- Where the calls do what they should: `TPC_set_state` is for a number that the cache does not
start above, with the state that the page has; the extension that `TPC_snapshot_state` makes does
not pass its number over; and on the pages committed or dead transactions stay so. -/
def InRange (dbb : Database) : Action → Prop
  | .setState number state =>
    dbb.tipState number = state ∧ ∀ tpc ∈ dbb.dbbTipCache.head?, tpc.tpcBase ≤ number
  | .snapshotState number _ => dbb.dbbTipCache ≠ [] →
    (∀ tpc ∈ dbb.dbbTipCache, tpc.tpcBase + dbb.transPerTIP ≤ number) →
    number < dbb.hdrOldestTransaction ∨
      dbb.dbbOldestTransaction < (number / dbb.transPerTIP + 1) * dbb.transPerTIP
  | .others tip hdrOldest hdrNext dbbOldest pcTransactions =>
    let dbb' := (exec dbb (.others tip hdrOldest hdrNext dbbOldest pcTransactions)).2
    ∀ n, (dbb.tipState n).Final → dbb'.tipState n = dbb.tipState n
  | _ => True

structure Attached (dbb : Database) : Prop where
  sound : Sound dbb
  committed : ∀ n, 0 < n → n < dbb.oldestInteresting → dbb.tipState n = .committed
  empty : dbb.dbbTipCache = []

/-- What the runs whose steps all meet `cond` reach. -/
inductive Reached (cond : Database → Action → Prop) : Database → Prop
  | start {dbb : Database} : Attached dbb → Reached cond dbb
  | step {dbb : Database} {a : Action} :
    Reached cond dbb → Promised dbb a → cond dbb a → Reached cond (exec dbb a).2

def Outcome.Ok (dbb : Database) : Outcome → Prop
  | .done => True
  | .answered number a => AnswerOk dbb number a
  | .outside => False

theorem Answered.ok {r : Option Answer × Database} (h : Answered n r) :
    Coherent r.2 ∧ (Outcome.ofAnswer n r.1).Ok r.2 := by
  obtain ⟨⟨a, ha, hok⟩, hcoh⟩ := h
  rw [ha]
  exact ⟨hcoh, hok⟩

theorem Coherent.others (h : Coherent dbb) {tip : Nat → Bytes} {hdrOldest hdrNext dbbOldest : Nat}
    {pcTransactions : List Nat}
    (hp : Promised dbb (.others tip hdrOldest hdrNext dbbOldest pcTransactions))
    (hfinal : InRange dbb (.others tip hdrOldest hdrNext dbbOldest pcTransactions)) :
    Coherent (exec dbb (.others tip hdrOldest hdrNext dbbOldest pcTransactions)).2 := by
  obtain ⟨_, _, hgrow, hsound, hcommitted⟩ := hp
  refine ⟨hsound, hcommitted, h.contiguous, fun tpc htpc => (h.first tpc htpc).trans hgrow, ?_⟩
  intro tpc hmem m hm hold hf
  have heq := h.agrees tpc hmem m hm hold hf
  rw [heq] at hf ⊢
  exact (hfinal m hf).symm

theorem Coherent.exec {a : Action} (h : Coherent dbb) (hp : Promised dbb a) (hc : InRange dbb a) :
    Coherent (exec dbb a).2 ∧ (exec dbb a).1.Ok (Tpc.exec dbb a).2 := by
  cases a with
  | initializeTpc number => exact ⟨h.tpcInitializeTpc number, trivial⟩
  | cacheState number => exact (h.tpcCacheState hp).ok
  | snapshotState number lockFree => exact (h.tpcSnapshotState hp hc lockFree).ok
  | setState number state => exact ⟨h.tpcSetState hc.1 hc.2, trivial⟩
  | updateCache sequence => exact ⟨h.tpcUpdateCache sequence, trivial⟩
  | others => exact ⟨h.others hp hc, trivial⟩

theorem Attached.coherent (h : Attached dbb) : Coherent dbb := by
  refine ⟨h.sound, h.committed, ?_, ?_, ?_⟩ <;> rw [h.empty]
  · exact ⟨0, trivial⟩
  · exact fun tpc htpc => by cases htpc
  · exact fun tpc htpc => by cases htpc

theorem Reached.coherent (h : Reached InRange dbb) : Coherent dbb := by
  induction h with
  | start h => exact h.coherent
  | step _ hp hc ih => exact (ih.exec hp hc).1

/-- In a run whose steps are in range the cache is one contiguous range of whole pages, it starts at
the oldest interesting transaction or below, no read is outside of its block, and every answer
committed or dead is that of the inventory page. -/
theorem tip_cache_run {dbb : Database} {a : Action} (h : Reached InRange dbb) (hp : Promised dbb a)
    (hc : InRange dbb a) :
    Contiguous (exec dbb a).2.transPerTIP (exec dbb a).2.dbbTipCache ∧
      (∀ number, (exec dbb a).2.oldestInteresting ≤ number →
        ∀ first ∈ (exec dbb a).2.dbbTipCache.head?, first.tpcBase ≤ number) ∧
      (exec dbb a).1.Ok (exec dbb a).2 := by
  obtain ⟨hcoh, hok⟩ := h.coherent.exec hp hc
  exact ⟨hcoh.contiguous, fun number hle first hfirst => (hcoh.first first hfirst).trans hle, hok⟩

def newDatabase : Database :=
  { transPerTIP := 4016
    dbbReadOnly := false
    dbbTipCache := []
    dbbOldestTransaction := 1
    dbbPcTransactions := []
    tip := fun _ _ => 0
    hdrOldestTransaction := 1
    hdrNextTransaction := 1 }

theorem attached_newDatabase : Attached newDatabase :=
  ⟨⟨by decide, by decide, by decide, by decide, by decide, by decide⟩,
    fun n h h' => absurd h' (by change ¬ n < 1; omega), rfl⟩

theorem tip_cache_run_first :
    Contiguous 4016 (exec newDatabase (.initializeTpc 1)).2.dbbTipCache :=
  (tip_cache_run (a := .initializeTpc 1) (.start attached_newDatabase)
    (show 1 < 2 ^ 31 by decide) trivial).1

def committedTip (sequence i : Nat) : BitVec 8 := if sequence * 4016 + 4 * i < 8100 then 0xff else 0

theorem tipState_committedTip {dbb : Database} (ht : dbb.transPerTIP = 4016)
    (htip : dbb.tip = committedTip) (hn : n < 8100) : dbb.tipState n = .committed := by
  have hbyte : n / 4016 * 4016 + 4 * (n % 4016 / 4) < 8100 := by omega
  have hshift : ∀ k < 4, TraState.ofBits (0xff#8 >>> (2 * k) &&& 3) = .committed := by decide
  unfold Database.tipState
  rw [ht, htip]
  unfold committedTip transOffset
  rw [if_pos hbyte]
  exact hshift (n % 4) (Nat.mod_lt _ (by decide))

/-- The cache was made for the first page; the transactions since then were snapshots, which do not
extend it. The last of them has found all below 8100 committed. -/
def laterActions : List Action :=
  [.initializeTpc 1, .others committedTip 1 9000 8100 []]

def laterDatabase : Database := laterActions.foldl (fun dbb a => (exec dbb a).2) newDatabase

theorem reached_laterDatabase : Reached (fun _ _ => True) laterDatabase := by
  refine .step (a := .others committedTip 1 9000 8100 [])
    (.step (a := .initializeTpc 1) (.start attached_newDatabase) (show 1 < 2 ^ 31 by decide)
      trivial)
    ?_ trivial
  exact ⟨by decide, by decide, by decide, ⟨by decide, by decide, by decide, by decide, by decide,
    by decide⟩, fun n _ hn => tipState_committedTip rfl rfl hn⟩

/-- The extension drops the block of transaction 5000 and then reads its state in the next block. -/
theorem snapshot_state_outside :
    Reached (fun _ _ => True) laterDatabase ∧ Promised laterDatabase (.snapshotState 5000 true) ∧
      (exec laterDatabase (.snapshotState 5000 true)).1 = .outside :=
  ⟨reached_laterDatabase, show 5000 < 2 ^ 31 by decide, by rfl⟩

end Firebird.Jrd.Tpc
