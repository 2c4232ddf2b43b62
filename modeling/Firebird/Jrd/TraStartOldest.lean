import Firebird.Jrd.TraStartScan

/-!
# Runs of starting transactions

In every run the transactions below `dbb_oldest_transaction` have committed and those below
`dbb_oldest_active` are over, as far as each starting transaction can tell, and both numbers grow.
A read-only database without `MULTI_THREAD` is left aside once `dbb_oldest_transaction` is below
zero.
-/
namespace Firebird.Jrd.Tra

open Lib Tpc

def World.next (w : World) : Nat := if w.dbb.readOnly then w.dbb.next else w.header.next

structure World.Ok (multiThread : Bool) (w : World) : Prop where
  oldest_le : w.dbb.oldest ≤ w.next + 1
  oldestActive_le : w.dbb.oldestActive ≤ w.next + 1
  next_lt : w.next < 2 ^ 31
  low : -1 ≤ w.dbb.oldest
  header : w.dbb.readOnly = false → 0 ≤ w.dbb.oldest ∧ 1 ≤ w.header.oldest ∧
    w.header.oldest ≤ w.next + 1 ∧ w.header.oldestActive ≤ w.next + 1
  pos : w.dbb.readOnly = true → multiThread = true → 1 ≤ w.dbb.oldest

/-- The oldest transaction has not been taken below zero, which is as an unsigned number above all
others. Only in a read-only database without `MULTI_THREAD` it is. -/
def World.Counts (multiThread : Bool) (w : World) : Prop :=
  multiThread = true ∨ w.dbb.readOnly = false ∨ 0 ≤ w.dbb.oldest

/-- What a transaction starts with: its number is new, and the oldest transactions are not older
than those that are known. -/
structure Started (multiThread : Bool) (w w₁ : World) (m : Numbers) : Prop where
  readOnly : w₁.dbb.readOnly = w.dbb.readOnly
  dbbOldest : w₁.dbb.oldest = w.dbb.oldest
  dbbOldestActive : w₁.dbb.oldestActive = w.dbb.oldestActive
  next : w₁.next = m.number
  number : m.number = w.next + 1
  oldest : w.dbb.oldest ≤ m.oldest
  oldest_le : m.oldest ≤ m.number
  oldestActive : w.dbb.oldestActive ≤ m.oldestActive
  oldestActive_le : m.oldestActive ≤ m.number
  pos : w.dbb.readOnly = false ∨ multiThread = true → 1 ≤ m.oldest
  header : w.dbb.readOnly = false → 1 ≤ w₁.header.oldest ∧ w₁.header.oldest ≤ m.number ∧
    w₁.header.oldestActive ≤ m.number

variable {multiThread readCommitted : Bool} {w w₁ w' : World} {m : Numbers} {seen : Seen}

/-- The header page takes over the numbers of `Database` that are higher. -/
structure Bumped (w w₁ : World) : Prop where
  lt : w.header.next < maxTraNumber - 1
  dbb : w₁.dbb = w.dbb
  next : w₁.header.next = w.header.next + 1
  oldest : (w₁.header.oldest : Int) = max w.dbb.oldest w.header.oldest
  oldestActive : w₁.header.oldestActive = max w.dbb.oldestActive w.header.oldestActive

theorem bumpTransactionId_some (h : bumpTransactionId w = some w₁) : Bumped w w₁ := by
  unfold bumpTransactionId at h
  by_cases hbug : w.header.next ≠ 0 ∧
      (w.header.oldestActive > w.header.next ∨ w.header.oldest > w.header.next)
  · rw [if_pos hbug] at h
    cases h
  by_cases hmax : w.header.next ≥ maxTraNumber - 1
  · rw [if_neg hbug, if_pos hmax] at h
    cases h
  rw [if_neg hbug, if_neg hmax] at h
  cases h
  refine ⟨by omega, rfl, rfl, ?_, ?_⟩
  all_goals
    dsimp only
    split_ifs <;> omega

theorem World.Ok.nonneg (h : w.Ok multiThread) (hc : w.Counts multiThread) : 0 ≤ w.dbb.oldest := by
  obtain hro | hro := Bool.eq_false_or_eq_true w.dbb.readOnly
  · rcases hc with hmulti | hfalse | hle
    · exact (Int.zero_le_ofNat 1).trans (h.pos hro hmulti)
    · rw [hro] at hfalse
      cases hfalse
    · exact hle
  · exact (h.header hro).1

theorem World.Ok.startNumbers (h : w.Ok multiThread) (hc : w.Counts multiThread)
    (hm : startNumbers w = some (m, w₁)) : Started multiThread w w₁ m := by
  have hnext : w.next = if w.dbb.readOnly then w.dbb.next else w.header.next := rfl
  have hle := h.oldest_le
  have hactive := h.oldestActive_le
  have hlt := h.next_lt
  have hnonneg := h.nonneg hc
  unfold Tra.startNumbers at hm
  obtain hro | hro := Bool.eq_false_or_eq_true w.dbb.readOnly
  · simp only [hro] at hm
    obtain ⟨rfl, rfl⟩ := hm
    rw [hro, if_pos rfl] at hnext
    have hpos := h.pos hro
    have hulong : ((ulong w.dbb.oldest).toNat : Int) = w.dbb.oldest % 2 ^ 32 :=
      Int.toNat_of_nonneg (Int.emod_nonneg _ (by decide))
    refine ⟨hro.symm, rfl, rfl, by simp [World.next], by simp [hnext], ?_, ?_, le_rfl, ?_,
      ?_, by simp [hro]⟩
    · change w.dbb.oldest ≤ ((ulong w.dbb.oldest).toNat : Int)
      omega
    · change (ulong w.dbb.oldest).toNat ≤ w.dbb.next + 1
      omega
    · change w.dbb.oldestActive ≤ w.dbb.next + 1
      omega
    · rintro (hro' | rfl)
      · rw [hro] at hro'
        cases hro'
      · have := hpos rfl
        change 1 ≤ (ulong w.dbb.oldest).toNat
        omega
  · rw [hro, if_neg Bool.false_ne_true] at hnext
    simp only [hro, Bool.false_eq_true, if_false] at hm
    obtain ⟨h0, h1, h2, h3⟩ := h.header hro
    rw [Option.map_eq_some_iff] at hm
    obtain ⟨w', hw', hm⟩ := hm
    simp only [Prod.mk.injEq] at hm
    obtain ⟨rfl, rfl⟩ := hm
    obtain ⟨hmax, hdbb, hnext', holdest, hactive'⟩ := bumpTransactionId_some hw'
    have hw₁ : w'.next = w'.header.next := by simp [World.next, hdbb, hro]
    refine ⟨by rw [hdbb], by rw [hdbb], by rw [hdbb], hw₁, ?_, ?_, ?_, ?_, ?_,
      fun _ => ?_, fun _ => ⟨?_, ?_, ?_⟩⟩ <;> (try dsimp only) <;> omega

variable {oldest oldestActive data : Nat} {dbb : Dbb}

theorem publish_multiThread (hpos : 1 ≤ oldest)
    (hlt : oldest ≤ 2 ^ 31) (h0 : 0 ≤ dbb.oldest) (hlt' : dbb.oldest ≤ 2 ^ 31) :
    (publish true oldest oldestActive data dbb).oldest = max dbb.oldest (oldest - 1) ∧
      (publish true oldest oldestActive data dbb).oldestActive =
        max dbb.oldestActive oldestActive := by
  have hulong := ulong_of_lt (n := (oldest : Int) - 1) (by omega) (by omega)
  have hulong' := ulong_of_lt h0 (show dbb.oldest < 2 ^ 32 by omega)
  have hslong := slong_of_lt (n := (oldest : Int) - 1) (by omega) (by omega)
  unfold publish
  simp only [if_true]
  refine ⟨?_, ?_⟩
  all_goals
    split_ifs <;> simp only [] <;> omega

theorem publish_singleThread :
    (publish false oldest oldestActive data dbb).oldest = slong (oldest - 1) ∧
      (publish false oldest oldestActive data dbb).oldestActive = oldestActive := by
  unfold publish
  simp only [Bool.false_eq_true, if_false]
  split_ifs <;> exact ⟨rfl, rfl⟩

theorem publish_rest :
    (publish multiThread oldest oldestActive data dbb).readOnly = dbb.readOnly ∧
      (publish multiThread oldest oldestActive data dbb).next = dbb.next := by
  unfold publish
  dsimp only
  split_ifs <;> exact ⟨rfl, rfl⟩

/-! ## One start -/

/-- The inventory that a transaction meets: what is below the numbers it starts with is as they say.
Transaction 0 is the system's own. -/
structure Promised (seen : Seen) (m : Numbers) : Prop where
  size : 0 < seen.inventory.transPerTIP
  four : 4 ∣ seen.inventory.transPerTIP
  number : m.number < 2 ^ 31
  committed : ∀ n, 0 < n → n < m.oldest → seen.inventory.tipState n = .committed
  ended : ∀ n, 0 < n → n < m.oldestActive → seen.inventory.tipState n ≠ .active

/-- A transaction has committed: according to the inventory, to `TRA_wait` or, for a read-committed
transaction, to the cache. -/
def KnownCommitted (readCommitted : Bool) (seen : Seen) (m : Numbers) (n : Nat) : Prop :=
  if n < m.oldest then seen.inventory.tipState n = .committed
  else if readCommitted then
    isCommitted (cached seen.outside (tpcCacheState (seen.again n) n) n) = true
  else Told seen m.number n .committed

/-- A transaction is not active: according to the inventory or the cache, or the clean-up has
passed it. -/
def KnownOver (readCommitted : Bool) (seen : Seen) (m : Numbers) (n : Nat) : Prop :=
  if n < max m.oldestActive m.oldest then seen.inventory.tipState n ≠ .active
  else Over seen readCommitted m.number n

/-- What `TRA_start` leaves. -/
structure Kept (multiThread readCommitted : Bool) (seen : Seen) (m : Numbers) (w w' : World) :
    Prop where
  committed : ∀ n : Nat, 0 < n → (n : Int) < w'.dbb.oldest → KnownCommitted readCommitted seen m n
  ended : ∀ n, 0 < n → n < w'.dbb.oldestActive → KnownOver readCommitted seen m n
  oldest_le : w'.dbb.oldest ≤ m.number
  oldestActive_le : w'.dbb.oldestActive ≤ m.number
  oldest_mono : multiThread = true → w.dbb.oldest ≤ w'.dbb.oldest
  oldest_falls : w.dbb.oldest - 1 ≤ w'.dbb.oldest
  oldestActive_mono : w.dbb.oldestActive ≤ w'.dbb.oldestActive

structure Scans (readCommitted : Bool) (seen : Seen) (m : Numbers) (r : Nat × Found) : Prop where
  oldest : m.oldest ≤ r.1
  oldest_le : r.1 ≤ max m.oldest m.number
  committed : ∀ n, 0 < n → n < r.1 → KnownCommitted readCommitted seen m n
  le : r.2.oldestActive ≤ m.number
  ge : min (max m.oldestActive m.oldest) m.number ≤ r.2.oldestActive
  ended : ∀ n, 0 < n → n < r.2.oldestActive → KnownOver readCommitted seen m n

theorem Promised.knownCommitted_of_lt (hp : Promised seen m) {n : Nat} (h0 : 0 < n)
    (hn : n < m.oldest) : KnownCommitted readCommitted seen m n := by
  rw [KnownCommitted, if_pos hn]
  exact hp.committed n h0 hn

theorem Promised.knownOver_of_lt (hp : Promised seen m) {n : Nat} (h0 : 0 < n)
    (hn : n < max m.oldestActive m.oldest) : KnownOver readCommitted seen m n := by
  rw [KnownOver, if_pos hn]
  obtain hlt | hlt := lt_max_iff.mp hn
  · exact hp.ended n h0 hlt
  · rw [hp.committed n h0 hlt]
    decide

theorem Promised.before (hp : Promised seen m) :
    Before seen readCommitted (m.oldest / 4 * 4) m.number (max m.oldestActive m.oldest)
      ⟨startVector readCommitted seen m, m.number % traActiveCleanup = 0, seen.inventory⟩ := by
  have htip : readCommitted = false → ∀ n, m.oldest / 4 * 4 ≤ n → n < m.number →
      vectorState (startVector readCommitted seen m) (m.oldest / 4 * 4) n =
        seen.inventory.tipState n := by
    rintro rfl n hn hlt
    exact vectorState_startVector hp.size hp.four hp.number hn hlt
  exact ⟨fun h => by simpa using h, fun hrc n hn hlt => .inl (htip hrc n hn hlt),
    fun hrc n hn hlt _ => htip hrc n hn hlt⟩

theorem Promised.startScans (hp : Promised seen m) :
    Scans readCommitted seen m (startScans readCommitted seen m) := by
  have hb4 : 4 ∣ m.oldest / 4 * 4 := Dvd.intro_left _ rfl
  have hb : m.oldest / 4 * 4 ≤ m.oldest := Nat.div_mul_le_self _ _
  have hactive := scanActive_spec m.oldestSnapshot hb4
    (m.number - max m.oldestActive m.oldest) (hb.trans (le_max_right _ _)) (by omega)
    (@Promised.before readCommitted _ _ hp)
  unfold Tra.startScans
  dsimp only
  obtain ⟨hle, hle', hall⟩ := scanInteresting_spec seen readCommitted (m.oldest / 4 * 4) m.number
    m.oldest (scanActive seen readCommitted (m.oldest / 4 * 4) m.number m.oldestSnapshot
      (List.range' (max m.oldestActive m.oldest) (m.number - max m.oldestActive m.oldest))
      ⟨startVector readCommitted seen m, m.number % traActiveCleanup = 0,
        seen.inventory⟩).scan.transactions
  refine ⟨hle, hle', fun n h0 hn => ?_, hactive.le, hactive.ge, fun n h0 hn => ?_⟩
  · by_cases hlt : n < m.oldest
    · exact hp.knownCommitted_of_lt h0 hlt
    · have hcommitted := hall n (Nat.le_of_not_lt hlt) hn
      rw [KnownCommitted, if_neg hlt]
      unfold againState at hcommitted
      cases readCommitted with
      | true => exact hcommitted
      | false =>
        simp only [Bool.false_eq_true, if_false, isCommitted, beq_iff_eq] at hcommitted ⊢
        rw [← hcommitted]
        exact hactive.told rfl n (by omega) (by omega)
  · by_cases hlt : n < max m.oldestActive m.oldest
    · exact hp.knownOver_of_lt h0 hlt
    · rw [KnownOver, if_neg hlt]
      exact hactive.ended n (Nat.le_of_not_lt hlt) hn

theorem traStart_eq (hm : startNumbers w = some (m, w₁)) :
    traStart multiThread readCommitted seen w =
      some (if seen.granted then
        { w₁ with
          dbb := publish multiThread (startScans readCommitted seen m).1
            (startScans readCommitted seen m).2.oldestActive
            (startScans readCommitted seen m).2.traOldestActive w₁.dbb }
        else w₁) := by
  unfold traStart
  rw [hm]
  split_ifs <;> rfl

theorem Started.kept {d : Dbb} (hs : Started multiThread w w₁ m) (hp : Promised seen m)
    (hr : Scans readCommitted seen m (Tra.startScans readCommitted seen m))
    (hle : d.oldest ≤ m.number)
    (hold : d.oldest ≤ w.dbb.oldest ∨ d.oldest ≤ ((Tra.startScans readCommitted seen m).1 : Int) -
    1)
    (hact : d.oldestActive ≤ w.dbb.oldestActive ∨
      d.oldestActive ≤ (Tra.startScans readCommitted seen m).2.oldestActive)
    (hmono : multiThread = true → w.dbb.oldest ≤ d.oldest) (hfalls : w.dbb.oldest - 1 ≤ d.oldest)
    (hmono' : w.dbb.oldestActive ≤ d.oldestActive) :
    Kept multiThread readCommitted seen m w { w₁ with dbb := d } := by
  refine ⟨fun n h0 hn => ?_, fun n h0 hn => ?_, hle, ?_, hmono, hfalls, hmono'⟩
  · change (n : Int) < d.oldest at hn
    obtain h | h := hold
    · exact hp.knownCommitted_of_lt h0 (by have := hs.oldest; omega)
    · exact hr.committed n h0 (by omega)
  · change n < d.oldestActive at hn
    obtain h | h := hact
    · exact hp.knownOver_of_lt h0 (lt_max_of_lt_left (by have := hs.oldestActive; omega))
    · exact hr.ended n h0 (by omega)
  · change d.oldestActive ≤ m.number
    have := hs.oldestActive
    have := hs.oldestActive_le
    have := hr.le
    omega

theorem Kept.ok {d : Dbb} (h : Kept multiThread readCommitted seen m w { w₁ with dbb := d })
    (hw : w.Ok multiThread) (hs : Started multiThread w w₁ m) (hp : Promised seen m)
    (hro : d.readOnly = w₁.dbb.readOnly) (hnext : d.next = w₁.dbb.next)
    (hlow : -1 ≤ d.oldest) (hnonneg : w.dbb.readOnly = false → 0 ≤ d.oldest) :
    World.Ok multiThread { w₁ with dbb := d } := by
  have hnext' : World.next { w₁ with dbb := d } = m.number := by
    rw [← hs.next]
    simp [World.next, hro, hnext]
  have hro' : d.readOnly = w.dbb.readOnly := hro.trans hs.readOnly
  have hle : d.oldest ≤ m.number := h.oldest_le
  have hle' : d.oldestActive ≤ m.number := h.oldestActive_le
  refine ⟨?_, ?_, hnext' ▸ hp.number, ?_, fun hfalse => ?_, fun htrue hmulti => ?_⟩
  · rw [hnext']
    change d.oldest ≤ _
    omega
  · rw [hnext']
    change d.oldestActive ≤ _
    omega
  · exact hlow
  · rw [hnext']
    obtain ⟨h1, h2, h3⟩ := hs.header (hro' ▸ hfalse)
    exact ⟨hnonneg (hro' ▸ hfalse), h1, Nat.le_succ_of_le h2, Nat.le_succ_of_le h3⟩
  · exact (hw.pos (hro' ▸ htrue) hmulti).trans (h.oldest_mono hmulti)

theorem World.Ok.start (h : w.Ok multiThread) (hc : w.Counts multiThread)
    (hm : Tra.startNumbers w = some (m, w₁)) (hp : Promised seen m)
    (hw' : traStart multiThread readCommitted seen w = some w') :
    w'.Ok multiThread ∧ Kept multiThread readCommitted seen m w w' := by
  have hs := h.startNumbers hc hm
  have hr := @Promised.startScans readCommitted _ _ hp
  have hle := h.oldest_le
  have hle' := h.oldestActive_le
  have hnumber := hs.number
  have hnonneg := h.nonneg hc
  have hold := hs.oldest_le
  have hlt := hp.number
  rw [traStart_eq hm, Option.some.injEq] at hw'
  have hscan := hr.oldest
  have hscan' := hr.oldest_le
  cases hgranted : seen.granted with
  | false =>
    rw [hgranted, if_neg Bool.false_ne_true] at hw'
    subst hw'
    have hk : Kept multiThread readCommitted seen m w { w₁ with dbb := w₁.dbb } :=
      hs.kept hp hr (by rw [hs.dbbOldest]; omega) (.inl hs.dbbOldest.le)
        (.inl hs.dbbOldestActive.le)
        (fun _ => hs.dbbOldest.ge) (by rw [hs.dbbOldest]; omega) hs.dbbOldestActive.ge
    exact ⟨hk.ok h hs hp rfl rfl (by rw [hs.dbbOldest]; omega)
      fun _ => hs.dbbOldest ▸ hnonneg, hk⟩
  | true =>
    rw [hgranted, if_pos rfl] at hw'
    subst hw'
    have hrest := @publish_rest multiThread (startScans readCommitted seen m).1
      (startScans readCommitted seen m).2.oldestActive
      (startScans readCommitted seen m).2.traOldestActive w₁.dbb
    cases multiThread with
    | true =>
      have hpos := hs.pos (.inr rfl)
      obtain ⟨hold', hact'⟩ := @publish_multiThread (startScans readCommitted seen m).1
        (startScans readCommitted seen m).2.oldestActive
        (startScans readCommitted seen m).2.traOldestActive w₁.dbb (by omega) (by omega)
        (by rw [hs.dbbOldest]; exact hnonneg) (by rw [hs.dbbOldest]; omega)
      rw [hs.dbbOldest] at hold'
      rw [hs.dbbOldestActive] at hact'
      have hk := hs.kept (d := publish true (startScans readCommitted seen m).1
        (startScans readCommitted seen m).2.oldestActive
        (startScans readCommitted seen m).2.traOldestActive w₁.dbb) hp hr (by omega) (by omega)
        (by omega) (fun _ => by omega) (by omega) (by omega)
      exact ⟨hk.ok h hs hp hrest.1 hrest.2 (by omega) fun _ => by omega, hk⟩
    | false =>
      obtain ⟨hold', hact'⟩ := @publish_singleThread (startScans readCommitted seen m).1
        (startScans readCommitted seen m).2.oldestActive
        (startScans readCommitted seen m).2.traOldestActive w₁.dbb
      have hslong : slong ((startScans readCommitted seen m).1 - 1) =
          (startScans readCommitted seen m).1 - 1 := slong_of_lt (by omega) (by omega)
      have hge := hr.ge
      have hact := hs.oldestActive
      have hmono := hs.oldest
      have hk := hs.kept (d := publish false (startScans readCommitted seen m).1
        (startScans readCommitted seen m).2.oldestActive
        (startScans readCommitted seen m).2.traOldestActive w₁.dbb) hp hr (by omega) (by omega)
        (by omega) (fun he => Bool.noConfusion he) (by omega) (by omega)
      refine ⟨hk.ok h hs hp hrest.1 hrest.2 (by omega) fun hro => ?_, hk⟩
      have := hs.pos (.inl hro)
      omega

inductive Action where
  | start (readCommitted : Bool) (seen : Seen)
  | others (header : Header)

namespace Action

/-- Transactions meet an inventory that is as the numbers they start with say, and other processes
raise the numbers of the header page. -/
def Legal (multiThread : Bool) (w : World) : Action → Prop
  | start _ seen =>
    w.Counts multiThread ∧ ∀ m w₁, startNumbers w = some (m, w₁) → Promised seen m
  | others header => w.dbb.readOnly = false ∧ w.header.next ≤ header.next ∧ header.next < 2 ^ 31 ∧
      w.header.oldest ≤ header.oldest ∧ header.oldest ≤ header.next + 1 ∧
        header.oldestActive ≤ header.next + 1

def apply (multiThread : Bool) (w : World) : Action → World
  | start readCommitted seen => (traStart multiThread readCommitted seen w).getD w
  | others header => { w with header }

end Action

def Run (multiThread : Bool) : List Action → World → Prop
  | [], _ => True
  | a :: as, w => a.Legal multiThread w ∧ Run multiThread as (a.apply multiThread w)

def run (multiThread : Bool) (as : List Action) (w : World) : World :=
  as.foldl (fun w a => a.apply multiThread w) w

/-- A database as `PAG_header` attaches it: `Database` has the numbers of the header page, and that
has begun with the oldest transaction 1. -/
structure Attached (w : World) : Prop where
  next : w.dbb.next = w.header.next
  oldest : w.dbb.oldest = w.header.oldest
  oldestActive : w.dbb.oldestActive = w.header.oldestActive
  next_lt : w.header.next < 2 ^ 31
  pos : 1 ≤ w.header.oldest
  oldest_le : w.header.oldest ≤ w.header.next + 1
  oldestActive_le : w.header.oldestActive ≤ w.header.next + 1

theorem Attached.ok (h : Attached w) (multiThread : Bool) : w.Ok multiThread := by
  obtain ⟨hnext, hold, hact, hlt, hpos, hle, hle'⟩ := h
  have e : w.next = w.header.next := by
    unfold World.next
    rw [hnext, ite_self]
  refine ⟨?_, ?_, ?_, ?_, fun _ => ⟨?_, ?_, ?_, ?_⟩, fun _ _ => ?_⟩ <;> omega

theorem World.Ok.others {header : Header} (h : w.Ok multiThread)
    (hl : (Action.others header).Legal multiThread w) : World.Ok multiThread { w with header } := by
  obtain ⟨hro, hnext, hlt, hold, hle, hle'⟩ := hl
  have e : w.next = w.header.next := by
    unfold World.next
    rw [hro, if_neg Bool.false_ne_true]
  have e' : World.next { w with header } = header.next := by
    unfold World.next
    rw [hro, if_neg Bool.false_ne_true]
  obtain ⟨h1, h2, h3, h4, h5, h6⟩ := h
  obtain ⟨h0, h7, h8, h9⟩ := h5 hro
  refine ⟨?_, ?_, ?_, ?_, fun _ => ⟨h0, ?_, ?_, ?_⟩, fun htrue => ?_⟩
  all_goals try rw [e']
  · exact h1.trans (by omega)
  · exact h2.trans (by omega)
  · exact hlt
  · exact h4
  · exact h7.trans hold
  · exact hle
  · exact hle'
  · rw [hro] at htrue
    cases htrue

theorem World.Ok.run {as : List Action} (h : w.Ok multiThread) (hrun : Run multiThread as w) :
    (Tra.run multiThread as w).Ok multiThread := by
  induction as generalizing w with
  | nil => exact h
  | cons a as ih =>
    refine ih ?_ hrun.2
    have hl := hrun.1
    cases a with
    | others header => exact h.others hl
    | start readCommitted seen =>
      change World.Ok multiThread ((traStart multiThread readCommitted seen w).getD w)
      cases hstart : traStart multiThread readCommitted seen w with
      | none => exact h
      | some w' =>
        cases hm : Tra.startNumbers w with
        | none =>
          rw [traStart, hm] at hstart
          cases hstart
        | some x => exact (h.start hl.1 hm (hl.2 x.1 x.2 hm) hstart).1

/-- In every run each transaction that starts leaves oldest transactions that it knows to be so,
that are not newer than itself, and that do not go back; without `MULTI_THREAD` the oldest
interesting one can go back by one. -/
theorem oldest_transactions_kept (multiThread : Bool) {w₀ w₁ : World} (h₀ : Attached w₀)
    (as : List Action) (hrun : Run multiThread as w₀)
    (hc : (run multiThread as w₀).Counts multiThread) (readCommitted : Bool) {seen : Seen}
    {m : Numbers} (hm : startNumbers (run multiThread as w₀) = some (m, w₁))
    (hp : Promised seen m) :
    ∃ w', traStart multiThread readCommitted seen (run multiThread as w₀) = some w' ∧
      Kept multiThread readCommitted seen m (run multiThread as w₀) w' :=
  ⟨_, traStart_eq hm, (((h₀.ok multiThread).run hrun).start hc hm hp (traStart_eq hm)).2⟩

/-- A transaction that has the database to itself: nothing changes between its look-ups. -/
def seenAlone (dbb : Database) (lockData : Nat → Nat) : Seen where
  granted := true
  inventory := dbb
  memory := fun _ => 0
  look := fun _ => dbb
  wait := fun _ => dbb
  again := fun _ => dbb
  outside := fun _ => .active
  lockData := lockData
  lockFree := fun _ => true
  queryData := 0

def databaseOf (bytes : List (BitVec 8)) : Database where
  transPerTIP := 4016
  dbbReadOnly := false
  dbbTipCache := []
  dbbOldestTransaction := 1
  dbbPcTransactions := []
  tip := fun _ i => bytes.getD i 0
  hdrOldestTransaction := 1
  hdrNextTransaction := 1

def newWorld : World := ⟨⟨0, 1, 0, 0⟩, ⟨false, 0, 1, 0, 0⟩⟩

/-- The first transaction commits, and the second one starts. -/
theorem oldest_transactions_kept_second :
    let as : List Action := [.start false (seenAlone (databaseOf []) fun _ => 1)]
    let seen := seenAlone (databaseOf [0x0c]) fun _ => 0
    ∃ w', traStart true false seen (run true as newWorld) = some w' ∧
      Kept true false seen ⟨2, 1, 1, 1⟩ (run true as newWorld) w' := by
  intro as seen
  have h₀ : Attached newWorld := ⟨rfl, rfl, rfl, by decide, by decide, by decide, by decide⟩
  have hfirst : Promised (seenAlone (databaseOf []) fun _ => 1) ⟨1, 1, 0, 0⟩ :=
    ⟨by decide, by decide, by decide, fun n h0 h1 => absurd h0
      (Nat.not_lt.mpr (Nat.le_of_lt_succ h1)),
      fun n h0 h1 => absurd h1 (Nat.not_lt_zero n)⟩
  have hstart : (startNumbers newWorld).map (·.1) = some ⟨1, 1, 0, 0⟩ := rfl
  have hrun : Run true as newWorld := by
    refine ⟨⟨.inl rfl, fun m w₁ hm => ?_⟩, trivial⟩
    rw [hm, Option.map_some, Option.some.injEq] at hstart
    obtain rfl : m = _ := hstart
    exact hfirst
  have hsecond : Promised seen ⟨2, 1, 1, 1⟩ :=
    ⟨by decide, by decide, by decide, fun n h0 h1 => absurd h0
      (Nat.not_lt.mpr (Nat.le_of_lt_succ h1)),
      fun n h0 h1 => absurd h0 (Nat.not_lt.mpr (Nat.le_of_lt_succ h1))⟩
  have hm : startNumbers (run true as newWorld) =
      some (⟨2, 1, 1, 1⟩, ⟨⟨2, 1, 1, 1⟩, ⟨false, 0, 1, 1, 1⟩⟩) := by decide +kernel
  exact oldest_transactions_kept true h₀ as hrun (.inl rfl) false hm hsecond

/-- Without `MULTI_THREAD` the first transaction of a new database takes the oldest transaction
from 1 back to 0. With a header page whose oldest active transaction is not the oldest that is
active, the active transaction below it stays below. The clean-up passes a transaction that has
committed since the inventory has been read. In a read-only database without `MULTI_THREAD` the
oldest transaction falls to -1, and then no scan finds the active transaction 1. -/
theorem oldest_transactions_not_kept :
    (let seen := seenAlone (databaseOf [0x03]) fun _ => 1
      ∃ w', traStart false false seen newWorld = some w' ∧ w'.dbb.oldest < newWorld.dbb.oldest ∧
        ∀ n < 1, seen.inventory.tipState n = .committed) ∧
    (let seen := seenAlone (databaseOf [0x0f]) id
      let w : World := ⟨⟨3, 2, 3, 0⟩, ⟨false, 3, 2, 3, 0⟩⟩
      (∀ n < 2, seen.inventory.tipState n = .committed) ∧
        ∃ w', traStart true false seen w = some w' ∧ 2 < w'.dbb.oldestActive ∧
          seen.inventory.tipState 2 = .active ∧ seen.lockData 2 = 2) ∧
    (let seen := { seenAlone (databaseOf (List.replicate 24 0xff ++ [0x3f])) fun _ => 0 with
        wait := fun _ => databaseOf (List.replicate 25 0xff) }
      let w : World := ⟨⟨99, 99, 99, 99⟩, ⟨false, 99, 99, 99, 99⟩⟩
      (∀ n < 99, seen.inventory.tipState n = .committed) ∧
        ∃ w', traStart true false seen w = some w' ∧ 99 < w'.dbb.oldestActive ∧
          seen.inventory.tipState 99 = .active ∧ waitState seen 99 = .state .committed) ∧
    (let seen := seenAlone (databaseOf []) fun _ => 1
      let w : World := ⟨⟨10, 1, 1, 1⟩, ⟨true, 10, 1, 1, 1⟩⟩
      let w := run false [.start false seen, .start false seen] w
      w.dbb.oldest = -1 ∧ ∃ w', traStart false false seen w = some w' ∧ 1 < w'.dbb.oldestActive ∧
        seen.inventory.tipState 1 = .active ∧ seen.lockData 1 = 1) := by
  refine ⟨⟨_, rfl, by decide +kernel, by decide +kernel⟩,
    ⟨by decide +kernel, _, rfl, by decide +kernel, by decide +kernel, rfl⟩,
    ⟨by decide +kernel, _, rfl, by decide +kernel, by decide +kernel, by decide +kernel⟩,
    ⟨by decide +kernel, _, rfl, by decide +kernel, by decide +kernel, rfl⟩⟩

end Firebird.Jrd.Tra
