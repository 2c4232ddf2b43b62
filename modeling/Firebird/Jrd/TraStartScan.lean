import Firebird.Jrd.TraStart

/-!
# The scans of a starting transaction

The first scan stops at a transaction that is active, and leaves only such behind as it has found to
be over; the second stops at one that has not committed.
-/
namespace Firebird.Jrd.Tra

open Lib Tpc

section Vector

variable {v : Bytes} {base n m : Nat}

theorem vectorState_eq_get (hb : 4 ∣ base) (hn : base ≤ n) :
    vectorState v base n = .ofBits (Crumb.get v (n - base)) := by
  have e : (n - base) % 4 = n % 4 := by omega
  rw [Crumb.get, e]
  rfl

theorem update_put_eq_set_vector (hb : 4 ∣ base) (hn : base ≤ n) (b : BitVec 8) :
    Function.update v (transOffset (n - base))
      (Crumb.put (v (transOffset (n - base))) b (transShift n)) =
      Crumb.set v (n - base) b := by
  have e : (n - base) % 4 = n % 4 := by omega
  rw [Crumb.set, e]
  rfl

theorem vectorState_update (hb : 4 ∣ base) (hn : base ≤ n) (hm : base ≤ m) (s : TraState) :
    vectorState (Function.update v (transOffset (n - base))
      (Crumb.put (v (transOffset (n - base))) s.bits (transShift n))) base m =
        if m = n then s else vectorState v base m := by
  have e : m - base = n - base ↔ m = n := by omega
  rw [update_put_eq_set_vector hb hn, vectorState_eq_get hb hm, Crumb.get_set _ _ _ s.bits_lt]
  simp only [e]
  split_ifs
  · exact TraState.ofBits_bits s
  · rw [vectorState_eq_get hb hm]

theorem vectorState_startVector {seen : Seen} {m : Numbers} (h0 : 0 < seen.inventory.transPerTIP)
    (h4 : 4 ∣ seen.inventory.transPerTIP) (hnumber : m.number < 2 ^ 31)
    (hn : m.oldest / 4 * 4 ≤ n) (hn' : n < m.number) :
    vectorState (startVector false seen m) (m.oldest / 4 * 4) n = seen.inventory.tipState n := by
  have hb : 4 ∣ m.oldest / 4 * 4 := Dvd.intro_left _ rfl
  have h := filled_traGetInventory (v := seen.memory) h0 h4 hb (hn.trans hn'.le)
  obtain ⟨p, hp, -⟩ := h.bytes
  rw [← h.lookup h0 h4 hb hnumber hp hn hn' le_rfl (Nat.le_add_right _ 3),
    traState_eq p hb le_rfl (Nat.le_add_right _ 3) hn (hn'.trans hnumber)]
  simp only [startVector, hp]
  rfl

end Vector

section Scan

variable {seen : Seen} {readCommitted : Bool} {base number : Nat}

def Probed (seen : Seen) (number n : Nat) : Prop :=
  number % traActiveCleanup = 0 ∧ seen.lockData n = 0

def Over (seen : Seen) (readCommitted : Bool) (number n : Nat) : Prop :=
  (if readCommitted then cached seen.outside (tpcCacheState (seen.look n) n) n
    else .state (seen.inventory.tipState n)) ≠ .state .active ∨ Probed seen number n

/-- What the vector says of a transaction: its state on the inventory page, or what `TRA_wait` has
found. -/
def Told (seen : Seen) (number n : Nat) (s : TraState) : Prop :=
  s = seen.inventory.tipState n ∨ Probed seen number n ∧ waitState seen n = .state s

/-- The first scan before it comes to `start`. -/
structure Before (seen : Seen) (readCommitted : Bool) (base number start : Nat) (s : Scan) :
    Prop where
  cleanup : s.cleanup → number % traActiveCleanup = 0
  told : readCommitted = false → ∀ n, base ≤ n → n < number →
    Told seen number n (vectorState s.transactions base n)
  ahead : readCommitted = false → ∀ n, base ≤ n → n < number → start ≤ n →
    vectorState s.transactions base n = seen.inventory.tipState n

structure Scanned (seen : Seen) (readCommitted : Bool) (base number start : Nat) (r : Found) :
    Prop where
  le : r.oldestActive ≤ number
  ge : min start number ≤ r.oldestActive
  ended : ∀ n, start ≤ n → n < r.oldestActive → Over seen readCommitted number n
  told : readCommitted = false → ∀ n, base ≤ n → n < number →
    Told seen number n (vectorState r.scan.transactions base n)

variable {start : Nat} {s : Scan}

theorem Before.ended (h : Before seen readCommitted base number start s)
    (hb : base ≤ start) (hlt : start < number)
    (hlook : lookState seen readCommitted base start s ≠ .state .active) :
    Over seen readCommitted number start := by
  refine .inl ?_
  unfold lookState at hlook
  cases readCommitted with
  | true => exact hlook
  | false =>
    rwa [h.ahead rfl start hb hlt le_rfl] at hlook

theorem Before.next (h : Before seen readCommitted base number start s) :
    Before seen readCommitted base number (start + 1) s :=
  ⟨h.cleanup, h.told, fun hrc n hb hn hle => h.ahead hrc n hb hn (by omega)⟩

theorem Before.traWait {cleanup : Bool}
    (h : Before seen readCommitted base number start s) (hb4 : 4 ∣ base) (hb : base ≤ start)
    (hdata : seen.lockData start = 0) (hs : s.cleanup) :
    Before seen readCommitted base number (start + 1)
      { traWait seen readCommitted base start s with cleanup } := by
  have hmod := h.cleanup hs
  refine ⟨fun _ => hmod, ?_, ?_⟩
  · rintro rfl n hn hlt
    have htold := h.told rfl n hn hlt
    unfold Tra.traWait
    dsimp only
    cases hstate : cached seen.outside (traGetState (seen.wait start) start (seen.lockFree start))
      start with
    | precommitted => exact htold
    | state found =>
      simp only [Bool.false_eq_true, if_false]
      rw [vectorState_update hb4 hb hn]
      by_cases e : n = start
      · subst e
        rw [if_pos rfl]
        refine .inr ⟨⟨hmod, hdata⟩, ?_⟩
        rw [waitState, hstate]
      · rwa [if_neg e]
  · rintro rfl n hn hlt hle
    have hahead := h.ahead rfl n hn hlt (by omega)
    unfold Tra.traWait
    dsimp only
    cases cached seen.outside (traGetState (seen.wait start) start (seen.lockFree start)) start with
    | precommitted => exact hahead
    | state found =>
      simp only [Bool.false_eq_true, if_false]
      rwa [vectorState_update hb4 hb hn, if_neg (by omega)]

theorem scanActive_spec (snapshot : Nat) (hb4 : 4 ∣ base) (len : Nat)
    (hb : base ≤ start) (hlen : start + len = max start number)
    (h : Before seen readCommitted base number start s) :
    Scanned seen readCommitted base number start
      (scanActive seen readCommitted base number snapshot (List.range' start len) s) := by
  induction len generalizing start s with
  | zero =>
    refine ⟨le_rfl, Nat.min_le_right _ _, fun n hle hlt => ?_, h.told⟩
    change n < number at hlt
    omega
  | succ len ih =>
    have hlt : start < number := by omega
    -- The rest of the scan, once `start` is over.
    have hrest : ∀ s', Over seen readCommitted number start →
        Before seen readCommitted base number (start + 1) s' →
        Scanned seen readCommitted base number start
          (scanActive seen readCommitted base number snapshot (List.range' (start + 1) len)
            s') := by
      intro s' hover hs'
      have hr := ih (by omega) (by omega) hs'
      refine ⟨hr.le, by have := hr.ge; omega, fun n hle hn => ?_, hr.told⟩
      obtain rfl | hne := Nat.eq_or_lt_of_le hle
      · exact hover
      · exact hr.ended n hne hn
    rw [List.range'_succ, scanActive]
    by_cases hlook : lookState seen readCommitted base start s = .state .active
    · rw [if_pos hlook]
      by_cases hprobe : seen.lockData start = 0 ∧ s.cleanup
      · rw [if_pos hprobe]
        exact hrest _ (.inr ⟨h.cleanup hprobe.2, hprobe.1⟩) (h.traWait hb4 hb hprobe.1 hprobe.2)
      · rw [if_neg hprobe]
        refine ⟨Nat.min_le_left _ _, (Nat.min_comm _ _).le, fun n hle hn => ?_, h.told⟩
        change n < min number start at hn
        omega
    · rw [if_neg hlook]
      exact hrest _ (h.ended hb hlt hlook) h.next

end Scan

theorem find_range' (p : Nat → Bool) (len : Nat) : ∀ start,
    start ≤ ((List.range' start len).find? p).getD (start + len) ∧
      ((List.range' start len).find? p).getD (start + len) ≤ start + len ∧
      ∀ n, start ≤ n → n < ((List.range' start len).find? p).getD (start + len) → p n = false := by
  induction len with
  | zero => exact fun start => ⟨le_rfl, le_rfl, fun n hle hlt => absurd hlt (Nat.not_lt.mpr hle)⟩
  | succ len ih =>
    intro start
    rw [List.range'_succ, List.find?_cons]
    cases hp : p start with
    | true => exact ⟨le_rfl, Nat.le_add_right _ _, fun n hle hlt => absurd hlt (Nat.not_lt.mpr hle)⟩
    | false =>
      have h := ih (start + 1)
      rw [Nat.add_right_comm, Nat.add_assoc start len 1] at h
      obtain ⟨hlow, hhigh, hall⟩ := h
      refine ⟨Nat.le_of_succ_le hlow, hhigh, fun n hle hlt => ?_⟩
      obtain rfl | hne := Nat.eq_or_lt_of_le hle
      · exact hp
      · exact hall n hne hlt

theorem scanInteresting_spec (seen : Seen) (readCommitted : Bool) (base number oldest : Nat)
    (v : Bytes) :
    oldest ≤ scanInteresting seen readCommitted base number oldest v ∧
      scanInteresting seen readCommitted base number oldest v ≤ max oldest number ∧
      ∀ n, oldest ≤ n → n < scanInteresting seen readCommitted base number oldest v →
        isCommitted (againState seen readCommitted base v n) := by
  have e : oldest + (number - oldest) = max oldest number := by omega
  obtain ⟨hlow, hhigh, hall⟩ := find_range'
    (fun n => !isCommitted (againState seen readCommitted base v n)) (number - oldest) oldest
  rw [e] at hlow hhigh hall
  exact ⟨hlow, hhigh, fun n hle hlt => by simpa using hall n hle hlt⟩

end Firebird.Jrd.Tra
