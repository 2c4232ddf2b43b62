import Mathlib.Tactic.Ring
import Firebird.Jrd.Tpc

/-!
# Looking a transaction up

The vector that `TRA_get_inventory` fills gives the state of every transaction between its ends, and
`TRA_set_state` changes the state of one transaction.
-/
namespace Firebird.Jrd.Tpc

open Lib

def Database.tipByte (dbb : Database) (number : Nat) : BitVec 8 :=
  dbb.tip (number / dbb.transPerTIP) (transOffset (number % dbb.transPerTIP))

theorem tipState_eq_tipByte (dbb : Database) (n : Nat) :
    dbb.tipState n = .ofBits (dbb.tipByte n >>> transShift n &&& 3) := rfl

variable {t : Nat}

theorem mul_add_div_tip {r : Nat} (s : Nat) (hr : r < t) : (s * t + r) / t = s := by
  rw [Nat.add_comm, Nat.add_mul_div_right _ _ (by omega), Nat.div_eq_of_lt hr, Nat.zero_add]

theorem mul_add_mod_tip {r : Nat} (s : Nat) (hr : r < t) : (s * t + r) % t = r := by
  rw [Nat.add_comm, Nat.add_mul_mod_self_right, Nat.mod_eq_of_lt hr]

theorem tipByte_page (dbb : Database) (s : Nat) {j : Nat} (hj : 4 * j < dbb.transPerTIP) :
    dbb.tipByte (s * dbb.transPerTIP + 4 * j) = dbb.tip s j := by
  unfold Database.tipByte transOffset
  rw [mul_add_div_tip s hj, mul_add_mod_tip s hj, Nat.mul_div_cancel_left _ (by decide)]

variable {dbb : Database}

theorem tipByte_round (h4 : 4 ∣ dbb.transPerTIP) (h0 : 0 < dbb.transPerTIP)
    (n : Nat) : dbb.tipByte (n - n % 4) = dbb.tipByte n := by
  have hr := Nat.mod_lt n h0
  have hn := Nat.div_add_mod' n dbb.transPerTIP
  obtain ⟨k, hk⟩ : 4 ∣ n / dbb.transPerTIP * dbb.transPerTIP := h4.mul_left _
  have e : n - n % 4 = n / dbb.transPerTIP * dbb.transPerTIP + 4 * (n % dbb.transPerTIP / 4) := by
    omega
  rw [e, tipByte_page _ _ (by omega)]
  rfl

variable {n : Nat}

theorem traState_eq {base oldest : Nat} (v : Bytes) (hb : 4 ∣ base) (ho : base ≤ oldest)
    (ho' : oldest ≤ base + 3) (hn : base ≤ n) (h : n < 2 ^ 31) :
    traState v oldest n = .ofBits (v ((n - base) / 4) >>> transShift n &&& 3) := by
  have e : oldest / 4 * 4 = base := by omega
  have e' : (n + 2 ^ 32 - base) % 2 ^ 32 = n - base := by omega
  simp only [traState, e, e', transOffset]

@[simp] theorem tpcUpdateCache_tip (dbb : Database) (page : Bytes) (s : Nat) :
    (tpcUpdateCache dbb page s).tip = dbb.tip := rfl

@[simp] theorem tpcUpdateCache_transPerTIP (dbb : Database) (page : Bytes) (s : Nat) :
    (tpcUpdateCache dbb page s).transPerTIP = dbb.transPerTIP := rfl

/-- The bytes of the vector up to `stop` come from the pages, the other ones are as before. -/
structure Filled (dbb : Database) (v : Bytes) (base stop : Nat) (inv : Inventory) : Prop where
  tip : inv.dbb.tip = dbb.tip
  transPerTIP : inv.dbb.transPerTIP = dbb.transPerTIP
  moved : inv.moved = (stop - base) / 4
  bytes : ∃ p, inv.bitVector = some p ∧ (∀ i < inv.moved, p i = dbb.tipByte (base + 4 * i)) ∧
    ∀ i, inv.moved ≤ i → p i = v i

variable {dbb : Database} {v : Bytes} {base top : Nat}

variable {inv : Inventory} {s : Nat}

theorem Filled.move {start stop l : Nat} {q : Bytes}
    (h : Filled dbb v base start inv) (hb : base ≤ start) (h4 : 4 ∣ start - base)
    (hq : ∀ j < l, q (s + j) = dbb.tipByte (start + 4 * j)) (hl : l = (stop - start) / 4)
    (hs : start ≤ stop) :
    Filled dbb v base stop (inv.move q s l) := by
  obtain ⟨htip, htpt, hm, p, hp, hin, hout⟩ := h
  have hmove : inv.move q s l =
      { inv with bitVector := some (moveFast q s p inv.moved l), moved := inv.moved + l } := by
    simp [Inventory.move, hp]
  rw [hmove]
  refine ⟨htip, htpt, ?_, _, rfl, ?_, ?_⟩
  · change inv.moved + l = (stop - base) / 4
    omega
  · intro i hi
    change i < inv.moved + l at hi
    unfold moveFast
    by_cases hi' : inv.moved ≤ i
    · rw [if_pos ⟨hi', hi⟩, hq _ (by omega)]
      congr 1
      omega
    · rw [if_neg fun h => hi' h.1]
      exact hin i (by omega)
  · intro i hi
    change inv.moved + l ≤ i at hi
    unfold moveFast
    rw [if_neg (by omega)]
    exact hout i (by omega)

theorem filled_firstPage (h0 : 0 < dbb.transPerTIP) (h4 : 4 ∣ dbb.transPerTIP) (hb : 4 ∣ base)
    (hbt : base ≤ top) :
    Filled dbb v base (min (top + 3) ((base / dbb.transPerTIP + 1) * dbb.transPerTIP))
      (firstPage dbb (some v) base top) := by
  have hr := Nat.mod_lt base h0
  have hn := Nat.div_add_mod' base dbb.transPerTIP
  have hs : (base / dbb.transPerTIP + 1) * dbb.transPerTIP =
      base / dbb.transPerTIP * dbb.transPerTIP + dbb.transPerTIP := by ring
  have hstart : Filled dbb v base base
      { bitVector := some v, moved := 0,
        dbb := tpcUpdateCache dbb (dbb.tip (base / dbb.transPerTIP)) (base / dbb.transPerTIP) } :=
    ⟨rfl, rfl, by simp, v, rfl, by simp, by simp⟩
  have h4' : 4 ∣ base % dbb.transPerTIP := (Nat.dvd_mod_iff h4).2 hb
  refine hstart.move (Nat.le_refl _) (by simp) (fun j hj => ?_) ?_ (by omega)
  · unfold transOffset at hj ⊢
    rw [← tipByte_page _ _ (show 4 * (base % dbb.transPerTIP / 4 + j) < dbb.transPerTIP by omega)]
    congr 1
    omega
  · unfold transOffset
    congr 1
    omega

theorem filled_nextPage (h4 : 4 ∣ dbb.transPerTIP) (hb : 4 ∣ base)
    (hs : s * dbb.transPerTIP ≤ top) (hbs : base ≤ s * dbb.transPerTIP)
    (h : Filled dbb v base (s * dbb.transPerTIP) inv) :
    Filled dbb v base (min (top + 3) ((s + 1) * dbb.transPerTIP)) (nextPage top inv s) := by
  have hs' : (s + 1) * dbb.transPerTIP = s * dbb.transPerTIP + dbb.transPerTIP := by ring
  obtain ⟨k, hk⟩ : 4 ∣ s * dbb.transPerTIP := h4.mul_left _
  have h' : Filled dbb v base (s * dbb.transPerTIP)
      { inv with dbb := tpcUpdateCache inv.dbb (inv.dbb.tip s) s } :=
    ⟨h.tip, h.transPerTIP, h.moved, h.bytes⟩
  have e : nextPage top inv s = Inventory.move
      { inv with dbb := tpcUpdateCache inv.dbb (inv.dbb.tip s) s } (dbb.tip s) 0
      (transOffset (min (top + 3 - s * dbb.transPerTIP) dbb.transPerTIP)) := by
    simp [nextPage, fetchInventoryPage, h.tip, h.transPerTIP]
  rw [e]
  refine h'.move hbs (by omega) (fun j hj => ?_) ?_ (by omega)
  · unfold transOffset at hj
    rw [tipByte_page _ _ (by omega), Nat.zero_add]
  · unfold transOffset
    congr 1
    omega

theorem filled_pages (h4 : 4 ∣ dbb.transPerTIP) (hb : 4 ∣ base) (k : Nat) :
    ∀ {s : Nat} {inv : Inventory}, (s + k) * dbb.transPerTIP ≤ top →
      base ≤ (s + 1) * dbb.transPerTIP →
      Filled dbb v base (min (top + 3) ((s + 1) * dbb.transPerTIP)) inv →
      Filled dbb v base (min (top + 3) ((s + k + 1) * dbb.transPerTIP))
        ((List.range' (s + 1) k).foldl (nextPage top) inv) := by
  induction k with
  | zero => exact fun _ _ h => h
  | succ k ih =>
    intro s inv hk hbs h
    have hle : (s + 1) * dbb.transPerTIP ≤ (s + (k + 1)) * dbb.transPerTIP :=
      Nat.mul_le_mul_right _ (by omega)
    have hle' : (s + 1) * dbb.transPerTIP ≤ (s + 1 + 1) * dbb.transPerTIP :=
      Nat.mul_le_mul_right _ (by omega)
    rw [Nat.min_eq_right (by omega)] at h
    have hnext : Filled dbb v base (min (top + 3) ((s + 1 + 1) * dbb.transPerTIP))
        (nextPage top inv (s + 1)) := filled_nextPage h4 hb (by omega) hbs h
    have hadd : s + (k + 1) = s + 1 + k := by omega
    rw [List.range'_succ, List.foldl_cons, hadd]
    exact ih (by rwa [← hadd]) (by omega) hnext

theorem filled_traGetInventory (h0 : 0 < dbb.transPerTIP) (h4 : 4 ∣ dbb.transPerTIP) (hb : 4 ∣ base)
    (hbt : base ≤ top) :
    Filled dbb v base (top + 3) (traGetInventory dbb (some v) base top) := by
  have hseq : base / dbb.transPerTIP ≤ top / dbb.transPerTIP := Nat.div_le_div_right hbt
  have hlast : base / dbb.transPerTIP + (top / dbb.transPerTIP - base / dbb.transPerTIP) =
      top / dbb.transPerTIP := by omega
  have hbase : base < (base / dbb.transPerTIP + 1) * dbb.transPerTIP :=
    Nat.lt_mul_of_div_lt (Nat.lt_succ_self _) h0
  have htop : top < (top / dbb.transPerTIP + 1) * dbb.transPerTIP :=
    Nat.lt_mul_of_div_lt (Nat.lt_succ_self _) h0
  have h := filled_pages h4 hb (top / dbb.transPerTIP - base / dbb.transPerTIP)
    (by rw [hlast]; exact Nat.div_mul_le_self _ _)
    (Nat.le_of_lt hbase) (filled_firstPage (v := v) h0 h4 hb hbt)
  rw [hlast] at h
  obtain ⟨k, hk⟩ : 4 ∣ (top / dbb.transPerTIP + 1) * dbb.transPerTIP := h4.mul_left _
  refine ⟨h.tip, h.transPerTIP, h.moved.trans ?_, h.bytes⟩
  omega

theorem Filled.lookup {p : Bytes} (h0 : 0 < dbb.transPerTIP)
    (h4 : 4 ∣ dbb.transPerTIP) (hb : 4 ∣ base) (htop : top < 2 ^ 31)
    (h : Filled dbb v base (top + 3) inv) (hp : inv.bitVector = some p) {oldest : Nat}
    (hn : base ≤ n) (hn' : n < top) (ho : base ≤ oldest) (ho' : oldest ≤ base + 3) :
    traState p oldest n = dbb.tipState n := by
  obtain ⟨_, _, hm, p', hp', hin, _⟩ := h
  obtain rfl : p = p' := Option.some.inj (hp.symm.trans hp')
  have e : base + 4 * ((n - base) / 4) = n - n % 4 := by omega
  rw [traState_eq p hb ho ho' hn (by omega), hin _ (by omega), e, tipByte_round h4 h0,
    tipState_eq_tipByte]

/-- The blocks hold the transactions of successive pages, the first of them `base`. -/
def Blocks (transPerTip : Nat) : Nat → List TxPageCache → Prop
  | _, [] => True
  | base, tpc :: rest => tpc.tpcBase = base ∧ Blocks transPerTip (base + transPerTip) rest

def Contiguous (transPerTip : Nat) (cache : List TxPageCache) : Prop :=
  ∃ s, Blocks transPerTip (s * transPerTip) cache

def cachedState (transPerTip : Nat) (cache : List TxPageCache) (number : Nat) : Option TraState :=
  (cache.find? fun tpc => tpc.Holds transPerTip number).map fun tpc => tpc.state number

variable {q : TxPageCache → Bool}

theorem Blocks.dropWhile : ∀ {b : Nat} {cache : List TxPageCache}, Blocks t b cache →
      ∃ k, Blocks t (b + k * t) (cache.dropWhile q)
  | b, [], _ => ⟨0, trivial⟩
  | b, tpc :: rest, h => by
    by_cases hq : q tpc
    · obtain ⟨k, hk⟩ := h.2.dropWhile
      refine ⟨k + 1, ?_⟩
      rw [List.dropWhile_cons_of_pos hq, Nat.add_mul, Nat.one_mul, ← Nat.add_assoc,
        Nat.add_right_comm]
      exact hk
    · refine ⟨0, ?_⟩
      rw [List.dropWhile_cons_of_neg hq, Nat.zero_mul, Nat.add_zero]
      exact h

theorem Contiguous.dropWhile {cache : List TxPageCache}
    (h : Contiguous t cache) : Contiguous t (cache.dropWhile q) := by
  obtain ⟨s, hs⟩ := h
  obtain ⟨k, hk⟩ := hs.dropWhile (q := q)
  exact ⟨s + k, by rwa [Nat.add_mul]⟩

variable {f : Bytes → Bytes} {tpc : TxPageCache} {rest : List TxPageCache}

theorem updateFirst_of_pos (h : q tpc) : updateFirst q f (tpc :: rest) =
      { tpc with tpcTransactions := f tpc.tpcTransactions } :: rest := by
  simp [updateFirst, h]

theorem updateFirst_of_neg (h : ¬ q tpc) :
    updateFirst q f (tpc :: rest) = tpc :: updateFirst q f rest := by
  simp [updateFirst, h]

theorem blocks_updateFirst :
    ∀ {b : Nat} {cache : List TxPageCache}, Blocks t b cache → Blocks t b (updateFirst q f cache)
  | _, [], _ => trivial
  | _, tpc :: rest, h => by
    unfold updateFirst
    split_ifs
    · exact h
    · exact ⟨h.1, blocks_updateFirst h.2⟩

theorem contiguous_tpcUpdateCache {page : Bytes}
    (h : Contiguous dbb.transPerTIP dbb.dbbTipCache) :
    Contiguous dbb.transPerTIP (tpcUpdateCache dbb page s).dbbTipCache := by
  obtain ⟨k, hk⟩ := Contiguous.dropWhile (q := fun tpc =>
    tpc.tpcBase + dbb.transPerTIP ≤ dbb.dbbOldestTransaction) h
  exact ⟨k, blocks_updateFirst hk⟩

theorem tipState_eq_get (h4 : 4 ∣ dbb.transPerTIP) (n : Nat) :
    dbb.tipState n = .ofBits (Crumb.get (dbb.tip (n / dbb.transPerTIP)) (n % dbb.transPerTIP)) := by
  unfold Database.tipState Crumb.get transShift transOffset
  rw [Nat.mod_mod_of_dvd n h4]
  rfl

theorem update_put_eq_set (h4 : 4 ∣ t) (p : Bytes) (n : Nat) (b : BitVec 8) :
    Function.update p (transOffset (n % t)) (Crumb.put (p (transOffset (n % t))) b (transShift n)) =
      Crumb.set p (n % t) b := by
  unfold Crumb.set transShift transOffset
  rw [Nat.mod_mod_of_dvd n h4]

def Database.setTip (dbb : Database) (number : Nat) (state : TraState) : Database :=
  { dbb with
    tip := Function.update dbb.tip (number / dbb.transPerTIP)
      (Crumb.set (dbb.tip (number / dbb.transPerTIP)) (number % dbb.transPerTIP) state.bits) }

theorem tipState_setTip (h4 : 4 ∣ dbb.transPerTIP) (n m : Nat) (s : TraState) :
    (dbb.setTip n s).tipState m = if m = n then s else dbb.tipState m := by
  have h4' : 4 ∣ (dbb.setTip n s).transPerTIP := h4
  rw [tipState_eq_get h4', tipState_eq_get h4]
  change TraState.ofBits (Crumb.get (Function.update dbb.tip _ _ (m / dbb.transPerTIP))
    (m % dbb.transPerTIP)) = _
  by_cases hq : m / dbb.transPerTIP = n / dbb.transPerTIP
  · rw [hq, Function.update_self, Crumb.get_set _ _ _ s.bits_lt]
    have he : m % dbb.transPerTIP = n % dbb.transPerTIP ↔ m = n := by
      refine ⟨fun h => ?_, fun h => h ▸ rfl⟩
      rw [← Nat.div_add_mod m dbb.transPerTIP, ← Nat.div_add_mod n dbb.transPerTIP, hq, h]
    simp only [he]
    split_ifs
    · exact TraState.ofBits_bits s
    · rfl
  · rw [Function.update_of_ne hq, if_neg fun h => hq (by rw [h])]

theorem TxPageCache.state_eq_get (tpc : TxPageCache) (h4 : 4 ∣ tpc.tpcBase)
    (h : tpc.Holds t n) (hn : n < 2 ^ 31) :
    tpc.state n = .ofBits (Crumb.get tpc.tpcTransactions (n - tpc.tpcBase)) := by
  have e : (n - tpc.tpcBase) % 4 = n % 4 := by
    have := h.1
    omega
  rw [TxPageCache.state, traState_eq _ h4 (Nat.le_refl _) (by omega) h.1 hn]
  unfold Crumb.get transShift
  rw [e]
  rfl

variable {m : Nat}

theorem TxPageCache.state_set {s : TraState}
    (h4 : 4 ∣ tpc.tpcBase) (hn : tpc.Holds t n) (hm : tpc.Holds t m) (hm' : m < 2 ^ 31)
    (hmod : n % t = n - tpc.tpcBase) :
    TxPageCache.state
      { tpc with tpcTransactions := Crumb.set tpc.tpcTransactions (n % t) s.bits } m =
      if m = n then s else tpc.state m := by
  let tpc' : TxPageCache := { tpc with
    tpcTransactions := Crumb.set tpc.tpcTransactions (n % t) s.bits }
  have h' := tpc'.state_eq_get h4 (show tpc'.Holds t m from hm) hm'
  refine h'.trans ?_
  rw [tpc.state_eq_get h4 hm hm']
  change TraState.ofBits (Crumb.get (Crumb.set _ _ _) (m - tpc.tpcBase)) = _
  rw [hmod, Crumb.get_set _ _ _ s.bits_lt]
  have he : m - tpc.tpcBase = n - tpc.tpcBase ↔ m = n := by
    have := hn.1
    have := hm.1
    omega
  rw [apply_ite TraState.ofBits, TraState.ofBits_bits]
  simp [he]

@[simp] theorem cachedState_cons_of_holds
    (h : tpc.Holds t n) : cachedState t (tpc :: rest) n = some (tpc.state n) := by
  simp [cachedState, h]

@[simp] theorem cachedState_cons_of_not_holds
    (h : ¬ tpc.Holds t n) : cachedState t (tpc :: rest) n = cachedState t rest n := by
  simp [cachedState, h]

theorem cachedState_setBlock (h4 : 4 ∣ t) (hn : n < 2 ^ 31) (hm : m < 2 ^ 31) (s : TraState) :
    ∀ {b : Nat} {cache : List TxPageCache}, Blocks t b cache → t ∣ b → b ≤ n →
      cachedState t (updateFirst (fun tpc => n < tpc.tpcBase + t)
        (fun p => Crumb.set p (n % t) s.bits) cache) m =
      if m = n then (cachedState t cache n).map fun _ => s else cachedState t cache m
  | b, [], _, _, _ => by simp [updateFirst, cachedState]
  | b, tpc :: rest, ⟨hb, hrest⟩, hdvd, hbn => by
    subst hb
    by_cases hlt : n < tpc.tpcBase + t
    · rw [updateFirst_of_pos (by simpa using hlt)]
      have hold : tpc.Holds t n := ⟨hbn, hlt⟩
      have h4b : 4 ∣ tpc.tpcBase := h4.trans hdvd
      have hmod : n % t = n - tpc.tpcBase := by
        obtain ⟨k, hk⟩ := hdvd
        have e : n = k * t + (n - tpc.tpcBase) := by rw [Nat.mul_comm k, ← hk]; omega
        rw [e, mul_add_mod_tip k (by omega), ← e]
      let tpc' : TxPageCache := { tpc with
        tpcTransactions := Crumb.set tpc.tpcTransactions (n % t) s.bits }
      change cachedState t (tpc' :: rest) m = _
      by_cases hmt : tpc.Holds t m
      · have hmt' : tpc'.Holds t m := hmt
        rw [cachedState_cons_of_holds hmt', cachedState_cons_of_holds hold,
          cachedState_cons_of_holds hmt, TxPageCache.state_set h4b hold hmt hm hmod]
        split_ifs <;> rfl
      · have hmt' : ¬ tpc'.Holds t m := hmt
        have hne : m ≠ n := fun h => hmt (h ▸ hold)
        rw [cachedState_cons_of_not_holds hmt', if_neg hne, cachedState_cons_of_not_holds hmt]
    · rw [updateFirst_of_neg (by simpa using hlt)]
      have hge : tpc.tpcBase + t ≤ n := by omega
      have hno : ¬ tpc.Holds t n := fun h => absurd h.2 (by omega)
      have ih := cachedState_setBlock h4 hn hm s hrest (Nat.dvd_add hdvd (Nat.dvd_refl t)) hge
      by_cases hmt : tpc.Holds t m
      · have hne : m ≠ n := fun h => hno (h ▸ hmt)
        rw [cachedState_cons_of_holds hmt, if_neg hne, cachedState_cons_of_holds hmt]
      · rw [cachedState_cons_of_not_holds hmt, ih, cachedState_cons_of_not_holds hmt,
          cachedState_cons_of_not_holds hno]

theorem tpcSetState_eq (dbb : Database) (h4 : 4 ∣ dbb.transPerTIP) (n : Nat) (s : TraState) :
    tpcSetState dbb n s = { dbb with
      dbbTipCache := updateFirst (fun tpc => n < tpc.tpcBase + dbb.transPerTIP)
        (fun p => Crumb.set p (n % dbb.transPerTIP) s.bits) dbb.dbbTipCache } := by
  simp [tpcSetState, update_put_eq_set h4]

theorem tpcSetState_of_isEmpty (h : dbb.dbbTipCache.isEmpty) (n : Nat)
    (s : TraState) : tpcSetState dbb n s = dbb := by
  rw [List.isEmpty_iff] at h
  simp only [tpcSetState, h, updateFirst]
  rw [← h]

/-- The database as `TRA_set_state` changes it: after the fetch of the page, if there is one. -/
def Database.fetched (dbb : Database) (number : Nat) : Database :=
  if dbb.cacheOnly then dbb else (fetchInventoryPage dbb (number / dbb.transPerTIP)).2

variable {tra : Option Transaction}

theorem traSetState_eq (h4 : 4 ∣ dbb.transPerTIP)
    (h : endsPrecommitted tra n = false) (s : TraState) : traSetState dbb tra n s =
      tpcSetState (if dbb.cacheOnly then dbb else (dbb.fetched n).setTip n s) n s := by
  unfold traSetState
  rw [if_neg (by rw [h]; exact Bool.false_ne_true)]
  by_cases hc : dbb.cacheOnly
  · rw [if_pos hc, if_pos hc]
  · rw [if_neg hc, if_neg hc]
    have hset : { (dbb.fetched n) with
        tip := Function.update (dbb.fetched n).tip (n / dbb.transPerTIP)
          (Function.update (dbb.tip (n / dbb.transPerTIP)) (transOffset (n % dbb.transPerTIP))
            (Crumb.put (dbb.tip (n / dbb.transPerTIP) (transOffset (n % dbb.transPerTIP))) s.bits
              (transShift n))) } = (dbb.fetched n).setTip n s := by
      rw [update_put_eq_set h4]
      simp [Database.setTip, Database.fetched, if_neg hc, fetchInventoryPage]
    have hcase : ∀ d : Database, (if d.dbbTipCache.isEmpty then d else tpcSetState d n s) =
        tpcSetState d n s := by
      intro d
      split_ifs with he
      · exact (tpcSetState_of_isEmpty he n s).symm
      · rfl
    rw [← hset, ← hcase]
    simp only [Database.fetched, if_neg hc]
    rfl

@[simp] theorem tipState_tpcSetState (dbb : Database) (n m : Nat) (s : TraState) :
    (tpcSetState dbb n s).tipState m = dbb.tipState m := rfl

theorem tipState_fetched (dbb : Database) (n m : Nat) :
    (dbb.fetched n).tipState m = dbb.tipState m := by
  unfold Database.fetched
  split_ifs <;> rfl

theorem transPerTIP_fetched (dbb : Database) (n : Nat) :
    (dbb.fetched n).transPerTIP = dbb.transPerTIP := by
  unfold Database.fetched
  split_ifs <;> rfl

theorem contiguous_fetched (n : Nat)
    (h : Contiguous dbb.transPerTIP dbb.dbbTipCache) :
    Contiguous dbb.transPerTIP (dbb.fetched n).dbbTipCache := by
  unfold Database.fetched
  split_ifs
  · exact h
  · exact contiguous_tpcUpdateCache h

theorem tipState_traSetState (h4 : 4 ∣ dbb.transPerTIP)
    (h : endsPrecommitted tra n = false) (s : TraState) (m : Nat) :
    (traSetState dbb tra n s).tipState m =
      if m = n ∧ dbb.cacheOnly = false then s else dbb.tipState m := by
  rw [traSetState_eq h4 h, tipState_tpcSetState]
  by_cases hc : dbb.cacheOnly
  · rw [if_pos hc, if_neg (by simp [hc])]
  · rw [if_neg hc, tipState_setTip (by rwa [transPerTIP_fetched]), tipState_fetched]
    simp [hc]

theorem cachedState_traSetState (h4 : 4 ∣ dbb.transPerTIP)
    (hc : Contiguous dbb.transPerTIP dbb.dbbTipCache)
    (h : endsPrecommitted tra n = false) (hn : n < 2 ^ 31) (hm : m < 2 ^ 31)
    (hfirst : ∀ tpc ∈ (dbb.fetched n).dbbTipCache.head?, tpc.tpcBase ≤ n) (s : TraState) :
    cachedState dbb.transPerTIP (traSetState dbb tra n s).dbbTipCache m =
      if m = n then (cachedState dbb.transPerTIP (dbb.fetched n).dbbTipCache n).map fun _ => s
      else cachedState dbb.transPerTIP (dbb.fetched n).dbbTipCache m := by
  have hcache : (traSetState dbb tra n s).dbbTipCache =
      updateFirst (fun tpc => n < tpc.tpcBase + dbb.transPerTIP)
        (fun p => Crumb.set p (n % dbb.transPerTIP) s.bits) (dbb.fetched n).dbbTipCache := by
    rw [traSetState_eq h4 h]
    by_cases hc : dbb.cacheOnly
    · rw [if_pos hc, tpcSetState_eq dbb h4, Database.fetched, if_pos hc]
    · rw [if_neg hc, tpcSetState_eq ((dbb.fetched n).setTip n s)
        (show 4 ∣ (dbb.fetched n).transPerTIP by rwa [transPerTIP_fetched])]
      change updateFirst (fun tpc => n < tpc.tpcBase + (dbb.fetched n).transPerTIP)
        (fun p => Crumb.set p (n % (dbb.fetched n).transPerTIP) s.bits) _ = _
      rw [transPerTIP_fetched]
      rfl
  rw [hcache]
  obtain ⟨k, hk⟩ := contiguous_fetched n hc
  cases hl : (dbb.fetched n).dbbTipCache with
  | nil => simp [updateFirst, cachedState]
  | cons tpc rest =>
    rw [hl] at hk hfirst
    exact cachedState_setBlock h4 hn hm s hk (Nat.dvd_mul_left _ _)
      (hk.1 ▸ hfirst tpc rfl)

/-- The vector of a snapshot gives the states that the pages had, a page being read once. On the
pages `TRA_set_state` changes one state; in the cache too, once the page fetched for it has
refreshed its block, if the cache does not start above the transaction. -/
theorem inventory_lookup_and_set_state (dbb : Database) (h0 : 0 < dbb.transPerTIP)
    (h4 : 4 ∣ dbb.transPerTIP) :
    (∀ v base top, 4 ∣ base → base ≤ top → top < 2 ^ 31 →
      ∃ p, (traGetInventory dbb (some v) base top).bitVector = some p ∧
        (∀ n oldest, base ≤ n → n < top → base ≤ oldest → oldest ≤ base + 3 →
          traState p oldest n = dbb.tipState n) ∧
        (traGetInventory dbb (some v) base top).moved ≤ (top - base + 3) / 4 ∧
        ∀ i, (top - base + 3) / 4 ≤ i → p i = v i) ∧
    ∀ tra n s, n < 2 ^ 31 →
      (endsPrecommitted tra n → traSetState dbb tra n s = dbb) ∧
      (endsPrecommitted tra n = false →
        (∀ m, (traSetState dbb tra n s).tipState m =
          if m = n ∧ dbb.cacheOnly = false then s else dbb.tipState m) ∧
        (Contiguous dbb.transPerTIP dbb.dbbTipCache →
          (∀ tpc ∈ (dbb.fetched n).dbbTipCache.head?, tpc.tpcBase ≤ n) →
          ∀ m < 2 ^ 31, cachedState dbb.transPerTIP (traSetState dbb tra n s).dbbTipCache m =
            if m = n then (cachedState dbb.transPerTIP (dbb.fetched n).dbbTipCache n).map fun _ => s
            else cachedState dbb.transPerTIP (dbb.fetched n).dbbTipCache m)) := by
  refine ⟨fun v base top hb hbt htop => ?_, fun tra n s hn => ⟨fun h => ?_, fun h => ⟨?_, ?_⟩⟩⟩
  · have h := filled_traGetInventory (v := v) h0 h4 hb hbt
    obtain ⟨p, hp, _, hout⟩ := h.bytes
    refine ⟨p, hp, fun n oldest => h.lookup h0 h4 hb htop hp, ?_, fun i hi => hout i ?_⟩
    · rw [h.moved]
      omega
    · rw [h.moved]
      omega
  · exact if_pos h
  · exact tipState_traSetState h4 h s
  · exact fun hc hfirst m hm => cachedState_traSetState h4 hc h hn hm hfirst s

def staleCache : Database :=
  { transPerTIP := 4016
    dbbReadOnly := false
    dbbTipCache := [⟨0, fun _ => 0⟩]
    dbbOldestTransaction := 1
    dbbPcTransactions := []
    tip := fun _ i => if i = 0 then 0x30#8 else 0
    hdrOldestTransaction := 1
    hdrNextTransaction := 5 }

theorem inventory_lookup_and_set_state_page :
    (∃ p, (traGetInventory staleCache (some fun _ => 0) 0 5).bitVector = some p ∧
      traState p 1 2 = .committed) ∧
    (traSetState staleCache none 5 .dead).tipState 5 = .dead ∧
    cachedState 4016 (traSetState staleCache none 5 .dead).dbbTipCache 5 = some .dead := by
  have h := inventory_lookup_and_set_state staleCache (by decide) (by decide)
  obtain ⟨p, hp, hlook, _⟩ := h.1 (fun _ => 0) 0 5 (by decide) (by decide) (by decide)
  have hset := (h.2 none 5 .dead (by decide)).2 rfl
  refine ⟨⟨p, hp, ?_⟩, ?_, ?_⟩
  · rw [hlook 2 1 (by decide) (by decide) (by decide) (by decide)]
    decide
  · rw [hset.1 5]
    decide
  · refine (hset.2 ⟨0, rfl, trivial⟩ ?_ 5 (by decide)).trans (by decide)
    intro tpc htpc
    cases htpc
    decide

/-- Setting the state of transaction 5 also brings the cached state of transaction 2 up to date. -/
theorem set_state_refreshes_other :
    cachedState 4016 staleCache.dbbTipCache 2 = some .active ∧
    cachedState 4016 (traSetState staleCache none 5 .dead).dbbTipCache 2 = some .committed := by
  decide

end Firebird.Jrd.Tpc
