import Firebird.Jrd.SortQuickSwap

/-!
# The records are sorted

`quick` cuts the slots into parts until none has more than two, and the pass after it puts the pairs
right. The scans stop at records that are in order with the pivot, or at the slot after the
interval, which holds a record of a later part or the guard. Since the longer interval is stacked
first, the stacks hold as many intervals as the number of records can be halved.
-/
namespace Firebird.Jrd.Sort

open Lib Memory Parts List Function

variable {scb : SortArea} {n r u i j fuel : Nat} {s s' : SortBuffer} {key : UInt32}

theorem skipLower_spec (hiu : i ≤ u + 1) (hun : u ≤ n) (hstop : ¬ s.first (u + 1) < key)
    (hfuel : u + 1 < i + fuel) :
    ∃ i', skipLower s n key fuel i = some i' ∧ i ≤ i' ∧ i' ≤ u + 1 ∧
      (∀ k, i ≤ k → k < i' → s.first k < key) ∧ ¬ s.first i' < key := by
  induction fuel generalizing i with
  | zero => omega
  | succ fuel ih =>
    rw [skipLower, if_neg (by omega)]
    split_ifs with hlt
    · have hne : i ≠ u + 1 := by
        rintro rfl
        exact hstop hlt
      obtain ⟨i', heq, hle, hle', hlow, hnot⟩ := ih (i := i + 1) (by omega) (by omega)
      refine ⟨i', heq, by omega, hle', fun k hk hki => ?_, hnot⟩
      rcases Nat.lt_or_eq_of_le hk with hik | rfl
      · exact hlow k hik hki
      · exact hlt
    · exact ⟨i, rfl, le_rfl, hiu, fun k hk hki => by omega, hlt⟩

theorem skipNotGreater_spec (hiu : i ≤ u + 1) (hun : u ≤ n) (hfuel : u + 1 < i + fuel) :
    ∃ i', skipNotGreater scb s n r u fuel i = some i' ∧ i ≤ i' ∧ i' ≤ u + 1 ∧
      (∀ k, i ≤ k → k < i' → rank scb s k ≤ rank scb s r) ∧
      (i' ≤ u → rank scb s r ≤ rank scb s i') := by
  induction fuel generalizing i with
  | zero => omega
  | succ fuel ih =>
    rw [skipNotGreater]
    split_ifs with hui hni hgt
    · exact ⟨i, rfl, le_rfl, hiu, fun k hk hki => by omega, fun h => by omega⟩
    · omega
    · refine ⟨i, rfl, le_rfl, hiu, fun k hk hki => by omega, fun _ => ?_⟩
      exact rank_ge_of_compareSlots (by rw [hgt]; exact Ordering.noConfusion)
    · obtain ⟨i', heq, hle, hle', hlow, hhigh⟩ := ih (i := i + 1) (by omega) (by omega)
      refine ⟨i', heq, by omega, hle', fun k hk hki => ?_, hhigh⟩
      rcases Nat.lt_or_eq_of_le hk with hik | rfl
      · exact hlow k hik hki
      · exact rank_le_of_compareSlots hgt

theorem skipHigher_spec (hrj : r ≤ j) (hkey : s.first r = key) :
    ∃ j', skipHigher s key j = some j' ∧ r ≤ j' ∧ j' ≤ j ∧
      (∀ k, j' < k → k ≤ j → key < s.first k) ∧ ¬ key < s.first j' := by
  induction j with
  | zero =>
    obtain rfl : r = 0 := by omega
    have hnot : ¬ key < s.first 0 := by simp [hkey]
    rw [skipHigher, if_neg hnot]
    exact ⟨0, rfl, le_rfl, le_rfl, fun k hk hkj => by omega, hnot⟩
  | succ j ih =>
    rw [skipHigher]
    split_ifs with hlt
    · have hne : r ≠ j + 1 := by
        rintro rfl
        rw [hkey] at hlt
        exact absurd hlt (UInt32.lt_irrefl key)
      obtain ⟨j', heq, hle, hle', hhigh, hnot⟩ := ih (by omega)
      refine ⟨j', heq, hle, by omega, fun k hk hkj => ?_, hnot⟩
      rcases Nat.lt_or_eq_of_le hkj with hkj' | rfl
      · exact hhigh k hk (Nat.le_of_lt_succ hkj')
      · exact hlt
    · exact ⟨j + 1, rfl, hrj, le_rfl, fun k hk hkj => by omega, hlt⟩

theorem skipNotLess_spec (hrj : r ≤ j) :
    ∃ j', skipNotLess scb s r j = some j' ∧ r ≤ j' ∧ j' ≤ j ∧
      (∀ k, j' < k → k ≤ j → rank scb s r ≤ rank scb s k) ∧ rank scb s j' ≤ rank scb s r := by
  induction j with
  | zero =>
    obtain rfl : r = 0 := by omega
    exact ⟨0, rfl, le_rfl, le_rfl, fun k hk hkj => by omega, le_rfl⟩
  | succ j ih =>
    rw [skipNotLess]
    split_ifs with heq hlt
    · subst heq
      exact ⟨j + 1, rfl, le_rfl, le_rfl, fun k hk hkj => by omega, le_rfl⟩
    · refine ⟨j + 1, rfl, hrj, le_rfl, fun k hk hkj => by omega, ?_⟩
      exact rank_le_of_compareSlots (by rw [hlt]; exact Ordering.noConfusion)
    · obtain ⟨j', hsome, hle, hle', hhigh, hlow⟩ := ih (by omega)
      refine ⟨j', hsome, hle, by omega, fun k hk hkj => ?_, hlow⟩
      rcases Nat.lt_or_eq_of_le hkj with hkj' | rfl
      · exact hhigh k hk (Nat.le_of_lt_succ hkj')
      · exact rank_ge_of_compareSlots hlt

theorem scanUp_spec (hfits : scb.Fits n) (hi : 1 ≤ i) (hiu : i ≤ u + 1) (hun : u ≤ n)
    (hkey : s.first r = key) (hstop : ¬ s.first (u + 1) < key) :
    ∃ i', scanUp scb s n r u key i = some i' ∧ i ≤ i' ∧ i' ≤ u + 1 ∧
      (∀ k, i ≤ k → k < i' → rank scb s k ≤ rank scb s r) ∧
      (i' ≤ u → rank scb s r ≤ rank scb s i') := by
  obtain ⟨i', heq, hle, hle', hlow, hnot⟩ :=
    skipLower_spec hiu hun hstop (by omega : u + 1 < i + (n + 2))
  have hlow' : ∀ k, i ≤ k → k < i' → rank scb s k ≤ rank scb s r := fun k hk hki =>
    rank_le_of_first_lt hfits (by rw [hkey]; exact hlow k hk hki)
  rw [scanUp, heq, Option.bind_eq_bind, Option.bind_some]
  split_ifs with hfirst
  · obtain ⟨i'', heq', hle₂, hle₂', hlow₂, hhigh⟩ := @skipNotGreater_spec scb n r u i' (n + 2) s
      hle' hun (by omega)
    refine ⟨i'', heq', hle.trans hle₂, hle₂', fun k hk hki => ?_, hhigh⟩
    rcases Nat.lt_or_ge k i' with hki' | hki'
    · exact hlow' k hk hki'
    · exact hlow₂ k hki' hki
  · refine ⟨i', rfl, hle, hle', hlow', fun _ => rank_le_of_first_lt hfits ?_⟩
    rw [hkey]
    exact UInt32.lt_of_le_of_ne (UInt32.not_lt.1 hnot) (Ne.symm hfirst)

theorem scanDown_spec (hfits : scb.Fits n) (hrj : r ≤ j) (hkey : s.first r = key) :
    ∃ j', scanDown scb s r key j = some j' ∧ r ≤ j' ∧ j' ≤ j ∧
      (∀ k, j' < k → k ≤ j → rank scb s r ≤ rank scb s k) ∧ rank scb s j' ≤ rank scb s r := by
  obtain ⟨j', heq, hle, hle', hhigh, hnot⟩ := skipHigher_spec (s := s) hrj hkey
  have hhigh' : ∀ k, j' < k → k ≤ j → rank scb s r ≤ rank scb s k := fun k hk hkj =>
    rank_le_of_first_lt hfits (by rw [hkey]; exact hhigh k hk hkj)
  rw [scanDown, heq, Option.bind_eq_bind, Option.bind_some]
  split_ifs with hfirst
  · obtain ⟨j'', heq', hle₂, hle₂', hhigh₂, hlow⟩ := @skipNotLess_spec scb r j' s hle
    refine ⟨j'', heq', hle₂, hle₂'.trans hle', fun k hk hkj => ?_, hlow⟩
    rcases Nat.lt_or_ge j' k with hkj' | hkj'
    · exact hhigh' k hkj' hkj
    · exact hhigh₂ k hk hkj'
  · refine ⟨j', rfl, hle, hle', hhigh', rank_le_of_first_lt hfits ?_⟩
    rw [hkey]
    exact UInt32.lt_of_le_of_ne (UInt32.not_lt.1 hnot) hfirst

theorem partition_spec (hfits : scb.Fits n) (hlaid : Laid scb n s) (hr : 1 ≤ r) (hun : u ≤ n)
    (hri : r < i) (hij : i ≤ j + 1) (hju : j ≤ u) (hkey : s.first r = key)
    (hstop : ¬ s.first (u + 1) < key)
    (hlow : ∀ k, r < k → k < i → rank scb s k ≤ rank scb s r)
    (hhigh : ∀ k, j < k → k ≤ u → rank scb s r ≤ rank scb s k) (hfuel : j + 1 < i + fuel) :
    ∃ s' j', partition scb n r u key fuel i j s = some (s', j') ∧ Moved scb n (r + 1, u) s s' ∧
      r ≤ j' ∧ j' ≤ u ∧ (∀ k, r ≤ k → k ≤ j' → rank scb s' k ≤ rank scb s' r) ∧
      (∀ k, j' < k → k ≤ u → rank scb s' r ≤ rank scb s' k) := by
  induction fuel generalizing i j s with
  | zero => omega
  | succ fuel ih =>
    obtain ⟨i', hi', hii, hiu, hlow', hgt⟩ :=
      scanUp_spec hfits (by omega : 1 ≤ i) (by omega) hun hkey hstop
    obtain ⟨j', hj', hrj, hjj, hhigh', hlt⟩ :=
      scanDown_spec hfits (by omega : r ≤ j) hkey
    have hlows : ∀ k, r < k → k < i' → rank scb s k ≤ rank scb s r := by
      intro k hk hki
      rcases Nat.lt_or_ge k i with hlt | hge
      · exact hlow k hk hlt
      · exact hlow' k hge hki
    have hhighs : ∀ k, j' < k → k ≤ u → rank scb s r ≤ rank scb s k := by
      intro k hk hku
      rcases Nat.lt_or_ge j k with hlt | hge
      · exact hhigh k hlt hku
      · exact hhigh' k hk hge
    rw [partition, hi', Option.bind_eq_bind, Option.bind_some, hj', Option.bind_some]
    split_ifs with hji
    · refine ⟨s, j', rfl, hlaid.moved _, hrj, hjj.trans hju, fun k hk hkj => ?_, hhighs⟩
      rcases Nat.lt_or_eq_of_le hkj with hkj' | rfl
      · rcases Nat.lt_or_eq_of_le hk with hk' | rfl
        · exact hlows k hk' (by omega)
        · exact le_rfl
      · exact hlt
    · -- the two records change sides
      have hmoved : Moved scb n (r + 1, u) s (swap scb i' j' s) :=
        hlaid.swap_moved hfits (by simp) hun ⟨by simp only; omega, by simp only; omega⟩
          ⟨by simp only; omega, by simp only; omega⟩
      have hrank : ∀ k, 1 ≤ k → k ≤ n →
          rank scb (swap scb i' j' s) k = rank scb s (Equiv.swap i' j' k) := fun k hk hkn =>
        hlaid.swap_rank hfits (by omega) (by omega) (by omega) (by omega) hk hkn
      have hpivot : rank scb (swap scb i' j' s) r = rank scb s r := by
        rw [hrank r hr (by omega), Equiv.swap_apply_of_ne_of_ne (by omega) (by omega)]
      have hfirst : (swap scb i' j' s).first r = key := by
        rw [← hkey]
        refine hmoved.first_eq hlaid hfits hr (by omega) (hmoved.outside r fun hp => ?_)
        exact absurd hp.1 (Nat.not_succ_le_self r)
      have hnext : (swap scb i' j' s).first (u + 1) = s.first (u + 1) :=
        hmoved.first_next hlaid hfits hun fun hp => absurd hp.2 (Nat.not_succ_le_self u)
      obtain ⟨s', j'', heq, hmoved', hrest⟩ := ih (i := i' + 1) (j := j' - 1) hmoved.laid
        (by omega) (by omega) (by omega) hfirst (by rwa [hnext])
        (fun k hk hki => by
          rw [hpivot, hrank k (by omega) (by omega)]
          rcases Nat.lt_or_eq_of_le (Nat.le_of_lt_succ hki) with hki' | rfl
          · rw [Equiv.swap_apply_of_ne_of_ne (by omega) (by omega)]
            exact hlows k hk hki'
          · rwa [Equiv.swap_apply_left])
        (fun k hk hku => by
          rw [hpivot, hrank k (by omega) (by omega)]
          by_cases hkj : k = j'
          · rw [hkj, Equiv.swap_apply_right]
            exact hgt (by omega)
          · rw [Equiv.swap_apply_of_ne_of_ne (by omega) hkj]
            exact hhighs k (by omega) hku)
        (by omega)
      exact ⟨s', j'', heq, hmoved.trans hmoved', hrest⟩

theorem stackIntervals_perm (r j u : Nat) (stack : List (Nat × Nat)) :
    (stackIntervals r j u stack).Perm ((r, j - 1) :: (j + 1, u) :: stack) := by
  rw [stackIntervals]
  split_ifs
  · exact Perm.swap _ _ _
  · exact Perm.refl _

theorem length_stackIntervals (r j u : Nat) (stack : List (Nat × Nat)) :
    (stackIntervals r j u stack).length = stack.length + 2 :=
  (stackIntervals_perm r j u stack).length_eq

theorem halving_stackIntervals {stack : List (Nat × Nat)} (h : Halving n ((r, u) :: stack))
    (hr : 1 ≤ r) (hrj : r ≤ j) (hju : j ≤ u) : Halving n (stackIntervals r j u stack) := by
  rw [stackIntervals]
  split_ifs with hlong
  · refine h.push ?_ ?_ <;> simp only [Part.size] <;> omega
  · refine h.push ?_ ?_ <;> simp only [Part.size] <;> omega

theorem work_stackIntervals {stack : List (Nat × Nat)} (hr : 1 ≤ r) (hrj : r ≤ j) (hju : j ≤ u) :
    work (stackIntervals r j u stack) < work ((r, u) :: stack) := by
  rw [stackIntervals]
  split_ifs with hlong
  · simp only [work_cons, Part.size]
    omega
  · simp only [work_cons, Part.size]
    omega

theorem SortArea.Fits.lt (hfits : scb.Fits n) : n < 2 ^ 30 := by
  have hlongs := hfits.longs
  have hroom := hfits.room
  have hbytes := hfits.bytes
  simp only [sizeofSrBckptrInLongs] at hlongs
  omega

theorem interval_spec {parts : List Part} (hfits : scb.Fits n) (hlaid : Laid scb n s)
    (hcut : Cut n ((r, u) :: parts) (rank scb s)) (hlong : r + 2 ≤ u) :
    ∃ s₁ s₂ j, s₁ = swap scb (r + (u - r) / 2) r s ∧
      partition scb n r u (s₁.first r) (n + 2) (r + 1) u s₁ = some (s₂, j) ∧ r ≤ j ∧ j ≤ u ∧
      Moved scb n (r, u) s (swap scb r j s₂) ∧
      Cut n ((r, j - 1) :: (j + 1, u) :: parts) (rank scb (swap scb r j s₂)) := by
  obtain ⟨hr, hun⟩ := hcut.inside (r, u) mem_cons_self
  have hmid : Part.Has (r, u) (r + (u - r) / 2) := ⟨by simp only; omega, by simp only; omega⟩
  have hleft : Part.Has (r, u) r := ⟨le_rfl, by simp only; omega⟩
  have hmoved₁ : Moved scb n (r, u) s (swap scb (r + (u - r) / 2) r s) :=
    hlaid.swap_moved hfits hr hun hmid hleft
  generalize hs₁ : swap scb (r + (u - r) / 2) r s = s₁ at hmoved₁
  have hlaid₁ := hmoved₁.laid
  have hstop : ¬ s₁.first (u + 1) < s₁.first r := by
    refine UInt32.not_lt.2 ?_
    rcases Nat.lt_or_eq_of_le hun with hlt | rfl
    · exact first_le_of_rank_le hfits
        (hcut.le_next (hmoved₁.shuffled hlaid hr hun) (by omega) hlt)
    · rw [hlaid₁.first_next, UInt32.le_iff_toNat_le]
      exact Nat.le_of_lt_succ (s₁.first r).toNat_lt
  obtain ⟨s₂, j, hpart, hmoved₂, hrj, hju, hlow, hhigh⟩ := partition_spec hfits
    hlaid₁ hr hun (Nat.lt_succ_self r) (by omega) le_rfl rfl hstop
    (fun k hk hki => by omega) (fun k hk hku => by omega) (by omega : u + 1 < r + 1 + (n + 2))
  have hlaid₂ := hmoved₂.laid
  have hmoved : Moved scb n (r, u) s (swap scb r j s₂) :=
    (hmoved₁.trans (hmoved₂.mono fun k hk => ⟨(Nat.le_succ r).trans hk.1, hk.2⟩)).trans
      (hlaid₂.swap_moved hfits hr hun hleft ⟨hrj, hju⟩)
  have hrank : ∀ k, r ≤ k → k ≤ u →
      rank scb (swap scb r j s₂) k = rank scb s₂ (Equiv.swap r j k) := fun k hk hku =>
    hlaid₂.swap_rank hfits hr (by omega) (by omega) (by omega) (by omega) (by omega)
  have hpivot : rank scb (swap scb r j s₂) j = rank scb s₂ r := by
    rw [hrank j hrj hju, Equiv.swap_apply_right]
  refine ⟨s₁, s₂, j, rfl, hpart, hrj, hju, hmoved,
    hcut.split (hmoved.shuffled hlaid hr hun) hrj hju ?_ ?_⟩
  · intro k hk hkj
    rw [hpivot, hrank k hk (by omega)]
    refine hlow _ ?_ ?_ <;> rw [Equiv.swap_apply_def] <;> split_ifs <;> omega
  · intro k hk hku
    rw [hpivot, hrank k (by omega) hku, Equiv.swap_apply_of_ne_of_ne (by omega) (by omega)]
    exact hhigh k hk hku

theorem quick_spec {stack done : List Part} (hfits : scb.Fits n) (hlaid : Laid scb n s)
    (hcut : Cut n (stack ++ done) (rank scb s)) (hdone : ∀ p ∈ done, p.2 - p.1 < 2)
    (hhalf : Halving n stack) (hfuel : work stack < fuel) :
    ∃ s', quick scb n fuel stack s = some s' ∧ Moved scb n (1, n) s s' ∧
      Paired n 1 (rank scb s') := by
  induction fuel generalizing stack done s with
  | zero => omega
  | succ fuel ih =>
    cases stack with
    | nil => exact ⟨s, rfl, hlaid.moved _, hcut.paired hdone⟩
    | cons p stack =>
      obtain ⟨r, u⟩ := p
      rw [quick]
      split_ifs with hshort hout
      · refine @ih s stack ((r, u) :: done) hlaid (hcut.perm perm_middle.symm) ?_ hhalf.2 ?_
        · intro p hp
          rcases mem_cons.1 hp with rfl | hmem
          · exact hshort
          · exact hdone p hmem
        · rw [work_cons] at hfuel
          omega
      · have hun : u ≤ n := (hcut.inside (r, u) mem_cons_self).2
        omega
      · obtain ⟨hr, hun⟩ := hcut.inside (r, u) mem_cons_self
        obtain ⟨s₁, s₂, j, rfl, hpart, hrj, hju, hmoved, hcut'⟩ :=
          interval_spec hfits hlaid hcut (by omega)
        have hlen : stack.length < 30 := hhalf.length_lt
          (by simp only [Part.size]; omega) hfits.lt
        simp only [Option.bind_eq_bind, hpart, Option.bind_some, length_stackIntervals]
        rw [if_neg (by simp only [stackRoom]; omega)]
        obtain ⟨s', heq, hmoved', hpaired⟩ := @ih _ _ done hmoved.laid
          (hcut'.perm ((stackIntervals_perm r j u stack).symm.append_right done)) hdone
          (halving_stackIntervals hhalf hr hrj hju)
          ((work_stackIntervals hr hrj hju).trans_le (Nat.le_of_lt_succ hfuel))
        exact ⟨s', heq, (hmoved.mono fun k hk => ⟨hr.trans hk.1, hk.2.trans hun⟩).trans hmoved',
          hpaired⟩

theorem correctPairs_spec {count : Nat} (hfits : scb.Fits n) (hlaid : Laid scb n s) (hi : 1 ≤ i)
    (hcount : i + count ≤ n) (hpaired : Paired n i (rank scb s)) :
    Moved scb n (1, n) s (correctPairs scb count i s) ∧
      Paired n (i + count) (rank scb (correctPairs scb count i s)) := by
  induction count generalizing i s with
  | zero => exact ⟨hlaid.moved _, hpaired⟩
  | succ count ih =>
    rw [correctPairs]
    split_ifs with hswap
    · have hmoved : Moved scb n (1, n) s (swap scb i (i + 1) s) :=
        hlaid.swap_moved hfits le_rfl le_rfl ⟨hi, by simp only; omega⟩
          ⟨by simp, by simp only; omega⟩
      have hrank : ∀ k, 1 ≤ k → k ≤ n →
          rank scb (swap scb i (i + 1) s) k = rank scb s (Equiv.swap i (i + 1) k) := fun k hk hkn =>
        hlaid.swap_rank hfits hi (by omega) (by omega) (by omega) hk hkn
      have hpaired' : Paired n (i + 1) (rank scb (swap scb i (i + 1) s)) := by
        refine hpaired.exchange hi (by omega) ?_ ?_ ?_ ?_
        · exact rank_ge_of_compareSlots (by rw [hswap.2]; exact Ordering.noConfusion)
        · rw [hrank i hi (by omega), Equiv.swap_apply_left]
        · rw [hrank (i + 1) (by omega) (by omega), Equiv.swap_apply_right]
        · intro k hk hkn hki hki'
          rw [hrank k hk hkn, Equiv.swap_apply_of_ne_of_ne hki hki']
      obtain ⟨hmoved', hend⟩ := ih hmoved.laid (by omega) (by omega) hpaired'
      refine ⟨hmoved.trans hmoved', ?_⟩
      rwa [Nat.add_assoc, Nat.add_comm 1] at hend
    · have hle : rank scb s i ≤ rank scb s (i + 1) := by
        by_cases hfirst : s.first (i + 1) ≤ s.first i
        · exact rank_le_of_compareSlots fun hgt => hswap ⟨hfirst, hgt⟩
        · exact rank_le_of_first_lt hfits (UInt32.not_le.1 hfirst)
      obtain ⟨hmoved', hend⟩ := ih hlaid (by omega) (by omega) (hpaired.next fun _ => hle)
      refine ⟨hmoved', ?_⟩
      rwa [Nat.add_assoc, Nat.add_comm 1] at hend

/-- The buffer holds `n` records as they have been put. -/
structure Filled (scb : SortArea) (n : Nat) (s : SortBuffer) : Prop where
  next : s.nextPointer = n + 1
  last : s.lastRecord = scb.endMemory - n * scb.longs
  low : s.pointers 0 = scb.lowKey
  slots : ∀ k, 1 ≤ k → k ≤ n → s.pointers k = scb.keyAddress k
  bckptr : ∀ k, 1 ≤ k → k ≤ n →
    load s.memory (scb.keyAddress k - sizeofSrBckptrInLongs) sizeofSrBckptrInLongs = scb.bckptr k
  guard : s.memory scb.highKey = 0xFFFFFFFF

theorem Filled.laid (h : Filled scb n s) :
    Laid scb n { s with pointers := update s.pointers s.nextPointer scb.highKey } where
  perm := by
    refine Perm.of_eq (map_congr_left fun k hk => ?_)
    rw [mem_range'_1] at hk
    simp only [h.next]
    rw [update_of_ne (by omega), h.slots k hk.1 (by omega)]
  bckptr := by
    intro k hk hkn
    simp only [h.next]
    rw [update_of_ne (by omega), h.slots k hk hkn, h.bckptr k hk hkn]
  low := by
    simp only [h.next]
    rw [update_of_ne (by omega), h.low]
  high := by
    simp only [h.next]
    rw [update_self]
  guard := h.guard

theorem sort_spec (hfits : scb.Fits n) (h : Filled scb n s) :
    ∃ s', sort scb s = some s' ∧
      Moved scb n (1, n)
        { s with pointers := update s.pointers s.nextPointer scb.highKey } s' ∧
      ∀ a b, 1 ≤ a → a < b → b ≤ n → rank scb s' a ≤ rank scb s' b := by
  have hlaid := h.laid
  generalize hs₁ : ({ s with pointers := update s.pointers s.nextPointer scb.highKey } :
    SortBuffer) = s₁ at hlaid
  have hcut : Cut n ([(1, n)] ++ []) (rank scb s₁) := cut_whole n _
  obtain ⟨s₂, hquick, hmoved, hpaired⟩ := quick_spec hfits hlaid hcut (by simp)
    (by simp [Halving, Part.size])
    (by simp only [work_cons, work_nil, Part.size]; omega : work [(1, n)] < 2 * n + 2)
  have hn : s.nextPointer - 1 = n := by
    rw [h.next, Nat.add_sub_cancel]
  refine ⟨correctPairs scb (n - 1) 1 s₂, ?_, ?_⟩
  · simp [sort, hn, hs₁, hquick]
  · rcases Nat.eq_zero_or_pos n with rfl | hpos
    · exact ⟨hmoved, fun a b ha hab hb => by omega⟩
    · obtain ⟨hmoved', hsorted⟩ := correctPairs_spec hfits hmoved.laid le_rfl
        (by omega : 1 + (n - 1) ≤ n) hpaired
      rw [Nat.add_sub_cancel' hpos] at hsorted
      exact ⟨hmoved.trans hmoved', fun a b => hsorted.sorted⟩

section Put

variable {b : SortBuffer} {N : Nat} {record : List UInt32}

theorem Filled.putRecord_eq (h : Filled scb n b) (record : List UInt32) :
    putRecord scb b record =
      { pointers := update b.pointers (n + 1) (scb.keyAddress (n + 1))
        memory := store (scb.setBckptr (scb.keyAddress (n + 1)) (n + 1) b.memory)
          (scb.keyAddress (n + 1)) record
        nextPointer := n + 2
        lastRecord := scb.endMemory - (n + 1) * scb.longs } := by
  have hkey : scb.endMemory - n * scb.longs - scb.longs = scb.endMemory - (n + 1) * scb.longs := by
    rw [Nat.succ_mul, Nat.sub_sub]
  simp [putRecord, h.next, h.last, hkey, SortArea.keyAddress]

theorem Filled.putRecord_memory (h : Filled scb n b) (hfits : scb.Fits N) (hn : n + 1 ≤ N)
    (hlen : record.length = scb.longs - sizeofSrBckptrInLongs) {x : Nat}
    (hx : x + 2 < scb.keyAddress (n + 1) ∨ scb.keyAddress (n + 1) + scb.longs ≤ x + 2) :
    (putRecord scb b record).memory x = b.memory x := by
  have hlongs := hfits.longs
  have hplace := (hfits.place (k := n + 1) (by omega) hn).1
  simp only [sizeofSrBckptrInLongs] at hlongs hlen
  rw [h.putRecord_eq]
  simp only
  rw [store_frame (by omega), SortArea.setBckptr, store_frame]
  rw [length_bckptr]
  simp only [sizeofSrBckptrInLongs]
  omega

theorem Filled.putRecord (h : Filled scb n b) (hfits : scb.Fits N) (hn : n + 1 ≤ N)
    (hlen : record.length = scb.longs - sizeofSrBckptrInLongs) :
    Filled scb (n + 1) (putRecord scb b record) where
  next := by rw [h.putRecord_eq]
  last := by rw [h.putRecord_eq]
  low := by
    rw [h.putRecord_eq]
    simp only
    rw [update_of_ne (by omega), h.low]
  slots := by
    intro k hk hkn
    rw [h.putRecord_eq]
    simp only
    rcases Nat.lt_or_eq_of_le hkn with hlt | rfl
    · rw [update_of_ne (by omega), h.slots k hk (Nat.le_of_lt_succ hlt)]
    · rw [update_self]
  bckptr := by
    intro k hk hkn
    have hplace := (hfits.place (k := n + 1) (by omega) hn).1
    rcases Nat.lt_or_eq_of_le hkn with hlt | rfl
    · rw [← h.bckptr k hk (Nat.le_of_lt_succ hlt)]
      have hbeside := hfits.keyAddress_add_le hlt hn
      refine load_congr fun x hx hx' => h.putRecord_memory hfits hn hlen ?_
      simp only [sizeofSrBckptrInLongs] at hx hx'
      omega
    · rw [h.putRecord_eq]
      rw [← @load_setBckptr scb b.memory (scb.keyAddress (n + 1)) (n + 1)]
      refine load_congr fun x hx hx' => store_of_lt ?_
      simp only [sizeofSrBckptrInLongs] at hx'
      omega
  guard := by
    have hplace := hfits.place (k := n + 1) (by omega) hn
    have hhigh := hfits.high
    rw [h.putRecord_memory hfits hn hlen (by omega), h.guard]

theorem fill_filled {records : List (List UInt32)} (hfits : scb.Fits N)
    (hN : records.length ≤ N) (hguard : b.memory scb.highKey = 0xFFFFFFFF)
    (hlen : ∀ record ∈ records, record.length = scb.longs - sizeofSrBckptrInLongs) :
    Filled scb records.length (fill scb b records) ∧
      ∀ k, (hk : k < records.length) →
        load (fill scb b records).memory (scb.keyAddress (k + 1))
          (scb.longs - sizeofSrBckptrInLongs) = records[k] := by
  induction records using List.reverseRecOn with
  | nil =>
    refine ⟨⟨rfl, ?_, by simp [fill, initBuffer], ?_, ?_, hguard⟩, by simp⟩
    · simp [fill, initBuffer]
    · intro k hk hkn
      simp only [length_nil] at hkn
      omega
    · intro k hk hkn
      simp only [length_nil] at hkn
      omega
  | append_singleton records record ih =>
    rw [length_append, length_singleton] at hN
    obtain ⟨hfilled, hload⟩ := ih (by omega) fun r hr => hlen r (mem_append_left _ hr)
    have hlast : record.length = scb.longs - sizeofSrBckptrInLongs := hlen record (by simp)
    have hfill : fill scb b (records ++ [record]) = Sort.putRecord scb (fill scb b records) record
      := by
      rw [fill, foldl_append, foldl_cons, foldl_nil, fill]
    rw [hfill]
    refine ⟨by simpa using hfilled.putRecord hfits hN hlast, fun k hk => ?_⟩
    rw [length_append, length_singleton] at hk
    rcases Nat.lt_or_eq_of_le (Nat.le_of_lt_succ hk) with hlt | rfl
    · rw [getElem_append_left hlt, ← hload k hlt]
      have hbeside := hfits.keyAddress_add_le (a := k + 1) (by omega) hN
      refine load_congr fun x hx hx' => hfilled.putRecord_memory hfits hN hlast ?_
      omega
    · rw [getElem_append_right le_rfl, hfilled.putRecord_eq]
      simp only [Nat.sub_self]
      rw [← hlast]
      exact load_store_self _ _ _

end Put

/-- Whatever records are put into the buffer, as many as have room: `sort` succeeds, that is it
reads no slot beyond the guards and stacks no more intervals than there is room for. The pointers
between the guards are the same as before in another order, and the back pointers go to the slots.
The records have not changed, and in the order of the slots their keys do not decrease. -/
theorem sorts_in_memory (records : List (List UInt32)) (b : SortBuffer)
    (hfits : scb.Fits records.length) (hguard : b.memory scb.highKey = 0xFFFFFFFF)
    (hlen : ∀ record ∈ records, record.length = scb.longs - sizeofSrBckptrInLongs) :
    ∃ s, sort scb (fill scb b records) = some s ∧
      s.pointers 0 = scb.lowKey ∧ s.pointers (records.length + 1) = scb.highKey ∧
      ((range' 1 records.length).map s.pointers).Perm
        ((range' 1 records.length).map (fill scb b records).pointers) ∧
      (∀ k, (hk : k < records.length) →
        load s.memory ((fill scb b records).pointers (k + 1))
          (scb.longs - sizeofSrBckptrInLongs) = records[k]) ∧
      (∀ i j length, 1 ≤ i → i < j → j ≤ records.length →
        length ≤ scb.longs - sizeofSrBckptrInLongs →
          s.longwords (s.pointers i) length ≤ s.longwords (s.pointers j) length) ∧
      ∀ k, 1 ≤ k → k ≤ records.length →
        load s.memory (s.pointers k - sizeofSrBckptrInLongs) sizeofSrBckptrInLongs =
          scb.bckptr k := by
  obtain ⟨hfilled, hload⟩ := fill_filled hfits le_rfl hguard hlen
  obtain ⟨s, hsort, hmoved, hsorted⟩ := sort_spec hfits hfilled
  have hslots : (range' 1 records.length).map (fill scb b records).pointers =
      (range' 1 records.length).map scb.keyAddress := by
    refine map_congr_left fun k hk => ?_
    rw [mem_range'_1] at hk
    exact hfilled.slots k hk.1 (by omega)
  refine ⟨s, hsort, hmoved.laid.low, hmoved.laid.high, ?_, ?_, ?_, hmoved.laid.bckptr⟩
  · rw [hslots]
    exact hmoved.laid.perm
  · intro k hk
    rw [hfilled.slots (k + 1) (Nat.succ_pos k) hk, hmoved.records (k + 1) (Nat.succ_pos k) hk,
      hload k hk]
  · intro i j length hi hij hj hle
    exact longwords_le_of_le hle (hsorted i j hi hij hj)

/-- Three records of two longwords, in a buffer with room for them. -/
def smallArea : SortArea := ⟨4, 100, 40, 10, 20⟩

theorem sorts_in_memory_three :
    ∃ s, sort smallArea (fill smallArea ⟨fun _ => 0, fun _ => 0xFFFFFFFF, 0, 0⟩
        [[3, 1], [1, 5], [3, 0]]) = some s ∧
      s.pointers 0 = 10 ∧ s.pointers 4 = 20 := by
  obtain ⟨s, hsort, hlow, hhigh, -⟩ := @sorts_in_memory smallArea [[3, 1], [1, 5], [3, 0]]
    ⟨fun _ => 0, fun _ => 0xFFFFFFFF, 0, 0⟩
    ⟨by decide, by decide, by decide, by decide⟩ rfl (by decide)
  exact ⟨s, hsort, hlow, hhigh⟩

end Firebird.Jrd.Sort
