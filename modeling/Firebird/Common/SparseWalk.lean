import Firebird.Common.SparseNavigate
import Mathlib.Data.List.Induction
import Mathlib.Order.Bounds.Basic

/-!
# What navigation in a sparse bitmap shows

`locate` finds the nearest value in the relation asked for, and `getNext` and `getPrev` enumerate
the values on both sides of a position. All of it holds but for `locLessEqual` and `locLess` with a
key whose bunch has no value, when there is a value before that bunch.
-/
namespace Firebird.Common

open List

def LocType.Rel (lt : LocType) (key value : Nat) : Prop :=
  match lt with
  | .locEqual => value = key
  | .locGreatEqual => key ≤ value
  | .locGreat => key < value
  | .locLessEqual => value ≤ key
  | .locLess => value < key

def LocType.Nearest (lt : LocType) (S : Set Nat) (key value : Nat) : Prop :=
  match lt with
  | .locEqual => value ∈ S ∧ value = key
  | .locGreatEqual | .locGreat => IsLeast {v ∈ S | lt.Rel key v} value
  | .locLessEqual | .locLess => IsGreatest {v ∈ S | lt.Rel key v} value

namespace SparseBitmap

variable {n k top : Nat} {b : SparseBitmap n} {acc acc' : Accessor n} {L R : List Nat}
variable {v key : Nat} {lt : LocType} {S : Set Nat}

/-- The values that the accessor shows when it is moved until there is no way on; then it shows the
last one still. -/
inductive Visits (move : Accessor n → Bool × Accessor n) : Accessor n → List Nat → Prop
  | stop {acc : Accessor n} : (move acc).1 = false →
      (move acc).2.currentValue = acc.currentValue → Visits move acc []
  | go {acc : Accessor n} {values : List Nat} : (move acc).1 = true →
      Visits move (move acc).2 values → Visits move acc ((move acc).2.currentValue :: values)

inductive Moves (top : Nat) : Accessor n → Accessor n → Prop
  | start {acc : Accessor n} : Moves top acc acc
  | next {acc acc' : Accessor n} : Moves top acc acc' → (acc'.getNext top).1 = true →
      Moves top acc (acc'.getNext top).2
  | prev {acc acc' : Accessor n} : Moves top acc acc' → (acc'.getPrev top).1 = true →
      Moves top acc (acc'.getPrev top).2

/-- The accessor shows a value of the set, and enumerates those on both sides of it. -/
structure Enumerates (top : Nat) (S : Set Nat) (acc : Accessor n) : Prop where
  current : acc.currentValue ∈ S
  up : ∃ R, Visits (Accessor.getNext top) acc R ∧ R.Pairwise (· < ·) ∧
    ∀ v, v ∈ R ↔ v ∈ S ∧ acc.currentValue < v
  down : ∃ L, Visits (Accessor.getPrev top) acc L ∧ L.Pairwise (· > ·) ∧
    ∀ v, v ∈ L ↔ v ∈ S ∧ v < acc.currentValue

def Walkable (top : Nat) (S : Set Nat) (acc : Accessor n) : Prop :=
  ∀ acc', Moves top acc acc' → Enumerates top S acc'

/-- `locate` and the positions that follow are as they should be. -/
structure Locates (top : Nat) (S : Set Nat) (acc : Accessor n) (lt : LocType) (key : Nat) :
    Prop where
  found : (acc.locate top lt key).1 = true ↔ ∃ v ∈ S, lt.Rel key v
  nearest : (acc.locate top lt key).1 = true →
    lt.Nearest S key (acc.locate top lt key).2.currentValue
  walkable : (acc.locate top lt key).1 = true → Walkable top S (acc.locate top lt key).2

/-- `getFirst` and `getLast` are as they should be. -/
structure Ends (top : Nat) (S : Set Nat) (acc : Accessor n) : Prop where
  first : (acc.getFirst top).1 = true ↔ S.Nonempty
  last : (acc.getLast top).1 = true ↔ S.Nonempty
  least : (acc.getFirst top).1 = true → IsLeast S (acc.getFirst top).2.currentValue ∧
    Walkable top S (acc.getFirst top).2
  greatest : (acc.getLast top).1 = true → IsGreatest S (acc.getLast top).2.currentValue ∧
    Walkable top S (acc.getLast top).2

/-- The set that the bitmap of the accessor, which may be NULL, has been made for. -/
def Shows (acc : Accessor n) (S : Set Nat) : Prop :=
  match acc.bitmap with
  | none => S = ∅
  | some b => Reach n b S

/-- The bitmap has buckets, but none for the key, and one before: the value is then counted down
from the start of that bucket. -/
def Skips (acc : Accessor n) (S : Set Nat) (lt : LocType) (key : Nat) : Prop :=
  ∃ b last, acc.bitmap = some b ∧ b.singular = false ∧
    (lt = .locLessEqual ∧ last = key ∨ lt = .locLess ∧ last + 1 = key) ∧
    (∃ v ∈ S, v < aligned n last) ∧ ∀ v ∈ S, aligned n v ≠ aligned n last

def values (b : SparseBitmap n) : List Nat :=
  if b.singular then [b.singularValue] else elements b.tree.items

theorem values_of_buckets (hs : b.singular = false) : values b = elements b.tree.items := by
  rw [values, if_neg (by simp [hs])]

/-- A bitmap with the set that it has been made for. -/
structure Lists (top : Nat) (b : SparseBitmap n) (S : Set Nat) : Prop where
  within : Within top b.tree.items
  sorted : (values b).Pairwise (· < ·)
  mem : ∀ v, v ∈ values b ↔ v ∈ S

theorem aligned_add_le {w : Nat} (hn : n = 2 ^ k) (htop : top = 2 ^ w) (hkw : k ≤ w) {value : Nat}
    (hv : value < top) : aligned n value + n ≤ top := by
  have hdvd : n ∣ top := by
    rw [hn, htop]
    exact Nat.pow_dvd_pow 2 hkw
  have hmod := aligned_mod hn value
  have hal : aligned n value < top := by
    rw [aligned_eq hn]
    omega
  obtain ⟨m, rfl⟩ := hdvd
  obtain ⟨i, hi⟩ := Nat.dvd_of_mod_eq_zero hmod
  rw [hi] at hal ⊢
  have him : i < m := Nat.lt_of_mul_lt_mul_left hal
  calc n * i + n = n * (i + 1) := by rw [Nat.mul_succ]
    _ ≤ n * m := Nat.mul_le_mul_left n him

theorem Reach.lists {w : Nat} (hn : n = 2 ^ k) (htop : top = 2 ^ w) (hkw : k ≤ w)
    (h : Reach n b S) (hS : ∀ v ∈ S, v < top) : Lists top b S := by
  obtain ⟨hwf, hmem⟩ := h.spec hn
  have hvalues : ∀ v, v ∈ values b ↔ v ∈ S := by
    intro v
    rw [← hmem, values, Mem]
    split
    · simp
    · exact mem_elements hn hwf.good
  refine ⟨⟨hwf.good, fun c hc => ?_⟩, ?_, hvalues⟩
  · -- a bucket has a value, and that is a value of the type
    have hs : b.singular = false := by
      cases hs : b.singular with
      | false => rfl
      | true =>
        rw [hwf.singular hs] at hc
        cases hc
    obtain ⟨v, hv⟩ := exists_mem_of_ne_nil _ (Bucket.above_ne_nil (hwf.good.bits c hc))
    obtain ⟨j, -, hj, rfl⟩ := Bucket.mem_above.1 hv
    have hin : c.startValue + j ∈ values b := by
      rw [values, if_neg (by simp [hs])]
      exact mem_elements_iff.2 ⟨c, hc, j, hj, rfl⟩
    have hlt := hS _ ((hvalues _).1 hin)
    have hjn := BitVec.lt_of_getLsbD hj
    have hal : aligned n (c.startValue + j) = c.startValue := by
      rw [aligned_eq hn, Nat.add_mod, hwf.good.start c hc, Nat.zero_add, Nat.mod_mod,
        Nat.mod_eq_of_lt hjn, Nat.add_sub_cancel]
    have hle := aligned_add_le hn htop hkw hlt
    rwa [hal] at hle
  · rw [values]
    split
    · simp
    · exact pairwise_elements hwf.good

theorem At.values_eq (h : At b acc L v R) : values b = L ++ v :: R := by
  rcases h.place with ⟨hs, rfl, rfl, rfl⟩ | ⟨hs, before, c, after, j, hon, rfl, rfl⟩
  · rw [values, if_pos hs]
    rfl
  · have hj := BitVec.lt_of_getLsbD hon.bit
    have hv : v = c.startValue + j := h.value.symm.trans hon.value
    rw [values, if_neg (by simp [hs]), hon.items, elements_append, elements_cons,
      ← c.below_append_above hj.le, c.above_eq hj, if_pos hon.bit, hv]
    simp

section

variable (hl : Lists top b S)

include hl

theorem At.visits_up (h : At b acc L v R) : Visits (Accessor.getNext top) acc R := by
  induction R generalizing acc L v with
  | nil =>
    rcases At.getNext hl.within h with ⟨-, hstop⟩ | ⟨w, R, hnil, -⟩
    · exact .stop (by rw [hstop]) (by rw [hstop])
    · cases hnil
  | cons w R ih =>
    rcases At.getNext hl.within h with ⟨hnil, -⟩ | ⟨w, R, hcons, hgo, hat⟩
    · cases hnil
    · obtain ⟨rfl, rfl⟩ := List.cons.inj hcons
      have hvisits := Visits.go hgo (ih hat)
      rwa [hat.value] at hvisits

theorem At.visits_down (h : At b acc L v R) : Visits (Accessor.getPrev top) acc L.reverse := by
  induction L using List.reverseRecOn generalizing acc v R with
  | nil =>
    rcases At.getPrev hl.within h with ⟨-, hstop⟩ | ⟨w, L, hnil, -⟩
    · exact .stop (by rw [hstop]) (by rw [hstop])
    · simp at hnil
  | append_singleton L w ih =>
    rcases At.getPrev hl.within h with ⟨hnil, -⟩ | ⟨w, L, hcons, hgo, hat⟩
    · simp at hnil
    · obtain ⟨rfl, hw⟩ := append_inj' hcons rfl
      obtain rfl : _ = w := singleton_injective hw
      have hvisits := Visits.go hgo (ih hat)
      rw [hat.value] at hvisits
      simpa using hvisits

theorem At.enumerates (h : At b acc L v R) : Enumerates top S acc := by
  have hsorted := hl.sorted
  rw [h.values_eq, pairwise_append, pairwise_cons] at hsorted
  obtain ⟨hL, ⟨hv, hR⟩, hLR⟩ := hsorted
  have hmem : ∀ w, w ∈ S ↔ w ∈ L ∨ w = v ∨ w ∈ R := by
    intro w
    rw [← hl.mem, h.values_eq, mem_append, mem_cons]
  have hlt : ∀ w ∈ L, w < v := fun w hw => hLR w hw v mem_cons_self
  refine ⟨?_, ⟨R, h.visits_up hl, hR, ?_⟩, L.reverse, h.visits_down hl, ?_, ?_⟩
  · rw [h.value, hmem]
    exact .inr (.inl rfl)
  · intro w
    rw [h.value, hmem]
    constructor
    · exact fun hw => ⟨.inr (.inr hw), hv w hw⟩
    · rintro ⟨hw | rfl | hw, hvw⟩
      · exact absurd (hlt w hw) (by omega)
      · omega
      · exact hw
  · rw [pairwise_reverse]
    exact hL
  · intro w
    rw [mem_reverse, h.value, hmem]
    constructor
    · exact fun hw => ⟨.inl hw, hlt w hw⟩
    · rintro ⟨hw | rfl | hw, hwv⟩
      · exact hw
      · omega
      · exact absurd (hv w hw) (by omega)

theorem Moves.at (hmoves : Moves top acc acc') (h : ∃ L v R, At b acc L v R) :
    ∃ L v R, At b acc' L v R := by
  induction hmoves with
  | start => exact h
  | next _ hgo ih =>
    obtain ⟨L, v, R, hat⟩ := ih
    rcases At.getNext hl.within hat with ⟨-, hstop⟩ | ⟨w, R', -, -, hnext⟩
    · rw [hstop] at hgo
      cases hgo
    · exact ⟨_, _, _, hnext⟩
  | prev _ hgo ih =>
    obtain ⟨L, v, R, hat⟩ := ih
    rcases At.getPrev hl.within hat with ⟨-, hstop⟩ | ⟨w, L', -, -, hprev⟩
    · rw [hstop] at hgo
      cases hgo
    · exact ⟨_, _, _, hprev⟩

theorem At.walkable (h : At b acc L v R) : Walkable top S acc := by
  intro acc' hmoves
  obtain ⟨L', v', R', hat⟩ := hmoves.at hl ⟨L, v, R, h⟩
  exact hat.enumerates hl

theorem Lists.isLeast {P : Nat → Prop} (h : values b = L ++ v :: R) (hL : ∀ x ∈ L, ¬ P x)
    (hR : ∀ x ∈ v :: R, P x) : IsLeast {w ∈ S | P w} v := by
  have hsorted := hl.sorted
  rw [h, pairwise_append, pairwise_cons] at hsorted
  refine ⟨⟨(hl.mem v).1 (by simp [h]), hR v mem_cons_self⟩, ?_⟩
  rintro w ⟨hw, hP⟩
  rw [← hl.mem, h, mem_append, mem_cons] at hw
  rcases hw with hw | rfl | hw
  · exact absurd hP (hL w hw)
  · exact Nat.le_refl w
  · exact (hsorted.2.1.1 w hw).le

theorem Lists.isGreatest {P : Nat → Prop} (h : values b = L ++ [v] ++ R) (hL : ∀ x ∈ L ++ [v], P x)
    (hR : ∀ x ∈ R, ¬ P x) : IsGreatest {w ∈ S | P w} v := by
  have hsorted := hl.sorted
  rw [h, pairwise_append, pairwise_append] at hsorted
  refine ⟨⟨(hl.mem v).1 (by simp [h]), hL v (by simp)⟩, ?_⟩
  rintro w ⟨hw, hP⟩
  rw [← hl.mem, h, mem_append, mem_append, mem_singleton] at hw
  rcases hw with (hw | rfl) | hw
  · exact (hsorted.1.2.2 w hw v (by simp)).le
  · exact Nat.le_refl w
  · exact absurd hP (hR w hw)

theorem Lists.greatEqual (hn : n = 2 ^ k) (hb : acc.bitmap = some b) (hs : b.singular = false)
    (hkey : key < top) :
    ((acc.locateBucket top b .locGreatEqual key).1 = true ↔ ∃ v ∈ S, key ≤ v) ∧
    ((acc.locateBucket top b .locGreatEqual key).1 = true →
      ∃ L v R, At b (acc.locateBucket top b .locGreatEqual key).2 L v R ∧
        IsLeast {w ∈ S | key ≤ w} v) := by
  obtain ⟨L, R, hsplit, hL, hR, hcase⟩ := locateBucket_greatEqual hl.within hn hb hs hkey
  rw [← values_of_buckets hs] at hsplit
  have hnotL : ∀ x ∈ L, ¬ key ≤ x := fun x hx => Nat.not_le.2 (hL x hx)
  rcases hcase with ⟨rfl, hfalse⟩ | ⟨v, R, rfl, htrue, hat⟩
  · rw [hfalse]
    refine ⟨⟨fun h => absurd h (by simp), ?_⟩, fun h => absurd h (by simp)⟩
    rintro ⟨v, hv, hle⟩
    rw [← hl.mem, hsplit, append_nil] at hv
    exact absurd hle (hnotL v hv)
  · have hleast := hl.isLeast hsplit hnotL hR
    exact ⟨⟨fun _ => ⟨v, hleast.1⟩, fun _ => htrue⟩, fun _ => ⟨L, v, R, hat, hleast⟩⟩

theorem Lists.lessEqual (hn : n = 2 ^ k) (hb : acc.bitmap = some b) (hs : b.singular = false)
    (hkey : key < top) (hthere : ∃ c ∈ b.tree.items, c.startValue = aligned n key) :
    ((acc.locateBucket top b .locLessEqual key).1 = true ↔ ∃ v ∈ S, v ≤ key) ∧
    ((acc.locateBucket top b .locLessEqual key).1 = true →
      ∃ L v R, At b (acc.locateBucket top b .locLessEqual key).2 L v R ∧
        IsGreatest {w ∈ S | w ≤ key} v) := by
  obtain ⟨L, R, hsplit, hL, hR, hcase⟩ := locateBucket_lessEqual hl.within hn hb hs hkey hthere
  rw [← values_of_buckets hs] at hsplit
  have hnotR : ∀ x ∈ R, ¬ x ≤ key := fun x hx => Nat.not_le.2 (hR x hx)
  rcases hcase with ⟨rfl, hfalse⟩ | ⟨L, v, rfl, htrue, hat⟩
  · rw [hfalse]
    refine ⟨⟨fun h => absurd h (by simp), ?_⟩, fun h => absurd h (by simp)⟩
    rintro ⟨v, hv, hle⟩
    rw [← hl.mem, hsplit, nil_append] at hv
    exact absurd hle (hnotR v hv)
  · have hgreatest := hl.isGreatest hsplit hL hnotR
    exact ⟨⟨fun _ => ⟨v, hgreatest.1⟩, fun _ => htrue⟩, fun _ => ⟨L, v, R, hat, hgreatest⟩⟩

theorem Lists.lessEqual_missing (hn : n = 2 ^ k) (hk : 1 ≤ k) (hb : acc.bitmap = some b)
    (hs : b.singular = false) (hkey : key < top)
    (hmissing : ∀ c ∈ b.tree.items, c.startValue ≠ aligned n key) :
    ((acc.locateBucket top b .locLessEqual key).1 = true ↔ ∃ v ∈ S, v ≤ key) ∧
    ((acc.locateBucket top b .locLessEqual key).1 = true →
      ¬ IsGreatest {w ∈ S | w ≤ key} (acc.locateBucket top b .locLessEqual
        key).2.currentValue) := by
  obtain ⟨L, R, hsplit, hL, hR, hcase⟩ :=
    locateBucket_lessEqual_missing hl.within hn hk hb hkey hmissing
  rw [← values_of_buckets hs] at hsplit
  have hnotR : ∀ x ∈ R, ¬ x ≤ key := fun x hx => Nat.not_le.2 (hR x hx)
  rcases hcase with ⟨rfl, hfalse⟩ | ⟨L, v, rfl, htrue, hwrong⟩
  · rw [hfalse]
    refine ⟨⟨fun h => absurd h (by simp), ?_⟩, fun h => absurd h (by simp)⟩
    rintro ⟨v, hv, hle⟩
    rw [← hl.mem, hsplit, nil_append] at hv
    exact absurd hle (hnotR v hv)
  · have hgreatest := hl.isGreatest hsplit hL hnotR
    exact ⟨⟨fun _ => ⟨v, hgreatest.1⟩, fun _ => htrue⟩, fun _ h => hwrong (h.unique hgreatest)⟩

theorem Lists.exists_bucket (hn : n = 2 ^ k) (hs : b.singular = false) {value : Nat} :
    (∃ c ∈ b.tree.items, c.startValue = aligned n value) ↔
      ∃ v ∈ S, aligned n v = aligned n value := by
  have hgood := hl.within.good
  constructor
  · rintro ⟨c, hc, hstart⟩
    obtain ⟨v, hv⟩ := exists_mem_of_ne_nil _ (Bucket.above_ne_nil (hgood.bits c hc))
    obtain ⟨j, -, hj, rfl⟩ := Bucket.mem_above.1 hv
    refine ⟨c.startValue + j, (hl.mem _).1 ?_, ?_⟩
    · rw [values_of_buckets hs]
      exact mem_elements_iff.2 ⟨c, hc, j, hj, rfl⟩
    · rw [← hstart, aligned_eq hn, Nat.add_mod, hgood.start c hc, Nat.zero_add, Nat.mod_mod,
        Nat.mod_eq_of_lt (BitVec.lt_of_getLsbD hj), Nat.add_sub_cancel]
  · rintro ⟨v, hv, hal⟩
    rw [← hl.mem, values_of_buckets hs, mem_elements hn hgood] at hv
    obtain ⟨c, hc, hhas⟩ := hv
    exact ⟨c, hc, hhas.1.trans hal⟩

theorem Lists.locates_of (hfound : (acc.locate top lt key).1 = true ↔ ∃ v ∈ S, lt.Rel key v)
    (hat : (acc.locate top lt key).1 = true →
      ∃ L v R, At b (acc.locate top lt key).2 L v R ∧ lt.Nearest S key v) :
    Locates top S acc lt key := by
  refine ⟨hfound, fun h => ?_, fun h => ?_⟩
  · obtain ⟨L, v, R, hat, hnear⟩ := hat h
    rwa [hat.value]
  · obtain ⟨L, v, R, hat, -⟩ := hat h
    exact hat.walkable hl

theorem Lists.locates_singular (hb : acc.bitmap = some b) (hs : b.singular = true) (lt : LocType)
    (key : Nat) : Locates top S acc lt key := by
  have hmem : ∀ v, v ∈ S ↔ v = b.singularValue := by
    intro v
    rw [← hl.mem, values, if_pos hs, mem_singleton]
  have hvalue : (acc.locate top lt key).2 = { acc with currentValue := b.singularValue } := by
    cases lt <;> simp [Accessor.locate, hb, hs]
  have hfound : (acc.locate top lt key).1 = true ↔ lt.Rel key b.singularValue := by
    cases lt <;> simp [Accessor.locate, hb, hs, LocType.Rel]
  refine hl.locates_of (b := b) ?_ ?_
  · rw [hfound]
    constructor
    · exact fun h => ⟨_, (hmem _).2 rfl, h⟩
    · rintro ⟨v, hv, hrel⟩
      rwa [(hmem v).1 hv] at hrel
  · rw [hfound, hvalue]
    intro hrel
    refine ⟨[], b.singularValue, [], ⟨hb, rfl, .inl ⟨hs, rfl, rfl, rfl⟩⟩, ?_⟩
    have hin : b.singularValue ∈ {v ∈ S | lt.Rel key v} := ⟨(hmem _).2 rfl, hrel⟩
    have heq : ∀ v ∈ {v ∈ S | lt.Rel key v}, v = b.singularValue := fun v hv => (hmem v).1 hv.1
    cases lt with
    | locEqual => exact ⟨(hmem _).2 rfl, hrel⟩
    | locGreatEqual => exact ⟨hin, fun v hv => (heq v hv).ge⟩
    | locGreat => exact ⟨hin, fun v hv => (heq v hv).ge⟩
    | locLessEqual => exact ⟨hin, fun v hv => (heq v hv).le⟩
    | locLess => exact ⟨hin, fun v hv => (heq v hv).le⟩

theorem Lists.lessEqual_of_not_skipped (hn : n = 2 ^ k) (hk : 1 ≤ k) (hb : acc.bitmap = some b)
    (hs : b.singular = false) (hkey : key < top)
    (h : ¬ ((∃ v ∈ S, v < aligned n key) ∧ ∀ v ∈ S, aligned n v ≠ aligned n key)) :
    ((acc.locateBucket top b .locLessEqual key).1 = true ↔ ∃ v ∈ S, v ≤ key) ∧
    ((acc.locateBucket top b .locLessEqual key).1 = true →
      ∃ L v R, At b (acc.locateBucket top b .locLessEqual key).2 L v R ∧
        IsGreatest {w ∈ S | w ≤ key} v) := by
  by_cases hthere : ∃ c ∈ b.tree.items, c.startValue = aligned n key
  · exact hl.lessEqual hn hb hs hkey hthere
  · have hnone : ∀ v ∈ S, aligned n v ≠ aligned n key :=
      fun v hv heq => hthere ((hl.exists_bucket hn hs).2 ⟨v, hv, heq⟩)
    have hmissing : ∀ c ∈ b.tree.items, c.startValue ≠ aligned n key :=
      fun c hc heq => hthere ⟨c, hc, heq⟩
    have hfound := (hl.lessEqual_missing hn hk hb hs hkey hmissing).1
    refine ⟨hfound, fun htrue => ?_⟩
    -- a value up to the key would be before its bunch
    obtain ⟨v, hv, hle⟩ := hfound.1 htrue
    refine absurd ⟨⟨v, hv, ?_⟩, hnone⟩ h
    have hlt := sub_aligned_lt hn v
    have hne := hnone v hv
    by_contra hge
    have hnear : aligned n v < aligned n key := by
      refine Nat.lt_of_le_of_ne ?_ hne
      rw [aligned_eq hn, aligned_eq hn, ← Nat.div_mul_self_eq_mod_sub_self,
        ← Nat.div_mul_self_eq_mod_sub_self]
      exact Nat.mul_le_mul_right n (Nat.div_le_div_right hle)
    have hstep := @add_le_of_lt n ⟨aligned n v, 0⟩ ⟨aligned n key, 0⟩ (aligned_mod hn v)
      (aligned_mod hn key) hnear
    dsimp only at hstep
    omega

theorem Lists.locates_buckets (hn : n = 2 ^ k) (hk : 1 ≤ k) (hb : acc.bitmap = some b)
    (hs : b.singular = false) (hS : ∀ v ∈ S, v < top) (hkey : key < top)
    (h : ¬ Skips acc S lt key) : Locates top S acc lt key := by
  have hskip : ∀ last, (lt = .locLessEqual ∧ last = key ∨ lt = .locLess ∧ last + 1 = key) →
      ¬ ((∃ v ∈ S, v < aligned n last) ∧ ∀ v ∈ S, aligned n v ≠ aligned n last) :=
    fun last hlast hbad => h ⟨b, last, hb, hs, hlast, hbad⟩
  cases lt with
  | locEqual =>
    have hgo : acc.locate top .locEqual key = acc.locateBucket top b .locEqual key := by
      simp [Accessor.locate, hb, hs]
    have hmem : (∃ v ∈ S, LocType.Rel .locEqual key v) ↔ key ∈ elements b.tree.items := by
      rw [← values_of_buckets hs, hl.mem]
      simp [LocType.Rel]
    refine hl.locates_of (b := b) ?_ ?_
    all_goals
      rw [hgo]
      rcases locateBucket_equal hl.within hn hb hs with ⟨hnot, hfalse⟩ | ⟨L, R, heq, htrue, hat⟩
    · rw [hfalse, hmem]
      simpa using hnot
    · rw [htrue, hmem, heq]
      simp
    · rw [hfalse]
      exact fun h => absurd h (by simp)
    · refine fun _ => ⟨L, key, R, hat, ?_, rfl⟩
      rw [← hl.mem, values_of_buckets hs, heq]
      simp
  | locGreatEqual =>
    have hgo : acc.locate top .locGreatEqual key = acc.locateBucket top b .locGreatEqual key := by
      simp [Accessor.locate, hb, hs]
    obtain ⟨hfound, hat⟩ := hl.greatEqual hn hb hs hkey
    rw [← hgo] at hfound hat
    exact hl.locates_of hfound hat
  | locLessEqual =>
    have hgo : acc.locate top .locLessEqual key = acc.locateBucket top b .locLessEqual key := by
      simp [Accessor.locate, hb, hs]
    obtain ⟨hfound, hat⟩ :=
      hl.lessEqual_of_not_skipped hn hk hb hs hkey (hskip key (.inl ⟨rfl, rfl⟩))
    rw [← hgo] at hfound hat
    exact hl.locates_of hfound hat
  | locGreat =>
    by_cases hlast : key = top - 1
    · -- there is no value behind the last one of the type
      have hgo : (acc.locate top .locGreat key).1 = false := by
        simp [Accessor.locate, hb, hs, hlast]
      refine hl.locates_of (b := b) ?_ ?_
      · rw [hgo]
        refine ⟨fun h => absurd h (by simp), ?_⟩
        rintro ⟨v, hv, hrel⟩
        have hlt : key < v := hrel
        have htop := hS v hv
        omega
      · rw [hgo]
        exact fun h => absurd h (by simp)
    · have hgo : acc.locate top .locGreat key = acc.locateBucket top b .locGreatEqual
        (key + 1) := by
        simp [Accessor.locate, hb, hs, hlast]
      obtain ⟨hfound, hat⟩ := @Lists.greatEqual n k top b acc (key + 1) S hl hn hb hs (by omega)
      rw [← hgo] at hfound hat
      exact hl.locates_of hfound hat
  | locLess =>
    cases key with
    | zero =>
      have hgo : (acc.locate top .locLess 0).1 = false := by
        simp [Accessor.locate, hb, hs]
      refine hl.locates_of (b := b) ?_ ?_
      · rw [hgo]
        refine ⟨fun h => absurd h (by simp), ?_⟩
        rintro ⟨v, -, hrel⟩
        exact absurd hrel (Nat.not_lt_zero v)
      · rw [hgo]
        exact fun h => absurd h (by simp)
    | succ last =>
      have hgo : acc.locate top .locLess (last + 1) =
          acc.locateBucket top b .locLessEqual last := by
        simp [Accessor.locate, hb, hs]
      obtain ⟨hfound, hat⟩ := @Lists.lessEqual_of_not_skipped n k top b acc last S hl hn hk hb hs
        (by omega) (hskip last (.inr ⟨rfl, rfl⟩))
      simp only [← Nat.lt_succ_iff] at hfound hat
      rw [← hgo] at hfound hat
      exact hl.locates_of hfound hat

theorem Lists.not_locates (hn : n = 2 ^ k) (hk : 1 ≤ k) (hb : acc.bitmap = some b)
    (hkey : key < top) (h : Skips acc S lt key) : ¬ Locates top S acc lt key := by
  obtain ⟨b', last, hb', hs, hlt, ⟨v, hv, hvlt⟩, hnone⟩ := h
  obtain rfl : b = b' := Option.some.inj (hb.symm.trans hb')
  have hle := aligned_le hn last
  have hlast : last < top := by omega
  have hmissing : ∀ c ∈ b.tree.items, c.startValue ≠ aligned n last := by
    intro c hc heq
    obtain ⟨w, hw, hweq⟩ := (hl.exists_bucket hn hs).1 ⟨c, hc, heq⟩
    exact hnone w hw hweq
  obtain ⟨hfound, hwrong⟩ := @Lists.lessEqual_missing n k top b acc last S hl hn hk hb hs hlast
    hmissing
  have htrue := hfound.2 ⟨v, hv, by omega⟩
  intro hlocates
  rcases hlt with ⟨rfl, rfl⟩ | ⟨rfl, rfl⟩
  · have hgo : acc.locate top .locLessEqual last = acc.locateBucket top b .locLessEqual last := by
      simp [Accessor.locate, hb, hs]
    have hnear := hlocates.nearest
    rw [hgo] at hnear
    exact hwrong htrue (hnear htrue)
  · have hgo : acc.locate top .locLess (last + 1) =
        acc.locateBucket top b .locLessEqual last := by
      simp [Accessor.locate, hb, hs]
    have hnear := hlocates.nearest
    rw [hgo] at hnear
    simp only [← Nat.lt_succ_iff] at hwrong
    exact hwrong htrue (hnear htrue)

theorem Lists.ends (hb : acc.bitmap = some b) : Ends top S acc := by
  cases hs : b.singular with
  | true =>
    have hvalues : values b = [b.singularValue] := by rw [values, if_pos hs]
    have hmem : ∀ v, v ∈ S ↔ v = b.singularValue := by
      intro v
      rw [← hl.mem, hvalues, mem_singleton]
    have hin : b.singularValue ∈ S := (hmem _).2 rfl
    have hat : At b { acc with currentValue := b.singularValue } [] b.singularValue [] :=
      ⟨hb, rfl, .inl ⟨hs, rfl, rfl, rfl⟩⟩
    have hfirst : acc.getFirst top = (true, { acc with currentValue := b.singularValue }) := by
      simp [Accessor.getFirst, hb, hs]
    have hlast : acc.getLast top = (true, { acc with currentValue := b.singularValue }) := by
      simp [Accessor.getLast, hb, hs]
    refine ⟨?_, ?_, fun _ => ?_, fun _ => ?_⟩
    · simp [hfirst, Set.nonempty_of_mem hin]
    · simp [hlast, Set.nonempty_of_mem hin]
    · rw [hfirst]
      exact ⟨⟨hin, fun v hv => ((hmem v).1 hv).ge⟩, hat.walkable hl⟩
    · rw [hlast]
      exact ⟨⟨hin, fun v hv => ((hmem v).1 hv).le⟩, hat.walkable hl⟩
  | false =>
    have hvalues := values_of_buckets hs
    have hempty : elements b.tree.items = [] → ¬ S.Nonempty := by
      rintro hnil ⟨v, hv⟩
      rw [← hl.mem, hvalues, hnil] at hv
      cases hv
    have hset : {w ∈ S | True} = S := by simp
    refine ⟨?_, ?_, ?_, ?_⟩
    · rcases getFirst_nonsingular hl.within hb hs with ⟨hnil, hfalse⟩ | ⟨v, R, heq, htrue, -⟩
      · simp [hfalse, hempty hnil]
      · have hin : v ∈ S := (hl.mem v).1 (by simp [hvalues, heq])
        simp [htrue, Set.nonempty_of_mem hin]
    · rcases getLast_nonsingular hl.within hb hs with ⟨hnil, hfalse⟩ | ⟨L, v, heq, htrue, -⟩
      · simp [hfalse, hempty hnil]
      · have hin : v ∈ S := (hl.mem v).1 (by simp [hvalues, heq])
        simp [htrue, Set.nonempty_of_mem hin]
    · rcases getFirst_nonsingular hl.within hb hs with ⟨-, hfalse⟩ | ⟨v, R, heq, -, hat⟩
      · rw [hfalse]
        exact fun h => absurd h (by simp)
      · have hleast := @Lists.isLeast n top b [] R v S hl (fun _ => True) (hvalues.trans heq)
          (by simp) (by simp)
        rw [hat.value, ← hset]
        exact fun _ => ⟨hleast, by rw [hset]; exact hat.walkable hl⟩
    · rcases getLast_nonsingular hl.within hb hs with ⟨-, hfalse⟩ | ⟨L, v, heq, -, hat⟩
      · rw [hfalse]
        exact fun h => absurd h (by simp)
      · have hgreatest := @Lists.isGreatest n top b L [] v S hl (fun _ => True)
          (by rw [hvalues, heq, append_nil]) (by simp) (by simp)
        rw [hat.value, ← hset]
        exact fun _ => ⟨hgreatest, by rw [hset]; exact hat.walkable hl⟩

end

theorem null_locates (hb : acc.bitmap = none) (lt : LocType) (key : Nat) :
    Locates top ∅ acc lt key := by
  have hgo : (acc.locate top lt key).1 = false := by simp [Accessor.locate, hb]
  refine ⟨?_, ?_, ?_⟩
  all_goals simp [hgo]

theorem null_ends (hb : acc.bitmap = none) : Ends top ∅ acc := by
  have hfirst : (acc.getFirst top).1 = false := by simp [Accessor.getFirst, hb]
  have hlast : (acc.getLast top).1 = false := by simp [Accessor.getLast, hb]
  refine ⟨?_, ?_, ?_, ?_⟩
  all_goals simp [hfirst, hlast]

/-- An accessor finds the nearest value, the ends and the way from each of them to all others, if
and only if it is not asked for a value up to a key whose bunch is empty while there are values
before that bunch. -/
theorem navigates_iff_not_skips {w : Nat} (hn : n = 2 ^ k) (htop : top = 2 ^ w) (hk : 1 ≤ k)
    (hkw : k ≤ w) (acc : Accessor n) (S : Set Nat) (hshows : Shows acc S) (hS : ∀ v ∈ S, v < top)
    (lt : LocType) (key : Nat) (hkey : key < top) :
    (Locates top S acc lt key ∧ Ends top S acc) ↔ ¬ Skips acc S lt key := by
  cases hb : acc.bitmap with
  | none =>
    rw [Shows, hb] at hshows
    obtain rfl : S = ∅ := hshows
    refine ⟨fun _ => ?_, fun _ => ⟨null_locates hb lt key, null_ends hb⟩⟩
    rintro ⟨b, last, hsome, -⟩
    rw [hb] at hsome
    cases hsome
  | some b =>
    rw [Shows, hb] at hshows
    have hl : Lists top b S := Reach.lists hn htop hkw hshows hS
    refine ⟨fun h hskips => hl.not_locates hn hk hb hkey hskips h.1, fun h => ⟨?_, hl.ends hb⟩⟩
    cases hs : b.singular with
    | true => exact hl.locates_singular hb hs lt key
    | false => exact hl.locates_buckets hn hk hb hs hS hkey h

/-- Two values in different bunches, of 32 bit numbers in bunches of 64. -/
def fiveAndTwoHundred : SparseBitmap 64 := ((new 64).set 5).set 200

theorem reach_fiveAndTwoHundred : Reach 64 fiveAndTwoHundred {200, 5} := by
  have h : Reach 64 ((new 64).set 5) {5} := by simpa using Reach.set 5 (@Reach.new 64)
  exact Reach.set 200 h

/-- The least value from 100 on is found. -/
theorem navigates_greatEqual :
    Locates (2 ^ 32) {200, 5} (Accessor.new (some fiveAndTwoHundred)) .locGreatEqual 100 := by
  have hiff := navigates_iff_not_skips (show 64 = 2 ^ 6 by decide) (rfl : 2 ^ 32 = 2 ^ 32)
    (by decide) (by decide) (Accessor.new (some fiveAndTwoHundred)) {200, 5} reach_fiveAndTwoHundred
    (by simp) .locGreatEqual 100 (by decide)
  refine (hiff.2 ?_).1
  rintro ⟨b, last, -, -, hlt, -⟩
  rcases hlt with ⟨h, -⟩ | ⟨h, -⟩ <;> cases h

theorem lessEqual_fiveAndTwoHundred :
    ((Accessor.new (some fiveAndTwoHundred)).locate (2 ^ 32) .locLessEqual 100).1 = true ∧
    ((Accessor.new (some fiveAndTwoHundred)).locate (2 ^ 32) .locLessEqual 100).2.currentValue =
      4294967238 := by
  decide +kernel

/-- The greatest value up to 100 is 5, but the accessor shows another one. -/
theorem lessEqual_wraps : Reach 64 fiveAndTwoHundred {200, 5} ∧
    ¬ Locates (2 ^ 32) {200, 5} (Accessor.new (some fiveAndTwoHundred)) .locLessEqual 100 := by
  refine ⟨reach_fiveAndTwoHundred, fun h => ?_⟩
  obtain ⟨htrue, hvalue⟩ := lessEqual_fiveAndTwoHundred
  have hnear := (h.nearest htrue).1.1
  rw [hvalue] at hnear
  simp at hnear

end SparseBitmap

end Firebird.Common
