import Firebird.Jrd.SortOrder
import Firebird.Jrd.SortQuickSpec

/-!
# The two ways agree

While `order` works, the places of the records from the lower limit on are free or hold a record
that is still to be written and that its back pointer knows the slot of. What has been written ends
at the lower limit at the latest. A record in the way is moved to the place that becomes free, and
its slot is told.
-/
namespace Firebird.Jrd.Sort

open Lib Memory List Function

/-- The buffer is in the address space, and no slot is at the address `NULL`. -/
structure SortArea.Addressed (scb : SortArea) : Prop where
  pos : 0 < scb.memory
  lt : 4 * scb.endMemory < 2 ^ 64

/-- The place with the number `j`, counted from the one of the last record. -/
def place (scb : SortArea) (n j : Nat) : Nat := scb.endMemory - n * scb.longs + j * scb.longs

variable {scb : SortArea} {n a i j k slot base : Nat} {s t : SortBuffer} {m m' : Nat → UInt32}

theorem SortArea.Addressed.slotOf_bckptr (h : scb.Addressed) (hfits : scb.Fits n) (hk : k ≤ n) :
    scb.slotOf (scb.bckptr k) = k := by
  have hlt := h.lt
  have hroom := hfits.room
  simp only [SortArea.endMemory] at hlt
  simp only [SortArea.slotOf, SortArea.bckptr, getD_cons_zero, getD_cons_succ, UInt32.toNat_ofNat']
  omega

theorem SortArea.Addressed.bckptr_ne_null (h : scb.Addressed) (hfits : scb.Fits n) (hk : k ≤ n) :
    scb.bckptr k ≠ nullBckptr := by
  intro hnull
  have hpos := h.pos
  have hlt := h.lt
  have hroom := hfits.room
  simp only [SortArea.endMemory] at hlt
  simp only [SortArea.bckptr, nullBckptr, List.cons.injEq, ← UInt32.toNat_inj,
    UInt32.toNat_ofNat', UInt32.toNat_zero] at hnull
  omega

theorem SortArea.Addressed.bckptr_inj (h : scb.Addressed) (hfits : scb.Fits n) (hj : j ≤ n)
    (hk : k ≤ n) (heq : scb.bckptr j = scb.bckptr k) : j = k := by
  rw [← h.slotOf_bckptr hfits hj, heq, h.slotOf_bckptr hfits hk]

/-! ## Places -/

theorem place_succ (scb : SortArea) (n j : Nat) :
    place scb n (j + 1) = place scb n j + scb.longs := by
  rw [place, place, Nat.succ_mul, Nat.add_assoc]

theorem place_last (hfits : scb.Fits n) : place scb n n = scb.endMemory := by
  have hroom := hfits.room
  rw [place, SortArea.endMemory]
  omega

theorem place_add_le (scb : SortArea) (n : Nat) (hij : i < j) :
    place scb n i + scb.longs ≤ place scb n j := by
  rw [← place_succ, place, place]
  exact Nat.add_le_add_left (Nat.mul_le_mul_right _ hij) _

theorem place_le (scb : SortArea) (n : Nat) (hij : i ≤ j) : place scb n i ≤ place scb n j :=
  Nat.add_le_add_left (Nat.mul_le_mul_right _ hij) _

theorem place_inj (hfits : scb.Fits n) (heq : place scb n i = place scb n j) : i = j := by
  have hlongs := hfits.longs
  rcases Nat.lt_trichotomy i j with hlt | heq | hlt
  · have := place_add_le scb n hlt
    omega
  · exact heq
  · have := place_add_le scb n hlt
    omega

theorem place_apart {x : Nat} (hne : i ≠ j) (hx : place scb n i ≤ x)
    (hx' : x < place scb n i + scb.longs) :
    x < place scb n j ∨ place scb n j + scb.longs ≤ x := by
  rcases Nat.lt_or_gt_of_ne hne with hlt | hgt
  · have := place_add_le scb n hlt
    omega
  · have := place_add_le scb n hgt
    omega

/-- The place with the number `j` holds the record of the slot. -/
structure Holder (scb : SortArea) (n : Nat) (s : SortBuffer) (j slot : Nat) : Prop where
  pointer : s.pointers slot = place scb n j + sizeofSrBckptrInLongs
  bckptr : bckptrAt s.memory (place scb n j) = scb.bckptr slot

/-- The records of the slots from `i` on are in the places from `a` on, and in these there are no
others. The records are those of `s`. -/
structure Pending (scb : SortArea) (n : Nat) (s : SortBuffer) (i a : Nat) (t : SortBuffer) :
    Prop where
  null : ∀ k, i ≤ k → k ≤ n → (t.pointers k = 0 ↔ s.pointers k = 0)
  slots : ∀ k, i ≤ k → k ≤ n → t.pointers k ≠ 0 → ∃ j, a ≤ j ∧ j < n ∧ Holder scb n t j k
  records : ∀ k, i ≤ k → k ≤ n → t.pointers k ≠ 0 → t.record scb k = s.record scb k
  places : ∀ j, a ≤ j → j < n → bckptrAt t.memory (place scb n j) = nullBckptr ∨
    ∃ k, i ≤ k ∧ k ≤ n ∧ Holder scb n t j k

theorem Holder.place_unique (hfits : scb.Fits n) (h : Holder scb n s i k)
    (h' : Holder scb n s j k) :
    i = j := by
  refine place_inj hfits ?_
  have heq := h.pointer.symm.trans h'.pointer
  exact Nat.add_right_cancel heq

theorem Holder.slot_unique (hspace : scb.Addressed) (hfits : scb.Fits n) {k' : Nat}
    (h : Holder scb n s j k) (h' : Holder scb n s j k') (hk : k ≤ n) (hk' : k' ≤ n) : k = k' :=
  hspace.bckptr_inj hfits hk hk' (h.bckptr.symm.trans h'.bckptr)

theorem Holder.ne_null (hspace : scb.Addressed) (hfits : scb.Fits n) (h : Holder scb n s j k)
    (hk : k ≤ n) : bckptrAt s.memory (place scb n j) ≠ nullBckptr := by
  rw [h.bckptr]
  exact hspace.bckptr_ne_null hfits hk

theorem Holder.frame (h : Holder scb n s j k)
    (hpointer : t.pointers k = s.pointers k)
    (hmem : ∀ x, place scb n j ≤ x → x < place scb n j + scb.longs → t.memory x = s.memory x)
    (hfits : scb.Fits n) :
    Holder scb n t j k ∧ t.record scb k = s.record scb k := by
  have hlongs := hfits.longs
  refine ⟨⟨hpointer.trans h.pointer, ?_⟩, ?_⟩
  · rw [← h.bckptr, bckptrAt, bckptrAt]
    exact load_congr fun x hx hx' => hmem x hx (by omega)
  · rw [SortBuffer.record, SortBuffer.record, hpointer, h.pointer]
    exact load_congr fun x hx hx' => hmem x (by omega) (by omega)

theorem advance_spec (hfits : scb.Fits n) {fuel : Nat} (haj : a ≤ j) (hjn : j < n)
    (hj : bckptrAt m (place scb n j) ≠ nullBckptr) (hfuel : j < a + fuel) :
    ∃ a', a ≤ a' ∧ a' ≤ j ∧ advance scb m fuel (place scb n a) = some (place scb n a') ∧
      (∀ i, a ≤ i → i < a' → bckptrAt m (place scb n i) = nullBckptr) ∧
      bckptrAt m (place scb n a') ≠ nullBckptr := by
  induction fuel generalizing a with
  | zero => omega
  | succ fuel ih =>
    rw [advance]
    split_ifs with hnull
    · have hne : a ≠ j := by
        rintro rfl
        exact hj hnull.1
      obtain ⟨a', hle, hle', heq, hdead, hlive⟩ := ih (a := a + 1) (by omega) (by omega)
      rw [place_succ] at heq
      refine ⟨a', by omega, hle', heq, fun i hi hia => ?_, hlive⟩
      rcases Nat.lt_or_eq_of_le hi with hlt | rfl
      · exact hdead i hlt hia
      · exact hnull.1
    · refine ⟨a, le_rfl, haj, rfl, fun i hi hia => by omega, fun hdead => hnull ⟨hdead, ?_⟩⟩
      have hlongs := hfits.longs
      have hend := place_last hfits
      have hbefore := place_add_le scb n (Nat.lt_of_le_of_lt haj hjn)
      omega

theorem Pending.skip (h : Pending scb n s i a t) (hnull : t.pointers i = 0) :
    Pending scb n s (i + 1) a t where
  null k hk := h.null k (by omega)
  slots k hk := h.slots k (by omega)
  records k hk := h.records k (by omega)
  places j hj hjn := by
    refine (h.places j hj hjn).imp_right ?_
    rintro ⟨k, hk, hkn, hold⟩
    refine ⟨k, ?_, hkn, hold⟩
    have hne : k ≠ i := by
      rintro rfl
      have hpointer := hold.pointer
      rw [hnull] at hpointer
      simp [sizeofSrBckptrInLongs] at hpointer
    omega

theorem Pending.advance (h : Pending scb n s i a t) (hspace : scb.Addressed) (hfits : scb.Fits n)
    {a' : Nat} (hle : a ≤ a')
    (hdead : ∀ j, a ≤ j → j < a' → bckptrAt t.memory (place scb n j) = nullBckptr) :
    Pending scb n s i a' t where
  null := h.null
  slots k hk hkn hne := by
    obtain ⟨j, hj, hjn, hold⟩ := h.slots k hk hkn hne
    refine ⟨j, ?_, hjn, hold⟩
    by_contra hlt
    exact hold.ne_null hspace hfits hkn (hdead j hj (by omega))
  records := h.records
  places j hj := h.places j (by omega)

theorem Pending.used (h : Pending scb n s i a t) (hspace : scb.Addressed) (hfits : scb.Fits n)
    (hi : i ≤ n) (hold : Holder scb n t j i)
    (hfree : bckptrAt m' (place scb n j) = nullBckptr)
    (hm : ∀ x, place scb n a ≤ x → x < place scb n j ∨ place scb n j + scb.longs ≤ x →
      m' x = t.memory x) :
    Pending scb n s (i + 1) a { t with memory := m' } := by
  have hbeside : ∀ {j' k}, a ≤ j' → j' ≠ j → Holder scb n t j' k →
      Holder scb n { t with memory := m' } j' k ∧
        SortBuffer.record scb { t with memory := m' } k = t.record scb k := by
    intro j' k hj' hne hold'
    exact hold'.frame rfl
      (fun x hx hx' => hm x ((place_le scb n hj').trans hx) (place_apart hne hx hx')) hfits
  have hother : ∀ {j' k}, i + 1 ≤ k → k ≤ n → Holder scb n t j' k → j' ≠ j := by
    rintro j' k hk hkn hold' rfl
    have := hold.slot_unique hspace hfits hold' hi hkn
    omega
  refine ⟨fun k hk hkn => h.null k (by omega) hkn, ?_, ?_, ?_⟩
  · intro k hk hkn hne
    obtain ⟨j', hj', hjn', hold'⟩ := h.slots k (by omega) hkn hne
    exact ⟨j', hj', hjn', (hbeside hj' (hother hk hkn hold') hold').1⟩
  · intro k hk hkn hne
    obtain ⟨j', hj', hjn', hold'⟩ := h.slots k (by omega) hkn hne
    rw [(hbeside hj' (hother hk hkn hold') hold').2, h.records k (by omega) hkn hne]
  · intro j' hj' hjn'
    by_cases hjj : j' = j
    · rw [hjj]
      exact .inl hfree
    · rcases h.places j' hj' hjn' with hnull | ⟨k, hk, hkn, hold'⟩
      · left
        rw [← hnull, bckptrAt, bckptrAt]
        have hlongs := hfits.longs
        exact load_congr fun x hx hx' =>
          hm x ((place_le scb n hj').trans hx) (place_apart hjj hx (by omega))
      · refine .inr ⟨k, ?_, hkn, (hbeside hj' hjj hold').1⟩
        have hne : k ≠ i := by
          rintro rfl
          exact hjj (hold'.place_unique hfits hold)
        omega

theorem Pending.moved (h : Pending scb n s i a t) (hspace : scb.Addressed) (hfits : scb.Fits n)
    (hi : i ≤ n) (haj : a ≤ j) (hjn : j < n) (hold : Holder scb n t j i) {slot : Nat}
    (hslot : i ≤ slot) (hslotn : slot ≤ n) (hlow : Holder scb n t a slot)
    (hm : ∀ x, place scb n (a + 1) ≤ x → x < place scb n j ∨ place scb n j + scb.longs ≤ x →
      m' x = t.memory x)
    (hcopy : a < j → ∀ x, x < scb.longs → m' (place scb n j + x) = t.memory (place scb n a + x)) :
    Pending scb n s (i + 1) (a + 1)
      { t with pointers := update t.pointers slot (t.pointers i), memory := m' } := by
  generalize ht' : ({ t with
    pointers := update t.pointers slot (t.pointers i), memory := m' } : SortBuffer) = t'
  have hpointers : t'.pointers = update t.pointers slot (t.pointers i) := by rw [← ht']
  have hmemory : t'.memory = m' := by rw [← ht']
  have hlongs := hfits.longs
  -- the record from the lower limit at its new place
  have htold : a < j → Holder scb n t' j slot ∧ t'.record scb slot = t.record scb slot := by
    intro hlt
    have hpointer : t'.pointers slot = place scb n j + sizeofSrBckptrInLongs := by
      rw [hpointers, update_self, hold.pointer]
    refine ⟨⟨hpointer, ?_⟩, ?_⟩
    · rw [← hlow.bckptr, hmemory, bckptrAt, bckptrAt]
      exact load_eq fun x hx => hcopy hlt x (by omega)
    · rw [SortBuffer.record, SortBuffer.record, hpointer, hlow.pointer, hmemory]
      refine load_eq fun x hx => ?_
      rw [Nat.add_assoc, Nat.add_assoc]
      exact hcopy hlt _ (by omega)
  have hbeside : ∀ {j' k}, a + 1 ≤ j' → j' ≠ j → k ≠ slot → Holder scb n t j' k →
      Holder scb n t' j' k ∧ t'.record scb k = t.record scb k := by
    intro j' k hj' hne hk hold'
    refine hold'.frame (by rw [hpointers, update_of_ne hk]) (fun x hx hx' => ?_) hfits
    rw [hmemory]
    exact hm x ((place_le scb n hj').trans hx) (place_apart hne hx hx')
  -- the place of a slot that is left
  have hrest : ∀ k, i + 1 ≤ k → k ≤ n → t'.pointers k ≠ 0 →
      ∃ j, a + 1 ≤ j ∧ j < n ∧ Holder scb n t' j k ∧ t'.record scb k = s.record scb k := by
    intro k hk hkn hne
    by_cases hks : k = slot
    · subst hks
      have hlt : a < j := by
        refine Nat.lt_of_le_of_ne haj ?_
        rintro rfl
        have := hlow.slot_unique hspace hfits hold hkn hi
        omega
      obtain ⟨hold', hrecord⟩ := htold hlt
      have hne' : t.pointers k ≠ 0 := by
        rw [hlow.pointer]
        simp [sizeofSrBckptrInLongs]
      exact ⟨j, hlt, hjn, hold', hrecord.trans (h.records k hslot hkn hne')⟩
    · rw [hpointers, update_of_ne hks] at hne
      obtain ⟨j', hj', hjn', hold'⟩ := h.slots k (by omega) hkn hne
      have hja : j' ≠ a := by
        rintro rfl
        exact hks (hold'.slot_unique hspace hfits hlow hkn hslotn)
      have hjj : j' ≠ j := by
        rintro rfl
        have := hold'.slot_unique hspace hfits hold hkn hi
        omega
      obtain ⟨hold'', hrecord⟩ := hbeside (by omega) hjj hks hold'
      exact ⟨j', by omega, hjn', hold'', hrecord.trans (h.records k (by omega) hkn hne)⟩
  refine ⟨?_, ?_, ?_, ?_⟩
  · intro k hk hkn
    by_cases hks : k = slot
    · subst hks
      rw [hpointers, update_self, ← h.null k hslot hkn, hold.pointer, hlow.pointer]
      simp [sizeofSrBckptrInLongs]
    · rw [hpointers, update_of_ne hks, h.null k (by omega) hkn]
  · intro k hk hkn hne
    obtain ⟨j', hj', hjn', hold', -⟩ := hrest k hk hkn hne
    exact ⟨j', hj', hjn', hold'⟩
  · intro k hk hkn hne
    obtain ⟨j', -, -, -, hrecord⟩ := hrest k hk hkn hne
    exact hrecord
  · intro j' hj' hjn'
    by_cases hjj : j' = j
    · subst hjj
      have hne : slot ≠ i := by
        rintro rfl
        have := hlow.place_unique hfits hold
        omega
      exact .inr ⟨slot, by omega, hslotn, (htold hj').1⟩
    · rcases h.places j' (by omega) hjn' with hnull | ⟨k, hk, hkn, hold'⟩
      · left
        rw [← hnull, hmemory, bckptrAt, bckptrAt]
        exact load_congr fun x hx hx' =>
          hm x ((place_le scb n hj').trans hx) (place_apart hjj hx (by omega))
      · have hks : k ≠ slot := by
          rintro rfl
          have := hold'.place_unique hfits hlow
          omega
        have hki : k ≠ i := by
          rintro rfl
          exact hjj (hold'.place_unique hfits hold)
        exact .inr ⟨k, by omega, hkn, (hbeside hj' hjj hks hold').1⟩

structure Written (scb : SortArea) (n : Nat) (out : List UInt32) (a : Nat) (o : OrderState) :
    Prop where
  lower : o.lowerLimit = place scb n a
  output : o.output = place scb n 0 + out.length
  behind : o.output ≤ o.lowerLimit
  done : load o.buffer.memory (place scb n 0) out.length = out

variable {o : OrderState} {out w : List UInt32}

theorem load_store_append (hdone : load m base out.length = out)
    (hm : ∀ x, x < base + out.length → m' x = m x) :
    load (store m' (base + out.length) w) base (out ++ w).length = out ++ w := by
  rw [length_append, load_add, load_store_self]
  congr 1
  conv_rhs => rw [← hdone]
  exact load_congr fun x _ hx => (store_of_lt hx).trans (hm x hx)

theorem length_record (scb : SortArea) (s : SortBuffer) (k : Nat) :
    (s.record scb k).length = scb.longs - sizeofSrBckptrInLongs := length_load

theorem orderRecord_spec (hspace : scb.Addressed) (hfits : scb.Fits n) (hi : i ≤ n)
    (hw : Written scb n out a o) (hp : Pending scb n s i a o.buffer)
    (hne : o.buffer.pointers i ≠ 0) :
    ∃ o' a', orderRecord scb (o.buffer.pointers i) o = some o' ∧
      Written scb n (out ++ s.record scb i) a' o' ∧ Pending scb n s (i + 1) a' o'.buffer := by
  obtain ⟨j, haj, hjn, hold⟩ := hp.slots i le_rfl hi hne
  have hlongs := hfits.longs
  have hroom := hfits.room
  obtain ⟨a', haa, haj', hadvance, hdead, hlive⟩ := advance_spec hfits haj hjn
    (hold.ne_null hspace hfits hi) (by omega : j < a + (scb.size + 1))
  have hp' := hp.advance hspace hfits haa hdead
  obtain ⟨slot, hslot, hslotn, hlow⟩ := (hp'.places a' le_rfl (by omega)).resolve_left hlive
  have hbase := place_le scb n haa
  have hplace := place_le scb n haj'
  have hsucc := place_succ scb n a'
  have hbehind := hw.behind
  rw [hw.lower, hw.output] at hbehind
  have hrecord : load o.buffer.memory (place scb n j + sizeofSrBckptrInLongs)
      (scb.longs - sizeofSrBckptrInLongs) = s.record scb i := by
    rw [← hp.records i le_rfl hi hne, SortBuffer.record, hold.pointer]
  have hlen := length_record scb s i
  simp only [sizeofSrBckptrInLongs] at hlongs hlen hrecord
  simp only [orderRecord, hw.lower, hadvance, Option.bind_eq_bind, Option.bind_some, hold.pointer,
    hw.output, sizeofSrBckptrInLongs, Nat.add_sub_cancel]
  rw [if_neg (by omega)]
  split_ifs with hgap
  · -- there is room before the lower limit
    have hkey : load (store o.buffer.memory (place scb n j) nullBckptr) (place scb n j + 2)
        (scb.longs - 2) = s.record scb i := by
      rw [← hrecord]
      exact load_congr fun x hx _ => store_of_le hx
    refine ⟨_, a', rfl, ⟨rfl, ?_, ?_, ?_⟩, ?_⟩
    · rw [length_append, hlen, Nat.add_assoc]
    · simp only
      omega
    · simp only [move, hkey]
      exact load_store_append hw.done fun x hx => store_of_lt (by omega)
    · simp only [move, hkey]
      refine hp'.used hspace hfits hi hold ?_ fun x hx hx' => ?_
      · have hkeep : ∀ x, place scb n j ≤ x →
            store (store o.buffer.memory (place scb n j) nullBckptr)
              (place scb n 0 + out.length) (s.record scb i) x =
            store o.buffer.memory (place scb n j) nullBckptr x := fun x hx =>
          store_of_le (by omega)
        exact (load_congr fun x hx _ => hkeep x hx).trans (load_store_self _ _ nullBckptr)
      · rw [store_of_le (by omega)]
        refine store_frame (hx'.imp_right fun h => ?_)
        simp only [nullBckptr, length_cons, length_nil]
        omega
  · -- the record at the lower limit is in the way
    have hbck : scb.slotOf (bckptrAt o.buffer.memory (place scb n a')) = slot := by
      rw [hlow.bckptr, hspace.slotOf_bckptr hfits hslotn]
    rw [hbck, hrecord]
    refine ⟨_, a' + 1, rfl, ⟨?_, ?_, ?_, ?_⟩, ?_⟩
    · exact hsucc.symm
    · rw [length_append, hlen, Nat.add_assoc]
    · simp only
      omega
    · refine load_store_append hw.done fun x hx => store_of_lt (by omega)
    · have hpointer : place scb n j + 2 = o.buffer.pointers i := hold.pointer.symm
      rw [hpointer]
      refine hp'.moved hspace hfits hi haj' hjn hold hslot hslotn hlow ?_ ?_
      · intro x hx hx'
        rw [store_of_le (by omega), move]
        exact store_frame (by rwa [length_load])
      · intro hlt x hx
        have hnext := place_add_le scb n hlt
        rw [store_of_le (by omega), move_add hx]

theorem orderLoop_spec (hspace : scb.Addressed) (hfits : scb.Fits n) {count : Nat}
    (hi : i + count = n + 1) (hw : Written scb n out a o) (hp : Pending scb n s i a o.buffer) :
    ∃ o' a', orderLoop scb count i o = some o' ∧
      Written scb n (out ++ copyRecords scb s count i) a' o' := by
  induction count generalizing i out a o with
  | zero => exact ⟨o, a, rfl, by rwa [copyRecords, append_nil]⟩
  | succ count ih =>
    have hnull := hp.null i le_rfl (by omega)
    rw [orderLoop, copyRecords]
    by_cases hptr : o.buffer.pointers i = 0
    · rw [if_pos hptr, if_pos (hnull.1 hptr)]
      exact ih (by omega) hw (hp.skip hptr)
    · rw [if_neg hptr, if_neg (fun h => hptr (hnull.2 h))]
      obtain ⟨o₁, a₁, heq, hw₁, hp₁⟩ := orderRecord_spec hspace hfits (by omega) hw hp hptr
      obtain ⟨o', a', heq', hw'⟩ := ih (by omega) hw₁ hp₁
      rw [Option.bind_eq_bind, heq, Option.bind_some]
      exact ⟨o', a', heq', by rwa [append_assoc] at hw'⟩

theorem length_copyRecords (scb : SortArea) (s : SortBuffer) (count ptr : Nat) :
    (copyRecords scb s count ptr).length =
      runRecords s count ptr * (scb.longs - sizeofSrBckptrInLongs) := by
  induction count generalizing ptr with
  | zero => rw [copyRecords, runRecords, length_nil, Nat.zero_mul]
  | succ count ih =>
    rw [copyRecords, runRecords]
    split_ifs
    · exact ih (ptr + 1)
    · rw [length_append, length_record, ih, Nat.succ_mul, Nat.add_comm]

/-- A buffer as `sort` leaves it: each slot points to a record of its own, the back pointer of which
points to the slot, or is null, and the other records have null back pointers. -/
structure Consistent (scb : SortArea) (n : Nat) (s : SortBuffer) : Prop where
  next : s.nextPointer = n + 1
  last : s.lastRecord = place scb n 0
  slots : ∀ k, 1 ≤ k → k ≤ n → s.pointers k ≠ 0 → ∃ j, j < n ∧ Holder scb n s j k
  places : ∀ j, j < n → bckptrAt s.memory (place scb n j) = nullBckptr ∨
    ∃ k, 1 ≤ k ∧ k ≤ n ∧ Holder scb n s j k

theorem keyAddress_eq (hfits : scb.Fits n) (hk : k ≤ n) :
    scb.keyAddress k = place scb n (n - k) + sizeofSrBckptrInLongs := by
  have hroom := hfits.room
  have hle : k * scb.longs ≤ n * scb.longs := Nat.mul_le_mul_right _ hk
  rw [SortArea.keyAddress, place, Nat.sub_mul, SortArea.endMemory]
  omega

theorem Laid.consistent (h : Laid scb n s) (hfits : scb.Fits n) (hnext : s.nextPointer = n + 1)
    (hlast : s.lastRecord = Sort.place scb n 0) : Consistent scb n s where
  next := hnext
  last := hlast
  slots k hk hkn _ := by
    obtain ⟨i, hi, hin, heq⟩ := h.exists_keyAddress hk hkn
    rw [keyAddress_eq hfits hin] at heq
    refine ⟨n - i, by omega, heq, ?_⟩
    have hbckptr := h.bckptr k hk hkn
    rwa [heq, Nat.add_sub_cancel] at hbckptr
  places j hj := by
    obtain ⟨k, hk, hkn, heq⟩ := h.exists_slot (k := n - j) (by omega) (by omega)
    rw [keyAddress_eq hfits (by omega), Nat.sub_sub_self hj.le] at heq
    refine .inr ⟨k, hk, hkn, heq, ?_⟩
    have hbckptr := h.bckptr k hk hkn
    rwa [heq, Nat.add_sub_cancel] at hbckptr

theorem sort_consistent (hfits : scb.Fits n) (h : Filled scb n s) :
    ∃ t, sort scb s = some t ∧ Consistent scb n t := by
  obtain ⟨t, hsort, hmoved, -⟩ := sort_spec hfits h
  refine ⟨t, hsort, hmoved.laid.consistent hfits (hmoved.next.trans h.next) ?_⟩
  rw [hmoved.last, h.last, place, Nat.zero_mul, Nat.add_zero]

/-- What `sort` does to a record that is a duplicate. -/
def eliminate (slot : Nat) (s : SortBuffer) : SortBuffer :=
  { s with
    pointers := Function.update s.pointers slot 0
    memory := store s.memory (s.pointers slot - sizeofSrBckptrInLongs) nullBckptr }

theorem eliminate_pointers (hk : k ≠ slot) : (eliminate slot s).pointers k = s.pointers k :=
  update_of_ne hk _ _

theorem Consistent.eliminated (h : Consistent scb n s) (hspace : scb.Addressed)
    (hfits : scb.Fits n) (hslot : 1 ≤ slot) (hslotn : slot ≤ n) (hne : s.pointers slot ≠ 0) :
    Consistent scb n (eliminate slot s) ∧
      ∀ k, 1 ≤ k → k ≤ n → k ≠ slot → s.pointers k ≠ 0 →
        (eliminate slot s).record scb k = s.record scb k := by
  obtain ⟨j, hj, hold⟩ := h.slots slot hslot hslotn hne
  have hmemory : (eliminate slot s).memory = store s.memory (place scb n j) nullBckptr := by
    rw [eliminate, hold.pointer, Nat.add_sub_cancel]
  have hlongs := hfits.longs
  have hframe : ∀ {j' x}, j' ≠ j → place scb n j' ≤ x → x < place scb n j' + scb.longs →
      (eliminate slot s).memory x = s.memory x := by
    intro j' x hjj hx hx'
    rw [hmemory]
    have hapart := place_apart hjj hx hx'
    refine store_frame (hapart.imp_right fun hle => ?_)
    simp only [nullBckptr, length_cons, length_nil]
    simp only [sizeofSrBckptrInLongs] at hlongs
    omega
  have hkeep : ∀ {j' k}, j' ≠ j → k ≠ slot → Holder scb n s j' k →
      Holder scb n (eliminate slot s) j' k ∧
        (eliminate slot s).record scb k = s.record scb k := fun hjj hk hold' =>
    hold'.frame (eliminate_pointers hk) (fun x hx hx' => hframe hjj hx hx') hfits
  have hslots : ∀ k, 1 ≤ k → k ≤ n → k ≠ slot → s.pointers k ≠ 0 → ∃ j, j < n ∧
      Holder scb n (eliminate slot s) j k ∧
        (eliminate slot s).record scb k = s.record scb k := by
    intro k hk hkn hks hne'
    obtain ⟨j', hj', hold'⟩ := h.slots k hk hkn hne'
    have hjj : j' ≠ j := by
      rintro rfl
      exact hks (hold'.slot_unique hspace hfits hold hkn hslotn)
    exact ⟨j', hj', hkeep hjj hks hold'⟩
  refine ⟨⟨h.next, h.last, ?_, ?_⟩, ?_⟩
  · intro k hk hkn hne'
    have hks : k ≠ slot := by
      rintro rfl
      exact hne' (update_self _ _ _)
    rw [eliminate_pointers hks] at hne'
    obtain ⟨j', hj', hold', -⟩ := hslots k hk hkn hks hne'
    exact ⟨j', hj', hold'⟩
  · intro j' hj'
    by_cases hjj : j' = j
    · subst hjj
      left
      rw [hmemory]
      exact load_store_self _ _ nullBckptr
    · rcases h.places j' hj' with hnull | ⟨k, hk, hkn, hold'⟩
      · left
        rw [← hnull, bckptrAt, bckptrAt]
        exact load_congr fun x hx hx' => hframe hjj hx (by omega)
      · have hks : k ≠ slot := by
          rintro rfl
          exact hjj (hold'.place_unique hfits hold)
        exact .inr ⟨k, hk, hkn, (hkeep hjj hks hold').1⟩
  · intro k hk hkn hks hne'
    obtain ⟨-, -, -, hrecord⟩ := hslots k hk hkn hks hne'
    exact hrecord

theorem Consistent.pending (h : Consistent scb n s) : Pending scb n s 1 0 s where
  null _ _ _ := Iff.rfl
  slots k hk hkn hne := by
    obtain ⟨j, hj, hold⟩ := h.slots k hk hkn hne
    exact ⟨j, Nat.zero_le j, hj, hold⟩
  records _ _ _ _ := rfl
  places j _ hj := h.places j hj

/-- What `order` leaves from the last record on, for the size of the run, is what the other branch
copies. -/
theorem order_agrees (hspace : scb.Addressed) (hfits : scb.Fits n) (h : Consistent scb n s) :
    ∃ t, order scb s = some (t, runRecords s n 1) ∧
      load t.memory s.lastRecord (runRecords s n 1 * (scb.longs - sizeofSrBckptrInLongs)) =
        copyRecords scb s n 1 := by
  have hstart : Written scb n [] 0 ⟨s, place scb n 0, place scb n 0⟩ := ⟨rfl, rfl, le_rfl, rfl⟩
  obtain ⟨o, a, hloop, hw⟩ :=
    orderLoop_spec hspace hfits (Nat.add_comm 1 n) hstart h.pending
  rw [nil_append] at hw
  have hlen := length_copyRecords scb s n 1
  refine ⟨o.buffer, ?_, ?_⟩
  · have hpos := Nat.sub_pos_of_lt hfits.longs
    simp [order, h.next, hloop, hw.output, h.last, hlen, Nat.mul_div_cancel _ hpos]
  · rw [← hlen, h.last]
    exact hw.done

/-- Three records, the middle one of them eliminated. -/
theorem order_agrees_three :
    ∃ s t, sort smallArea (fill smallArea ⟨fun _ => 0, fun _ => 0xFFFFFFFF, 0, 0⟩
        [[3, 1], [1, 5], [3, 1]]) = some s ∧
      order smallArea (eliminate 2 s) = some (t, runRecords (eliminate 2 s) 3 1) ∧
      load t.memory (eliminate 2 s).lastRecord (runRecords (eliminate 2 s) 3 1 * 2) =
        copyRecords smallArea (eliminate 2 s) 3 1 := by
  have hfits : smallArea.Fits 3 := ⟨by decide, by decide, by decide, by decide⟩
  have hspace : smallArea.Addressed := ⟨by decide, by decide⟩
  have hfilled : Filled smallArea 3 (fill smallArea ⟨fun _ => 0, fun _ => 0xFFFFFFFF, 0, 0⟩
      [[3, 1], [1, 5], [3, 1]]) :=
    (@fill_filled smallArea ⟨fun _ => 0, fun _ => 0xFFFFFFFF, 0, 0⟩ 3
      [[3, 1], [1, 5], [3, 1]] hfits (by decide) rfl (by decide)).1
  obtain ⟨s, hsort, hconsistent⟩ := sort_consistent hfits hfilled
  have hne : s.pointers 2 ≠ 0 := by
    have hslots : ∀ s ∈ sort smallArea (fill smallArea ⟨fun _ => 0, fun _ => 0xFFFFFFFF, 0, 0⟩
        [[3, 1], [1, 5], [3, 1]]), s.pointers 2 ≠ 0 := by decide +kernel
    exact hslots s hsort
  obtain ⟨heliminated, -⟩ :=
    hconsistent.eliminated hspace hfits (by decide) (by decide) hne
  obtain ⟨t, horder, hload⟩ := order_agrees hspace hfits heliminated
  exact ⟨s, t, hsort, horder, hload⟩

end Firebird.Jrd.Sort
