import Firebird.Jrd.SortKeyArea
import Mathlib.Data.List.Pairwise

/-!
# Records with mangled keys

The keys of a record are mangled and restored each in its own places. So both directions restore
them, and the longwords of the records are in the order of the keys, unless one is a `SKD_quad`.
-/
namespace Firebird.Jrd.Sort

open Lib Memory Words

variable {key : SortKeyDef} {keys : List SortKeyDef} {start stop : Nat}
variable {record other : Nat → UInt8}

theorem length_area (key : SortKeyDef) (record : Nat → UInt8) :
    (key.area record).length = key.size := length_load

def SortKeyDef.stashRecord (key : SortKeyDef) (record : Nat → UInt8) : Nat → UInt8 :=
  if key.dtype = .varying ∨ key.dtype = .cstring then
    store record key.varyOffset (ushortBytes (key.stringLength (key.area record)))
  else record

theorem stash_eq (record : Nat → UInt8) (key : SortKeyDef) :
    key.stash false record (key.area record) =
      (key.stashRecord record, key.stashed (key.area record)) := by
  obtain ⟨dtype, descending, binary, length, offset, varyOffset⟩ := key
  cases dtype <;> rfl

theorem diddleOne_true (record : Nat → UInt8) (key : SortKeyDef) :
    diddleOne false true record key =
      store (key.stashRecord record) key.offset (key.mangled (key.area record)) := by
  have h : diddleOne false true record key =
      store (key.stash false record (key.area record)).1 key.offset (complemented
        (key.dtype.mangle true key.descending (key.stash false record (key.area record)).2)) := rfl
  rw [h, stash_eq]
  rfl

theorem diddleOne_false (sorted : Bool) (record : Nat → UInt8) (key : SortKeyDef) :
    diddleOne sorted false record key = store record key.offset (key.flatter record
      (complemented (key.dtype.mangle false key.descending (key.area record)))) := rfl

theorem length_flatter {p : List UInt8} (hem : key.Emitted) (hp : p.length = key.size) :
    (key.flatter record p).length = key.size := by
  have hvary := (SortKeyDef.size_of_emitted hem).1
  rw [SortKeyDef.flatter]
  split
  · rename_i hd
    have htwo := hvary hd
    simp only [List.length_append, length_load, List.length_drop]
    omega
  · rw [List.length_set, hp]
  · exact hp

theorem area_congr (h : Set.EqOn record other key.places) : key.area record = key.area other :=
  load_congr fun _ hi hlt => h (.inl ⟨hi, hlt⟩)

theorem stash_congr (hd : key.dtype = .varying ∨ key.dtype = .cstring)
    (h : Set.EqOn record other key.places) :
    load record key.varyOffset 2 = load other key.varyOffset 2 :=
  load_congr fun _ hi hlt => h (.inr ⟨hd, hi, hlt⟩)

theorem store_congr {p i : Nat} {w : List UInt8} (h : record i = other i) :
    store record p w i = store other p w i := by
  simp [store, h]

theorem confined_true (hem : key.Emitted) :
    Footprint.Confined (diddleOne false true · key) key.places := by
  have hlen : ∀ m, (key.mangled (key.area m)).length = key.size := fun m =>
    SortKeyDef.length_mangled hem (length_area key m)
  refine ⟨fun m i hi => ?_, fun m m' h i hi => ?_⟩
  · have hout : i < key.offset ∨ key.offset + key.size ≤ i := by
      by_contra hin
      exact hi (.inl (by omega))
    simp only [diddleOne_true]
    rw [store_frame (by rw [hlen]; exact hout), SortKeyDef.stashRecord]
    split_ifs with hd
    · have hslot : i < key.varyOffset ∨ key.varyOffset + 2 ≤ i := by
        by_contra hin
        exact hi (.inr ⟨hd, by omega⟩)
      exact store_frame hslot
    · rfl
  · simp only [diddleOne_true, SortKeyDef.stashRecord, area_congr h]
    refine store_congr ?_
    split_ifs
    · exact store_congr (h hi)
    · exact h hi

theorem confined_false (sorted : Bool) (hem : key.Emitted) :
    Footprint.Confined (diddleOne sorted false · key) key.places := by
  have hlen : ∀ m, (key.flatter m (complemented
      (key.dtype.mangle false key.descending (key.area m)))).length = key.size := by
    intro m
    refine length_flatter hem ?_
    rw [length_complemented, SkdType.length_mangle, length_area]
  refine ⟨fun m i hi => ?_, fun m m' h i hi => ?_⟩
  · have hout : i < key.offset ∨ key.offset + key.size ≤ i := by
      by_contra hin
      exact hi (.inl (by omega))
    simp only [diddleOne_false]
    exact store_frame (by rw [hlen]; exact hout)
  · have hflat : ∀ p, key.flatter m p = key.flatter m' p := by
      intro p
      simp only [SortKeyDef.flatter, ushortAt]
      split
      · rename_i hd
        rw [stash_congr (.inl hd) h]
      · rename_i hd
        rw [stash_congr (.inr hd) h]
      · rfl
    simp only [diddleOne_false, area_congr h, hflat]
    exact store_congr (h hi)

theorem Follow.le (h : Follow start keys stop) : start ≤ stop := by
  induction keys generalizing start with
  | nil => exact Nat.le_of_eq h
  | cons key keys ih =>
    have hrest := ih h.2
    omega

theorem Follow.mem (h : Follow start keys stop) (hkey : key ∈ keys) :
    start ≤ key.offset ∧ key.offset + key.size ≤ stop := by
  induction keys generalizing start with
  | nil => cases hkey
  | cons first keys ih =>
    obtain ⟨hoff, hrest⟩ := h
    rcases List.mem_cons.1 hkey with rfl | hkey
    · have hle := hrest.le
      omega
    · have hmem := ih hrest hkey
      omega

theorem Follow.pairwise (h : Follow start keys stop) :
    keys.Pairwise fun key other => key.offset + key.size ≤ other.offset := by
  induction keys generalizing start with
  | nil => exact List.Pairwise.nil
  | cons key keys ih =>
    obtain ⟨hoff, hrest⟩ := h
    refine List.pairwise_cons.2 ⟨fun other hother => ?_, ih hrest⟩
    have hmem := hrest.mem hother
    omega

theorem Follow.load_eq (h : Follow start keys stop) (record : Nat → UInt8) :
    load record start (stop - start) = keys.flatMap (·.area record) := by
  induction keys generalizing start with
  | nil =>
    obtain rfl : start = stop := h
    rw [Nat.sub_self]
    rfl
  | cons key keys ih =>
    obtain ⟨rfl, hrest⟩ := h
    have hle := hrest.le
    have hsplit : stop - key.offset = key.size + (stop - (key.offset + key.size)) := by omega
    rw [List.flatMap_cons, ← ih hrest, hsplit, load_add]
    rfl

theorem Described.disjoint (h : Described keys stop) :
    keys.Pairwise fun key other => Disjoint key.places other.places := by
  refine (h.follow.pairwise.and h.apart).imp_of_mem ?_
  rintro key other hkey hother ⟨hfollow, hapart⟩
  have ho := h.follow.mem hother
  refine Set.disjoint_left.2 fun i hi hi' => ?_
  rcases hi with hi | ⟨hd, hi⟩
  · rcases hi' with hi' | ⟨hd', hi'⟩
    · omega
    · have hbehind := h.behind other hother hd'
      omega
  · have hbehind := h.behind key hkey hd
    rcases hi' with hi' | ⟨hd', hi'⟩
    · omega
    · rcases hapart hd hd' with hlt | hlt <;> omega

theorem Described.eqOn_true (h : Described keys stop) (hkey : key ∈ keys) (record : Nat → UInt8) :
    Set.EqOn (diddleKey false true keys record) (diddleOne false true record key) key.places :=
  Footprint.foldl_eqOn (fun key hkey => confined_true (h.emitted key hkey)) h.disjoint hkey record

theorem Described.eqOn_false (h : Described keys stop) (hkey : key ∈ keys)
    (record : Nat → UInt8) :
    Set.EqOn (diddleKey false false keys record) (diddleOne false false record key) key.places :=
  Footprint.foldl_eqOn (fun key hkey => confined_false false (h.emitted key hkey)) h.disjoint hkey
    record

theorem area_diddleOne (hem : key.Emitted) (record : Nat → UInt8) :
    key.area (diddleOne false true record key) = key.mangled (key.area record) := by
  have hlen := SortKeyDef.length_mangled hem (length_area key record)
  rw [diddleOne_true, SortKeyDef.area]
  conv_lhs => rw [← hlen]
  exact load_store_self _ _ _

theorem Described.area_eq (h : Described keys stop) (hkey : key ∈ keys) (record : Nat → UInt8) :
    key.area (diddleKey false true keys record) = key.mangled (key.area record) := by
  rw [area_congr (h.eqOn_true hkey record), area_diddleOne (h.emitted key hkey)]

theorem Described.stash_eq (h : Described keys stop) (hkey : key ∈ keys) (record : Nat → UInt8)
    (hd : key.dtype = .varying ∨ key.dtype = .cstring) :
    load (diddleKey false true keys record) key.varyOffset 2 =
      ushortBytes (key.stringLength (key.area record)) := by
  have hem := h.emitted key hkey
  have hplace := h.follow.mem hkey
  have hbehind := h.behind key hkey hd
  have hlen := SortKeyDef.length_mangled hem (length_area key record)
  rw [stash_congr hd (h.eqOn_true hkey record), diddleOne_true, SortKeyDef.stashRecord, if_pos hd]
  exact (holds_store.store (.inl (by rw [hlen]; omega))).load_eq

theorem Described.area_back (h : Described keys stop) (hkey : key ∈ keys) (record : Nat → UInt8) :
    key.area (diddleKey false false keys (diddleKey false true keys record)) =
      key.flatter (diddleKey false true keys record) (key.stashed (key.area record)) := by
  have hem := h.emitted key hkey
  have harea : (key.area record).length = key.size := length_area key record
  have hunmangle := SortKeyDef.unmangle hem harea
  have hlen : (key.flatter (diddleKey false true keys record)
      (key.stashed (key.area record))).length = key.size :=
    length_flatter hem (SortKeyDef.length_stashed hem harea)
  rw [area_congr (h.eqOn_false hkey _), diddleOne_false, h.area_eq hkey, hunmangle,
    SortKeyDef.area]
  conv_lhs => rw [← hlen]
  exact load_store_self _ _ _

theorem Described.restores (h : Described keys stop) : Restores keys := by
  intro record hrecord key hkey
  have hplace := h.follow.mem hkey
  have hle := key.length_le_size
  have hbound := h.bound
  rw [h.area_back hkey]
  exact SortKeyDef.kept_flatter (length_area key record) (hrecord key hkey) (by omega)
    (h.stash_eq hkey record)

theorem stashRecord_apply {i : Nat} (hd : key.dtype = .varying ∨ key.dtype = .cstring)
    (hi : key.varyOffset ≤ i ∧ i < key.varyOffset + 2)
    (hlen : key.stringLength (key.area record) = key.stringLength (key.area other)) :
    key.stashRecord record i = key.stashRecord other i := by
  obtain ⟨j, rfl⟩ := Nat.exists_eq_add_of_le hi.1
  have hj : j < (ushortBytes (key.stringLength (key.area other))).length := by
    have htwo : (ushortBytes (key.stringLength (key.area other))).length = 2 := rfl
    omega
  rw [SortKeyDef.stashRecord, SortKeyDef.stashRecord, if_pos hd, if_pos hd, hlen, store_add hj,
    store_add hj]

/-- A record in its natural form, as `scb_dup_callback` gets it, is mangled to what it was. -/
theorem Described.mangled_again (h : Described keys stop) (hrecord : RecordOf keys record) :
    diddleKey false true keys (diddleKey false false keys (diddleKey false true keys record)) =
      diddleKey false true keys record := by
  set natural := diddleKey false false keys (diddleKey false true keys record) with hnatural
  have hkept := h.restores record hrecord
  rw [← hnatural] at hkept
  have hstashed : ∀ key ∈ keys, key.stashed (key.area natural) = key.stashed (key.area record) := by
    intro key hkey
    by_cases hd : key.dtype = .varying ∨ key.dtype = .cstring
    · rw [← (SortKeyDef.stashed_kept hd).1, hkept key hkey, (SortKeyDef.stashed_kept hd).1]
    · have hplain := fun p =>
        @SortKeyDef.stashed_flatter p key hd (diddleKey false true keys record)
      rw [(hplain _).1, hnatural, h.area_back hkey, (hplain _).2]
  funext i
  by_cases hi : ∃ key ∈ keys, i ∈ key.places
  · obtain ⟨key, hkey, hplace⟩ := hi
    have hlen := SortKeyDef.length_mangled (h.emitted key hkey) (length_area key record)
    rw [h.eqOn_true hkey _ hplace, h.eqOn_true hkey _ hplace, diddleOne_true, diddleOne_true,
      SortKeyDef.mangled, hstashed key hkey, ← SortKeyDef.mangled]
    by_cases hin : key.offset ≤ i ∧ i < key.offset + key.size
    · obtain ⟨j, rfl⟩ := Nat.exists_eq_add_of_le hin.1
      rw [store_add (by omega), store_add (by omega)]
    · obtain ⟨hd, hslot⟩ := hplace.resolve_left hin
      refine store_congr (stashRecord_apply hd hslot ?_)
      rw [← (SortKeyDef.stashed_kept hd).2, hkept key hkey, (SortKeyDef.stashed_kept hd).2]
  · have hout : ∀ key ∈ keys, Disjoint key.places {i} := fun key hkey =>
      Set.disjoint_singleton_right.2 fun hplace => hi ⟨key, hkey, hplace⟩
    have htrue := Footprint.foldl_frame (fun key hkey => confined_true (h.emitted key hkey)) hout
    have hfalse := Footprint.foldl_frame
      (fun key hkey => confined_false false (h.emitted key hkey)) hout
    exact (htrue natural rfl).trans (hfalse (diddleKey false true keys record) rfl)

def longsOrder (keys : List SortKeyDef) (record other : Nat → UInt8) : Ordering :=
  keys.foldr (fun key o =>
    (compareLongs (key.mangled (key.area record)) (key.mangled (key.area other))).then o) .eq

theorem compareLongs_flatMap (f g : SortKeyDef → List UInt8)
    (hf : ∀ key ∈ keys, (f key).length = key.size) (hg : ∀ key ∈ keys, (g key).length = key.size) :
    compareLongs (keys.flatMap f) (keys.flatMap g) =
      keys.foldr (fun key o => (compareLongs (f key) (g key)).then o) .eq := by
  induction keys with
  | nil => rfl
  | cons key keys ih =>
    have hfk := hf key List.mem_cons_self
    have hgk := hg key List.mem_cons_self
    rw [List.flatMap_cons, List.flatMap_cons, List.foldr_cons,
      compareLongs_append (by rw [hfk]; exact key.four_dvd_size) (by rw [hfk, hgk]),
      ih (fun k hk => hf k (List.mem_cons_of_mem _ hk))
        (fun k hk => hg k (List.mem_cons_of_mem _ hk))]

theorem Described.compareLongs_eq (h : Described keys stop) (record other : Nat → UInt8) :
    compareLongs (load (diddleKey false true keys record) 0 stop)
      (load (diddleKey false true keys other) 0 stop) = longsOrder keys record other := by
  have hload : ∀ m, load (diddleKey false true keys m) 0 stop =
      keys.flatMap fun key => key.mangled (key.area m) := by
    intro m
    rw [← Nat.sub_zero stop, h.follow.load_eq]
    exact List.flatMap_congr fun key hkey => h.area_eq hkey m
  rw [hload, hload, compareLongs_flatMap, longsOrder]
  · intro key hkey
    exact SortKeyDef.length_mangled (h.emitted key hkey) (length_area key record)
  · intro key hkey
    exact SortKeyDef.length_mangled (h.emitted key hkey) (length_area key other)

theorem Described.sorts (h : Described keys stop) (hquad : ∀ key ∈ keys, key.dtype ≠ .quad) :
    Sorts keys stop := by
  intro record other hrecord hother
  rw [h.compareLongs_eq, longsOrder, orderKeys]
  have hemitted := h.emitted
  clear h
  induction keys with
  | nil => rfl
  | cons key keys ih =>
    have hmem : key ∈ key :: keys := List.mem_cons_self
    rw [List.foldr_cons, List.foldr_cons, SortKeyDef.compareLongs_mangled (hemitted key hmem)
      (hquad key hmem) (length_area key record) (length_area key other) (hrecord key hmem)
      (hother key hmem)]
    congr 1
    exact ih (fun k hk => hquad k (List.mem_cons_of_mem _ hk))
      (fun k hk => hrecord k (List.mem_cons_of_mem _ hk))
      (fun k hk => hother k (List.mem_cons_of_mem _ hk))
      (fun k hk => hemitted k (List.mem_cons_of_mem _ hk))

theorem natural_self (key : SortKeyDef) (p : List UInt8) : key.natural p p = .eq := by
  have hpad : ∀ (pad : UInt8) (q : List UInt8), Padded.padCompare pad q q = .eq := by
    intro pad q
    rw [Padded.padCompare_eq_compareLex rfl, compareLex_self]
  cases hd : key.dtype <;> simp only [SortKeyDef.natural, hd, hpad, compareLex_self,
    Std.ReflOrd.compare_self, Ordering.then]

theorem order_self (key : SortKeyDef) (p : List UInt8) : key.order p p = .eq := by
  rw [SortKeyDef.order, natural_self]
  cases key.descending <;> rfl

theorem compareLongs_self (p : List UInt8) : compareLongs p p = .eq := by
  rw [compareLongs]
  induction longs p with
  | nil => exact List.compareLex_nil_nil
  | cons x l ih =>
    rw [List.compareLex_cons_cons, ih, Std.ReflOrd.compare_self]
    rfl

theorem foldr_then (f : SortKeyDef → Ordering) (h : ∀ k ∈ keys, k ≠ key → f k = .eq)
    (hkey : key ∈ keys) : keys.foldr (fun k o => (f k).then o) .eq = f key := by
  have hall : ∀ l : List SortKeyDef, (∀ k ∈ l, k ≠ key → f k = .eq) →
      l.foldr (fun k o => (f k).then o) .eq = if key ∈ l then f key else .eq := by
    intro l hl
    induction l with
    | nil => rfl
    | cons k l ih =>
      rw [List.foldr_cons, ih fun x hx => hl x (List.mem_cons_of_mem _ hx)]
      by_cases hk : k = key
      · subst hk
        rw [if_pos List.mem_cons_self]
        split <;> cases f k <;> rfl
      · rw [hl k List.mem_cons_self hk]
        simp only [List.mem_cons, Ne.symm hk, false_or]
        rfl
  rw [hall keys h, if_pos hkey]

def lonely (key : SortKeyDef) (value : List UInt8) : Nat → UInt8 :=
  store (fun _ => 0) key.offset value

theorem area_lonely {value : List UInt8} (hv : value.length = key.size) :
    key.area (lonely key value) = value := by
  rw [SortKeyDef.area, ← hv]
  exact load_store_self _ _ _

theorem load_zero (p n : Nat) : load (fun _ => (0 : UInt8)) p n = List.replicate n 0 := by
  induction n generalizing p with
  | zero => rfl
  | succ n ih => rw [load, ih, List.replicate_succ]

theorem Described.area_others (h : Described keys stop) (hkey : key ∈ keys) {k : SortKeyDef}
    (hk : k ∈ keys) (hne : k ≠ key) {value : List UInt8} (hv : value.length = key.size) :
    k.area (lonely key value) = List.replicate k.size 0 := by
  have hdisj := h.disjoint.forall hk hkey hne
  rw [← load_zero k.offset]
  refine load_congr fun i hi hlt => store_frame ?_
  by_contra hin
  refine Set.disjoint_left.1 hdisj (.inl ⟨hi, hlt⟩) (.inl ?_)
  omega

theorem proper_zeros (hem : key.Emitted) : key.Proper (List.replicate key.size 0) := by
  refine ⟨fun b hb => ?_, ?_⟩
  · rw [List.drop_replicate] at hb
    exact List.eq_of_mem_replicate hb
  · have hle := key.length_le_size
    rw [SortKeyDef.Emitted] at hem
    cases hd : key.dtype <;> rw [hd] at hem <;> try trivial
    case varying =>
      have htwo : 2 ≤ key.size := Nat.le_trans hem hle
      have hzero : le ((List.replicate key.size (0 : UInt8)).take 2) = 0 := by
        rw [List.take_replicate, Nat.min_eq_left htwo]
        rfl
      rw [hzero]
      exact hem
    case cstring =>
      have hone : 1 ≤ key.size := Nat.le_trans hem hle
      have hzero : strlen (List.replicate key.size 0) = 0 := by
        obtain ⟨n, hn⟩ := Nat.exists_eq_add_of_le' hone
        rw [hn, List.replicate_succ]
        rfl
      rw [hzero]
      exact hem

theorem Described.not_sorts (h : Described keys stop) (hkey : key ∈ keys)
    (hd : key.dtype = .quad) : ¬ Sorts keys stop := by
  have hem := h.emitted key hkey
  obtain ⟨hlen, hsize⟩ := (SortKeyDef.size_of_emitted hem).2.2.1 (.inr (.inr (.inr hd)))
  have hrecord : ∀ value : List UInt8, value.length = key.size →
      RecordOf keys (lonely key value) := by
    intro value hv k hk
    by_cases hne : k = key
    · subst hne
      rw [area_lonely hv]
      refine ⟨?_, by simp only [hd]⟩
      rw [List.drop_of_length_le (by omega)]
      simp
    · rw [h.area_others hkey hk hne hv]
      exact proper_zeros (h.emitted k hk)
  have hlow : ([1, 0, 0, 0, 0, 0, 0, 0] : List UInt8).length = key.size := hsize.symm
  have hhigh : ([0, 0, 0, 0, 1, 0, 0, 0] : List UInt8).length = key.size := hsize.symm
  intro hsorts
  have heq := hsorts _ _ (hrecord _ hlow) (hrecord _ hhigh)
  rw [h.compareLongs_eq, longsOrder, orderKeys, foldr_then _ ?_ hkey, foldr_then _ ?_ hkey,
    area_lonely hlow, area_lonely hhigh] at heq
  · exact SortKeyDef.compareLongs_quad hd hlen heq
  · intro k hk hne
    rw [h.area_others hkey hk hne hlow, h.area_others hkey hk hne hhigh]
    exact order_self k _
  · intro k hk hne
    rw [h.area_others hkey hk hne hlow, h.area_others hkey hk hne hhigh]
    exact compareLongs_self _

def SortItem.Valid (item : SortItem) : Prop :=
  (⟨item.dtype, item.descending, item.binary, item.length, 0, 0⟩ : SortKeyDef).Emitted

theorem itemKeys_spec (mapLength : Nat) (items : List SortItem) (h : ∀ item ∈ items, item.Valid) :
    Follow (roundup mapLength 4) (itemKeys mapLength items).1 (itemKeys mapLength items).2 ∧
      ∀ key ∈ (itemKeys mapLength items).1, key.Emitted := by
  induction items generalizing mapLength with
  | nil => exact ⟨rfl, fun key hkey => by cases hkey⟩
  | cons item items ih =>
    obtain ⟨hfollow, hemitted⟩ := ih (roundup (roundup mapLength 4 + 1) 4 + item.length)
      fun x hx => h x (List.mem_cons_of_mem _ hx)
    have hitem := h item List.mem_cons_self
    simp only [itemKeys]
    refine ⟨⟨rfl, ?_, ?_⟩, ?_⟩
    · simp only [SortKeyDef.size, roundup]
      omega
    · have hstart : roundup mapLength 4 + SortKeyDef.size ⟨.text, item.nullsFirst, false, 1,
          roundup mapLength 4, 0⟩ + SortKeyDef.size ⟨item.dtype, item.descending, item.binary,
            item.length, roundup (roundup mapLength 4 + 1) 4, 0⟩ =
          roundup (roundup (roundup mapLength 4 + 1) 4 + item.length) 4 := by
        simp only [SortKeyDef.size, roundup]
        omega
      rw [hstart]
      exact hfollow
    · intro key hkey
      simp only [List.mem_cons] at hkey
      rcases hkey with rfl | rfl | hkey
      · trivial
      · exact hitem
      · exact hemitted key hkey

theorem varyOffsets_spec (mapLength : Nat) (keys : List SortKeyDef) :
    (∀ start stop, Follow start keys stop → Follow start (varyOffsets mapLength keys).1 stop) ∧
    ((∀ key ∈ keys, key.Emitted) → ∀ key ∈ (varyOffsets mapLength keys).1, key.Emitted) ∧
    (∀ key ∈ (varyOffsets mapLength keys).1, key.dtype = .varying ∨ key.dtype = .cstring →
      mapLength ≤ key.varyOffset) ∧
    ((varyOffsets mapLength keys).1.Pairwise fun key other =>
      (key.dtype = .varying ∨ key.dtype = .cstring) →
        (other.dtype = .varying ∨ other.dtype = .cstring) →
        key.varyOffset + 2 ≤ other.varyOffset ∨ other.varyOffset + 2 ≤ key.varyOffset) ∧
    mapLength ≤ (varyOffsets mapLength keys).2 := by
  induction keys generalizing mapLength with
  | nil =>
    have hnone : ∀ key : SortKeyDef, key ∉ (varyOffsets mapLength []).1 := fun key =>
      List.not_mem_nil
    exact ⟨fun _ _ h => h, fun _ key hkey => absurd hkey (hnone key),
      fun key hkey => absurd hkey (hnone key), List.Pairwise.nil, Nat.le_refl _⟩
  | cons key keys ih =>
    rw [varyOffsets]
    split_ifs with hd
    · obtain ⟨hfollow, hemitted, hbehind, hapart, hle⟩ := ih (mapLength + 2)
      refine ⟨fun start stop h => ⟨h.1, hfollow _ _ h.2⟩, fun h k hk => ?_, fun k hk hkd => ?_,
        List.pairwise_cons.2 ⟨fun k hk _ hkd => .inl (hbehind k hk hkd), hapart⟩, ?_⟩
      · rcases List.mem_cons.1 hk with rfl | hk
        · exact h key List.mem_cons_self
        · exact hemitted (fun x hx => h x (List.mem_cons_of_mem _ hx)) k hk
      · rcases List.mem_cons.1 hk with rfl | hk
        · exact Nat.le_refl _
        · have hk' := hbehind k hk hkd
          omega
      · dsimp only
        omega
    · obtain ⟨hfollow, hemitted, hbehind, hapart, hle⟩ := ih mapLength
      refine ⟨fun start stop h => ⟨h.1, hfollow _ _ h.2⟩, fun h k hk => ?_, fun k hk hkd => ?_,
        List.pairwise_cons.2 ⟨fun k hk hkey _ => absurd hkey hd, hapart⟩, hle⟩
      · rcases List.mem_cons.1 hk with rfl | hk
        · exact h k List.mem_cons_self
        · exact hemitted (fun x hx => h x (List.mem_cons_of_mem _ hx)) k hk
      · rcases List.mem_cons.1 hk with rfl | hk
        · exact absurd hkd hd
        · exact hbehind k hk hkd

theorem genSort_described {items : List SortItem} {others : Nat}
    (h : genSort items others = some (keys, stop)) (hitems : ∀ item ∈ items, item.Valid) :
    Described keys stop := by
  obtain ⟨hfollow, hemitted⟩ := itemKeys_spec 0 items hitems
  simp only [genSort] at h
  split_ifs at h with hmax
  cases h
  obtain ⟨hfollow', hemitted', hbehind, hapart, hle⟩ :=
    varyOffsets_spec (roundup ((itemKeys 0 items).2 + others) 4) (itemKeys 0 items).1
  have hround : (itemKeys 0 items).2 ≤ roundup ((itemKeys 0 items).2 + others) 4 := by
    rw [roundup]
    omega
  refine ⟨hfollow' _ _ hfollow, hemitted' hemitted, fun key hkey hd => ?_, hapart, by omega⟩
  have hslot := hbehind key hkey hd
  omega

/-- `diddle_key` can be taken back, and puts the records in the order of their keys, if and only if
no key is a `SKD_quad`. -/
theorem sort_keys_right_iff (h : Described keys stop) :
    (Restores keys ∧ Sorts keys stop) ↔ ∀ key ∈ keys, key.dtype ≠ .quad := by
  constructor
  · rintro ⟨-, hsorts⟩ key hkey hd
    exact h.not_sorts hkey hd hsorts
  · exact fun hquad => ⟨h.restores, h.sorts hquad⟩

def namePrice : List SortItem := [⟨.varying, 12, false, true, false⟩,
    ⟨.int64, 8, true, false, false⟩]

theorem described_namePrice : ∃ keys stop, genSort namePrice 20 = some (keys, stop) ∧
    Described keys stop ∧ ∀ key ∈ keys, key.dtype ≠ .quad := by
  refine ⟨_, _, rfl, @genSort_described _ _ namePrice 20 rfl ?_, by decide⟩
  intro item hitem
  simp only [namePrice, List.mem_cons, List.not_mem_nil, or_false] at hitem
  rcases hitem with rfl | rfl
  · exact (by decide : 2 ≤ 12)
  · rfl

theorem sort_keys_right_namePrice : ∃ keys stop, genSort namePrice 20 = some (keys, stop) ∧
    Restores keys ∧ Sorts keys stop := by
  obtain ⟨keys, stop, hgen, hdescribed, hquad⟩ := described_namePrice
  exact ⟨keys, stop, hgen, (sort_keys_right_iff hdescribed).2 hquad⟩

def oneQuad : List SortItem := [⟨.quad, 8, false, false, false⟩]

/-- The records of 1 and of 2³² come in the wrong order. -/
theorem quad_keys_not_sorted : ∃ keys stop, genSort oneQuad 0 = some (keys, stop) ∧
    Described keys stop ∧ ¬ Sorts keys stop := by
  have hdescribed : Described [⟨.text, false, false, 1, 0, 0⟩, ⟨.quad, false, false, 8, 4, 0⟩]
    12 := by
    refine @genSort_described _ _ oneQuad 0 rfl ?_
    intro item hitem
    simp only [oneQuad, List.mem_singleton] at hitem
    subst hitem
    rfl
  exact ⟨_, _, rfl, hdescribed, hdescribed.not_sorts (List.mem_cons_of_mem _ List.mem_cons_self)
    rfl⟩

end Firebird.Jrd.Sort
