import Firebird.Lib.Stuff

/-!
# Keys of compound indices

`BTR_key` builds the key of a record, `BTR_make_key` the key of a search. Both take the segments
that `compress` makes of the fields, and put a marker in front of each group of `STUFF_COUNT` bytes.
-/
namespace Firebird.Jrd.Btr

open Lib List

def stuffCount : Nat := 4

structure IndexDesc where
  idxCount : Nat
  idxUnique : Bool
  idxDescending : Bool

/-- What `compress` makes of a field: its data, and whether it leaves `key_empty` set. -/
structure Segment where
  isNull : Bool
  keyData : List UInt8
  keyEmpty : Bool

structure TemporaryKey where
  keyData : List UInt8
  keyEmpty : Bool
  keyAllNulls : Bool
  keyNullSegment : Nat
  deriving DecidableEq

inductive IdxNullState
  | nullsNone
  | nullsSome
  | nullsAll
  deriving DecidableEq

def btrComplementKey (data : List UInt8) : List UInt8 := data.map (· ^^^ 255)

variable (limit : Nat)

/-- `*p++ = b`; the key is too big when it reaches the limit. -/
def emit (p : List UInt8) (b : UInt8) : Option (List UInt8) :=
  if (p ++ [b]).length ≥ limit then none else some (p ++ [b])

def fillUp : Nat → List UInt8 → Option (List UInt8)
  | 0, p => some p
  | stuff + 1, p => do
    let p ← emit limit p 0
    fillUp stuff p

def stuffData (marker : UInt8) : List UInt8 → Nat → List UInt8 → Option (Nat × List UInt8)
  | [], stuff, p => some (stuff, p)
  | b :: q, stuff, p =>
    if stuff = 0 then do
      let p ← emit limit p marker
      let p ← emit limit p b
      stuffData marker q (stuffCount - 1) p
    else do
      let p ← emit limit p b
      stuffData marker q (stuff - 1) p

/-- The loop over the segments, from the `n`-th one on. -/
def stuffSegments (idxCount : Nat) : Nat → List Segment → Nat → List UInt8 →
    Option (Nat × List UInt8)
  | _, [], stuff, p => some (stuff, p)
  | n, s :: segments, stuff, p => do
    let p ← fillUp limit stuff p
    let (stuff, p) ← stuffData limit (UInt8.ofNat (idxCount - n)) s.keyData 0 p
    stuffSegments idxCount (n + 1) segments stuff p

/-- The end of both functions: the limit is checked, and a descending key is complemented. -/
def finish (idx : IndexDesc) (data : List UInt8) : Option (List UInt8) :=
  if data.length ≥ limit then none
  else some (if idx.idxDescending then btrComplementKey data else data)

/-- `BTR_key`; `none` is `idx_e_keytoobig`. -/
def btrKey (idx : IndexDesc) (segments : List Segment) : Option (TemporaryKey × IdxNullState) := do
  let missing := if idx.idxUnique then segments.countP (·.isNull) else 0
  let data ←
    if idx.idxCount = 1 then segments.head?.map (·.keyData)
    else (stuffSegments limit idx.idxCount 0 segments 0 []).map (·.2)
  let data ← finish limit idx data
  let nullSegment :=
    if idx.idxUnique ∧ idx.idxCount ≠ 1 ∧ 0 < missing then segments.findIdx (·.isNull) else 0
  let state :=
    if missing = 0 then .nullsNone
    else if missing = idx.idxCount then .nullsAll
    else .nullsSome
  return (⟨data, segments.all (·.keyEmpty), segments.all (·.isNull), nullSegment⟩, state)

/-- `BTR_make_key`; `none` is `idx_e_keytoobig`. -/
def btrMakeKey (idx : IndexDesc) (segments : List Segment) (fuzzy : Bool) :
    Option TemporaryKey := do
  let empty := segments.all (·.keyEmpty)
  let data ←
    if idx.idxCount = 1 then segments.head?.map (·.keyData)
    else do
      let (stuff, p) ← stuffSegments limit idx.idxCount 0 segments 0 []
      if !fuzzy && segments.length ≠ idx.idxCount then fillUp limit stuff p else some p
  let data := if fuzzy && empty then [] else data
  let data ← finish limit idx data
  return ⟨data, empty, segments.all (·.isNull), 0⟩

def emitAll (bytes p : List UInt8) : Option (List UInt8) := bytes.foldlM (emit limit) p

variable {limit} {p q as bs data : List UInt8} {marker : UInt8} {n stuff idxCount : Nat}
  {segments : List Segment}

theorem emitAll_append : emitAll limit (as ++ bs) p = (emitAll limit as p).bind
    (emitAll limit bs) := by
  simp only [emitAll, foldlM_append]
  rfl

theorem emitAll_cons (b : UInt8) :
    emitAll limit (b :: bs) p = (emit limit p b).bind (emitAll limit bs) := by
  simp only [emitAll]
  rfl

theorem emitAll_eq :
    emitAll limit bs p = if bs = [] ∨ p.length + bs.length < limit then some (p ++ bs) else
      none := by
  induction bs generalizing p with
  | nil => simp [emitAll]
  | cons b bs ih =>
    rw [emitAll_cons, emit]
    split_ifs with hlimit hfits hfits
    · simp at hfits hlimit
      omega
    · rfl
    · rw [Option.bind_some, ih, if_pos]
      · simp
      · simp at hfits ⊢
        omega
    · rw [Option.bind_some, ih, if_neg]
      rintro (rfl | hlt)
      · simp at hfits hlimit
        omega
      · simp at hfits hlt
        omega

theorem fillUp_eq : fillUp limit n p = emitAll limit (replicate n 0) p := by
  induction n generalizing p with
  | zero => rfl
  | succ n ih =>
    rw [fillUp, replicate_succ, emitAll_cons]
    simp only [ih]
    rfl

def left (stuff length : Nat) : Nat := (stuff + 3 * length) % 4

theorem stuffData_eq (h : stuff < 4) :
    stuffData limit marker q stuff p =
      (emitAll limit (q.take stuff ++ Stuff.stuffed 3 marker (q.drop stuff)) p).map
        fun p => (left stuff q.length, p) := by
  induction q generalizing stuff p with
  | nil => simp [stuffData, emitAll, left, Nat.mod_eq_of_lt h]
  | cons b q ih =>
    rw [stuffData]
    split_ifs with hzero
    · subst hzero
      have hleft : left 0 (b :: q).length = left 3 q.length := by
        simp only [left, length_cons]
        omega
      rw [take_zero, drop_zero, nil_append, Stuff.stuffed_cons, emitAll_cons, hleft]
      simp only [ih (show stuffCount - 1 < 4 by decide)]
      cases emit limit p marker with
      | none => rfl
      | some p =>
        simp only [Option.bind_some, emitAll_cons, bind]
        cases emit limit p b <;> rfl
    · obtain ⟨k, rfl⟩ : ∃ k, stuff = k + 1 := ⟨stuff - 1, by omega⟩
      have hleft : left (k + 1) (b :: q).length = left k q.length := by
        simp only [left, length_cons]
        omega
      rw [take_succ_cons, drop_succ_cons, cons_append, emitAll_cons, hleft]
      simp only [Nat.add_sub_cancel, ih (show k < 4 by omega)]
      cases emit limit p b <;> rfl

def segmentBytes (idxCount : Nat) : Nat → List (List UInt8) → Nat → List UInt8
  | _, [], _ => []
  | n, s :: rest, stuff =>
    List.replicate stuff 0 ++ Stuff.stuffed 3 (UInt8.ofNat (idxCount - n)) s ++
      segmentBytes idxCount (n + 1) rest (left 0 s.length)

def leftOver : Nat → List (List UInt8) → Nat
  | stuff, [] => stuff
  | _, s :: rest => leftOver (left 0 s.length) rest

theorem stuffSegments_eq :
    stuffSegments limit idxCount n segments stuff p =
      (emitAll limit (segmentBytes idxCount n (segments.map (·.keyData)) stuff) p).map
        fun p => (leftOver stuff (segments.map (·.keyData)), p) := by
  induction segments generalizing n stuff p with
  | nil => rfl
  | cons s segments ih =>
    rw [stuffSegments, map_cons, segmentBytes, leftOver, emitAll_append, emitAll_append,
      fillUp_eq]
    simp only [ih, stuffData_eq (show 0 < 4 by decide), take_zero, drop_zero,
      nil_append]
    cases emitAll limit (replicate stuff 0) p with
    | none => rfl
    | some p =>
      simp only [Option.bind_some, bind]
      cases emitAll limit (Stuff.stuffed 3 (UInt8.ofNat (idxCount - n)) s.keyData) p <;> rfl

variable {datas ds es : List (List UInt8)} {m : UInt8}

theorem padded_eq (s : List UInt8) :
    Stuff.padded 0 3 m s = Stuff.stuffed 3 m s ++ replicate (left 0 s.length) 0 := by
  induction hn : s.length using Nat.strongRecOn generalizing s with
  | ind n ih =>
    subst hn
    cases s with
    | nil => simp [left]
    | cons b s =>
      rw [Stuff.padded_cons, Stuff.stuffed_cons, ih (s.drop 3).length
        (by rw [length_drop, length_cons]; omega) _ rfl,
        Stuff.group]
      rcases Nat.lt_or_ge s.length 3 with hlt | hge
      · have hleft : left 0 (b :: s).length = 3 - s.length := by
          simp only [left, length_cons]
          omega
        rw [drop_of_length_le (by omega), hleft]
        simp [left]
      · have hleft : left 0 (b :: s).length = left 0 (s.drop 3).length := by
          simp only [left, length_cons, length_drop]
          omega
        rw [hleft, Nat.sub_eq_zero_of_le hge]
        simp

theorem segmentBytes_tuple (hlen : idxCount - n = datas.length) (hne : datas ≠ []) :
    segmentBytes idxCount n datas stuff =
      replicate stuff 0 ++ Stuff.tuple 0 3 UInt8.ofNat datas := by
  induction datas generalizing n stuff with
  | nil => exact absurd rfl hne
  | cons s rest ih =>
    rw [segmentBytes, hlen]
    by_cases hrest : rest = []
    · subst hrest
      simp [segmentBytes, Stuff.tuple]
    · have hlen' : idxCount - (n + 1) = rest.length := by
        rw [length_cons] at hlen
        omega
      rw [ih hlen' hrest, Stuff.tuple_cons hrest, length_cons, padded_eq]
      simp

theorem segmentBytes_front :
    segmentBytes idxCount n datas stuff ++ replicate (leftOver stuff datas) 0 =
      replicate stuff 0 ++ Stuff.front 0 3 UInt8.ofNat (idxCount - n) datas := by
  induction datas generalizing n stuff with
  | nil => simp [segmentBytes, leftOver, Stuff.front]
  | cons s rest ih =>
    rw [segmentBytes, leftOver, append_assoc, ih, Stuff.front, padded_eq, Nat.sub_sub]
    simp

def compoundLength : List (List UInt8) → Nat
  | [] => 0
  | [s] => s.length + (s.length + 3) / 4
  | s :: rest => (s.length + 3) / 4 * 5 + compoundLength rest

def frontLength (datas : List (List UInt8)) : Nat :=
  (datas.map fun s => (s.length + 3) / 4 * 5).sum

theorem length_stuffed (s : List UInt8) :
    (Stuff.stuffed 3 m s).length = s.length + (s.length + 3) / 4 := by
  induction hn : s.length using Nat.strongRecOn generalizing s with
  | ind n ih =>
    subst hn
    cases s with
    | nil => simp
    | cons b s =>
      simp only [Stuff.stuffed_cons, length_cons, length_append,
        ih (s.drop 3).length (by rw [length_drop, length_cons]; omega) _ rfl,
          length_take, length_drop]
      omega

theorem length_padded (s : List UInt8) :
    (Stuff.padded 0 3 m s).length = (s.length + 3) / 4 * 5 := by
  rw [padded_eq, length_append, length_stuffed, length_replicate, left]
  omega

theorem length_tuple (marker : Nat → UInt8) (datas : List (List UInt8)) :
    (Stuff.tuple 0 3 marker datas).length = compoundLength datas := by
  induction datas with
  | nil => rfl
  | cons s rest ih =>
    cases rest with
    | nil => rw [Stuff.tuple, length_stuffed, compoundLength]
    | cons t rest =>
      rw [Stuff.tuple, length_append, length_padded, ih]
      rfl

theorem length_front (marker : Nat → UInt8) (k : Nat) (datas : List (List UInt8)) :
    (Stuff.front 0 3 marker k datas).length = frontLength datas := by
  induction datas generalizing k with
  | nil => rfl
  | cons s rest ih =>
    rw [Stuff.front, length_append, length_padded, ih]
    simp [frontLength]

/-! ## The keys of `BTR_key` and `BTR_make_key` -/

def datasOf (segments : List Segment) : List (List UInt8) := segments.map (·.keyData)

def keyLength : List (List UInt8) → Nat
  | [s] => s.length
  | datas => compoundLength datas

def plain (idx : IndexDesc) (data : List UInt8) : List UInt8 :=
  if idx.idxDescending then btrComplementKey data else data

def keyOf : List (List UInt8) → List UInt8
  | [s] => s
  | datas => Stuff.tuple 0 3 UInt8.ofNat datas

variable {idx : IndexDesc} {s t u : List Segment}

theorem complement_complement (data : List UInt8) :
    btrComplementKey (btrComplementKey data) = data := by
  have hxor : (fun b : UInt8 => b ^^^ 255) ∘ (fun b => b ^^^ 255) = id := by
    funext b
    exact (UInt8.xor_assoc b 255 255).trans (by rw [UInt8.xor_self, UInt8.xor_zero]; rfl)
  rw [btrComplementKey, btrComplementKey, map_map, hxor, map_id]

@[simp]
theorem plain_plain (idx : IndexDesc) (data : List UInt8) : plain idx (plain idx data) = data := by
  rw [plain, plain]
  split_ifs
  · exact complement_complement data
  · rfl

@[simp]
theorem length_plain (idx : IndexDesc) (data : List UInt8) :
    (plain idx data).length = data.length := by
  rw [plain]
  split_ifs <;> simp [btrComplementKey]

theorem length_keyOf (datas : List (List UInt8)) : (keyOf datas).length = keyLength datas := by
  match datas with
  | [] => rfl
  | [s] => rfl
  | s :: t :: rest => exact length_tuple _ _

theorem finish_eq (h : data.length < limit) : finish limit idx data = some (plain idx data) := by
  rw [finish, if_neg (by omega)]
  rfl

theorem keyOf_of_one_lt (h : 1 < datas.length) :
    keyOf datas = Stuff.tuple 0 3 UInt8.ofNat datas := by
  match datas, h with
  | _ :: _ :: _, _ => rfl

theorem stuffSegments_of_length (hlen : s.length = idx.idxCount) (hcount : 1 < idx.idxCount)
    (hfit : keyLength (datasOf s) < limit) :
    stuffSegments limit idx.idxCount 0 s 0 [] =
      some (leftOver 0 (datasOf s), keyOf (datasOf s)) := by
  have hne : datasOf s ≠ [] := by
    rw [datasOf, ne_eq, map_eq_nil_iff, ← length_eq_zero_iff]
    omega
  have hkey := @keyOf_of_one_lt (datasOf s) (by rw [datasOf, length_map]; omega)
  have hbytes := @segmentBytes_tuple 0 0 idx.idxCount (datasOf s)
    (by rw [datasOf, length_map]; omega) hne
  rw [replicate_zero, nil_append, ← hkey] at hbytes
  rw [stuffSegments_eq, ← datasOf, hbytes, emitAll_eq, if_pos]
  · rfl
  · rw [length_keyOf]
    exact .inr (by simpa using hfit)

theorem keyOf_head (hlen : s.length = idx.idxCount) (hcount : idx.idxCount = 1) :
    s.head?.map (·.keyData) = some (keyOf (datasOf s)) := by
  match s, hlen.trans hcount with
  | [d], _ => rfl

theorem btrKey_eq (hlen : s.length = idx.idxCount) (hcount : 0 < idx.idxCount)
    (hfit : keyLength (datasOf s) < limit) :
    ∃ k state, btrKey limit idx s = some (k, state) ∧ k.keyData = plain idx
      (keyOf (datasOf s)) := by
  have hfinish := @finish_eq limit _ idx ((length_keyOf (datasOf s)).trans_lt hfit)
  by_cases hone : idx.idxCount = 1
  · simp only [btrKey, if_pos hone, keyOf_head hlen hone, Option.bind_eq_bind, Option.bind_some,
      hfinish]
    exact ⟨_, _, rfl, rfl⟩
  · simp only [btrKey, if_neg hone, stuffSegments_of_length hlen (by omega) hfit, Option.map_some,
      Option.bind_eq_bind, Option.bind_some, hfinish]
    exact ⟨_, _, rfl, rfl⟩

/-- `BTR_make_null_key`, which checks no limit; `null` is what `compress` makes of `NULL`. -/
def btrMakeNullKey (idx : IndexDesc) (null : Segment) : TemporaryKey :=
  let data :=
    if idx.idxCount = 1 then null.keyData
    else segmentBytes idx.idxCount 0 (replicate idx.idxCount null.keyData) 0
  ⟨if idx.idxDescending then btrComplementKey data else data,
    idx.idxCount ≠ 1 && null.keyEmpty, true, 0⟩

/-- The key of a row with `NULL` in each field. -/
theorem btrMakeNullKey_eq {null : Segment} (hcount : 0 < idx.idxCount)
    (hfit : keyLength (replicate idx.idxCount null.keyData) < limit) :
    ∃ k state, btrKey limit idx (replicate idx.idxCount null) = some (k, state) ∧
      k.keyData = (btrMakeNullKey idx null).keyData := by
  have hdatas : datasOf (replicate idx.idxCount null) = replicate idx.idxCount null.keyData :=
    map_replicate
  obtain ⟨k, state, hk, hdata⟩ := btrKey_eq length_replicate hcount (hdatas ▸ hfit)
  refine ⟨k, state, hk, hdata.trans ?_⟩
  rw [hdatas, btrMakeNullKey]
  by_cases hone : idx.idxCount = 1
  · simp [hone, keyOf, plain]
  · have hlen : 1 < (replicate idx.idxCount null.keyData).length := by
      rw [length_replicate]
      omega
    have hbytes := @segmentBytes_tuple 0 0 idx.idxCount (replicate idx.idxCount null.keyData)
      (by rw [length_replicate]; omega) (ne_nil_of_length_pos (by omega))
    rw [if_neg hone, hbytes, keyOf_of_one_lt hlen, replicate_zero, nil_append]
    rfl

theorem btrMakeKey_eq (hlen : s.length = idx.idxCount) (hcount : 0 < idx.idxCount)
    (hfit : keyLength (datasOf s) < limit) :
    ∃ k, btrMakeKey limit idx s false = some k ∧ k.keyData = plain idx (keyOf (datasOf s)) := by
  have hfinish := @finish_eq limit _ idx ((length_keyOf (datasOf s)).trans_lt hfit)
  by_cases hone : idx.idxCount = 1
  · simp only [btrMakeKey, if_pos hone, keyOf_head hlen hone, Bool.false_and, Bool.false_eq_true,
      if_false, Option.bind_eq_bind, Option.bind_some, hfinish]
    exact ⟨_, rfl, rfl⟩
  · simp only [btrMakeKey, if_neg hone, stuffSegments_of_length hlen (by omega) hfit, hlen, ne_eq,
      Bool.false_and, Bool.false_eq_true, if_false, Option.bind_eq_bind, Option.bind_some, hfinish]
    exact ⟨_, rfl, rfl⟩

theorem frontLength_eq :
    (segmentBytes idx.idxCount 0 datas 0 ++ replicate (leftOver 0 datas) 0).length =
      frontLength datas := by
  rw [segmentBytes_front, replicate_zero, nil_append, length_front]

theorem btrMakeKey_front (hlen : u.length < idx.idxCount) (hpos : 0 < u.length)
    (hfit : frontLength (datasOf u) < limit) :
    ∃ k, btrMakeKey limit idx u false = some k ∧
      k.keyData = plain idx (Stuff.front 0 3 UInt8.ofNat idx.idxCount (datasOf u)) := by
  have hone : idx.idxCount ≠ 1 := by omega
  have hne : u.length ≠ idx.idxCount := by omega
  have hfront := @segmentBytes_front 0 0 idx.idxCount (datasOf u)
  rw [replicate_zero, nil_append, Nat.sub_zero] at hfront
  have hlength := @frontLength_eq (datasOf u) idx
  have hseg : stuffSegments limit idx.idxCount 0 u 0 [] =
      some (leftOver 0 (datasOf u), segmentBytes idx.idxCount 0 (datasOf u) 0) := by
    rw [stuffSegments_eq, ← datasOf, emitAll_eq, if_pos]
    · rfl
    · rw [length_append] at hlength
      exact .inr (by simp; omega)
  have hfill : fillUp limit (leftOver 0 (datasOf u)) (segmentBytes idx.idxCount 0 (datasOf u) 0) =
      some (Stuff.front 0 3 UInt8.ofNat idx.idxCount (datasOf u)) := by
    rw [fillUp_eq, emitAll_eq, if_pos, hfront]
    rw [length_append] at hlength
    exact .inr (by omega)
  have hfinish := @finish_eq limit (Stuff.front 0 3 UInt8.ofNat idx.idxCount (datasOf u)) idx
    (by rw [length_front]; exact hfit)
  simp only [btrMakeKey, if_neg hone, hseg, hne, ne_eq, Bool.false_and, Bool.false_eq_true,
    if_false, Option.bind_eq_bind, Option.bind_some, hfill, hfinish]
  exact ⟨_, rfl, rfl⟩

theorem byte_zero_lt (c : UInt8) (h : c ≠ 0) : 0 < c := UInt8.pos_iff_ne_zero.2 h

theorem marker_lt (hmax : n < 256) (i j : Nat) (_ : 0 < i) (hij : i < j) (hj : j ≤ n) :
    UInt8.ofNat i < UInt8.ofNat j := by
  rw [UInt8.lt_iff_toNat_lt, UInt8.toNat_ofNat', UInt8.toNat_ofNat']
  omega

theorem keyOf_lt (hmax : ds.length < 256) (hlen : ds.length = es.length)
    (hzero : ∀ e ∈ es, Stuff.NoTrail 0 e) (h : ds < es) : keyOf ds < keyOf es := by
  match ds, es, hlen with
  | [d], [e], _ =>
    rcases cons_lt_cons_iff.1 h with hde | ⟨-, hnil⟩
    · exact hde
    · exact absurd hnil (not_lt_nil _)
  | [], [], _ => exact absurd h (not_lt_nil _)
  | _ :: _ :: _, _ :: _ :: _, hlen =>
    exact Stuff.tuple_lt byte_zero_lt (marker_lt hmax) hzero hlen h

theorem keyOf_lt_iff (hmax : ds.length < 256) (hlen : ds.length = es.length)
    (hds : ∀ d ∈ ds, Stuff.NoTrail 0 d) (hes : ∀ e ∈ es, Stuff.NoTrail 0 e) :
    keyOf ds < keyOf es ↔ ds < es := by
  refine ⟨fun h => ?_, keyOf_lt hmax hlen hes⟩
  by_contra hge
  rcases List.le_iff_lt_or_eq.1 (List.not_lt.1 hge) with hlt | rfl
  · exact List.lt_asymm h (keyOf_lt (hlen ▸ hmax) hlen.symm hds hlt)
  · exact List.lt_irrefl _ h

theorem keyOf_inj (hmax : ds.length < 256) (hlen : ds.length = es.length)
    (hds : ∀ d ∈ ds, Stuff.NoTrail 0 d) (hes : ∀ e ∈ es, Stuff.NoTrail 0 e) :
    keyOf ds = keyOf es ↔ ds = es := by
  refine ⟨fun h => ?_, fun h => h ▸ rfl⟩
  apply List.le_antisymm
  · intro hlt
    exact List.lt_irrefl _ (h ▸ keyOf_lt (hlen ▸ hmax) hlen.symm hds hlt)
  · intro hlt
    exact List.lt_irrefl _ (h ▸ keyOf_lt hmax hlen hes hlt)

theorem plain_prefix_iff (as bs : List UInt8) : plain idx as <+: plain idx bs ↔ as <+: bs := by
  have hmono : ∀ as bs : List UInt8, as <+: bs → plain idx as <+: plain idx bs := by
    intro as bs h
    rw [plain, plain]
    split_ifs
    · exact h.map _
    · exact h
  exact ⟨fun h => by simpa using hmono _ _ h, hmono as bs⟩

theorem front_iff (hmax : ds.length < 256) (hes : es ≠ []) (hlt : es.length < ds.length)
    (hds : ∀ d ∈ ds, Stuff.NoTrail 0 d) (hes' : ∀ e ∈ es, Stuff.NoTrail 0 e) :
    (Stuff.front 0 3 UInt8.ofNat ds.length es <+: keyOf ds ∧
      ∀ b ∈ ((keyOf ds).drop (Stuff.front 0 3 UInt8.ofNat ds.length es).length).head?,
        b.toNat ≤ ds.length - es.length) ↔ es <+: ds := by
  have hkey : keyOf ds = Stuff.tuple 0 3 UInt8.ofNat ds := by
    match ds, hlt with
    | [], hlt => rfl
    | [d], hlt => exact absurd (by simpa using hlt) hes
    | _ :: _ :: _, _ => rfl
  have hpos := length_pos_iff.2 hes
  have hmark : ∀ b : UInt8, b < UInt8.ofNat (ds.length - es.length + 1) ↔
      b.toNat ≤ ds.length - es.length := by
    intro b
    rw [UInt8.lt_iff_toNat_lt, UInt8.toNat_ofNat', Nat.mod_eq_of_lt (by omega)]
    omega
  rw [hkey, ← @Stuff.front_prefix_iff UInt8 0 3 UInt8.ofNat es ds _ _ _ _ byte_zero_lt
    (marker_lt hmax) hes' hds hlt]
  constructor
  · rintro ⟨⟨x, hx⟩, hnext⟩
    refine ⟨x, hx.symm, fun _ b hb => (hmark b).2 (hnext b ?_)⟩
    rw [← hx, drop_left]
    exact hb
  · rintro ⟨x, hx, hnext⟩
    refine ⟨⟨x, hx.symm⟩, fun b hb => (hmark b).1 (hnext hes b ?_)⟩
    rw [hx, drop_left] at hb
    exact hb

/-- Keys of compound indices: `BTR_key` separates the segments and keeps their order, `BTR_make_key`
returns the same key, and its key of the first segments stands in front of the keys that have these
segments, with the marker of another segment behind it, and of no other ones. -/
theorem compound_keys (hcount : 0 < idx.idxCount) (hmax : idx.idxCount < 256)
    (hs : s.length = idx.idxCount) (ht : t.length = idx.idxCount)
    (hzs : ∀ d ∈ datasOf s, Stuff.NoTrail 0 d) (hzt : ∀ d ∈ datasOf t, Stuff.NoTrail 0 d)
    (hfs : keyLength (datasOf s) < limit) (hft : keyLength (datasOf t) < limit) :
    ∃ ks kt ns nt, btrKey limit idx s = some (ks, ns) ∧ btrKey limit idx t = some (kt, nt) ∧
      (ks.keyData = kt.keyData ↔ datasOf s = datasOf t) ∧
      (plain idx ks.keyData < plain idx kt.keyData ↔ datasOf s < datasOf t) ∧
      (∃ k, btrMakeKey limit idx s false = some k ∧ k.keyData = ks.keyData) ∧
      ∀ u : List Segment, 0 < u.length → u.length < idx.idxCount →
        (∀ d ∈ datasOf u, Stuff.NoTrail 0 d) → frontLength (datasOf u) < limit →
        ∃ k, btrMakeKey limit idx u false = some k ∧
          ((k.keyData <+: ks.keyData ∧
            ∀ b ∈ ((plain idx ks.keyData).drop k.keyData.length).head?,
              b.toNat ≤ idx.idxCount - u.length) ↔ datasOf u <+: datasOf s) := by
  obtain ⟨ks, ns, hks, hds⟩ := btrKey_eq hs hcount hfs
  obtain ⟨kt, nt, hkt, hdt⟩ := btrKey_eq ht hcount hft
  have hlens : (datasOf s).length = idx.idxCount := by rw [datasOf, length_map, hs]
  have hlent : (datasOf t).length = idx.idxCount := by rw [datasOf, length_map, ht]
  have hlen : (datasOf s).length = (datasOf t).length := by rw [hlens, hlent]
  refine ⟨ks, kt, ns, nt, hks, hkt, ?_, ?_, ?_, fun u hpos hlt hzu hfu => ?_⟩
  · rw [hds, hdt, ← keyOf_inj (by omega) hlen hzs hzt]
    exact ⟨fun h => by simpa using congrArg (plain idx) h, fun h => by rw [h]⟩
  · rw [hds, hdt, plain_plain, plain_plain, keyOf_lt_iff (by omega) hlen hzs hzt]
  · obtain ⟨k, hk, hd⟩ := btrMakeKey_eq hs hcount hfs
    exact ⟨k, hk, by rw [hd, hds]⟩
  · obtain ⟨k, hk, hd⟩ := btrMakeKey_front hlt hpos hfu
    refine ⟨k, hk, ?_⟩
    have hne : datasOf u ≠ [] := by
      rw [datasOf, ne_eq, map_eq_nil_iff]
      rintro rfl
      simp at hpos
    have hlenu : (datasOf u).length = u.length := by rw [datasOf, length_map]
    rw [hd, hds, plain_prefix_iff, plain_plain, length_plain, ← hlens, ← hlenu]
    exact front_iff (by omega) hne (by omega) hzs hzu

/-- An index of two segments, and a record with the segments `ABCD` and an empty string. -/
theorem compound_keys_two :
    let s : List Segment := [⟨false, [65, 66, 67, 68], false⟩, ⟨false, [], true⟩]
    ∃ ks ns, btrKey 1024 ⟨2, false, false⟩ s = some (ks, ns) ∧
      ∃ k, btrMakeKey 1024 ⟨2, false, false⟩ s false = some k ∧ k.keyData = ks.keyData := by
  intro s
  obtain ⟨ks, _, ns, _, hks, -, -, -, hk, -⟩ := @compound_keys 1024 ⟨2, false, false⟩ s s
    (by decide) (by decide) rfl rfl (by simp [s, datasOf, Stuff.NoTrail])
    (by simp [s, datasOf, Stuff.NoTrail]) (by decide) (by decide)
  exact ⟨ks, ns, hks, hk⟩

/-- The key of the segment `ABCD` is in front of the key of `ABCDE` too. -/
theorem front_of_longer_segment :
    let u : List Segment := [⟨false, [65, 66, 67, 68], false⟩]
    let s : List Segment := [⟨false, [65, 66, 67, 68, 69], false⟩, ⟨false, [], true⟩]
    ∃ k ks ns, btrMakeKey 1024 ⟨2, false, false⟩ u false = some k ∧
      btrKey 1024 ⟨2, false, false⟩ s = some (ks, ns) ∧ k.keyData <+: ks.keyData ∧
      ¬datasOf u <+: datasOf s := by
  refine ⟨⟨[2, 65, 66, 67, 68], false, false, 0⟩,
    ⟨[2, 65, 66, 67, 68, 2, 69, 0, 0, 0], false, false, 0⟩, .nullsNone, ?_⟩
  decide

end Firebird.Jrd.Btr
