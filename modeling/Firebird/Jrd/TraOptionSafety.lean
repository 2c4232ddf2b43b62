import Firebird.Jrd.TraOptionOrder

/-!
# Reads and orders of a transaction parameter block

`transaction_options` reads a byte behind the block if that ends in an option whose length is
missing, and a lock time-out without a value is an error in the last place only.
-/
namespace Firebird.Jrd.Tpb

open List

variable {rel : Relations}

/-- A block ends in `isc_tpb_verb_time` or `isc_tpb_commit_time`, without a length, behind items
that are accepted. -/
def EndsInTime (rel : Relations) (tpb : List UInt8) : Prop :=
  ∃ (version : UInt8) (items : List Item) (op : Op), tpb = version ::
    (items.flatMap Item.encode ++ [op.code]) ∧
    versionOk version ∧ (op = Op.tpbVerbTime ∨ op = Op.tpbCommitTime) ∧
    (∀ i ∈ items, i.WellFormed ∧ i.Good rel) ∧ items.Pairwise Item.Compatible

theorem optionsLoop_nil (fuel : Nat) (t : Options) :
    (optionsLoop rel fuel t []).outside = false := by
  cases fuel <;> rfl

variable {tpb : List UInt8}

theorem ofNat_length_take {len : UInt8} (h : len.toNat ≤ tpb.length) :
    UInt8.ofNat (tpb.take len.toNat).length = len := by
  rw [length_take, Nat.min_eq_left h, UInt8.ofNat_toNat]

theorem exists_mode (write : Bool) (rest : List UInt8) :
    ∃ mode : Option Op, (∀ op ∈ mode, op.Mode) ∧
      lockLevel write rest = (Item.level write mode, mode.isSome) ∧
      rest = mode.toList.map Op.code ++ if mode.isSome then rest.drop 1 else rest := by
  by_cases h : ∃ b ∈ rest.head?, ∃ op : Op, op.Mode ∧ b = op.code
  · obtain ⟨b, hb, op, hop, rfl⟩ := h
    obtain ⟨tail, rfl⟩ : ∃ tail, rest = op.code :: tail := by
      cases rest with
      | nil => cases hb
      | cons b tail => exact ⟨tail, by simpa using hb⟩
    exact ⟨some op, fun op' hop' => by cases hop'; exact hop, lockLevel_some write hop tail, rfl⟩
  · push Not at h
    exact ⟨none, fun op hop => (nomatch hop), lockLevel_none write h, rfl⟩

variable {fuel : Nat}

theorem outside_cases {t : Options} (h : (optionsLoop rel (fuel + 1) t tpb).outside = true) :
    (∃ op : Op, tpb = [op.code] ∧ (op = .tpbVerbTime ∨ op = .tpbCommitTime)) ∨
      ∃ i t' rest, Item.WellFormed i ∧ tpb = i.encode ++ rest ∧ i.apply rel t = some t' ∧
        (optionsLoop rel fuel t' rest).outside = true := by
  cases tpb with
  | nil => cases h
  | cons b tpb =>
    unfold optionsLoop at h
    cases hop : Op.ofByte b with
    | none =>
      rw [hop] at h
      cases h
    | some op =>
      rw [hop] at h
      obtain rfl := Op.code_of_ofByte hop
      dsimp only at h
      by_cases hlock : op = .tpbLockWrite ∨ op = .tpbLockRead
      · rw [if_pos hlock] at h
        cases tpb with
        | nil => cases h
        | cons len tpb =>
          dsimp only at h
          by_cases hname : len.toNat > maxSqlIdentifierLen
          · rw [if_pos hname] at h
            cases h
          rw [if_neg hname] at h
          by_cases hlen : tpb = [] ∨ tpb.length < len.toNat
          · rw [if_pos hlen] at h
            cases h
          · rw [if_neg hlen] at h
            rw [not_or, Nat.not_lt] at hlen
            obtain ⟨mode, hmode, hlevel, hrest⟩ :=
              exists_mode (op = .tpbLockWrite) (tpb.drop len.toNat)
            rw [hlevel] at h
            cases happly : reserve rel (tpb.take len.toNat)
                (Item.level (op = .tpbLockWrite) mode) t with
            | none =>
              rw [happly] at h
              cases h
            | some t' =>
              rw [happly] at h
              refine .inr ⟨.reserve (op = .tpbLockWrite) (tpb.take len.toNat) mode, t', _,
                ⟨?_, hmode⟩, ?_, happly, h⟩
              · rw [length_take]
                omega
              · have hcode : (if decide (op = .tpbLockWrite) = true then Op.tpbLockWrite
                    else .tpbLockRead) = op := by
                  obtain rfl | rfl := hlock <;> rfl
                simp only [Item.encode, Item.code, Item.value, hcode, ofNat_length_take hlen.2,
                  cons_append, append_assoc]
                rw [← hrest, take_append_drop]
      rw [if_neg hlock] at h
      by_cases htime : op = .tpbVerbTime ∨ op = .tpbCommitTime
      · rw [if_pos htime] at h
        cases tpb with
        | nil => exact .inl ⟨op, rfl, htime⟩
        | cons len tpb =>
          dsimp only at h
          by_cases hlen : len.toNat ≤ tpb.length
          · refine .inr ⟨.time (op = .tpbCommitTime) (tpb.take len.toNat), t, tpb.drop len.toNat,
              ?_, ?_, rfl, h⟩
            · change (tpb.take len.toNat).length ≤ 255
              have := len.toNat_lt
              rw [length_take]
              omega
            · have hcode : (if decide (op = .tpbCommitTime) = true then Op.tpbCommitTime
                  else .tpbVerbTime) = op := by
                obtain rfl | rfl := htime <;> rfl
              simp only [Item.encode, Item.code, Item.value, hcode, ofNat_length_take hlen,
                cons_append, take_append_drop]
          · rw [drop_eq_nil_of_le (by omega), optionsLoop_nil] at h
            cases h
      rw [if_neg htime] at h
      by_cases htimeout : op = .tpbLockTimeout
      · rw [if_pos htimeout] at h
        split_ifs at h with hwait
        · cases h
        · cases honce : t.lockTimeout.assignOnce true with
          | none =>
            rw [honce] at h
            cases h
          | some lockTimeout =>
            rw [honce] at h
            cases tpb with
            | nil => cases h
            | cons len tpb =>
              dsimp only at h
              split_ifs at h with hlen
              · cases h
              · rw [not_or, Nat.not_lt] at hlen
                refine .inr ⟨.timeout (tpb.take len.toNat), _, tpb.drop len.toNat, ?_, ?_, ?_, h⟩
                · change (tpb.take len.toNat).length ≤ 255
                  have := len.toNat_lt
                  rw [length_take]
                  omega
                · simp only [Item.encode, Item.code, Item.value, htimeout, ofNat_length_take hlen.2,
                    cons_append, take_append_drop]
                · simp only [Item.apply, hwait, honce]
                  rfl
      · rw [if_neg htimeout] at h
        cases happly : option op t with
        | none =>
          rw [happly] at h
          cases h
        | some t' =>
          rw [happly] at h
          refine .inr ⟨.option op, t', tpb, ?_, rfl, happly, h⟩
          unfold Item.WellFormed Op.HasValue
          grind

theorem exists_items {t : Options} (h : (optionsLoop rel fuel t tpb).outside = true) :
    ∃ (items : List Item) (op : Op), tpb = items.flatMap Item.encode ++ [op.code] ∧
      (op = .tpbVerbTime ∨ op = .tpbCommitTime) ∧ (∀ i ∈ items, i.WellFormed) ∧
        (applyAll rel t items).isSome := by
  induction fuel generalizing t tpb with
  | zero => cases h
  | succ fuel ih =>
    obtain ⟨op, rfl, hop⟩ | ⟨i, t', rest, hwf, rfl, happly, hrest⟩ := outside_cases h
    · exact ⟨[], op, rfl, hop, fun i hi => (nomatch hi), rfl⟩
    · obtain ⟨items, op, rfl, hop, hwf', hsome⟩ := ih hrest
      refine ⟨i :: items, op, by simp, hop, ?_, ?_⟩
      · rw [forall_mem_cons]
        exact ⟨hwf, hwf'⟩
      · rw [applyAll, happly]
        exact hsome

theorem chained_of_good {items : List Item} {op : Op} (hop : ¬ op.Mode)
    (h : ∀ i ∈ items, i.WellFormed ∧ i.Good rel) : Chained [op.code] items := by
  induction items with
  | nil => trivial
  | cons i items ih =>
    rw [forall_mem_cons] at h
    refine ⟨⟨fun _ => by simp, fun write name hi b hb op' hop' => ?_⟩, ih h.2⟩
    cases items with
    | nil =>
      obtain rfl : op.code = b := by simpa using hb
      intro he
      have := congrArg Op.ofByte he
      rw [Op.ofByte_code, Op.ofByte_code, Option.some.injEq] at this
      exact hop (this ▸ hop')
    | cons j items =>
      obtain rfl : j.code = b := by simpa [Item.encode] using hb
      intro he
      obtain ⟨hwf, hgood⟩ := (forall_mem_cons.mp h.2).1
      have hbyte := congrArg Op.ofByte he
      rw [Op.ofByte_code] at hbyte
      cases j with
      | option op'' =>
        rw [Item.code, Op.ofByte_code, Option.some.injEq] at hbyte
        exact hgood.2 (hbyte ▸ hop')
      | other b => exact hgood
      | time commit value =>
        rw [Item.code, Op.ofByte_code, Option.some.injEq] at hbyte
        subst hbyte
        cases commit <;> exact absurd hop' (by decide)
      | timeout value =>
        rw [Item.code, Op.ofByte_code, Option.some.injEq] at hbyte
        subst hbyte
        exact absurd hop' (by decide)
      | reserve write' name' mode =>
        rw [Item.code, Op.ofByte_code, Option.some.injEq] at hbyte
        subst hbyte
        cases write' <;> exact absurd hop' (by decide)

theorem length_le_flatMap_encode (items : List Item) :
    items.length ≤ (items.flatMap Item.encode).length := by
  induction items with
  | nil => exact le_rfl
  | cons i items ih =>
    rw [flatMap_cons, length_append, length_cons, Item.encode, length_cons]
    omega

theorem outside_iff (tpb : List UInt8) :
    (transactionOptions rel tpb).outside = true ↔ EndsInTime rel tpb := by
  have hafter : ({} : Options) = after rel [] := rfl
  constructor
  · intro h
    cases tpb with
    | nil => cases h
    | cons version tpb =>
      unfold transactionOptions at h
      dsimp only at h
      split_ifs at h with hversion
      · obtain ⟨items, op, rfl, hop, hwf, hsome⟩ := exists_items h
        obtain ⟨t, ht⟩ := Option.isSome_iff_exists.mp hsome
        rw [hafter, applyAll_after hwf t Pairwise.nil] at ht
        exact ⟨version, items, op, rfl, hversion, hop, fun i hi => ⟨hwf i hi, ht.1 i hi⟩, ht.2.1⟩
      · cases h
  · rintro ⟨version, items, op, rfl, hversion, hop, hitems, hpair⟩
    have hmode : ¬ op.Mode := by obtain rfl | rfl := hop <;> decide
    have hwf := fun i hi => (hitems i hi).1
    have hlen := length_le_flatMap_encode items
    have happly := (applyAll_after hwf (after rel ([] ++ items)) Pairwise.nil).mpr
      ⟨fun i hi => (hitems i hi).2, hpair, rfl⟩
    rw [← hafter] at happly
    unfold transactionOptions
    dsimp only
    rw [if_pos hversion, optionsLoop_items hwf (chained_of_good hmode hitems) (by
      rw [length_append]
      omega), happly]
    obtain ⟨fuel, hfuel⟩ : ∃ fuel, (items.flatMap Item.encode ++ [op.code]).length - items.length =
        fuel + 1 := by
      refine ⟨(items.flatMap Item.encode ++ [op.code]).length - items.length - 1, ?_⟩
      rw [length_append, length_singleton]
      omega
    rw [hfuel]
    obtain rfl | rfl := hop <;> rfl

/-- Options that do not exclude one another, whatever their order. -/
structure LegalOptions (rel : Relations) (items : List Item) : Prop where
  good : ∀ i ∈ items, i.Good rel
  compatible : items.Pairwise fun i j => Item.Compatible i j ∧ Item.Compatible j i
  readCommitted : items.any Item.isRecVersion = true →
    items.any (· = .option .tpbReadCommitted) = true

/-- The last item is a lock time-out without a value. -/
def EndsEmpty (items : List Item) : Prop := items.getLast? = some (.timeout [])

variable {items items' : List Item}

theorem LegalOptions.perm (h : LegalOptions rel items) (hperm : items.Perm items') :
    LegalOptions rel items' :=
  ⟨fun i hi => h.good i (hperm.mem_iff.mpr hi), hperm.pairwise h.compatible fun hij => hij.symm,
    fun hrec => hperm.any_eq ▸ h.readCommitted (hperm.any_eq ▸ hrec)⟩

theorem legalOptions_iff : LegalOptions rel items ↔
    (∀ i ∈ items, i.Good rel) ∧ items.Pairwise Item.Compatible ∧
      (items.any Item.isRecVersion && !items.any (· = .option .tpbReadCommitted)) = false := by
  have htest : (items.any Item.isRecVersion && !items.any (· = .option .tpbReadCommitted)) = false ↔
      (items.any Item.isRecVersion = true → items.any (· = .option .tpbReadCommitted) = true) := by
    cases items.any Item.isRecVersion <;> cases items.any (· = .option .tpbReadCommitted) <;> decide
  rw [htest]
  constructor
  · exact fun h => ⟨h.good, h.compatible.imp And.left, h.readCommitted⟩
  · rintro ⟨hgood, hpair, hrc⟩
    refine ⟨hgood, hpair.imp_of_mem fun {i j} hi hj hij => ⟨hij, ?_⟩, hrc⟩
    refine ⟨fun h h' => hij.isolation h' h, fun h h' => hij.recVersion h' h,
      fun h h' => hij.wait h' h, fun h h' => hij.access h' h, fun h h' => hij.timeout h' h,
      fun h h' => hij.nowait' h' h, fun h h' => hij.nowait h' h, fun h hne hrec => ?_⟩
    exact hne (isolation_unique hpair (hrc (any_eq_true.mpr ⟨i, hi, hrec⟩)) hj h)

def encodeTpb (version : UInt8) (items : List Item) : List UInt8 :=
  version :: items.flatMap Item.encode

theorem chained_of_plain {rest : List UInt8} (hplain : ∀ i ∈ items, i.Plain)
    (hend : rest = [] → ¬ EndsEmpty items) : Chained rest items := by
  induction items with
  | nil => trivial
  | cons i items ih =>
    rw [forall_mem_cons] at hplain
    refine ⟨⟨fun hopen hnil => ?_, fun write name hi => ?_⟩, ih hplain.2 fun hrest hempty => ?_⟩
    · rw [append_eq_nil_iff] at hnil
      have hitems : items = [] := by
        cases items with
        | nil => rfl
        | cons j items => cases hnil.1
      refine hend hnil.2 ?_
      subst hitems
      cases i with
      | timeout value => exact congrArg (fun v => some (Item.timeout v)) hopen
      | reserve write name mode => exact False.elim hplain.1
      | option op => exact False.elim hopen
      | other b => exact False.elim hopen
      | time commit value => exact False.elim hopen
    · subst hi
      exact False.elim hplain.1
    · refine hend hrest ?_
      unfold EndsEmpty at hempty ⊢
      cases items with
      | nil => cases hempty
      | cons j items => rwa [getLast?_cons_cons]

theorem finish_after (hplain : ∀ i ∈ items, i.Plain) :
    finish rel (after rel items) =
      if (items.any Item.isRecVersion && !items.any (· = .option .tpbReadCommitted)) then none
      else some (after rel items) := by
  have hlocks : (after rel items).traRelationLocks = [] := by
    change (items.flatMap fun i => (i.locks rel).getD []) = []
    rw [flatMap_eq_nil_iff]
    intro i hi
    have := hplain i hi
    cases i with
    | reserve write name mode => exact False.elim this
    | option op => rfl
    | other b => rfl
    | time commit value => rfl
    | timeout value => rfl
  unfold finish
  rw [if_pos hlocks]
  rfl

theorem optionsLoop_endsEmpty (hitems : ∀ i ∈ items, i.WellFormed ∧ i.Plain) (h : EndsEmpty items)
    (hfuel : items.length ≤ fuel) (t : Options) :
    optionsLoop rel fuel t (items.flatMap Item.encode) = .rejected := by
  obtain ⟨init, rfl⟩ := getLast?_eq_some_iff.mp h
  have hinit := fun i hi => hitems i (mem_append_left _ hi)
  rw [length_append, length_singleton] at hfuel
  have hloop := @optionsLoop_items rel (Item.timeout []).encode init fuel t
    (fun i hi => (hinit i hi).1)
    (chained_of_plain (fun i hi => (hinit i hi).2) fun hnil => (nomatch hnil)) (by omega)
  rw [flatMap_append, flatMap_singleton, hloop]
  cases applyAll rel t init with
  | none => rfl
  | some t => exact optionsLoop_timeout_nil.resolve_right (by omega)

/-- The bytes of items that are no reservations are accepted exactly if the options are legal and
the last of them is not a lock time-out without a value. -/
theorem result_encodeTpb (version : UInt8) (hitems : ∀ i ∈ items, i.WellFormed ∧ i.Plain) :
    (versionOk version ∧ LegalOptions rel items ∧ ¬ EndsEmpty items ∧
      (transactionOptions rel (encodeTpb version items)).result = some (after rel items)) ∨
    (¬ (versionOk version ∧ LegalOptions rel items ∧ ¬ EndsEmpty items) ∧
      (transactionOptions rel (encodeTpb version items)).result = none) := by
  have hlen := length_le_flatMap_encode items
  have hafter : ({} : Options) = after rel [] := rfl
  unfold encodeTpb transactionOptions
  dsimp only
  by_cases hversion : versionOk version
  swap
  · rw [if_neg hversion]
    exact .inr ⟨fun h => hversion h.1, rfl⟩
  rw [if_pos hversion]
  by_cases hend : EndsEmpty items
  · rw [optionsLoop_endsEmpty hitems hend hlen]
    exact .inr ⟨fun h => h.2.2 hend, rfl⟩
  have hwf := fun i hi => (hitems i hi).1
  have hplain := fun i hi => (hitems i hi).2
  have hloop := @optionsLoop_items rel [] items (items.flatMap Item.encode).length {} hwf
    (chained_of_plain hplain fun _ => hend) hlen
  rw [append_nil] at hloop
  rw [hloop, legalOptions_iff]
  have happly := fun t => @applyAll_after rel items hwf t [] Pairwise.nil
  rw [← hafter] at happly
  cases hresult : applyAll rel {} items with
  | none =>
    refine .inr ⟨fun h => ?_, rfl⟩
    have := (happly _).mpr ⟨h.2.1.1, h.2.1.2.1, rfl⟩
    rw [hresult] at this
    cases this
  | some t =>
    obtain ⟨hgood, hpair, rfl⟩ := (happly t).mp hresult
    have hnil (fuel : Nat) : (optionsLoop rel fuel (after rel items) []).result =
        finish rel (after rel items) := by
      cases fuel <;> rfl
    dsimp only [nil_append]
    rw [hnil, finish_after hplain]
    cases items.any Item.isRecVersion && !items.any (· = .option .tpbReadCommitted) with
    | true => exact .inr ⟨fun h => Bool.noConfusion h.2.1.2.2, rfl⟩
    | false => exact .inl ⟨hversion, ⟨hgood, hpair, rfl⟩, hend, rfl⟩

/-- Both blocks are rejected, or both are accepted with the same flags and lock time-out. -/
def SameOutcome (r r' : Walk) : Prop :=
  (r.result = none ∧ r'.result = none) ∨
    ∃ t t', r.result = some t ∧ r'.result = some t' ∧ t.traFlags = t'.traFlags ∧
      t.traLockTimeout = t'.traLockTimeout

theorem timeoutOf_perm (hpair : items.Pairwise Item.Compatible) (hperm : items.Perm items') :
    timeoutOf items = timeoutOf items' := by
  have hp : (items.filterMap Item.timeoutValue).Perm (items'.filterMap Item.timeoutValue) :=
    hperm.filterMap _
  have hone : (items.filterMap Item.timeoutValue).Pairwise fun _ _ => False := by
    rw [pairwise_filterMap]
    exact hpair.imp fun hij v hv v' hv' =>
      hij.timeout (by simp [Item.isTimeout, hv]) (by simp [Item.isTimeout, hv'])
  have heq : items.filterMap Item.timeoutValue = items'.filterMap Item.timeoutValue := by
    cases hlist : items.filterMap Item.timeoutValue with
    | nil =>
      rw [hlist] at hp
      exact hp.nil_eq
    | cons v rest =>
      rw [hlist] at hp hone
      cases rest with
      | nil => exact (perm_singleton.mp hp.symm).symm
      | cons v' rest => exact False.elim ((pairwise_cons.mp hone).1 v' mem_cons_self)
  unfold timeoutOf
  rw [heq, hperm.any_eq]

theorem after_perm (hpair : items.Pairwise Item.Compatible) (hperm : items.Perm items') :
    (after rel items).traFlags = (after rel items').traFlags ∧
      (after rel items).traLockTimeout = (after rel items').traLockTimeout := by
  refine ⟨?_, timeoutOf_perm hpair hperm⟩
  unfold after
  simp [hperm.any_eq]

/-- `transaction_options` reads no byte behind a block unless that ends in a time without a length,
and two orders of the same options come to the same unless one of them, and not the other, ends in
a lock time-out without a value. -/
theorem transaction_options_iff (rel : Relations) :
    (∀ tpb, (transactionOptions rel tpb).outside = false ↔ ¬ EndsInTime rel tpb) ∧
    ∀ version items items', items.Perm items' → (∀ i ∈ items, i.WellFormed ∧ i.Plain) →
      (SameOutcome (transactionOptions rel (encodeTpb version items))
          (transactionOptions rel (encodeTpb version items')) ↔
        (EndsEmpty items ↔ EndsEmpty items') ∨
          ¬ (versionOk version ∧ LegalOptions rel items)) := by
  refine ⟨fun tpb => ?_, fun version items items' hperm hitems => ?_⟩
  · rw [← outside_iff, Bool.not_eq_true]
  · have hitems' := fun i hi => hitems i (hperm.mem_iff.mpr hi)
    have hlegal : LegalOptions rel items ↔ LegalOptions rel items' :=
      ⟨fun h => h.perm hperm, fun h => h.perm hperm.symm⟩
    obtain ⟨hv, hl, he, hr⟩ | ⟨hno, hr⟩ := @result_encodeTpb rel _ version hitems <;>
      obtain ⟨hv', hl', he', hr'⟩ | ⟨hno', hr'⟩ := @result_encodeTpb rel _ version hitems'
    · have hsame := @after_perm rel _ _ (legalOptions_iff.mp hl).2.1 hperm
      exact iff_of_true (.inr ⟨_, _, hr, hr', hsame⟩) (.inl (iff_of_false he he'))
    · have he' : EndsEmpty items' := by
        by_contra he'
        exact hno' ⟨hv, hlegal.mp hl, he'⟩
      refine iff_of_false ?_ ?_
      · rintro (⟨h, -⟩ | ⟨t, t', -, h, -⟩)
        · rw [hr] at h
          cases h
        · rw [hr'] at h
          cases h
      · rintro (h | h)
        · exact he (h.mpr he')
        · exact h ⟨hv, hl⟩
    · have he : EndsEmpty items := by
        by_contra he
        exact hno ⟨hv', hlegal.mpr hl', he⟩
      refine iff_of_false ?_ ?_
      · rintro (⟨-, h⟩ | ⟨t, t', h, -⟩)
        · rw [hr'] at h
          cases h
        · rw [hr] at h
          cases h
      · rintro (h | h)
        · exact he' (h.mp he)
        · exact h ⟨hv', hlegal.mpr hl'⟩
    · refine iff_of_true (.inl ⟨hr, hr'⟩) ?_
      by_cases h : versionOk version ∧ LegalOptions rel items
      · left
        refine iff_of_true ?_ ?_
        · by_contra he
          exact hno ⟨h.1, h.2, he⟩
        · by_contra he
          exact hno' ⟨h.1, hlegal.mp h.2, he⟩
      · exact .inr h

def noRelations : Relations := ⟨fun _ => none, fun _ => none, fun _ _ => true⟩

/-- `isc_tpb_wait` and a lock time-out of five seconds, in both orders. -/
theorem transaction_options_iff_wait :
    let items : List Item := [.option .tpbWait, .timeout [5]]
    let items' : List Item := [.timeout [5], .option .tpbWait]
    encodeTpb 3 items = [3, 6, 21, 1, 5] ∧ encodeTpb 3 items' = [3, 21, 1, 5, 6] ∧
      SameOutcome (transactionOptions noRelations (encodeTpb 3 items))
        (transactionOptions noRelations (encodeTpb 3 items')) := by
  intro items items'
  have hitems : ∀ i ∈ items, i.WellFormed ∧ i.Plain := by
    simp only [items, forall_mem_cons, not_mem_nil, false_implies, implies_true, and_true]
    have hwait : ¬ Op.tpbWait.HasValue := by decide
    have hvalue : [(5 : UInt8)].length ≤ 255 := by decide
    exact ⟨⟨hwait, trivial⟩, hvalue, trivial⟩
  refine ⟨rfl, rfl, ?_⟩
  refine ((transaction_options_iff noRelations).2 3 items items' (Perm.swap _ _ _) hitems).mpr
    ?_
  exact .inl (iff_of_false (fun h => nomatch h) fun h => nomatch h)

/-- `isc_tpb_verb_time` in the last place makes `transaction_options` read the byte behind the
block. With a lock time-out without a value, one order of two options is rejected and the other one
is not. -/
theorem transaction_options_unsafe :
    (transactionOptions noRelations [3, 12]).outside = true ∧
      let items : List Item := [.option .tpbWait, .timeout []]
      let items' : List Item := [.timeout [], .option .tpbWait]
      items.Perm items' ∧ encodeTpb 3 items = [3, 6, 21, 0] ∧ encodeTpb 3 items' = [3, 21, 0, 6] ∧
        (transactionOptions noRelations (encodeTpb 3 items)).result = none ∧
        (transactionOptions noRelations (encodeTpb 3 items')).result.isSome ∧
        ¬ SameOutcome (transactionOptions noRelations (encodeTpb 3 items))
          (transactionOptions noRelations (encodeTpb 3 items')) := by
  have hnone : (transactionOptions noRelations [3, 6, 21, 0]).result = none := by decide +kernel
  have hsome : (transactionOptions noRelations [3, 21, 0, 6]).result.isSome := by decide +kernel
  refine ⟨by decide +kernel, Perm.swap _ _ _, rfl, rfl, hnone, hsome, ?_⟩
  rintro (⟨-, h⟩ | ⟨t, t', h, -⟩)
  · change (transactionOptions noRelations [3, 21, 0, 6]).result = none at h
    rw [h] at hsome
    cases hsome
  · change (transactionOptions noRelations [3, 6, 21, 0]).result = some t at h
    cases h

end Firebird.Jrd.Tpb
