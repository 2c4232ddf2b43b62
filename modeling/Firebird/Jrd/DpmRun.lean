import Firebird.Jrd.DpmUpdate

/-!
# Runs on a data page

Any sequence of operations on a data page keeps its layout, if no record is asked for that is too
short or too long.
-/
namespace Firebird.Jrd.Dpm

open List

inductive Action where
  /-- `find_space`, and the record that is stored there. -/
  | findSpace (size : Int) (primary reserving : Bool) (record : List UInt8)
  | chain (pageNumber : UInt32) (line : Nat) (rpb : Rpb) (data : List UInt8)
  | update (line : Nat) (rpb : Rpb) (data : List UInt8) (f : Fragment)
  | backout (line bLine : Nat)
  | delete (line : Nat)
  | compress

/-- The slot that an operation hands out, if any, and the page. -/
def Action.apply (w : Int → Option Int) (page : DataPage) : Action → Option (Option Nat × DataPage)
  | .findSpace size primary reserving record => storeRecord w page size primary reserving record
  | .chain pageNumber line rpb data => do
    match ← dpmChain w page pageNumber line rpb data with
    | none => return (none, page)
    | some (slot, page) => return (some slot, page)
  | .update line rpb data f => dpmUpdate w page line rpb data f
  | .backout line bLine => some (none, dpmBackout page line bLine)
  | .delete line => do return (none, ← dpmDelete page line)
  | .compress => do
    let (_, page) ← dpmCompress w page
    return (none, page)

def Action.named : Action → List Nat
  | .findSpace .. | .compress => []
  | .chain _ line _ _ | .update line _ _ _ | .delete line => [line]
  | .backout line bLine => [line, bLine]

/-- The slots that an operation is called with have records, and a record that is fragmented is long
enough for the header of its head. -/
def Action.Names (page : DataPage) (a : Action) : Prop :=
  (∀ line ∈ a.named, (page.slot line).dpgOffset ≠ 0) ∧
    match a with
    | .update line _ data _ =>
      page.free line < rup (recordLength data) → 22 ≤ (page.slot line).dpgLength
    | .backout line bLine => line ≠ bLine
    | _ => True

/-- A size that `find_space` can be asked for. -/
def Asked (size : Int) : Prop := 17 ≤ size ∧ size ≤ 32764

/-- The sizes that an operation asks `find_space` for. -/
def Action.Asks : Action → Prop
  | .findSpace size _ _ _ => Asked size
  | .update _ _ _ f => ∀ t ∈ f.tail, Asked t.1
  | _ => True

/-- What is handed out was free, and is as long as it was asked for. -/
def Action.Granted (page page' : DataPage) (slot : Option Nat) (a : Action) : Prop :=
  (∀ k ∈ slot, (page.slot k).dpgOffset = 0) ∧
    match a with
    | .findSpace size _ _ _ => ∀ k ∈ slot, size ≤ (page'.slot k).dpgLength
    | .chain _ line _ data => slot ≠ none → 13 + data.length ≤ (page'.slot line).dpgLength
    | .update line _ data f =>
      (∀ k ∈ slot, ∀ t ∈ f.tail, t.1 ≤ (page'.slot k).dpgLength) ∧
        (rup (recordLength data) ≤ page.free line → 13 + data.length ≤ (page'.slot line).dpgLength)
    | _ => True

theorem Action.apply_gives {page : DataPage} (h : Laid page) {a : Action} (hnames : a.Names page)
    (hasks : a.Asks) :
    ∃ slot page', Gives (fun w => a.apply w page) (slot, page') ∧
      Next page page' (a.named ++ slot.toList) ∧ a.Granted page page' slot := by
  cases a with
  | findSpace size primary reserving record =>
    obtain ⟨hlo, hhi⟩ := hasks
    obtain ⟨n, rfl⟩ := Int.eq_ofNat_of_zero_le (Int.le_trans (by decide) hlo)
    obtain ⟨slot, page', hgives, hnext, hplaced⟩ := storeRecord_gives h (Int.ofNat_le.1 hlo)
      (Int.ofNat_le.1 hhi) primary reserving record
    exact ⟨slot, page', hgives, hnext, fun k hk => (hplaced k hk).free,
      fun k hk => Int.ofNat_le.2 (hplaced k hk).length.ge⟩
  | chain pageNumber line rpb data =>
    obtain ⟨res, hgives, hres⟩ := dpmChain_gives h (hnames.1 line mem_cons_self) pageNumber rpb data
    cases res with
    | none =>
      exact ⟨none, page, hgives.bind (gives_some _), h.next.mono (nil_subset _),
        (fun _ hk => nomatch hk), fun hne => absurd rfl hne⟩
    | some res =>
      obtain ⟨hnext, hfree, hlen⟩ := hres res.1 res.2 rfl
      refine ⟨some res.1, res.2, hgives.bind (gives_some _), hnext, ?_, fun _ => hlen⟩
      rintro _ ⟨⟩
      exact hfree
  | update line rpb data f =>
    obtain ⟨slot, page', hgives, hnext, hslot, hlen⟩ := dpmUpdate_gives h
      (hnames.1 line mem_cons_self) rpb hnames.2 hasks
    exact ⟨slot, page', hgives, hnext, fun k hk => (hslot k hk).1, fun k hk => (hslot k hk).2, hlen⟩
  | backout line bLine =>
    have hnext := dpmBackout_next hnames.2 (hnames.1 line mem_cons_self)
      (hnames.1 bLine (mem_cons_of_mem _ mem_cons_self)) h
    exact ⟨none, _, gives_some _, hnext, (fun _ hk => nomatch hk), trivial⟩
  | delete line =>
    obtain ⟨page', hdelete, hnext⟩ := dpmDelete_next h (hnames.1 line mem_cons_self)
    refine ⟨none, page', ?_, hnext, (fun _ hk => nomatch hk), trivial⟩
    intro w _
    simp only [Action.apply, hdelete]
    rfl
  | compress =>
    obtain ⟨page', hgives, hroom⟩ := dpmCompress_room h.toWellFormed h.size h.empty
    have hlaid := h.of_kept hroom.size hroom.wellFormed hroom.kept
      (fun i hi => absurd hi not_mem_nil) (fun i hi => absurd hi not_mem_nil)
    exact ⟨none, page', hgives.bind (gives_some _), ⟨hlaid, hroom.size, hroom.kept⟩,
      (fun _ hk => nomatch hk), trivial⟩

def emptyPage (pageSize : Nat) (bytes : Nat → UInt8) : DataPage := ⟨pageSize, [], bytes⟩

/-- The pages that a sequence of operations makes of an empty page. -/
inductive Reach (ok : DataPage → Action → Prop) (pageSize : Nat) : DataPage → Prop
  | empty (bytes : Nat → UInt8) : Reach ok pageSize (emptyPage pageSize bytes)
  | step {page page' : DataPage} {a : Action} {slot : Option Nat} :
    Reach ok pageSize page → ok page a → a.apply wrap page = some (slot, page') →
      Reach ok pageSize page'

theorem laid_emptyPage {pageSize : Nat} (hmin : 24 ≤ pageSize) (hmax : pageSize ≤ 16384)
    (hfour : 4 ∣ pageSize) (bytes : Nat → UInt8) : Laid (emptyPage pageSize bytes) where
  high := hmin
  within _ hi := absurd rfl hi
  apart _ _ _ hi := absurd rfl hi
  size := hmax
  aligned := hfour
  empty _ _ := rfl
  long _ hi := absurd rfl hi

theorem Reach.laid {pageSize : Nat} {page : DataPage} (hmin : 24 ≤ pageSize)
    (hmax : pageSize ≤ 16384)
    (hfour : 4 ∣ pageSize) (h : Reach (fun page a => a.Names page ∧ a.Asks) pageSize page) :
    Laid page := by
  induction h with
  | empty bytes => exact laid_emptyPage hmin hmax hfour bytes
  | step _ hok happly ih =>
    obtain ⟨slot, page', hgives, hnext, _⟩ := Action.apply_gives ih hok.1 hok.2
    cases happly.symm.trans (hgives wrap keeps_wrap)
    exact hnext.laid

/-- After any sequence of operations the records do not overlap and lie behind the slots, and any
further operation keeps it so, without an overflow: it keeps the records that it does not name, and
what it hands out is free and as long as asked for. -/
theorem data_page_layout {pageSize : Nat} (hmin : 24 ≤ pageSize) (hmax : pageSize ≤ 16384)
    (hfour : 4 ∣ pageSize) {page : DataPage}
    (h : Reach (fun page a => a.Names page ∧ a.Asks) pageSize page) :
    WellFormed page ∧ ∀ a : Action, a.Names page → a.Asks → ∃ slot page',
      a.apply checked page = some (slot, page') ∧ a.apply wrap page = some (slot, page') ∧
      WellFormed page' ∧ Kept page page' (a.named ++ slot.toList) ∧ a.Granted page page' slot := by
  have hlaid := h.laid hmin hmax hfour
  refine ⟨hlaid.toWellFormed, fun a hnames hasks => ?_⟩
  obtain ⟨slot, page', hgives, hnext, hgranted⟩ := Action.apply_gives hlaid hnames hasks
  exact ⟨slot, page', hgives checked keeps_checked, hgives wrap keeps_wrap, hnext.laid.toWellFormed,
    hnext.kept, hgranted⟩

/-- A record and a new version of it. -/
theorem data_page_layout_chain : ∃ page,
    Reach (fun page a => a.Names page ∧ a.Asks) 1024 page ∧ (page.slot 0).dpgOffset = 992 ∧
      ∃ slot page', (Action.chain 7 0 ⟨5, 0, 0, 0, 1⟩ [1, 2, 3]).apply wrap page = some
        (slot, page') ∧
        WellFormed page' ∧ Kept page page' ([0] ++ slot.toList) := by
  obtain ⟨page, happly, hoffset⟩ : ∃ page, (Action.findSpace 30 true true [1]).apply wrap
      (emptyPage 1024 fun _ => 0) = some (some 0, page) ∧ (page.slot 0).dpgOffset = 992 :=
    ⟨_, rfl, by decide⟩
  have hreach : Reach (fun page a => a.Names page ∧ a.Asks) 1024 page :=
    (Reach.empty _).step (a := .findSpace 30 true true [1])
      ⟨⟨fun _ h => absurd h not_mem_nil, trivial⟩, by decide, by decide⟩ happly
  obtain ⟨slot, page', -, hwrap, hwf, hkept, -⟩ :=
    (data_page_layout (by decide) (by decide) (by decide)
    hreach).2 (.chain 7 0 ⟨5, 0, 0, 0, 1⟩ [1, 2, 3]) ⟨fun line hl => by
      rw [mem_singleton.1 hl, hoffset]
      decide, trivial⟩ trivial
  exact ⟨page, hreach, hoffset, slot, page', hwrap, hwf, hkept⟩

def shortRecords (n : Nat) : DataPage where
  dbbPageSize := 16384
  dpgRpt := (List.range n).map fun i => ⟨16384 - 16 * (i + 1), 16⟩
  bytes _ := 0

theorem shortRecords_succ (n : Nat) : (shortRecords (n + 1)).dpgRpt =
    (shortRecords n).dpgRpt ++ [⟨16384 - 16 * (n + 1), 16⟩] := by
  unfold shortRecords
  rw [range_succ, map_append, map_singleton]

theorem dpgCount_shortRecords (n : Nat) : (shortRecords n).dpgCount = n := by
  simp [DataPage.dpgCount, shortRecords]

variable {n : Nat}

theorem total_shortRecords (h : n ≤ 780) : total (shortRecords n).dpgRpt = 16 * n := by
  induction n with
  | zero => rfl
  | succ n ih =>
    have ih := ih (by omega)
    unfold total at ih ⊢
    rw [shortRecords_succ, map_append, sum_append, ih]
    simp only [map_singleton]
    rw [if_neg (by omega)]
    rfl

theorem lowest_shortRecords (h : n ≤ 780) :
    lowest (shortRecords n).dpgRpt 16384 = 16384 - 16 * n := by
  induction n with
  | zero => rfl
  | succ n ih =>
    have ih := ih (by omega)
    unfold lowest at ih ⊢
    rw [shortRecords_succ, foldl_append, ih, foldl_cons, foldl_nil]
    dsimp only
    rw [if_neg (by omega)]
    omega

theorem offset_shortRecords (h : n ≤ 780) {s : DpgRepeat}
    (hs : s ∈ (shortRecords n).dpgRpt) :
    s.dpgOffset ≠ 0 ∧ s.dpgOffset ≤ 16384 := by
  obtain ⟨i, hi, rfl⟩ := mem_map.1 hs
  have := mem_range.1 hi
  dsimp only
  omega

theorem takeSpace_shortRecords (h : n < 780) :
    Gives (fun w => takeSpace w (shortRecords n) 16 16 ((16384 - 16 * n : Nat) : Int) 0)
      (n, shortRecords (n + 1)) := by
  have hcount := dpgCount_shortRecords n
  refine Gives.ite_bind (Gives.ite_neg (gives_some _) ?_) ?_
  · rw [hcount]
    unfold highWater sizeofDataPage sizeofDpgRepeat
    omega
  · dsimp only
    refine (gives_sub (n := 16) (by omega) (by omega)).bind ?_
    rw [if_pos rfl, hcount, ushort_natCast (by omega)]
    have hpage : ((shortRecords n).extend n).setSlot n ⟨16384 - 16 * n - 16, ushort 16⟩ =
        shortRecords (n + 1) := by
      unfold DataPage.extend
      rw [if_pos hcount.symm]
      unfold DataPage.setSlot
      have hset : ((shortRecords n).dpgRpt ++ [(⟨0, 0⟩ : DpgRepeat)]).set n
        ⟨16384 - 16 * n - 16, ushort 16⟩ =
          (shortRecords (n + 1)).dpgRpt := by
        rw [shortRecords_succ, set_append_right _ _ (Nat.le_of_eq hcount),
          show n - (shortRecords n).dpgRpt.length = 0 from Nat.sub_eq_zero_of_le
            (Nat.le_of_eq hcount.symm)]
        rfl
      rw [hset]
      rfl
    rw [hpage]
    exact gives_some _

theorem storeRecord_shortRecords (h : n < 780) :
    storeRecord wrap (shortRecords n) 16 false false [] = some (some n, shortRecords (n + 1)) := by
  have hcount := dpgCount_shortRecords n
  have htotal := total_shortRecords h.le
  let reserves : Nat → Bool := fun offset => false && false && (shortRecords n).reserves offset
  have hreserved : reserved reserves (shortRecords n).dpgRpt = 0 :=
    countP_eq_zero.2 fun s _ => by simp [reserves]
  obtain ⟨slot, hscan, hslot⟩ := findSlots_gives reserves (shortRecords n).dpgRpt 0 16384
    (24 + 4 * n) 0 (Nat.le_refl _) (by omega) fun s hs => (offset_shortRecords h.le hs).2
  rw [htotal, hreserved, lowest_shortRecords h.le] at hscan
  have hzero : slot = 0 := by
    obtain hz | ⟨k, s, -, hk, hs⟩ := hslot
    · exact hz
    · exact absurd hs (offset_shortRecords h.le (mem_of_getElem? hk)).1
  subst hzero
  have hgives : Gives (fun w => findSpace w (shortRecords n) 16 false false)
      (some (n, shortRecords (n + 1))) := by
    unfold findSpace
    rw [highWater_natCast, hcount]
    refine (gives_nat (n := 16) (by omega)).bind ((gives_nat (n := 16384) (by omega)).bind
      ((gives_nat (by omega)).bind (hscan.bind ?_)))
    refine Gives.ite_pos ((gives_add (n := 4) (by omega)).bind (Gives.ite_neg
      ((takeSpace_shortRecords h).bind (gives_some _)) ?_)) rfl
    change ¬(16 : Int) > (16384 : Nat) - _
    omega
  have hstore : Gives (fun w => storeRecord w (shortRecords n) 16 false false [])
      (some n, shortRecords (n + 1)) := by
    refine hgives.bind ?_
    dsimp only
    have hwrite : (shortRecords (n + 1)).write ((shortRecords (n + 1)).slot n).dpgOffset
        [(0, List.take (16 : Int).toNat [])] = shortRecords (n + 1) := by
      unfold DataPage.write
      congr 1
      funext a
      exact if_neg (by simp)
    rw [hwrite]
    exact gives_some _
  exact hstore wrap keeps_wrap

theorem checked_eq {x y : Int} (h : checked x = some y) : y = x ∧ x < 2 ^ 15 := by
  unfold checked at h
  split_ifs at h with hx
  exact ⟨(Option.some.inj h).symm, hx.2⟩

theorem findSlots_checked {reserves : Nat → Bool} {slots : List DpgRepeat} {i slot slot' : Nat}
    {space used space' used' : Int} (hused : used < 2 ^ 15)
    (h : findSlots checked reserves slots i space used slot = some (space', used', slot')) :
    used' < 2 ^ 15 ∧ used' = used + total slots + 22 * reserved reserves slots := by
  induction slots generalizing i space used slot with
  | nil =>
    cases h
    exact ⟨hused, by simp [reserved]⟩
  | cons s slots ih =>
    rw [total_cons, reserved_cons]
    unfold findSlots at h
    by_cases hz : s.dpgOffset = 0
    · rw [if_neg (not_not.2 hz)] at h
      obtain ⟨hlt', rfl⟩ := ih hused h
      rw [if_pos hz, if_neg fun h' => h'.1 hz]
      exact ⟨hlt', by omega⟩
    rw [if_pos hz] at h
    by_cases hr : reserves s.dpgOffset
    · simp only [if_pos hr, Option.bind_eq_bind, Option.bind_eq_some_iff] at h
      obtain ⟨space₁, -, used₁, h₁, used₂, h₂, h⟩ := h
      obtain ⟨rfl, -⟩ := checked_eq h₁
      obtain ⟨rfl, hlt⟩ := checked_eq h₂
      obtain ⟨hlt', rfl⟩ := ih hlt h
      rw [if_neg hz, if_pos ⟨hz, hr⟩, roundup_natCast]
      refine ⟨hlt', ?_⟩
      unfold rhdfSize
      omega
    · simp only [if_neg hr, Option.bind_eq_bind, Option.bind_eq_some_iff, Option.bind_some] at h
      obtain ⟨space₁, -, used₁, h₁, h⟩ := h
      obtain ⟨rfl, hlt⟩ := checked_eq h₁
      obtain ⟨hlt', rfl⟩ := ih hlt h
      rw [if_neg hz, if_neg fun h' => hr h'.2, roundup_natCast]
      exact ⟨hlt', by omega⟩

theorem reserves_shortRecords (n offset : Nat) : (shortRecords n).reserves offset = true := by
  refine decide_eq_true ⟨decide_eq_true ⟨rfl, rfl, rfl, rfl⟩, ?_⟩
  change ((0 : UInt8).toUInt16 ||| (0 : UInt8).toUInt16 <<< 8) &&&
    (rhdChain ||| rhdBlob ||| rhdDeleted ||| rhdFragment) = 0
  decide

theorem findSpace_shortRecords : findSpace checked (shortRecords 780) 17 true true = none := by
  refine Option.eq_none_iff_forall_ne_some.2 fun res h => ?_
  simp only [findSpace, Option.bind_eq_bind, Option.bind_eq_some_iff, dpgCount_shortRecords] at h
  obtain ⟨aligned, -, space, -, used, hused, ⟨space', used', slot'⟩, hscan, -⟩ := h
  obtain ⟨rfl, hlt⟩ := checked_eq hused
  obtain ⟨hlt', rfl⟩ := findSlots_checked hlt hscan
  have hreserved : reserved (fun offset => true && true && (shortRecords 780).reserves offset)
      (shortRecords 780).dpgRpt = 780 := by
    refine Eq.trans (countP_eq_length.2 fun s hs => ?_) (dpgCount_shortRecords 780)
    simp [reserves_shortRecords, (offset_shortRecords (Nat.le_refl _) hs).1]
  rw [hreserved, total_shortRecords (Nat.le_refl _), highWater_natCast] at hlt'
  omega

/-- A size of 32765 makes a record that is not on the page. After 780 records of size 16,
`find_space` overflows. -/
theorem sizes_not_arbitrary :
    (∃ page', (Action.findSpace 32765 true true []).apply wrap (emptyPage 16384 fun _ => 0) =
      some (some 0, page') ∧ ¬WellFormed page') ∧
    ∃ page, Reach (fun page a => a.Names page) 16384 page ∧
      (Action.findSpace 17 true true []).apply checked page = none := by
  refine ⟨⟨_, rfl, fun h => ?_⟩, shortRecords 780, ?_, ?_⟩
  · have hwithin := (h.within 0 (by decide)).2
    exact absurd hwithin (by decide)
  · have hreach : ∀ n ≤ 780, Reach (fun page a => a.Names page) 16384 (shortRecords n) := by
      intro n hn
      induction n with
      | zero => exact .empty _
      | succ n ih =>
        exact (ih (by omega)).step (a := .findSpace 16 false false [])
          ⟨fun _ h => absurd h not_mem_nil, trivial⟩ (storeRecord_shortRecords (by omega))
    exact hreach 780 (Nat.le_refl _)
  · change storeRecord checked (shortRecords 780) 17 true true [] = none
    unfold storeRecord
    rw [findSpace_shortRecords]
    exact Option.bind_none _

end Firebird.Jrd.Dpm
