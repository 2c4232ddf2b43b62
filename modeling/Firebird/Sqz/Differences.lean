import Firebird.Machine
import Firebird.Lib.Patch

/-!
# Record differences

`SQZ_differences` writes the delta that turns one record into another, and
`SQZ_apply_differences` replays it. The encoder has two phases: while more than two bytes
of the common part are left it alternates between mismatching stretches (a look-ahead of
two bytes, a window of 127) and kept ones; what is left after that, including any growth
of the record, is written as literals.

Both sides are related through `Firebird.Lib.Patch`: the encoder emits the encoding of a
patch that covers the second record, and the decoder applies any covering patch.
-/
namespace Firebird.Sqz
open Lib Patch List

/-- Largest delta `prepare_update` and `VIO_data` have room for. -/
def MAX_DIFFERENCES : Nat := 1024

/-- The caller's area and the `out` pointer. -/
structure Out where
  area : List SCHAR
  next : Nat

/-- The two ways the encoder can stop early: `STUFF` found the area full, which the
function reports by returning 32000, or it stored a byte outside the area. -/
inductive Stop where
  | full (o : Out)
  | overrun

namespace Out

/-- `STUFF(val)`. -/
def stuff (o : Out) (val : SCHAR) : Except Stop Out :=
  if o.next < o.area.length then .ok ⟨o.area.set o.next val, o.next + 1⟩ else .error (.full o)

/-- `p = out++`: a byte is passed over without looking at `end`. -/
def skip (o : Out) : Out := { o with next := o.next + 1 }

/-- `*p = val`, again without looking at `end`. -/
def store (o : Out) (p : Nat) (val : SCHAR) : Except Stop Out :=
  if p < o.area.length then .ok { o with area := o.area.set p val } else .error .overrun

end Out

/-- The mismatch loop. `window` is the distance from `rec1` to one past `yellow`. -/
def mismatchLoop : Nat → List SCHAR → List SCHAR → Out →
    Except Stop (List SCHAR × List SCHAR × Out)
  | window + 1, a :: rec1, b :: rec2, o =>
    if a ≠ b ∨ (0 < window ∧ rec1.head? ≠ rec2.head?) then do
      let o ← o.stuff b
      mismatchLoop window rec1 rec2 o
    else .ok (a :: rec1, b :: rec2, o)
  | _, rec1, rec2, o => .ok (rec1, rec2, o)

def equalRun : List SCHAR → List SCHAR → Nat
  | a :: rec1, b :: rec2 => if a = b then equalRun rec1 rec2 + 1 else 0
  | _, _ => 0

/-- The kept stretch, written as counts of at most 127. `l` is the absolute value of the
source's variable. -/
def keepLoop : Nat → Nat → Out → Except Stop Out
  | fuel + 1, l, o =>
    if 127 < l then do
      let o ← o.stuff (Int8.ofInt (-127))
      keepLoop fuel (l - 127) o
    else if l ≠ 0 then o.stuff (Int8.ofInt (-l))
    else .ok o
  | 0, _, o => .ok o

/-- First phase. `rec1` is cut at `end1`, so it holds the rest of the common length. -/
def commonLoop : Nat → List SCHAR → List SCHAR → Out → Except Stop (List SCHAR × Out)
  | fuel + 1, rec1, rec2, o =>
    if 2 < rec1.length then
      if rec1[0]? ≠ rec2[0]? ∨ rec1[1]? ≠ rec2[1]? then do
        let p := o.next
        let (rec1, rec2, o) ← mismatchLoop (min rec1.length 127) rec1 rec2 o.skip
        let o ← o.store p (Int8.ofInt (o.next - p - 1))
        commonLoop fuel rec1 rec2 o
      else do
        let l := equalRun rec1 rec2
        let o ← keepLoop (l + 1) l o
        commonLoop fuel (rec1.drop l) (rec2.drop l) o
    else .ok (rec2, o)
  | 0, _, rec2, o => .ok (rec2, o)

def stuffAll : List SCHAR → Out → Except Stop Out
  | [], o => .ok o
  | b :: bs, o => do
    let o ← o.stuff b
    stuffAll bs o

def tailLoop : Nat → List SCHAR → Out → Except Stop Out
  | fuel + 1, rec2, o =>
    if 0 < rec2.length then do
      let p := o.next
      let o ← stuffAll (rec2.take 127) o.skip
      let o ← o.store p (Int8.ofInt (o.next - p - 1))
      tailLoop fuel (rec2.drop 127) o
    else .ok o
  | 0, _, o => .ok o

def differencesLoop (rec1 rec2 : List SCHAR) (area : List SCHAR) : Except Stop Out := do
  let common := rec1.take (min rec1.length rec2.length)
  let (rec2, o) ← commonLoop common.length common rec2 ⟨area, 0⟩
  tailLoop rec2.length rec2 o

/-- `SQZ_differences`: the returned `USHORT` and the area it leaves. `none` is a store
outside the area. -/
def sqzDifferences (rec1 rec2 area : List SCHAR) : Option (Nat × List SCHAR) :=
  match differencesLoop rec1 rec2 area with
  | .ok o => some (ushort o.next, o.area)
  | .error (.full o) => some (32000, o.area)
  | .error .overrun => none

/-- A call that ends in `BUGCHECK`, with the message number. -/
structure BugCheck where
  msg : Nat

/-- The loop of `SQZ_apply_differences`: the record, the position `p` in it and the rest
of the delta. A kept stretch moves `p` without any check. -/
def applyLoop : Nat → List SCHAR → Nat → List SCHAR →
    Except BugCheck (List SCHAR × Nat × List SCHAR)
  | fuel + 1, record, p, control :: differences =>
    if p < record.length then
      let l := control.toInt
      if 0 < l then
        if record.length < p + l.toNat then .error ⟨177⟩
        else if differences.length < l.toNat then .error ⟨176⟩
        else applyLoop fuel
          (record.take p ++ differences.take l.toNat ++ record.drop (p + l.toNat))
          (p + l.toNat) (differences.drop l.toNat)
      else applyLoop fuel record (p + (-l).toNat) differences
    else .ok (record, p, control :: differences)
  | _, record, p, differences => .ok (record, p, differences)

/-- `SQZ_apply_differences`: the new length and the record. -/
def sqzApplyDifferences (record differences : List SCHAR) :
    Except BugCheck (Nat × List SCHAR) :=
  if MAX_DIFFERENCES < differences.length then .error ⟨176⟩
  else do
    let (record', p, left) ← applyLoop differences.length record 0 differences
    let length := ushort p
    if record.length < length ∨ left ≠ [] then .error ⟨177⟩ else return (length, record')

def noDifferencesLoop : Nat → Nat → List SCHAR
  | fuel + 1, length =>
    if 127 < length then Int8.ofInt (-127) :: noDifferencesLoop fuel (length - 127)
    else if length ≠ 0 then [Int8.ofInt (-length)] else []
  | 0, _ => []

/-- `SQZ_no_differences`: a delta that keeps `length` bytes. -/
def sqzNoDifferences (length : Nat) : List SCHAR := noDifferencesLoop (length + 1) length

/-! ## What the encoder's primitives emit -/

/-- `o'` is `o` with the bytes `xs` stored behind it. The bound is claimed only when a byte
was stored: after `skip` the pointer may already stand past the end. -/
structure Stuffed (xs : List SCHAR) (o o' : Out) : Prop where
  length : o'.area.length = o.area.length
  next : o'.next = o.next + xs.length
  take : xs ≠ [] → o'.next ≤ o.area.length ∧
    o'.area.take o'.next = o.area.take o.next ++ xs
  nil : xs = [] → o' = o

theorem Stuffed.refl (o : Out) : Stuffed [] o o := ⟨rfl, rfl, by simp, fun _ => rfl⟩

variable {o o' : Out}

theorem stuff_ok {b : SCHAR} (h : o.stuff b = .ok o') : Stuffed [b] o o' := by
  unfold Out.stuff at h
  split at h
  next hlt =>
    injection h with h
    subst h
    refine ⟨by simp, by simp, fun _ => ⟨hlt, ?_⟩, by simp⟩
    rw [take_add_one]
    simp [take_set_of_le, hlt]
  next => cases h

variable {xs : List SCHAR}

theorem Stuffed.trans {ys : List SCHAR} {o'' : Out} (h : Stuffed xs o o')
    (g : Stuffed ys o' o'') : Stuffed (xs ++ ys) o o'' := by
  rcases eq_or_ne ys [] with rfl | hy
  · obtain rfl := g.nil rfl
    simpa using h
  rcases eq_or_ne xs [] with rfl | hx
  · obtain rfl := h.nil rfl
    simpa using g
  obtain ⟨hle, htake⟩ := h.take hx
  obtain ⟨gle, gtake⟩ := g.take hy
  refine ⟨g.length.trans h.length, by rw [g.next, h.next, length_append, Nat.add_assoc],
    fun _ => ⟨h.length ▸ gle, by rw [gtake, htake, append_assoc]⟩, by simp [hx]⟩

/-- Stores never leave the area: an encoder step either succeeds or finds the area full. -/
def Contained {β : Type} (r : Except Stop β) : Prop := ∀ e, r = .error e → ∃ o, e = .full o

variable {β : Type}

theorem contained_ok (x : β) : Contained (.ok x) := by intro e h; cases h

theorem contained_bind {γ : Type} {x : Except Stop β} {f : β → Except Stop γ}
    (hx : Contained x) (hf : ∀ y, x = .ok y → Contained (f y)) : Contained (x >>= f) := by
  cases x with
  | error e =>
    intro e' h
    cases h
    exact hx e rfl
  | ok y => exact hf y rfl

theorem contained_stuff (o : Out) (b : SCHAR) : Contained (o.stuff b) := by
  intro e h
  unfold Out.stuff at h
  split at h
  · cases h
  · cases h; exact ⟨o, rfl⟩

theorem bind_ok {γ : Type} {x : Except Stop β} {f : β → Except Stop γ} {z : γ}
    (h : (x >>= f) = .ok z) : ∃ y, x = .ok y ∧ f y = .ok z := by
  cases x with
  | error e => cases h
  | ok y => exact ⟨y, rfl, h⟩

theorem mismatchLoop_contained (window : Nat) (rec1 rec2 : List SCHAR) (o : Out) :
    Contained (mismatchLoop window rec1 rec2 o) := by
  fun_induction mismatchLoop window rec1 rec2 o with
  | case1 window a rec1 b rec2 o _ ih => exact contained_bind (contained_stuff o b) fun y _ => ih y
  | case2 => exact contained_ok _
  | case3 => exact contained_ok _

variable {rec1 rec2 : List SCHAR}

theorem mismatchLoop_ok {window : Nat} {rec1' rec2' : List SCHAR}
    (h : mismatchLoop window rec1 rec2 o = .ok (rec1', rec2', o')) :
    ∃ bs, rec2 = bs ++ rec2' ∧ rec1' = rec1.drop bs.length ∧ bs.length ≤ window ∧
      Stuffed bs o o' := by
  fun_induction mismatchLoop window rec1 rec2 o with
  | case1 window a rec1 b rec2 o _ ih =>
    obtain ⟨o1, hb, h⟩ := bind_ok h
    obtain ⟨bs, rfl, rfl, hlen, hs⟩ := ih o1 h
    exact ⟨b :: bs, rfl, rfl, by simpa using hlen, (stuff_ok hb).trans hs⟩
  | case2 =>
    cases h
    exact ⟨[], rfl, rfl, by simp, .refl _⟩
  | case3 =>
    cases h
    exact ⟨[], rfl, rfl, by simp, .refl _⟩

/-- The first turn of a mismatch loop always stores a byte: that byte is what makes the
unchecked control byte before it safe. -/
theorem mismatchLoop_progress {window : Nat} {rec1' rec2' : List SCHAR}
    (hw : 2 ≤ window) (h1 : 2 < rec1.length) (hle : rec1.length ≤ rec2.length)
    (hne : rec1[0]? ≠ rec2[0]? ∨ rec1[1]? ≠ rec2[1]?)
    (h : mismatchLoop window rec1 rec2 o = .ok (rec1', rec2', o')) :
    rec1'.length < rec1.length := by
  obtain ⟨window, rfl⟩ : ∃ w, window = w + 1 := ⟨window - 1, by omega⟩
  match rec1, rec2 with
  | a :: rec1, b :: rec2 =>
    have hcond : a ≠ b ∨ (0 < window ∧ rec1.head? ≠ rec2.head?) := by
      rcases hne with hne | hne
      · exact .inl (by simpa using hne)
      · exact .inr ⟨by omega, by simpa [head?_eq_getElem?] using hne⟩
    simp only [mismatchLoop, if_pos hcond] at h
    obtain ⟨o1, _, h⟩ := bind_ok h
    obtain ⟨bs, _, rfl, _, _⟩ := mismatchLoop_ok h
    simp only [length_cons, length_drop]
    omega

variable {ls : List SCHAR} {o1 : Out}

theorem replace_ok {o2 : Out} (hne : ls ≠ []) (hlen : ls.length ≤ 127) (hs : Stuffed ls o.skip o1)
    (h : o1.store o.next (Int8.ofInt (o1.next - o.next - 1)) = .ok o2) :
    Stuffed (Token.encode Int8.ofInt (.replace ls)) o o2 := by
  obtain ⟨hle, htake⟩ := hs.take hne
  have hn : o1.next = o.next + 1 + ls.length := hs.next
  have hlt : o.next < o.area.length := by have : o1.next ≤ o.area.length := hle; omega
  have hctl : ((o1.next : Int) - o.next - 1) = ls.length := by omega
  unfold Out.store at h
  split at h
  · injection h with h
    subst h
    refine ⟨(length_set ..).trans hs.length, by simp [Token.encode]; omega, fun _ => ⟨hle, ?_⟩,
      by simp [Token.encode]⟩
    have hfront : o1.area.take o1.next =
        o.area.take o.next ++ o.area.get ⟨o.next, hlt⟩ :: ls := by
      rw [htake]
      change o.area.take (o.next + 1) ++ ls = _
      rw [take_add_one, getElem?_eq_getElem hlt, append_assoc]
      rfl
    have hpre : (o.area.take o.next).length = o.next :=
      length_take_of_le (Nat.le_of_lt hlt)
    rw [take_set, hfront, set_append_right _ _ (by omega), hpre, hctl]
    simp [Token.encode]
  · cases h

theorem contained_replace {v : SCHAR} (hne : ls ≠ [])
    (hs : Stuffed ls o.skip o1) : Contained (o1.store o.next v) := by
  obtain ⟨hle, _⟩ := hs.take hne
  have hn : o1.next = o.next + 1 + ls.length := hs.next
  have hlen : o1.area.length = o.area.length := hs.length
  have : o1.next ≤ o.area.length := hle
  unfold Out.store
  rw [if_pos (by omega)]
  exact contained_ok _

theorem keepLoop_contained (fuel l : Nat) (o : Out) : Contained (keepLoop fuel l o) := by
  fun_induction keepLoop fuel l o with
  | case1 fuel l o _ ih => exact contained_bind (contained_stuff _ _) fun y _ => ih y
  | case2 => exact contained_stuff _ _
  | case3 => exact contained_ok _
  | case4 => exact contained_ok _

variable {fuel : Nat} {a b : List SCHAR}

theorem keepLoop_ok {l : Nat} (hfuel : l < fuel)
    (ha : l ≤ a.length) (hb : b.length = l) (heq : a.take l = b)
    (h : keepLoop fuel l o = .ok o') :
    ∃ ts, Stuffed (encode Int8.ofInt ts) o o' ∧ Covers ts a b ∧ ∀ t ∈ ts, t.Within 127 := by
  fun_induction keepLoop fuel l o generalizing a b with
  | case1 fuel l o hlt ih =>
    obtain ⟨o1, h1, h⟩ := bind_ok h
    have hdrop : (a.drop 127).take (l - 127) = b.drop 127 := by
      rw [← heq, drop_take]
    obtain ⟨ts, hs, hc, hw⟩ := ih o1 (a := a.drop 127) (b := b.drop 127) (by omega)
      (by simp; omega) (by simp; omega) hdrop h
    have hfirst : Covers [.keep 127] a (b.take 127) :=
      .keep (by omega) (by simp; omega) (by rw [← heq, take_take]; simp; omega)
    refine ⟨.keep 127 :: ts, ?_, ?_, ?_⟩
    · simpa [Token.encode] using (stuff_ok h1).trans hs
    · have hlen : (b.take 127).length = 127 := by simp; omega
      have hrest : Covers ts (a.drop (b.take 127).length) (b.drop 127) := by rwa [hlen]
      have := hfirst.append hrest
      rwa [take_append_drop] at this
    · intro t ht
      rcases mem_cons.mp ht with rfl | ht
      · simp [Token.Within, Token.span]
      · exact hw t ht
  | case2 fuel l o hlt hz =>
    refine ⟨[.keep l], by simpa [Token.encode] using stuff_ok h, .keep ha hb heq, ?_⟩
    intro t ht
    obtain rfl := mem_singleton.mp ht
    simp only [Token.Within, Token.span]
    omega
  | case3 fuel l o _ hz =>
    injection h with h
    subst h
    exact ⟨[], .refl o, by simp [Covers]; simp_all, by simp⟩
  | case4 => omega

theorem equalRun_spec (rec1 rec2 : List SCHAR) :
    equalRun rec1 rec2 ≤ rec1.length ∧ equalRun rec1 rec2 ≤ rec2.length ∧
      rec1.take (equalRun rec1 rec2) = rec2.take (equalRun rec1 rec2) := by
  fun_induction equalRun rec1 rec2 <;> simp_all

theorem equalRun_pos (h1 : 2 < rec1.length)
    (hle : rec1.length ≤ rec2.length) (heq : rec1[0]? = rec2[0]?) : 0 < equalRun rec1 rec2 := by
  match rec1, rec2 with
  | a :: rec1, b :: rec2 => simp_all [equalRun]

theorem stuffAll_contained (bs : List SCHAR) (o : Out) : Contained (stuffAll bs o) := by
  induction bs generalizing o with
  | nil => exact contained_ok o
  | cons b bs ih => exact contained_bind (contained_stuff o b) fun y _ => ih y

theorem stuffAll_ok {bs : List SCHAR} (h : stuffAll bs o = .ok o') : Stuffed bs o o' := by
  induction bs generalizing o with
  | nil => cases h; exact .refl _
  | cons b bs ih =>
    obtain ⟨o1, h1, h⟩ := bind_ok h
    exact (stuff_ok h1).trans (ih h)

/-- Outcome of an encoder phase that started with the bytes `b` of the second record
over the base `a`: it is contained, and on success the tokens it emitted cover what it
consumed. -/
structure Emitted (a b b' : List SCHAR) (o o' : Out) : Prop where
  patch : ∃ ts bs, b = bs ++ b' ∧ Stuffed (encode Int8.ofInt ts) o o' ∧ Covers ts a bs ∧
    ∀ t ∈ ts, t.Within 127

theorem Emitted.refl (a b : List SCHAR) (o : Out) : Emitted a b b o o :=
  ⟨[], [], rfl, .refl o, rfl, by simp⟩

theorem Emitted.cons {bs b' : List SCHAR} {ts : List (Token SCHAR)}
    (hs : Stuffed (encode Int8.ofInt ts) o o1) (hc : Covers ts a bs)
    (hw : ∀ t ∈ ts, t.Within 127) (h : Emitted (a.drop bs.length) b b' o1 o') :
    Emitted a (bs ++ b) b' o o' := by
  obtain ⟨us, cs, rfl, gs, gc, gw⟩ := h.patch
  refine ⟨ts ++ us, bs ++ cs, by simp, by simpa using hs.trans gs, hc.append gc, ?_⟩
  exact fun t ht => (mem_append.mp ht).elim (hw t) (gw t)

theorem within_replace (hne : ls ≠ []) (hlen : ls.length ≤ 127) :
    ∀ t ∈ [Token.replace ls], t.Within 127 := by
  intro t ht
  obtain rfl := mem_singleton.mp ht
  exact ⟨length_pos_iff.mpr hne, hlen⟩

theorem commonLoop_spec (fuel : Nat) (rec1 rec2 : List SCHAR) (o : Out)
    (hfuel : rec1.length ≤ fuel) (hle : rec1.length ≤ rec2.length) :
    Contained (commonLoop fuel rec1 rec2 o) ∧
      ∀ b' o', commonLoop fuel rec1 rec2 o = .ok (b', o') → Emitted rec1 rec2 b' o o' := by
  induction fuel generalizing rec1 rec2 o with
  | zero =>
    refine ⟨contained_ok _, fun b' o' h => ?_⟩
    cases h
    exact .refl _ _ _
  | succ fuel ih =>
    simp only [commonLoop]
    split
    next hlong =>
      split
      next hne =>
        -- a mismatching stretch
        have hw : 2 ≤ min rec1.length 127 := by omega
        have hstep : ∀ rec1' rec2' o1,
            mismatchLoop (min rec1.length 127) rec1 rec2 o.skip = .ok (rec1', rec2', o1) →
            ∃ bs, bs ≠ [] ∧ bs.length ≤ 127 ∧ rec2 = bs ++ rec2' ∧ rec1' = rec1.drop bs.length ∧
              rec1'.length ≤ fuel ∧ rec1'.length ≤ rec2'.length ∧ Stuffed bs o.skip o1 := by
          intro rec1' rec2' o1 hm
          have hprog := mismatchLoop_progress hw hlong hle hne hm
          obtain ⟨bs, rfl, rfl, hlen, hs⟩ := mismatchLoop_ok hm
          simp only [length_drop, length_append] at *
          refine ⟨bs, ?_, by omega, rfl, rfl, by omega, by omega, hs⟩
          rintro rfl
          simp at hprog
        constructor
        · refine contained_bind (mismatchLoop_contained _ _ _ _) ?_
          rintro ⟨rec1', rec2', o1⟩ hm
          obtain ⟨bs, hbs, _, rfl, rfl, hf, hl, hs⟩ := hstep _ _ _ hm
          exact contained_bind (contained_replace hbs hs) fun o2 _ => (ih _ _ o2 hf hl).1
        · intro b' o' h
          obtain ⟨⟨rec1', rec2', o1⟩, hm, h⟩ := bind_ok h
          obtain ⟨bs, hbs, h127, rfl, rfl, hf, hl, hs⟩ := hstep _ _ _ hm
          obtain ⟨o2, hst, h⟩ := bind_ok h
          have hr : Stuffed (encode Int8.ofInt [.replace bs]) o o2 := by
            simpa using replace_ok hbs h127 hs hst
          exact .cons hr (.replace _ _) (within_replace hbs h127) ((ih _ _ o2 hf hl).2 _ _ h)
      next heq =>
        -- a kept stretch
        rw [not_or, not_not, not_not] at heq
        obtain ⟨h1, h2, htake⟩ := equalRun_spec rec1 rec2
        have hpos := equalRun_pos hlong hle heq.1
        have hf : (rec1.drop (equalRun rec1 rec2)).length ≤ fuel := by simp; omega
        have hl : (rec1.drop (equalRun rec1 rec2)).length ≤
            (rec2.drop (equalRun rec1 rec2)).length := by simp; omega
        constructor
        · exact contained_bind (keepLoop_contained _ _ _) fun o1 _ => (ih _ _ o1 hf hl).1
        · intro b' o' h
          obtain ⟨o1, hk, h⟩ := bind_ok h
          have hlen : (rec2.take (equalRun rec1 rec2)).length = equalRun rec1 rec2 :=
            length_take_of_le h2
          obtain ⟨ts, hs, hc, hw⟩ := keepLoop_ok (Nat.lt_succ_self _) h1 hlen htake hk
          have := Emitted.cons hs hc hw (b := rec2.drop (equalRun rec1 rec2))
            (by rw [hlen]; exact (ih _ _ o1 hf hl).2 _ _ h)
          rwa [take_append_drop] at this
    next =>
      refine ⟨contained_ok _, fun b' o' h => ?_⟩
      cases h
      exact .refl _ _ _

theorem tailLoop_spec (fuel : Nat) (a rec2 : List SCHAR) (o : Out) (hfuel : rec2.length ≤ fuel) :
    Contained (tailLoop fuel rec2 o) ∧
      ∀ o', tailLoop fuel rec2 o = .ok o' → Emitted a rec2 [] o o' := by
  induction fuel generalizing a rec2 o with
  | zero =>
    obtain rfl : rec2 = [] := by simpa using hfuel
    refine ⟨contained_ok _, fun o' h => ?_⟩
    cases h
    exact .refl _ _ _
  | succ fuel ih =>
    simp only [tailLoop]
    split
    next hpos =>
      have hbs : rec2.take 127 ≠ [] := by
        rw [← length_pos_iff, length_take]; omega
      have h127 : (rec2.take 127).length ≤ 127 := length_take_le 127 rec2
      have hf : (rec2.drop 127).length ≤ fuel := by simp; omega
      constructor
      · refine contained_bind (stuffAll_contained _ _) fun o1 h1 => ?_
        exact contained_bind (contained_replace hbs (stuffAll_ok h1)) fun o2 _ => (ih a _ o2 hf).1
      · intro o' h
        obtain ⟨o1, h1, h⟩ := bind_ok h
        obtain ⟨o2, h2, h⟩ := bind_ok h
        have hr : Stuffed (encode Int8.ofInt [.replace (rec2.take 127)]) o o2 := by
          simpa using replace_ok hbs h127 (stuffAll_ok h1) h2
        have := Emitted.cons hr (.replace a _) (within_replace hbs h127) ((ih _ _ o2 hf).2 _ h)
        rwa [take_append_drop] at this
    next hz =>
      obtain rfl : rec2 = [] := by simpa using hz
      refine ⟨contained_ok _, fun o' h => ?_⟩
      cases h
      exact .refl _ _ _

/-- The encoder has emitted a patch that covers the second record over any base starting with the
common part of the first. -/
theorem differencesLoop_spec (rec1 rec2 area : List SCHAR) :
    Contained (differencesLoop rec1 rec2 area) ∧
      ∀ o, differencesLoop rec1 rec2 area = .ok o →
        Emitted (rec1.take (min rec1.length rec2.length)) rec2 [] ⟨area, 0⟩ o := by
  have hle : (rec1.take (min rec1.length rec2.length)).length ≤ rec2.length := by
    rw [length_take]; omega
  have hcommon := commonLoop_spec _ (rec1.take (min rec1.length rec2.length)) rec2 ⟨area, 0⟩
    le_rfl hle
  constructor
  · refine contained_bind hcommon.1 ?_
    rintro ⟨b, o⟩ _
    exact (tailLoop_spec _ [] b o le_rfl).1
  · intro o h
    obtain ⟨⟨b, o1⟩, h1, htail⟩ := bind_ok h
    obtain ⟨ts, bs, rfl, hs, hc, hw⟩ := (hcommon.2 _ _ h1).patch
    exact .cons hs hc hw ((tailLoop_spec _ _ b o1 le_rfl).2 _ htail)

variable {record : List SCHAR}

theorem applyLoop_keep {p n : Nat} {differences : List SCHAR} (h1 : 1 ≤ n)
    (h2 : n ≤ 127) (hp : p < record.length) :
    applyLoop (fuel + 1) record p (Int8.ofInt (-n) :: differences) =
      applyLoop fuel record (p + n) differences := by
  have hc : (Int8.ofInt (-(n : Int))).toInt = -n := toInt_ofInt_schar (by omega) (by omega)
  have hneg : ¬ (0 : Int) < -n := by omega
  simp only [applyLoop, hc, if_pos hp, if_neg hneg, Int.neg_neg, Int.toNat_natCast]

theorem applyLoop_replace {p : Nat} {differences : List SCHAR}
    (h1 : 1 ≤ ls.length) (h2 : ls.length ≤ 127) (hp : p + ls.length ≤ record.length) :
    applyLoop (fuel + 1) record p (Int8.ofInt ls.length :: (ls ++ differences)) =
      applyLoop fuel (record.take p ++ ls ++ record.drop (p + ls.length)) (p + ls.length)
        differences := by
  have hc : (Int8.ofInt (ls.length : Int)).toInt = ls.length :=
    toInt_ofInt_schar (by omega) (by omega)
  have hpos : (0 : Int) < ls.length := by omega
  have hroom : ¬ record.length < p + ls.length := by omega
  simp only [applyLoop, hc, if_pos (by omega : p < record.length), if_pos hpos,
    Int.toNat_natCast, if_neg hroom, take_left, drop_left]
  rw [if_neg (by rw [length_append]; omega)]

theorem applyLoop_covers (ts : List (Token SCHAR)) {rest : List SCHAR} (fuel : Nat)
    (done : List SCHAR) (hfuel : (encode Int8.ofInt ts).length ≤ fuel)
    (hw : ∀ t ∈ ts, t.Within 127) (hc : Covers ts a b) (ha : a <+: rest)
    (hb : b.length ≤ rest.length) :
    applyLoop fuel (done ++ rest) done.length (encode Int8.ofInt ts) =
      .ok (done ++ b ++ rest.drop b.length, done.length + b.length, []) := by
  induction ts generalizing fuel done a b rest with
  | nil =>
    obtain rfl : b = [] := hc
    cases fuel <;> simp [applyLoop]
  | cons t ts ih =>
    obtain ⟨lo, hi⟩ := hw t (by simp)
    have hts : ∀ u ∈ ts, u.Within 127 := fun u hu => hw u (mem_cons_of_mem t hu)
    rw [encode_cons, length_append] at hfuel
    rw [encode_cons]
    cases t with
    | keep n =>
      obtain ⟨hna, hnb, heq, hc⟩ := hc
      simp only [Token.encode, Token.span, length_singleton] at *
      obtain ⟨fuel, rfl⟩ : ∃ f, fuel = f + 1 := ⟨fuel - 1, by omega⟩
      rw [singleton_append, applyLoop_keep lo hi (by simp; omega)]
      have hfront : rest.take n = b.take n := by
        obtain ⟨tl, rfl⟩ := ha
        rw [take_append_of_le_length hna, heq]
      have hsplit : done ++ rest = (done ++ rest.take n) ++ rest.drop n := by simp
      have hlen : done.length + n = (done ++ rest.take n).length := by simp; omega
      have hpre : a.drop n <+: rest.drop n := by
        obtain ⟨tl, rfl⟩ := ha
        exact ⟨tl, by rw [drop_append_of_le_length hna]⟩
      rw [hsplit, hlen, ih fuel (done ++ rest.take n) (by omega) hts hc hpre (by simp; omega),
        hfront]
      have hd : n + (b.length - n) = b.length := by omega
      simp [hd, Nat.min_eq_left hnb, Nat.add_assoc]
    | replace ls =>
      obtain ⟨b', rfl, hc⟩ := hc
      simp only [Token.encode, length_cons, length_append] at *
      obtain ⟨fuel, rfl⟩ : ∃ f, fuel = f + 1 := ⟨fuel - 1, by omega⟩
      rw [cons_append, applyLoop_replace lo hi (by simp; omega)]
      have hsplit : (done ++ rest).take done.length ++ ls ++
          (done ++ rest).drop (done.length + ls.length) = (done ++ ls) ++ rest.drop ls.length := by
        simp
      have hpre : a.drop ls.length <+: rest.drop ls.length := by
        obtain ⟨tl, rfl⟩ := ha
        exact ⟨tl.drop (ls.length - a.length), by rw [drop_append]⟩
      rw [hsplit, show done.length + ls.length = (done ++ ls).length by simp,
        ih fuel (done ++ ls) (by omega) hts hc hpre (by simp; omega)]
      simp [Nat.add_assoc]

theorem sqzApplyDifferences_covers {ts : List (Token SCHAR)}
    (hsize : (encode Int8.ofInt ts).length ≤ MAX_DIFFERENCES) (hw : ∀ t ∈ ts, t.Within 127)
    (hc : Covers ts a b) (ha : a <+: record) (hb : b.length ≤ record.length)
    (hlen : b.length ≤ 65535) :
    sqzApplyDifferences record (encode Int8.ofInt ts) =
      .ok (b.length, b ++ record.drop b.length) := by
  have hloop := applyLoop_covers ts (encode Int8.ofInt ts).length [] le_rfl hw hc ha hb
  simp only [nil_append, length_nil, Nat.zero_add] at hloop
  rw [sqzApplyDifferences, if_neg (by omega), hloop]
  have hshort : ushort b.length = b.length := ushort_of_lt (by omega)
  change (if record.length < ushort b.length ∨ ([] : List SCHAR) ≠ [] then _ else _) = _
  rw [hshort, if_neg (by simp; omega)]
  rfl

variable {area : List SCHAR}

theorem Stuffed.fits (h : Stuffed xs ⟨area, 0⟩ o) : o.next ≤ area.length := by
  rcases eq_or_ne xs [] with rfl | hx
  · obtain rfl := h.nil rfl
    exact Nat.zero_le _
  · exact (h.take hx).1

theorem Stuffed.emitted (h : Stuffed xs ⟨area, 0⟩ o) : o.area.take o.next = xs := by
  rcases eq_or_ne xs [] with rfl | hx
  · obtain rfl := h.nil rfl
    rfl
  · simpa using (h.take hx).2

theorem sqzDifferences_eq_some (rec1 rec2 area : List SCHAR) :
    ∃ n out, sqzDifferences rec1 rec2 area = some (n, out) := by
  obtain ⟨hcont, -⟩ := differencesLoop_spec rec1 rec2 area
  unfold sqzDifferences
  cases hd : differencesLoop rec1 rec2 area with
  | error e =>
    obtain ⟨o, rfl⟩ := hcont e hd
    exact ⟨32000, o.area, rfl⟩
  | ok o => exact ⟨_, _, rfl⟩

theorem sqzDifferences_covers {out : List SCHAR} {n : Nat}
    (harea : area.length ≤ MAX_DIFFERENCES) (h : sqzDifferences rec1 rec2 area = some (n, out))
    (hn : n ≤ area.length) :
    ∃ ts : List (Token SCHAR), out.take n = encode Int8.ofInt ts ∧
      (encode Int8.ofInt ts).length ≤ MAX_DIFFERENCES ∧ (∀ t ∈ ts, t.Within 127) ∧
      Covers ts (rec1.take (min rec1.length rec2.length)) rec2 := by
  obtain ⟨hcont, hok⟩ := differencesLoop_spec rec1 rec2 area
  unfold sqzDifferences at h
  cases hd : differencesLoop rec1 rec2 area with
  | error e =>
    -- `STUFF` gave up; the code returned is larger than any area
    obtain ⟨o, rfl⟩ := hcont e hd
    rw [hd] at h
    obtain ⟨rfl, -⟩ := Prod.mk.inj (Option.some.inj h)
    simp only [MAX_DIFFERENCES] at harea
    omega
  | ok o =>
    obtain ⟨ts, bs, hbs, hs, hc, hw⟩ := (hok o hd).patch
    rw [append_nil] at hbs
    subst hbs
    have hfit := hs.fits
    have hshort : ushort o.next = o.next :=
      ushort_of_lt (by simp only [MAX_DIFFERENCES] at harea; omega)
    rw [hd] at h
    cases h
    have hout : o.area.take (ushort o.next) = encode Int8.ofInt ts := by
      rw [hshort]
      exact hs.emitted
    refine ⟨ts, hout, ?_, hw, hc⟩
    rw [← hout, length_take]
    omega

/-- A delta that fits its area is never written outside it, and replaying it over any
record image that starts with the first record and has room for both gives the second
one, whatever lies behind. -/
theorem sqz_differences_roundtrip (rec1 rec2 area : List SCHAR) (h2 : rec2.length ≤ 65535)
    (harea : area.length ≤ MAX_DIFFERENCES) :
    ∃ n out, sqzDifferences rec1 rec2 area = some (n, out) ∧
      (n ≤ area.length → ∀ record, rec1 <+: record →
        max rec1.length rec2.length ≤ record.length →
        ∃ record', sqzApplyDifferences record (out.take n) = .ok (rec2.length, record') ∧
          record'.take rec2.length = rec2) := by
  obtain ⟨n, out, hd⟩ := sqzDifferences_eq_some rec1 rec2 area
  refine ⟨n, out, hd, fun hn record hpre hroom => ?_⟩
  obtain ⟨ts, hout, hsize, hw, hc⟩ := sqzDifferences_covers harea hd hn
  have hfront := take_prefix (min rec1.length rec2.length) rec1
  have ha : rec1.take (min rec1.length rec2.length) <+: record := hfront.trans hpre
  refine ⟨rec2 ++ record.drop rec2.length, ?_, by simp⟩
  rw [hout]
  exact sqzApplyDifferences_covers hsize hw hc ha (by omega) h2

theorem sqz_differences_roundtrip_short :
    ∃ n out, sqzDifferences [1, 2, 3, 4] [1, 2, 9] (replicate 8 0) = some (n, out) ∧
      n ≤ 8 ∧ ∃ record', sqzApplyDifferences [1, 2, 3, 4] (out.take n) = .ok (3, record') ∧
        record'.take 3 = [1, 2, 9] := by
  obtain ⟨n, out, hdiff, hback⟩ := sqz_differences_roundtrip [1, 2, 3, 4] [1, 2, 9]
    (replicate 8 0) (by decide) (by decide)
  have hval : sqzDifferences [1, 2, 3, 4] [1, 2, 9] (replicate 8 0) =
      some (3, [-2, 1, 9, 0, 0, 0, 0, 0]) := by decide
  obtain ⟨rfl, rfl⟩ : 3 = n ∧ [-2, 1, 9, 0, 0, 0, 0, 0] = out := by
    rw [hval] at hdiff
    simpa using hdiff
  exact ⟨3, _, hdiff, by decide, hback (by decide) [1, 2, 3, 4] (prefix_rfl) (by decide)⟩

theorem noDifferencesLoop_eq (fuel l : Nat) (hfuel : l < fuel) :
    ∃ ts : List (Token SCHAR), noDifferencesLoop fuel l = encode Int8.ofInt ts ∧
      (∀ t ∈ ts, t.Within 127) ∧ (encode Int8.ofInt ts).length ≤ l / 127 + 1 ∧
      ∀ b : List SCHAR, b.length = l → Covers ts b b := by
  induction fuel generalizing l with
  | zero => omega
  | succ fuel ih =>
    simp only [noDifferencesLoop]
    split
    next hlt =>
      obtain ⟨ts, he, hw, hlen, hc⟩ := ih (l - 127) (by omega)
      refine ⟨.keep 127 :: ts, by simp [he, Token.encode], ?_, ?_, ?_⟩
      · intro t ht
        rcases mem_cons.mp ht with rfl | ht
        · simp [Token.Within, Token.span]
        · exact hw t ht
      · simp only [encode_cons, Token.encode, length_append, length_singleton]
        omega
      · intro b hb
        exact ⟨by omega, by omega, rfl, hc (b.drop 127) (by simp; omega)⟩
    next hle =>
      split
      next hz =>
        refine ⟨[.keep l], by simp [Token.encode], ?_, by simp [Token.encode], ?_⟩
        · intro t ht
          obtain rfl := mem_singleton.mp ht
          simp only [Token.Within, Token.span]
          omega
        · exact fun b hb => .keep (by omega) hb (by rw [← hb, take_length])
      next hz => exact ⟨[], rfl, by simp, by simp, fun b hb => length_eq_zero_iff.mp (by omega)⟩

theorem sqzNoDifferences_covers (record : List SCHAR) (hlen : record.length ≤ 65535) :
    ∃ ts : List (Token SCHAR), sqzNoDifferences record.length = encode Int8.ofInt ts ∧
      (encode Int8.ofInt ts).length ≤ MAX_DIFFERENCES ∧ (∀ t ∈ ts, t.Within 127) ∧
      Covers ts record record := by
  obtain ⟨ts, he, hw, hsize, hc⟩ := noDifferencesLoop_eq (record.length + 1) record.length
    (Nat.lt_succ_self _)
  refine ⟨ts, he, ?_, hw, hc record rfl⟩
  simp only [MAX_DIFFERENCES]
  omega

/-- What `SQZ_no_differences` makes changes no record of its length. -/
theorem sqzApplyDifferences_noDifferences (record : List SCHAR) (hlen : record.length ≤ 65535) :
    sqzApplyDifferences record (sqzNoDifferences record.length) =
      .ok (record.length, record) := by
  obtain ⟨ts, he, hsize, hw, hc⟩ := sqzNoDifferences_covers record hlen
  have := sqzApplyDifferences_covers hsize hw hc prefix_rfl le_rfl hlen
  rw [he, this]
  simp

theorem sqzApplyDifferences_noDifferences_three :
    sqzApplyDifferences [7, 8, 9] (sqzNoDifferences 3) = .ok (3, [7, 8, 9]) :=
  sqzApplyDifferences_noDifferences [7, 8, 9] (by decide)

end Firebird.Sqz
