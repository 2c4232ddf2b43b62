import Firebird.Lib.Generation
import Firebird.Jrd.CchOrder

/-!
# Buffers that can be written

`writeable` walks over the precedence graph and marks what it has seen with the number of the walk.
It finds every marked buffer, whatever graphs the walks before it have seen.
-/
namespace Firebird.Jrd

open Lib Relation List Function

/-- The cache with `bcb_writeable_mark` and the `bdb_writeable_mark` of each buffer. -/
structure MarkedCache where
  cache : Cache
  writeableMark : Generation PageNumber

namespace Cache

/-- The loop over `bdb_higher`; `walk` goes on at a buffer. -/
def higherLoop (c : Cache) (mark : UInt32)
    (walk : PageNumber → (PageNumber → UInt32) → Option (Bool × (PageNumber → UInt32))) :
    List Precedence → (PageNumber → UInt32) → Option (Bool × (PageNumber → UInt32))
  | [], marks => some (true, marks)
  | precedence :: queue, marks =>
    if precedence.cleared then c.higherLoop mark walk queue marks
    else
      let high := precedence.preHi
      if (c.bdb high).marked then some (false, marks)
      else if marks high ≠ mark then
        if (c.higher high).isEmpty then
          c.higherLoop mark walk queue (Function.update marks high mark)
        else
          match walk high marks with
          | none => none
          | some (false, marks) => some (false, marks)
          | some (true, marks) => c.higherLoop mark walk queue marks
      else c.higherLoop mark walk queue marks

/-- `is_writeable`; `none` is out of fuel. -/
def isWriteable (c : Cache) (mark : UInt32) :
    Nat → PageNumber → (PageNumber → UInt32) → Option (Bool × (PageNumber → UInt32))
  | 0, _, _ => none
  | fuel + 1, bdb, marks =>
    match c.higherLoop mark (c.isWriteable mark fuel) (c.higher bdb) marks with
    | none => none
    | some (false, marks) => some (false, marks)
    | some (true, marks) => some (true, Function.update marks bdb mark)

end Cache

def MarkedCache.writeable (fuel : Nat) (bdb : PageNumber) (s : MarkedCache) :
    Option (Bool × MarkedCache) :=
  if (s.cache.bdb bdb).marked then some (false, s)
  else
    let g := s.writeableMark.next
    match s.cache.isWriteable g.current fuel bdb g.mark with
    | none => none
    | some (r, marks) => some (r, ⟨s.cache, ⟨g.current, marks⟩⟩)

namespace Cache

variable {c : Cache} {mark : UInt32} {marks marks' : PageNumber → UInt32} {fuel : Nat} {r : Bool}

/-- Precedences that are not cleared lead from the first buffer to the second one. -/
def Reaches (c : Cache) : PageNumber → PageNumber → Prop := ReflTransGen fun x y => (x, y) ∈ c.edges

/-- No buffer that the page has to wait for is marked, nor is its own. -/
def AllUnmarked (c : Cache) (page : PageNumber) : Prop :=
  ∀ p, c.Reaches page p → (c.bdb p).marked = false

theorem allUnmarked_iff {page : PageNumber} :
    c.AllUnmarked page ↔ (c.bdb page).marked = false ∧
      ∀ p, (page, p) ∈ c.edges → c.AllUnmarked p := by
  constructor
  · exact fun h => ⟨h page .refl, fun p hp q hq => h q (.head hp hq)⟩
  · rintro ⟨hpage, hnext⟩ p hp
    obtain rfl | ⟨q, hq, hqp⟩ := hp.cases_head
    · exact hpage
    · exact hnext q hq p hqp

def Seen (c : Cache) (mark : UInt32) (marks : PageNumber → UInt32) : Prop :=
  ∀ p, marks p = mark → c.AllUnmarked p

theorem Seen.update (h : c.Seen mark marks) {page : PageNumber} (hpage : c.AllUnmarked page) :
    c.Seen mark (Function.update marks page mark) := by
  intro p hp
  by_cases heq : p = page
  · exact heq ▸ hpage
  · rw [update_of_ne heq] at hp
    exact h p hp

structure Walked (c : Cache) (mark : UInt32) (marks marks' : PageNumber → UInt32) : Prop where
  seen : c.Seen mark marks → c.Seen mark marks'
  frame : ∀ p, marks' p = marks p ∨ marks' p = mark

theorem Walked.refl : c.Walked mark marks marks := ⟨id, fun _ => .inl rfl⟩

theorem Walked.trans {marks'' : PageNumber → UInt32} (h : c.Walked mark marks marks')
    (h' : c.Walked mark marks' marks'') : c.Walked mark marks marks'' := by
  refine ⟨fun hs => h'.seen (h.seen hs), fun p => ?_⟩
  obtain hp | hp := h'.frame p
  · exact hp ▸ h.frame p
  · exact .inr hp

theorem Walked.update {page : PageNumber} (h : c.Seen mark marks → c.AllUnmarked page) :
    c.Walked mark marks (Function.update marks page mark) := by
  refine ⟨fun hs => hs.update (h hs), fun p => ?_⟩
  by_cases heq : p = page
  · subst heq
    exact .inr (update_self ..)
  · exact .inl (update_of_ne heq ..)

structure Finds (c : Cache) (mark : UInt32) (page : PageNumber) (marks : PageNumber → UInt32)
    (r : Bool) (marks' : PageNumber → UInt32) : Prop where
  walked : c.Walked mark marks marks'
  iff : c.Seen mark marks → (r = true ↔ c.AllUnmarked page)

theorem higher_edge {page : PageNumber} {precedence : Precedence} (h : precedence ∈ c.higher page)
    (hcleared : precedence.cleared = false) : (page, precedence.preHi) ∈ c.edges := by
  obtain ⟨hmem, hlow⟩ := mem_filter.1 h
  rw [decide_eq_true_iff] at hlow
  obtain ⟨low, high, cleared⟩ := precedence
  obtain rfl : low = page := hlow
  obtain rfl : cleared = false := hcleared
  exact mem_edges.2 hmem

theorem edge_higher {page p : PageNumber} (h : (page, p) ∈ c.edges) :
    ⟨page, p, false⟩ ∈ c.higher page :=
  mem_filter.2 ⟨mem_edges.1 h, decide_eq_true rfl⟩

theorem higherLoop_spec {walk : PageNumber → (PageNumber → UInt32) →
      Option (Bool × (PageNumber → UInt32))}
    (hwalk : ∀ p marks r marks', (c.bdb p).marked = false → walk p marks = some (r, marks') →
      c.Finds mark p marks r marks')
    {queue : List Precedence} (h : c.higherLoop mark walk queue marks = some (r, marks')) :
    c.Walked mark marks marks' ∧ (c.Seen mark marks →
      (r = true ↔ ∀ precedence ∈ queue, precedence.cleared = false →
        c.AllUnmarked precedence.preHi)) := by
  induction queue generalizing marks with
  | nil =>
    cases h
    exact ⟨.refl, fun _ => by simp⟩
  | cons precedence queue ih =>
    rw [higherLoop] at h
    dsimp only at h
    split_ifs at h with hcleared hmarked hseen hempty
    · obtain ⟨hwalked, hiff⟩ := ih h
      exact ⟨hwalked, fun hs => by rw [hiff hs]; simp [hcleared]⟩
    · cases h
      refine ⟨.refl, fun _ => ?_⟩
      simp only [Bool.false_eq_true, false_iff]
      intro hall
      have := hall precedence (by simp) (by simpa using hcleared) _ .refl
      rw [hmarked] at this
      cases this
    · -- Nothing has to be written before this buffer.
      have hhigh : c.AllUnmarked precedence.preHi := by
        refine allUnmarked_iff.2 ⟨by simpa using hmarked, fun p hp => ?_⟩
        have := edge_higher hp
        rw [List.isEmpty_iff.1 hempty] at this
        cases this
      obtain ⟨hwalked, hiff⟩ := ih h
      refine ⟨.trans (.update fun _ => hhigh) hwalked, fun hs => ?_⟩
      rw [hiff (hs.update hhigh)]
      simp [hhigh]
    · cases hw : walk precedence.preHi marks with
      | none =>
        rw [hw] at h
        cases h
      | some result =>
        obtain ⟨r₁, marks₁⟩ := result
        rw [hw] at h
        have hfinds := hwalk _ _ _ _ (by simpa using hmarked) hw
        cases r₁ with
        | false =>
          cases h
          refine ⟨hfinds.walked, fun hs => ?_⟩
          simp only [Bool.false_eq_true, false_iff]
          intro hall
          exact absurd ((hfinds.iff hs).2 (hall _ (by simp) (by simpa using hcleared))) (by simp)
        | true =>
          obtain ⟨hwalked, hiff⟩ := ih h
          refine ⟨hfinds.walked.trans hwalked, fun hs => ?_⟩
          rw [hiff (hfinds.walked.seen hs)]
          simp [(hfinds.iff hs).1 rfl]
    · obtain ⟨hwalked, hiff⟩ := ih h
      refine ⟨hwalked, fun hs => ?_⟩
      rw [hiff hs]
      simp [hs _ (not_not.1 hseen)]

theorem isWriteable_spec {page : PageNumber} (hpage : (c.bdb page).marked = false)
    (h : c.isWriteable mark fuel page marks = some (r, marks')) :
    c.Finds mark page marks r marks' := by
  induction fuel generalizing page marks r marks' with
  | zero => cases h
  | succ fuel ih =>
    rw [isWriteable] at h
    cases hloop : c.higherLoop mark (c.isWriteable mark fuel) (c.higher page) marks with
    | none =>
      rw [hloop] at h
      cases h
    | some result =>
      obtain ⟨r₁, marks₁⟩ := result
      rw [hloop] at h
      obtain ⟨hwalked, hiff⟩ := higherLoop_spec (fun p m r m' hp hw => ih hp hw) hloop
      have hall : (∀ precedence ∈ c.higher page, precedence.cleared = false →
          c.AllUnmarked precedence.preHi) ↔ c.AllUnmarked page := by
        rw [allUnmarked_iff]
        refine ⟨fun hq => ⟨hpage, fun p hp => hq _ (edge_higher hp) rfl⟩, fun hq precedence hp
          hcl => ?_⟩
        exact hq.2 _ (higher_edge hp hcl)
      rw [hall] at hiff
      cases r₁ with
      | false =>
        cases h
        exact ⟨hwalked, hiff⟩
      | true =>
        cases h
        -- The page carries the mark from now on.
        refine ⟨⟨fun hs => (hwalked.seen hs).update ((hiff hs).1 rfl), fun p => ?_⟩, hiff⟩
        by_cases heq : p = page
        · subst heq
          exact .inr (update_self ..)
        · rw [update_of_ne heq]
          exact hwalked.frame p

theorem isWriteable_isSome (hacyclic : Dag.Acyclic c.edges) {page : PageNumber}
    (hfuel : Dag.height c.edges page < fuel) (marks : PageNumber → UInt32) :
    (c.isWriteable mark fuel page marks).isSome := by
  induction fuel generalizing page marks with
  | zero => exact absurd hfuel (Nat.not_lt_zero _)
  | succ fuel ih =>
    have hloop : ∀ queue : List Precedence, (∀ precedence ∈ queue, precedence.cleared = false →
        Dag.height c.edges precedence.preHi < fuel) → ∀ marks,
        (c.higherLoop mark (c.isWriteable mark fuel) queue marks).isSome := by
      intro queue hqueue
      induction queue with
      | nil => exact fun _ => rfl
      | cons precedence queue ihq =>
        have hrest := ihq fun p hp => hqueue p (mem_cons_of_mem _ hp)
        intro marks
        rw [higherLoop]
        dsimp only
        split_ifs with hcleared
        · exact hrest _
        · rfl
        · exact hrest _
        · have hsome := ih (hqueue precedence (by simp) (by simpa using hcleared)) marks
          obtain ⟨⟨r₁, marks₁⟩, hw⟩ := Option.isSome_iff_exists.1 hsome
          rw [hw]
          cases r₁ with
          | false => rfl
          | true => exact hrest _
        · exact hrest _
    have hsome := hloop (c.higher page) (fun precedence hp hcl => by
      have := Dag.height_lt hacyclic (higher_edge hp hcl)
      omega) marks
    obtain ⟨⟨r₁, marks₁⟩, hw⟩ := Option.isSome_iff_exists.1 hsome
    rw [isWriteable, hw]
    cases r₁ <;> rfl

theorem height_le_length (es : List (PageNumber × PageNumber)) (page : PageNumber) :
    Dag.height es page ≤ es.length := length_filter_le _ _

end Cache

namespace MarkedCache

variable {s s' : MarkedCache} {fuel : Nat} {page : PageNumber} {r : Bool}

def init (cache : Cache) : MarkedCache := ⟨cache, .init⟩

/-- Between two calls there may be any change of the precedences and of the flags. -/
inductive Step : MarkedCache → MarkedCache → Prop
  | change (s : MarkedCache) (cache : Cache) : Step s ⟨cache, s.writeableMark⟩
  | call {s s' : MarkedCache} {fuel : Nat} {page : PageNumber} {r : Bool}
      (h : s.writeable fuel page = some (r, s')) : Step s s'

theorem writeable_bounded (hbounded : s.writeableMark.Bounded)
    (h : s.writeable fuel page = some (r, s')) : s'.writeableMark.Bounded := by
  rw [writeable] at h
  split_ifs at h with hmarked
  · cases h
    exact hbounded
  · dsimp only at h
    cases hw : s.cache.isWriteable s.writeableMark.next.current fuel page s.writeableMark.next.mark
      with
    | none =>
      rw [hw] at h
      cases h
    | some result =>
      rw [hw] at h
      cases h
      exact hbounded.next.walk (Cache.isWriteable_spec (by simpa using hmarked) hw).walked.frame

theorem Step.bounded (h : Step s s') (hbounded : s.writeableMark.Bounded) :
    s'.writeableMark.Bounded := by
  cases h with
  | change cache => exact hbounded
  | call h => exact writeable_bounded hbounded h

theorem bounded_of_steps {cache : Cache} (h : ReflTransGen Step (init cache) s) :
    s.writeableMark.Bounded := by
  induction h with
  | refl => exact Generation.bounded_init
  | tail _ hstep ih => exact hstep.bounded ih

theorem writeable_of_bounded (hbounded : s.writeableMark.Bounded)
    (hacyclic : Dag.Acyclic s.cache.edges) (hfuel : s.cache.edges.length < fuel)
    (page : PageNumber) :
    ∃ r s', s.writeable fuel page = some (r, s') ∧ (r = true ↔ s.cache.AllUnmarked page) := by
  rw [writeable]
  split_ifs with hmarked
  · refine ⟨false, s, rfl, ?_⟩
    simp only [Bool.false_eq_true, false_iff]
    intro hall
    exact absurd (hall page .refl) (by simp [hmarked])
  · have hle := Nat.lt_of_le_of_lt (Cache.height_le_length s.cache.edges page) hfuel
    obtain ⟨⟨r, marks⟩, hw⟩ := Option.isSome_iff_exists.1
      (@Cache.isWriteable_isSome _ s.writeableMark.next.current _ hacyclic page hle
        s.writeableMark.next.mark)
    dsimp only
    rw [hw]
    refine ⟨r, _, rfl, ?_⟩
    exact (Cache.isWriteable_spec (by simpa using hmarked) hw).iff fun p hp =>
      absurd hp (hbounded.next_fresh p)

/-- After any calls and changes, the check comes to an end, and the page can be written if and only
if no buffer that has to be written with it or before it is marked. -/
theorem writeable_correct {cache : Cache} (hrun : ReflTransGen Step (init cache) s)
    (hacyclic : Dag.Acyclic s.cache.edges) (hfuel : s.cache.edges.length < fuel)
    (page : PageNumber) :
    ∃ r s', s.writeable fuel page = some (r, s') ∧ (r = true ↔ s.cache.AllUnmarked page) :=
  writeable_of_bounded (bounded_of_steps hrun) hacyclic hfuel page

/-- `writeable` is right in every state that the calls on the cache lead to. -/
theorem writeable_of_runCache {cache : Cache} {superServer : Bool} {fuel' : Nat}
    {as : List CacheAction} (hrun : ReflTransGen Step (init cache) s)
    (hcache : runCache superServer fuel' as .init = some s.cache)
    (hfuel : s.cache.edges.length < fuel) (page : PageNumber) :
    ∃ r s', s.writeable fuel page = some (r, s') ∧ (r = true ↔ s.cache.AllUnmarked page) :=
  writeable_of_bounded (bounded_of_steps hrun)
    ((runCache_steps Jrd.init_ok hcache).ok Jrd.init_ok).acyclic hfuel page

def markedRun : List CacheAction :=
  [.fake true ⟨1, 2⟩, .mark false ⟨1, 2⟩, .fetch ⟨1, 1⟩, .precedence ⟨1, 1⟩ ⟨1, 2⟩ 0]

theorem writeable_of_runCache_marked :
    ∃ c, runCache true 9 markedRun .init = some c ∧
      ∃ r s', (MarkedCache.mk c .init).writeable 9 ⟨1, 1⟩ = some (r, s') ∧
        (r = true ↔ c.AllUnmarked ⟨1, 1⟩) := by
  have hends : ∃ c, runCache true 9 markedRun .init = some c ∧ c.edges.length < 9 :=
    ⟨_, rfl, by decide⟩
  obtain ⟨c, hcache, hfuel⟩ := hends
  exact ⟨c, hcache,
    writeable_of_runCache (.single (.change (init .init) c)) hcache hfuel ⟨1, 1⟩⟩

def pair (marked : PageNumber → Bool) (low high : PageNumber) : Cache where
  bdb page := ⟨false, true, true, marked page, false, false, 0⟩
  links := [⟨low, high, false⟩]
  log := []

/-- The second call is about the same page, but the page that it waits for has been marked since. -/
theorem writeable_correct_again :
    ∃ s, (init (pair (fun _ => false) ⟨1, 1⟩ ⟨1, 2⟩)).writeable 2 ⟨1, 1⟩ = some (true, s) ∧
      ∃ r s', (MarkedCache.mk (pair (· = ⟨1, 2⟩) ⟨1, 1⟩ ⟨1, 2⟩) s.writeableMark).writeable 2
        ⟨1, 1⟩ =
        some (r, s') ∧ (r = true ↔ (pair (· = ⟨1, 2⟩) ⟨1, 1⟩ ⟨1, 2⟩).AllUnmarked ⟨1, 1⟩) := by
  have hcall : (init (pair (fun _ => false) ⟨1, 1⟩ ⟨1, 2⟩)).writeable 2 ⟨1, 1⟩ = some (true, _) :=
    rfl
  have hpath : ∀ x y, ¬Dag.Path ([] : List (PageNumber × PageNumber)) x y := fun x y h => by
    obtain ⟨z, hz⟩ := h.last
    cases hz
  refine ⟨_, hcall, writeable_correct (.tail (.single (.call hcall)) (.change _ _)) ?_ (by decide)
    ⟨1, 1⟩⟩
  exact Dag.Acyclic.cons (fun x => hpath x x) (by decide) (hpath _ _)

end MarkedCache
end Firebird.Jrd
