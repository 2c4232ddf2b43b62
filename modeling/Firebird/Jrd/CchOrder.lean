import Firebird.Jrd.Cch
import Firebird.Lib.Dag

/-!
# Careful writes

Every operation of the cache is a sequence of small steps that keep the precedence graph free of
cycles. A page that was made to wait for another one is not written before it.
-/
namespace Firebird.Jrd.Cache

open Lib Lib.Dag Relation

variable {superServer : Bool} {c c' c'' : Cache} {p low high page : PageNumber}

/-- The precedences that are not cleared, from the low page to the high one. -/
def edges (c : Cache) : List (PageNumber × PageNumber) :=
  (c.links.filter fun l => !l.cleared).map fun l => (l.preLow, l.preHi)

theorem mem_edges {x y : PageNumber} : (x, y) ∈ c.edges ↔ ⟨x, y, false⟩ ∈ c.links := by
  unfold edges
  simp only [List.mem_map, List.mem_filter, Prod.mk.injEq, Bool.not_eq_eq_eq_not]
  constructor
  · rintro ⟨⟨low, high, cleared⟩, ⟨hl, rfl⟩, rfl, rfl⟩
    exact hl
  · intro hl
    exact ⟨_, ⟨hl, rfl⟩, rfl, rfl⟩

theorem edges_subset (h : c'.links ⊆ c.links) : c'.edges ⊆ c.edges := by
  rintro ⟨x, y⟩ he
  exact mem_edges.mpr (h (mem_edges.mp he))

/-- There is no cycle, and a page that others wait for is dirty. -/
structure Ok (c : Cache) : Prop where
  acyclic : Acyclic c.edges
  dirty : ∀ x y, (x, y) ∈ c.edges → (c.bdb y).dirty = true

/-! ## Small steps -/

inductive Step (superServer : Bool) : Cache → Cache → Prop where
  /-- A cleared precedence goes. -/
  | unlink {c : Cache} {l : Precedence} (hl : l.cleared = true) : Step superServer c (c.unlink l)
  /-- Nobody waits for a page that is not dirty. -/
  | drop {c : Cache} {p : PageNumber} (hd : (c.bdb p).dirty = false) :
      Step superServer c (c.clearPrecedence p)
  | write {c : Cache} {p : PageNumber} (hp : c.higher p = []) :
      Step superServer c ((c.writePage superServer p).clearPrecedence p)
  | pass {c : Cache} {p : PageNumber} (hp : c.higher p = []) (hf : (c.bdb p).faked = true)
      (hm : (c.bdb p).marked = true) : Step superServer c ((c.passPage p).clearPrecedence p)
  | link {c : Cache} {low high : PageNumber} (hd : (c.bdb high).dirty = true) (hne : low ≠ high)
      (hpath : ¬ Path c.edges high low) : Step superServer c (c.link low high)
  | update {c : Cache} {p : PageNumber} {f : BufferDesc → BufferDesc}
      (hv : (c.bdb p).version ≤ (f (c.bdb p)).version)
      (hd : (∃ x, (x, p) ∈ c.edges) → (f (c.bdb p)).dirty = true) :
      Step superServer c (c.update p f)

def Steps (superServer : Bool) : Cache → Cache → Prop := ReflTransGen (Step superServer)

theorem higher_eq_nil : c.higher p = [] ↔ ∀ l ∈ c.links, l.preLow ≠ p := by
  simp [higher]

theorem lower_eq_nil : c.lower p = [] ↔ ∀ l ∈ c.links, l.preHi ≠ p := by
  simp [lower]

theorem no_edge_of_higher (h : c.higher p = []) (y : PageNumber) : (p, y) ∉ c.edges :=
  fun he => higher_eq_nil.mp h _ (mem_edges.mp he) rfl

theorem no_path_of_higher (h : c.higher p = []) (y : PageNumber) : ¬ Path c.edges p y := by
  intro hp
  obtain ⟨z, hz, -⟩ := hp.first
  exact no_edge_of_higher h z hz

theorem no_path_of_lower (h : ∀ l ∈ c.links, l.preHi ≠ p) (x : PageNumber) :
    ¬ Path c.edges x p := by
  intro hp
  obtain ⟨z, hz⟩ := hp.last
  exact h _ (mem_edges.mp hz) rfl

theorem edges_clearPrecedence (c : Cache) (p : PageNumber) :
    (c.clearPrecedence p).edges = cut p c.edges := by
  unfold edges clearPrecedence cut
  simp only [List.filter_filter, List.filter_map]
  congr 1
  refine List.filter_congr fun l _ => ?_
  rw [Function.comp_apply, Bool.and_comm]

variable {l : Precedence}

theorem edges_unlink (hl : l.cleared = true) {x y : PageNumber} :
    (x, y) ∈ (c.unlink l).edges ↔ (x, y) ∈ c.edges := by
  rw [mem_edges, mem_edges, unlink]
  refine List.mem_erase_of_ne fun e => ?_
  rw [← e] at hl
  cases hl

theorem Step.ok (h : Step superServer c c') (hok : c.Ok) : c'.Ok := by
  cases h with
  | unlink hl =>
    refine ⟨hok.acyclic.mono ?_, fun x y he => hok.dirty x y ((edges_unlink hl).mp he)⟩
    rintro ⟨x, y⟩ he
    exact (edges_unlink hl).mp he
  | drop hd =>
    rename_i p
    have hedges := edges_clearPrecedence c p
    refine ⟨hedges ▸ hok.acyclic.mono (cut_subset _ _), fun x y he => ?_⟩
    rw [hedges, mem_cut] at he
    exact hok.dirty x y he.1
  | write hp =>
    rename_i p
    have hedges := edges_clearPrecedence (c.writePage superServer p) p
    refine ⟨hedges ▸ hok.acyclic.mono (cut_subset _ _), fun x y he => ?_⟩
    rw [hedges, mem_cut] at he
    change (Function.update c.bdb p _ y).dirty = true
    rw [Function.update_of_ne he.2]
    exact hok.dirty x y he.1
  | pass hp hf hm =>
    rename_i p
    have hedges := edges_clearPrecedence (c.passPage p) p
    refine ⟨hedges ▸ hok.acyclic.mono (cut_subset _ _), fun x y he => ?_⟩
    rw [hedges, mem_cut] at he
    exact hok.dirty x y he.1
  | link hd hne hpath =>
    refine ⟨hok.acyclic.cons hne hpath, fun x y he => ?_⟩
    rcases List.mem_cons.mp he with he | he
    · cases he
      exact hd
    · exact hok.dirty x y he
  | update hv hd =>
    rename_i p f
    refine ⟨hok.acyclic, fun x y he => ?_⟩
    change (Function.update c.bdb p _ y).dirty = true
    by_cases hy : y = p
    · subst hy
      rw [Function.update_self]
      exact hd ⟨x, he⟩
    · rw [Function.update_of_ne hy]
      exact hok.dirty x y he

theorem Step.version_le (h : Step superServer c c') (q : PageNumber) :
    (c.bdb q).version ≤ (c'.bdb q).version := by
  cases h with
  | unlink | drop | pass | link => exact Nat.le_refl _
  | write hp =>
    rename_i p
    change _ ≤ (Function.update c.bdb p _ q).version
    by_cases hq : q = p
    · subst hq
      exact Nat.le_of_eq (by rw [Function.update_self])
    · exact Nat.le_of_eq (by rw [Function.update_of_ne hq])
  | update hv hd =>
    rename_i p f
    change _ ≤ (Function.update c.bdb p _ q).version
    by_cases hq : q = p
    · subst hq
      rwa [Function.update_self]
    · exact Nat.le_of_eq (by rw [Function.update_of_ne hq])

theorem Step.log (h : Step superServer c c') : ∃ ev, c'.log = ev ++ c.log := by
  cases h with
  | unlink | drop | link | update => exact ⟨[], rfl⟩
  | write | pass => exact ⟨[_], rfl⟩

theorem Steps.ok (h : Steps superServer c c') (hok : c.Ok) : c'.Ok := by
  induction h with
  | refl => exact hok
  | tail _ hstep ih => exact hstep.ok ih

theorem Steps.version_le (h : Steps superServer c c') (q : PageNumber) :
    (c.bdb q).version ≤ (c'.bdb q).version := by
  induction h with
  | refl => exact Nat.le_refl _
  | tail _ hstep ih => exact Nat.le_trans ih (hstep.version_le q)

theorem Steps.log (h : Steps superServer c c') : ∃ ev, c'.log = ev ++ c.log := by
  induction h with
  | refl => exact ⟨[], rfl⟩
  | tail _ hstep ih =>
    obtain ⟨ev, hev⟩ := ih
    obtain ⟨ev', hev'⟩ := hstep.log
    exact ⟨ev' ++ ev, by rw [hev', hev, List.append_assoc]⟩

/-- Among the events there is a write of the page with the changes up to `v`, or it was passed over
while it was faked and marked. -/
def Done (page : PageNumber) (v : Nat) (ev : List CacheEvent) : Prop :=
  (∃ v' ≥ v, .wrote page v' ∈ ev) ∨ .passed page true true ∈ ev

variable {v : Nat} {ev : List CacheEvent}

theorem Done.append (h : Done page v ev) (ev' : List CacheEvent) : Done page v (ev' ++ ev) := by
  rcases h with ⟨v', hv', hmem⟩ | hmem
  · exact .inl ⟨v', hv', List.mem_append_right _ hmem⟩
  · exact .inr (List.mem_append_right _ hmem)

def Ordered (low high : PageNumber) (v : Nat) (during ev : List CacheEvent) : Prop :=
  ∀ after mid v', ev = after ++ .wrote low v' :: mid → Done high v (mid ++ during)

variable {during : List CacheEvent}

theorem Ordered.nil : Ordered low high v during [] := by
  intro after mid v' he
  simp at he

theorem Ordered.cons {e : CacheEvent} (h : Ordered low high v during ev)
    (he : ∀ v', e = .wrote low v' → Done high v (ev ++ during)) :
    Ordered low high v during (e :: ev) := by
  intro after mid v' heq
  cases after with
  | nil =>
    obtain ⟨rfl, rfl⟩ := List.cons.inj heq
    exact he v' rfl
  | cons a after =>
    obtain ⟨-, rfl⟩ := List.cons.inj heq
    exact h after mid v' rfl

/-- The high page is done or the low one waits for it, `ev` being what has happened since the call
of `CCH_precedence` and `during` what happened in it. -/
structure Keeps (low high : PageNumber) (v : Nat) (base during ev : List CacheEvent) (c : Cache) :
    Prop where
  log : c.log = ev ++ (during ++ base)
  version : v ≤ (c.bdb high).version
  path : Done high v (ev ++ during) ∨ Path c.edges low high
  ordered : Ordered low high v during ev

variable {base : List CacheEvent}

theorem Keeps.cut {e : CacheEvent} (hk : Keeps low high v base during ev c) (hp : c.higher p = [])
    (hlog : c'.log = e :: c.log) (hedges : c'.edges = cut p c.edges)
    (hv : v ≤ (c'.bdb high).version) (hdone : p = high → Done high v [e])
    (he : ∀ v', e = .wrote low v' → p = low) : Keeps low high v base during (e :: ev) c' := by
  refine ⟨by rw [hlog, hk.log, List.cons_append], hv, ?_, hk.ordered.cons fun v' hw => ?_⟩
  · rcases hk.path with hd | hpath
    · exact .inl (hd.append [e])
    · rcases hpath.cut (no_edge_of_higher hp) with hhigh | hpath
      · refine .inl ?_
        rcases hdone hhigh.symm with ⟨v', hv', hmem⟩ | hmem
        · exact .inl ⟨v', hv', List.mem_append_left _ (by simpa using Or.inl hmem)⟩
        · exact .inr (List.mem_append_left _ (by simpa using Or.inl hmem))
      · exact .inr (hedges ▸ hpath)
  · obtain rfl := he v' hw
    exact hk.path.resolve_right (no_path_of_higher hp high)

theorem Step.keeps (h : Step superServer c c')
    (hok : c.Ok) (hk : Keeps low high v base during ev c) :
    ∃ ev', Keeps low high v base during (ev' ++ ev) c' := by
  have hv := Nat.le_trans hk.version (h.version_le high)
  cases h with
  | unlink hl =>
    refine ⟨[], hk.log, hv, hk.path.imp_right fun hp => hp.mono ?_, hk.ordered⟩
    rintro ⟨x, y⟩ he
    exact (edges_unlink hl).mpr he
  | drop hd =>
    refine ⟨[], hk.log, hv, hk.path.imp_right fun hp => hp.mono ?_, hk.ordered⟩
    rintro ⟨x, y⟩ he
    rw [edges_clearPrecedence, mem_cut]
    refine ⟨he, ?_⟩
    rintro rfl
    rw [hok.dirty x y he] at hd
    cases hd
  | write hp =>
    refine ⟨[_], hk.cut hp rfl (edges_clearPrecedence _ _) hv ?_ ?_⟩
    · rintro rfl
      exact .inl ⟨_, hk.version, List.mem_singleton_self _⟩
    · intro v' he
      exact (CacheEvent.wrote.inj he).1
  | pass hp hf hm =>
    refine ⟨[_], hk.cut hp rfl (edges_clearPrecedence _ _) hv ?_ ?_⟩
    · rintro rfl
      rw [hf, hm]
      exact .inr (List.mem_singleton_self _)
    · intro v' he
      cases he
  | link hd hne hpath =>
    exact ⟨[], hk.log, hv, hk.path.imp_right fun hp => hp.mono (List.subset_cons_self _ _),
      hk.ordered⟩
  | update => exact ⟨[], hk.log, hv, hk.path, hk.ordered⟩

theorem Steps.keeps (h : Steps superServer c c')
    (hok : c.Ok) (hk : Keeps low high v base during ev c) :
    ∃ ev', Keeps low high v base during (ev' ++ ev) c' := by
  induction h with
  | refl => exact ⟨[], hk⟩
  | tail hsteps hstep ih =>
    obtain ⟨ev', hk'⟩ := ih
    obtain ⟨ev'', hk''⟩ := hstep.keeps (Steps.ok hsteps hok) hk'
    exact ⟨ev'' ++ ev', by rwa [List.append_assoc]⟩

/-! ## `write_buffer` -/

/-- What a call of `write_buffer` for the page does. -/
structure Writes (superServer : Bool) (page : PageNumber) (c c' : Cache) : Prop where
  steps : Steps superServer c c'
  links : c'.links.Sublist c.links
  /-- Pages that the page does not wait for are left alone. -/
  frame : ∀ q, q ≠ page → ¬ Path c.edges page q → c'.bdb q = c.bdb q

theorem Writes.refl : Writes superServer page c c := ⟨.refl, .refl _, fun _ _ _ => rfl⟩

theorem Writes.trans (h₁ : Writes superServer page c c') (h₂ : Writes superServer page c' c'') :
    Writes superServer page c c'' := by
  refine ⟨h₁.steps.trans h₂.steps, h₂.links.trans h₁.links, fun q hq hpath => ?_⟩
  rw [h₂.frame q hq fun hp => hpath (hp.mono (edges_subset h₁.links.subset)), h₁.frame q hq hpath]

theorem edge_of_higher (hl : l ∈ c.higher page) (hclear : l.cleared = false) :
    (page, l.preHi) ∈ c.edges := by
  obtain ⟨hmem, hlow⟩ := List.mem_filter.mp hl
  obtain ⟨low, hi, cleared⟩ := l
  obtain rfl : low = page := by simpa using hlow
  obtain rfl : cleared = false := hclear
  exact mem_edges.mpr hmem

/-- A call for a page that this one waits for. -/
theorem Writes.higher (hl : l ∈ c.higher page) (hclear : l.cleared = false)
    (h : Writes superServer l.preHi c c') : Writes superServer page c c' := by
  have hedge := edge_of_higher hl hclear
  refine ⟨h.steps, h.links, fun q hq hpath => h.frame q ?_ fun hp => hpath (.head hedge hp)⟩
  rintro rfl
  exact hpath (.single hedge)

theorem Writes.unlink (hl : l.cleared = true) : Writes superServer page c (c.unlink l) :=
  ⟨.single (.unlink hl), List.erase_sublist, fun _ _ _ => rfl⟩

theorem Writes.drop (h : (c.bdb page).dirty = false) :
    Writes superServer page c (c.clearPrecedence page) :=
  ⟨.single (.drop h), List.filter_sublist, fun _ _ _ => rfl⟩

/-- What `write_buffer` has seen of a buffer when it comes to its loop. -/
structure Due (writeThru : Bool) (b : BufferDesc) : Prop where
  dirty : (b.dirty || writeThru && b.dbDirty) = true
  faked : b.marked = true → b.faked = true

theorem Due.passed {writeThru : Bool} {b : BufferDesc} (h : Due writeThru b)
    (hpass : ¬((b.dirty || writeThru && b.dbDirty) && !b.marked) = true) :
    b.faked = true ∧ b.marked = true := by
  rw [h.dirty, Bool.true_and, Bool.not_eq_true, Bool.not_eq_false'] at hpass
  exact ⟨h.faked hpass, hpass⟩

variable {writeThru thisPage : Bool}

theorem Writes.this (hdue : Due writeThru (c.bdb page)) (h : c.higher page = []) :
    Writes superServer page c (c.writeThis superServer writeThru thisPage page).2 := by
  unfold writeThis
  dsimp only
  split_ifs with hwrite
  · refine ⟨.single (.write h), List.filter_sublist, fun q hq _ => ?_⟩
    exact Function.update_of_ne hq _ _
  · obtain ⟨hf, hm⟩ := hdue.passed hwrite
    exact ⟨.single (.pass h hf hm), List.filter_sublist, fun _ _ _ => rfl⟩

theorem writeThis_done (hdue : Due writeThru (c.bdb page)) :
    ∃ ev, (c.writeThis superServer writeThru thisPage page).2.log = ev ++ c.log ∧
      Done page (c.bdb page).version ev := by
  unfold writeThis
  dsimp only
  split_ifs with hwrite
  · exact ⟨[.wrote page (c.bdb page).version], rfl, .inl ⟨_, Nat.le_refl _, by simp⟩⟩
  · obtain ⟨hf, hm⟩ := hdue.passed hwrite
    exact ⟨[_], rfl, .inr (by simp [hf, hm])⟩

theorem writeThis_links (writeThru thisPage : Bool) (c : Cache) (page : PageNumber) :
    (c.writeThis superServer writeThru thisPage page).2.links =
      (c.clearPrecedence page).links := by
  unfold writeThis
  dsimp only
  split_ifs <;> rfl

theorem clearPrecedence_preHi (c : Cache) (page : PageNumber) :
    ∀ l ∈ (c.clearPrecedence page).links, l.preHi ≠ page := by
  intro l hl
  simpa using (List.mem_filter.mp hl).2

variable {fuel : Nat} {o : Outcome}

theorem writeHigher_cases
    (h : writeHigher superServer (fuel + 1) writeThru thisPage page c = some (o, c')) :
    (c.higher page = [] ∧ (o, c') = c.writeThis superServer writeThru thisPage page) ∨
    (∃ l ∈ c.higher page, l.cleared = true ∧
      writeHigher superServer fuel writeThru thisPage page (c.unlink l) = some (o, c')) ∨
    ∃ l ∈ c.higher page, l.cleared = false ∧ ∃ o₁ c₁,
      writeBuffer superServer fuel writeThru false l.preHi c = some (o₁, c₁) ∧
      ((c' = c₁ ∧ ((∀ n, o ≠ .status n) ∨ superServer = true ∧ thisPage = false ∧
          ∃ n, o₁ = .status n)) ∨
        (∃ n, o₁ = .status n) ∧
          writeHigher superServer fuel writeThru thisPage page c₁ = some (o, c')) := by
  rw [writeHigher] at h
  split at h
  · rename_i hnil
    exact .inl ⟨hnil, (Option.some.inj h).symm⟩
  · rename_i l ls hcons
    have hmem : l ∈ c.higher page := hcons ▸ List.mem_cons_self
    cases hclear : l.cleared with
    | true => exact .inr (.inl ⟨l, hmem, hclear, by simpa [hclear] using h⟩)
    | false =>
      rw [hclear, if_neg (by simp)] at h
      refine .inr (.inr ⟨l, hmem, hclear, ?_⟩)
      cases hw : writeBuffer superServer fuel writeThru false l.preHi c with
      | none =>
        rw [hw] at h
        cases h
      | some r =>
        obtain ⟨o₁, c₁⟩ := r
        rw [hw] at h
        refine ⟨o₁, c₁, rfl, ?_⟩
        cases o₁ with
        | status n =>
          dsimp only at h
          split_ifs at h with h₁ h₂
          · cases h
            exact .inl ⟨rfl, .inr ⟨by simp_all, by simp_all, n, rfl⟩⟩
          · cases h
            exact .inl ⟨rfl, .inl (by simp)⟩
          · exact .inr ⟨⟨n, rfl⟩, h⟩
        | bugcheck n =>
          cases h
          exact .inl ⟨rfl, .inl (by simp)⟩
        | deadlock =>
          cases h
          exact .inl ⟨rfl, .inl (by simp)⟩

theorem writeBuffer_cases
    (h : writeBuffer superServer (fuel + 1) writeThru thisPage page c = some (o, c')) :
    (c' = c ∧ ∀ n, o ≠ .status n) ∨
    (c' = c.clearPrecedence page ∧ (c.bdb page).dirty = false) ∨
    Due writeThru (c.bdb page) ∧
      writeHigher superServer fuel writeThru thisPage page c = some (o, c') := by
  rw [writeBuffer] at h
  split_ifs at h with h₁ h₂ h₃
  · cases h
    exact .inl ⟨rfl, by simp⟩
  · cases h
    exact .inl ⟨rfl, by simp⟩
  · cases h
    rw [Bool.and_eq_true, Bool.not_eq_true'] at h₃
    exact .inr (.inl ⟨rfl, h₃.1⟩)
  · refine .inr (.inr ⟨⟨?_, fun hm => ?_⟩, h⟩)
    · rwa [← Bool.not_or, Bool.not_eq_true', Bool.not_eq_false] at h₃
    · simpa [hm] using h₂

theorem Ok.frame_higher (hok : c.Ok) (hl : l ∈ c.higher page) (hclear : l.cleared = false)
    (h : Writes superServer l.preHi c c') : c'.bdb page = c.bdb page := by
  have hedge := edge_of_higher hl hclear
  refine h.frame page ?_ fun hp => hok.acyclic page (.head hedge hp)
  intro he
  rw [← he] at hedge
  exact hok.acyclic page (.single hedge)

theorem write_writes (superServer : Bool) (fuel : Nat) :
    (∀ {writeThru thisPage : Bool} {page : PageNumber} {c c' : Cache} {o : Outcome}, c.Ok →
      writeBuffer superServer fuel writeThru thisPage page c = some (o, c') →
        Writes superServer page c c') ∧
    ∀ {writeThru thisPage : Bool} {page : PageNumber} {c c' : Cache} {o : Outcome}, c.Ok →
      Due writeThru (c.bdb page) →
      writeHigher superServer fuel writeThru thisPage page c = some (o, c') →
        Writes superServer page c c' := by
  induction fuel with
  | zero =>
    constructor
    · intro _ _ _ _ _ _ _ h
      cases h
    · intro _ _ _ _ _ _ _ _ h
      cases h
  | succ fuel ih =>
    constructor
    · intro writeThru thisPage page c c' o hok h
      rcases writeBuffer_cases h with ⟨rfl, -⟩ | ⟨rfl, hclean⟩ | ⟨hdue, h⟩
      · exact .refl
      · exact .drop hclean
      · exact ih.2 hok hdue h
    · intro writeThru thisPage page c c' o hok hdue h
      rcases writeHigher_cases h with ⟨hnil, he⟩ | ⟨l, -, hclear, h⟩ |
        ⟨l, hl, hclear, o₁, c₁, hw, ⟨rfl, -⟩ | ⟨-, h⟩⟩
      · obtain rfl : c' = _ := (Prod.ext_iff.mp he).2
        exact .this hdue hnil
      · have hun : Writes superServer page c (c.unlink l) := .unlink hclear
        exact hun.trans (ih.2 (hun.steps.ok hok) hdue h)
      · exact .higher hl hclear (ih.1 hok hw)
      · have hhigher := ih.1 hok hw
        have hdue₁ : Due writeThru (c₁.bdb page) := hok.frame_higher hl hclear hhigher ▸ hdue
        exact (Writes.higher hl hclear hhigher).trans (ih.2 (hhigher.steps.ok hok) hdue₁ h)

theorem writeBuffer_writes (hok : c.Ok)
    (h : writeBuffer superServer fuel writeThru thisPage page c = some (o, c')) :
    Writes superServer page c c' := (write_writes superServer fuel).1 hok h

theorem writeHigher_writes (hok : c.Ok) (hdue : Due writeThru (c.bdb page))
    (h : writeHigher superServer fuel writeThru thisPage page c = some (o, c')) :
    Writes superServer page c c' := (write_writes superServer fuel).2 hok hdue h

variable {n : Nat}

theorem writeHigher_done (hok : c.Ok) (hdue : Due writeThru (c.bdb page))
    (h : writeHigher superServer fuel writeThru true page c = some (.status n, c')) :
    (∀ l ∈ c'.links, l.preHi ≠ page) ∧
      ∃ ev, c'.log = ev ++ c.log ∧ Done page (c.bdb page).version ev := by
  induction fuel generalizing c with
  | zero =>
    cases h
  | succ fuel ih =>
    rcases writeHigher_cases h with ⟨-, he⟩ | ⟨l, -, hclear, h⟩ |
      ⟨l, hl, hclear, o₁, c₁, hw, ⟨-, hstop⟩ | ⟨-, h⟩⟩
    · obtain rfl : c' = _ := (Prod.ext_iff.mp he).2
      rw [writeThis_links]
      exact ⟨clearPrecedence_preHi c page, writeThis_done hdue⟩
    · have hstep : Step superServer c (c.unlink l) := .unlink hclear
      exact ih (c := c.unlink l) (hstep.ok hok) hdue h
    · rcases hstop with hstop | ⟨-, hthis, -⟩
      · exact absurd rfl (hstop n)
      · cases hthis
    · have hwrites := writeBuffer_writes hok hw
      have hsteps := hwrites.steps
      have hdue₁ : Due writeThru (c₁.bdb page) := hok.frame_higher hl hclear hwrites ▸ hdue
      obtain ⟨hlinks, ev, hlog, hdone⟩ := ih (hsteps.ok hok) hdue₁ h
      obtain ⟨ev', hlog'⟩ := hsteps.log
      have hversion := hsteps.version_le page
      refine ⟨hlinks, ev ++ ev', by rw [hlog, hlog', List.append_assoc], ?_⟩
      rcases hdone with ⟨v', hv', hmem⟩ | hmem
      · exact .inl ⟨v', Nat.le_trans hversion hv', List.mem_append_left _ hmem⟩
      · exact .inr (List.mem_append_left _ hmem)

theorem writeBuffer_done (hok : c.Ok)
    (h : writeBuffer superServer fuel writeThru true page c = some (.status n, c')) :
    (∀ l ∈ c'.links, l.preHi ≠ page) ∧ ((c.bdb page).dirty = true →
      ∃ ev, c'.log = ev ++ c.log ∧ Done page (c.bdb page).version ev) := by
  cases fuel with
  | zero =>
    cases h
  | succ fuel =>
    rcases writeBuffer_cases h with ⟨-, hne⟩ | ⟨rfl, hclean⟩ | ⟨hdue, h⟩
    · exact absurd rfl (hne n)
    · refine ⟨clearPrecedence_preHi c page, fun hdirty => ?_⟩
      rw [hclean] at hdirty
      cases hdirty
    · obtain ⟨hlinks, hdone⟩ := writeHigher_done hok hdue h
      exact ⟨hlinks, fun _ => hdone⟩

theorem write_mono (superServer : Bool) {fuel' : Nat} (hle : fuel ≤ fuel') :
    (∀ {writeThru thisPage : Bool} {page : PageNumber} {c : Cache} {r : Outcome × Cache},
      writeBuffer superServer fuel writeThru thisPage page c = some r →
        writeBuffer superServer fuel' writeThru thisPage page c = some r) ∧
    ∀ {writeThru thisPage : Bool} {page : PageNumber} {c : Cache} {r : Outcome × Cache},
      writeHigher superServer fuel writeThru thisPage page c = some r →
        writeHigher superServer fuel' writeThru thisPage page c = some r := by
  induction fuel generalizing fuel' with
  | zero =>
    constructor
    · intro _ _ _ _ _ h
      cases h
    · intro _ _ _ _ _ h
      cases h
  | succ fuel ih =>
    obtain ⟨fuel', rfl⟩ : ∃ k, fuel' = k + 1 := ⟨fuel' - 1, by omega⟩
    have ih := ih (Nat.le_of_succ_le_succ hle)
    constructor
    · intro writeThru thisPage page c r h
      rw [writeBuffer] at h ⊢
      split_ifs at h ⊢ with h₁ h₂ h₃
      · exact h
      · exact h
      · exact h
      · exact ih.2 h
    · intro writeThru thisPage page c r h
      rw [writeHigher] at h ⊢
      split at h
      · exact h
      · rename_i l ls _
        by_cases hclear : l.cleared = true
        · rw [if_pos hclear] at h ⊢
          exact ih.2 h
        rw [if_neg hclear] at h ⊢
        cases hw : writeBuffer superServer fuel writeThru false l.preHi c with
        | none =>
          rw [hw] at h
          cases h
        | some r₁ =>
          obtain ⟨o₁, c₁⟩ := r₁
          rw [hw] at h
          rw [ih.1 hw]
          cases o₁ with
          | status n =>
            dsimp only at h ⊢
            by_cases h₁ : (superServer && !thisPage) = true
            · rw [if_pos h₁] at h ⊢
              exact h
            rw [if_neg h₁] at h ⊢
            by_cases h₂ : (superServer && (c₁.bdb page).marked) = true
            · rw [if_pos h₂] at h ⊢
              exact h
            rw [if_neg h₂] at h ⊢
            exact ih.2 h
          | bugcheck n => exact h
          | deadlock => exact h

theorem write_shrinks (superServer : Bool) (fuel : Nat) :
    (∀ {writeThru thisPage : Bool} {page : PageNumber} {c c' : Cache} {n : Nat}, c.Ok →
      writeBuffer superServer fuel writeThru thisPage page c = some (.status n, c') →
        (∃ l ∈ c.links, l.preHi = page) → c'.links.length < c.links.length) ∧
    ∀ {writeThru thisPage : Bool} {page : PageNumber} {c c' : Cache} {n : Nat}, c.Ok →
      Due writeThru (c.bdb page) →
      writeHigher superServer fuel writeThru thisPage page c = some (.status n, c') →
        (∃ l ∈ c.links, l.preHi = page) → c'.links.length < c.links.length := by
  have hclear : ∀ {c : Cache} {page : PageNumber}, (∃ l ∈ c.links, l.preHi = page) →
      (c.clearPrecedence page).links.length < c.links.length := by
    rintro c page ⟨l, hl, rfl⟩
    exact List.length_filter_lt_length_iff_exists.mpr ⟨l, hl, by simp⟩
  induction fuel with
  | zero =>
    constructor
    · intro _ _ _ _ _ _ _ h
      cases h
    · intro _ _ _ _ _ _ _ _ h
      cases h
  | succ fuel ih =>
    constructor
    · intro writeThru thisPage page c c' n hok h hwait
      rcases writeBuffer_cases h with ⟨-, hne⟩ | ⟨rfl, -⟩ | ⟨hdue, h⟩
      · exact absurd rfl (hne n)
      · exact hclear hwait
      · exact ih.2 hok hdue h hwait
    · intro writeThru thisPage page c c' n hok hdue h hwait
      rcases writeHigher_cases h with ⟨-, he⟩ | ⟨l, hl, hcleared, h⟩ |
        ⟨l, hl, hcleared, o₁, c₁, hw, ⟨rfl, hstop⟩ | ⟨⟨n₁, rfl⟩, h⟩⟩
      · obtain rfl : c' = _ := (Prod.ext_iff.mp he).2
        rw [writeThis_links]
        exact hclear hwait
      · have hmem : l ∈ c.links := (List.mem_filter.mp hl).1
        have hlen : (c.unlink l).links.length = c.links.length - 1 := List.length_erase_of_mem hmem
        have hpos := List.length_pos_of_mem hmem
        have hstep : Step superServer c (c.unlink l) := .unlink hcleared
        have hle := (writeHigher_writes (hstep.ok hok) hdue h).links.length_le
        omega
      · rcases hstop with hstop | ⟨-, -, n₁, rfl⟩
        · exact absurd rfl (hstop n)
        · exact ih.1 hok hw ⟨l, (List.mem_filter.mp hl).1, rfl⟩
      · have hlt := ih.1 hok hw ⟨l, (List.mem_filter.mp hl).1, rfl⟩
        have hwrites := writeBuffer_writes hok hw
        have hdue₁ : Due writeThru (c₁.bdb page) := hok.frame_higher hl hcleared hwrites ▸ hdue
        have hle := (writeHigher_writes (hwrites.steps.ok hok) hdue₁ h).links.length_le
        omega

theorem writeBuffer_of_writeHigher {r : Outcome × Cache}
    (h : writeHigher superServer fuel writeThru thisPage page c = some r) :
    ∃ r', writeBuffer superServer (fuel + 1) writeThru thisPage page c = some r' := by
  rw [writeBuffer]
  split_ifs
  · exact ⟨_, rfl⟩
  · exact ⟨_, rfl⟩
  · exact ⟨_, rfl⟩
  · exact ⟨r, h⟩

theorem writeHigher_ends (superServer : Bool) (hok : c.Ok) (writeThru thisPage : Bool)
    (page : PageNumber) : ∃ fuel r, writeHigher superServer fuel writeThru thisPage page c = some
      r := by
  induction hn : c.links.length using Nat.strongRecOn generalizing c page thisPage with
  | _ n ihn =>
    induction hh : height c.edges page using Nat.strongRecOn generalizing page thisPage with
    | _ d ihd =>
      subst hn hh
      cases hq : c.higher page with
      | nil => exact ⟨1, _, by rw [writeHigher, hq]⟩
      | cons l ls =>
        have hl : l ∈ c.higher page := hq ▸ List.mem_cons_self
        have hmem : l ∈ c.links := (List.mem_filter.mp hl).1
        cases hclear : l.cleared with
        | true =>
          have hlt : (c.unlink l).links.length < c.links.length := by
            have hlen : (c.unlink l).links.length = c.links.length - 1 :=
              List.length_erase_of_mem hmem
            have hpos := List.length_pos_of_mem hmem
            omega
          have hstep : Step superServer c (c.unlink l) := .unlink hclear
          obtain ⟨fuel, r, hr⟩ := ihn _ hlt (hstep.ok hok) thisPage page rfl
          exact ⟨fuel + 1, r, by rw [writeHigher, hq]; simpa [hclear] using hr⟩
        | false =>
          obtain ⟨fuel₁, r₁, hr₁⟩ := ihd _ (height_lt hok.acyclic (edge_of_higher hl hclear)) false
            l.preHi rfl
          obtain ⟨⟨o₁, c₁⟩, hw⟩ := writeBuffer_of_writeHigher hr₁
          have hw : ∀ k, writeBuffer superServer (fuel₁ + 1 + k) writeThru false l.preHi c =
              some (o₁, c₁) := fun k => (write_mono superServer (Nat.le_add_right _ k)).1 hw
          cases o₁ with
          | bugcheck m =>
            exact ⟨fuel₁ + 2, (.bugcheck m, c₁), by rw [writeHigher, hq]; simp [hclear, hw 0]⟩
          | deadlock => exact ⟨fuel₁ + 2, (.deadlock, c₁), by rw [writeHigher, hq]; simp
            [hclear, hw 0]⟩
          | status m =>
            have hlt := (write_shrinks superServer _).1 hok (hw 0) ⟨l, hmem, rfl⟩
            have hok₁ := (writeBuffer_writes hok (hw 0)).steps.ok hok
            obtain ⟨fuel₂, r₂, hr₂⟩ := ihn _ hlt hok₁ thisPage page rfl
            have hr₂ := (write_mono superServer (Nat.le_add_left fuel₂ (fuel₁ + 1))).2 hr₂
            refine ⟨fuel₁ + 1 + fuel₂ + 1, ?_⟩
            rw [writeHigher, hq]
            dsimp only
            rw [if_neg (by simp [hclear]), hw fuel₂]
            dsimp only
            split_ifs
            · exact ⟨_, rfl⟩
            · exact ⟨_, rfl⟩
            · exact ⟨r₂, hr₂⟩

theorem writeBuffer_ends (superServer : Bool) (hok : c.Ok) (writeThru thisPage : Bool)
    (page : PageNumber) : ∃ fuel r, writeBuffer superServer fuel writeThru thisPage page c = some
      r := by
  obtain ⟨fuel, r, hr⟩ := writeHigher_ends superServer hok writeThru thisPage page
  exact ⟨fuel + 1, writeBuffer_of_writeHigher hr⟩

theorem relatedQue_spec (c : Cache) (high : PageNumber) (fuel : Nat) (ls : List Precedence)
    (limit : Nat) :
    (relatedQue c high fuel ls limit = .exists →
      ∃ l ∈ ls, l.cleared = false ∧ (l.preHi = high ∨ Path c.edges l.preHi high)) ∧
    ∀ n, relatedQue c high fuel ls limit = .limit n →
      ∀ l ∈ ls, l.cleared = false → l.preHi ≠ high ∧ ¬ Path c.edges l.preHi high := by
  have hpath : ∀ {l l' : Precedence}, l' ∈ c.higher l.preHi → l'.cleared = false →
      (l'.preHi = high ∨ Path c.edges l'.preHi high) → Path c.edges l.preHi high := by
    intro l l' hl' hclear hor
    have hedge := edge_of_higher hl' hclear
    rcases hor with rfl | hp
    · exact .single hedge
    · exact .head hedge hp
  have hfirst : ∀ {l : Precedence}, (∀ l' ∈ c.higher l.preHi, l'.cleared = false →
      l'.preHi ≠ high ∧ ¬ Path c.edges l'.preHi high) → ¬ Path c.edges l.preHi high := by
    intro l hall hp
    obtain ⟨z, hz, hor⟩ := hp.first
    have hmem : ⟨l.preHi, z, false⟩ ∈ c.higher l.preHi :=
      List.mem_filter.mpr ⟨mem_edges.mp hz, by simp⟩
    obtain ⟨h₁, h₂⟩ := hall _ hmem rfl
    exact hor.elim h₁ h₂
  fun_induction relatedQue c high fuel ls limit with
  | case1 => simp
  | case2 => simp
  | case3 => simp
  | case4 fuel l ls limit _ hclear ih =>
    refine ⟨fun h => ?_, fun n h l' hl' hc => ?_⟩
    · obtain ⟨l', hl', hrest⟩ := ih.1 h
      exact ⟨l', List.mem_cons_of_mem _ hl', hrest⟩
    · rcases List.mem_cons.mp hl' with rfl | hl'
      · rw [hclear] at hc
        cases hc
      · exact ih.2 n h l' hl' hc
  | case5 fuel l ls limit _ hclear hhi =>
    exact ⟨fun _ => ⟨l, List.mem_cons_self, by simpa using hclear, .inl hhi⟩, by simp⟩
  | case6 fuel l ls limit _ hclear hne n hn ih₂ ih₁ =>
    refine ⟨fun h => ?_, fun n' h l' hl' hc => ?_⟩
    · obtain ⟨l', hl', hrest⟩ := ih₁.1 h
      exact ⟨l', List.mem_cons_of_mem _ hl', hrest⟩
    · rcases List.mem_cons.mp hl' with rfl | hl'
      · exact ⟨hne, hfirst (ih₂.2 n hn)⟩
      · exact ih₁.2 n' h l' hl' hc
  | case7 fuel l ls limit _ hclear hne hno ih =>
    refine ⟨fun h => ?_, fun n h => absurd h (hno n)⟩
    obtain ⟨l', hl', hc, hor⟩ := ih.1 h
    exact ⟨l, List.mem_cons_self, by simpa using hclear, .inr (hpath hl' hc hor)⟩

theorem related_exists {limit : Nat} (h : related c low high limit = .exists) :
    Path c.edges low high := by
  obtain ⟨l, hl, hclear, hor⟩ := (relatedQue_spec c high _ _ _).1 h
  have hedge := edge_of_higher hl hclear
  rcases hor with rfl | hp
  · exact .single hedge
  · exact .head hedge hp

theorem related_limit {limit : Nat} (h : related c low high limit = .limit n) :
    ¬ Path c.edges low high := by
  intro hp
  obtain ⟨z, hz, hor⟩ := hp.first
  have hmem : ⟨low, z, false⟩ ∈ c.higher low := List.mem_filter.mpr ⟨mem_edges.mp hz, by simp⟩
  obtain ⟨h₁, h₂⟩ := (relatedQue_spec c high _ _ _).2 n h _ hmem rfl
  exact hor.elim h₁ h₂

theorem relationship_limit
    (h : (if c.lower high = [] then .limit 0 else related c low high preSearchLimit) = .limit n) :
    ¬ Path c.edges low high := by
  split_ifs at h with hnil
  · exact no_path_of_lower (lower_eq_nil.mp hnil) low
  · exact related_limit h

/-- What a call of `CCH_precedence` leaves behind, for a high page that is dirty. -/
def Establishes (superServer : Bool) (low high : PageNumber) (c c' : Cache) : Prop :=
  Steps superServer c c' ∧ ∃ during, c'.log = during ++ c.log ∧
    (Done high (c.bdb high).version during ∨ Path c'.edges low high)

theorem establish_steps (hok : c.Ok) (hd : (c.bdb high).dirty = true) (hne : low ≠ high)
    (hpath : ¬ Path c.edges low high)
    (h : establish superServer fuel low high c = some (o, c')) :
    Steps superServer c c' ∧ ∀ n, o = .status n → Establishes superServer low high c c' := by
  have hlink : ∀ {c₁ : Cache}, Steps superServer c c₁ → (c₁.bdb high).dirty = true →
      ¬ Path c₁.edges high low → Establishes superServer low high c (c₁.link low high) := by
    intro c₁ hsteps hd₁ hno
    obtain ⟨during, hlog⟩ := hsteps.log
    exact ⟨hsteps.tail (.link hd₁ hne hno), during, hlog, .inr (.single List.mem_cons_self)⟩
  unfold establish at h
  dsimp only at h
  split at h
  · rename_i n hrel
    cases h
    have hest := hlink .refl hd (relationship_limit hrel)
    exact ⟨hest.1, fun _ _ => hest⟩
  · cases hr : writeBuffer superServer fuel false true low c with
    | none =>
      rw [hr] at h
      cases h
    | some r =>
      obtain ⟨o₁, c₁⟩ := r
      rw [hr] at h
      cases o₁ with
      | status n =>
        cases h
        have hw := writeBuffer_writes hok hr
        have hd₁ : (c₁.bdb high).dirty = true := by rw [hw.frame high hne.symm hpath, hd]
        have hest := hlink hw.steps hd₁ (no_path_of_lower (writeBuffer_done hok hr).1 high)
        exact ⟨hest.1, fun _ _ => hest⟩
      | bugcheck n =>
        cases h
        exact ⟨(writeBuffer_writes hok hr).steps, fun n hn => by cases hn⟩
      | deadlock =>
        cases h
        exact ⟨(writeBuffer_writes hok hr).steps, fun n hn => by cases hn⟩

theorem checkPrecedence_steps {lastHeaderWrite : Int} (hok : c.Ok)
    (h : checkPrecedence superServer fuel low page lastHeaderWrite c = some (o, c')) :
    Steps superServer c c' ∧ ∀ high n, precedencePage page lastHeaderWrite = some high →
      (c.bdb high).dirty = true → high ≠ low → o = .status n →
        Establishes superServer low high c c' := by
  unfold checkPrecedence at h
  cases hpage : precedencePage page lastHeaderWrite with
  | none =>
    rw [hpage] at h
    cases h
    exact ⟨.refl, by simp⟩
  | some high =>
    rw [hpage] at h
    dsimp only at h
    suffices hsuff : Steps superServer c c' ∧ ∀ n, (c.bdb high).dirty = true → high ≠ low →
        o = .status n → Establishes superServer low high c c' by
      refine ⟨hsuff.1, fun high' n he hd hne ho => ?_⟩
      cases he
      exact hsuff.2 n hd hne ho
    by_cases hskip : (!(c.bdb high).dirty || decide (high = low)) = true
    · rw [if_pos hskip] at h
      cases h
      exact ⟨.refl, fun n hd hne _ => by simp [hd, hne] at hskip⟩
    rw [if_neg hskip] at h
    have hdirty : (c.bdb high).dirty = true ∧ high ≠ low := by simpa using hskip
    by_cases hmarked : ((c.bdb low).marked && !(c.bdb low).faked) = true
    · rw [if_pos hmarked] at h
      cases h
      exact ⟨.refl, fun n _ _ ho => by cases ho⟩
    rw [if_neg hmarked] at h
    split at h
    · rename_i hrel
      cases h
      refine ⟨.refl, fun n _ _ _ => ⟨.refl, [], rfl, .inr ?_⟩⟩
      split_ifs at hrel
      exact related_exists hrel
    · have hw := writeBuffer_writes hok h
      refine ⟨hw.steps, fun n hd _ ho => ⟨hw.steps, ?_⟩⟩
      subst ho
      obtain ⟨ev, hlog, hdone⟩ := (writeBuffer_done hok h).2 hd
      exact ⟨ev, hlog, .inl hdone⟩
    · rename_i n hrel
      obtain ⟨hsteps, hest⟩ :=
        establish_steps hok hdirty.1 hdirty.2.symm (relationship_limit hrel) h
      exact ⟨hsteps, fun n _ _ ho => hest n ho⟩

theorem Ok.update (hok : c.Ok) (p : PageNumber) {f : BufferDesc → BufferDesc}
    (hv : ∀ b, b.version ≤ (f b).version) (hd : ∀ b, b.dirty = true → (f b).dirty = true) :
    Steps superServer c (c.update p f) := by
  refine .single (.update (hv _) ?_)
  rintro ⟨x, hx⟩
  exact hd _ (hok.dirty x p hx)

theorem cchMark_steps (hok : c.Ok) (must : Bool) (page : PageNumber) :
    Steps superServer c (c.cchMark superServer must page).2 := by
  unfold cchMark
  split_ifs
  · exact .refl
  · dsimp only
    exact hok.update page (fun _ => Nat.le_refl _) (fun _ _ => rfl)

theorem cchMustWrite_steps (hok : c.Ok) (page : PageNumber) :
    Steps superServer c (c.cchMustWrite page).2 := by
  unfold cchMustWrite
  split_ifs
  · exact .refl
  · dsimp only
    exact hok.update page (fun _ => Nat.le_refl _) (fun _ _ => rfl)

theorem fakePage_steps (hok : c.Ok) (hlower : ∀ l ∈ c.links, l.preHi ≠ page) :
    Steps superServer c (c.fakePage superServer page) := by
  set c₁ := c.update page fun b =>
    { b with
      writer := true, faked := true, dirty := false, dbDirty := false, marked := false
      mustWrite := false }
  have h₁ : Steps superServer c c₁ := by
    refine .single (.update (Nat.le_refl _) ?_)
    rintro ⟨x, hx⟩
    exact absurd rfl (hlower _ (mem_edges.mp hx))
  have h₂ : Steps superServer c₁ (c₁.change page) :=
    (h₁.ok hok).update page (fun _ => Nat.le_succ _) (fun _ h => h)
  exact (h₁.trans h₂).trans (cchMark_steps (h₂.ok (h₁.ok hok)) false page)

theorem cchRelease_steps (hok : c.Ok)
    (h : c.cchRelease superServer fuel page = some (o, c')) : Steps superServer c c' := by
  unfold cchRelease at h
  dsimp only at h
  set c₁ := c.update page fun b => { b with writer := false, marked := false, faked := false }
  have h₁ : Steps superServer c c₁ := hok.update page (fun _ => Nat.le_refl _) (fun _ hd => hd)
  split_ifs at h
  · exact h₁.trans (writeBuffer_writes (h₁.ok hok) h).steps
  · obtain ⟨rfl, rfl⟩ := Prod.mk.inj (Option.some.inj h)
    exact h₁

theorem getBuffer_steps (hok : c.Ok) (page : PageNumber) :
    Steps superServer c (c.getBuffer page) :=
  hok.update page (fun _ => Nat.le_refl _) (fun _ h => h)

theorem cchFake_steps {latchWait : Bool} (hok : c.Ok)
    (h : c.cchFake superServer latchWait fuel page = some (o, c')) : Steps superServer c c' := by
  have h₁ : Steps superServer c (c.getBuffer page) := getBuffer_steps hok page
  refine h₁.trans ?_
  replace hok := h₁.ok hok
  unfold cchFake at h
  dsimp only at h
  revert h hok
  generalize c.getBuffer page = c
  intro h hok
  by_cases hdirty : ((c.bdb page).dirty || (c.bdb page).dbDirty) = true
  · rw [if_pos hdirty] at h
    by_cases hwait : (!latchWait) = true
    · rw [if_pos hwait] at h
      cases h
      exact .refl
    rw [if_neg hwait] at h
    split at h
    · rename_i n c₁ hw
      cases h
      have hsteps := (writeBuffer_writes hok hw).steps
      exact hsteps.trans (fakePage_steps (hsteps.ok hok) (writeBuffer_done hok hw).1)
    · exact (writeBuffer_writes hok h).steps
  · rw [if_neg hdirty] at h
    cases h
    rw [Bool.not_eq_true, Bool.or_eq_false_iff] at hdirty
    have hsteps : Steps superServer c (c.clearPrecedence page) := .single (.drop hdirty.1)
    exact hsteps.trans (fakePage_steps (hsteps.ok hok) (clearPrecedence_preHi c page))

theorem cchPrecedence_steps {lastHeaderWrite : Int} (hok : c.Ok)
    (h : c.cchPrecedence superServer fuel low page lastHeaderWrite = some (o, c')) :
    Steps superServer c c' := by
  unfold cchPrecedence at h
  split_ifs at h
  · cases h
    exact .refl
  · cases h
    exact .refl
  · exact (checkPrecedence_steps hok h).1

end Firebird.Jrd.Cache

namespace Firebird.Jrd

open Cache Lib Lib.Dag

variable {superServer : Bool} {c c' : Cache}

theorem CacheAction.exec_steps {fuel : Nat} {a : CacheAction} {o : Outcome} (hok : c.Ok)
    (h : a.exec superServer fuel c = some (o, c')) : Steps superServer c c' := by
  cases a with
  | fetch page =>
    cases h
    have h₁ : Steps superServer c (c.getBuffer page) := getBuffer_steps hok page
    exact h₁.trans ((h₁.ok hok).update page (fun _ => Nat.le_refl _) (fun _ hd => hd))
  | mark must page =>
    obtain rfl : c' = _ := (Prod.ext_iff.mp (Option.some.inj h)).2.symm
    exact cchMark_steps hok must page
  | mustWrite page =>
    obtain rfl : c' = _ := (Prod.ext_iff.mp (Option.some.inj h)).2.symm
    exact cchMustWrite_steps hok page
  | change page =>
    cases h
    exact hok.update page (fun _ => Nat.le_succ _) (fun _ hd => hd)
  | release page => exact cchRelease_steps hok h
  | fake latchWait page => exact cchFake_steps hok h
  | precedence low page lastHeaderWrite => exact cchPrecedence_steps hok h
  | write writeThru page => exact (writeBuffer_writes hok h).steps

theorem runCache_steps {fuel : Nat} {as : List CacheAction} (hok : c.Ok)
    (h : runCache superServer fuel as c = some c') : Steps superServer c c' := by
  induction as generalizing c with
  | nil =>
    cases h
    exact .refl
  | cons a as ih =>
    rw [runCache] at h
    split at h
    · cases h
    · rename_i n c₁ hexec
      have hsteps := a.exec_steps hok hexec
      exact hsteps.trans (ih (hsteps.ok hok) h)
    · rename_i o c₁ _ hexec
      cases h
      exact a.exec_steps hok hexec

theorem init_ok : Cache.init.Ok := by
  refine ⟨fun x hx => ?_, fun x y he => by cases he⟩
  obtain ⟨z, hz⟩ := hx.last
  cases hz

theorem write_ends (superServer : Bool) (hok : c.Ok) (writeThru : Bool) (page : PageNumber) :
    ∃ fuel r, ∀ k, writeBuffer superServer (fuel + k) writeThru true page c = some r := by
  obtain ⟨fuel, r, hr⟩ := writeBuffer_ends superServer hok writeThru true page
  exact ⟨fuel, r, fun k => (write_mono superServer (Nat.le_add_right fuel k)).1 hr⟩

theorem establish_ends (superServer : Bool) (hok : c.Ok) (low high : PageNumber) :
    ∃ fuel r, ∀ k, establish superServer (fuel + k) low high c = some r := by
  unfold establish
  dsimp only
  split
  · exact ⟨0, _, fun _ => rfl⟩
  · obtain ⟨fuel, ⟨o, c₁⟩, hr⟩ := write_ends superServer hok false low
    cases o with
    | status n => exact ⟨fuel, _, fun k => by rw [hr]⟩
    | bugcheck n => exact ⟨fuel, _, fun k => by rw [hr]⟩
    | deadlock => exact ⟨fuel, _, fun k => by rw [hr]⟩

theorem checkPrecedence_ends (superServer : Bool) (hok : c.Ok) (low page : PageNumber)
    (lastHeaderWrite : Int) :
    ∃ fuel r, ∀ k, checkPrecedence superServer (fuel + k) low page lastHeaderWrite c = some r := by
  unfold checkPrecedence
  split
  · exact ⟨0, _, fun _ => rfl⟩
  · rename_i high _
    by_cases h₁ : (!(c.bdb high).dirty || decide (high = low)) = true
    · simp only [if_pos h₁]
      exact ⟨0, _, fun _ => rfl⟩
    by_cases h₂ : ((c.bdb low).marked && !(c.bdb low).faked) = true
    · simp only [if_neg h₁, if_pos h₂]
      exact ⟨0, _, fun _ => rfl⟩
    simp only [if_neg h₁, if_neg h₂]
    split
    · exact ⟨0, _, fun _ => rfl⟩
    · exact write_ends superServer hok false high
    · exact establish_ends superServer hok low high

theorem cchRelease_ends (superServer : Bool) (hok : c.Ok) (page : PageNumber) :
    ∃ fuel r, ∀ k, c.cchRelease superServer (fuel + k) page = some r := by
  unfold cchRelease
  dsimp only
  set c₁ := c.update page fun b => { b with writer := false, marked := false, faked := false }
  have h₁ : Steps superServer c c₁ := hok.update page (fun _ => Nat.le_refl _) (fun _ hd => hd)
  split_ifs
  · exact write_ends superServer (h₁.ok hok) false page
  · exact ⟨0, _, fun _ => rfl⟩

theorem cchFake_ends (superServer latchWait : Bool) (hok : c.Ok) (page : PageNumber) :
    ∃ fuel r, ∀ k, c.cchFake superServer latchWait (fuel + k) page = some r := by
  have h₁ : Steps superServer c (c.getBuffer page) := getBuffer_steps hok page
  replace hok := h₁.ok hok
  unfold cchFake
  dsimp only
  split_ifs
  · exact ⟨0, _, fun _ => rfl⟩
  · obtain ⟨fuel, ⟨o, c₁⟩, hr⟩ := write_ends superServer hok true page
    cases o with
    | status n => exact ⟨fuel, _, fun k => by rw [hr]⟩
    | bugcheck n => exact ⟨fuel, _, fun k => by rw [hr]⟩
    | deadlock => exact ⟨fuel, _, fun k => by rw [hr]⟩
  · exact ⟨0, _, fun _ => rfl⟩

theorem CacheAction.exec_ends (superServer : Bool) (hok : c.Ok) (a : CacheAction) :
    ∃ fuel r, ∀ k, a.exec superServer (fuel + k) c = some r := by
  cases a with
  | fetch | mark | mustWrite | change => exact ⟨0, _, fun _ => rfl⟩
  | release page => exact cchRelease_ends superServer hok page
  | fake latchWait page => exact cchFake_ends superServer latchWait hok page
  | precedence low page lastHeaderWrite =>
    simp only [CacheAction.exec, cchPrecedence]
    split_ifs
    · exact ⟨0, _, fun _ => rfl⟩
    · exact ⟨0, _, fun _ => rfl⟩
    · exact checkPrecedence_ends superServer hok low page lastHeaderWrite
  | write writeThru page => exact write_ends superServer hok writeThru page

theorem runCache_ends (superServer : Bool) (hok : c.Ok) (as : List CacheAction) :
    ∃ fuel c', ∀ k, runCache superServer (fuel + k) as c = some c' := by
  induction as generalizing c with
  | nil => exact ⟨0, c, fun _ => rfl⟩
  | cons a as ih =>
    obtain ⟨fuel, ⟨o, c₁⟩, hexec⟩ := a.exec_ends superServer hok
    cases o with
    | status n =>
      have hok₁ := (a.exec_steps hok (hexec 0)).ok hok
      obtain ⟨fuel', c', hrun⟩ := ih hok₁
      refine ⟨fuel + fuel', c', fun k => ?_⟩
      rw [runCache, Nat.add_assoc, hexec]
      rw [← Nat.add_assoc, Nat.add_comm fuel, Nat.add_assoc]
      exact hrun _
    | bugcheck n => exact ⟨fuel, c₁, fun k => by rw [runCache, hexec]⟩
    | deadlock => exact ⟨fuel, c₁, fun k => by rw [runCache, hexec]⟩

/-- In every run of the cache the precedences form no cycle and every operation ends. After a call
of `CCH_precedence` for another page that is dirty, neither page being temporary, no image of the
low page is written before one of the high page with all the changes up to that call, unless
`write_buffer` comes to the high page while it is still faked and marked. -/
theorem careful_write (superServer : Bool) (as : List CacheAction) :
    (∃ fuel c, runCache superServer fuel as .init = some c) ∧
    ∀ fuel c, runCache superServer fuel as .init = some c →
      Acyclic c.edges ∧
      ∀ low high lastHeaderWrite n c₁, 0 < high.pageNum → low.isTemporary = false →
        high.isTemporary = false → low ≠ high → (c.bdb high).dirty = true →
        (CacheAction.precedence low high lastHeaderWrite).exec superServer fuel c =
          some (.status n, c₁) →
        ∃ during, c₁.log = during ++ c.log ∧ ∀ fuel' bs c₂,
          runCache superServer fuel' bs c₁ = some c₂ →
          ∃ ev, c₂.log = ev ++ c₁.log ∧ Ordered low high (c.bdb high).version during ev := by
  constructor
  · obtain ⟨fuel, c, hrun⟩ := runCache_ends superServer init_ok as
    exact ⟨fuel, c, hrun 0⟩
  intro fuel c hrun
  have hok := (runCache_steps init_ok hrun).ok init_ok
  refine ⟨hok.acyclic, ?_⟩
  intro low high lastHeaderWrite n c₁ hnum hlow hhigh hne hdirty hexec
  have hcheck : checkPrecedence superServer fuel low high lastHeaderWrite c = some
    (.status n, c₁) := by
    have : high.pageNum ≠ 0 := by omega
    simpa [CacheAction.exec, cchPrecedence, this, hlow, hhigh] using hexec
  have hpage : precedencePage high lastHeaderWrite = some high := by
    have : ¬ high.pageNum < 0 := by omega
    simp [precedencePage, this]
  obtain ⟨hsteps, during, hlog, hest⟩ :=
    (checkPrecedence_steps hok hcheck).2 high n hpage hdirty hne.symm rfl
  have hkeeps : Keeps low high (c.bdb high).version c.log during [] c₁ :=
    ⟨hlog, hsteps.version_le high, hest, .nil⟩
  refine ⟨during, hlog, fun fuel' bs c₂ hrun' => ?_⟩
  have hok₁ := hsteps.ok hok
  obtain ⟨ev, hk⟩ := (runCache_steps hok₁ hrun').keeps hok₁ hkeeps
  rw [List.append_nil] at hk
  exact ⟨ev, by rw [hk.log, hlog], hk.ordered⟩

/-- A page is made to wait for a new one, and both are written. -/
theorem careful_write_pair :
    let low : PageNumber := ⟨1, 20⟩
    let high : PageNumber := ⟨1, 10⟩
    ∃ c c₁ c₂, runCache true 9 [.fake true high, .release high, .fetch low] .init = some c ∧
      (c.bdb high).dirty = true ∧
      (CacheAction.precedence low high 0).exec true 9 c = some (.status 1, c₁) ∧
      runCache true 9 [.mark false low, .change low, .release low, .write false low] c₁ = some c₂ ∧
      c₂.log = [.wrote low 1, .wrote high 1] ∧ ∃ during ev, c₁.log = during ++ c.log ∧
        c₂.log = ev ++ c₁.log ∧ Ordered low high (c.bdb high).version during ev := by
  intro low high
  have hordered : ∀ {c c₁ c₂ : Cache},
      runCache true 9 [.fake true high, .release high, .fetch low] .init = some c →
      (c.bdb high).dirty = true →
      (CacheAction.precedence low high 0).exec true 9 c = some (.status 1, c₁) →
      runCache true 9 [.mark false low, .change low, .release low, .write false low] c₁ = some c₂ →
      ∃ during ev, c₁.log = during ++ c.log ∧ c₂.log = ev ++ c₁.log ∧
        Ordered low high (c.bdb high).version during ev := by
    intro c c₁ c₂ hrun hdirty hexec hrun'
    obtain ⟨during, hlog, hnext⟩ := ((careful_write true _).2 9 c hrun).2 low high 0 1 c₁
      (by decide) rfl rfl (by decide) hdirty hexec
    obtain ⟨ev, hev, hord⟩ := hnext 9 _ c₂ hrun'
    exact ⟨during, ev, hlog, hev, hord⟩
  exact ⟨_, _, _, rfl, rfl, rfl, rfl, rfl, hordered rfl rfl rfl rfl⟩

/-- A page that is still faked and marked is passed over, and the page that waits for it is
written. -/
theorem faked_page_passed_over :
    let low : PageNumber := ⟨1, 20⟩
    let high : PageNumber := ⟨1, 10⟩
    ∃ c c₁ c₂, runCache false 9 [.fake true high, .fetch low] .init = some c ∧
      (c.bdb high).dirty = true ∧ (c.bdb low).marked = false ∧
      (CacheAction.precedence low high 0).exec false 9 c = some (.status 1, c₁) ∧
      runCache false 9 [.mark false low, .change low, .release low, .write false low] c₁ = some c₂ ∧
      .wrote low 1 ∈ c₂.log ∧ ∀ v, .wrote high v ∉ c₂.log := by
  refine ⟨_, _, _, rfl, rfl, rfl, rfl, rfl, ?_⟩
  have hlog : ∀ log : List CacheEvent, log = [.wrote ⟨1, 20⟩ 1, .passed ⟨1, 10⟩ true true] →
      .wrote ⟨1, 20⟩ 1 ∈ log ∧ ∀ v, .wrote ⟨1, 10⟩ v ∉ log := by
    rintro log rfl
    simp
  exact hlog _ rfl

end Firebird.Jrd
