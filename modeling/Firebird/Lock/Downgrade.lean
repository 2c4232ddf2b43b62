import Firebird.Lock.Handle

/-!
# Downgrading a lock

Which level `LOCK_downgrade` leaves a request at. The levels that others wait for are summed up by
the highest number among them, and the new level is found by counting down, though `PR` and `SW`
exclude each other; and `convert` may refuse the new level without anybody asking.
-/
namespace Firebird.Lock

open List

/-- The highest level up to `old` that is compatible with all the others. -/
def Highest (levels : List Level) (old s : Level) : Prop :=
  s.rank ≤ old.rank ∧ (∀ p ∈ levels, compatible p s = true) ∧
    ∀ s' : Level, s'.rank ≤ old.rank → (∀ p ∈ levels, compatible p s' = true) → s'.rank ≤ s.rank

instance (levels : List Level) (old s : Level) : Decidable (Highest levels old s) :=
  inferInstanceAs (Decidable (_ ∧ _ ∧ _))

def waitedFor (id : RequestId) (rs : List Lrq) : List Level :=
  (rs.filter fun r => r.pending && r.id ≠ id).map (·.requested)

def Table.levelOf (id : RequestId) (t : Table) : Level :=
  ((t.getRequest id).map fun p => p.2.state).getD .none

/-- The request at level `old` has got out of the way of `levels`, and no further than it had to. A
request that would be left at `LCK_null` is given back. -/
def GivesWay (levels : List Level) (old new : Level) : Prop :=
  ∃ s, Highest levels old s ∧ new = if s = .null then .none else s

instance (levels : List Level) (old new : Level) : Decidable (GivesWay levels old new) :=
  inferInstanceAs (Decidable (∃ _, _))

/-- A shared write is the highest level waited for, beside a protected read, and the request is not
below that. -/
def MixedWaiters (levels : List Level) (old : Level) : Prop :=
  .pr ∈ levels ∧ .sw ∈ levels ∧ (∀ p ∈ levels, p.rank ≤ Level.sw.rank) ∧ Level.sw.rank ≤ old.rank

/-- The highest level that gives way is a lower one that the rest of the lock excludes. -/
def Refused (levels : List Level) (r : Lrq) (l : Lbl) : Prop :=
  ∃ s, Highest levels r.state s ∧ Level.null.rank < s.rank ∧ s ≠ r.state ∧
    compatible s (lockState (l.decCount r.state)) = false

theorem pendingState_spec (id : RequestId) (rs : List Lrq) :
    (∀ p ∈ waitedFor id rs, p.rank ≤ (pendingState id rs).rank) ∧
      (pendingState id rs = .none ∨ pendingState id rs ∈ waitedFor id rs) := by
  have hmax : ∀ a b : Level, a.rank ≤ (a.max b).rank ∧ b.rank ≤ (a.max b).rank ∧
      (a.max b = a ∨ a.max b = b) := by decide
  have hfold : ∀ m : Level,
      let top := rs.foldl (fun s r => if r.pending && r.id ≠ id then r.requested.max s else s) m
      m.rank ≤ top.rank ∧ (∀ p ∈ waitedFor id rs, p.rank ≤ top.rank) ∧
        (top = m ∨ top ∈ waitedFor id rs) := by
    unfold waitedFor
    induction rs with
    | nil => intro m; simp
    | cons r rs ih =>
      intro m
      rw [foldl_cons, filter_cons]
      split
      · next hr =>
        obtain ⟨hle, hall, hmem⟩ := ih (r.requested.max m)
        obtain ⟨hr', hm, heq⟩ := hmax r.requested m
        refine ⟨hm.trans hle, ?_, ?_⟩
        · intro p hp
          rcases mem_cons.mp hp with rfl | hp
          · exact hr'.trans hle
          · exact hall p hp
        · rcases hmem with htop | hmem
          · rw [htop]
            rcases heq with heq | heq
            · exact .inr (by rw [heq, map_cons]; exact mem_cons_self)
            · exact .inl heq
          · exact .inr (mem_cons_of_mem _ hmem)
      · exact ih m
  obtain ⟨-, hall, hmem⟩ := hfold .none
  exact ⟨hall, hmem⟩

theorem lowerState_highest (pending old : Level) :
    Highest [pending] old (lowerState pending old.rank old) := by
  revert pending old
  decide

variable {levels : List Level} {old : Level}

theorem Highest.unique {s s' : Level} (h : Highest levels old s)
    (h' : Highest levels old s') : s = s' :=
  Level.eq_of_rank_eq (Nat.le_antisymm (h'.2.2 s h.1 h.2.1) (h.2.2 s' h'.1 h'.2.1))

theorem highest_of_max {m s : Level} (hle : ∀ p ∈ levels, p.rank ≤ m.rank)
    (hm : m = .none ∨ m ∈ levels) (hs : Highest [m] old s) (hmixed : ¬MixedWaiters levels old) :
    Highest levels old s := by
  have hmono : ∀ p m s : Level, p.rank ≤ m.rank → compatible m s = true →
      compatible p s = true ∨ p = .pr ∧ m = .sw ∧ s = .sw := by decide
  obtain ⟨hold, hcompat, hgreatest⟩ := hs
  have hms : compatible m s = true := hcompat m (by simp)
  refine ⟨hold, fun p hp => ?_, fun s' hs' hall => hgreatest s' hs' fun p hp => ?_⟩
  · rcases hmono p m s (hle p hp) hms with hc | ⟨rfl, rfl, rfl⟩
    · exact hc
    · exact absurd ⟨hp, hm.resolve_left (by decide), hle, hold⟩ hmixed
  · obtain rfl := mem_singleton.mp hp
    rcases hm with rfl | hm
    · exact compatible_none_left s'
    · exact hall p hm

theorem MixedWaiters.not_givesWay {new : Level}
    (h : MixedWaiters levels old) (hnew : Level.sw.rank ≤ new.rank) : ¬GivesWay levels old new := by
  have hboth : ∀ s : Level, compatible .pr s = true → compatible .sw s = true →
      s.rank < Level.sw.rank := by decide
  rintro ⟨s, ⟨-, hall, -⟩, rfl⟩
  have hs := hboth s (hall _ h.1) (hall _ h.2.1)
  split at hnew
  · exact absurd hnew (by decide)
  · omega

theorem MixedWaiters.lowerState_eq {m : Level}
    (h : MixedWaiters levels old) (hle : ∀ p ∈ levels, p.rank ≤ m.rank)
    (hm : m = .none ∨ m ∈ levels) : lowerState m old.rank old = .sw := by
  have hstop : ∀ old : Level, Level.sw.rank ≤ old.rank → lowerState .sw old.rank old = .sw := by
    decide
  obtain ⟨-, hsw, hall, hold⟩ := h
  have htop : m = .sw := by
    refine Level.eq_of_rank_eq (Nat.le_antisymm ?_ (hle _ hsw))
    rcases hm with rfl | hm
    · exact Nat.zero_le _
    · exact hall m hm
  rw [htop]
  exact hstop old hold

variable {t : Table} {l : Lbl} {r : Lrq} {id : RequestId}

theorem Table.Tidy.levelOf_eq (ht : t.Tidy) (hl : l ∈ t.locks) (hr : r ∈ l.requests)
    (hid : r.id = id) : t.levelOf id = r.state := by
  cases hget : t.getRequest id with
  | none => exact absurd hid (getRequest_none hget r (mem_requests hl hr))
  | some p =>
    obtain ⟨hl', hr', hid'⟩ := getRequest_mem hget
    obtain rfl := ht.eq_of_request (mem_requests hl' hr') (mem_requests hl hr) (hid'.trans hid.symm)
    rw [Table.levelOf, hget]
    rfl

theorem levelOf_dequeue (ordering : Bool) (id : RequestId) (ht : t.Tidy) :
    (dequeue ordering id t).levelOf id = .none := by
  cases hget : (dequeue ordering id t).getRequest id with
  | none => rw [Table.levelOf, hget]; rfl
  | some p =>
    obtain ⟨hl, hr, hid⟩ := getRequest_mem hget
    have hmem := mem_members.mpr ⟨p.2, mem_requests hl hr, rfl⟩
    exact absurd hid ((releaseRequest_members ordering id ht).2 _ hmem)

theorem postPending_keeps (ordering : Bool) (hr : r ∈ l.requests) (hp : r.pending = false) :
    ∃ r' ∈ (postPending ordering l).1.requests, r'.id = r.id ∧ r'.state = r.state := by
  have hposts := (postPending_posts ordering l).1
  generalize l.requests = rs, (postPending ordering l).1.requests = rs' at hposts hr
  induction hposts with
  | nil => cases hr
  | cons h _ ih =>
    rcases mem_cons.mp hr with rfl | hr
    · obtain ⟨j, rfl | ⟨hp', -⟩⟩ := h
      · exact ⟨_, mem_cons_self, rfl, rfl⟩
      · rw [hp] at hp'
        cases hp'
    · obtain ⟨r', hr', h'⟩ := ih hr
      exact ⟨r', mem_cons_of_mem _ hr', h'⟩

theorem levelOf_convert (ordering : Bool) (type : Level) (ast : Option Ast) (ht : t.Tidy)
    (hget : t.getRequest id = some (l, r)) :
    (convert ordering id type 0 ast t).levelOf id =
      if compatible type (lockState (l.decCount r.state)) then type else r.state := by
  have htidy := (convert_same ordering id type 0 ast ht).tidy ht
  obtain ⟨hl, hr, rfl⟩ := getRequest_mem hget
  unfold convert at htidy ⊢
  rw [hget] at htidy ⊢
  dsimp only at htidy ⊢
  set r₁ : Lrq := { r with requested := type, blockingSeen := false } with hr₁
  set l₁ := l.modifyRequest r.id fun _ => r₁ with hl₁
  have hstate : lockState (l₁.decCount r.state) = lockState (l.decCount r.state) :=
    lockState_decCount_congr rfl r.state
  have hput : ∀ l' : Lbl, l'.id = l.id → l' ∈ (t.setLock l').locks := fun l' hid =>
    mem_map.mpr ⟨l, hl, if_pos hid.symm⟩
  have hmod : ∀ (x : Lbl) (f : Lrq → Lrq), r₁ ∈ x.requests → f r₁ ∈
    (x.modifyRequest r.id f).requests :=
    fun x f hx => mem_map.mpr ⟨r₁, hx, if_pos rfl⟩
  have hr₁' : r₁ ∈ l₁.requests := mem_map.mpr ⟨r, hr, if_pos rfl⟩
  rw [hstate] at htidy ⊢
  by_cases hc : compatible type (lockState (l.decCount r.state)) = true
  · rw [if_pos hc] at htidy ⊢
    rw [if_pos hc]
    set r₂ : Lrq := { r₁ with ast := ast } with hr₂
    set l₂ := (grant r₂ (l₁.decCount r.state)).2.modifyRequest r.id
      fun _ => (grant r₂ (l₁.decCount r.state)).1 with hl₂
    have hid : (postPending ordering l₂).1.id = l.id :=
      (postPending_posts ordering l₂).2.1.trans (grant_sameLock r₂ (l₁.decCount r.state)).1
    have hin : (grant r₂ (l₁.decCount r.state)).1 ∈ l₂.requests :=
      hmod _ (fun _ => (grant r₂ (l₁.decCount r.state)).1) (by rw [grant_requests]; exact hr₁')
    obtain ⟨r', hr', hid', hstate'⟩ := postPending_keeps ordering hin rfl
    exact (htidy.levelOf_eq (hput _ hid) hr' hid').trans hstate'
  · rw [if_neg hc, if_neg (by simp)] at htidy ⊢
    rw [if_neg hc]
    have hin := hmod l₁ (fun r => { r with requested := r.state }) hr₁'
    exact (htidy.levelOf_eq (hput _ rfl) hin rfl).trans rfl

theorem levelOf_downgrade (ordering : Bool) (ht : t.Tidy) (hget : t.getRequest id = some (l, r)) :
    (lockDowngrade ordering id t).levelOf id =
      let s := lowerState (pendingState id l.requests) r.state.rank r.state
      if s = .none ∨ s = .null then .none
      else if compatible s (lockState (l.decCount r.state)) then s else r.state := by
  unfold lockDowngrade
  rw [hget]
  dsimp only
  split
  · exact levelOf_dequeue ordering id ht
  · exact levelOf_convert ordering _ r.ast ht hget

/-- In every table that can be reached, a request gets out of the way of those that wait unless a
protected read is hidden by a shared write, or the rest of the lock excludes the level. -/
theorem lockDowngrade_gives_way {ordering : Bool} {ss : List Step} {id : RequestId} {l : Lbl}
    {r : Lrq} (hlegal : LegalSteps ordering ss initTable)
    (hget : (runSteps ordering ss initTable).getRequest id = some (l, r)) :
    GivesWay (waitedFor id l.requests) r.state
        ((lockDowngrade ordering id (runSteps ordering ss initTable)).levelOf id) ↔
      ¬MixedWaiters (waitedFor id l.requests) r.state ∧
        ¬Refused (waitedFor id l.requests) r l := by
  rw [levelOf_downgrade ordering (runSteps_tidy initTable_tidy hlegal) hget]
  obtain ⟨hle, hm⟩ := pendingState_spec id l.requests
  have hlow := lowerState_highest (pendingState id l.requests) r.state
  generalize waitedFor id l.requests = levels at hle hm ⊢
  generalize hs : lowerState (pendingState id l.requests) r.state.rank r.state = s at hlow
  by_cases hmixed : MixedWaiters levels r.state
  · -- the level found is a shared write, and what is left is that or the old one
    obtain rfl : s = .sw := hs.symm.trans (hmixed.lowerState_eq hle hm)
    refine iff_of_false (hmixed.not_givesWay ?_) fun h => h.1 hmixed
    rw [if_neg (by decide)]
    split
    · exact Nat.le_refl _
    · exact hmixed.2.2.2
  have hhigh := highest_of_max hle hm hlow hmixed
  have hgives : ∀ new, GivesWay levels r.state new ↔ new = if s = .null then .none else s := by
    refine fun new => ⟨?_, fun h => ⟨s, hhigh, h⟩⟩
    rintro ⟨s', hs', rfl⟩
    rw [hs'.unique hhigh]
  have hrefused : Refused levels r l ↔ Level.null.rank < s.rank ∧ s ≠ r.state ∧
      compatible s (lockState (l.decCount r.state)) = false := by
    refine ⟨?_, fun h => ⟨s, hhigh, h⟩⟩
    rintro ⟨s', hs', h⟩
    rwa [hs'.unique hhigh] at h
  rw [hgives, hrefused]
  have hlow' : ∀ s : Level, s = .none ∨ s = .null ↔ ¬Level.null.rank < s.rank := by decide
  by_cases hnull : s = .none ∨ s = .null
  · refine iff_of_true ?_ ⟨hmixed, fun h => (hlow' s).mp hnull h.1⟩
    rcases hnull with rfl | rfl <;> rfl
  · have hne : s ≠ .null := fun e => hnull (.inr e)
    have hpos : Level.null.rank < s.rank := not_not.mp ((hlow' s).not.mp hnull)
    rw [if_neg hnull, if_neg hne]
    cases hc : compatible s (lockState (l.decCount r.state)) with
    | true => simp [hmixed]
    | false =>
      simp only [hmixed, hpos]
      simp [eq_comm]

def readerRun : List Step :=
  [.act (.createOwner 1), .act (.createOwner 2), .act (simpleEnq 1 10 (some 0) .ex 0),
    .act (simpleEnq 2 20 none .pr 1)]

theorem lockDowngrade_gives_way_reader :
    ∃ l r, (runSteps true readerRun initTable).getRequest 10 = some (l, r) ∧
      (GivesWay (waitedFor 10 l.requests) r.state
          ((lockDowngrade true 10 (runSteps true readerRun initTable)).levelOf 10) ↔
        ¬MixedWaiters (waitedFor 10 l.requests) r.state ∧
          ¬Refused (waitedFor 10 l.requests) r l) :=
  ⟨_, _, rfl, lockDowngrade_gives_way (by decide) rfl⟩

def writersRun : List Step :=
  [.act (.createOwner 1), .act (.createOwner 2), .act (.createOwner 3),
    .act (simpleEnq 1 10 (some 0) .sw 0), .act (simpleEnq 2 20 none .sw 0),
    .act (simpleEnq 3 30 none .pr 1)]

/-- Neither of the shared writes gets out of the way while there is the other one. -/
theorem shared_write_stays :
    LegalSteps true writersRun initTable ∧
      ∃ p ∈ (runSteps true writersRun initTable).getRequest 10, p.2.state = .sw ∧
        ¬GivesWay (waitedFor 10 p.1.requests) p.2.state
          ((lockDowngrade true 10 (runSteps true writersRun initTable)).levelOf 10) := by
  decide

end Firebird.Lock
