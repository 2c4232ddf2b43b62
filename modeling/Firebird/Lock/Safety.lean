import Firebird.Lock.Coherent
import Firebird.Lock.Deadlock

/-!
# Safety of the lock manager

Whatever the owners do, in any order: granted requests on a lock stay compatible and the counters
and the state of every lock stay exact, as long as no lock gets `2 ^ 16` requests. The counters
are 16 bits wide, and with more requests than that they wrap around.
-/
namespace Firebird.Lock

open List Function

/-! ## One lock -/

structure LockOk (l : Lbl) : Prop where
  coherent : Coherent l.requests l
  ids : (l.requests.map Lrq.id).Nodup

variable {rs : List Lrq} {l l' : Lbl}

theorem Coherent.of_eq (h : Coherent rs l)
    (hc : l'.counts = l.counts) (hp : l'.pendingLrqCount = l.pendingLrqCount)
    (hs : l'.state = l.state) : Coherent rs l' := by
  refine ⟨hc ▸ h.counts, hp ▸ h.pending, ?_, h.compat, h.small⟩
  rw [hs, h.state]
  simp [lockState, hc]

variable {id : RequestId}

theorem map_modify_of_ne (f : Lrq → Lrq)
    (h : ∀ r ∈ rs, r.id ≠ id) : rs.map (fun r => if r.id = id then f r else r) = rs :=
  (map_congr_left fun r hr => if_neg (h r hr)).trans (map_id _)

variable {r : Lrq}

theorem LockOk.split (h : LockOk l) (hr : r ∈ l.requests) :
    ∃ pre post, l.requests = pre ++ r :: post ∧
      (∀ f, (l.modifyRequest r.id f).requests = pre ++ f r :: post) ∧
      (l.removeRequest r.id).requests = pre ++ post := by
  obtain ⟨pre, post, hsplit⟩ := append_of_mem hr
  have hids := h.ids
  rw [hsplit, map_append, map_cons, nodup_append, nodup_cons] at hids
  obtain ⟨-, ⟨hpost, -⟩, hpre⟩ := hids
  have hpre' : ∀ x ∈ pre, x.id ≠ r.id := fun x hx =>
    hpre x.id (mem_map_of_mem hx) r.id (by simp)
  have hpost' : ∀ x ∈ post, x.id ≠ r.id := fun x hx e => hpost (e ▸ mem_map_of_mem hx)
  refine ⟨pre, post, hsplit, fun f => ?_, ?_⟩
  · simp only [Lbl.modifyRequest, hsplit, map_append, map_cons, if_true]
    rw [map_modify_of_ne f hpre', map_modify_of_ne f hpost']
  · simp only [Lbl.removeRequest, hsplit, filter_append, filter_cons, ne_eq,
      not_true_eq_false, decide_false, Bool.false_eq_true, if_false]
    rw [filter_eq_self.mpr (by simpa using hpre'), filter_eq_self.mpr (by simpa using hpost')]

theorem LockOk.congr (h : LockOk l) (hreq : l'.requests.map (fun r => (r.id, r.state, r.pending)) =
      l.requests.map fun r => (r.id, r.state, r.pending))
    (hc : l'.counts = l.counts) (hp : l'.pendingLrqCount = l.pendingLrqCount)
    (hs : l'.state = l.state) : LockOk l' := by
  refine ⟨(h.coherent.congr ?_).of_eq hc hp hs, ?_⟩
  · simpa [comp_def] using congrArg (List.map Prod.snd) hreq
  · have : l'.requests.map Lrq.id = l.requests.map Lrq.id := by
      simpa [comp_def] using congrArg (List.map Prod.fst) hreq
    exact this ▸ h.ids

theorem LockOk.modify (h : LockOk l) (id : RequestId) (f : Lrq → Lrq)
    (hf : ∀ r ∈ l.requests, r.id = id →
      (f r).id = r.id ∧ (f r).state = r.state ∧ (f r).pending = r.pending) :
    LockOk (l.modifyRequest id f) := by
  refine h.congr ?_ rfl rfl rfl
  rw [Lbl.modifyRequest, map_map]
  refine map_congr_left fun r hr => ?_
  by_cases e : r.id = id
  · simp [e, hf r hr e]
  · simp [e]

variable {r' : Lrq}

theorem LockOk.replace (h : LockOk l) (hr : r ∈ l.requests)
    (hid : r'.id = r.id) (hreq : l'.requests = l.requests)
    (hcoh : ∀ others, l.requests.Perm (r :: others) → Coherent (r' :: others) l') :
    LockOk (l'.modifyRequest r.id fun _ => r') := by
  obtain ⟨pre, post, hsplit, hmodify, -⟩ := h.split hr
  have hreqs : (l'.modifyRequest r.id fun _ => r').requests = pre ++ r' :: post := by
    rw [← hmodify fun _ => r', Lbl.modifyRequest, Lbl.modifyRequest, hreq]
  refine ⟨?_, ?_⟩
  · rw [hreqs]
    have := hcoh (pre ++ post) (hsplit ▸ perm_middle)
    exact (this.perm perm_middle.symm).of_eq rfl rfl rfl
  · have hids := h.ids
    rw [hsplit] at hids
    rw [hreqs]
    simpa [hid] using hids

theorem grant_requests (r : Lrq) (l : Lbl) : (grant r l).2.requests = l.requests := by
  dsimp only [grant]
  split_ifs <;> rfl

theorem LockOk.grantConvert (h : LockOk l) {r₁ : Lrq} (hr : r ∈ l.requests)
    (hid : r₁.id = r.id) (hstate : r₁.state = r.state) (hpend : r₁.pending = r.pending)
    (hc : compatible r₁.requested (lockState (l.decCount r.state)) = true) :
    LockOk ((grant r₁ (l.decCount r.state)).2.modifyRequest r.id
      fun _ => (grant r₁ (l.decCount r.state)).1) := by
  refine h.replace hr hid (grant_requests _ _) fun others hperm => ?_
  have hcoh : Coherent (r₁ :: others) l :=
    (h.coherent.perm hperm).congr (by simp [hstate, hpend])
  rw [← hstate]
  exact hcoh.convert (by rwa [hstate])

theorem LockOk.grantNew (h : LockOk l) (hr : r ∈ l.requests)
    (hnone : r.state = .none) (hc : compatible r.requested l.state = true) :
    LockOk ((grant r l).2.modifyRequest r.id fun _ => (grant r l).1) :=
  h.replace hr rfl (grant_requests _ _) fun _ hperm => (h.coherent.perm hperm).grant hnone hc

theorem LockOk.postPending (h : LockOk l) (ordering : Bool) :
    LockOk (postPending ordering l).1 := by
  refine ⟨postPending_coherent ordering h.coherent, ?_⟩
  have hids : l.requests.map Lrq.id = (Lock.postPending ordering l).1.requests.map Lrq.id := by
    have := (postPending_posts ordering l).1
    rw [← forall₂_eq_eq_eq, forall₂_map_left_iff, forall₂_map_right_iff]
    exact this.imp fun _ _ hp => hp.id_eq.symm
  exact hids ▸ h.ids

theorem dropLevel_requests (s : Level) (l : Lbl) : (dropLevel s l).requests = l.requests := by
  unfold dropLevel
  split_ifs <;> rfl

theorem dropLevel_sameLock (s : Level) (l : Lbl) : SameLock l (dropLevel s l) := by
  unfold dropLevel
  split_ifs <;> exact ⟨rfl, rfl⟩

theorem lockState_congr (h : ∀ s, s ≠ .none → (l.counts s = 0 ↔ l'.counts s = 0)) :
    lockState l = lockState l' := by
  simp [lockState, h .ex (by decide), h .pw (by decide), h .sw (by decide), h .pr (by decide), h .sr
    (by decide), h .null (by decide)]

theorem Coherent.dropLevel {l₁ : Lbl} (h : Coherent (r :: rs) l)
    (hcounts : l₁.counts = l.counts) (hstate : l₁.state = l.state)
    (hpend : l₁.pendingLrqCount = UInt16.ofNat (rs.countP fun r => r.pending)) :
    Coherent rs (dropLevel r.state l₁) := by
  have hsmall : rs.length < 65536 := by
    have := h.small
    simp only [length_cons] at this
    omega
  have hdec : CountsMatch rs (l₁.decCount r.state).counts :=
    CountsMatch.decCount (hcounts ▸ h.counts)
  have hlock : lockState l₁ = lockState l := by simp only [lockState, hcounts]
  unfold Lock.dropLevel
  split_ifs with hnone hzero
  · refine ⟨?_, hpend, by rw [hstate, h.state, hlock], h.compat.tail, hsmall⟩
    intro s hs
    rw [← hdec s hs, hnone]
    simp [Lbl.decCount, update_of_ne hs]
  · exact ⟨hdec, hpend, rfl, h.compat.tail, hsmall⟩
  · refine ⟨hdec, hpend, ?_, h.compat.tail, hsmall⟩
    change l₁.state = _
    rw [hstate, h.state, ← hlock]
    refine lockState_congr fun s _ => ?_
    by_cases e : s = r.state
    · subst e
      have hpos : l₁.counts r.state ≠ 0 := by
        rw [hcounts, h.counts r.state hnone,
          ofNat_ne_zero_iff (Nat.lt_of_le_of_lt countP_le_length h.small)]
        simp
      simp [hzero, hpos]
    · simp [Lbl.decCount, update_of_ne e]

theorem LockOk.unlink (h : LockOk l) (hr : r ∈ l.requests) :
    LockOk (Lock.dropLevel r.state (unlinkRequest r l)) := by
  obtain ⟨pre, post, hsplit, -, hremove⟩ := h.split hr
  have hcoh := h.coherent.perm (hsplit ▸ perm_middle)
  have hpend : (unlinkRequest r l).pendingLrqCount =
      UInt16.ofNat ((pre ++ post).countP fun r => r.pending) := by
    have := hcoh.pending
    cases hp : r.pending <;> simp_all [unlinkRequest]
  constructor
  · rw [dropLevel_requests]
    change Coherent (l.removeRequest r.id).requests _
    rw [hremove]
    exact hcoh.dropLevel rfl rfl hpend
  · rw [dropLevel_requests]
    exact h.ids.sublist (filter_sublist.map _)

variable {ordering : Bool} {woken : List OwnerId}

theorem releaseFromLock_some (h : releaseFromLock ordering r l = some (l', woken)) :
    l' = (postPending ordering (dropLevel r.state (unlinkRequest r l))).1 := by
  unfold releaseFromLock at h
  split_ifs at h
  exact (congrArg Prod.fst (Option.some.inj h)).symm

theorem LockOk.release (h : LockOk l) (hr : r ∈ l.requests)
    (hrel : releaseFromLock ordering r l = some (l', woken)) : LockOk l' ∧ SameLock l l' := by
  obtain rfl := releaseFromLock_some hrel
  have hsame : SameLock l (unlinkRequest r l) := ⟨rfl, rfl⟩
  exact ⟨(h.unlink hr).postPending ordering,
    hsame.trans ((dropLevel_sameLock _ _).trans (postPending_posts ordering _).2)⟩

/-- All lock blocks agree with their queues, and no two are on the same resource. -/
structure LocksOk (ls : List Lbl) : Prop where
  ok : ∀ l ∈ ls, LockOk l
  distinct : ls.Pairwise fun l l' => l.id ≠ l'.id ∧ l.resource ≠ l'.resource

theorem LocksOk.eq_of_id {ls : List Lbl} (h : LocksOk ls) (hl : l ∈ ls)
    (hl' : l' ∈ ls) (hid : l.id = l'.id) : l = l' := by
  by_contra hne
  have : Std.Symm fun l l' : Lbl => l.id ≠ l'.id ∧ l.resource ≠ l'.resource :=
    ⟨fun _ _ hd => ⟨hd.1.symm, hd.2.symm⟩⟩
  exact (h.distinct.forall hl hl' hne).1 hid

variable {t : Table}

theorem LocksOk.set (h : LocksOk t.locks) (hl : l ∈ t.locks)
    (hsame : SameLock l l') (hok : LockOk l') : LocksOk (t.setLock l').locks := by
  constructor
  · intro x hx
    obtain ⟨y, hy, rfl⟩ := mem_map.mp hx
    split
    · exact hok
    · exact h.ok y hy
  · refine pairwise_map.mpr (h.distinct.imp_of_mem fun {x y} hx hy hd => ?_)
    have hkeep : ∀ z ∈ t.locks, (if z.id = l'.id then l' else z).id = z.id ∧
        (if z.id = l'.id then l' else z).resource = z.resource := by
      intro z hz
      split
      · next e =>
        obtain rfl : z = l := h.eq_of_id hz hl (e.trans hsame.1)
        exact hsame
      · exact ⟨rfl, rfl⟩
    rw [(hkeep x hx).1, (hkeep x hx).2, (hkeep y hy).1, (hkeep y hy).2]
    exact hd

theorem LocksOk.remove (h : LocksOk t.locks) (id : LockId) : LocksOk (t.removeLock id).locks :=
  ⟨fun l hl => h.ok l (mem_of_mem_filter hl), h.distinct.sublist filter_sublist⟩

theorem getRequest_mem
    (h : t.getRequest id = some (l, r)) : l ∈ t.locks ∧ r ∈ l.requests ∧ r.id = id := by
  obtain ⟨l', hl', hfind⟩ := exists_of_findSome?_eq_some h
  obtain ⟨r', hr', heq⟩ := Option.map_eq_some_iff.mp hfind
  cases heq
  exact ⟨hl', mem_of_find?_eq_some hr', by simpa using find?_some hr'⟩

variable {parent : Option LockId}

theorem findLock_mem {series : Nat} {value : List UInt8}
    (h : t.findLock parent series value = some l) : l ∈ t.locks :=
  mem_of_find?_eq_some h

theorem findLock_none {series : Nat} {value : List UInt8}
    (h : t.findLock parent series value = none) (hl : l ∈ t.locks) :
    l.resource ≠ (parent, series, value) := by
  have := find?_eq_none.mp h l hl
  simp only [decide_eq_true_eq] at this
  rintro e
  simp only [Lbl.resource, Prod.mk.injEq] at e
  exact this ⟨e.2.1, e.1, e.2.2⟩

/-! ## The operations -/

theorem releaseRequest_ok (ordering : Bool) (id : RequestId)
    (h : LocksOk t.locks) : LocksOk (releaseRequest ordering id t).locks := by
  unfold releaseRequest
  split
  · exact h
  · next l r hget =>
    obtain ⟨hl, hr, -⟩ := getRequest_mem hget
    dsimp only
    split
    · exact h.remove l.id
    · next l' woken hrel =>
      obtain ⟨hok, hsame⟩ := (h.ok l hl).release hr hrel
      exact h.set hl hsame hok

theorem releaseAll_ok (ordering : Bool) (ids : List RequestId) (h : LocksOk t.locks) :
    LocksOk (ids.foldl (fun t r => releaseRequest ordering r t) t).locks := by
  induction ids generalizing t with
  | nil => exact h
  | cons i ids ih => exact ih (releaseRequest_ok ordering i h)

theorem purgeOwner_ok (ordering : Bool) (id : OwnerId) (h : LocksOk t.locks) :
    LocksOk (purgeOwner ordering id t).locks := by
  unfold purgeOwner
  split
  · exact h
  · next owner _ => exact releaseAll_ok ordering owner.requests h

theorem postBlockageLoop_map {β : Type} (request : Lrq) (g : Lrq → β)
    (hg : ∀ r b s j, g { r with blocking := b, blockingSeen := s, justGranted := j } = g r)
    (rs : List Lrq) : (postBlockageLoop request rs).requests.map g = rs.map g := by
  induction rs with
  | nil => rfl
  | cons block bs ih =>
    unfold postBlockageLoop
    dsimp only
    split_ifs <;> simp [ih, hg block]

theorem postBlockage_ok (id : RequestId) (h : LocksOk t.locks) :
    LocksOk (postBlockage id t).locks := by
  unfold postBlockage
  split
  · exact h
  · next l r hget =>
    obtain ⟨hl, -, -⟩ := getRequest_mem hget
    refine h.set hl ⟨rfl, rfl⟩ ((h.ok l hl).congr ?_ rfl rfl rfl)
    exact postBlockageLoop_map r _ (fun _ _ _ _ => rfl) _

theorem blockingAction2_ok (id : OwnerId) (h : LocksOk t.locks) :
    LocksOk (blockingAction2 id t).locks := by
  unfold blockingAction2
  split
  · exact h
  · split
    · exact h
    · next b bs _ =>
      dsimp only
      split
      · exact h
      · next l r hget =>
        obtain ⟨hl, -, -⟩ := getRequest_mem hget
        split
        · exact h.set hl ⟨rfl, rfl⟩ ((h.ok l hl).modify b _ fun _ _ _ => ⟨rfl, rfl, rfl⟩)
        · exact h

theorem LockOk.perm (h : LockOk l) (hp : l.requests.Perm rs) : LockOk { l with requests := rs } :=
  ⟨(h.coherent.perm hp).of_eq rfl rfl rfl, (hp.map _).nodup_iff.mp h.ids⟩

theorem LockOk.recount (h : LockOk l) (hr : r ∈ l.requests) (hid : r'.id = r.id)
    (hstate : r'.state = r.state) {n : UInt16}
    (hn : ∀ c, l.pendingLrqCount = UInt16.ofNat (c + if r.pending then 1 else 0) →
      n = UInt16.ofNat (c + if r'.pending then 1 else 0)) :
    LockOk (Lbl.modifyRequest r.id (fun _ => r') { l with pendingLrqCount := n }) := by
  refine h.replace hr hid rfl fun others hperm => ?_
  have hcoh := h.coherent.perm hperm
  refine ⟨?_, ?_, hcoh.state, ?_, by simpa using hcoh.small⟩
  · intro s hs
    simpa [countP_cons, hstate] using hcoh.counts s hs
  · have hpending := hcoh.pending
    rw [countP_cons] at hpending ⊢
    exact hn _ hpending
  · simpa [AllCompatible, hstate] using hcoh.compat

theorem LockOk.pend (h : LockOk l) (hr : r ∈ l.requests)
    (hnot : r.pending = false) (hid : r'.id = r.id) (hstate : r'.state = r.state)
    (hpend : r'.pending = true) :
    LockOk (Lbl.modifyRequest r.id (fun _ => r')
      { l with pendingLrqCount := l.pendingLrqCount + 1 }) :=
  h.recount hr hid hstate fun c hc => by simp [hnot, hpend, hc]

theorem LockOk.queueRequest (h : LockOk l) (ordering : Bool)
    (hr : r ∈ l.requests) (hnot : r.pending = false) : LockOk (queueRequest ordering r l) := by
  have hpend : LockOk (Lbl.modifyRequest r.id (fun _ => r.waiting)
      { l with pendingLrqCount := l.pendingLrqCount + 1 }) := h.pend hr hnot rfl rfl rfl
  unfold Lock.queueRequest
  split
  · refine hpend.perm ?_
    obtain ⟨pre, post, hsplit, hmod, -⟩ := h.split hr
    obtain ⟨pre', post', hsplit', -, hremove⟩ :=
      hpend.split (r := r.waiting) (by
        change _ ∈ (l.modifyRequest r.id _).requests
        rw [hmod]
        simp)
    rw [hsplit']
    refine perm_middle.trans ?_
    rw [← hremove]
    exact (perm_append_singleton _ _).symm
  · exact hpend

theorem queueRequest_sameLock (ordering : Bool) (r : Lrq) (l : Lbl) :
    SameLock l (queueRequest ordering r l) := by
  unfold queueRequest
  dsimp only
  split <;> exact ⟨rfl, rfl⟩

theorem waitForRequest_ok (ordering : Bool) {l₀ : Lbl} (caller : Caller)
    (lckWait : Int) (h : LocksOk t.locks) (hl₀ : l₀ ∈ t.locks) (hsame : SameLock l₀ l)
    (hok : LockOk l) (hr : r ∈ l.requests) (hnot : r.pending = false) :
    LocksOk (waitForRequest ordering r l caller lckWait t).locks := by
  exact postBlockage_ok _ (h.set hl₀ (hsame.trans (queueRequest_sameLock ordering r l))
    (hok.queueRequest ordering hr hnot))

theorem LockOk.reject (h : LockOk l) (hr : r ∈ l.requests)
    (hpend : r.pending = true) (hid : r'.id = r.id) (hstate : r'.state = r.state)
    (hnot : r'.pending = false) :
    LockOk (Lbl.modifyRequest r.id (fun _ => r')
      { l with pendingLrqCount := l.pendingLrqCount - 1 }) :=
  h.recount hr hid hstate fun c hc => by simp [hnot, hpend, hc]

theorem rejectRequest_ok (h : LocksOk t.locks) (hp : t.Pending id) :
    LocksOk (rejectRequest id t).locks := by
  unfold rejectRequest
  split
  · exact h
  · next l r hget =>
    obtain ⟨hl, hr, rfl⟩ := getRequest_mem hget
    obtain ⟨p, hp, hpend⟩ := hp
    obtain rfl : p = (l, r) := by simpa [hget] using hp.symm
    refine h.set hl ⟨rfl, rfl⟩ ?_
    have hok : LockOk (Lbl.modifyRequest r.id (fun _ =>
      { r with rejected := true, pending := false })
        { l with pendingLrqCount := l.pendingLrqCount - 1 }) :=
      (h.ok l hl).reject hr hpend rfl rfl rfl
    refine hok.congr ?_ rfl rfl rfl
    obtain ⟨pre, post, -, hmod, -⟩ := (h.ok l hl).split hr
    change (l.modifyRequest r.id _).requests.map _ = (l.modifyRequest r.id _).requests.map _
    rw [hmod, hmod]

theorem finishWait_ok (ordering : Bool) (w : Wait) (h : LocksOk t.locks) :
    LocksOk (finishWait ordering w t).locks := by
  unfold finishWait
  split
  · exact h
  · next l r hget =>
    obtain ⟨hl, hr, -⟩ := getRequest_mem hget
    have h' : LocksOk (t.removeWait w.request).locks := h
    split
    · split
      · exact releaseRequest_ok ordering r.id h'
      · exact h'
    · split
      · refine h'.set hl (postPending_posts ordering l).2 ?_
        exact ((h.ok l hl).postPending ordering).modify r.id _ fun _ _ _ => ⟨rfl, rfl, rfl⟩
      · exact h'.set hl ⟨rfl, rfl⟩ ((h.ok l hl).modify r.id _ fun _ _ _ => ⟨rfl, rfl, rfl⟩)

theorem LockOk.overwrite (h : LockOk l) (hr : r ∈ l.requests)
    (hid : r'.id = r.id) (hstate : r'.state = r.state) (hpend : r'.pending = r.pending) :
    LockOk (l.modifyRequest r.id fun _ => r') ∧ r' ∈
      (l.modifyRequest r.id fun _ => r').requests := by
  refine ⟨h.replace hr hid rfl fun others hperm => ?_, ?_⟩
  · exact (h.coherent.perm hperm).congr (by simp [hstate, hpend])
  · obtain ⟨pre, post, -, hmod, -⟩ := h.split hr
    rw [hmod]
    simp

theorem convert_ok (ordering : Bool) (id : RequestId) (type : Level) (lckWait : Int)
    (ast : Option Ast) (h : LocksOk t.locks) (hidle : ¬ t.Pending id) :
    LocksOk (convert ordering id type lckWait ast t).locks := by
  unfold convert
  split
  · exact h
  · next l r hget =>
    obtain ⟨hl, hr, rfl⟩ := getRequest_mem hget
    have hnot : r.pending = false := by
      by_contra hp
      exact hidle ⟨(l, r), hget, by simpa using hp⟩
    dsimp only
    set r₁ : Lrq := { r with requested := type, blockingSeen := false } with hr₁
    obtain ⟨hok, hmem⟩ : LockOk (l.modifyRequest r.id fun _ => r₁) ∧ r₁ ∈ _ :=
      (h.ok l hl).overwrite hr rfl rfl rfl
    split
    · next hc =>
      refine h.set hl ?_ (LockOk.postPending ?_ ordering)
      · refine SameLock.trans ?_ (postPending_posts ordering _).2
        exact SameLock.trans ⟨rfl, rfl⟩
          (grant_sameLock { r₁ with ast := ast } (Lbl.decCount r.state (l.modifyRequest r.id _)))
      · exact LockOk.grantConvert (r := r₁) hok hmem rfl rfl rfl hc
    · have h' : LocksOk (t.setLock (l.modifyRequest r.id fun _ => r₁)).locks :=
        h.set hl ⟨rfl, rfl⟩ hok
      split
      · refine waitForRequest_ok ordering _ _ h' ?_ ⟨rfl, rfl⟩ hok hmem hnot
        exact mem_map.mpr ⟨l, hl, if_pos rfl⟩
      · exact h.set hl ⟨rfl, rfl⟩ (hok.modify r.id _ fun _ _ _ => ⟨rfl, rfl, rfl⟩)

theorem lockDowngrade_ok (ordering : Bool) (id : RequestId) (h : LocksOk t.locks)
    (hidle : ¬ t.Pending id) : LocksOk (lockDowngrade ordering id t).locks := by
  unfold lockDowngrade
  split
  · exact h
  · dsimp only
    split
    · exact releaseRequest_ok ordering id h
    · exact convert_ok ordering id _ 0 _ h hidle

theorem LockOk.append (h : LockOk l) (hnone : r.state = .none)
    (hnot : r.pending = false) (hfresh : ∀ x ∈ l.requests, x.id ≠ r.id)
    (hsmall : l.requests.length < 65535) : LockOk { l with requests := l.requests ++ [r] } := by
  have hcoh := h.coherent
  refine ⟨⟨?_, ?_, hcoh.state, ?_, ?_⟩, ?_⟩
  · intro s hs
    have : r.state ≠ s := hnone ▸ hs.symm
    simpa [this] using hcoh.counts s hs
  · simpa [hnot] using hcoh.pending
  · refine pairwise_append.mpr ⟨hcoh.compat, pairwise_singleton _ _, ?_⟩
    simp [hnone]
  · simp only [length_append, length_singleton]
    omega
  · rw [map_append, nodup_append]
    refine ⟨h.ids, by simp, ?_⟩
    simpa using hfresh

theorem LockOk.grantOrQue (h : LockOk l) (hr : r ∈ l.requests) (hnone : r.state = .none)
    (hg : grantOrQue ordering r l = some (l', woken)) : LockOk l' ∧ SameLock l l' := by
  unfold Lock.grantOrQue at hg
  split_ifs at hg with hc
  simp only [Option.some.injEq] at hg
  obtain ⟨rfl, -⟩ := hg
  refine ⟨(h.grantNew hr hnone hc.1).postPending ordering, ?_⟩
  exact (grant_sameLock r l).trans (SameLock.trans ⟨rfl, rfl⟩ (postPending_posts ordering _).2)

theorem newLock_ok {id : LockId} {a : Enq} (hnot : r.pending = false) :
    LockOk ((grant r (newLock id parent a r)).2.modifyRequest r.id
      fun _ => (grant r (newLock id parent a r)).1) := by
  have hcounts : CountsMatch [] (newLock id parent a r).counts := fun s _ => rfl
  have hreq : ((grant r (newLock id parent a r)).2.modifyRequest r.id
      fun _ => (grant r (newLock id parent a r)).1).requests =
        [(grant r (newLock id parent a r)).1] := by
    rw [Lbl.modifyRequest, grant_requests]
    simp [newLock]
  refine ⟨?_, by rw [hreq]; simp⟩
  rw [hreq]
  refine Coherent.of_eq ⟨?_, ?_, grant_state r (newLock id parent a r), ?_, ?_⟩ rfl rfl rfl
  · rw [grant_counts]
    exact hcounts.incCount rfl
  · rw [grant_pendingLrqCount]
    simp [hnot, newLock]
  · exact pairwise_singleton _ _
  · simp

/-- No lock has as many requests as its counters can hold. -/
def FewRequests (ls : List Lbl) : Prop := ∀ l ∈ ls, l.requests.length < 65535

instance (ls : List Lbl) : Decidable (FewRequests ls) :=
  inferInstanceAs (Decidable (∀ l ∈ ls, l.requests.length < 65535))

theorem releaseFromLock_length (h : releaseFromLock ordering r l = some (l', woken)) :
    l'.requests.length ≤ l.requests.length := by
  obtain rfl := releaseFromLock_some h
  have := (postPending_posts ordering (dropLevel r.state (unlinkRequest r l))).1.length_eq
  rw [dropLevel_requests] at this
  rw [← this]
  exact length_filter_le _ _

theorem releaseRequest_few (ordering : Bool) (id : RequestId)
    (h : FewRequests t.locks) : FewRequests (releaseRequest ordering id t).locks := by
  unfold releaseRequest
  split
  · exact h
  · next l r hget =>
    obtain ⟨hl, -, -⟩ := getRequest_mem hget
    dsimp only
    split
    · exact fun x hx => h x (mem_of_mem_filter hx)
    · next l' woken hrel =>
      intro x hx
      obtain ⟨y, hy, rfl⟩ := mem_map.mp hx
      split
      · exact Nat.lt_of_le_of_lt (releaseFromLock_length hrel) (h l hl)
      · exact h y hy

theorem mem_requests (hl : l ∈ t.locks) (hr : r ∈ l.requests) : r ∈ t.requests :=
  mem_flatMap.mpr ⟨l, hl, hr⟩

theorem Enq.afterPrior_ok (ordering : Bool) (a : Enq) (h : LocksOk t.locks) :
    LocksOk (a.afterPrior ordering t).locks := by
  unfold afterPrior
  split
  · exact releaseRequest_ok ordering _ h
  · exact h

theorem Enq.afterPrior_few (ordering : Bool) (a : Enq) (h : FewRequests t.locks) :
    FewRequests (a.afterPrior ordering t).locks := by
  unfold afterPrior
  split
  · exact releaseRequest_few ordering _ h
  · exact h

theorem Enq.existing_ok (ordering : Bool) (a : Enq)
    (h : LocksOk t.locks) (hfew : FewRequests t.locks) (hl : l ∈ t.locks)
    (hfresh : ∀ x ∈ l.requests, x.id ≠ id) : LocksOk (a.existing ordering id l t).locks := by
  have hok : LockOk { l with requests := l.requests ++ [newRequest id a a.data] } :=
    (h.ok l hl).append rfl rfl hfresh (hfew l hl)
  have hmem : newRequest id a a.data ∈ l.requests ++ [newRequest id a a.data] := by simp
  unfold existing
  dsimp only
  split
  · next l' woken hg =>
    obtain ⟨hok', hsame⟩ := hok.grantOrQue hmem rfl hg
    exact h.set hl (SameLock.trans ⟨rfl, rfl⟩ hsame) hok'
  · have hset : LocksOk
        (t.setLock { l with requests := l.requests ++ [newRequest id a a.data] }).locks :=
      h.set hl ⟨rfl, rfl⟩ hok
    split
    · refine waitForRequest_ok ordering _ _ hset ?_ ⟨rfl, rfl⟩ hok hmem rfl
      exact mem_map.mpr ⟨l, hl, if_pos rfl⟩
    · exact releaseRequest_ok ordering id hset

theorem Enq.fresh_ok (a : Enq) (id : RequestId)
    (h : LocksOk t.locks) (hres : ∀ l ∈ t.locks, l.resource ≠ (parent, a.series, a.value))
    (hnew : ∀ lockId ∈ a.lock, ∀ l ∈ t.locks, l.id ≠ lockId) :
    LocksOk (a.fresh id parent t).locks := by
  unfold fresh
  split
  · exact h
  · next lockId hlock =>
    have hsame := grant_sameLock (newRequest id a 0)
      (newLock lockId parent a (newRequest id a 0))
    constructor
    · intro l hl
      rcases mem_append.mp hl with hl | hl
      · exact h.ok l hl
      · obtain rfl := mem_singleton.mp hl
        exact newLock_ok rfl
    · refine pairwise_append.mpr ⟨h.distinct, pairwise_singleton _ _, ?_⟩
      intro l hl l' hl'
      obtain rfl := mem_singleton.mp hl'
      exact ⟨fun e => hnew lockId hlock l hl (e.trans hsame.1),
        fun e => hres l hl (e.trans hsame.2)⟩

theorem lockEnq_ok (ordering : Bool) (a : Enq) (h : LocksOk t.locks)
    (hfew : FewRequests t.locks) (hlegal : (Action.enq a).Legal ordering t) :
    LocksOk (lockEnq ordering a t).locks := by
  obtain ⟨-, -, -, -, -, hfresh, hnew⟩ := hlegal
  have h₁ := a.afterPrior_ok ordering h
  have hfew₁ := a.afterPrior_few ordering hfew
  unfold lockEnq
  dsimp only
  split
  · exact h₁
  · next id hid =>
    split
    · next l hfind =>
      have hl := findLock_mem hfind
      exact a.existing_ok ordering h₁ hfew₁ hl
        fun x hx => (hfresh id hid).1 x (mem_requests hl hx)
    · next hfind => exact a.fresh_ok id h₁ (fun l hl => findLock_none hfind hl) hnew

theorem pursue_pending {block : Lrq} (h : pursue t block = .target r) :
    ∃ l, t.getRequest r.id = some (l, r) ∧ r.pending = true := by
  unfold pursue at h
  split at h
  · cases h
  · split_ifs at h
    split at h
    · cases h
    · next owner _ l target hget =>
      split_ifs at h with hp
      cases h
      obtain ⟨id, -, hid⟩ := Option.bind_eq_some_iff.mp hget
      obtain ⟨-, -, rfl⟩ := getRequest_mem hid
      exact ⟨l, hid, hp⟩

variable {v : RequestId}

theorem walkLoop_victim {walk : Lrq → Walk → Option (Option RequestId × Walk)}
    (hwalk : ∀ r st v st', (∃ l, t.getRequest r.id = some (l, r) ∧ r.pending = true) →
      walk r st = some (some v, st') → t.Pending v)
    (bs : List Lrq) (st : Walk) {st' : Walk}
    (h : walkLoop t walk bs st = some (some v, st')) : t.Pending v := by
  induction bs generalizing st with
  | nil => cases h
  | cons block bs ih =>
    unfold walkLoop at h
    split at h
    · exact ih _ h
    · exact ih _ h
    · next r hpursue =>
      split at h
      · cases h
      · next v' st₁ hv =>
        cases h
        exact hwalk r st _ _ (pursue_pending hpursue) hv
      · exact ih _ h

theorem deadlockWalk_victim {fuel : Nat} {st st' : Walk}
    (hr : ∃ l, t.getRequest r.id = some (l, r) ∧ r.pending = true)
    (h : deadlockWalk ordering t fuel r st = some (some v, st')) : t.Pending v := by
  induction fuel generalizing r st v st' with
  | zero => cases h
  | succ fuel ih =>
    unfold deadlockWalk at h
    split_ifs at h
    · cases h
    · cases h
      obtain ⟨l, hget, hp⟩ := hr
      exact ⟨_, hget, hp⟩
    · dsimp only at h
      split at h
      · cases h
      · next v' st₁ hloop =>
        cases h
        exact walkLoop_victim (fun r st v st' hr h => ih hr h) _ _ hloop
      · cases h

variable {t' : Table}

def Table.queues (t : Table) : List (OwnerId × List RequestId) :=
  t.owners.map fun o => (o.id, o.requests)

theorem modifyOwner_queues (id : OwnerId) (f : Own → Own) (hf : ∀ o, (f o).id = o.id)
    (g : List RequestId → List RequestId) (hg : ∀ o, (f o).requests = g o.requests) :
    (t.modifyOwner id f).queues = t.queues.map fun p => if p.1 = id then (p.1, g p.2) else p := by
  rw [Table.queues, Table.queues, Table.modifyOwner, map_map, map_map]
  refine map_congr_left fun o _ => ?_
  dsimp only [Function.comp]
  split <;> simp [hf, hg]

theorem postWakeup_queues (woken : List OwnerId) :
    (t.postWakeup woken).queues = t.queues := by
  rw [Table.queues, Table.queues, Table.postWakeup, map_map]
  refine map_congr_left fun o _ => ?_
  dsimp only [Function.comp]
  split <;> rfl

theorem modifyOwner_queues_eq (id : OwnerId) (f : Own → Own)
    (hf : ∀ o, (f o).id = o.id) (hr : ∀ o, (f o).requests = o.requests) :
    (t.modifyOwner id f).queues = t.queues := by
  rw [modifyOwner_queues id f hf (fun q => q) hr]
  simp

/-- The owners may be marked; their requests and the locks are as they were. -/
structure Marked (t t' : Table) : Prop where
  locks : t'.locks = t.locks
  queues : t'.queues = t.queues
  waits : t'.waits = t.waits

theorem Marked.refl (t : Table) : Marked t t := ⟨rfl, rfl, rfl⟩

theorem Marked.trans {t'' : Table} (h : Marked t t') (h' : Marked t' t'') : Marked t t'' :=
  ⟨h'.locks.trans h.locks, h'.queues.trans h.queues, h'.waits.trans h.waits⟩

theorem Marked.modifyOwner (owner : OwnerId) (f : Own → Own) (hf : ∀ o, (f o).id = o.id)
    (hr : ∀ o, (f o).requests = o.requests) : Marked t (t.modifyOwner owner f) :=
  ⟨rfl, modifyOwner_queues_eq owner f hf hr, rfl⟩

theorem deadlockScan_marked {owner : OwnerId} {request : Lrq}
    {v : Option RequestId} (h : deadlockScan ordering owner request t = some (v, t')) :
    Marked t t' := by
  unfold deadlockScan at h
  dsimp only at h
  split at h
  · cases h
  · split_ifs at h <;> cases h
    · next st _ _ =>
      let t₁ := { deadlockClear t with deadlock := st.deadlock, scanned := st.scanned }
      exact ⟨rfl, modifyOwner_queues_eq (t := t₁) owner _ (fun _ => rfl) fun _ => rfl, rfl⟩
    · exact ⟨rfl, rfl, rfl⟩

theorem getRequest_congr (h : t'.locks = t.locks) (id : RequestId) :
    t'.getRequest id = t.getRequest id := by
  unfold Table.getRequest
  rw [h]

theorem Table.Pending.congr (hp : t.Pending id) (h : t'.locks = t.locks) : t'.Pending id := by
  unfold Table.Pending
  rw [getRequest_congr h]
  exact hp

theorem deadlockScan_victim {owner : OwnerId} {request : Lrq}
    (hr : ∃ l, t.getRequest request.id = some (l, request) ∧ request.pending = true)
    (h : deadlockScan ordering owner request t = some (some v, t')) : t'.Pending v := by
  have hlocks := (deadlockScan_marked h).locks
  unfold deadlockScan at h
  dsimp only at h
  split at h
  · cases h
  · next v' st hwalk =>
    obtain rfl : v' = some v := by split_ifs at h <;> cases h <;> rfl
    have hpend : (deadlockClear t).Pending v := deadlockWalk_victim hr hwalk
    exact hpend.congr hlocks

/-- Between marks on owners a round posts a blockage or rejects a pending request, if anything. -/
theorem wakeUp_cases (ordering timedOut woken : Bool) (w : Wait) (hp : t.Pending w.request) :
    ∃ t₁ t₂, Marked t t₁ ∧ Marked t₂ (wakeUp ordering timedOut woken w t) ∧
      (t₂ = t₁ ∨ t₂ = postBlockage w.request t₁ ∨
        ∃ victim, t₁.Pending victim ∧ t₂ = rejectRequest victim t₁) := by
  unfold wakeUp
  split
  · next owner l request _ hget =>
    obtain ⟨hl, hr, hid⟩ := getRequest_mem hget
    have hpend : request.pending = true := by
      obtain ⟨p, hget', hp⟩ := hp
      obtain rfl : p = (l, request) := by simpa [hget] using hget'.symm
      exact hp
    set t₁ := t.modifyOwner w.owner fun o => { o with wakeup := false } with ht₁
    have h₁ : Marked t t₁ := .modifyOwner _ _ (fun _ => rfl) fun _ => rfl
    dsimp only
    split_ifs
    · exact ⟨t₁, _, h₁, .refl _, .inr (.inr ⟨w.request, hp.congr rfl, rfl⟩)⟩
    · exact ⟨t₁, _, h₁, .refl _, .inr (.inl rfl)⟩
    · split
      · exact ⟨t₁, _, h₁, .refl _, .inl rfl⟩
      · next t₂ hscan =>
        exact ⟨t₂, _, h₁.trans (deadlockScan_marked hscan), .refl _, .inr (.inl rfl)⟩
      · next victim t₂ hscan =>
        have hvictim := deadlockScan_victim ⟨l, hid ▸ hget, hpend⟩ hscan
        refine ⟨t₂, _, h₁.trans (deadlockScan_marked hscan), ?_, .inr (.inr ⟨victim, hvictim, rfl⟩)⟩
        set t₃ := rejectRequest victim t₂ with ht₃
        set t₄ : Table := { t₃ with owners := t₃.owners.map fun o =>
          if (t₂.getRequest victim).map (fun p => p.2.owner) = some o.id then
            { o with pendingRequest := none, scanned := false }
          else o } with ht₄
        have h₄ : Marked t₃ t₄ := by
          refine ⟨rfl, ?_, rfl⟩
          rw [Table.queues, Table.queues, ht₄, map_map]
          refine map_congr_left fun o _ => ?_
          dsimp only [Function.comp]
          split <;> rfl
        split_ifs
        · exact h₄.trans ⟨rfl, postWakeup_queues _, rfl⟩
        · exact h₄
  · exact ⟨t, t, .refl t, .refl t, .inl rfl⟩

theorem wakeUp_ok (ordering timedOut woken : Bool) (w : Wait) (h : LocksOk t.locks)
    (hp : t.Pending w.request) : LocksOk (wakeUp ordering timedOut woken w t).locks := by
  obtain ⟨t₁, t₂, h₁, h₂, rfl | rfl | ⟨victim, hvictim, rfl⟩⟩ :=
    wakeUp_cases ordering timedOut woken w hp
  all_goals rw [← h₁.locks] at h; rw [h₂.locks]
  · exact h
  · exact postBlockage_ok w.request h
  · exact rejectRequest_ok h hvictim

theorem Action.apply_ok {a : Action} (h : LocksOk t.locks)
    (hfew : FewRequests t.locks) (hlegal : a.Legal ordering t) :
    LocksOk (a.apply ordering t).locks := by
  cases a with
  | createOwner owner => exact h
  | enq args => exact lockEnq_ok ordering args h hfew hlegal
  | convert id type lckWait ast => exact convert_ok ordering id type lckWait ast h hlegal.1.2.1
  | downgrade id => exact lockDowngrade_ok ordering id h hlegal.2.1
  | deq id => exact releaseRequest_ok ordering id h
  | wakeUp timedOut woken w => exact wakeUp_ok ordering timedOut woken w h hlegal.2.2
  | leaveWait w => exact h
  | finishWait w => exact finishWait_ok ordering w h
  | purgeOwner owner => exact purgeOwner_ok ordering owner h
  | blockingAction owner => exact blockingAction2_ok owner h
  | rePost owner id => exact h

theorem runActions_ok {G : Action → Table → Prop} {as : List Action}
    (h : LocksOk t.locks) (hlegal : LegalRun ordering G as t)
    (hG : ∀ a t, G a t → FewRequests t.locks) : LocksOk (runActions ordering as t).locks := by
  induction as generalizing t with
  | nil => exact h
  | cons a as ih =>
    obtain ⟨ha, hg, has⟩ := hlegal
    exact ih (Action.apply_ok h (hG a t hg) ha) has

/-- What safety of the lock manager means for a table. -/
structure Safe (t : Table) : Prop where
  compatible : ∀ l ∈ t.locks, l.requests.Pairwise fun r r' => compatible r.state r'.state = true
  counts : ∀ l ∈ t.locks, ∀ s, s ≠ .none →
    (l.counts s).toNat = l.requests.countP fun r => r.state = s
  state : ∀ l ∈ t.locks, l.state = lockState l
  pending : ∀ l ∈ t.locks, l.pendingLrqCount.toNat = l.requests.countP fun r => r.pending
  unique : t.locks.Pairwise fun l l' => (l.parent, l.series, l.key) ≠ (l'.parent, l'.series, l'.key)

theorem LocksOk.safe (h : LocksOk t.locks) : Safe t := by
  have hnat : ∀ {l : Lbl} {p : Lrq → Bool}, l ∈ t.locks →
      (UInt16.ofNat (l.requests.countP p)).toNat = l.requests.countP p := by
    intro l p hl
    have hsmall := (h.ok l hl).coherent.small
    have hle := countP_le_length (p := p) (l := l.requests)
    exact UInt16.toNat_ofNat_of_lt' (by simp only [UInt16.size]; omega)
  refine ⟨fun l hl => (h.ok l hl).coherent.compat, ?_, fun l hl => (h.ok l hl).coherent.state, ?_,
    h.distinct.imp fun hd => hd.2⟩
  · intro l hl s hs
    rw [(h.ok l hl).coherent.counts s hs, hnat hl]
  · intro l hl
    rw [(h.ok l hl).coherent.pending, hnat hl]

theorem initTable_ok : LocksOk initTable.locks := ⟨by simp [initTable], Pairwise.nil⟩

/-- In every run in which no lock ever has as many requests as its counters can hold, the lock
manager is safe. -/
theorem lock_manager_safe (ordering : Bool) (as : List Action)
    (h : LegalRun ordering (fun _ t => FewRequests t.locks) as initTable) :
    Safe (runActions ordering as initTable) :=
  (runActions_ok initTable_ok h fun _ _ hg => hg).safe

/-- A call of `LOCK_enq` for a series and the empty key, without AST and data. -/
def seriesEnq (owner : OwnerId) (request : RequestId) (series : Nat) (lock : Option LockId)
    (type : Level) (lckWait : Int) : Action :=
  .enq
    { priorRequest := none, parentRequest := none, series := series, value := [], type := type,
      ast := none, data := 0, lckWait := lckWait, owner := owner, request := some request,
      lock := lock }

def simpleEnq (owner : OwnerId) (request : RequestId) (lock : Option LockId) (type : Level)
    (lckWait : Int) : Action :=
  seriesEnq owner request 0 lock type lckWait

/-- An exclusive request waits behind two shared ones, and is granted when both are gone. -/
theorem lock_manager_safe_handover :
    Safe (runActions true
      [.createOwner 1, .createOwner 2, simpleEnq 1 10 (some 0) .sr 0, simpleEnq 1 11 none .sr 0,
        simpleEnq 2 20 none .ex 1, .deq 10, .purgeOwner 1] initTable) :=
  lock_manager_safe true _ (by decide)

theorem grantOrQue_granted (hfresh : ∀ x ∈ l.requests, x.id ≠ r.id) (hpend : l.pendingLrqCount = 0)
    (hnot : r.pending = false) (hc : compatible r.requested l.state = true) :
    ∃ l' woken, grantOrQue ordering r { l with requests := l.requests ++ [r] } = some (l', woken) ∧
      SameLock l l' ∧ l'.requests = l.requests ++ [{ r with state := r.requested, data := 0 }] ∧
      l'.counts = (l.incCount r.requested).counts ∧ l'.state = lockState l' ∧
      l'.pendingLrqCount = 0 := by
  set l₁ : Lbl := { l with requests := l.requests ++ [r] } with hl₁
  set l₂ := (grant r l₁).2.modifyRequest r.id fun _ => (grant r l₁).1 with hl₂
  have hzero : l₂.pendingLrqCount = 0 := by
    rw [hl₂, Lbl.modifyRequest, grant_pendingLrqCount, hnot]
    exact hpend
  have hpost : postPending ordering l₂ = (l₂, []) := by
    rw [postPending, if_pos hzero]
  refine ⟨l₂, [r.owner], ?_, grant_sameLock r l₁, ?_, ?_, ?_, hzero⟩
  · rw [grantOrQue, if_pos ⟨hc, .inr (.inr hpend)⟩]
    dsimp only
    rw [← hl₂, hpost]
  · rw [hl₂, Lbl.modifyRequest, grant_requests, grant_request, hl₁, map_append,
      map_modify_of_ne _ hfresh]
    simp [hnot]
  · exact grant_counts r l₁
  · exact grant_state r l₁

theorem lockEnq_granted (owner : OwnerId) (id : RequestId) (type : Level)
    (hlocks : t.locks = [l]) (hres : l.resource = (none, 0, []))
    (hfresh : ∀ r ∈ l.requests, r.id ≠ id) (hpend : l.pendingLrqCount = 0)
    (hc : compatible type l.state = true) :
    ∃ l' r, ((simpleEnq owner id none type 0).apply true t).locks = [l'] ∧
      l'.resource = (none, 0, []) ∧ l'.requests = l.requests ++ [r] ∧ r.id = id ∧
      r.state = type ∧ l'.counts = (l.incCount type).counts ∧ l'.state = lockState l' ∧
      l'.pendingLrqCount = 0 ∧
      ((simpleEnq owner id none type 0).apply true t).owners.map (fun o => (o.id, o.blocks)) =
        t.owners.map fun o => (o.id, o.blocks) := by
  obtain ⟨hparent, hseries, hkey⟩ : l.parent = none ∧ l.series = 0 ∧ l.key = [] := by
    simpa [Lbl.resource] using hres
  set a : Enq :=
    { priorRequest := none, parentRequest := none, series := 0, value := [], type := type,
      ast := none, data := 0, lckWait := 0, owner := owner, request := some id, lock := none }
    with ha
  have hfind : (a.linkRequest id t).findLock none 0 [] = some l := by
    simp [Table.findLock, Enq.linkRequest, Table.modifyOwner, hlocks, hparent, hseries, hkey]
  obtain ⟨l', woken, hg, hsame, hreq, hcounts, hstate, hzero⟩ :=
    @grantOrQue_granted l (newRequest id a 0) true hfresh hpend rfl hc
  have happly : (simpleEnq owner id none type 0).apply true t =
      ((a.linkRequest id t).setLock l').postWakeup woken := by
    change lockEnq true a t = _
    unfold lockEnq
    rw [show a.afterPrior true t = t from rfl, show a.request = some id from rfl]
    dsimp only
    rw [show (a.linkRequest id t).findLock (a.parent t) a.series a.value = some l from hfind]
    dsimp only [Enq.existing]
    rw [hg]
  refine ⟨l', _, ?_, hsame.2.trans hres, hreq, rfl, rfl, hcounts, hstate, hzero, ?_⟩
  · rw [happly]
    simp [Table.postWakeup, Table.setLock, Enq.linkRequest, Table.modifyOwner, hlocks, hsame.1]
  · rw [happly]
    simp only [Table.postWakeup, Table.setLock, Enq.linkRequest, Table.modifyOwner, map_map]
    refine map_congr_left fun o _ => ?_
    dsimp only [Function.comp]
    split_ifs <;> rfl

theorem legalRun_append {G : Action → Table → Prop} {as bs : List Action}
    (h : LegalRun ordering G as t) (h' : LegalRun ordering G bs (runActions ordering as t)) :
    LegalRun ordering G (as ++ bs) t := by
  induction as generalizing t with
  | nil => exact h'
  | cons a as ih => exact ⟨h.1, h.2.1, ih h.2.2 h'⟩

/-- One lock with `k` shared requests, all of owner 1. -/
structure Shared (k : Nat) (t : Table) (l : Lbl) : Prop where
  locks : t.locks = [l]
  resource : l.resource = (none, 0, [])
  length : l.requests.length = k
  requests : ∀ r ∈ l.requests, r.id < k ∧ r.state = .sr
  count : l.counts .sr = UInt16.ofNat k
  others : ∀ s, s ≠ .sr → s ≠ .none → l.counts s = 0
  state : l.state = lockState l
  pending : l.pendingLrqCount = 0
  owners : t.owners.map (fun o => (o.id, o.blocks)) = [(1, [])]

variable {k : Nat}

theorem Shared.fresh (h : Shared k t l) : ∀ r ∈ l.requests, r.id ≠ k :=
  fun r hr => Nat.ne_of_lt (h.requests r hr).1

theorem Shared.lockState_eq (h : Shared k t l) :
    l.state = if UInt16.ofNat k = 0 then .none else .sr := by
  have ho := fun s h₁ h₂ => h.others s h₁ h₂
  rw [h.state]
  simp only [lockState, ho .ex (by decide) (by decide), ho .pw (by decide) (by decide),
    ho .sw (by decide) (by decide), ho .pr (by decide) (by decide),
    ho .null (by decide) (by decide), h.count]
  split_ifs <;> simp_all

theorem Shared.legal (h : Shared k t l) (type : Level) :
    (simpleEnq 1 k none type 0).Legal true t := by
  have hown : ∀ o ∈ t.owners, o.id = 1 ∧ o.blocks = [] := by
    intro o ho
    have : (o.id, o.blocks) ∈ t.owners.map fun o => (o.id, o.blocks) := mem_map_of_mem ho
    simpa [h.owners] using this
  have hne : t.owners ≠ [] := by
    intro e
    have := h.owners
    simp [e] at this
  obtain ⟨o, ho⟩ := exists_mem_of_ne_nil _ hne
  refine ⟨Nat.zero_le _, Nat.zero_le _, ⟨o, ho, (hown o ho).1⟩, by simp, by simp, ?_, by simp⟩
  simp only [Option.mem_def, Option.some.injEq, Enq.afterPrior]
  rintro _ rfl
  refine ⟨?_, fun o ho => by simp [(hown o ho).2]⟩
  simpa [Table.requests, h.locks] using h.fresh

theorem Shared.step (h : Shared k t l) :
    ∃ l', Shared (k + 1) ((simpleEnq 1 k none .sr 0).apply true t) l' := by
  have hc : compatible .sr l.state = true := by
    rw [h.lockState_eq]
    split_ifs <;> rfl
  obtain ⟨l', r, hlocks, hres, hreq, hid, hstate, hcounts, hst, hpend, howners⟩ :=
    lockEnq_granted 1 k .sr h.locks h.resource h.fresh h.pending hc
  refine ⟨l', hlocks, hres, ?_, ?_, ?_, ?_, hst, hpend, howners.trans h.owners⟩
  · rw [hreq]
    simp [h.length]
  · intro x hx
    rw [hreq] at hx
    rcases mem_append.mp hx with hx | hx
    · exact ⟨Nat.lt_succ_of_lt (h.requests x hx).1, (h.requests x hx).2⟩
    · obtain rfl := mem_singleton.mp hx
      exact ⟨hid ▸ Nat.lt_succ_self k, hstate⟩
  · rw [hcounts]
    simp [Lbl.incCount, h.count]
  · intro s hs hs'
    rw [hcounts]
    simp [Lbl.incCount, update_of_ne hs, h.others s hs hs']

/-- The run that gives owner 1 `n + 1` shared requests. -/
def sharedRun (n : Nat) : List Action :=
  [.createOwner 1, simpleEnq 1 0 (some 0) .sr 0] ++
    (List.range' 1 n).map fun i => simpleEnq 1 i none .sr 0

theorem sharedRun_spec (n : Nat) :
    LegalRun true (fun _ _ => True) (sharedRun n) initTable ∧
      ∃ l, Shared (n + 1) (runActions true (sharedRun n) initTable) l := by
  induction n with
  | zero =>
    refine ⟨by decide, _, rfl, rfl, rfl, ?_, rfl, ?_, rfl, rfl, rfl⟩
    · decide
    · intro s hs hs'
      cases s <;> first | rfl | contradiction
  | succ n ih =>
    obtain ⟨hlegal, l, hl⟩ := ih
    have hrun : sharedRun (n + 1) = sharedRun n ++ [simpleEnq 1 (n + 1) none .sr 0] := by
      simp [sharedRun, List.range'_concat, Nat.add_comm]
    rw [hrun]
    refine ⟨legalRun_append hlegal ⟨hl.legal .sr, trivial, trivial⟩, ?_⟩
    simpa [runActions] using hl.step

/-- With `2 ^ 16` shared requests on a lock their count is zero, and the lock is granted
exclusively to the next one who asks. -/
theorem exclusive_beside_shared :
    ¬ ∀ (ordering : Bool) (as : List Action),
      LegalRun ordering (fun _ _ => True) as initTable → Safe
        (runActions ordering as initTable) := by
  intro hall
  obtain ⟨n, hn⟩ : ∃ n, n = 65535 := ⟨_, rfl⟩
  obtain ⟨hlegal, l, hl⟩ := sharedRun_spec n
  have hstate : l.state = .none := by
    rw [hl.lockState_eq, hn]
    rfl
  obtain ⟨l', r, hlocks, -, hreq, -, hex, -⟩ :=
    lockEnq_granted 1 (n + 1) .ex hl.locks hl.resource hl.fresh hl.pending (by rw [hstate]; rfl)
  have hsafe := hall true (sharedRun n ++ [simpleEnq 1 (n + 1) none .ex 0])
    (legalRun_append hlegal ⟨hl.legal .ex, trivial, trivial⟩)
  have hpair := hsafe.compatible l' (by simp [runActions] at hlocks ⊢; simp [hlocks])
  rw [hreq, pairwise_append] at hpair
  obtain ⟨x, hx⟩ : ∃ x, x ∈ l.requests := exists_mem_of_length_pos (by
    rw [hl.length]
    omega)
  have := hpair.2.2 x hx r (by simp)
  rw [(hl.requests x hx).2, hex] at this
  exact absurd this (by decide)

end Firebird.Lock
