import Firebird.Lock.Data

/-!
# The data queues stay in order

Each live lock with data and a parent is once on the queue of its series, and the locks of one
parent stand there in the order of their data. So `LOCK_query_data` finds what is to be found.
-/
namespace Firebird.Lock

open Lib List

/-- The fields of a lock block that the data queues depend on. -/
structure View where
  id : LockId
  parent : Option LockId
  series : Nat
  data : Int

def Lbl.view (l : Lbl) : View := ⟨l.id, l.parent, l.series, l.data⟩

def View.On (s : Nat) (v : View) : Prop :=
  v.series = s ∧ s < lckMaxSeries ∧ v.parent ≠ none ∧ v.data ≠ 0

/-- The queues have the locks that they should have, in order. -/
structure Listed (vs : Set View) (q : DataQueues) : Prop where
  once : ∀ s, (q s).Nodup
  listed : ∀ s id, id ∈ q s ↔ ∃ v ∈ vs, v.id = id ∧ v.On s
  sorted : ∀ s, (q s).Pairwise fun id id' =>
    ∀ v ∈ vs, ∀ v' ∈ vs, v.id = id → v'.id = id' → v.parent = v'.parent → v.data ≤ v'.data

def Apart (vs : Set View) : Prop := ∀ v ∈ vs, ∀ w ∈ vs, v.id = w.id → v = w

def Over (v : View) (vs : Set View) : Set View := {w | w = v ∨ w ∈ vs ∧ w.id ≠ v.id}

def Table.views (t : Table) : Set View := {v | ∃ l ∈ t.locks, l.view = v}

variable {vs : Set View} {v : View} {q : DataQueues} {t t' : Table} {l l' : Lbl} {r : Lrq}

theorem Apart.over (h : Apart vs) (v : View) : Apart (Over v vs) := by
  rintro a (rfl | ⟨ha, hne⟩) b (rfl | ⟨hb, hne'⟩) e
  · rfl
  · exact absurd e.symm hne'
  · exact absurd e hne
  · exact h a ha b hb e

theorem Apart.over_self (h : Apart vs) (hv : v ∈ vs) : Over v vs = vs := by
  ext w
  refine ⟨?_, fun hw => ?_⟩
  · rintro (rfl | ⟨hw, -⟩)
    · exact hv
    · exact hw
  · by_cases e : w.id = v.id
    · exact .inl (h w hw v hv e)
    · exact .inr ⟨hw, e⟩

theorem Listed.remove (h : Listed (Over v vs) q) :
    Listed {w | w ∈ vs ∧ w.id ≠ v.id} (removeDataQue v.id q) := by
  refine ⟨fun s => (h.once s).filter _, fun s id => ?_, fun s => ?_⟩
  · rw [removeDataQue, mem_filter, h.listed]
    simp only [decide_not, Bool.not_eq_true', decide_eq_false_iff_not]
    constructor
    · rintro ⟨⟨w, rfl | hw, hid, hon⟩, hne⟩
      · exact absurd hid.symm hne
      · exact ⟨w, hw, hid, hon⟩
    · rintro ⟨w, hw, rfl, hon⟩
      exact ⟨⟨w, .inr hw, rfl, hon⟩, hw.2⟩
  · refine Pairwise.imp (fun hab => ?_) ((h.sorted s).filter _)
    exact fun a ha b hb => hab a (.inr ha) b (.inr hb)

theorem getLock_view (hids : Apart t.views) {w : View} (hw : w ∈ t.views) :
    ∃ l ∈ t.getLock w.id, l.view = w := by
  obtain ⟨l, hl, rfl⟩ := hw
  have hsome : (t.getLock l.id).isSome := by
    rw [Table.getLock, find?_isSome]
    exact ⟨l, hl, by simp⟩
  obtain ⟨l', hl'⟩ := Option.isSome_iff_exists.mp hsome
  have hid : l'.id = l.id := by simpa using find?_some hl'
  exact ⟨l', hl', hids _ ⟨l', mem_of_find?_eq_some hl', rfl⟩ _ ⟨l, hl, rfl⟩ hid⟩

theorem insertDataLoop_eq (t : Table) (l : Lbl) (ids : List LockId) :
    insertDataLoop t l ids = Insertion.insertBefore (fun id =>
      (t.getLock id).any fun lock2 => lock2.parent = l.parent ∧ l.data ≤ lock2.data) l.id ids := by
  induction ids with
  | nil => rfl
  | cons id ids ih =>
    unfold insertDataLoop Insertion.insertBefore
    rw [ih]

theorem Listed.insert (hids : Apart t.views)
    (h : Listed {w | w ∈ t.views ∧ w.id ≠ l.id} q) :
    Listed (Over l.view t.views) (insertDataQue t l q) := by
  have hoff : ∀ s, l.id ∉ q s := fun s hin => by
    obtain ⟨w, hw, e, -⟩ := (h.listed s l.id).mp hin
    exact hw.2 e
  have hover := hids.over l.view
  have hne : ∀ {s : Nat} {x : View}, x ∈ Over l.view t.views → x.id ∈ q s →
      x ∈ {w | w ∈ t.views ∧ w.id ≠ l.id} := by
    rintro s x (rfl | hx) hin
    · exact absurd hin (hoff s)
    · exact hx
  have hsorted : ∀ s, (q s).Pairwise fun id id' => ∀ v ∈ Over l.view t.views,
      ∀ v' ∈ Over l.view t.views, v.id = id → v'.id = id' → v.parent = v'.parent →
        v.data ≤ v'.data := by
    refine fun s => Pairwise.imp_of_mem (fun ha hb hab v hv w hw hva hwb => ?_) (h.sorted s)
    exact hab v (hne hv (hva ▸ ha)) w (hne hw (hwb ▸ hb)) hva hwb
  unfold insertDataQue
  split
  · next hon =>
    have hself : l.view.On l.series := ⟨rfl, hon⟩
    have hloop := insertDataLoop_eq t l (q l.series)
    have hperm := hloop ▸ Insertion.insertBefore_perm _ l.id (q l.series)
    refine ⟨fun s => ?_, fun s id => ?_, fun s => ?_⟩
    · by_cases e : s = l.series
      · subst e
        rw [Function.update_self, hperm.nodup_iff, nodup_cons]
        exact ⟨hoff _, h.once _⟩
      · rw [Function.update_of_ne e]
        exact h.once s
    · have hrest : (∃ w ∈ Over l.view t.views, w.id = id ∧ w.On s) ↔
          (id = l.id ∧ s = l.series) ∨ id ∈ q s := by
        rw [h.listed]
        constructor
        · rintro ⟨w, rfl | hw, rfl, hw'⟩
          · exact .inl ⟨rfl, hw'.1.symm⟩
          · exact .inr ⟨w, hw, rfl, hw'⟩
        · rintro (⟨rfl, rfl⟩ | ⟨w, hw, hw'⟩)
          · exact ⟨l.view, .inl rfl, rfl, hself⟩
          · exact ⟨w, .inr hw, hw'⟩
      rw [hrest]
      by_cases e : s = l.series
      · subst e
        rw [Function.update_self, hperm.mem_iff, mem_cons, and_iff_left rfl]
      · rw [Function.update_of_ne e, or_iff_right fun h => e h.2]
    · by_cases e : s = l.series
      · subst e
        rw [Function.update_self, hloop]
        -- a lock of the queue is looked up in the table
        have hstop : ∀ id ∈ q l.series, ∃ l' ∈ t.getLock id, l'.view ∈ Over l.view t.views ∧
            l'.id = id ∧ ∀ w ∈ Over l.view t.views, w.id = id → w = l'.view := by
          intro id hid
          obtain ⟨w, hw, rfl, -⟩ := (h.listed _ _).mp hid
          obtain ⟨l', hl', rfl⟩ := getLock_view hids hw.1
          exact ⟨l', hl', .inr hw, rfl, fun w' hw' e => hover _ hw' _ (.inr hw) e⟩
        have hlast : ∀ w ∈ Over l.view t.views, w.id = l.id → w = l.view :=
          fun w hw e => hover w hw l.view (.inl rfl) e
        refine Insertion.insertBefore_pairwise (hsorted _) ?_ ?_ ?_
        · intro id hid hgo v hv w hw hvid hwid hparent
          obtain ⟨l', hl', -, -, huniq⟩ := hstop id hid
          obtain rfl := huniq v hv hvid
          obtain rfl := hlast w hw hwid
          simp only [Option.mem_def.mp hl', Option.any_some, decide_eq_false_iff_not] at hgo
          exact le_of_not_ge fun hle => hgo ⟨hparent, hle⟩
        · intro id hid hhere v hv w hw hvid hwid _
          obtain ⟨l', hl', -, -, huniq⟩ := hstop id hid
          obtain rfl := huniq w hw hwid
          obtain rfl := hlast v hv hvid
          simp only [Option.mem_def.mp hl', Option.any_some, decide_eq_true_eq] at hhere
          exact hhere.2
        · intro id hid id' hid' hhere hrel v hv w hw hvid hwid hparent
          obtain ⟨l', hl', hin, hl'id, -⟩ := hstop id hid
          obtain rfl := hlast v hv hvid
          simp only [Option.mem_def.mp hl', Option.any_some, decide_eq_true_eq] at hhere
          exact hhere.2.trans (hrel _ hin w hw hl'id hwid (hhere.1.trans hparent))
      · rw [Function.update_of_ne e]
        exact hsorted s
  · next hnot =>
    refine ⟨h.once, fun s id => ?_, hsorted⟩
    rw [h.listed]
    constructor
    · rintro ⟨w, hw, hw'⟩
      exact ⟨w, .inr hw, hw'⟩
    · rintro ⟨w, rfl | hw, hid, rfl, hon⟩
      · exact absurd hon hnot
      · exact ⟨w, hw, hid, rfl, hon⟩

theorem Listed.requeue (hids : Apart t.views) (h : Listed (Over v t.views) q) (hid : l.id = v.id) :
    Listed (Over l.view t.views) (requeue t l q) := by
  have hoff := h.remove
  rw [← hid] at hoff
  exact hoff.insert hids

theorem Listed.grantData (hids : Apart t.views) (r : Lrq) (h : Listed (Over l.view t.views) q) :
    Listed (Over (grant r l).2.view t.views) (grantData t r l q) := by
  have hview : (grant r l).2.view = if r.data ≠ 0 then { l.view with data := r.data }
      else l.view := by
    unfold grant
    split_ifs <;> rfl
  unfold Lock.grantData
  rw [hview]
  split
  · exact h.requeue (l := { l with data := r.data }) hids rfl
  · exact h

theorem insertDataQue_congr (t : Table) (q : DataQueues) (h : l'.view = l.view) :
    insertDataQue t l' q = insertDataQue t l q := by
  obtain ⟨hid, hparent, hseries, hdata⟩ := View.mk.inj h
  unfold insertDataQue
  rw [insertDataLoop_eq, insertDataLoop_eq, hid, hparent, hseries, hdata]

theorem grantData_congr (t : Table) (r : Lrq) (q : DataQueues) (h : l'.view = l.view) :
    grantData t r l' q = grantData t r l q := by
  obtain ⟨hid, hparent, hseries, -⟩ := View.mk.inj h
  unfold grantData requeue
  have hview : ({ l' with data := r.data } : Lbl).view =
    ({ l with data := r.data } : Lbl).view := by
    rw [Lbl.view, Lbl.view, hid, hparent, hseries]
  rw [insertDataQue_congr t _ hview, hid]

theorem Listed.grantPending (hids : Apart t.views) {r' : Lrq}
    (h : Listed (Over l.view t.views) q) (hg : grantPending r l = some (r', l')) :
    Listed (Over l'.view t.views) (Lock.grantData t r l q) := by
  unfold Lock.grantPending at hg
  split_ifs at hg
  · obtain rfl : l' = (grant r (l.decCount r.state)).2 :=
      congrArg Prod.snd (Option.some.inj hg).symm
    have hcongr : Lock.grantData t r (l.decCount r.state) q = Lock.grantData t r l q :=
      grantData_congr t r q rfl
    rw [← hcongr]
    exact Listed.grantData hids r h
  · obtain rfl : l' = (grant r l).2 := congrArg Prod.snd (Option.some.inj hg).symm
    exact h.grantData hids r

theorem Listed.postPendingLoop (hids : Apart t.views) (ordering : Bool) (rs : List Lrq)
    (h : Listed (Over l.view t.views) q) :
    Listed (Over (postPendingLoop ordering rs l).lock.view t.views)
      (postPendingLoopData ordering t rs l q) := by
  induction rs generalizing l q with
  | nil => exact h
  | cons r rs ih =>
    unfold Lock.postPendingLoop postPendingLoopData
    split
    · cases hg : Lock.grantPending r l with
      | some p => exact ih (h.grantPending hids hg)
      | none =>
        cases ordering with
        | true => exact h
        | false => exact ih h
    · exact ih h

theorem Listed.postPending (hids : Apart t.views) (ordering : Bool)
    (h : Listed (Over l.view t.views) q) :
    Listed (Over (postPending ordering l).1.view t.views) (postPendingData ordering t l q) := by
  unfold Lock.postPending postPendingData
  split
  · exact h
  · exact h.postPendingLoop hids ordering l.requests

theorem apart_views (ht : t.Tidy) : Apart t.views := by
  rintro v ⟨l, hl, rfl⟩ w ⟨l', hl', rfl⟩ hid
  rw [ht.eq_of_id hl hl' hid]

theorem views_setLock (h : ∃ l₀ ∈ t.locks, l₀.id = l.id) :
    (t.setLock l).views = Over l.view t.views := by
  obtain ⟨l₀, hl₀, hid⟩ := h
  ext w
  constructor
  · rintro ⟨l₁, hl₁, rfl⟩
    obtain ⟨l₂, hl₂, rfl⟩ := mem_map.mp hl₁
    by_cases e : l₂.id = l.id
    · rw [if_pos e]
      exact .inl rfl
    · rw [if_neg e]
      exact .inr ⟨⟨l₂, hl₂, rfl⟩, e⟩
  · rintro (rfl | ⟨⟨l₂, hl₂, rfl⟩, hne⟩)
    · exact ⟨l, mem_map.mpr ⟨l₀, hl₀, if_pos hid⟩, rfl⟩
    · exact ⟨l₂, mem_map.mpr ⟨l₂, hl₂, if_neg hne⟩, rfl⟩

theorem views_removeLock (t : Table) (id : LockId) :
    (t.removeLock id).views = {w | w ∈ t.views ∧ w.id ≠ id} := by
  ext w
  constructor
  · rintro ⟨l, hl, rfl⟩
    obtain ⟨hl, hne⟩ := mem_filter.mp hl
    exact ⟨⟨l, hl, rfl⟩, of_decide_eq_true hne⟩
  · rintro ⟨⟨l, hl, rfl⟩, hne⟩
    exact ⟨l, mem_filter.mpr ⟨hl, decide_eq_true hne⟩, rfl⟩

variable {id : RequestId}

theorem view_mem_of_getRequest (hget : t.getRequest id = some (l, r)) : l.view ∈ t.views :=
  ⟨l, (getRequest_mem hget).1, rfl⟩

theorem views_setLock_of_mem (hids : Apart t.views) (hl : l.view ∈ t.views) :
    (t.setLock l).views = t.views := by
  obtain ⟨l₀, hl₀, hview⟩ := hl
  rw [views_setLock ⟨l₀, hl₀, congrArg View.id hview⟩, hids.over_self ⟨l₀, hl₀, hview⟩]

theorem postBlockage_views (hids : Apart t.views) (id : RequestId) :
    (postBlockage id t).views = t.views := by
  unfold postBlockage
  split
  · rfl
  · next l r hget =>
    exact views_setLock_of_mem (l := { l with requests := (postBlockageLoop r l.requests).requests
      })
      hids (view_mem_of_getRequest (l := l) hget)

theorem blockingAction2_views (hids : Apart t.views) (id : OwnerId) :
    (blockingAction2 id t).views = t.views := by
  unfold blockingAction2
  split
  · rfl
  · split
    · rfl
    · next b bs _ =>
      dsimp only
      split
      · rfl
      · next l r hget =>
        split
        · refine views_setLock_of_mem (t := t.modifyOwner id fun o => { o with blocks := bs })
            (l := l.modifyRequest b fun r => { r with blocking := false, blockingSeen := true })
            hids ?_
          exact view_mem_of_getRequest (l := l) hget
        · rfl

theorem rejectRequest_views (hids : Apart t.views) (id : RequestId) :
    (rejectRequest id t).views = t.views := by
  unfold rejectRequest
  split
  · rfl
  · next l r hget =>
    exact views_setLock_of_mem hids (view_mem_of_getRequest (l := l) hget)

theorem wakeUp_views (hids : Apart t.views) (ordering timedOut woken : Bool)
    (w : Wait) (hp : t.Pending w.request) :
    (wakeUp ordering timedOut woken w t).views = t.views := by
  obtain ⟨t₁, t₂, h₁, h₂, hacts⟩ := wakeUp_cases ordering timedOut woken w hp
  have hviews {t t' : Table} (h : Marked t t') : t'.views = t.views := by
    rw [Table.views, h.locks]
    rfl
  rw [hviews h₂, ← hviews h₁]
  rw [← hviews h₁] at hids
  rcases hacts with rfl | rfl | ⟨victim, -, rfl⟩
  · rfl
  · exact postBlockage_views hids w.request
  · exact rejectRequest_views hids victim

theorem waitForRequest_views (hids : Apart t.views) (hl : l.view ∈ t.views) (ordering : Bool)
    (caller : Caller) (lckWait : Int) :
    (waitForRequest ordering r l caller lckWait t).views = t.views := by
  have hqueue : (queueRequest ordering r l).view = l.view := by
    unfold queueRequest
    split <;> rfl
  have hset : (t.setLock (queueRequest ordering r l)).views = t.views :=
    views_setLock_of_mem hids (hqueue ▸ hl)
  exact (postBlockage_views (hset ▸ hids) r.id).trans hset

theorem postPending_id (ordering : Bool) (l : Lbl) : (postPending ordering l).1.id = l.id :=
  (postPending_posts ordering l).2.1

theorem Listed.setPosted (hids : Apart t.views) (h : Listed (Over l.view t.views) q)
    (hl : ∃ l₀ ∈ t.locks, l₀.id = l.id) (ordering : Bool)
    (hview : l'.view = (Lock.postPending ordering l).1.view) :
    Listed (t.setLock l').views (postPendingData ordering t l q) := by
  have hid : l'.id = l.id := (congrArg View.id hview).trans (postPending_id ordering l)
  rw [views_setLock (hid ▸ hl), hview]
  exact h.postPending hids ordering

theorem view_dropLevel (s : Level) (l : Lbl) : (dropLevel s l).view = l.view := by
  unfold dropLevel
  split_ifs <;> rfl

theorem releaseRequest_listed (ordering : Bool) (id : RequestId) (ht : t.Tidy)
    (h : Listed t.views q) :
    Listed (releaseRequest ordering id t).views (releaseRequestData ordering id t q) := by
  have hids := apart_views ht
  unfold releaseRequest releaseRequestData
  cases hget : t.getRequest id with
  | none => exact h
  | some p =>
    obtain ⟨l, r⟩ := p
    have hmem := view_mem_of_getRequest hget
    have hover : Listed (Over l.view t.views) q := (hids.over_self hmem).symm ▸ h
    dsimp only [releaseFromLock]
    by_cases hlast : (unlinkRequest r l).requests = []
    · rw [if_pos hlast, if_pos hlast]
      rw [views_removeLock]
      exact hover.remove
    · rw [if_neg hlast, if_neg hlast]
      have hview : (dropLevel r.state (unlinkRequest r l)).view = l.view := view_dropLevel _ _
      have hid : (dropLevel r.state (unlinkRequest r l)).id = l.id := congrArg View.id hview
      exact Listed.setPosted (l := dropLevel r.state (unlinkRequest r l)) hids
        (hview.symm ▸ hover) ⟨l, (getRequest_mem hget).1, hid.symm⟩ ordering rfl

theorem releaseAll_listed (ordering : Bool) (ids : List RequestId) (ht : t.Tidy)
    (h : Listed t.views q) :
    Listed (ids.foldl (fun t r => releaseRequest ordering r t) t).views
      (releaseAllData ordering ids t q) := by
  induction ids generalizing t q with
  | nil => exact h
  | cons id ids ih =>
    exact ih (releaseRequest_tidy ordering id ht) (releaseRequest_listed ordering id ht h)

theorem purgeOwner_listed (ordering : Bool) (id : OwnerId) (ht : t.Tidy) (h : Listed t.views q) :
    Listed (purgeOwner ordering id t).views (purgeOwnerData ordering id t q) := by
  unfold purgeOwner purgeOwnerData
  cases t.getOwner id with
  | none => exact h
  | some owner => exact releaseAll_listed ordering owner.requests ht h

theorem finishWait_listed (ordering : Bool) (w : Wait) (ht : t.Tidy) (h : Listed t.views q) :
    Listed (finishWait ordering w t).views (finishWaitData ordering w t q) := by
  have hids := apart_views ht
  unfold finishWait finishWaitData
  cases hget : t.getRequest w.request with
  | none => exact h
  | some p =>
    obtain ⟨l, r⟩ := p
    have hmem := view_mem_of_getRequest hget
    have hl : ∃ l₀ ∈ t.locks, l₀.id = l.id := ⟨l, (getRequest_mem hget).1, rfl⟩
    dsimp only
    cases w.caller with
    | grantOrQue =>
      split_ifs
      · exact releaseRequest_listed (t := t.removeWait w.request) ordering r.id
          (Same.tidy (.of_locks rfl rfl) ht) h
      · exact h
    | convert ast =>
      split_ifs
      · exact Listed.setPosted (t := t.removeWait w.request) hids
          ((hids.over_self hmem).symm ▸ h) hl ordering rfl
      · have hset : ((t.removeWait w.request).setLock
            (l.modifyRequest r.id fun r => { r with ast := ast })).views = t.views :=
          views_setLock_of_mem (t := t.removeWait w.request) hids hmem
        rw [hset]
        exact h

theorem Listed.grantAndPost (hids : Apart t.views) (h : Listed (Over l.view t.views) q)
    (hl : ∃ l₀ ∈ t.locks, l₀.id = l.id) (ordering : Bool) (r : Lrq) :
    Listed (t.setLock (Lock.postPending ordering
        ((grant r l).2.modifyRequest r.id fun _ => (grant r l).1)).1).views
      (grantAndPostData ordering t r l q) := by
  have hid : (grant r l).2.id = l.id := (grant_sameLock r l).1
  exact Listed.setPosted (l := (grant r l).2.modifyRequest r.id fun _ => (grant r l).1) hids
    (h.grantData hids r) (hid.symm ▸ hl) ordering rfl

theorem convert_listed (ordering : Bool) (id : RequestId) (type : Level) (lckWait : Int)
    (ast : Option Ast) (ht : t.Tidy) (h : Listed t.views q) :
    Listed (convert ordering id type lckWait ast t).views
      (convertData ordering id type ast t q) := by
  have hids := apart_views ht
  unfold convert convertData
  cases hget : t.getRequest id with
  | none => exact h
  | some p =>
    obtain ⟨l, r⟩ := p
    have hmem := view_mem_of_getRequest hget
    have hl : ∃ l₀ ∈ t.locks, l₀.id = l.id := ⟨l, (getRequest_mem hget).1, rfl⟩
    obtain ⟨-, -, rfl⟩ := getRequest_mem hget
    dsimp only
    set r₁ : Lrq := { r with requested := type, blockingSeen := false } with hr₁
    set l₁ := l.modifyRequest r.id fun _ => r₁ with hl₁
    split_ifs
    · exact Listed.grantAndPost (l := l₁.decCount r.state) hids ((hids.over_self hmem).symm ▸ h) hl
        ordering { r₁ with ast := ast }
    · have hset : (t.setLock l₁).views = t.views := views_setLock_of_mem hids hmem
      rw [waitForRequest_views (hset ▸ hids) (hset.symm ▸ hmem) ordering _ lckWait, hset]
      exact h
    · have hset : (t.setLock (l₁.modifyRequest r.id fun r =>
        { r with requested := r.state })).views =
          t.views := views_setLock_of_mem hids hmem
      rw [hset]
      exact h

theorem lockDowngrade_listed (ordering : Bool) (id : RequestId) (ht : t.Tidy)
    (h : Listed t.views q) :
    Listed (lockDowngrade ordering id t).views (lockDowngradeData ordering id t q) := by
  unfold lockDowngrade lockDowngradeData
  cases t.getRequest id with
  | none => exact h
  | some p =>
    dsimp only
    split_ifs
    · exact releaseRequest_listed ordering id ht h
    · exact convert_listed ordering id _ 0 p.2.ast ht h

variable {a : Enq}

theorem Enq.existing_listed (ordering : Bool) (ht : t.Tidy)
    (hl : l ∈ t.locks) (hfresh : ∀ p ∈ members t.holdings, p.1 ≠ id)
    (howner : a.owner ∈ t.queues.map Prod.fst) (h : Listed t.views q) :
    Listed (a.existing ordering id l (a.linkRequest id t)).views
      (a.existingData ordering id l (a.linkRequest id t) q) := by
  have hids : Apart t.views := apart_views ht
  have hmem : l.view ∈ t.views := ⟨l, hl, rfl⟩
  set r := newRequest id a a.data with hr
  set l₁ : Lbl := { l with requests := l.requests ++ [r] } with hl₁
  have hset : ((a.linkRequest id t).setLock l₁).views = t.views :=
    views_setLock_of_mem (t := a.linkRequest id t) hids hmem
  unfold existing existingData
  dsimp only
  cases hg : grantOrQue ordering r l₁ with
  | some p =>
    obtain ⟨l', woken⟩ := p
    have hl' : l' = (postPending ordering
        ((grant r l₁).2.modifyRequest r.id fun _ => (grant r l₁).1)).1 := by
      unfold grantOrQue at hg
      split at hg
      · exact (congrArg Prod.fst (Option.some.inj hg)).symm
      · cases hg
    rw [hl']
    exact Listed.grantAndPost (t := a.linkRequest id t) (l := l₁) hids
      ((hids.over_self hmem).symm ▸ h) ⟨l, hl, rfl⟩ ordering r
  | none =>
    split_ifs
    · rw [waitForRequest_views (hset.symm ▸ hids) (hset.symm ▸ hmem), hset]
      exact h
    · exact releaseRequest_listed ordering id (append_tidy ht hl rfl hfresh howner) (hset.symm ▸ h)

theorem Enq.fresh_listed (parent : Option LockId) (ht : t.Tidy)
    (hnew : ∀ i ∈ a.lock, ∀ l ∈ t.locks, l.id ≠ i) (h : Listed t.views q) :
    Listed (a.fresh id parent (a.linkRequest id t)).views
      (a.freshData id parent (a.linkRequest id t) q) := by
  have hids : Apart t.views := apart_views ht
  unfold fresh freshData
  cases hlock : a.lock with
  | none => exact h
  | some lockId =>
    set r := newRequest id a 0 with hr
    set l := newLock lockId parent a r with hl
    have hout : ∀ w ∈ t.views, w.id ≠ lockId := by
      rintro w ⟨l', hl', rfl⟩
      exact hnew lockId hlock l' hl'
    have hrest : {w | w ∈ (a.linkRequest id t).views ∧ w.id ≠ l.id} = t.views :=
      Set.ext fun w => ⟨fun hw => hw.1, fun hw => ⟨hw, hout w hw⟩⟩
    have hinsert := Listed.insert (t := a.linkRequest id t) (l := l) (q := q) hids (hrest.symm ▸ h)
    have hgrant := hinsert.grantData hids r
    refine Eq.mpr (congrArg (Listed · _) ?_) hgrant
    have hid : (grant r l).2.id = lockId := (grant_sameLock r l).1
    ext w
    constructor
    · rintro ⟨l', hl', rfl⟩
      rcases mem_append.mp hl' with hl' | hl'
      · exact .inr ⟨⟨l', hl', rfl⟩, fun e => hout _ ⟨l', hl', rfl⟩ (e.trans hid)⟩
      · obtain rfl := mem_singleton.mp hl'
        exact .inl rfl
    · rintro (rfl | ⟨⟨l', hl', rfl⟩, -⟩)
      · exact ⟨_, mem_append_right _ (mem_singleton_self _), rfl⟩
      · exact ⟨l', mem_append_left _ hl', rfl⟩

theorem lockEnq_listed (ordering : Bool) (ht : t.Tidy)
    (hlegal : (Action.enq a).Legal ordering t) (h : Listed t.views q) :
    Listed (lockEnq ordering a t).views (lockEnqData ordering a t q) := by
  obtain ⟨-, -, ⟨o, ho, hid⟩, -, -, hfresh, hnew⟩ := hlegal
  have hprior : Listed (a.afterPrior ordering t).views (a.afterPriorData ordering t q) ∧
      (a.afterPrior ordering t).Tidy ∧
      (a.afterPrior ordering t).queues.map Prod.fst = t.queues.map Prod.fst := by
    unfold Enq.afterPrior Enq.afterPriorData
    cases a.priorRequest with
    | none => exact ⟨h, ht, rfl⟩
    | some prior => exact ⟨releaseRequest_listed ordering prior ht h,
        releaseRequest_tidy ordering prior ht, releaseRequest_owners ordering prior t⟩
  obtain ⟨h₁, ht₁, howners⟩ := hprior
  have howner : a.owner ∈ (a.afterPrior ordering t).queues.map Prod.fst := by
    rw [howners]
    exact mem_map.mpr ⟨(o.id, o.requests), mem_map_of_mem ho, hid⟩
  unfold lockEnq lockEnqData
  cases hrequest : a.request with
  | none => exact h₁
  | some id =>
    have hfresh' : ∀ p ∈ members (a.afterPrior ordering t).holdings, p.1 ≠ id := by
      rintro p hp
      obtain ⟨r, hr, rfl⟩ := mem_members.mp hp
      exact (hfresh id hrequest).1 r hr
    dsimp only
    cases hfind : Table.findLock (a.parent (a.afterPrior ordering t)) a.series a.value
        (a.linkRequest id (a.afterPrior ordering t)) with
    | some l => exact Enq.existing_listed ordering ht₁ (findLock_mem hfind) hfresh' howner h₁
    | none => exact Enq.fresh_listed _ ht₁ hnew h₁

theorem lockWriteData_listed (id : RequestId) (data : Int) (ht : t.Tidy) (h : Listed t.views q) :
    Listed (lockWriteData id data t).views (lockWriteDataData id data t q) := by
  have hids := apart_views ht
  unfold lockWriteData lockWriteDataData
  cases hget : t.getRequest id with
  | none => exact h
  | some p =>
    obtain ⟨l, r⟩ := p
    have hmem := view_mem_of_getRequest hget
    have hover : Listed (Over l.view t.views) q := (hids.over_self hmem).symm ▸ h
    rw [views_setLock (l := { l with data }) ⟨l, (getRequest_mem hget).1, rfl⟩]
    exact hover.requeue (l := { l with data }) hids rfl

theorem lockSetOwnerHandle_views (hids : Apart t.views) {newOwner : OwnerId}
    {b : Bool} (h : lockSetOwnerHandle id newOwner t = .ok (b, t')) : t'.views = t.views := by
  cases hget : t.getRequest id with
  | none =>
    unfold lockSetOwnerHandle at h
    rw [hget] at h
    cases h
  | some p =>
    obtain ⟨l, r⟩ := p
    have hmem := view_mem_of_getRequest hget
    by_cases hne : r.owner = newOwner
    · unfold lockSetOwnerHandle at h
      rw [hget] at h
      simp only [if_pos hne, Except.ok.injEq, Prod.mk.injEq] at h
      rw [h.2]
    · rw [lockSetOwnerHandle_eq hget hne] at h
      split_ifs at h
      obtain ⟨-, rfl⟩ := Prod.mk.inj (Except.ok.inj h)
      exact views_setLock_of_mem hids hmem

theorem Step.apply_listed {ordering : Bool} {s : Step} (ht : t.Tidy) (hlegal : s.Legal ordering t)
    (h : Listed t.views q) : Listed (s.apply ordering t).views (s.data ordering t q) := by
  have hids := apart_views ht
  cases s with
  | act a =>
    cases a with
    | createOwner owner => exact h
    | enq args => exact lockEnq_listed ordering ht hlegal h
    | convert id type lckWait ast => exact convert_listed ordering id type lckWait ast ht h
    | downgrade id => exact lockDowngrade_listed ordering id ht h
    | deq id => exact releaseRequest_listed ordering id ht h
    | wakeUp timedOut woken w =>
      have hviews := wakeUp_views hids ordering timedOut woken w hlegal.2.2
      exact (hviews ▸ h : Listed (wakeUp ordering timedOut woken w t).views q)
    | leaveWait w => exact h
    | finishWait w => exact finishWait_listed ordering w ht h
    | purgeOwner owner => exact purgeOwner_listed ordering owner ht h
    | blockingAction owner =>
      have hviews := blockingAction2_views hids owner
      exact (hviews ▸ h : Listed (blockingAction2 owner t).views q)
    | rePost owner id => exact h
  | setOwnerHandle request newOwner =>
    simp only [Step.apply]
    split
    · next hok => rwa [lockSetOwnerHandle_views hids hok]
    · exact h
  | writeData request data => exact lockWriteData_listed request data ht h

theorem runData_listed {ordering : Bool} {ss : List Step} (ht : t.Tidy)
    (hlegal : LegalSteps ordering ss t) (h : Listed t.views q) :
    Listed (runSteps ordering ss t).views (runData ordering ss t q) := by
  induction ss generalizing t q with
  | nil => exact h
  | cons s ss ih =>
    exact ih (Step.apply_tidy ht hlegal.1) hlegal.2 (Step.apply_listed ht hlegal.1 h)

def noData : DataQueues := fun _ => []

theorem initTable_listed : Listed initTable.views noData := by
  refine ⟨fun s => nodup_nil, fun s id => ⟨fun hin => absurd hin not_mem_nil, ?_⟩,
    fun s => Pairwise.nil⟩
  rintro ⟨w, ⟨l, hl, -⟩, -⟩
  exact absurd hl not_mem_nil

def Table.dataUnder (parent : LockId) (series : Nat) (t : Table) : List Int :=
  (t.locks.filter fun l => l.series = series ∧ l.parent = some parent ∧ l.data ≠ 0).map Lbl.data

def Aggregate.of (ds : List Int) : Aggregate → Int
  | min => ds.min?.getD 0
  | max => ds.max?.getD 0
  | cnt => ds.length
  | sum => ds.sum.bmod (2 ^ 32)
  | avg => if ds = [] then 0 else (ds.sum.bmod (2 ^ 32)).tdiv ds.length
  | any => if ds = [] then 0 else 1

def met (t : Table) (parent : LockId) (ids : List LockId) : List Int :=
  ids.filterMap fun id =>
    (t.getLock id).bind fun l => if l.parent = some parent then some l.data else none

theorem queryLoop_eq (t : Table) (parent : LockId) (ids : List LockId) (data : Int) (count : Nat) :
    let ds := met t parent ids
    queryLoop t parent .min ids data count = (ds.head?.getD data, count) ∧
      queryLoop t parent .any ids data count = (data, count + if ds = [] then 0 else 1) ∧
      queryLoop t parent .cnt ids data count = (data, count + ds.length) ∧
      queryLoop t parent .sum ids data count = (ds.foldl addLong data, count) ∧
      queryLoop t parent .avg ids data count = (ds.foldl addLong data, count + ds.length) := by
  induction ids generalizing data count with
  | nil => simp [queryLoop, met]
  | cons id ids ih =>
    unfold queryLoop
    cases hlock : t.getLock id with
    | none =>
      have hmet : met t parent (id :: ids) = met t parent ids := by
        rw [met, filterMap_cons_none (by rw [hlock]; rfl)]
        rfl
      rw [hmet]
      exact ih data count
    | some lock =>
      by_cases hparent : lock.parent = some parent
      · have hmet : met t parent (id :: ids) = lock.data :: met t parent ids := by
          rw [met, filterMap_cons_some (b := lock.data) (by
            rw [hlock, Option.bind_some, if_pos hparent])]
          rfl
        simp only [hmet, hparent]
        obtain ⟨-, -, hcnt, -, -⟩ := ih data (count + 1)
        obtain ⟨-, -, -, hsum, -⟩ := ih (addLong data lock.data) count
        obtain ⟨-, -, -, -, havg⟩ := ih (addLong data lock.data) (count + 1)
        rw [hcnt, hsum, havg]
        simp [← Nat.add_assoc, Nat.add_right_comm]
      · have hmet : met t parent (id :: ids) = met t parent ids := by
          rw [met, filterMap_cons_none (by
            rw [hlock, Option.bind_some, if_neg hparent])]
          rfl
        simp only [hmet, hparent, ne_eq]
        exact ih data count

theorem queryBackLoop_eq (t : Table) (parent : LockId) (ids : List LockId) :
    queryBackLoop t parent ids = (met t parent ids).head?.getD 0 := by
  induction ids with
  | nil => rfl
  | cons id ids ih =>
    unfold queryBackLoop met
    cases hlock : t.getLock id with
    | none =>
      rw [filterMap_cons_none (by rw [hlock]; rfl)]
      exact ih
    | some lock =>
      by_cases hparent : lock.parent = some parent
      · rw [filterMap_cons_some (b := lock.data) (by
          rw [hlock, Option.bind_some, if_pos hparent])]
        simp [hparent]
      · rw [filterMap_cons_none (by rw [hlock, Option.bind_some, if_neg hparent])]
        simp only [hparent, ne_eq]
        exact ih

theorem foldl_addLong (ds : List Int) (data : Int) (h : data = data.bmod (2 ^ 32)) :
    ds.foldl addLong data = (data + ds.sum).bmod (2 ^ 32) := by
  induction ds generalizing data with
  | nil => simpa using h
  | cons d ds ih =>
    rw [foldl_cons, ih _ (by rw [addLong, Int.bmod_bmod]), addLong, Int.bmod_add_bmod,
      sum_cons, add_assoc]

theorem getLock_of_mem (hids : Apart t.views) (hl : l ∈ t.locks) :
    ∃ l' ∈ t.getLock l.id, l'.view = l.view :=
  getLock_view hids (w := l.view) ⟨l, hl, rfl⟩

theorem met_perm (hids : (t.locks.map Lbl.id).Nodup) (hap : Apart t.views) (h : Listed t.views q)
    (parent : LockId)
    {series : Nat} (hseries : series < lckMaxSeries) :
    (met t parent (q series)).Perm (t.dataUnder parent series) := by
  set on : Lbl → Bool := fun l => l.series = series ∧ l.parent ≠ none ∧ l.data ≠ 0 with hon
  have hq : (q series).Perm ((t.locks.filter on).map Lbl.id) := by
    refine (perm_ext_iff_of_nodup (h.once series) ?_).mpr fun id => ?_
    · exact hids.sublist (Sublist.map _ filter_sublist)
    · rw [h.listed]
      simp only [mem_map, mem_filter, hon, decide_eq_true_eq]
      constructor
      · rintro ⟨w, ⟨l, hl, rfl⟩, rfl, hw, -, hw'⟩
        exact ⟨l, ⟨hl, hw, hw'⟩, rfl⟩
      · rintro ⟨l, ⟨hl, hw, hw'⟩, rfl⟩
        exact ⟨l.view, ⟨l, hl, rfl⟩, rfl, hw, hseries, hw'⟩
  refine (hq.filterMap _).trans (.of_eq ?_)
  rw [filterMap_map]
  have hlook : ∀ l ∈ t.locks.filter on, ((t.getLock l.id).bind fun l =>
      if l.parent = some parent then some l.data else none) =
        if l.parent = some parent then some l.data else none := by
    intro l hl
    obtain ⟨l', hl', hview⟩ := getLock_of_mem hap (mem_filter.mp hl).1
    obtain ⟨-, hp, -, hd⟩ := View.mk.inj hview
    rw [Option.mem_def.mp hl', Option.bind_some, hp, hd]
  refine (filterMap_congr hlook).trans ?_
  rw [Table.dataUnder]
  generalize t.locks = ls
  induction ls with
  | nil => rfl
  | cons l ls ih =>
    simp only [filter_cons]
    split_ifs <;> simp_all

theorem met_sorted (h : Listed t.views q) (parent : LockId) (series : Nat) :
    (met t parent (q series)).Pairwise (· ≤ ·) := by
  refine (h.sorted series).filterMap _ fun id id' hrel d hd d' hd' => ?_
  have hfound : ∀ {id : LockId} {d : Int}, ((t.getLock id).bind fun l =>
      if l.parent = some parent then some l.data else none) = some d →
        ∃ l ∈ t.locks, l.id = id ∧ l.parent = some parent ∧ l.data = d := by
    intro id d hd
    obtain ⟨l, hl, hdata⟩ := Option.bind_eq_some_iff.mp hd
    split_ifs at hdata with hp
    exact ⟨l, mem_of_find?_eq_some hl, by simpa using find?_some hl, hp, Option.some.inj hdata⟩
  obtain ⟨l, hl, rfl, hp, rfl⟩ := hfound hd
  obtain ⟨l', hl', rfl, hp', rfl⟩ := hfound hd'
  exact hrel l.view ⟨l, hl, rfl⟩ l'.view ⟨l', hl', rfl⟩ rfl rfl (hp.trans hp'.symm)

theorem head?_eq_min? {ds ds' : List Int} (h : ds.Pairwise (· ≤ ·)) (hperm : ds.Perm ds') :
    ds.head? = ds'.min? := by
  cases ds with
  | nil =>
    rw [← hperm.nil_eq]
    rfl
  | cons d ds =>
    refine (min?_eq_some_iff.mpr ⟨hperm.mem_iff.mp (by simp), fun d' hd' => ?_⟩).symm
    rcases mem_cons.mp (hperm.mem_iff.mpr hd') with rfl | hd'
    · exact le_rfl
    · exact (pairwise_cons.mp h).1 d' hd'

theorem head?_reverse_eq_max? {ds ds' : List Int} (h : ds.Pairwise (· ≤ ·))
    (hperm : ds.Perm ds') : ds.reverse.head? = ds'.max? := by
  have hrev : ds.reverse.Pairwise (· ≥ ·) := pairwise_reverse.mpr h
  have hperm' := (reverse_perm ds).trans hperm
  cases hd : ds.reverse with
  | nil =>
    rw [hd] at hperm'
    rw [← hperm'.nil_eq]
    rfl
  | cons d ds =>
    rw [hd] at hrev hperm'
    refine (max?_eq_some_iff.mpr ⟨hperm'.mem_iff.mp (by simp), fun d' hd' => ?_⟩).symm
    rcases mem_cons.mp (hperm'.mem_iff.mpr hd') with rfl | hd'
    · exact le_rfl
    · exact (pairwise_cons.mp hrev).1 d' hd'

theorem lockQueryData_eq (ht : t.Tidy) (h : Listed t.views q) {parentRequest : RequestId}
    (hget : t.getRequest parentRequest = some (l, r)) {series : Nat}
    (hseries : series < lckMaxSeries) (aggregate : Aggregate) :
    lockQueryData parentRequest series aggregate t q =
      .ok (aggregate.of (t.dataUnder l.id series)) := by
  have hap := apart_views ht
  have hperm := met_perm ht.locks hap h l.id hseries
  have hsorted := met_sorted h l.id series
  obtain ⟨hmin, hany, hcnt, hsum, havg⟩ := queryLoop_eq t l.id (q series) 0 0
  have hnil : met t l.id (q series) = [] ↔ t.dataUnder l.id series = [] :=
    ⟨fun e => (e ▸ hperm).nil_eq.symm, fun e => (e ▸ hperm).eq_nil⟩
  have hfold := foldl_addLong (met t l.id (q series)) 0 (by decide)
  rw [zero_add, hperm.sum_eq] at hfold
  unfold lockQueryData
  rw [if_pos hseries, hget]
  cases aggregate with
  | min => simp only [hmin, Aggregate.of, head?_eq_min? hsorted hperm]
  | max =>
    have hrev : met t l.id (q series).reverse = (met t l.id (q series)).reverse :=
      filterMap_reverse
    simp [queryBackLoop_eq, Aggregate.of, hrev, head?_reverse_eq_max? hsorted hperm]
  | cnt => simp only [hcnt, Aggregate.of, hperm.length_eq, zero_add]
  | sum => simp only [hsum, Aggregate.of, hfold]
  | avg =>
    simp only [havg, Aggregate.of, hfold, hperm.length_eq, zero_add]
    split_ifs with h₁ h₂ h₂
    · simp [h₂] at h₁
    · rfl
    · rfl
    · exact absurd (length_eq_zero_iff.mp (not_not.mp h₁)) h₂
  | any =>
    simp only [hany, Aggregate.of, hnil]
    split_ifs <;> rfl

/-- In every table that can be reached, each lock with data and a parent is once on the queue of its
series, the locks of a parent are there in the order of their data, and queries find the aggregates
of the data that locks have now. -/
theorem lockQueryData_right {ordering : Bool} {ss : List Step}
    (hlegal : LegalSteps ordering ss initTable) :
    Listed (runSteps ordering ss initTable).views (runData ordering ss initTable noData) ∧
      ∀ parentRequest l r, (runSteps ordering ss initTable).getRequest parentRequest = some (l, r) →
        ∀ series < lckMaxSeries, ∀ aggregate : Aggregate,
          lockQueryData parentRequest series aggregate (runSteps ordering ss initTable)
              (runData ordering ss initTable noData) =
            .ok (aggregate.of ((runSteps ordering ss initTable).dataUnder l.id series)) := by
  have ht := runSteps_tidy initTable_tidy hlegal
  have hlisted := runData_listed initTable_tidy hlegal initTable_listed
  exact ⟨hlisted, fun _ l _ hget _ hseries aggregate =>
    lockQueryData_eq ht hlisted hget hseries aggregate⟩

/-- A call of `LOCK_enq` for a lock with data under a parent. -/
def dataEnq (request : RequestId) (lock : LockId) (value : UInt8) (data : Int) : Step :=
  .act (.enq
    { priorRequest := none, parentRequest := some 10, series := 4, value := [value], type := .sr,
      ast := none, data := data, lckWait := 0, owner := 1, request := some request,
      lock := some lock })

def dataRun : List Step :=
  [.act (.createOwner 1), .act (simpleEnq 1 10 (some 100) .sr 0), dataEnq 11 101 1 7,
    dataEnq 12 102 2 3, dataEnq 13 103 3 5, .writeData 12 9]

theorem lockQueryData_right_min :
    lockQueryData 10 4 .min (runSteps true dataRun initTable)
        (runData true dataRun initTable noData) =
      .ok (Aggregate.min.of ((runSteps true dataRun initTable).dataUnder 100 4)) := by
  obtain ⟨l, r, hget, hl⟩ : ∃ l r, (runSteps true dataRun initTable).getRequest 10 = some (l, r) ∧
      l.id = 100 := ⟨_, _, rfl, rfl⟩
  rw [← hl]
  exact (lockQueryData_right (by decide)).2 10 l r hget 4 (by decide) .min

end Firebird.Lock
