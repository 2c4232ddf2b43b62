import Mathlib.Algebra.BigOperators.Group.Multiset.Basic
import Firebird.Lock.Order

/-!
# The blocks of the table

Which requests are on which lock and on the queue of which owner. This stays in order in every run,
with any number of requests and with or without lock ordering.
-/
namespace Firebird.Lock

open List

def Lbl.holds (l : Lbl) : LockId × Multiset (RequestId × OwnerId) :=
  (l.id, (l.requests.map Lrq.pair : List (RequestId × OwnerId)))

def Table.holdings (t : Table) : List (LockId × Multiset (RequestId × OwnerId)) :=
  t.locks.map Lbl.holds

def members (ls : List (LockId × Multiset (RequestId × OwnerId))) :
    Multiset (RequestId × OwnerId) :=
  (ls.map Prod.snd).sum

structure Whole (ls : List (LockId × Multiset (RequestId × OwnerId)))
    (qs : List (OwnerId × List RequestId)) : Prop where
  locks : (ls.map Prod.fst).Nodup
  ids : ((members ls).map Prod.fst).Nodup
  owners : (qs.map Prod.fst).Nodup
  queues : ∀ o q, (o, q) ∈ qs → q.Nodup ∧ ∀ id, id ∈ q ↔ (id, o) ∈ members ls
  owned : ∀ p ∈ members ls, ∃ q, (p.2, q) ∈ qs

namespace Whole

variable {ls ls' : List (LockId × Multiset (RequestId × OwnerId))}
variable {qs : List (OwnerId × List RequestId)} {id : RequestId} {o : OwnerId}

theorem owner_eq (h : Whole ls qs) {o o' : OwnerId} (ho : (id, o) ∈ members ls)
    (ho' : (id, o') ∈ members ls) : o = o' :=
  congrArg Prod.snd (Multiset.inj_on_of_nodup_map h.ids _ ho _ ho' rfl)

theorem release (h : Whole ls qs) (hlocks : (ls'.map Prod.fst).Nodup)
    (hmem : members ls = (id, o) ::ₘ members ls') :
    Whole ls' (qs.map fun p => if p.1 = o then (p.1, p.2.filter (· ≠ id)) else p) := by
  have hids := h.ids
  rw [hmem, Multiset.map_cons, Multiset.nodup_cons] at hids
  have hgone : ∀ o', (id, o') ∉ members ls' := fun o' ho' =>
    hids.1 (Multiset.mem_map.mpr ⟨_, ho', rfl⟩)
  refine ⟨hlocks, hids.2, ?_, ?_, ?_⟩
  · rw [map_map, map_congr_left (g := Prod.fst)]
    · exact h.owners
    · intro p _
      dsimp only [Function.comp]
      split <;> rfl
  · intro o' q' hq'
    obtain ⟨⟨o₁, q⟩, hq, heq⟩ := mem_map.mp hq'
    obtain ⟨hnodup, hiff⟩ := h.queues o₁ q hq
    split at heq
    · next ho₁ =>
      cases heq
      refine ⟨hnodup.filter _, fun i => ?_⟩
      rw [mem_filter, hiff, hmem, Multiset.mem_cons]
      simp only [decide_not, Bool.not_eq_true', decide_eq_false_iff_not, Prod.mk.injEq]
      constructor
      · rintro ⟨hi | hi, hne⟩
        · exact absurd hi.1 hne
        · exact hi
      · intro hi
        exact ⟨.inr hi, fun e => hgone _ (e ▸ hi)⟩
    · next ho₁ =>
      cases heq
      refine ⟨hnodup, fun i => ?_⟩
      rw [hiff, hmem, Multiset.mem_cons]
      refine ⟨fun hi => hi.resolve_left fun e => ho₁ (Prod.mk.inj e).2, .inr⟩
  · intro p hp
    obtain ⟨q, hq⟩ := h.owned p (hmem ▸ Multiset.mem_cons_of_mem hp)
    exact ⟨_, mem_map.mpr ⟨_, hq, Prod.ext (by dsimp only; split <;> rfl) rfl⟩⟩

theorem add (h : Whole ls qs) (hlocks : (ls'.map Prod.fst).Nodup)
    (hmem : members ls' = (id, o) ::ₘ members ls) (hfresh : ∀ p ∈ members ls, p.1 ≠ id)
    (howner : o ∈ qs.map Prod.fst) :
    Whole ls' (qs.map fun p => if p.1 = o then (p.1, p.2 ++ [id]) else p) := by
  refine ⟨hlocks, ?_, ?_, ?_, ?_⟩
  · rw [hmem, Multiset.map_cons, Multiset.nodup_cons]
    refine ⟨fun hin => ?_, h.ids⟩
    obtain ⟨p, hp, e⟩ := Multiset.mem_map.mp hin
    exact hfresh p hp e
  · rw [map_map, map_congr_left (g := Prod.fst)]
    · exact h.owners
    · intro p _
      dsimp only [Function.comp]
      split <;> rfl
  · intro o' q' hq'
    obtain ⟨⟨o₁, q⟩, hq, heq⟩ := mem_map.mp hq'
    obtain ⟨hnodup, hiff⟩ := h.queues o₁ q hq
    split at heq
    · next ho₁ =>
      cases heq
      have hnot : id ∉ q := fun hin => hfresh _ ((hiff id).mp hin) rfl
      refine ⟨Nodup.append hnodup (nodup_singleton _) (by simpa using hnot), fun i => ?_⟩
      rw [mem_append, hiff, hmem, Multiset.mem_cons, mem_singleton, or_comm,
        Prod.mk.injEq, and_iff_left ho₁]
    · next ho₁ =>
      cases heq
      refine ⟨hnodup, fun i => ?_⟩
      rw [hiff, hmem, Multiset.mem_cons]
      exact ⟨.inr, fun hi => hi.resolve_left fun e => ho₁ (Prod.mk.inj e).2⟩
  · intro p hp
    rw [hmem, Multiset.mem_cons] at hp
    have hq : ∃ q, (p.2, q) ∈ qs := by
      rcases hp with rfl | hp
      · obtain ⟨⟨o', q⟩, hq, rfl⟩ := mem_map.mp howner
        exact ⟨q, hq⟩
      · exact h.owned p hp
    obtain ⟨q, hq⟩ := hq
    exact ⟨_, mem_map.mpr ⟨_, hq, Prod.ext (by dsimp only; split <;> rfl) rfl⟩⟩

theorem newOwner (h : Whole ls qs) (hne : o ∉ qs.map Prod.fst) : Whole ls (qs ++ [(o, [])]) := by
  refine ⟨h.locks, h.ids, ?_, ?_, fun p hp => ?_⟩
  · rw [map_append]
    exact Nodup.append h.owners (nodup_singleton _) (by simpa using hne)
  · intro o' q hq
    rcases mem_append.mp hq with hq | hq
    · exact h.queues o' q hq
    · obtain ⟨rfl, rfl⟩ := Prod.mk.inj (mem_singleton.mp hq)
      refine ⟨nodup_nil, fun id => ⟨fun hin => absurd hin not_mem_nil, fun hin => ?_⟩⟩
      obtain ⟨q, hq⟩ := h.owned _ hin
      exact absurd (mem_map_of_mem hq) hne
  · obtain ⟨q, hq⟩ := h.owned p hp
    exact ⟨q, mem_append_left _ hq⟩

theorem dropOwner (h : Whole ls qs) (hnone : ∀ p ∈ members ls, p.2 ≠ o) :
    Whole ls (qs.filter fun p => p.1 ≠ o) := by
  refine ⟨h.locks, h.ids, h.owners.sublist (Sublist.map _ filter_sublist),
    fun o' q hq => h.queues o' q (mem_filter.mp hq).1, fun p hp => ?_⟩
  obtain ⟨q, hq⟩ := h.owned p hp
  exact ⟨q, mem_filter.mpr ⟨hq, by simpa using hnone p hp⟩⟩

end Whole

/-! ## Locks in the table -/

section Holdings

variable {ls : List (LockId × Multiset (RequestId × OwnerId))} {x : LockId}
    {p : RequestId × OwnerId}
variable {m : Multiset (RequestId × OwnerId)}

theorem split_holdings (h : (ls.map Prod.fst).Nodup) (hx : (x, m) ∈ ls) :
    ∃ pre post, ls = pre ++ (x, m) :: post ∧ (∀ y ∈ pre, y.1 ≠ x) ∧ ∀ y ∈ post, y.1 ≠ x := by
  obtain ⟨pre, post, rfl⟩ := append_of_mem hx
  rw [map_append, map_cons, nodup_append, nodup_cons] at h
  obtain ⟨-, ⟨hpost, -⟩, hpre⟩ := h
  exact ⟨pre, post, rfl, fun y hy => hpre y.1 (mem_map_of_mem hy) x (by simp),
    fun y hy e => hpost (mem_map.mpr ⟨y, hy, e⟩)⟩

theorem members_split (pre post : List (LockId × Multiset (RequestId × OwnerId)))
    (y : LockId × Multiset (RequestId × OwnerId)) :
    members (pre ++ y :: post) = y.2 + members (pre ++ post) := by
  simp only [members, map_append, map_cons, sum_append, sum_cons]
  rw [add_left_comm]

theorem map_replace {pre post : List (LockId × Multiset (RequestId × OwnerId))}
    (hpre : ∀ y ∈ pre, y.1 ≠ x) (hpost : ∀ y ∈ post, y.1 ≠ x)
    (m m' : Multiset (RequestId × OwnerId)) :
    (pre ++ (x, m) :: post).map (fun y => if y.1 = x then (x, m') else y) =
      pre ++ (x, m') :: post := by
  rw [map_append, map_cons, if_pos rfl, map_congr_left fun y hy => if_neg
    (hpre y hy),
    map_congr_left (l := post) fun y hy => if_neg (hpost y hy), map_id', map_id']

end Holdings

variable {t t' : Table} {l l' : Lbl} {r r' : Lrq}

theorem members_holdings (t : Table) :
    members t.holdings = (t.requests.map Lrq.pair : List (RequestId × OwnerId)) := by
  unfold Table.holdings Table.requests
  induction t.locks with
  | nil => rfl
  | cons l ls ih =>
    rw [map_cons, ← nil_append (l.holds :: _), members_split, nil_append, ih,
      flatMap_cons, map_append, ← Multiset.coe_add]
    rfl

theorem mem_members {p : RequestId × OwnerId} :
    p ∈ members t.holdings ↔ ∃ r ∈ t.requests, r.pair = p := by
  rw [members_holdings, Multiset.mem_coe, mem_map]

theorem holdings_setLock (t : Table) (l' : Lbl) : (t.setLock l').holdings =
    t.holdings.map fun y => if y.1 = l'.id then (l'.id, l'.holds.2) else y := by
  simp only [Table.holdings, Table.setLock, map_map]
  refine map_congr_left fun l _ => ?_
  by_cases e : l.id = l'.id <;> simp [Lbl.holds, e]

theorem holdings_removeLock (t : Table) (id : LockId) :
    (t.removeLock id).holdings = t.holdings.filter fun y => y.1 ≠ id := by
  rw [Table.holdings, Table.holdings, Table.removeLock, filter_map]
  rfl

/-- The locks, the requests and the queues of the owners agree. -/
def Table.Tidy (t : Table) : Prop := Whole t.holdings t.queues

namespace Table.Tidy

theorem locks (h : t.Tidy) : (t.locks.map Lbl.id).Nodup := by
  have := Whole.locks h
  rwa [holdings, map_map] at this

theorem eq_of_id (h : t.Tidy) (hl : l ∈ t.locks) (hl' : l' ∈ t.locks) (hid : l.id = l'.id) :
    l = l' :=
  inj_on_of_nodup_map h.locks hl hl' hid

theorem requests (h : t.Tidy) : (t.requests.map Lrq.id).Nodup := by
  have := Whole.ids h
  rwa [members_holdings, Multiset.map_coe, Multiset.coe_nodup, map_map] at this

theorem ids (h : t.Tidy) (hl : l ∈ t.locks) : (l.requests.map Lrq.id).Nodup := by
  refine h.requests.sublist (Sublist.map _ ?_)
  rw [Table.requests, List.flatMap]
  exact sublist_flatten_of_mem (mem_map_of_mem hl)

theorem eq_of_request (h : t.Tidy) (hr : r ∈ t.requests) (hr' : r' ∈ t.requests)
    (hid : r.id = r'.id) : r = r' :=
  inj_on_of_nodup_map h.requests hr hr' hid

theorem holdings_set (h : t.Tidy) (ht : t'.holdings = t.holdings) (hl : l ∈ t.locks)
    (hsame : l'.holds = l.holds) : (t'.setLock l').holdings = t.holdings := by
  have hid : l'.id = l.id := congrArg Prod.fst hsame
  obtain ⟨pre, post, hsplit, hpre, hpost⟩ :=
    split_holdings (Whole.locks h) (mem_map_of_mem hl : l.holds ∈ t.holdings)
  rw [holdings_setLock, ht, hid, hsame, hsplit, map_replace hpre hpost]
  rfl

end Table.Tidy

theorem holds_eq (hid : l'.id = l.id)
    (hpairs : l'.requests.map Lrq.pair = l.requests.map Lrq.pair) : l'.holds = l.holds := by
  rw [Lbl.holds, Lbl.holds, hid, hpairs]

variable {id : RequestId}

theorem holds_modifyRequest {f : Lrq → Lrq}
    (hf : ∀ r ∈ l.requests, r.id = id → (f r).pair = r.pair) :
    (l.modifyRequest id f).holds = l.holds := by
  refine holds_eq rfl ?_
  dsimp only [Lbl.modifyRequest]
  rw [map_map]
  refine map_congr_left fun r hr => ?_
  dsimp only [Function.comp]
  split
  · next e => exact hf r hr e
  · rfl

theorem holds_overwrite (hids : (l.requests.map Lrq.id).Nodup) (hr : r ∈ l.requests)
    (hpair : r'.pair = r.pair) : (l.modifyRequest r.id fun _ => r').holds = l.holds := by
  refine holds_modifyRequest fun x hx e => ?_
  obtain rfl := inj_on_of_nodup_map hids hx hr e
  exact hpair

theorem holds_grant (r : Lrq) (l : Lbl) : (grant r l).2.holds = l.holds :=
  holds_eq (grant_sameLock r l).1 (by rw [grant_requests])

theorem holds_dropLevel (s : Level) (l : Lbl) : (dropLevel s l).holds = l.holds :=
  holds_eq (dropLevel_sameLock s l).1 (by rw [dropLevel_requests])

theorem holds_postPending (ordering : Bool) (l : Lbl) :
    (postPending ordering l).1.holds = l.holds := by
  obtain ⟨hposts, hsame⟩ := postPending_posts ordering l
  refine holds_eq hsame.1 (Eq.symm ?_)
  rw [← forall₂_eq_eq_eq, forall₂_map_left_iff, forall₂_map_right_iff]
  exact hposts.imp fun r r' hp => Prod.ext hp.id_eq.symm hp.owner_eq.symm

theorem holds_removeRequest (hids : (l.requests.map Lrq.id).Nodup) (hr : r ∈ l.requests) :
    l.holds.2 = r.pair ::ₘ (l.removeRequest r.id).holds.2 := by
  have hperm := (perm_cons_filter hids hr).map Lrq.pair
  exact Quot.sound hperm

theorem holds_queueRequest (ordering : Bool) (hids : (l.requests.map Lrq.id).Nodup)
    (hr : r ∈ l.requests) : (queueRequest ordering r l).holds = l.holds := by
  unfold queueRequest
  have hmod : (l.modifyRequest r.id fun _ => r.waiting).holds = l.holds :=
    holds_overwrite hids hr rfl
  split
  · refine Prod.ext rfl ?_
    have hrem := holds_removeRequest hids hr
    change ((((l.modifyRequest r.id fun _ => r.waiting).removeRequest r.id).requests ++
      [r.waiting]).map Lrq.pair : Multiset _) = l.holds.2
    rw [removeRequest_modifyRequest l r.id (fun _ => r.waiting) fun _ _ _ => rfl, map_append, ←
      Multiset.coe_add,
      hrem, add_comm]
    rfl
  · exact hmod

/-- The locks hold the same requests, and the queues of the owners are the same. -/
structure Same (t t' : Table) : Prop where
  holdings : t'.holdings = t.holdings
  queues : t'.queues = t.queues

namespace Same

variable {t'' : Table}

theorem refl (t : Table) : Same t t := ⟨rfl, rfl⟩

theorem trans (h : Same t t') (h' : Same t' t'') : Same t t'' :=
  ⟨h'.holdings.trans h.holdings, h'.queues.trans h.queues⟩

theorem tidy (h : Same t t') (ht : t.Tidy) : t'.Tidy := by
  rw [Table.Tidy, h.holdings, h.queues]
  exact ht

theorem of_locks (hlocks : t'.locks = t.locks) (hqueues : t'.queues = t.queues) : Same t t' :=
  ⟨by rw [Table.holdings, hlocks]; rfl, hqueues⟩

theorem setLock (h : Same t t') (ht : t.Tidy) (hl : l ∈ t.locks) (hl' : l'.holds = l.holds) :
    Same t (t'.setLock l') :=
  ⟨ht.holdings_set h.holdings hl hl', h.queues⟩

theorem modifyOwner (h : Same t t') (id : OwnerId) (f : Own → Own) (hf : ∀ o, (f o).id = o.id)
    (hr : ∀ o, (f o).requests = o.requests) : Same t (t'.modifyOwner id f) :=
  h.trans (of_locks rfl (modifyOwner_queues_eq id f hf hr))

theorem postWakeup (h : Same t t') (woken : List OwnerId) : Same t (t'.postWakeup woken) :=
  h.trans (of_locks rfl (postWakeup_queues woken))

end Same

theorem postBlockage_same (id : RequestId) (ht : t.Tidy) : Same t (postBlockage id t) := by
  unfold postBlockage
  split
  · exact .refl t
  · next l r hget =>
    obtain ⟨hl, -, -⟩ := getRequest_mem hget
    have hhold : ({ l with requests := (postBlockageLoop r l.requests).requests } : Lbl).holds =
        l.holds := holds_eq rfl (postBlockageLoop_map r Lrq.pair (fun _ _ _ _ => rfl) l.requests)
    refine ((Same.refl t).setLock ht hl hhold).trans (.of_locks rfl ?_)
    simp [Table.queues]

theorem blockingAction2_same (id : OwnerId) (ht : t.Tidy) : Same t (blockingAction2 id t) := by
  unfold blockingAction2
  split
  · exact .refl t
  · split
    · exact (Same.refl t).modifyOwner _ _ (fun _ => rfl) fun _ => rfl
    · next b bs _ =>
      have hown : Same t (t.modifyOwner id fun o => { o with blocks := bs }) :=
        (Same.refl t).modifyOwner _ _ (fun _ => rfl) fun _ => rfl
      dsimp only
      split
      · exact hown
      · next l r hget =>
        obtain ⟨hl, -, -⟩ := getRequest_mem hget
        split
        · exact hown.setLock ht hl (holds_modifyRequest fun _ _ _ => rfl)
        · exact hown

theorem rejectRequest_same (id : RequestId) (ht : t.Tidy) : Same t (rejectRequest id t) := by
  unfold rejectRequest
  split
  · exact .refl t
  · next l r hget =>
    obtain ⟨hl, -, -⟩ := getRequest_mem hget
    have hhold : (l.modifyRequest id fun r => { r with rejected := true, pending := false }).holds =
        l.holds := holds_modifyRequest fun _ _ _ => rfl
    exact (Same.refl t).setLock ht hl hhold

theorem Marked.same (h : Marked t t') : Same t t' := .of_locks h.locks h.queues

theorem wakeUp_same (ordering timedOut woken : Bool) (w : Wait) (ht : t.Tidy)
    (hp : t.Pending w.request) : Same t (wakeUp ordering timedOut woken w t) := by
  obtain ⟨t₁, t₂, h₁, h₂, hacts⟩ := wakeUp_cases ordering timedOut woken w hp
  have ht₁ := h₁.same.tidy ht
  refine (h₁.same.trans ?_).trans h₂.same
  rcases hacts with rfl | rfl | ⟨victim, -, rfl⟩
  · exact .refl _
  · exact postBlockage_same w.request ht₁
  · exact rejectRequest_same victim ht₁

theorem waitForRequest_same (ordering : Bool) (caller : Caller) (lckWait : Int) {l₀ : Lbl}
    (h : Same t t') (ht : t.Tidy) (hl : l₀ ∈ t.locks) (hhold : l.holds = l₀.holds)
    (hr : r ∈ l.requests) : Same t (waitForRequest ordering r l caller lckWait t') := by
  have hids : (l.requests.map Lrq.id).Nodup := by
    have hfst : (l.holds.2.map Prod.fst).Nodup := by
      rw [hhold]
      have := ht.ids hl
      rwa [Lbl.holds, Multiset.map_coe, Multiset.coe_nodup, map_map]
    rwa [Lbl.holds, Multiset.map_coe, Multiset.coe_nodup, map_map] at hfst
  have hset := h.setLock ht hl ((holds_queueRequest ordering hids hr).trans hhold)
  refine Same.trans ?_ (postBlockage_same r.id (Same.tidy ?_ ht))
  all_goals
    refine (hset.modifyOwner r.owner (fun o => { o with
      pendingRequest := some r.id
      scanned := false
      wakeup := false
      timeout := decide (lckWait < 0)
      semaphore := true }) (fun _ => rfl) fun _ => rfl).trans (.of_locks rfl rfl)

theorem convert_same (ordering : Bool) (id : RequestId) (type : Level) (lckWait : Int)
    (ast : Option Ast) (ht : t.Tidy) : Same t (convert ordering id type lckWait ast t) := by
  unfold convert
  split
  · exact .refl t
  · next l r hget =>
    obtain ⟨hl, hr, rfl⟩ := getRequest_mem hget
    have hids := ht.ids hl
    dsimp only
    set r₁ : Lrq := { r with requested := type, blockingSeen := false } with hr₁
    set l₁ := l.modifyRequest r.id fun _ => r₁ with hl₁
    have hsame₁ : l₁.holds = l.holds := holds_overwrite hids hr rfl
    have hmem₁ : r₁ ∈ l₁.requests := by
      rw [hl₁, Lbl.modifyRequest, mem_map]
      exact ⟨r, hr, if_pos rfl⟩
    have hids₁ : (l₁.requests.map Lrq.id).Nodup := by
      rw [hl₁, Lbl.modifyRequest, map_map]
      refine (map_congr_left fun x _ => ?_ : _ = l.requests.map Lrq.id) ▸ hids
      dsimp only [Function.comp]
      split
      · next e => exact e.symm
      · rfl
    split_ifs
    · refine ((Same.refl t).setLock ht hl ?_).postWakeup _
      rw [holds_postPending, holds_overwrite (r := r₁)]
      · rw [holds_grant]
        exact hsame₁
      · rw [grant_requests]
        exact hids₁
      · rw [grant_requests]
        exact hmem₁
      · rfl
    · exact waitForRequest_same ordering _ lckWait ((Same.refl t).setLock ht hl hsame₁) ht hl hsame₁
        hmem₁
    · have hback : (l₁.modifyRequest r.id fun r => { r with requested := r.state }).holds =
          l₁.holds := holds_modifyRequest fun _ _ _ => rfl
      exact (Same.refl t).setLock ht hl (hback.trans hsame₁)

theorem holds_unlinkRequest (hids : (l.requests.map Lrq.id).Nodup) (hr : r ∈ l.requests) :
    l.holds.2 = r.pair ::ₘ (unlinkRequest r l).holds.2 :=
  holds_removeRequest hids hr

theorem mem_of_getRequest_none (h : t.getRequest id = none) :
    ∀ p ∈ members t.holdings, p.1 ≠ id := by
  rintro p hp
  obtain ⟨r, hr, rfl⟩ := mem_members.mp hp
  exact getRequest_none h r hr

theorem releaseRequest_holdings (ordering : Bool) (ht : t.Tidy)
    (hget : t.getRequest id = some (l, r)) :
    ((releaseRequest ordering id t).holdings.map Prod.fst).Nodup ∧
      members t.holdings = (id, r.owner) ::ₘ members (releaseRequest ordering id t).holdings := by
  obtain ⟨hl, hr, rfl⟩ := getRequest_mem hget
  obtain ⟨pre, post, hsplit, hpre, hpost⟩ :=
    split_holdings (Whole.locks ht) (mem_map_of_mem hl : l.holds ∈ t.holdings)
  have hlocks := Whole.locks ht
  have hunlink := holds_unlinkRequest (ht.ids hl) hr
  have hmem : members t.holdings = r.pair ::ₘ
      ((unlinkRequest r l).holds.2 + members (pre ++ post)) := by
    rw [hsplit, members_split, ← Multiset.cons_add, ← hunlink]
    rfl
  unfold releaseRequest
  rw [hget]
  dsimp only
  split
  · next hrel =>
    have hnil : (unlinkRequest r l).requests = [] := by
      unfold releaseFromLock at hrel
      split at hrel
      · assumption
      · cases hrel
    have hrest : (t.removeLock l.id).holdings = pre ++ post := by
      rw [holdings_removeLock, hsplit, filter_append, filter_cons_of_neg (by simp),
        filter_eq_self.mpr fun y hy => by simpa using hpre y hy,
        filter_eq_self.mpr fun y hy => by simpa using hpost y hy]
    have hzero : (unlinkRequest r l).holds.2 = 0 := by rw [Lbl.holds, hnil]; rfl
    rw [hzero, zero_add] at hmem
    change ((t.removeLock l.id).holdings.map Prod.fst).Nodup ∧
      members t.holdings = r.pair ::ₘ members (t.removeLock l.id).holdings
    rw [hrest]
    refine ⟨?_, hmem⟩
    rw [hsplit, map_append, map_cons] at hlocks
    rw [map_append]
    exact hlocks.sublist ((Sublist.refl _).append (sublist_cons_self _ _))
  · next l' woken hrel =>
    obtain rfl := releaseFromLock_some hrel
    set l' := (postPending ordering (dropLevel r.state (unlinkRequest r l))).1 with hl'
    have hhold : l'.holds = (unlinkRequest r l).holds := by
      rw [hl', holds_postPending, holds_dropLevel]
    have hset : (t.setLock l').holdings = pre ++ (l.id, l'.holds.2) :: post := by
      have hid : l'.id = l.id := congrArg Prod.fst hhold
      rw [holdings_setLock, hid, hsplit]
      exact map_replace hpre hpost _ _
    change ((t.setLock l').holdings.map Prod.fst).Nodup ∧
      members t.holdings = r.pair ::ₘ members (t.setLock l').holdings
    rw [hset, members_split, hhold]
    refine ⟨?_, hmem⟩
    rw [hsplit, map_append, map_cons] at hlocks
    rw [map_append, map_cons]
    exact hlocks

theorem releaseRequest_tidy (ordering : Bool) (id : RequestId) (ht : t.Tidy) :
    (releaseRequest ordering id t).Tidy := by
  cases hget : t.getRequest id with
  | none => rwa [releaseRequest_none ordering hget]
  | some p =>
    obtain ⟨hlocks, hmem⟩ := releaseRequest_holdings ordering ht hget
    rw [Table.Tidy, releaseRequest_queues ordering hget]
    exact Whole.release ht hlocks hmem

theorem releaseRequest_members (ordering : Bool) (id : RequestId) (ht : t.Tidy) :
    members (releaseRequest ordering id t).holdings ≤ members t.holdings ∧
      ∀ p ∈ members (releaseRequest ordering id t).holdings, p.1 ≠ id := by
  cases hget : t.getRequest id with
  | none =>
    rw [releaseRequest_none ordering hget]
    exact ⟨le_rfl, mem_of_getRequest_none hget⟩
  | some p =>
    obtain ⟨-, hmem⟩ := releaseRequest_holdings ordering ht hget
    refine ⟨hmem ▸ Multiset.le_cons_self _ _, fun p hp e => ?_⟩
    have hids := Whole.ids ht
    rw [hmem, Multiset.map_cons, Multiset.nodup_cons] at hids
    exact hids.1 (Multiset.mem_map.mpr ⟨p, hp, e⟩)

theorem releaseAll_tidy (ordering : Bool) (ids : List RequestId) (ht : t.Tidy) :
    (ids.foldl (fun t r => releaseRequest ordering r t) t).Tidy ∧
      members (ids.foldl (fun t r => releaseRequest ordering r t) t).holdings ≤
        members t.holdings ∧
      ∀ p ∈ members (ids.foldl (fun t r => releaseRequest ordering r t) t).holdings, p.1 ∉ ids := by
  induction ids generalizing t with
  | nil => exact ⟨ht, le_rfl, fun _ _ => not_mem_nil⟩
  | cons id ids ih =>
    obtain ⟨htidy, hle, hnot⟩ := ih (releaseRequest_tidy ordering id ht)
    obtain ⟨hle', hnot'⟩ := releaseRequest_members ordering id ht
    refine ⟨htidy, hle.trans hle', fun p hp hin => ?_⟩
    rcases mem_cons.mp hin with e | hin
    · exact hnot' p (Multiset.mem_of_le hle hp) e
    · exact hnot p hp hin

theorem purgeOwner_tidy (ordering : Bool) (id : OwnerId) (ht : t.Tidy) :
    (purgeOwner ordering id t).Tidy := by
  unfold purgeOwner
  split
  · exact ht
  · next owner howner =>
    obtain ⟨htidy, hle, hnot⟩ := releaseAll_tidy ordering owner.requests ht
    set t' := owner.requests.foldl (fun t r => releaseRequest ordering r t) t with ht'
    have hid : owner.id = id := by simpa using find?_some howner
    have hq : (id, owner.requests) ∈ t.queues :=
      mem_map.mpr ⟨owner, mem_of_find?_eq_some howner, by rw [hid]⟩
    have hnone : ∀ p ∈ members t'.holdings, p.2 ≠ id := by
      rintro ⟨i, o⟩ hp rfl
      exact hnot _ hp (((Whole.queues ht _ _ hq).2 i).mpr (Multiset.mem_of_le hle hp))
    have hqueues : ({ t' with
        owners := t'.owners.filter fun o => o.id ≠ id
        waits := t'.waits.filter fun w => w.owner ≠ id } : Table).queues =
        t'.queues.filter fun p => p.1 ≠ id := by
      rw [Table.queues, Table.queues, filter_map]
      rfl
    rw [Table.Tidy, hqueues]
    exact Whole.dropOwner htidy hnone

theorem createOwner_tidy {id : OwnerId} (ht : t.Tidy) (hnew : t.getOwner id = none) :
    (createOwner id t).Tidy := by
  have hqueues : (createOwner id t).queues = t.queues ++ [(id, [])] := by
    simp [Table.queues, createOwner]
  rw [Table.Tidy, hqueues]
  refine Whole.newOwner ht fun hin => ?_
  obtain ⟨p, hp, rfl⟩ := mem_map.mp hin
  obtain ⟨o, ho, rfl⟩ := mem_map.mp hp
  exact find?_eq_none.mp hnew o ho (by simp)

theorem finishWait_tidy (ordering : Bool) (w : Wait) (ht : t.Tidy) :
    (finishWait ordering w t).Tidy := by
  unfold finishWait
  split
  · exact ht
  · next l r hget =>
    obtain ⟨hl, -, -⟩ := getRequest_mem hget
    have hwait : Same t (t.removeWait w.request) := .of_locks rfl rfl
    have ht₁ := hwait.tidy ht
    split
    · split
      · exact releaseRequest_tidy ordering r.id ht₁
      · exact ht₁
    · split
      · refine Same.tidy ((hwait.setLock ht hl ?_).postWakeup _) ht
        have hback : ((postPending ordering l).1.modifyRequest r.id fun r =>
            { r with requested := r.state }).holds = (postPending ordering l).1.holds :=
          holds_modifyRequest fun _ _ _ => rfl
        exact hback.trans (holds_postPending ordering l)
      · exact Same.tidy (hwait.setLock ht hl (holds_modifyRequest fun _ _ _ => rfl)) ht

theorem lockDowngrade_tidy (ordering : Bool) (id : RequestId) (ht : t.Tidy) :
    (lockDowngrade ordering id t).Tidy := by
  unfold lockDowngrade
  split
  · exact ht
  · dsimp only
    split
    · exact releaseRequest_tidy ordering id ht
    · exact (convert_same ordering id _ _ _ ht).tidy ht

theorem releaseRequest_owners (ordering : Bool) (id : RequestId) (t : Table) :
    (releaseRequest ordering id t).queues.map Prod.fst = t.queues.map Prod.fst := by
  cases hget : t.getRequest id with
  | none => rw [releaseRequest_none ordering hget]
  | some p =>
    rw [releaseRequest_queues ordering hget, map_map]
    refine map_congr_left fun p _ => ?_
    dsimp only [Function.comp]
    split <;> rfl

variable {a : Enq}

theorem append_tidy (ht : t.Tidy) (hl : l ∈ t.locks)
    (hpair : r.pair = (id, a.owner)) (hfresh : ∀ p ∈ members t.holdings, p.1 ≠ id)
    (howner : a.owner ∈ t.queues.map Prod.fst) :
    ((a.linkRequest id t).setLock { l with requests := l.requests ++ [r] }).Tidy := by
  obtain ⟨pre, post, hsplit, hpre, hpost⟩ :=
    split_holdings (Whole.locks ht) (mem_map_of_mem hl : l.holds ∈ t.holdings)
  have hlocks := Whole.locks ht
  have hhold : ({ l with requests := l.requests ++ [r] } : Lbl).holds.2 = r.pair ::ₘ l.holds.2 := by
    change (↑((l.requests ++ [r]).map Lrq.pair) : Multiset (RequestId × OwnerId)) = _
    rw [map_append, ← Multiset.coe_add, add_comm]
    rfl
  have hset : ((a.linkRequest id t).setLock { l with requests := l.requests ++ [r] }).holdings =
      pre ++ (l.id, r.pair ::ₘ l.holds.2) :: post := by
    rw [holdings_setLock, hhold]
    change t.holdings.map _ = _
    rw [hsplit]
    exact map_replace hpre hpost _ _
  have hqueues : ((a.linkRequest id t).setLock { l with requests := l.requests ++ [r] }).queues =
      t.queues.map fun p => if p.1 = a.owner then (p.1, p.2 ++ [id]) else p :=
    a.linkRequest_queues id t
  rw [Table.Tidy, hqueues]
  refine Whole.add ht ?_ ?_ hfresh howner
  · rw [hset, map_append, map_cons]
    rwa [hsplit, map_append, map_cons] at hlocks
  · rw [hset, hsplit, members_split, members_split, hpair, Multiset.cons_add]
    rfl

variable {ordering : Bool}

theorem grantOrQue_holds {woken : List OwnerId}
    (hids : (l.requests.map Lrq.id).Nodup) (hr : r ∈ l.requests)
    (h : grantOrQue ordering r l = some (l', woken)) : l'.holds = l.holds := by
  unfold grantOrQue at h
  split at h
  · have hl' : l' = (postPending ordering
        ((grant r l).2.modifyRequest r.id fun _ => (grant r l).1)).1 :=
      (congrArg Prod.fst (Option.some.inj h)).symm
    rw [hl', holds_postPending, holds_overwrite]
    · exact holds_grant r l
    · rwa [grant_requests]
    · rwa [grant_requests]
    · rfl
  · cases h

theorem Enq.existing_tidy (ordering : Bool) (ht : t.Tidy)
    (hl : l ∈ t.locks) (hfresh : ∀ p ∈ members t.holdings, p.1 ≠ id)
    (howner : a.owner ∈ t.queues.map Prod.fst) :
    (a.existing ordering id l (a.linkRequest id t)).Tidy := by
  have ht₁ := append_tidy (r := newRequest id a a.data) ht hl rfl hfresh howner
  unfold existing
  dsimp only
  set l₁ : Lbl := { l with requests := l.requests ++ [newRequest id a a.data] } with hl₁
  have hmem : l₁ ∈ ((a.linkRequest id t).setLock l₁).locks :=
    mem_map.mpr ⟨l, hl, if_pos rfl⟩
  have hr : newRequest id a a.data ∈ l₁.requests := by simp [hl₁]
  split
  · next l' woken hg =>
    have hhold := grantOrQue_holds (ht₁.ids hmem) hr hg
    have hid : l'.id = l₁.id := congrArg Prod.fst hhold
    rw [← setLock_setLock _ hid]
    exact (((Same.refl _).setLock ht₁ hmem hhold).postWakeup woken).tidy ht₁
  · split
    · exact (waitForRequest_same ordering _ _ (Same.refl _) ht₁ hmem rfl hr).tidy ht₁
    · exact releaseRequest_tidy ordering id ht₁

theorem Enq.fresh_tidy (parent : Option LockId) (ht : t.Tidy)
    (hfresh : ∀ p ∈ members t.holdings, p.1 ≠ id) (howner : a.owner ∈ t.queues.map Prod.fst)
    (hnew : ∀ i ∈ a.lock, ∀ l ∈ t.locks, l.id ≠ i) :
    (a.fresh id parent (a.linkRequest id t)).Tidy := by
  unfold fresh
  split
  · have hqueues : ((a.linkRequest id t).modifyOwner a.owner fun o =>
        { o with requests := o.requests.filter (· ≠ id) }).queues = t.queues := by
      refine (modifyOwner_queues a.owner (fun o =>
        { o with requests := o.requests.filter (· ≠ id) }) (fun _ => rfl)
        (fun q => q.filter (· ≠ id)) fun _ => rfl).trans ?_
      rw [linkRequest_queues, map_map]
      refine (map_congr_left fun p hp => ?_).trans (map_id _)
      have hnot : ∀ i ∈ p.2, i ≠ id := fun i hi =>
        hfresh (i, p.1) (((Whole.queues ht p.1 p.2 hp).2 i).mp hi)
      by_cases e : p.1 = a.owner
      · simpa [e, Prod.ext_iff] using hnot
      · simp [e]
    rw [Table.Tidy, hqueues]
    exact ht
  · next lockId heq =>
    dsimp only
    set r := newRequest id a 0 with hr
    set l := (grant r (newLock lockId parent a r)).2.modifyRequest id
      fun _ => (grant r (newLock lockId parent a r)).1 with hl
    have hhold : l.holds = (lockId, {(id, a.owner)}) := by
      have hgrant : l.holds = (grant r (newLock lockId parent a r)).2.holds := by
        refine holds_modifyRequest fun x hx _ => ?_
        obtain rfl := mem_singleton.mp hx
        rfl
      rw [hgrant, holds_grant]
      rfl
    have hholdings : t.holdings ++ [(lockId, {(id, a.owner)})] =
        ({ a.linkRequest id t with locks := (a.linkRequest id t).locks ++ [l] } :
          Table).holdings := by
      rw [Table.holdings, Table.holdings, map_append, map_singleton, hhold]
      rfl
    refine Same.tidy ((Same.refl _).postWakeup _) ?_
    rw [Table.Tidy, ← hholdings]
    change Whole _ (a.linkRequest id t).queues
    rw [linkRequest_queues]
    refine Whole.add ht ?_ ?_ hfresh howner
    · rw [map_append]
      refine Nodup.append (Whole.locks ht) (nodup_singleton _) ?_
      simp only [map_cons, map_nil, disjoint_singleton]
      intro hin
      obtain ⟨y, hy, e⟩ := mem_map.mp hin
      obtain ⟨l₀, hl₀, rfl⟩ := mem_map.mp hy
      exact hnew lockId heq l₀ hl₀ e
    · simp [members, add_comm]

theorem lockEnq_tidy (ordering : Bool) (ht : t.Tidy)
    (hlegal : (Action.enq a).Legal ordering t) : (lockEnq ordering a t).Tidy := by
  obtain ⟨-, -, ⟨o, ho, hid⟩, -, -, hfresh, hnew⟩ := hlegal
  have ht₁ : (a.afterPrior ordering t).Tidy ∧
      (a.afterPrior ordering t).queues.map Prod.fst = t.queues.map Prod.fst := by
    unfold Enq.afterPrior
    split
    · exact ⟨releaseRequest_tidy ordering _ ht, releaseRequest_owners ordering _ t⟩
    · exact ⟨ht, rfl⟩
  obtain ⟨ht₁, howners⟩ := ht₁
  have howner : a.owner ∈ (a.afterPrior ordering t).queues.map Prod.fst := by
    rw [howners]
    exact mem_map.mpr ⟨(o.id, o.requests), mem_map_of_mem ho, hid⟩
  unfold lockEnq
  dsimp only
  split
  · exact ht₁
  · next id heq =>
    have hfresh' : ∀ p ∈ members (a.afterPrior ordering t).holdings, p.1 ≠ id := by
      rintro p hp
      obtain ⟨r, hr, rfl⟩ := mem_members.mp hp
      exact (hfresh id heq).1 r hr
    split
    · next l hfind => exact Enq.existing_tidy ordering ht₁ (findLock_mem hfind) hfresh' howner
    · exact Enq.fresh_tidy _ ht₁ hfresh' howner hnew

theorem Action.apply_tidy {a : Action} (ht : t.Tidy)
    (hlegal : a.Legal ordering t) : (a.apply ordering t).Tidy := by
  cases a with
  | createOwner owner => exact createOwner_tidy ht hlegal
  | enq args => exact lockEnq_tidy ordering ht hlegal
  | convert id type lckWait ast => exact (convert_same ordering id type lckWait ast ht).tidy ht
  | downgrade id => exact lockDowngrade_tidy ordering id ht
  | deq id => exact releaseRequest_tidy ordering id ht
  | wakeUp timedOut woken w => exact (wakeUp_same ordering timedOut woken w ht hlegal.2.2).tidy ht
  | leaveWait w =>
    refine Same.tidy (((Same.refl t).modifyOwner w.owner (fun o =>
      { o with pendingRequest := none, semaphore := false, timeout := false }) (fun _ => rfl)
      fun _ => rfl).trans (.of_locks rfl rfl)) ht
  | finishWait w => exact finishWait_tidy ordering w ht
  | purgeOwner owner => exact purgeOwner_tidy ordering owner ht
  | blockingAction owner => exact (blockingAction2_same owner ht).tidy ht
  | rePost owner id =>
    exact ((Same.refl t).modifyOwner owner (fun o =>
      { o with blocks := o.blocks ++ [id], signaled := true }) (fun _ => rfl) fun _ => rfl).tidy ht

theorem initTable_tidy : initTable.Tidy := by
  refine ⟨nodup_nil, ?_, nodup_nil, fun _ _ h => absurd h not_mem_nil, fun p hp =>
    ?_⟩
  · exact Multiset.nodup_zero
  · exact absurd hp (Multiset.notMem_zero p)

end Firebird.Lock
