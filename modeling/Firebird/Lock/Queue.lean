import Firebird.Lib.Crash
import Firebird.Lib.Ring

/-!
# Self-relative queues of the lock table

The queues of the shared lock table are linked by `srq` cells. `insert_tail` and `remove_que`
leave an intent in the secondary header block before they touch a link, and `acquire` looks at
it when the owner of the table mutex has died. Each operation is the list of its single stores,
so that it can be cut between any two of them.
-/
namespace Firebird.Lock

open Lib Ring List Function

/-- A relative pointer into the lock table; `0` is no cell. -/
abbrev SrqPtr := Nat

/-- The links of all `srq` cells and the three intent words of the `shb` block. -/
structure Shm where
  srqForward : SrqPtr → SrqPtr
  srqBackward : SrqPtr → SrqPtr
  shbRemoveNode : SrqPtr
  shbInsertQue : SrqPtr
  shbInsertPrior : SrqPtr

namespace Shm

def setForward (c v : SrqPtr) (s : Shm) : Shm :=
  { s with srqForward := Function.update s.srqForward c v }

def setBackward (c v : SrqPtr) (s : Shm) : Shm :=
  { s with srqBackward := Function.update s.srqBackward c v }

end Shm

/-- One store, with the reads and the `CHECK` right before it; `none` is `bug_assert`. -/
abbrev Store := Shm → Option Shm

/-- The stores of `insert_tail (lock_srq, node)`. -/
def insertTail (lockSrq node : SrqPtr) : List Store :=
  [fun s => some { s with shbInsertQue := lockSrq },
   fun s => some { s with shbInsertPrior := s.srqBackward lockSrq },
   fun s => some (s.setForward node lockSrq),
   fun s => some (s.setBackward node (s.srqBackward lockSrq)),
   fun s => some (s.setForward (s.srqBackward lockSrq) node),
   fun s => some (s.setBackward lockSrq node),
   fun s => some { s with shbInsertQue := 0 },
   fun s => some { s with shbInsertPrior := 0 }]

/-- The stores of `remove_que (node)`; the last two are `SRQ_INIT`. -/
def removeQue (node : SrqPtr) : List Store :=
  [fun s => some { s with shbRemoveNode := node },
   fun s =>
    if s.srqBackward (s.srqForward node) = node ∨
        s.srqBackward (s.srqForward node) = s.srqBackward node then
      some (s.setBackward (s.srqForward node) (s.srqBackward node))
    else none,
   fun s =>
    if s.srqForward (s.srqBackward node) = node ∨
        s.srqForward (s.srqBackward node) = s.srqForward node then
      some (s.setForward (s.srqBackward node) (s.srqForward node))
    else none,
   fun s => some { s with shbRemoveNode := 0 },
   fun s => some (s.setBackward node node),
   fun s => some (s.setForward node node)]

/-- The stores `acquire` makes when the prior owner of the mutex died. -/
def recovery (s : Shm) : List Store :=
  if s.shbRemoveNode ≠ 0 then removeQue s.shbRemoveNode
  else if s.shbInsertQue ≠ 0 ∧ s.shbInsertPrior ≠ 0 then
    [fun t => some (t.setBackward t.shbInsertQue t.shbInsertPrior),
     fun t => some (t.setForward t.shbInsertPrior t.shbInsertQue),
     fun t => some { t with shbInsertQue := 0 },
     fun t => some { t with shbInsertPrior := 0 }]
  else []

inductive QueOp where
  | insertTail (lockSrq node : SrqPtr)
  | removeQue (node : SrqPtr)
  deriving DecidableEq

namespace QueOp

def stores : QueOp → List Store
  | insertTail q node => Lock.insertTail q node
  | removeQue node => Lock.removeQue node

def apply : QueOp → Family SrqPtr → Family SrqPtr
  | insertTail q node => Family.insertBefore q node
  | removeQue node => Family.remove node

def cell : QueOp → SrqPtr
  | insertTail q _ => q
  | removeQue node => node

/-- `insert_tail` is called for a cell of a queue and a node on none; `remove_que` for any node,
whether it is on a queue or not, but never for a header. -/
def Pre (F : Family SrqPtr) : QueOp → Prop
  | insertTail q node => node ≠ 0 ∧ F.Mem q ∧ ¬ F.Mem node
  | removeQue node => node ≠ 0 ∧ node ∉ F.heads

/-- The `CHECK`s of `remove_que` would be passed. They are for a member of a queue and for a node
that is linked to itself. -/
def Checked (s : Shm) : QueOp → Prop
  | insertTail _ _ => True
  | removeQue node =>
    (s.srqBackward (s.srqForward node) = node ∨
      s.srqBackward (s.srqForward node) = s.srqBackward node) ∧
    (s.srqForward (s.srqBackward node) = node ∨
      s.srqForward (s.srqBackward node) = s.srqForward node)

end QueOp

/-- An operation that completes, or one whose process dies after `k` stores. Recoveries may die
as well, after the numbers of stores in `retries`; the last one completes. -/
inductive QueEvent where
  | done (op : QueOp)
  | died (op : QueOp) (k : Nat) (retries : List Nat)
  deriving DecidableEq

/-- Recoveries that die after the given numbers of stores, then one that completes. -/
def recover : List Nat → Shm → Option Shm
  | [], s => Crash.run (recovery s) s
  | k :: ks, s => (Crash.run ((recovery s).take k) s).bind (recover ks)

namespace QueEvent

def op : QueEvent → QueOp
  | done op => op
  | died op _ _ => op

def exec : QueEvent → Shm → Option Shm
  | done op, s => Crash.run op.stores s
  | died op k retries, s => (Crash.run (op.stores.take k) s).bind (recover retries)

/-- The members after the event: those after the operation or, if the process died, those before
or after it. All other queues are unchanged. -/
def Effect (F F' : Family SrqPtr) (e : QueEvent) : Prop :=
  (match e with
    | done op => F' = op.apply F
    | died op _ _ => F' = F ∨ F' = op.apply F) ∧
  ∀ Q ∈ F, e.op.cell ∉ Q.cells → Q ∈ F'

/-- The process does not die between the first two stores of an `insert_tail` that finds a
leftover in `shb_insert_prior`, unless that leftover is the prior of the queue anyway. -/
def NoLeftover : QueEvent → Shm → Prop
  | died (.insertTail q _) 1 _, s => s.shbInsertPrior = 0 ∨ s.shbInsertPrior = s.srqBackward q
  | _, _ => True

/-- What a death has left behind does not get in the way of the event. -/
def Undisturbed (e : QueEvent) (s : Shm) : Prop := e.NoLeftover s ∧ e.op.Checked s

end QueEvent

def runEvents : List QueEvent → Shm → Option Shm
  | [], s => some s
  | e :: es, s => (e.exec s).bind (runEvents es)

inductive History : List QueEvent → Family SrqPtr → Family SrqPtr → Prop where
  | nil {F} : History [] F F
  | cons {e es F F' F''} (h : e.Effect F F') (hs : History es F' F'') : History (e :: es) F F''

/-- Every operation is called as it may be for the queues the links then hold, and every event
satisfies the further condition `G`. -/
def Legal (G : QueEvent → Shm → Prop) : List QueEvent → Family SrqPtr → Shm → Prop
  | [], _, _ => True
  | e :: es, F, s => e.op.Pre F ∧ G e s ∧ ∀ F' s', e.exec s = some s' →
      F'.heads = F.heads → F'.Holds s'.srqForward s'.srqBackward → Legal G es F' s'

/-- Between operations: no intent is open and the links hold exactly the queues `F`. -/
structure AtRest (F : Family SrqPtr) (s : Shm) : Prop where
  noRemove : s.shbRemoveNode = 0
  noInsert : s.shbInsertQue = 0 ∨ s.shbInsertPrior = 0
  nonzero : ¬ F.Mem 0
  holds : F.Holds s.srqForward s.srqBackward

/-- An open insertion that recovery undoes: after it the links hold `F`. -/
structure UndoInsert (F : Family SrqPtr) (s : Shm) : Prop where
  noRemove : s.shbRemoveNode = 0
  que : s.shbInsertQue ≠ 0
  prior : s.shbInsertPrior ≠ 0
  nonzero : ¬ F.Mem 0
  holds : F.Holds (Function.update s.srqForward s.shbInsertPrior s.shbInsertQue)
    (Function.update s.srqBackward s.shbInsertQue s.shbInsertPrior)

/-- An open removal of `n` that recovery completes: after it the links hold `F`. Only the links
of `n` itself are relied upon. -/
structure RedoRemove (F : Family SrqPtr) (n : SrqPtr) (s : Shm) : Prop where
  noInsert : s.shbInsertQue = 0 ∨ s.shbInsertPrior = 0
  nonzero : ¬ F.Mem 0
  node_ne : n ≠ 0
  node : ¬ F.Mem n
  next : s.srqBackward (s.srqForward n) = n ∨ s.srqBackward (s.srqForward n) = s.srqBackward n
  prior : s.srqForward (s.srqBackward n) = n ∨ s.srqForward (s.srqBackward n) = s.srqForward n
  holds : F.Holds (Function.update s.srqForward (s.srqBackward n) (s.srqForward n))
    (Function.update s.srqBackward (s.srqForward n) (s.srqBackward n))

/-- A state from which a completed recovery leads to the queues `F`. -/
inductive Recovers (F : Family SrqPtr) (s : Shm) : Prop where
  | rest (h : AtRest F s)
  | undo (h : UndoInsert F s)
  | redo (h : RedoRemove F s.shbRemoveNode s)

theorem update_copy (g : SrqPtr → SrqPtr) (c n : SrqPtr) :
    update g c (g n) n = g n := by
  by_cases e : n = c
  · rw [e, update_self]
  · rw [update_of_ne e]

namespace AtRest

variable {F : Family SrqPtr} {s : Shm} {n : SrqPtr}

theorem setForward (h : AtRest F s) (hn : ¬ F.Mem n) (v : SrqPtr) :
    AtRest F (s.setForward n v) := by
  refine ⟨h.noRemove, h.noInsert, h.nonzero, h.holds.frame ?_ fun _ _ => rfl⟩
  intro c hc
  have : c ≠ n := fun e => hn (e ▸ hc)
  simp [Shm.setForward, this]

theorem setBackward (h : AtRest F s) (hn : ¬ F.Mem n) (v : SrqPtr) :
    AtRest F (s.setBackward n v) := by
  refine ⟨h.noRemove, h.noInsert, h.nonzero, h.holds.frame (fun _ _ => rfl) ?_⟩
  intro c hc
  have : c ≠ n := fun e => hn (e ▸ hc)
  simp [Shm.setBackward, this]

end AtRest

namespace RedoRemove

variable {F : Family SrqPtr} {n : SrqPtr} {s : Shm}

theorem setRemoveNode (h : RedoRemove F n s) (v : SrqPtr) :
    RedoRemove F n { s with shbRemoveNode := v } :=
  ⟨h.noInsert, h.nonzero, h.node_ne, h.node, h.next, h.prior, h.holds⟩

theorem backward (h : RedoRemove F n s) :
    RedoRemove F n (s.setBackward (s.srqForward n) (s.srqBackward n)) := by
  refine ⟨h.noInsert, h.nonzero, h.node_ne, h.node, .inr ?_, ?_, ?_⟩
  · simp [Shm.setBackward, update_copy]
  · simpa [Shm.setBackward, update_copy] using h.prior
  · simpa [Shm.setBackward, update_copy] using h.holds

theorem forward (h : RedoRemove F n s) :
    RedoRemove F n (s.setForward (s.srqBackward n) (s.srqForward n)) := by
  refine ⟨h.noInsert, h.nonzero, h.node_ne, h.node, ?_, .inr ?_, ?_⟩
  · simpa [Shm.setForward, update_copy] using h.next
  · simp [Shm.setForward, update_copy]
  · simpa [Shm.setForward, update_copy] using h.holds

theorem atRest (h : RedoRemove F n s)
    (hb : s.srqBackward (s.srqForward n) = s.srqBackward n)
    (hf : s.srqForward (s.srqBackward n) = s.srqForward n) :
    AtRest F { s with shbRemoveNode := 0 } := by
  refine ⟨rfl, h.noInsert, h.nonzero, ?_⟩
  have hholds := h.holds
  rwa [update_eq_self_iff.mpr hf.symm, update_eq_self_iff.mpr hb.symm] at hholds

end RedoRemove

variable {F : Family SrqPtr} {s : Shm} {n q : SrqPtr}

theorem removeQue_triple {C : Shm → Prop}
    (h : RedoRemove F n s) (h₀ : C s) (hC : ∀ t, Recovers F t → C t) :
    Crash.Triple C (removeQue n) s (AtRest F) := by
  have h₁ := h.setRemoveNode n
  have h₂ := h₁.backward
  have h₃ := h₂.forward
  have h₄ := h₃.atRest (by simp [Shm.setBackward, Shm.setForward, update_copy])
    (by simp [Shm.setForward, update_copy])
  have h₅ := h₄.setBackward h.node n
  have h₆ := h₅.setForward h.node n
  exact .cons h₀ rfl <| .cons (hC _ (.redo h₁)) (if_pos h₁.next) <|
    .cons (hC _ (.redo h₂)) (if_pos h₂.prior) <| .cons (hC _ (.redo h₃)) rfl <|
    .cons (hC _ (.rest h₄)) rfl <| .cons (hC _ (.rest h₅)) rfl ⟨hC _ (.rest h₆), h₆⟩

/-- While an insertion before `q` is open, only the links between `q` and its prior differ. -/
theorem undoInsert_of_rest {t : Shm} (h : AtRest F s)
    (hq : F.Mem q) (hremove : t.shbRemoveNode = 0) (hque : t.shbInsertQue = q)
    (hprior : t.shbInsertPrior = s.srqBackward q)
    (hf : ∀ c, F.Mem c → c ≠ s.srqBackward q → t.srqForward c = s.srqForward c)
    (hb : ∀ c, F.Mem c → c ≠ q → t.srqBackward c = s.srqBackward c) : UndoInsert F t := by
  have hpriorMem := h.holds.bwd_mem hq
  refine ⟨hremove, ?_, ?_, h.nonzero, h.holds.frame ?_ ?_⟩
  · rintro e
    exact h.nonzero (by rwa [← e, hque])
  · rintro e
    exact h.nonzero (by rwa [← e, hprior])
  · intro c hc
    by_cases e : c = s.srqBackward q
    · rw [hprior, hque, e, update_self, h.holds.fwd_bwd hq]
    · rw [hprior, update_of_ne e, hf c hc e]
  · intro c hc
    by_cases e : c = q
    · rw [hprior, hque, e, update_self]
    · rw [hque, update_of_ne e, hb c hc e]

theorem recovers_first_store (h : AtRest F s)
    (hq : F.Mem q) (hleft : s.shbInsertPrior = 0 ∨ s.shbInsertPrior = s.srqBackward q) :
    Recovers F { s with shbInsertQue := q } := by
  rcases hleft with hzero | hsame
  · exact .rest ⟨h.noRemove, .inr hzero, h.nonzero, h.holds⟩
  · exact .undo (undoInsert_of_rest h hq h.noRemove rfl hsame (fun _ _ _ => rfl) fun _ _ _ => rfl)

theorem insertTail_triple {node : SrqPtr} (h : AtRest F s)
    (hq : F.Mem q) (hnode : ¬ F.Mem node) (hnonzero : node ≠ 0) :
    Crash.Triple (fun t => Recovers F t ∨ Recovers (F.insertBefore q node) t)
      ((insertTail q node).drop 2)
      { s with shbInsertQue := q, shbInsertPrior := s.srqBackward q }
      (AtRest (F.insertBefore q node)) := by
  have hqn : q ≠ node := fun e => hnode (e ▸ hq)
  have hoff : ∀ c, F.Mem c → c ≠ node := fun c hc e => hnode (e ▸ hc)
  have hopen : ∀ t : Shm, t.shbRemoveNode = 0 → t.shbInsertQue = q →
      t.shbInsertPrior = s.srqBackward q →
      (∀ c, F.Mem c → c ≠ s.srqBackward q → t.srqForward c = s.srqForward c) →
      (∀ c, F.Mem c → c ≠ q → t.srqBackward c = s.srqBackward c) →
      Recovers F t ∨ Recovers (F.insertBefore q node) t :=
    fun t h₁ h₂ h₃ h₄ h₅ => .inl (.undo (undoInsert_of_rest h hq h₁ h₂ h₃ h₄ h₅))
  have hholds := h.holds.insertBefore hq hnode
  have hzero : ¬ (F.insertBefore q node).Mem 0 := by
    intro hm
    rcases Family.mem_insertBefore hm with e | hm
    · exact hnonzero e.symm
    · exact h.nonzero hm
  refine .cons ?_ rfl <| .cons ?_ rfl <| .cons ?_ rfl <| .cons ?_ rfl <| .cons ?_ rfl <|
    .cons (.inr (.rest ?_)) rfl ⟨.inr (.rest ?_), ?_⟩
  · exact hopen _ h.noRemove rfl rfl (fun _ _ _ => rfl) fun _ _ _ => rfl
  · refine hopen _ h.noRemove rfl rfl ?_ fun _ _ _ => rfl
    intro c hc _
    simp [Shm.setForward, hoff c hc]
  · refine hopen _ h.noRemove rfl rfl ?_ ?_
    · intro c hc _
      simp [Shm.setForward, Shm.setBackward, hoff c hc]
    · intro c hc _
      simp [Shm.setForward, Shm.setBackward, hoff c hc]
  · refine hopen _ h.noRemove rfl rfl ?_ ?_
    · intro c hc hne
      simp [Shm.setForward, Shm.setBackward, hoff c hc, hqn, hne]
    · intro c hc _
      simp [Shm.setForward, Shm.setBackward, hoff c hc]
  · refine hopen _ h.noRemove rfl rfl ?_ ?_
    · intro c hc hne
      simp [Shm.setForward, Shm.setBackward, hoff c hc, hqn, hne]
    · intro c hc hne
      simp [Shm.setForward, Shm.setBackward, hoff c hc, hne]
  all_goals
    refine ⟨h.noRemove, by simp, hzero, ?_⟩
    simpa [Shm.setForward, Shm.setBackward, hqn] using hholds

theorem UndoInsert.triple (h : UndoInsert F s) :
    Crash.Triple (Recovers F)
      [fun t => some (t.setBackward t.shbInsertQue t.shbInsertPrior),
       fun t => some (t.setForward t.shbInsertPrior t.shbInsertQue),
       fun t => some { t with shbInsertQue := 0 },
       fun t => some { t with shbInsertPrior := 0 }] s (AtRest F) := by
  have h₁ : UndoInsert F (s.setBackward s.shbInsertQue s.shbInsertPrior) :=
    ⟨h.noRemove, h.que, h.prior, h.nonzero, by simpa [Shm.setBackward] using h.holds⟩
  have h₂ : UndoInsert F ((s.setBackward s.shbInsertQue s.shbInsertPrior).setForward
      s.shbInsertPrior s.shbInsertQue) :=
    ⟨h.noRemove, h.que, h.prior, h.nonzero,
      by simpa [Shm.setBackward, Shm.setForward] using h.holds⟩
  refine .cons (.undo h) rfl <| .cons (.undo h₁) rfl <| .cons (.undo h₂) rfl <|
    .cons (.rest ?_) rfl ⟨.rest ?_, ?_⟩
  all_goals exact ⟨h.noRemove, .inl rfl, h.nonzero, h.holds⟩

theorem recovery_triple (h : Recovers F s) :
    Crash.Triple (Recovers F) (recovery s) s (AtRest F) := by
  cases h with
  | rest hrest =>
    have hnone : recovery s = [] := by
      have := hrest.noInsert
      rw [recovery, if_neg (by simp [hrest.noRemove]), if_neg (by tauto)]
    rw [hnone]
    exact ⟨.rest hrest, hrest⟩
  | undo hundo =>
    rw [recovery, if_neg (by simp [hundo.noRemove]), if_pos ⟨hundo.que, hundo.prior⟩]
    exact hundo.triple
  | redo hredo =>
    rw [recovery, if_pos hredo.node_ne]
    exact removeQue_triple hredo (.redo hredo) fun _ ht => ht

theorem recover_atRest (h : Recovers F s) (retries : List Nat) :
    ∃ s', recover retries s = some s' ∧ AtRest F s' := by
  induction retries generalizing s with
  | nil => exact (recovery_triple h).done
  | cons k ks ih =>
    obtain ⟨t, ht, htF⟩ := (recovery_triple h).take k
    obtain ⟨s', hs', hF⟩ := ih htF
    exact ⟨s', by simp [recover, ht, hs'], hF⟩

/-- The stores for a node on no queue that pass the `CHECK`s change no link of a queue. -/
theorem holds_of_checked
    (h : F.Holds s.srqForward s.srqBackward) (hoff : ¬ F.Mem n)
    (hcheck : (QueOp.removeQue n).Checked s) :
    F.Holds (update s.srqForward (s.srqBackward n) (s.srqForward n))
      (update s.srqBackward (s.srqForward n) (s.srqBackward n)) := by
  obtain ⟨hnext, hprior⟩ := hcheck
  refine h.frame ?_ ?_
  · intro c hc
    by_cases e : c = s.srqBackward n
    · rw [← e] at hprior ⊢
      rw [update_self]
      exact (hprior.resolve_left fun hf => hoff (hf ▸ h.fwd_mem hc)).symm
    · rw [update_of_ne e]
  · intro c hc
    by_cases e : c = s.srqForward n
    · rw [← e] at hnext ⊢
      rw [update_self]
      exact (hnext.resolve_left fun hb => hoff (hb ▸ h.bwd_mem hc)).symm
    · rw [update_of_ne e]

theorem checked_of_mem
    (h : F.Holds s.srqForward s.srqBackward) (hmem : F.Mem n) : (QueOp.removeQue n).Checked s :=
  ⟨.inl (h.bwd_fwd hmem), .inl (h.fwd_bwd hmem)⟩

theorem redoRemove_of_rest (h : AtRest F s)
    (hpre : (QueOp.removeQue n).Pre F) (hcheck : (QueOp.removeQue n).Checked s) :
    RedoRemove (F.remove n) n s := by
  obtain ⟨hne, hhead⟩ := hpre
  by_cases hmem : F.Mem n
  · obtain ⟨Q, hQ, hn⟩ := hmem
    have hn : n ∈ Q.members := by
      rcases mem_cons.1 hn with rfl | hn
      · exact absurd (mem_map_of_mem hQ) hhead
      · exact hn
    exact ⟨h.noInsert, fun hm => h.nonzero (Family.mem_of_mem_remove hm), hne,
      Family.not_mem_remove h.holds.1 hQ hn, hcheck.1, hcheck.2, h.holds.remove hQ hn⟩
  · rw [Family.remove_of_not_mem hmem]
    exact ⟨h.noInsert, h.nonzero, hne, hmem, hcheck.1, hcheck.2,
      holds_of_checked h.holds hmem hcheck⟩

variable {op : QueOp}

theorem QueOp.done (h : AtRest F s) (hpre : op.Pre F) (hcheck : op.Checked s) :
    ∃ s', Crash.run op.stores s = some s' ∧ AtRest (op.apply F) s' := by
  cases op with
  | insertTail q node =>
    obtain ⟨hne, hq, hnode⟩ := hpre
    exact (insertTail_triple h hq hnode hne).done
  | removeQue node =>
    exact (removeQue_triple (C := fun _ => True) (redoRemove_of_rest h hpre hcheck) trivial
      fun _ _ => trivial).done

theorem QueOp.cut {k : Nat} {retries : List Nat}
    (h : AtRest F s) (hpre : op.Pre F) (hright : (QueEvent.died op k retries).Undisturbed s) :
    ∃ t, Crash.run (op.stores.take k) s = some t ∧ (Recovers F t ∨ Recovers (op.apply F) t) := by
  cases op with
  | removeQue node =>
    exact (removeQue_triple (C := fun t => Recovers F t ∨ Recovers (F.remove node) t)
      (redoRemove_of_rest h hpre hright.2) (.inl (.rest h)) fun _ ht => .inr ht).take k
  | insertTail q node =>
    obtain ⟨hne, hq, hnode⟩ := hpre
    match k with
    | 0 => exact ⟨s, rfl, .inl (.rest h)⟩
    | 1 => exact ⟨_, rfl, .inl (recovers_first_store h hq hright.1)⟩
    | k + 2 => exact (insertTail_triple h hq hnode hne).take k

theorem QueOp.apply_untouched {Q : Queue SrqPtr} (hQ : Q ∈ F)
    (hcell : op.cell ∉ Q.cells) : Q ∈ op.apply F := by
  cases op with
  | insertTail q node =>
    exact mem_map.mpr ⟨Q, hQ, Queue.insertBefore_of_notMem hcell⟩
  | removeQue node =>
    exact mem_map.mpr
      ⟨Q, hQ, Queue.remove_of_notMem fun hm => hcell (mem_cons_of_mem _ hm)⟩

theorem QueOp.apply_heads (op : QueOp) (F : Family SrqPtr) : (op.apply F).heads = F.heads := by
  cases op with
  | insertTail q node => exact Family.heads_insertBefore q node F
  | removeQue node => exact Family.heads_remove node F

theorem QueEvent.exec_atRest {e : QueEvent} (h : AtRest F s)
    (hpre : e.op.Pre F) (hright : e.Undisturbed s) :
    ∃ F' s', e.exec s = some s' ∧ e.Effect F F' ∧ F'.heads = F.heads ∧ AtRest F' s' := by
  cases e with
  | done op =>
    obtain ⟨s', hs', hrest⟩ := QueOp.done h hpre hright.2
    exact ⟨op.apply F, s', hs', ⟨rfl, fun Q hQ hc => QueOp.apply_untouched hQ hc⟩,
      op.apply_heads F, hrest⟩
  | died op k retries =>
    change op.Pre F at hpre
    obtain ⟨t, ht, hF | hF⟩ := QueOp.cut h hpre hright
    all_goals
      obtain ⟨s', hs', hrest⟩ := recover_atRest hF retries
      have hexec : (QueEvent.died op k retries).exec s = some s' := by simp [exec, ht, hs']
    · exact ⟨F, s', hexec, ⟨.inl rfl, fun Q hQ _ => hQ⟩, rfl, hrest⟩
    · exact ⟨op.apply F, s', hexec, ⟨.inr rfl, fun Q hQ hc => QueOp.apply_untouched hQ hc⟩,
        op.apply_heads F, hrest⟩

/-- Any sequence of operations, with any number of deaths between any two stores: no `CHECK`
fails, and after each recovery the links hold well-formed queues whose members are those before
or those after the interrupted operation. -/
theorem queues_survive_crashes (F : Family SrqPtr) (s : Shm) (es : List QueEvent)
    (h : AtRest F s) (hlegal : Legal QueEvent.Undisturbed es F s) :
    ∃ F' s', runEvents es s = some s' ∧ History es F F' ∧ AtRest F' s' := by
  induction es generalizing F s with
  | nil => exact ⟨F, s, rfl, .nil, h⟩
  | cons e es ih =>
    obtain ⟨hpre, hright, hnext⟩ := hlegal
    obtain ⟨F₁, s₁, hexec, heffect, hheads, hrest⟩ := QueEvent.exec_atRest h hpre hright
    obtain ⟨F', s', hrun, hhist, hrest'⟩ :=
      ih F₁ s₁ hrest (hnext F₁ s₁ hexec hheads hrest.holds)
    exact ⟨F', s', by simp [runEvents, hexec, hrun], .cons heffect hhist, hrest'⟩

/-- The table as `init_lock_table` leaves it: every `srq` is linked to itself. -/
def initShm : Shm where
  srqForward := id
  srqBackward := id
  shbRemoveNode := 0
  shbInsertQue := 0
  shbInsertPrior := 0

theorem atRest_initShm (heads : List SrqPtr) (hnd : heads.Nodup) (hzero : 0 ∉ heads) :
    AtRest (heads.map fun h => ⟨h, []⟩) initShm := by
  refine ⟨rfl, .inl rfl, ?_, ⟨?_, ?_⟩, ?_⟩
  · simpa [Family.Mem, Queue.cells] using hzero
  · simp [Queue.cells]
  · rw [pairwise_map]
    refine hnd.imp fun hne => ?_
    simpa [Queue.cells] using hne.symm
  · simp [Queue.Linked, Seg, initShm]

theorem legal_cons {G : QueEvent → Shm → Prop} {e : QueEvent} {es : List QueEvent}
    {F' : Family SrqPtr} {s' : Shm} (hpre : e.op.Pre F) (hG : G e s)
    (hexec : e.exec s = some s') (hholds : F'.Holds s'.srqForward s'.srqBackward)
    (hheads : F'.heads = F.heads) (hnext : Legal G es F' s') :
    Legal G (e :: es) F s := by
  refine ⟨hpre, hG, fun F'' s'' hexec' hheads' hholds' => ?_⟩
  obtain rfl : s' = s'' := by simpa [hexec] using hexec'
  obtain rfl : F' = F'' := hholds.unique hholds' (hheads.trans hheads'.symm)
  exact hnext

def twoQueues (members : List SrqPtr) : Family SrqPtr := [⟨1, members⟩, ⟨2, []⟩]

theorem twoQueues_atRest : AtRest (twoQueues []) initShm :=
  atRest_initShm [1, 2] (by decide) (by decide)

theorem mem_twoQueues {members : List SrqPtr} {c : SrqPtr} :
    (twoQueues members).Mem c ↔ c = 1 ∨ c ∈ members ∨ c = 2 := by
  simp [twoQueues, Family.Mem, Queue.cells, or_assoc]

/-- Node 3 goes to the tail of queue 1, and the process that removes it again dies twice. -/
theorem queues_survive_crashes_remove :
    ∃ F' s', runEvents [.done (.insertTail 1 3), .died (.removeQue 3) 2 [3]] initShm = some s' ∧
      History [.done (.insertTail 1 3), .died (.removeQue 3) 2 [3]] (twoQueues []) F' ∧
      AtRest F' s' := by
  refine queues_survive_crashes _ _ _ twoQueues_atRest ?_
  have hpre : (QueOp.insertTail 1 3).Pre (twoQueues []) :=
    ⟨by decide, mem_twoQueues.mpr (by decide), fun h => absurd (mem_twoQueues.mp h) (by decide)⟩
  obtain ⟨s₁, hs₁, hrest⟩ := QueOp.done twoQueues_atRest hpre trivial
  have hmem : (twoQueues [3]).Mem 3 := mem_twoQueues.mpr (by decide)
  have hchecked := checked_of_mem (F := twoQueues [3]) hrest.holds hmem
  have hnext : Legal QueEvent.Undisturbed [.died (.removeQue 3) 2 [3]] (twoQueues [3]) s₁ :=
    ⟨⟨by decide, by decide⟩, ⟨trivial, hchecked⟩, fun _ _ _ _ _ => trivial⟩
  exact legal_cons hpre ⟨trivial, trivial⟩ hs₁ hrest.holds rfl hnext

/-- A node whose remover died before `SRQ_INIT` keeps its old links. When its queue has changed, the
`CHECK` of the second removal fails. -/
theorem old_links_fail_check :
    runEvents [.done (.insertTail 1 3), .died (.removeQue 3) 4 [], .done (.insertTail 1 4),
      .done (.removeQue 3)] initShm = none := rfl

/-- The leftover of a death right before the last store of `insert_tail`, taken for the intent of
another `insert_tail` that dies after its first store: recovery links queue 1 into queue 2. -/
theorem leftover_prior_corrupts_queues :
    ¬ ∀ (F : Family SrqPtr) (s : Shm) (es : List QueEvent), AtRest F s →
      Legal (fun _ _ => True) es F s →
      ∃ F' s', runEvents es s = some s' ∧ History es F F' ∧ AtRest F' s' := by
  intro hall
  have hpre : (QueOp.insertTail 1 3).Pre (twoQueues []) :=
    ⟨by decide, mem_twoQueues.mpr (by decide), fun h => absurd (mem_twoQueues.mp h) (by decide)⟩
  have hnext : ∀ s, Legal (fun _ _ => True) [.died (.insertTail 2 4) 1 []] (twoQueues [3]) s :=
    fun s => ⟨⟨by decide, mem_twoQueues.mpr (by decide),
      fun h => absurd (mem_twoQueues.mp h) (by decide)⟩, trivial, fun _ _ _ _ _ => trivial⟩
  have hholds : (twoQueues [3]).Holds
      (update (update id 3 1) 1 3)
      (update (update id 3 1) 1 3) :=
    twoQueues_atRest.holds.insertBefore (mem_twoQueues.mpr (by decide))
      fun h => absurd (mem_twoQueues.mp h) (by decide)
  have hexec : (QueEvent.died (.insertTail 1 3) 7 []).exec initShm = some
      { srqForward := update (update id 3 1) 1 3
        srqBackward := update (update id 3 1) 1 3
        shbRemoveNode := 0
        shbInsertQue := 0
        shbInsertPrior := 1 } := rfl
  have hlegal : Legal (fun _ _ => True)
      [.died (.insertTail 1 3) 7 [], .died (.insertTail 2 4) 1 []] (twoQueues []) initShm :=
    legal_cons hpre trivial hexec hholds rfl (hnext _)
  obtain ⟨F', s', hrun, hhist, hrest⟩ := hall _ _ _ twoQueues_atRest hlegal
  have hfwd : s'.srqForward 1 = 2 := by
    have hmap := congrArg (Option.map fun t => t.srqForward 1) hrun
    exact (Option.some.inj hmap).symm
  -- Whichever of the two insertions took effect, queue 1 does not lead to queue 2.
  obtain ⟨members, hne, hQ⟩ : ∃ members : List SrqPtr, 2 ∉ members ∧ ⟨1, members⟩ ∈ F' := by
    obtain _ | ⟨⟨h₁, -⟩, _ | ⟨⟨h₂, -⟩, _ | _⟩⟩ := hhist
    rcases h₁ with rfl | rfl <;> rcases h₂ with rfl | rfl
    · exact ⟨[], by decide, by decide⟩
    · exact ⟨[], by decide, by decide⟩
    · exact ⟨[3], by decide, by decide⟩
    · exact ⟨[3], by decide, by decide⟩
  have hmem := Seg.fwd_mem (hrest.holds.2 _ hQ) (mem_cons_self)
  rw [hfwd] at hmem
  exact hmem.elim hne (by simp)

end Firebird.Lock
