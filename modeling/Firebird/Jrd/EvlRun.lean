import Firebird.Jrd.EvlMatch

/-!
# LIKE over chunks

The loops of `processNextChunk` and the run over all chunks of a string.
-/
namespace Firebird.Jrd.Evl

open Lib Kmp List

variable {α : Type} {items rest : List (PatternItem α)} {item next : PatternItem α}
variable {s : List α} {c : α} {b : BranchItem} {bs done todo : List BranchItem}
variable {σ : Option (List (PatternItem α))} {candidate isLast : Bool}

/-! ## The loop over the branches -/

variable (items) in
/-- What the branches accept at the start of the loop over the characters behind, or its end. -/
def Next.Means (s : List α) : Next → Prop
  | .go branches candidate =>
    (∃ b ∈ branches, Accepts items b s) ∨ candidate = true ∧ s = []
  | .stop .matchAny _ => True
  | .stop .matchFixed _ => s = []
  | .stop .matchNone _ => False

variable (items) in
/-- The branches have their shape; only a match that ends with the chunk is left open. -/
def Next.Fine (isLast : Bool) : Next → Prop
  | .go branches _ => Shape items branches
  | .stop matchType more =>
    (more = true ↔ matchType = .matchFixed) ∧ (matchType = .matchFixed → isLast = true)

variable (items) in
/-- What is accepted in the middle of the loop: some branches have taken the character. -/
def Between (c : α) (done todo : List BranchItem) (candidate : Bool) (s : List α) : Prop :=
  (∃ b ∈ done, Accepts items b s) ∨ (∃ b ∈ todo, Accepts items b (c :: s)) ∨
    candidate = true ∧ s = []

variable (items) in
def Takes (isLast : Bool) (before : List α → Prop) (next : Next) : Prop :=
  next.Fine items isLast ∧ ∀ s, (isLast = false → s ≠ []) → (before s ↔ next.Means items s)

theorem Takes.congr {before before' : List α → Prop} {next : Next}
    (h : Takes items isLast before next) (hiff : ∀ s, before' s ↔ before s) :
    Takes items isLast before' next :=
  ⟨h.1, fun s hs => (hiff s).trans (h.2 s hs)⟩

variable (items) in
/-- The branches in the middle of the loop: the first one searches, or there is only one. -/
structure Loop (σ : Option (List (PatternItem α))) (done todo : List BranchItem)
    (candidate : Bool) : Prop where
  walks : ∀ b ∈ todo, Walks items σ b
  cand : candidate = true → σ = none
  first : (∃ b bs, done = b :: bs ∧ Searches items σ b ∧ ∀ b' ∈ bs, Walks items σ b') ∨
    (done ++ todo).length ≤ 1 ∧ candidate = false ∧ ∀ b ∈ done, Walks items σ b

theorem walk_step (h : At items b item rest) (hgood : Good items) (hwalk : item.type ≠ .piSearch) :
    Accepts items b (c :: s) ↔ ¬(item.type = .piDirectMatch ∧ item.data[b.offset]? ≠ some c) ∧
      if b.offset + 1 ≥ item.length then Like (cont item rest) s
      else Accepts items ⟨b.pattern, b.offset + 1⟩ s := by
  have hitem := (h.good hgood).head
  have hacc : Accepts items ⟨b.pattern, b.offset + 1⟩ s ↔ Lang (item :: rest) (b.offset + 1) s := by
    rw [Accepts, h.drop]
  rw [hacc, ← like_tokensFrom hitem hwalk, h.accepts]
  rcases hitem.type with ht | ht | ht
  · exact absurd ht hwalk
  · rw [lang_direct hitem ht h.offset]
    simp [ht]
  · rw [lang_skip ht h.offset]
    simp [ht]

theorem Loop.advance {b' : BranchItem} (h : Loop items σ done (b :: todo) candidate)
    (hb : Walks items σ b') : Loop items σ (done ++ [b']) todo candidate where
  walks i hi := h.walks i (mem_cons_of_mem _ hi)
  cand := h.cand
  first := by
    rcases h.first with ⟨i, bs, rfl, hsearch, hwalk⟩ | ⟨hlen, hcand, hwalk⟩
    · refine .inl ⟨i, bs ++ [b'], rfl, hsearch, fun j hj => ?_⟩
      rcases mem_append.1 hj with hj | hj
      · exact hwalk j hj
      · obtain rfl := mem_singleton.1 hj
        exact hb
    · refine .inr ⟨?_, hcand, fun j hj => ?_⟩
      · simp only [length_append, length_cons, length_nil] at hlen ⊢
        omega
      · rcases mem_append.1 hj with hj | hj
        · exact hwalk j hj
        · obtain rfl := mem_singleton.1 hj
          exact hb

theorem Loop.remove (h : Loop items σ done (b :: todo) candidate) :
    Loop items σ done todo candidate where
  walks i hi := h.walks i (mem_cons_of_mem _ hi)
  cand := h.cand
  first := by
    rcases h.first with hdone | ⟨hlen, hcand, hwalk⟩
    · exact .inl hdone
    · refine .inr ⟨?_, hcand, hwalk⟩
      simp only [length_append, length_cons] at hlen ⊢
      omega

theorem Loop.finish (h : Loop items σ done (b :: todo) candidate) (hσ : σ = none)
    (hne : done ++ todo ≠ []) : Loop items σ done todo true where
  walks i hi := h.walks i (mem_cons_of_mem _ hi)
  cand _ := hσ
  first := by
    rcases h.first with hdone | ⟨hlen, -, -⟩
    · exact .inl hdone
    · have hpos := length_pos_iff.2 hne
      simp only [length_append, length_cons] at hlen hpos
      omega

theorem Loop.not_candidate (h : Loop items σ done todo candidate) (hdone : done = []) :
    candidate = false := by
  rcases h.first with ⟨i, bs, rfl, -⟩ | ⟨-, hcand, -⟩
  · simp at hdone
  · exact hcand

theorem Loop.shape (h : Loop items σ done [] candidate) : Shape items done := by
  rcases h.first with ⟨i, bs, rfl, hsearch, hwalk⟩ | ⟨hlen, -, hwalk⟩
  · exact .many hsearch hwalk
  · rw [append_nil] at hlen
    match done, hlen, hwalk with
    | [], _, _ => exact .none
    | [b], _, hwalk =>
      obtain ⟨item, rest, hat, -⟩ := hwalk b (by simp)
      exact .single hat

theorem Loop.at_done (h : Loop items σ done todo candidate) (hb : b ∈ done) :
    ∃ item rest, At items b item rest ∧ behindAny (item :: rest) = σ := by
  rcases h.first with ⟨i, bs, rfl, hsearch, hwalk⟩ | ⟨-, -, hwalk⟩
  · rcases mem_cons.1 hb with rfl | hb
    · obtain ⟨item, rest, hat, -, -, hσ⟩ := hsearch
      exact ⟨item, rest, hat, hσ⟩
    · obtain ⟨item, rest, hat, -, hσ⟩ := hwalk b hb
      exact ⟨item, rest, hat, hσ⟩
  · obtain ⟨item, rest, hat, -, hσ⟩ := hwalk b hb
    exact ⟨item, rest, hat, hσ⟩

theorem Loop.jump (h : Loop items σ done (b :: todo) candidate) (hgood : Good items)
    (hat : At items b item (next :: rest)) (hσ : σ = some (next :: rest))
    (hany : item.matchAny = true) :
    Between items c done todo candidate s → Accepts items ⟨b.pattern + 1, 0⟩ s := by
  have hnext := (hat.good hgood).link.1 hany
  have hstart : Like (.any :: (next :: rest).flatMap (·.tokens)) s →
      Accepts items ⟨b.pattern + 1, 0⟩ s := by
    intro hlike
    rw [Accepts, hat.drop_succ]
    exact (lang_zero_search (hat.good hgood).tail.head hnext).2 hlike
  rintro (⟨b', hb', hacc⟩ | ⟨b', hb', hacc⟩ | ⟨hcand, -⟩)
  · obtain ⟨item', rest', hat', hσ'⟩ := h.at_done hb'
    obtain ⟨a, t, -, rfl, hlike⟩ := hat'.subsumed hgood (hσ'.trans hσ) hacc
    exact hstart (like_any_append hlike a)
  · obtain ⟨item', rest', hat', -, hσ'⟩ := h.walks b' (mem_cons_of_mem _ hb')
    obtain ⟨a, t, hne, heq, hlike⟩ := hat'.subsumed hgood (hσ'.trans hσ) hacc
    cases a with
    | nil => exact absurd rfl hne
    | cons d a =>
      obtain ⟨-, rfl⟩ := cons_eq_cons.1 heq
      exact hstart (like_any_append hlike a)
  · rw [h.cand hcand] at hσ
    cases hσ

theorem between_cons : Between items c done (b :: todo) candidate s ↔
    Accepts items b (c :: s) ∨ Between items c done todo candidate s := by
  simp only [Between, mem_cons, exists_eq_or_imp]
  rw [or_assoc, or_left_comm]

theorem between_advance {b' : BranchItem} : Between items c (done ++ [b']) todo candidate s ↔
    Accepts items b' s ∨ Between items c done todo candidate s := by
  simp only [Between, mem_append, mem_singleton, or_and_right, exists_or, exists_eq_left]
  rw [or_assoc, or_left_comm]

theorem between_finish : Between items c done todo true s ↔
    s = [] ∨ Between items c done todo candidate s := by
  have htrue : Between items c done todo true s ↔
      (∃ b ∈ done, Accepts items b s) ∨ (∃ b ∈ todo, Accepts items b (c :: s)) ∨ s = [] := by
    simp [Between]
  rw [htrue]
  cases candidate with
  | true =>
    rw [htrue]
    constructor
    · exact .inr
    · rintro (hs | hs)
      · exact .inr (.inr hs)
      · exact hs
  | false =>
    simp only [Between, Bool.false_eq_true, false_and, or_false]
    rw [← or_assoc, or_comm]

theorem not_between_nil : ¬Between items c [] [] false s := by
  simp [Between]

section

variable [DecidableEq α]

theorem branchLoop_walks (hgood : Good items) (h : Loop items σ done todo candidate) :
    Takes items isLast (Between items c done todo candidate)
      (branchLoop items c isLast done todo candidate) := by
  induction todo generalizing done candidate with
  | nil =>
    refine ⟨h.shape, fun s _ => ?_⟩
    simp [Between, branchLoop, Next.Means]
  | cons b todo ih =>
    obtain ⟨item, rest, hat, hwalk, hσ⟩ := h.walks b (by simp)
    have hstep : ∀ s, Accepts items b (c :: s) ↔ _ := fun s => walk_step hat hgood hwalk
    have htype : item.type = .piDirectMatch ∨ item.type = .piSkipFixed :=
      (hat.good hgood).head.type.resolve_left hwalk
    rw [branchLoop, hat.getElem?]
    by_cases hmiss : item.type = .piDirectMatch ∧ item.data[b.offset]? ≠ some c
    · simp only [if_pos hmiss]
      have hdrop : ∀ s, Between items c done (b :: todo) candidate s ↔
          Between items c done todo candidate s := by
        intro s
        rw [between_cons, hstep]
        simp [hmiss]
      split_ifs with hnil
      · obtain ⟨rfl, rfl⟩ := append_eq_nil_iff.1 hnil
        obtain rfl := h.not_candidate rfl
        refine ⟨by simp [Next.Fine], fun s _ => (hdrop s).trans ?_⟩
        simp [not_between_nil, Next.Means]
      · exact (ih h.remove).congr hdrop
    · simp only [if_neg hmiss, if_pos htype]
      simp only [hmiss, not_false_iff, true_and] at hstep
      split_ifs with hend hany hlast hlast hnil hisLast
      · -- `%` at the end of the pattern.
        simp only [if_pos hend] at hstep
        obtain rfl := hat.length_le.1 hlast
        refine ⟨by simp [Next.Fine], fun s _ => ?_⟩
        rw [between_cons, hstep]
        simp [like_cont_any hany, Next.Means]
      · -- `%` with more behind it.
        simp only [if_pos hend] at hstep
        obtain ⟨next, rest, rfl⟩ := exists_cons_of_ne_nil (fun h => hlast (hat.length_le.2 h))
        rw [behindAny_cons_of_any hany] at hσ
        refine ⟨.single (hat.step hgood), fun s _ => ?_⟩
        have hnext : Like (cont item (next :: rest)) s ↔ Accepts items ⟨b.pattern + 1, 0⟩ s := by
          rw [like_cont (hat.good hgood), Accepts, hat.drop_succ]
        rw [between_cons, hstep, hnext]
        simp only [Next.Means, mem_singleton, exists_eq_left]
        constructor
        · rintro (hacc | hacc)
          · exact .inl hacc
          · exact .inl (h.jump hgood hat hσ.symm hany hacc)
        · rintro (hacc | hacc)
          · exact .inl hacc
          · exact .inr (.inr (.inr hacc))
      · -- The end of the pattern, and of the chunk.
        simp only [if_pos hend] at hstep
        obtain rfl := hat.length_le.1 hlast
        obtain ⟨rfl, rfl⟩ := append_eq_nil_iff.1 hnil
        obtain rfl := h.not_candidate rfl
        refine ⟨by simp [Next.Fine, hisLast], fun s _ => ?_⟩
        rw [between_cons, hstep, like_cont_nil (by simpa using hany)]
        simp [not_between_nil, Next.Means]
      · simp only [if_pos hend] at hstep
        obtain rfl := hat.length_le.1 hlast
        obtain ⟨rfl, rfl⟩ := append_eq_nil_iff.1 hnil
        obtain rfl := h.not_candidate rfl
        refine ⟨by simp [Next.Fine], fun s hs => ?_⟩
        rw [between_cons, hstep, like_cont_nil (by simpa using hany)]
        simp [not_between_nil, Next.Means, hs (by simpa using hisLast)]
      · simp only [if_pos hend] at hstep
        obtain rfl := hat.length_le.1 hlast
        have hnone : σ = none := by
          rw [← hσ, behindAny_cons_of_not (by simpa using hany), behindAny]
        refine (ih (h.finish hnone hnil)).congr fun s => ?_
        rw [between_cons, hstep, like_cont_nil (by simpa using hany), between_finish]
      · simp only [if_pos hend] at hstep
        obtain ⟨next, rest, rfl⟩ := exists_cons_of_ne_nil (fun h => hlast (hat.length_le.2 h))
        rw [behindAny_cons_of_not (by simpa using hany)] at hσ
        have hnext : next.type ≠ .piSearch := fun hs => hany ((hat.good hgood).link.2 hs)
        refine (ih (h.advance ⟨next, rest, hat.step hgood, hnext, hσ⟩)).congr fun s => ?_
        rw [between_cons, hstep, between_advance, like_cont (hat.good hgood), Accepts,
          hat.drop_succ]
      · simp only [if_neg hend] at hstep
        refine (ih (h.advance ⟨item, rest, hat.move (by omega), hwalk, hσ⟩)).congr fun s => ?_
        rw [between_cons, hstep, between_advance]

theorem branchLoop_search (hat : At items b item rest) (hsearch : item.type = .piSearch) :
    branchLoop items c isLast [] (b :: todo) false =
      if searchOffset item c b.offset ≥ item.length then
        match rest with
        | [] =>
          if item.matchAny then .stop .matchAny false
          else branchLoop items c isLast
            [⟨b.pattern, backOffset item (searchOffset item c b.offset)⟩] todo true
        | next :: _ =>
          if next.type = .piSearch then branchLoop items c isLast [⟨b.pattern + 1, 0⟩] todo false
          else branchLoop items c isLast [⟨b.pattern, backOffset item
            (searchOffset item c b.offset)⟩,
            ⟨b.pattern + 1, 0⟩] todo false
      else branchLoop items c isLast [⟨b.pattern, searchOffset item c b.offset⟩] todo false := by
  rw [branchLoop, hat.getElem?]
  simp only [hsearch, hat.next?]
  cases rest with
  | nil => rfl
  | cons next rest => rfl

theorem branchLoop_searches (hgood : Good items) (hfirst : Searches items σ b)
    (hwalk : ∀ b' ∈ bs, Walks items σ b') :
    Takes items isLast (fun s => ∃ b' ∈ b :: bs, Accepts items b' (c :: s))
      (branchLoop items c isLast [] (b :: bs) false) := by
  obtain ⟨item, rest, hat, hsearch, hany, hσ⟩ := hfirst
  have hitem := (hat.good hgood).head
  rw [branchLoop_search hat hsearch]
  have hloop : ∀ o < item.length, ∀ done candidate, (∀ b' ∈ done, Walks items σ b') →
      (candidate = true → σ = none) → Loop items σ (⟨b.pattern, o⟩ :: done) bs candidate := by
    intro o ho done candidate hdone hcand
    exact ⟨hwalk, hcand, .inl ⟨_, _, rfl, ⟨item, rest, hat.move ho, hsearch, hany, hσ⟩, hdone⟩⟩
  have hacc : ∀ o s, Accepts items ⟨b.pattern, o⟩ s ↔ Lang (item :: rest) o s := by
    intro o s
    rw [Accepts, hat.drop]
  have hfirst : ∀ s, (∃ b' ∈ b :: bs, Accepts items b' (c :: s)) ↔
      Lang (item :: rest) b.offset (c :: s) ∨ ∃ b' ∈ bs, Accepts items b' (c :: s) := by
    intro s
    simp [hat.accepts]
  by_cases hge : searchOffset item c b.offset ≥ item.length
  · rw [if_pos hge]
    obtain ⟨hback, -⟩ := @lang_search_ge α rest item [] c b.offset _ hitem hsearch hat.offset hge
    have hlang : ∀ s, Lang (item :: rest) b.offset (c :: s) ↔ _ :=
      fun s => (lang_search_ge hitem hsearch hat.offset hge).2
    cases rest with
    | nil =>
      have hnone : σ = none := by rw [← hσ, behindAny_cons_of_not hany, behindAny]
      simp only [hany]
      refine (branchLoop_walks hgood (hloop _ hback [] true (by simp) fun _ => hnone)).congr
        fun s => ?_
      rw [hfirst, hlang, like_cont_nil hany]
      simp only [Between, mem_singleton, exists_eq_left, hacc, true_and]
      rw [or_assoc, or_comm, or_assoc]
    | cons next rest =>
      have hnext : next.type ≠ .piSearch := by
        intro hs
        rw [(hat.good hgood).link.2 hs] at hany
        cases hany
      rw [behindAny_cons_of_not hany] at hσ
      simp only [if_neg hnext]
      have hwalks : ∀ b' ∈ [(⟨b.pattern + 1, 0⟩ : BranchItem)], Walks items σ b' := by
        intro b' hb'
        obtain rfl := mem_singleton.1 hb'
        exact ⟨next, rest, hat.step hgood, hnext, hσ⟩
      refine (branchLoop_walks hgood (hloop _ hback _ false hwalks (by simp))).congr fun s => ?_
      have hstep : Accepts items ⟨b.pattern + 1, 0⟩ s ↔ Lang (next :: rest) 0 s := by
        rw [Accepts, hat.drop_succ]
      rw [hfirst, hlang, like_cont (hat.good hgood), ← hstep, ← hacc]
      simp only [Between, mem_cons, not_mem_nil, or_false, exists_eq_or_imp, exists_eq_left,
        Bool.false_eq_true, false_and]
      rw [or_comm (a := Accepts items ⟨b.pattern + 1, 0⟩ s)]
  · rw [if_neg hge]
    have hlt : searchOffset item c b.offset < item.length := by omega
    refine (branchLoop_walks hgood (hloop _ hlt [] false (by simp) (by simp))).congr fun s => ?_
    rw [hfirst, lang_search_lt hitem hsearch hat.offset hlt, ← hacc]
    simp [Between]

theorem branchLoop_searches_any (hgood : Good items) (hat : At items b item rest)
    (hsearch : item.type = .piSearch) (hany : item.matchAny = true) :
    Takes items isLast (fun s => ∃ b' ∈ [b], Accepts items b' (c :: s))
      (branchLoop items c isLast [] [b] false) := by
  have hitem := (hat.good hgood).head
  have hfirst : ∀ s, (∃ b' ∈ [b], Accepts items b' (c :: s)) ↔
      Lang (item :: rest) b.offset (c :: s) := by
    intro s
    simp [hat.accepts]
  rw [branchLoop_search hat hsearch]
  by_cases hge : searchOffset item c b.offset ≥ item.length
  · rw [if_pos hge]
    obtain ⟨hback, -⟩ := @lang_search_ge α rest item [] c b.offset _ hitem hsearch hat.offset hge
    -- What a later occurrence accepts, the first one accepts by its `%`.
    have hlang : ∀ s, Lang (item :: rest) b.offset (c :: s) ↔ Like (cont item rest) s := by
      intro s
      rw [(lang_search_ge hitem hsearch hat.offset hge).2]
      refine ⟨?_, .inl⟩
      rintro (hcont | hlater)
      · exact hcont
      · obtain ⟨a, t, -, rfl, hcont⟩ := hlater.split hitem hback
        rw [cont, if_pos hany] at hcont ⊢
        exact like_any_append hcont a
    cases rest with
    | nil =>
      simp only [hany]
      refine ⟨by simp [Next.Fine], fun s _ => (hfirst s).trans ?_⟩
      rw [hlang]
      simp [like_cont_any hany, Next.Means]
    | cons next rest =>
      simp only [if_pos ((hat.good hgood).link.1 hany), branchLoop]
      refine ⟨.single (hat.step hgood), fun s _ => (hfirst s).trans ?_⟩
      rw [hlang, like_cont (hat.good hgood)]
      simp [Next.Means, Accepts, hat.drop_succ]
  · have hlt : searchOffset item c b.offset < item.length := by omega
    rw [if_neg hge, branchLoop]
    refine ⟨.single (hat.move hlt), fun s _ => (hfirst s).trans ?_⟩
    rw [lang_search_lt hitem hsearch hat.offset hlt]
    simp [Next.Means, Accepts, hat.drop]

theorem branchLoop_spec (hgood : Good items) (h : Shape items bs) :
    Takes items isLast (fun s => ∃ b ∈ bs, Accepts items b (c :: s))
      (branchLoop items c isLast [] bs false) := by
  cases h with
  | none => exact ⟨.none, fun s _ => by simp [branchLoop, Next.Means]⟩
  | many hsearch hwalk => exact branchLoop_searches hgood hsearch hwalk
  | @single b item rest hat =>
    by_cases hsearch : item.type = .piSearch
    · cases hany : item.matchAny with
      | true => exact branchLoop_searches_any hgood hat hsearch hany
      | false => exact branchLoop_searches hgood ⟨item, rest, hat, hsearch, hany, rfl⟩ (by simp)
    · have hwalk : ∀ b' ∈ [b], Walks items (behindAny (item :: rest)) b' := by
        intro b' hb'
        obtain rfl := mem_singleton.1 hb'
        exact ⟨item, rest, hat, hsearch, rfl⟩
      refine (branchLoop_walks hgood ⟨hwalk, by simp, .inr ⟨by simp, rfl, by simp⟩⟩).congr fun s =>
        ?_
      simp [Between]

theorem chunkLoop_spec (hgood : Good items) {data : List α} (h : Shape items bs)
    {bs' : List BranchItem} {matchType : MatchType} {more : Bool}
    (hloop : chunkLoop items .matchNone data bs candidate = (bs', matchType, more)) :
    (more = true → Shape items bs' ∧ matchType ≠ .matchAny ∧ ∀ s,
      ((data = [] ∧ candidate = true ∧ s = []) ∨ (∃ b ∈ bs, Accepts items b (data ++ s)) ↔
        (∃ b ∈ bs', Accepts items b s) ∨ matchType = .matchFixed ∧ s = [])) ∧
    (more = false → ∀ s, ((data = [] ∧ candidate = true ∧ s = []) ∨
      (∃ b ∈ bs, Accepts items b (data ++ s)) ↔ matchType ≠ .matchNone)) := by
  induction data generalizing bs candidate with
  | nil =>
    obtain ⟨rfl, rfl, rfl⟩ := hloop
    refine ⟨fun _ => ⟨h, by cases candidate <;> simp, fun s => ?_⟩, by simp⟩
    rw [or_comm]
    cases candidate <;> simp
  | cons c data ih =>
    obtain ⟨hfine, hmeans⟩ := @branchLoop_spec _ _ c _ data.isEmpty _ hgood h
    have hmeans' : ∀ s, (∃ b ∈ bs, Accepts items b (c :: data ++ s)) ↔
        (branchLoop items c data.isEmpty [] bs false).Means items (data ++ s) := by
      intro s
      refine hmeans (data ++ s) fun hlast hnil => ?_
      obtain ⟨rfl, -⟩ := append_eq_nil_iff.1 hnil
      simp at hlast
    simp only [reduceCtorEq, false_and, false_or, hmeans']
    rw [chunkLoop] at hloop
    cases hnext : branchLoop items c data.isEmpty [] bs false with
    | go branches candidate' =>
      rw [hnext] at hloop hfine
      obtain ⟨hmore, hstop⟩ := ih hfine hloop
      have hsame : ∀ s, (data = [] ∧ candidate' = true ∧ s = []) ∨
          (∃ b ∈ branches, Accepts items b (data ++ s)) ↔
          (Next.go branches candidate').Means items (data ++ s) := by
        intro s
        simp only [Next.Means, append_eq_nil_iff]
        rw [or_comm, and_left_comm]
      simp only [hsame] at hmore hstop
      exact ⟨hmore, hstop⟩
    | stop matchType' more' =>
      rw [hnext] at hloop hfine
      simp only [Prod.mk.injEq] at hloop
      obtain ⟨rfl, rfl, rfl⟩ := hloop
      refine ⟨fun hmore => ?_, fun hmore s => ?_⟩
      · obtain rfl := hfine.1.1 hmore
        have hdata := hfine.2 rfl
        rw [List.isEmpty_iff] at hdata
        subst hdata
        refine ⟨.none, by simp, fun s => ?_⟩
        simp [Next.Means]
      · cases matchType' with
        | matchNone => simp [Next.Means]
        | matchFixed =>
          rw [hfine.1.2 rfl] at hmore
          cases hmore
        | matchAny => simp [Next.Means]

variable (items) in
/-- The evaluator accepts a language of strings that may follow. -/
structure Evaluates (ev : LikeEvaluator α) (L : List α → Prop) : Prop where
  patternItems : ev.patternItems = items
  good : ev.branches ≠ [] → Good items
  shape : Shape items ev.branches
  running : ev.branches ≠ [] → ev.matchType ≠ .matchAny
  lang : ∀ s, L s ↔ ev.matchType = .matchAny ∨ (∃ b ∈ ev.branches, Accepts items b s) ∨
    ev.matchType = .matchFixed ∧ s = []

variable {ev : LikeEvaluator α} {L : List α → Prop}

omit [DecidableEq α] in
theorem Evaluates.result (h : Evaluates items ev L) :
    getResult ev = true ↔ L [] := by
  have hnot : ¬∃ b ∈ ev.branches, Accepts items b [] := by
    rintro ⟨b, hb, hacc⟩
    exact h.shape.not_accepts_nil (h.good (ne_nil_of_mem hb)) ⟨b, hb, hacc⟩
  rw [h.lang, getResult]
  simp only [hnot, false_or]
  cases ev.matchType <;> simp

theorem processNextChunk_idle (h : Evaluates items ev L) {data : List α}
    (hbranches : ev.branches = []) :
    ((processNextChunk ev data).1 = true →
      Evaluates items (processNextChunk ev data).2 fun s => L (data ++ s)) ∧
    ((processNextChunk ev data).1 = false →
      ∀ s, getResult (processNextChunk ev data).2 = true ↔ L (data ++ s)) := by
  have hlang := h.lang
  simp only [hbranches] at hlang
  by_cases hdata : data = []
  · subst hdata
    simp only [processNextChunk, hlang]
    refine ⟨fun _ => ⟨h.patternItems, h.good, h.shape, h.running, fun s => ?_⟩, fun hmore s => ?_⟩
    · simp [hbranches]
    · simp only [ne_eq] at hmore
      simp only [getResult]
      cases hm : ev.matchType <;> simp_all
  · simp only [processNextChunk, if_neg hdata, hbranches]
    refine ⟨by simp, fun _ s => ?_⟩
    have hne : data ++ s ≠ [] := by simp [hdata]
    simp only [hlang, hne, getResult]
    cases hm : ev.matchType <;> simp

theorem processNextChunk_spec (h : Evaluates items ev L) (data : List α) :
    ((processNextChunk ev data).1 = true →
      Evaluates items (processNextChunk ev data).2 fun s => L (data ++ s)) ∧
    ((processNextChunk ev data).1 = false →
      ∀ s, getResult (processNextChunk ev data).2 = true ↔ L (data ++ s)) := by
  by_cases hbranches : ev.branches = []
  · exact processNextChunk_idle h hbranches
  by_cases hdata : data = []
  · subst hdata
    simp only [processNextChunk, hbranches, ne_eq]
    exact ⟨fun _ => h, by simp⟩
  have hnone : (if ev.matchType = .matchFixed then .matchNone else ev.matchType) =
      MatchType.matchNone := by
    have := h.running hbranches
    cases hm : ev.matchType <;> simp_all
  have hlang : ∀ s, L (data ++ s) ↔ (data = [] ∧ false = true ∧ s = []) ∨
      ∃ b ∈ ev.branches, Accepts items b (data ++ s) := by
    intro s
    rw [h.lang]
    simp [h.running hbranches, hdata]
  have hgood := h.good hbranches
  rcases hloop : chunkLoop items .matchNone data ev.branches false with ⟨bs, matchType, more⟩
  obtain ⟨hmore, hstop⟩ := chunkLoop_spec hgood h.shape hloop
  simp only [processNextChunk, if_neg hdata, if_neg hbranches, hnone, h.patternItems, hloop]
  refine ⟨fun hm => ?_, fun hm s => ?_⟩
  · obtain ⟨hshape, hany, hiff⟩ := hmore hm
    refine ⟨rfl, fun _ => hgood, hshape, fun _ => hany, fun s => ?_⟩
    rw [hlang, hiff]
    simp [hany]
  · rw [hlang, hstop hm, getResult, decide_eq_true_iff]

theorem feed_spec (h : Evaluates items ev L) (chunks : List (List α)) :
    getResult (feed ev chunks) = true ↔ L chunks.flatten := by
  induction chunks generalizing ev L with
  | nil => exact h.result
  | cons data chunks ih =>
    obtain ⟨hmore, hstop⟩ := processNextChunk_spec h data
    rw [feed, flatten_cons]
    cases hm : (processNextChunk ev data).1 with
    | true =>
      simp only [hm]
      exact ih (hmore hm)
    | false =>
      simp only [hm]
      exact hstop hm _

omit [DecidableEq α] in
theorem evaluates_reset (h : Ready items) :
    Evaluates items (reset items) (Like (tokens true items)) := by
  cases h with
  | @trivial item ht =>
    have hreset : reset [item] =
        ⟨[item], [], if item.matchAny then .matchAny else .matchFixed⟩ := by
      simp [reset, ht]
    rw [hreset]
    refine ⟨rfl, by simp, .none, by simp, fun s => ?_⟩
    have htoks : tokens true [item] = if item.matchAny then [.any] else [] := by
      simp [tokens, lead, PatternItem.tokens, ht]
    rw [htoks]
    cases item.matchAny with
    | true =>
      simp only [if_true, true_or, iff_true]
      exact ⟨s, [], by simp, rfl⟩
    | false => simp [Like]
  | items hne hcompiled hlinked =>
    have hgood : Good items := ⟨hcompiled, hlinked⟩
    cases items with
    | nil => exact absurd rfl hne
    | cons item rest =>
      have hnone : item.type ≠ .piNone := by
        intro ht
        rcases hgood.head.type with h | h | h <;> rw [ht] at h <;> cases h
      have hreset : reset (item :: rest) = ⟨item :: rest, [⟨0, 0⟩], .matchNone⟩ := by
        simp [reset, hnone]
      rw [hreset]
      refine ⟨rfl, fun _ => hgood, .single ⟨rfl, hgood.head.pos⟩, by simp, fun s => ?_⟩
      rw [← lang_start hgood hne]
      simp [Accepts]

/-- For every pattern and every escape setting, the constructor fails exactly for the patterns that
are not valid, and else the string that is fed in chunks matches if its result says so. -/
theorem likeEvaluator_correct (e : Settings α) (pattern : List α) :
    match parse e pattern with
    | none => likeEvaluator e pattern = none
    | some toks => ∃ ev, likeEvaluator e pattern = some ev ∧ ∀ chunks : List (List α),
        getResult (feed ev chunks) = true ↔ Like toks chunks.flatten := by
  have hspec := likeEvaluator_spec (e := e) pattern
  cases hparse : parse e pattern with
  | none =>
    rw [hparse] at hspec
    exact hspec
  | some toks =>
    rw [hparse] at hspec
    obtain ⟨items, hev, hready, hsame⟩ := hspec
    refine ⟨reset items, hev, fun chunks => ?_⟩
    rw [feed_spec (evaluates_reset hready)]
    exact hsame _

end

end Firebird.Jrd.Evl
