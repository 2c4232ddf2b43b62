import Firebird.Jrd.EvlCompile

/-!
# Matching a string with LIKE

A branch of the evaluator stands for the strings that may still follow. One character takes the
branches to branches for the rest of these strings, so that at the end of all chunks the evaluator
knows whether the string matches.
-/
namespace Firebird.Jrd.Evl

open Lib Kmp List

variable {α : Type} {items rest σ : List (PatternItem α)} {item next : PatternItem α}
variable {p : List (Token α)} {s t a : List α} {c : α} {o : Nat}

/-! ## What a branch accepts -/

def cont (item : PatternItem α) (rest : List (PatternItem α)) : List (Token α) :=
  (if item.matchAny then [.any] else []) ++ rest.flatMap (·.tokens)

def PatternItem.tokensFrom (item : PatternItem α) (o : Nat) : List (Token α) :=
  if item.type = .piDirectMatch then (item.data.drop o).map .lit
  else List.replicate (item.length - o) .one

/-- The strings that match from an offset in the first item on. -/
def Lang : List (PatternItem α) → Nat → List α → Prop
  | [], _, _ => False
  | item :: rest, o, s =>
    if item.type = .piSearch then
      ∃ t, Occ item.data (item.data.take o) s t ∧ Like (cont item rest) t
    else Like (item.tokensFrom o ++ cont item rest) s

structure Good (items : List (PatternItem α)) : Prop where
  compiled : ∀ i ∈ items, Compiled i
  linked : Linked items

theorem Good.tail (h : Good (item :: rest)) : Good rest :=
  ⟨fun i hi => h.compiled i (mem_cons_of_mem _ hi), h.linked.tail⟩

theorem Good.head (h : Good (item :: rest)) : Compiled item := h.compiled item (by simp)

theorem Good.link (h : Good (item :: next :: rest)) :
    item.matchAny = true ↔ next.type = .piSearch :=
  (isChain_cons_cons.1 h.linked).1

theorem Good.drop (h : Good items) (n : Nat) : Good (items.drop n) :=
  ⟨fun i hi => h.compiled i (mem_of_mem_drop hi), h.linked.drop n⟩

theorem like_any_append (h : Like (.any :: p) t) (a : List α) : Like (.any :: p) (a ++ t) := by
  obtain ⟨b, t, rfl, ht⟩ := h
  exact ⟨a ++ b, t, by simp, ht⟩

theorem tokens_search (hsearch : item.type = .piSearch) :
    (item :: rest).flatMap (·.tokens) = item.data.map .lit ++ cont item rest := by
  simp [PatternItem.tokens, hsearch, cont]

theorem tokens_of_not_search (hitem : Compiled item) (hsearch : item.type ≠ .piSearch) :
    (item :: rest).flatMap (·.tokens) = item.tokensFrom 0 ++ cont item rest := by
  rcases hitem.type with ht | ht | ht
  · exact absurd ht hsearch
  · simp [PatternItem.tokens, PatternItem.tokensFrom, ht, cont]
  · simp [PatternItem.tokens, PatternItem.tokensFrom, ht, cont]

theorem lang_zero_search (hitem : Compiled item) (hsearch : item.type = .piSearch) :
    Lang (item :: rest) 0 s ↔ Like (.any :: (item :: rest).flatMap (·.tokens)) s := by
  have hne : item.data ≠ [] := by
    intro hnil
    have hlen := hitem.data (by simp [hsearch])
    have hpos := hitem.pos
    rw [hnil] at hlen
    simp at hlen
    omega
  rw [tokens_search hsearch]
  simp only [Lang, if_pos hsearch, Like, like_append, like_lits]
  constructor
  · rintro ⟨t, ⟨_, -, rfl, a, rfl⟩, hcont⟩
    exact ⟨a, item.data ++ t, by simp, item.data, t, rfl, rfl, hcont⟩
  · rintro ⟨a, _, rfl, _, t, rfl, rfl, hcont⟩
    exact ⟨t, ⟨a ++ item.data, by simp [hne], by simp, a, by simp⟩, hcont⟩

theorem lang_zero_of_not_search (hitem : Compiled item) (hsearch : item.type ≠ .piSearch) :
    Lang (item :: rest) 0 s ↔ Like ((item :: rest).flatMap (·.tokens)) s := by
  rw [tokens_of_not_search hitem hsearch]
  simp [Lang, if_neg hsearch]

theorem like_cont (h : Good (item :: next :: rest)) :
    Like (cont item (next :: rest)) s ↔ Lang (next :: rest) 0 s := by
  have hnext := h.tail.head
  by_cases hsearch : next.type = .piSearch
  · rw [lang_zero_search hnext hsearch, cont, if_pos (h.link.2 hsearch), singleton_append]
  · rw [lang_zero_of_not_search hnext hsearch, cont, if_neg (fun hm => hsearch (h.link.1 hm)),
      nil_append]

theorem like_cont_nil (hany : item.matchAny = false) : Like (cont item []) s ↔ s = [] := by
  simp [cont, hany, Like]

theorem like_cont_any (hany : item.matchAny = true) : Like (cont item []) s := by
  simp only [cont, hany]
  exact ⟨s, [], by simp, rfl⟩

theorem lang_start (h : Good items) (hne : items ≠ []) :
    Lang items 0 s ↔ Like (tokens true items) s := by
  cases items with
  | nil => exact absurd rfl hne
  | cons item rest =>
    by_cases hsearch : item.type = .piSearch
    · rw [lang_zero_search h.head hsearch, tokens, lead, if_pos hsearch, singleton_append]
    · rw [lang_zero_of_not_search h.head hsearch, tokens, lead, if_neg hsearch, nil_append]

theorem lang_direct (hitem : Compiled item) (ht : item.type = .piDirectMatch)
    (ho : o < item.length) :
    Lang (item :: rest) o (c :: s) ↔ item.data[o]? = some c ∧
      Like (item.tokensFrom (o + 1) ++ cont item rest) s := by
  have hlt : o < item.data.length := by rwa [hitem.data (by simp [ht])]
  simp only [Lang, ht, PatternItem.tokensFrom, if_true]
  rw [drop_eq_getElem_cons hlt, getElem?_eq_getElem hlt]
  simp only [map_cons, cons_append, Like, List.cons.injEq, Option.some.injEq]
  constructor
  · rintro ⟨t, ⟨rfl, rfl⟩, h⟩
    exact ⟨rfl, h⟩
  · rintro ⟨rfl, h⟩
    exact ⟨s, ⟨rfl, rfl⟩, h⟩

theorem lang_skip (ht : item.type = .piSkipFixed) (ho : o < item.length) :
    Lang (item :: rest) o (c :: s) ↔ Like (item.tokensFrom (o + 1) ++ cont item rest) s := by
  simp only [Lang, ht, PatternItem.tokensFrom, reduceCtorEq, if_false]
  rw [show item.length - o = item.length - (o + 1) + 1 by omega, replicate_succ]
  simp only [cons_append, Like, List.cons.injEq]
  constructor
  · rintro ⟨_, t, ⟨rfl, rfl⟩, h⟩
    exact h
  · intro h
    exact ⟨c, s, ⟨rfl, rfl⟩, h⟩

theorem like_tokensFrom (hitem : Compiled item) (hsearch : item.type ≠ .piSearch) :
    Like (item.tokensFrom o ++ cont item rest) s ↔
      if o ≥ item.length then Like (cont item rest) s else Lang (item :: rest) o s := by
  split_ifs with ho
  · have hnil : item.tokensFrom o = [] := by
      rw [PatternItem.tokensFrom]
      split_ifs with ht
      · rw [drop_eq_nil_of_le (by rw [hitem.data (by simp [ht])]; exact ho), map_nil]
      · rw [Nat.sub_eq_zero_of_le ho, replicate_zero]
    rw [hnil, nil_append]
  · simp [Lang, if_neg hsearch]

section Search

variable [DecidableEq α]

def searchOffset (item : PatternItem α) (c : α) (o : Nat) : Nat :=
  advance (fall item.data item.kmpNext c (item.length + 1) (some o))

def backOffset (item : PatternItem α) (o : Nat) : Nat := (item.kmpNext.getD o none).getD 0

theorem searchOffset_spec (hitem : Compiled item) (hsearch : item.type = .piSearch)
    (ho : o < item.length) (c : α) :
    Greatest (fun k => k < item.data.length + 1 ∧ Ends item.data (item.data.take o ++ [c]) k)
      (some (searchOffset item c o)) := by
  have hlen := hitem.data (by simp [hsearch])
  refine advance_spec (Nat.le_refl _) (fall_spec (hitem.table hsearch).strong ?_ ?_ ?_)
  · intro j hj
    obtain rfl : o = j := by simpa using hj
    exact ⟨by omega, by omega, suffix_refl _⟩
  · rintro k ⟨hk, hends, -⟩
    refine ⟨o, rfl, ?_⟩
    have hle := hends.length_le
    rw [length_take, length_take] at hle
    omega
  · intro j hj
    obtain rfl : o = j := by simpa using hj
    omega

theorem lang_search_lt (hitem : Compiled item) (hsearch : item.type = .piSearch)
    (ho : o < item.length) (hlt : searchOffset item c o < item.length) :
    Lang (item :: rest) o (c :: s) ↔ Lang (item :: rest) (searchOffset item c o) s := by
  have hlen := hitem.data (by simp [hsearch])
  obtain ⟨⟨-, hends⟩, hgreat⟩ := searchOffset_spec hitem hsearch ho c
  have hnot : ¬item.data <:+ item.data.take o ++ [c] := by
    intro hfull
    have hle := hgreat item.data.length ⟨Nat.lt_succ_self _, by rwa [Ends, take_length]⟩
    omega
  have hocc : ∀ b, Occ item.data (item.data.take (searchOffset item c o)) s b ↔
      Occ item.data (item.data.take o ++ [c]) s b := by
    intro b
    refine occ_take_iff ⟨⟨by omega, hends⟩, ?_⟩
    rintro k ⟨hk, hk'⟩
    exact hgreat k ⟨by omega, hk'⟩
  simp [Lang, if_pos hsearch, hocc, occ_cons, hnot]

theorem lang_search_ge (hitem : Compiled item) (hsearch : item.type = .piSearch)
    (ho : o < item.length) (hge : searchOffset item c o ≥ item.length) :
    backOffset item (searchOffset item c o) < item.length ∧
      (Lang (item :: rest) o (c :: s) ↔ Like (cont item rest) s ∨
        Lang (item :: rest) (backOffset item (searchOffset item c o)) s) := by
  have hlen := hitem.data (by simp [hsearch])
  obtain ⟨⟨hlt, hends⟩, -⟩ := searchOffset_spec hitem hsearch ho c
  have hj : searchOffset item c o = item.data.length := by omega
  rw [hj] at hends ⊢
  rw [Ends, take_length] at hends
  -- As the offset was in the string, nothing else was read.
  have hall : item.data.take o ++ [c] = item.data := by
    refine (hends.eq_of_length_le ?_).symm
    rw [length_append, length_take, length_singleton]
    omega
  have hwhole := (hitem.table hsearch).whole
  cases hback : item.kmpNext.getD item.data.length none with
  | none =>
    rw [hback] at hwhole
    exact absurd ⟨by have := hitem.pos; omega, ends_zero⟩ (hwhole 0)
  | some back =>
    rw [hback] at hwhole
    have hb : backOffset item item.data.length = back := by rw [backOffset, hback]; rfl
    rw [hb]
    refine ⟨by rw [← hlen]; exact hwhole.1.1, ?_⟩
    have hocc : ∀ b, Occ item.data (item.data.take back) s b ↔ Occ item.data item.data s b :=
      fun b => occ_take_iff hwhole
    simp only [Lang, if_pos hsearch, hocc, occ_cons, hall, suffix_refl, and_true]
    constructor
    · rintro ⟨t, rfl | hlater, hcont⟩
      · exact .inl hcont
      · exact .inr ⟨t, hlater, hcont⟩
    · rintro (hcont | ⟨t, hlater, hcont⟩)
      · exact ⟨s, .inl rfl, hcont⟩
      · exact ⟨t, .inr hlater, hcont⟩

end Search

/-- The items behind the next `%`. -/
def behindAny : List (PatternItem α) → Option (List (PatternItem α))
  | [] => none
  | item :: rest => if item.matchAny then some rest else behindAny rest

theorem behindAny_cons_of_any (h : item.matchAny = true) :
    behindAny (item :: rest) = some rest := by
  simp [behindAny, h]

theorem behindAny_cons_of_not (h : item.matchAny = false) :
    behindAny (item :: rest) = behindAny rest := by
  simp [behindAny, h]

theorem tokens_behindAny (h : behindAny items = some σ) :
    ∃ front, items.flatMap (·.tokens) = front ++ .any :: σ.flatMap (·.tokens) := by
  induction items with
  | nil => cases h
  | cons item rest ih =>
    cases hany : item.matchAny with
    | true =>
      rw [behindAny_cons_of_any hany] at h
      cases h
      rw [flatMap_cons, PatternItem.tokens, if_pos hany, append_assoc]
      exact ⟨_, rfl⟩
    | false =>
      rw [behindAny_cons_of_not hany] at h
      obtain ⟨front, hfront⟩ := ih h
      rw [flatMap_cons, hfront, ← append_assoc]
      exact ⟨_, rfl⟩

theorem Lang.split (h : Lang (item :: rest) o s) (hitem : Compiled item) (ho : o < item.length) :
    ∃ a t, a ≠ [] ∧ s = a ++ t ∧ Like (cont item rest) t := by
  rw [Lang] at h
  split_ifs at h with hsearch
  · obtain ⟨t, ⟨a, hne, heq, -⟩, hcont⟩ := h
    exact ⟨a, t, hne, heq, hcont⟩
  · obtain ⟨a, t, heq, hfrom, hcont⟩ := like_append.1 h
    refine ⟨a, t, ?_, heq, hcont⟩
    rintro rfl
    rw [PatternItem.tokensFrom] at hfrom
    split_ifs at hfrom with ht
    · have hlen := hitem.data (by simp [ht])
      rw [like_lits] at hfrom
      have hle := drop_eq_nil_iff.1 hfrom.symm
      omega
    · rw [like_ones, length_nil] at hfrom
      omega

theorem Lang.behindAny (h : Lang items o s) (hgood : Good items)
    (ho : ∀ item ∈ items.head?, o < item.length) (hany : behindAny items = some σ) :
    ∃ a t, a ≠ [] ∧ s = a ++ t ∧ Like (.any :: σ.flatMap (·.tokens)) t := by
  cases items with
  | nil => exact absurd h id
  | cons item rest =>
    obtain ⟨a, t, hne, heq, hcont⟩ := h.split hgood.head (ho item rfl)
    cases hm : item.matchAny with
    | true =>
      rw [behindAny_cons_of_any hm] at hany
      cases hany
      rw [cont, if_pos hm, singleton_append] at hcont
      exact ⟨a, t, hne, heq, hcont⟩
    | false =>
      rw [behindAny_cons_of_not hm] at hany
      obtain ⟨front, hfront⟩ := tokens_behindAny hany
      rw [cont, hm, if_neg Bool.false_ne_true, nil_append, hfront] at hcont
      obtain ⟨b, t, rfl, -, ht⟩ := like_append.1 hcont
      exact ⟨a ++ b, t, by simp [hne], by rw [heq, append_assoc], ht⟩

section Branches

variable (items)

structure At (b : BranchItem) (item : PatternItem α) (rest : List (PatternItem α)) : Prop where
  drop : items.drop b.pattern = item :: rest
  offset : b.offset < item.length

def Accepts (b : BranchItem) (s : List α) : Prop := Lang (items.drop b.pattern) b.offset s

/-- A branch in an item that is not searched for; `σ` is behind its next `%`. -/
def Walks (σ : Option (List (PatternItem α))) (b : BranchItem) : Prop :=
  ∃ item rest, At items b item rest ∧ item.type ≠ .piSearch ∧ behindAny (item :: rest) = σ

def Searches (σ : Option (List (PatternItem α))) (b : BranchItem) : Prop :=
  ∃ item rest, At items b item rest ∧ item.type = .piSearch ∧ item.matchAny = false ∧
    behindAny (item :: rest) = σ

/-- The branches at any time: none, a single one, or one that searches with those that it has
begun. -/
inductive Shape : List BranchItem → Prop
  | none : Shape []
  | single {b : BranchItem} {item : PatternItem α} {rest : List (PatternItem α)} :
      At items b item rest → Shape [b]
  | many {σ : Option (List (PatternItem α))} {b : BranchItem} {bs : List BranchItem} :
      Searches items σ b → (∀ b' ∈ bs, Walks items σ b') → Shape (b :: bs)

end Branches

variable {b : BranchItem} {bs done todo : List BranchItem} {τ : Option (List (PatternItem α))}

theorem At.getElem? (h : At items b item rest) : items[b.pattern]? = some item := by
  rw [← head?_drop, h.drop, head?_cons]

theorem At.drop_succ (h : At items b item rest) : items.drop (b.pattern + 1) = rest := by
  rw [← tail_drop, h.drop, tail_cons]

theorem At.next? (h : At items b item rest) : items[b.pattern + 1]? = rest.head? := by
  rw [← head?_drop, h.drop_succ]

theorem At.length_le (h : At items b item rest) : b.pattern + 1 ≥ items.length ↔ rest = [] := by
  rw [← h.drop_succ, drop_eq_nil_iff]

theorem At.good (h : At items b item rest) (hgood : Good items) : Good (item :: rest) :=
  h.drop ▸ hgood.drop _

theorem At.accepts (h : At items b item rest) :
    Accepts items b s ↔ Lang (item :: rest) b.offset s := by
  rw [Accepts, h.drop]

theorem At.step (h : At items b item (next :: rest)) (hgood : Good items) :
    At items ⟨b.pattern + 1, 0⟩ next rest :=
  ⟨h.drop_succ, (h.good hgood).tail.head.pos⟩

theorem At.move (h : At items b item rest) {o : Nat} (ho : o < item.length) :
    At items ⟨b.pattern, o⟩ item rest :=
  ⟨h.drop, ho⟩

theorem At.not_accepts_nil (h : At items b item rest) (hgood : Good items) :
    ¬Accepts items b [] := by
  intro hacc
  rw [h.accepts] at hacc
  obtain ⟨a, t, hne, heq, -⟩ := hacc.split (h.good hgood).head h.offset
  exact hne (append_eq_nil_iff.1 heq.symm).1

theorem Shape.not_accepts_nil (h : Shape items bs) (hgood : Good items) :
    ¬∃ b ∈ bs, Accepts items b [] := by
  rintro ⟨b, hb, hacc⟩
  cases h with
  | none => simp at hb
  | single hat =>
    obtain rfl := mem_singleton.1 hb
    exact hat.not_accepts_nil hgood hacc
  | many hsearch hwalk =>
    rcases mem_cons.1 hb with rfl | hb
    · obtain ⟨item, rest, hat, -⟩ := hsearch
      exact hat.not_accepts_nil hgood hacc
    · obtain ⟨item, rest, hat, -⟩ := hwalk b hb
      exact hat.not_accepts_nil hgood hacc

theorem At.subsumed (h : At items b item rest) (hgood : Good items)
    (hσ : behindAny (item :: rest) = some σ) (hacc : Accepts items b s) :
    ∃ a t, a ≠ [] ∧ s = a ++ t ∧ Like (.any :: σ.flatMap (·.tokens)) t := by
  rw [h.accepts] at hacc
  refine hacc.behindAny (h.good hgood) ?_ hσ
  intro i hi
  obtain rfl : item = i := by simpa using hi
  exact h.offset

end Firebird.Jrd.Evl
