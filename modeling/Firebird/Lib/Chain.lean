import Mathlib.Data.List.Basic

/-!
# Chains of cells

A chain starts at a head and goes on from cell to cell. A link is the one of the head or the one of
a cell, and the last link holds a value that is no cell.
-/
namespace Firebird.Lib.Chain

open List

variable {ι : Type*} {null : ι} {link link' : Option ι → ι}

def Linked (null : ι) (link : Option ι → ι) : Option ι → List ι → Prop
  | p, [] => link p = null
  | p, o :: os => link p = o ∧ o ≠ null ∧ Linked null link (some o) os

def Path (null : ι) (link : Option ι → ι) : Option ι → List ι → Prop
  | _, [] => True
  | p, o :: os => link p = o ∧ o ≠ null ∧ Path null link (some o) os

def lastLink : Option ι → List ι → Option ι
  | p, [] => p
  | _, o :: os => lastLink (some o) os

variable {p : Option ι}

theorem linked_append {as bs : List ι} :
    Linked null link p (as ++ bs) ↔ Path null link p as ∧ Linked null link (lastLink p as) bs := by
  induction as generalizing p with
  | nil => exact ⟨fun h => ⟨trivial, h⟩, fun h => h.2⟩
  | cons a as ih =>
    simp only [cons_append, Linked, Path, ih]
    tauto

theorem lastLink_append (p : Option ι) (as : List ι) (a : ι) : lastLink p (as ++ [a]) = some a := by
  induction as generalizing p with
  | nil => rfl
  | cons b as ih => exact ih (some b)

theorem lastLink_mem {as : List ι} :
    lastLink p as = p ∧ as = [] ∨ ∃ a ∈ as, lastLink p as = some a := by
  induction as generalizing p with
  | nil => exact .inl ⟨rfl, rfl⟩
  | cons b as ih =>
    obtain ⟨h, rfl⟩ | ⟨a, ha, h⟩ := @ih (some b)
    · exact .inr ⟨b, mem_cons_self, h⟩
    · exact .inr ⟨a, mem_cons_of_mem b ha, h⟩

theorem Linked.link_mem {os : List ι} (h : Linked null link p os) :
    link p = null ∨ link p ∈ os := by
  cases os with
  | nil => exact .inl h
  | cons o os => exact .inr (h.1 ▸ mem_cons_self)

theorem Linked.congr {os : List ι} (h : Linked null link p os)
    (hp : link' p = link p)
    (hos : ∀ o ∈ os, link' (some o) = link (some o)) : Linked null link' p os := by
  induction os generalizing p with
  | nil => exact hp.trans h
  | cons o os ih =>
    exact ⟨hp.trans h.1, h.2.1, ih h.2.2 (hos o mem_cons_self) fun a ha =>
      hos a (mem_cons_of_mem o ha)⟩

theorem Path.congr {as : List ι} (h : Path null link p as) (hnd : as.Nodup)
    (hp : ∀ a ∈ as, p ≠ some a)
    (hlink : ∀ q, (q = p ∨ ∃ a ∈ as, q = some a) → q ≠ lastLink p as → link' q = link q) :
    Path null link' p as := by
  induction as generalizing p with
  | nil => trivial
  | cons a as ih =>
    obtain ⟨ha, hnd⟩ := nodup_cons.1 hnd
    refine ⟨(hlink p (.inl rfl) ?_).trans h.1, h.2.1, ih h.2.2 hnd ?_ fun q hq hne => hlink q ?_
      hne⟩
    · obtain ⟨heq, -⟩ | ⟨b, hb, heq⟩ := @lastLink_mem _ (some a) as
      · exact fun h' => hp a mem_cons_self (h'.trans heq)
      · exact fun h' => hp b (mem_cons_of_mem a hb) (h'.trans heq)
    · rintro b hb ⟨⟩
      exact ha hb
    · obtain rfl | ⟨b, hb, rfl⟩ := hq
      · exact .inr ⟨a, mem_cons_self, rfl⟩
      · exact .inr ⟨b, mem_cons_of_mem a hb, rfl⟩

theorem lastLink_ne {as bs : List ι} (hnd : (as ++ bs).Nodup) :
    ∀ b ∈ bs, some b ≠ lastLink none as := by
  intro b hb heq
  obtain ⟨h', -⟩ | ⟨a, ha, h'⟩ := @lastLink_mem _ none as
  · exact nomatch heq.trans h'
  · cases heq.trans h'
    exact (nodup_append.1 hnd).2.2 b ha b hb rfl

theorem Linked.insert {as bs : List ι} {o : ι} (h : Linked null link none (as ++ bs))
    (hnd : (as ++ bs).Nodup) (ho : o ∉ as ++ bs) (hne : o ≠ null)
    (hself : link' (some o) = link (lastLink none as)) (hlast : link' (lastLink none as) = o)
    (hlink : ∀ q, q ≠ some o → q ≠ lastLink none as → link' q = link q) :
    Linked null link' none (as ++ o :: bs) := by
  obtain ⟨hpath, hrest⟩ := linked_append.1 h
  rw [mem_append, not_or] at ho
  refine linked_append.2 ⟨hpath.congr (nodup_append.1 hnd).1 (fun _ _ h => nomatch h) ?_,
    hlast, hne, ?_⟩
  · rintro q (rfl | ⟨a, ha, rfl⟩) hq
    · exact hlink none (fun h => nomatch h) hq
    · exact hlink (some a) (fun h => ho.1 (by cases h; exact ha)) hq
  · cases bs with
    | nil => exact hself.trans hrest
    | cons b bs =>
      have hother : ∀ a ∈ b :: bs, link' (some a) = link (some a) := fun a ha =>
        hlink _ (fun h => ho.2 (by cases h; exact ha)) (lastLink_ne hnd a ha)
      exact ⟨hself.trans hrest.1, hrest.2.1, hrest.2.2.congr (hother b mem_cons_self)
        fun a ha => hother a (mem_cons_of_mem b ha)⟩

theorem Linked.remove {as bs : List ι} {o : ι} (h : Linked null link none (as ++ o :: bs))
    (hnd : (as ++ o :: bs).Nodup) (hlast : link' (lastLink none as) = link (some o))
    (hlink : ∀ q, q ≠ some o → q ≠ lastLink none as → link' q = link q) :
    Linked null link' none (as ++ bs) := by
  obtain ⟨hpath, -, -, hrest⟩ := linked_append.1 h
  obtain ⟨hnda, hndb, hdisj⟩ := nodup_append.1 hnd
  refine linked_append.2 ⟨hpath.congr hnda (fun _ _ h => nomatch h) ?_, ?_⟩
  · rintro q (rfl | ⟨a, ha, rfl⟩) hq
    · exact hlink none (fun h => nomatch h) hq
    · refine hlink (some a) (fun h => ?_) hq
      cases h
      exact hdisj _ ha _ mem_cons_self rfl
  · have hother : ∀ a ∈ bs, link' (some a) = link (some a) := fun a ha =>
      hlink _ (fun h => (nodup_cons.1 hndb).1 (by cases h; exact ha))
        (lastLink_ne hnd a (mem_cons_of_mem o ha))
    cases bs with
    | nil => exact hlast.trans hrest
    | cons b bs =>
      exact ⟨hlast.trans hrest.1, hrest.2.1, hrest.2.2.congr (hother b mem_cons_self)
        fun a ha => hother a (mem_cons_of_mem b ha)⟩

end Firebird.Lib.Chain
