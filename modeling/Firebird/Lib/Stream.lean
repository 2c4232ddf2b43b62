import Mathlib.Data.List.Basic

/-!
# Predicates of strings that come in chunks

An evaluator takes a string chunk by chunk. With each chunk it says whether more data can change its
result, and it may be asked with an empty chunk.
-/
namespace Firebird.Lib.Stream

open List

variable {σ α : Type*} (next : σ → List α → Bool × σ) (result : σ → Bool)

def feed (s : σ) (chunks : List (List α)) : σ := chunks.foldl (fun s data => (next s data).2) s

/-- Whoever stops when an evaluator says so has the result for the whole text, which no further
chunk changes, and an empty chunk makes nobody go on in vain. -/
structure Stops (s : σ) (P : List α → Prop) : Prop where
  right (chunks : List (List α)) (data : List α) (further : List (List α)) :
    (next (feed next s chunks) data).1 = false →
    (result (next (feed next s chunks) data).2 = true ↔ P (chunks ++ data :: further).flatten) ∧
    result (feed next s (chunks ++ data :: further)) = result (next (feed next s chunks) data).2
  asks (chunks : List (List α)) : (next (feed next s chunks) []).1 = true →
    ∃ further, result (feed next s (chunks ++ [] :: further)) ≠ result (feed next s chunks)

/-- What holds after some text of an evaluator that is right at any time. -/
structure Tracks (I : List α → σ → Prop) (P : List α → Prop) : Prop where
  step {w : List α} {s : σ} (data : List α) : I w s → I (w ++ data) (next s data).2
  result {w : List α} {s : σ} : I w s → (result s = true ↔ P w)
  settles {w : List α} {s : σ} (data : List α) : I w s → (next s data).1 = false →
    ∀ t, P (w ++ data ++ t) ↔ P (w ++ data)
  asks {w : List α} {s : σ} : I w s → (next s []).1 = true → ∃ t, ¬(P (w ++ t) ↔ P w)

variable {next result} {I : List α → σ → Prop} {P : List α → Prop} {w : List α} {s : σ}

theorem Tracks.feed (h : Tracks next result I P) (hs : I w s) (chunks : List (List α)) :
    I (w ++ chunks.flatten) (feed next s chunks) := by
  induction chunks generalizing w s with
  | nil => simpa [Stream.feed] using hs
  | cons data chunks ih =>
    rw [flatten_cons, ← append_assoc]
    exact ih (h.step data hs)

theorem append_flatten_cons (chunks : List (List α)) (data : List α) (further : List (List α)) :
    (chunks ++ data :: further).flatten = chunks.flatten ++ data ++ further.flatten := by
  rw [flatten_append, flatten_cons, append_assoc]

theorem Tracks.stops (h : Tracks next result I P) (hs : I [] s) : Stops next result s P where
  right chunks data further hstop := by
    have hchunks := h.feed hs chunks
    have hall := h.feed hs (chunks ++ data :: further)
    rw [nil_append] at hchunks hall
    have hnow := h.result (h.step data hchunks)
    have hsettled := h.settles data hchunks hstop further.flatten
    rw [← append_flatten_cons] at hsettled
    refine ⟨hnow.trans hsettled.symm, ?_⟩
    rw [Bool.eq_iff_iff]
    exact (h.result hall).trans (hsettled.trans hnow.symm)
  asks chunks hmore := by
    have hnow := h.feed hs chunks
    rw [nil_append] at hnow
    obtain ⟨t, ht⟩ := h.asks hnow hmore
    have hthen := h.feed hs (chunks ++ [[], t])
    simp only [nil_append, flatten_append, flatten_cons, flatten_nil, append_nil] at hthen
    refine ⟨[t], fun heq => ht ?_⟩
    rw [← h.result hthen, ← h.result hnow, heq]

end Firebird.Lib.Stream
