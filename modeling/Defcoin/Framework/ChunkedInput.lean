import Mathlib.Data.List.Basic

/-! # Input that arrives in chunks

  A reader is called with one chunk after the other. In each round it absorbs a prefix of what is
  left of its chunk, as long as it likes, or gives up for good. Its specification is a machine that
  takes one item at a time.
-/

namespace ChunkedInput

open List

universe u v w
variable {σ : Type u} {τ : Type v} {β : Type w}

/-- Absorb a whole chunk, round by round. The flag tells whether the reader wants more; no result
    means that the rounds did not come to an end. -/
def drain (round : σ → List β → σ × Option Nat) : Nat → σ → List β → Option (σ × Bool)
  | _, s, [] => some (s, true)
  | 0, _, _ :: _ => none
  | fuel + 1, s, b :: rest =>
    match round s (b :: rest) with
    | (s', none) => some (s', false)
    | (s', some n) => drain round fuel s' ((b :: rest).drop n)

theorem drain_keeps {ρ : Type*} {round : σ → List β → σ × Option Nat} {f : σ → ρ}
    (h : ∀ s input, f (round s input).1 = f s) {fuel : Nat} {s s' : σ} {input : List β} {more : Bool}
    (hdrain : drain round fuel s input = some (s', more)) : f s' = f s := by
  induction fuel generalizing s input with
  | zero =>
    cases input with
    | nil =>
      cases hdrain
      rfl
    | cons b rest => cases hdrain
  | succ fuel ih =>
    cases input with
    | nil =>
      cases hdrain
      rfl
    | cons b rest =>
      have hround := h s (b :: rest)
      rw [drain] at hdrain
      split at hdrain
      · next heq =>
        cases hdrain
        rwa [heq] at hround
      · next heq =>
        rw [heq] at hround
        exact (ih hdrain).trans hround

/-- Absorb chunk after chunk, until the reader gives up. -/
def drainAll (round : σ → List β → σ × Option Nat) (s : σ) : List (List β) → Option (σ × Bool)
  | [] => some (s, true)
  | chunk :: chunks =>
    (drain round chunk.length s chunk).bind fun (s', more) =>
      if more then drainAll round s' chunks else some (s', false)

/-- How rounds of a reader follow the steps of a machine: `Open` relates states while the reader
    wants more, `Closed` once it gave up. -/
structure Follows (round : σ → List β → σ × Option Nat) (step : τ → β → τ) (Open Closed : σ → τ → Prop) :
    Prop where
  round : ∀ s t input, Open s t → input ≠ [] →
    (∃ s' n, round s input = (s', some n) ∧ 0 < n ∧ Open s' ((input.take n).foldl step t)) ∨
      ∃ s', round s input = (s', none) ∧ Closed s' (input.foldl step t)
  closed : ∀ s t b, Closed s t → Closed s (step t b)

section Rules
variable {round : σ → List β → σ × Option Nat} {step : τ → β → τ} {Open Closed : σ → τ → Prop}

/-- The states are related as the flag says. -/
def Related (Open Closed : σ → τ → Prop) (more : Bool) (s : σ) (t : τ) : Prop :=
  if more then Open s t else Closed s t

section
variable (h : Follows round step Open Closed)
include h

theorem Follows.closed_foldl {s : σ} {t : τ} (hst : Closed s t) (input : List β) :
    Closed s (input.foldl step t) := by
  induction input generalizing t with
  | nil => exact hst
  | cons b input ih => exact ih (h.closed s t b hst)

/-- **One chunk**: the rounds come to an end where the machine does. -/
theorem Follows.drain :
    ∀ (fuel : Nat) (s : σ) (t : τ) (input : List β), input.length ≤ fuel → Open s t →
      ∃ s' more, drain round fuel s input = some (s', more) ∧
        Related Open Closed more s' (input.foldl step t) := by
  intro fuel
  induction fuel with
  | zero =>
    intro s t input hfuel hst
    obtain rfl : input = [] := eq_nil_of_length_eq_zero (by omega)
    exact ⟨s, true, rfl, hst⟩
  | succ fuel ih =>
    intro s t input hfuel hst
    rcases input with _ | ⟨b, rest⟩
    · exact ⟨s, true, rfl, hst⟩
    · rw [ChunkedInput.drain]
      rcases h.round s t (b :: rest) hst (cons_ne_nil _ _) with
        ⟨s', n, hround, hpos, hst'⟩ | ⟨s', hround, hst'⟩
      · have hlen : ((b :: rest).drop n).length ≤ fuel := by
          rw [length_drop]
          omega
        obtain ⟨s'', more, hdrain, hrel⟩ := ih s' _ _ hlen hst'
        rw [hround]
        refine ⟨s'', more, hdrain, ?_⟩
        -- the rounds split the chunk, the machine does not notice
        rwa [← foldl_append, take_append_drop] at hrel
      · rw [hround]
        exact ⟨s', false, rfl, hst'⟩

/-- **All chunks**: only the whole input matters. -/
theorem Follows.drainAll (chunks : List (List β)) {s : σ} {t : τ} (hst : Open s t) :
    ∃ s' more, drainAll round s chunks = some (s', more) ∧
      Related Open Closed more s' (chunks.flatten.foldl step t) := by
  induction chunks generalizing s t with
  | nil => exact ⟨s, true, rfl, hst⟩
  | cons chunk chunks ih =>
    obtain ⟨s', more, hdrain, hrel⟩ := h.drain chunk.length s t chunk (Nat.le_refl _) hst
    rw [ChunkedInput.drainAll, hdrain, flatten_cons, foldl_append]
    rcases more with _ | _
    · exact ⟨s', false, rfl, h.closed_foldl hrel _⟩
    · exact ih hrel

end

end Rules

end ChunkedInput
