import Mathlib.Algebra.Group.Nat.Defs

/-! # Computations that ask for memory

  A computation that may fail keeps the size of the largest block of memory it has asked for. `Safe
  bound m Q` says that `m` does not fail, asks for at most `bound` at a time and returns something
  with `Q`; `Fails m` says that `m` fails. Both follow the structure of the computation.
-/

namespace Requests

/-- How a computation fails. -/
inductive Failure where
  /-- a container of more elements than there can be -/
  | lengthError
  /-- a block of memory that is not available -/
  | badAlloc
  /-- a failed assertion -/
  | assertion (expr : String)
  /-- an access outside a container -/
  | outOfBounds (what : String)
  deriving DecidableEq

/-- A computation, with the largest request so far as its state. -/
abbrev Alloc := StateT Nat (Except Failure)

/-- The most elements a vector of bytes can have. -/
def maxElements : Nat := 2 ^ 63 - 1

/-- Ask for `n` bytes, of which `available` can be had. -/
def request (available n : Nat) : Alloc Unit := fun largest =>
  if n > maxElements then .error .lengthError
  else if n > available then .error .badAlloc
  else .ok ((), max largest n)

/-- Fail unless `p` holds. -/
def insist (p : Prop) [Decidable p] (e : Failure) : Alloc Unit := fun largest =>
  if p then .ok ((), largest) else .error e

variable {α β : Type} {bound : Nat} {m : Alloc α} {f : α → Alloc β} {Q : α → Prop} {R : β → Prop}

/-! ### Safety -/

/-- `m` returns something with `Q`, and asks for at most `bound`. -/
def Safe (bound : Nat) (m : Alloc α) (Q : α → Prop) : Prop :=
  ∀ largest ≤ bound, ∃ a largest', m largest = .ok (a, largest') ∧ largest' ≤ bound ∧ Q a

theorem Safe.pure {a : α} (h : Q a) : Safe bound (Pure.pure a) Q := fun largest hle =>
  ⟨a, largest, rfl, hle, h⟩

theorem Safe.mono {Q' : α → Prop} (h : Safe bound m Q) (hQ : ∀ a, Q a → Q' a) : Safe bound m Q' := by
  intro largest hle
  obtain ⟨a, largest', hm, hle', ha⟩ := h largest hle
  exact ⟨a, largest', hm, hle', hQ a ha⟩

theorem Safe.bind (h : Safe bound m Q) (hf : ∀ a, Q a → Safe bound (f a) R) : Safe bound (m >>= f) R := by
  intro largest hle
  obtain ⟨a, largest', hm, hle', ha⟩ := h largest hle
  obtain ⟨b, largest'', hb, hle'', hR⟩ := hf a ha largest' hle'
  refine ⟨b, largest'', ?_, hle'', hR⟩
  show (m largest >>= fun p => f p.1 p.2) = _
  rw [hm]
  exact hb

/-- A bound that the allocator can serve. -/
structure Servable (available bound : Nat) : Prop where
  le_available : bound ≤ available
  available_le : available ≤ maxElements

theorem safe_request {available n : Nat} (hbound : Servable available bound) (hn : n ≤ bound) :
    Safe bound (request available n) fun _ => True := by
  obtain ⟨havailable, hmax⟩ := hbound
  intro largest hle
  refine ⟨(), max largest n, ?_, Nat.max_le.mpr ⟨hle, hn⟩, trivial⟩
  unfold request
  rw [if_neg (by omega), if_neg (by omega)]

theorem safe_insist {p : Prop} [Decidable p] {e : Failure} (h : p) : Safe bound (insist p e) fun _ => True := by
  intro largest hle
  exact ⟨(), largest, if_pos h, hle, trivial⟩

/-! ### Failure -/

/-- `m` fails, whatever was asked for before. -/
def Fails (m : Alloc α) : Prop := ∀ largest, ∃ e, m largest = .error e

theorem fails_insist {p : Prop} [Decidable p] {e : Failure} (h : ¬ p) : Fails (insist p e) := fun _ =>
  ⟨e, if_neg h⟩

theorem fails_bind (hf : ∀ largest a largest', m largest = .ok (a, largest') → Fails (f a)) :
    Fails (m >>= f) := by
  intro largest
  show ∃ e, (m largest >>= fun p => f p.1 p.2) = _
  cases hm : m largest with
  | error e => exact ⟨e, rfl⟩
  | ok p => exact hf largest p.1 p.2 hm p.2

theorem Fails.bind (h : Fails m) : Fails (m >>= f) := by
  apply fails_bind
  intro largest a largest' hm
  obtain ⟨e, he⟩ := h largest
  rw [hm] at he
  cases he

/-- `m` fails, unless more than `bound` was asked for before. -/
def FailsUpTo (bound : Nat) (m : Alloc α) : Prop := ∀ largest ≤ bound, ∃ e, m largest = .error e

theorem Fails.upTo (h : Fails m) : FailsUpTo bound m := fun largest _ => h largest

theorem Safe.bind_fails (h : Safe bound m Q) (hf : ∀ a, Q a → FailsUpTo bound (f a)) :
    FailsUpTo bound (m >>= f) := by
  intro largest hle
  obtain ⟨a, largest', hm, hle', ha⟩ := h largest hle
  obtain ⟨e, he⟩ := hf a ha largest' hle'
  refine ⟨e, ?_⟩
  show (m largest >>= fun p => f p.1 p.2) = _
  rw [hm]
  exact he

end Requests
