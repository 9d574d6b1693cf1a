import Mathlib.Logic.Basic

/-! # Changes that stay when a computation fails

  An exception does not undo the assignments made before it. An `Effect` ends with a result or an
  error and, either way, with the state reached by then.
-/

/-- A computation on states `σ` with errors `ε`. -/
def Effect (σ ε α : Type) : Type := σ → Except ε α × σ

namespace Effect

variable {σ ε α β γ : Type}

instance : Monad (Effect σ ε) where
  pure a := fun s => (.ok a, s)
  bind x f := fun s =>
    match x s with
    | (.ok a, s') => f a s'
    | (.error e, s') => (.error e, s')

/-- Compute from the state, without changing it. -/
def look (f : σ → Except ε α) : Effect σ ε α := fun s => (f s, s)

/-- Read from the state. -/
def get (f : σ → α) : Effect σ ε α := look fun s => .ok (f s)

/-- Change the state. -/
def update (f : σ → σ) : Effect σ ε Unit := fun s => (.ok (), f s)

/-- Fail. -/
def fail (e : ε) : Effect σ ε α := look fun _ => .error e

/-- Fail if `b` holds. -/
def failIf (b : Bool) (e : ε) : Effect σ ε Unit := look fun _ => if b then .error e else .ok ()

/-! ### Success -/

variable {u : Unit} {s s' : σ} {e : ε} {a : α} {x : Effect σ ε α}

theorem bind_of_ok (h : x s = (.ok a, s')) (f : α → Effect σ ε β) : (x >>= f) s = f a s' := by
  show (match x s with | (.ok a, s') => f a s' | (.error e, s') => (.error e, s')) = _
  rw [h]

theorem bind_of_error (h : x s = (.error e, s')) (f : α → Effect σ ε β) : (x >>= f) s = (.error e, s') := by
  show (match x s with | (.ok a, s') => f a s' | (.error e, s') => (.error e, s')) = _
  rw [h]

theorem bind_eq_ok {f : α → Effect σ ε β} {s'' : σ} {b : β} :
    (x >>= f) s = (.ok b, s'') ↔ ∃ a s', x s = (.ok a, s') ∧ f a s' = (.ok b, s'') := by
  constructor
  · intro h
    cases hx : x s with
    | mk r s' =>
      cases r with
      | error e =>
        rw [bind_of_error hx] at h
        cases h
      | ok a =>
        rw [bind_of_ok hx] at h
        exact ⟨a, s', rfl, h⟩
  · rintro ⟨a, s', hx, hf⟩
    rw [bind_of_ok hx]
    exact hf

theorem pure_eq_ok {b : α} : (pure a : Effect σ ε α) s = (.ok b, s') ↔ a = b ∧ s = s' := by
  show ((.ok a : Except ε α), s) = _ ↔ _
  simp

theorem look_eq_ok {f : σ → Except ε α} : look f s = (.ok a, s') ↔ f s = .ok a ∧ s = s' := by
  simp [look]

theorem get_eq_ok {f : σ → α} : (get f : Effect σ ε α) s = (.ok a, s') ↔ f s = a ∧ s = s' := by
  simp [get, look]

theorem update_eq_ok {f : σ → σ} : (update f : Effect σ ε Unit) s = (.ok u, s') ↔ f s = s' := by
  simp [update]

theorem failIf_eq_ok {b : Bool} : failIf b e s = (.ok u, s') ↔ b = false ∧ s = s' := by
  cases b <;> simp [failIf, look]

theorem fail_ne_ok : fail e s ≠ (.ok a, s') := by
  simp [fail, look]

/-! ### Frames -/

/-- However it ends, `x` keeps `view`. -/
def Keeps (view : σ → γ) (x : Effect σ ε α) : Prop := ∀ s, view (x s).2 = view s

namespace Keeps

variable {view : σ → γ}

theorem pure (a : α) : Keeps view (Pure.pure a : Effect σ ε α) := fun _ => rfl

theorem bind {x : Effect σ ε α} {f : α → Effect σ ε β} (hx : Keeps view x)
    (hf : ∀ a, Keeps view (f a)) : Keeps view (x >>= f) := by
  intro s
  have hs := hx s
  cases hrun : x s with
  | mk r s' =>
    rw [hrun] at hs
    cases r with
    | error e =>
      rw [bind_of_error hrun]
      exact hs
    | ok a =>
      rw [bind_of_ok hrun]
      exact (hf a s').trans hs

theorem look (f : σ → Except ε α) : Keeps view (look f) := fun _ => rfl

theorem update {f : σ → σ} (hf : ∀ s, view (f s) = view s) :
    Keeps view (update f : Effect σ ε Unit) := hf

end Keeps

end Effect
