import Mathlib.Data.List.Forall2

/-! # Fallible steps

  Rules for `Except`: inversion, and total correctness.
-/

namespace Outcome

open List

variable {ε α β : Type} {f : α → Except ε β} {b : β} {x : Except ε α}

theorem bind_eq_ok : (x >>= f) = .ok b ↔ ∃ a, x = .ok a ∧ f a = .ok b := by
  cases x with
  | error e => exact iff_of_false nofun fun h => nomatch h.choose_spec.1
  | ok a =>
    constructor
    · intro h
      exact ⟨a, rfl, h⟩
    · rintro ⟨a', h, hf⟩
      cases h
      exact hf

theorem unless_eq_ok {p : Prop} [Decidable p] {e : ε} {k : PUnit → Except ε β} {x : Except ε β} :
    (if p then (throw e >>= k) else x) = .ok b ↔ ¬p ∧ x = .ok b := by
  by_cases hp : p
  · rw [if_pos hp]
    exact iff_of_false nofun fun h => h.1 hp
  · rw [if_neg hp]
    exact ⟨fun h => ⟨hp, h⟩, fun h => h.2⟩

theorem exists_of_isOk (h : x.isOk = true) : ∃ a, x = .ok a := by
  cases x with
  | error e => cases h
  | ok a => exact ⟨a, rfl⟩

theorem map_eq_ok {f : α → β} : x.map f = .ok b ↔ ∃ a, x = .ok a ∧ f a = b := by
  cases x with
  | error e => exact iff_of_false nofun fun h => nomatch h.choose_spec.1
  | ok a =>
    constructor
    · intro h
      exact ⟨a, rfl, Except.ok.inj h⟩
    · rintro ⟨a', ha', rfl⟩
      cases ha'
      rfl

theorem mapError_eq_ok {ε' : Type} {f : ε → ε'} {a : α} : x.mapError f = .ok a ↔ x = .ok a := by
  cases x with
  | error e => exact iff_of_false nofun nofun
  | ok b => rw [Except.mapError, Except.ok.injEq, Except.ok.injEq]

theorem andM_eq_ok_true {x y : Except ε Bool} :
    (x <&&> y) = .ok true ↔ x = .ok true ∧ y = .ok true := by
  rcases x with _ | b
  · exact iff_of_false nofun fun h => nomatch h.1
  · rcases b with - | -
    · exact iff_of_false nofun fun h => nomatch h.1
    · exact ⟨fun h => ⟨rfl, h⟩, fun h => h.2⟩

theorem mapM_eq_ok {l : List α} {r : List β} :
    l.mapM f = .ok r ↔ Forall₂ (fun a b => f a = .ok b) l r := by
  induction l generalizing r with
  | nil =>
    constructor
    · intro h
      cases h
      exact .nil
    · intro h
      cases h
      rfl
  | cons a l ih =>
    rw [mapM_cons, bind_eq_ok]
    constructor
    · intro h
      obtain ⟨b, hb, h⟩ := h
      obtain ⟨_, hbs, h⟩ := bind_eq_ok.mp h
      cases h
      exact .cons hb (ih.mp hbs)
    · intro h
      cases h with
      | cons hb hbs => exact ⟨_, hb, bind_eq_ok.mpr ⟨_, ih.mpr hbs, rfl⟩⟩

/-! ### Errors that cannot happen -/

/-- The computation does not end in the error `e`. -/
def Avoids (e : ε) (x : Except ε α) : Prop := x ≠ .error e

namespace Avoids
variable {e : ε}

theorem ok (a : α) : Avoids e (.ok a) := nofun

theorem error {e' : ε} (h : e' ≠ e) : Avoids e (.error e' : Except ε α) := by
  intro heq
  exact h (Except.error.inj heq)

theorem bind {x : Except ε α} {f : α → Except ε β} (hx : Avoids e x)
    (hf : ∀ a, x = .ok a → Avoids e (f a)) : Avoids e (x >>= f) := by
  cases x with
  | error e' =>
    intro h
    exact hx (congrArg Except.error (Except.error.inj h))
  | ok a => exact hf a rfl

theorem ite {p : Prop} [Decidable p] {x y : Except ε α} (hx : p → Avoids e x) (hy : ¬p → Avoids e y) :
    Avoids e (if p then x else y) := by
  by_cases hp : p
  · rw [if_pos hp]
    exact hx hp
  · rw [if_neg hp]
    exact hy hp

theorem unless_throw {p : Prop} [Decidable p] {e' : ε} {k : PUnit → Except ε β} {x : Except ε β}
    (h : e' ≠ e) (hx : ¬p → Avoids e x) : Avoids e (if p then (throw e' >>= k) else x) :=
  ite (fun _ => error h) hx

theorem mapError {ε' : Type} {f : ε → ε'} {e' : ε'} {x : Except ε α} (hf : ∀ d, f d = e' → d = e)
    (hx : Avoids e x) : Avoids e' (x.mapError f) := by
  cases x with
  | ok a => exact ok a
  | error d =>
    intro h
    apply hx
    exact congrArg Except.error (hf d (Except.error.inj h))

end Avoids

/-! ### Partial correctness -/

/-- The computation succeeds with a result that meets `Q`, or fails with an error that meets `E`. -/
def Ends (E : ε → Prop) (Q : α → Prop) : Except ε α → Prop
  | .ok a => Q a
  | .error e => E e

theorem Ends.bind {E : ε → Prop} {Q : α → Prop} {R : β → Prop} (hx : Ends E Q x)
    (hf : ∀ a, Q a → Ends E R (f a)) : Ends E R (x >>= f) := by
  cases x with
  | error e => exact hx
  | ok a => exact hf a hx

theorem Ends.bind_of_eq {E : ε → Prop} {R : β → Prop} {a : α} (hx : x = .ok a) (hf : Ends E R (f a)) :
    Ends E R (x >>= f) := by
  subst hx
  exact hf

theorem Ends.map {E : ε → Prop} {Q : α → Prop} {R : β → Prop} {f : α → β} (hx : Ends E Q x)
    (hf : ∀ a, Q a → R (f a)) : Ends E R (x.map f) := by
  cases x with
  | error e => exact hx
  | ok a => exact hf a hx

/-! ### Total correctness -/

/-- The computation succeeds, with a result that meets `Q`. -/
def Succeeds (x : Except ε α) (Q : α → Prop) : Prop := ∃ a, x = .ok a ∧ Q a

namespace Succeeds
variable {Q : α → Prop} {R : β → Prop} {l : List α} {a : α} {f : α → Except ε β} {x : Except ε α}

theorem ok (h : Q a) : Succeeds (.ok a : Except ε α) Q := ⟨a, rfl, h⟩

theorem ends {E : ε → Prop} (hx : Succeeds x Q) : Ends E Q x := by
  obtain ⟨a, rfl, hq⟩ := hx
  exact hq

theorem of_ends {E : ε → Prop} (hx : Ends E Q x) (hE : ∀ e, ¬ E e) : Succeeds x Q := by
  cases x with
  | error e => exact absurd hx (hE e)
  | ok a => exact ⟨a, rfl, hx⟩

theorem mono {Q' : α → Prop} (hx : Succeeds x Q) (h : ∀ a, Q a → Q' a) : Succeeds x Q' := by
  obtain ⟨a, ha, hq⟩ := hx
  exact ⟨a, ha, h a hq⟩

/-- **Composition**: the rest succeeds from every result of the first step. -/
theorem bind (hx : Succeeds x Q) (hf : ∀ a, Q a → Succeeds (f a) R) : Succeeds (x >>= f) R := by
  obtain ⟨a, rfl, hq⟩ := hx
  exact hf a hq

theorem bind_of_eq (hx : x = .ok a) (hf : Succeeds (f a) R) : Succeeds (x >>= f) R := by
  subst hx
  exact hf

theorem map {f : α → β} (hx : Succeeds x Q) (hf : ∀ a, Q a → R (f a)) : Succeeds (x.map f) R := by
  obtain ⟨a, rfl, hq⟩ := hx
  exact ⟨f a, rfl, hf a hq⟩

/-- **Loops**: the invariant speaks about the members that are done with. -/
theorem foldlM {σ : Type} {f : σ → α → Except ε σ} (Inv : List α → σ → Prop) {s : σ} (hinit : Inv [] s)
    (hstep : ∀ done a rest s, done ++ a :: rest = l → Inv done s → Succeeds (f s a) (Inv (done ++ [a]))) :
    Succeeds (l.foldlM f s) (Inv l) := by
  -- the members still to come are a rest of `l`
  suffices hrest : ∀ rest done s, done ++ rest = l → Inv done s → Succeeds (rest.foldlM f s) (Inv l) from
    hrest l [] s rfl hinit
  intro rest
  induction rest with
  | nil =>
    intro done s hl hinv
    rw [append_nil] at hl
    subst hl
    exact ok hinv
  | cons a rest ih =>
    intro done s hl hinv
    apply bind (hstep done a rest s hl hinv)
    intro s' hinv'
    apply ih (done ++ [a]) s' _ hinv'
    rw [append_assoc]
    exact hl

theorem foldlM_nodup {σ : Type} {f : σ → α → Except ε σ} (Inv : List α → σ → Prop) {s : σ} (hnodup : l.Nodup)
    (hinit : Inv [] s)
    (hstep : ∀ done a s, a ∈ l → a ∉ done → Inv done s → Succeeds (f s a) (Inv (done ++ [a]))) :
    Succeeds (l.foldlM f s) (Inv l) := by
  apply foldlM Inv hinit
  intro done a rest s hl hinv
  rw [← hl] at hnodup
  apply hstep done a s _ _ hinv
  · rw [← hl]
    exact mem_append_right _ mem_cons_self
  · intro hdone
    exact (nodup_append.mp hnodup).2.2 a hdone a mem_cons_self rfl

theorem of_singleton {σ : Type} {f : σ → α → Except ε σ} {s : σ} {Q : σ → Prop}
    (h : Succeeds ([a].foldlM f s) Q) : Succeeds (f s a) Q := by
  simpa using h

end Succeeds

end Outcome
