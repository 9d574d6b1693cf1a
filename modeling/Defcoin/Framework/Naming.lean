import Mathlib.Algebra.BigOperators.Group.List.Basic

/-! # Names of group elements

  A library that computes in a group passes elements around as strings of bytes. Some strings name
  no element, but every element has exactly one name. Adding up a list of names fails as soon as one
  of them is no name.
-/

/-- Every element of `P` has exactly one name in `C`; the other members of `C` are no names. -/
structure Naming (C P : Type*) where
  decode : C → Option P
  encode : P → C
  decode_eq_some : ∀ {c : C} {p : P}, decode c = some p ↔ c = encode p

namespace Naming

open Option

variable {C P : Type*} (N : Naming C P)

@[simp] theorem decode_encode (p : P) : N.decode (N.encode p) = some p := N.decode_eq_some.mpr rfl

theorem encode_injective : Function.Injective N.encode := by
  intro p q h
  have hp := N.decode_encode p
  rw [h, N.decode_encode] at hp
  exact (some.inj hp).symm

variable [AddCommGroup P]

/-- The sum of the elements that a list names. -/
def total : List C → Option P
  | [] => some 0
  | c :: cs => do
    let p ← N.decode c
    let q ← total cs
    pure (p + q)

@[simp] theorem total_nil : N.total [] = some 0 := rfl

theorem total_cons_eq_some {c : C} {cs : List C} {t : P} :
    N.total (c :: cs) = some t ↔ ∃ p q, N.decode c = some p ∧ N.total cs = some q ∧ t = p + q := by
  rw [total]
  constructor
  · intro h
    obtain ⟨p, hp, h⟩ := bind_eq_some_iff.mp h
    obtain ⟨q, hq, h⟩ := bind_eq_some_iff.mp h
    exact ⟨p, q, hp, hq, (some.inj h).symm⟩
  · intro h
    obtain ⟨p, q, hp, hq, ht⟩ := h
    rw [hp, hq, ht]
    rfl

@[simp] theorem total_singleton (c : C) : N.total [c] = N.decode c := by
  ext t
  rw [total_cons_eq_some]
  constructor
  · intro h
    obtain ⟨p, q, hp, hq, ht⟩ := h
    obtain rfl : 0 = q := some.inj hq
    rw [hp, ht, add_zero]
  · intro h
    exact ⟨t, 0, h, rfl, (add_zero t).symm⟩

theorem total_append_eq_some {cs ds : List C} {t : P} :
    N.total (cs ++ ds) = some t ↔ ∃ p q, N.total cs = some p ∧ N.total ds = some q ∧ t = p + q := by
  induction cs generalizing t with
  | nil =>
    constructor
    · intro h
      exact ⟨0, t, rfl, h, (zero_add t).symm⟩
    · intro h
      obtain ⟨p, q, hp, hq, ht⟩ := h
      obtain rfl : 0 = p := some.inj hp
      rw [List.nil_append, hq, ht, zero_add]
  | cons c cs ih =>
    rw [List.cons_append, total_cons_eq_some]
    constructor
    · intro h
      obtain ⟨p, q, hp, hq, rfl⟩ := h
      obtain ⟨q₁, q₂, hq₁, hq₂, rfl⟩ := ih.mp hq
      exact ⟨p + q₁, q₂, N.total_cons_eq_some.mpr ⟨p, q₁, hp, hq₁, rfl⟩, hq₂, (add_assoc ..).symm⟩
    · intro h
      obtain ⟨p, q, hp, hq, rfl⟩ := h
      obtain ⟨p₁, p₂, hp₁, hp₂, rfl⟩ := N.total_cons_eq_some.mp hp
      exact ⟨p₁, p₂ + q, hp₁, ih.mpr ⟨p₂, q, hp₂, hq, rfl⟩, add_assoc ..⟩

theorem total_map_encode (ps : List P) : N.total (ps.map N.encode) = some ps.sum := by
  induction ps with
  | nil => rfl
  | cons p ps ih => exact N.total_cons_eq_some.mpr ⟨p, ps.sum, N.decode_encode p, ih, List.sum_cons⟩

theorem total_perm {cs ds : List C} (h : cs.Perm ds) : N.total cs = N.total ds := by
  induction h with
  | nil => rfl
  | cons c _ ih => rw [total, total, ih]
  | swap c d cs =>
    have hswap : ∀ c d t, N.total (c :: d :: cs) = some t → N.total (d :: c :: cs) = some t := by
      intro c d t h
      obtain ⟨p, q, hp, hq, rfl⟩ := N.total_cons_eq_some.mp h
      obtain ⟨q₁, q₂, hq₁, hq₂, rfl⟩ := N.total_cons_eq_some.mp hq
      exact N.total_cons_eq_some.mpr ⟨q₁, p + q₂, hq₁,
        N.total_cons_eq_some.mpr ⟨p, q₂, hp, hq₂, rfl⟩, add_left_comm ..⟩
    ext t
    exact ⟨hswap d c t, hswap c d t⟩
  | trans _ _ ih₁ ih₂ => exact ih₁.trans ih₂

theorem total_filter {keep : C → Bool} (hkeep : ∀ c, keep c = false → N.decode c = some 0)
    (cs : List C) : N.total (cs.filter keep) = N.total cs := by
  induction cs with
  | nil => rfl
  | cons c cs ih =>
    rcases hc : keep c with - | -
    · rw [List.filter_cons_of_neg (by simp [hc]), ih, total, hkeep c hc]
      rcases N.total cs with - | t
      · rfl
      · exact congrArg some (zero_add t).symm
    · rw [List.filter_cons_of_pos hc, total, ih, total]

end Naming
