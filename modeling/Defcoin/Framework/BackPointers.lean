import Mathlib.Data.List.Basic

/-! # Vectors with back pointers

  A list in which every member knows its own position. A member is removed in constant time: it
  changes places with the last one, which is then dropped. The positions are a partial function on
  all possible members, so that they can live anywhere.
-/

namespace BackPointers

open Function List

universe u
variable {ι : Type u}

/-! ### Partial inverses -/

section Inverse
variable {κ : Type*} {f : κ → Option ι} {g : ι → Option κ} {k : κ} {i : ι}

/-- Two partial functions are inverse to each other. -/
def Inverse (f : κ → Option ι) (g : ι → Option κ) : Prop := ∀ k i, f k = some i ↔ g i = some k

variable [DecidableEq κ] [DecidableEq ι]

theorem Inverse.write (h : Inverse f g) (hk : ∀ i', i' ≠ i → f k ≠ some i') (hi : ∀ k', k' ≠ k → g i ≠ some k')
    (b : Bool) : Inverse (update f k (if b then some i else none)) (update g i (if b then some k else none)) := by
  intro k' i'
  by_cases hk' : k' = k
  · by_cases hi' : i' = i
    · cases b <;> simp [hk', hi']
    · rw [hk', update_of_ne hi']
      exact iff_of_false (by cases b <;> simp [Ne.symm hi']) fun hg => hk i' hi' ((h k i').mpr hg)
  · rw [update_of_ne hk', h k' i']
    by_cases hi' : i' = i
    · rw [hi']
      exact iff_of_false (hi k' hk') (by cases b <;> simp [Ne.symm hk'])
    · rw [update_of_ne hi']

theorem Inverse.erase (h : Inverse f g) (hk : f k = some i) : Inverse (update f k none) (update g i none) := by
  have hi := (h k i).mp hk
  exact h.write (by simpa [hk] using fun i' => Ne.symm) (by simpa [hi] using fun k' => Ne.symm) false

theorem Inverse.insert (h : Inverse f g) (hk : f k = none) (hi : g i = none) :
    Inverse (update f k (some i)) (update g i (some k)) :=
  h.write (by simp [hk]) (by simp [hi]) true

end Inverse

/-! ### Positions -/

/-- Members and positions tell the same. -/
def Indexed (v : List ι) (pos : ι → Option Nat) : Prop :=
  ∀ k i, v[k]? = some i ↔ pos i = some k

theorem Indexed.lt {v : List ι} {pos : ι → Option Nat} (h : Indexed v pos) {i : ι} {k : Nat}
    (hi : pos i = some k) : k < v.length := by
  have := (h k i).mpr hi
  exact (List.getElem?_eq_some_iff.mp this).1

/-- Exchange two members. -/
def swap (v : List ι) (k₁ k₂ : Nat) (i₁ i₂ : ι) : List ι := (v.set k₁ i₂).set k₂ i₁

variable [DecidableEq ι]

/-- The positions after two members were exchanged. -/
def swapPos (pos : ι → Option Nat) (k₁ k₂ : Nat) (i₁ i₂ : ι) : ι → Option Nat :=
  update (update pos i₁ (some k₂)) i₂ (some k₁)

variable {v : List ι} {pos : ι → Option Nat} (h : Indexed v pos)
include h

omit [DecidableEq ι] in
theorem Indexed.inverse : Inverse (fun k => v[k]?) pos := h

theorem Indexed.push {i : ι} (hi : pos i = none) :
    Indexed (v ++ [i]) (update pos i (some v.length)) := by
  intro k j
  rw [← h.inverse.insert (getElem?_eq_none (Nat.le_refl v.length)) hi]
  rcases Nat.lt_trichotomy k v.length with hlt | rfl | hgt
  · rw [update_of_ne (Nat.ne_of_lt hlt), getElem?_append_left hlt]
  · rw [update_self, getElem?_concat_length]
  · rw [update_of_ne (Nat.ne_of_gt hgt), getElem?_eq_none (by simp; omega),
      getElem?_eq_none (Nat.le_of_lt hgt)]

theorem Indexed.swap {k₁ k₂ : Nat} {i₁ i₂ : ι} (h₁ : pos i₁ = some k₁)
    (h₂ : pos i₂ = some k₂) (hne : k₁ ≠ k₂) : Indexed (swap v k₁ k₂ i₁ i₂) (swapPos pos k₁ k₂ i₁ i₂) := by
  have hdiff : i₁ ≠ i₂ := by
    rintro rfl
    rw [h₁] at h₂
    exact hne (Option.some.inj h₂)
  -- both pairs are taken out, and the new ones put in
  have hout := (h.inverse.erase ((h k₁ i₁).mpr h₁)).erase (by
    rw [update_of_ne hne.symm]
    exact (h k₂ i₂).mpr h₂)
  have hin := (hout.insert (k := k₁) (i := i₂) (by simp [hne]) (by simp)).insert (k := k₂) (i := i₁)
    (by simp [hne.symm]) (by simp [hdiff])
  intro k j
  convert hin k j using 2
  · simp only [BackPointers.swap, getElem?_set, length_set, h.lt h₁, h.lt h₂, update_apply]
    split_ifs <;> first | rfl | omega
  · simp only [swapPos, update_apply]
    split_ifs <;> simp_all

theorem Indexed.pop {i : ι} (hi : pos i = some (v.length - 1)) :
    Indexed v.dropLast (update pos i none) := by
  intro k j
  rw [← h.inverse.erase ((h _ i).mpr hi), getElem?_dropLast]
  split
  · next hk => rw [update_of_ne (Nat.ne_of_lt hk)]
  · by_cases hk : k = v.length - 1
    · rw [hk, update_self]
    · rw [update_of_ne hk, getElem?_eq_none (by omega)]

/-- **Removal**: the last member takes the place of the one removed. -/
theorem Indexed.remove {i last : ι} {k : Nat} (hi : pos i = some k)
    (hlast : v.getLast? = some last) (hk : k + 1 ≠ v.length) :
    Indexed (v.set k last).dropLast (update (update pos last (some k)) i none) := by
  have hlt := h.lt hi
  have hposlast : pos last = some (v.length - 1) := by
    rw [← h, ← hlast, getLast?_eq_getElem?]
  have hne : i ≠ last := by
    rintro rfl
    rw [hi] at hposlast
    have := Option.some.inj hposlast
    omega
  -- both pairs are taken out, and the last member is put in the free place
  have hout := (h.inverse.erase ((h k i).mpr hi)).erase (k := v.length - 1) (by
    rw [update_of_ne (by omega)]
    exact (h _ last).mpr hposlast)
  have hin := hout.insert (k := k) (by rw [update_of_ne (by omega), update_self]) (update_self ..)
  intro m j
  convert hin m j using 2
  · simp only [getElem?_dropLast, length_set, getElem?_set, update_apply]
    split_ifs <;> first | rfl | omega | exact (getElem?_eq_none (by omega)).symm
  · simp only [update_apply]
    split_ifs <;> simp_all

end BackPointers
