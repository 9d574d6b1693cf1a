import Mathlib.Data.Nat.Basic

/-! # Forests with parent pointers

  Every node knows its parent and its height. A branch is what is seen on the way up from a node:
  one ancestor at every height below it.
-/

universe u

/-- Nodes with parents; roots have height zero. -/
structure Forest (ι : Type u) where
  parent : ι → Option ι
  height : ι → Nat
  height_root : ∀ p, parent p = none → height p = 0
  height_child : ∀ p q, parent p = some q → height p = height q + 1

namespace Forest

variable {ι : Type u} (F : Forest ι)

/-- The node `n` steps above. -/
def up : Nat → ι → Option ι
  | 0, p => some p
  | n + 1, p => (F.parent p).bind (up n)

/-- The ancestor at a height; a node is its own. -/
def ancestor (p : ι) (h : Nat) : Option ι :=
  if h ≤ F.height p then F.up (F.height p - h) p else none

variable {F} {p q : ι}

theorem exists_up {n : Nat} (h : n ≤ F.height p) : ∃ q, F.up n p = some q ∧ F.height q + n = F.height p := by
  induction n generalizing p with
  | zero => exact ⟨p, rfl, rfl⟩
  | succ n ih =>
    cases hp : F.parent p with
    | none =>
      have := F.height_root p hp
      omega
    | some r =>
      have hr := F.height_child p r hp
      obtain ⟨q, hq, hheight⟩ := ih (p := r) (by omega)
      exact ⟨q, by rw [up, hp]; exact hq, by omega⟩

theorem exists_ancestor {h : Nat} (hle : h ≤ F.height p) : ∃ q, F.ancestor p h = some q ∧ F.height q = h := by
  obtain ⟨q, hq, hheight⟩ := exists_up (F := F) (p := p) (n := F.height p - h) (by omega)
  exact ⟨q, by rw [ancestor, if_pos hle, hq], by omega⟩

theorem height_of_ancestor {h : Nat} (hq : F.ancestor p h = some q) : F.height q = h ∧ h ≤ F.height p := by
  by_cases hle : h ≤ F.height p
  · obtain ⟨_, hq', hheight⟩ := exists_ancestor hle
    rw [hq'] at hq
    cases hq
    exact ⟨hheight, hle⟩
  · rw [ancestor, if_neg hle] at hq
    cases hq

theorem ancestor_eq_none {h : Nat} (hlt : F.height p < h) : F.ancestor p h = none := by
  rw [ancestor, if_neg (by omega)]

@[simp] theorem ancestor_self (p : ι) : F.ancestor p (F.height p) = some p := by
  rw [ancestor, if_pos (Nat.le_refl _), Nat.sub_self]
  rfl

theorem ancestor_of_height {h : Nat} (hp : F.height p = h) : F.ancestor p h = some p := by
  rw [← hp, ancestor_self]

theorem ancestor_parent (hp : F.parent p = some q) {h : Nat} (hlt : h < F.height p) :
    F.ancestor p h = F.ancestor q h := by
  have hq := F.height_child p q hp
  obtain ⟨n, hn⟩ : ∃ n, F.height p - h = n + 1 := ⟨F.height p - h - 1, by omega⟩
  have hn' : F.height q - h = n := by omega
  rw [ancestor, ancestor, if_pos (by omega), if_pos (by omega), hn, hn', up, hp]
  rfl

/-- One step up at a time: what holds of an ancestor and goes from parents to children. -/
theorem ancestor_induction {P : ι → Prop} {h : Nat} (hq : F.ancestor p h = some q) (hself : P q)
    (hstep : ∀ p r, F.parent p = some r → h < F.height p → P r → P p) : P p := by
  obtain ⟨hheight, hbelow⟩ := height_of_ancestor hq
  obtain ⟨n, hn⟩ : ∃ n, F.height p = h + n := ⟨F.height p - h, by omega⟩
  induction n generalizing p with
  | zero =>
    rw [ancestor_of_height (by omega)] at hq
    cases hq
    exact hself
  | succ n ih =>
    cases hp : F.parent p with
    | none =>
      have := F.height_root p hp
      omega
    | some r =>
      have hr := F.height_child p r hp
      rw [ancestor_parent hp (by omega)] at hq
      exact hstep p r hp (by omega) (ih hq (by omega) (by omega))

theorem ancestor_trans {h h' : Nat} (hq : F.ancestor p h = some q) (hle : h' ≤ h) :
    F.ancestor q h' = F.ancestor p h' := by
  apply ancestor_induction (P := fun p => F.ancestor q h' = F.ancestor p h') hq rfl
  intro p r hp hlt ih
  rw [ih, ancestor_parent hp (by omega)]

/-- **Branch rule**: a reflexive and transitive relation that every child has to its parent, every
    node has to its ancestors. -/
theorem branch_rule {R : ι → ι → Prop} (hrefl : ∀ p, R p p) (htrans : ∀ p q r, R p q → R q r → R p r)
    (hchild : ∀ p q, F.parent p = some q → R q p) {h : Nat} (hq : F.ancestor p h = some q) :
    R q p :=
  ancestor_induction hq (hrefl q) fun p r hp _ ih => htrans _ _ _ ih (hchild p r hp)

end Forest
