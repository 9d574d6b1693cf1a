import Defcoin.Framework.FiniteMap
import Mathlib.Algebra.Order.BigOperators.Group.Finset

/-! # Sums over finite maps

  The sum of a quantity over the entries of a finite map. A sum depends only on what the map holds
  at each key, so sums of different maps are compared key by key, whatever the order of their
  entries is.
-/

namespace FiniteMap

open Finset

variable {α β γ δ : Type*}

/-- What `g` gives for the entry of a key, and 0 without an entry. -/
def weight (g : α → β → Int) (k : α) : Option β → Int
  | some v => g k v
  | none => 0

@[simp] theorem weight_some (g : α → β → Int) (k : α) (v : β) : weight g k (some v) = g k v := rfl

@[simp] theorem weight_none (g : α → β → Int) (k : α) : weight g k none = 0 := rfl

variable [DecidableEq α]

/-- The sum of `g` over the entries of a finite map. -/
def total (g : α → β → Int) (m : AList (fun _ : α => β)) : Int :=
  ∑ k ∈ m.keys.toFinset, weight g k (m.lookup k)

variable (g : α → β → Int) {m : AList (fun _ : α => β)}

theorem total_eq_sum {S : Finset α} (hS : m.keys.toFinset ⊆ S) :
    total g m = ∑ k ∈ S, weight g k (m.lookup k) := by
  apply sum_subset hS
  intro k _ hk
  have hnone : m.lookup k = none := by
    rw [AList.lookup_eq_none, AList.mem_keys]
    simpa using hk
  rw [hnone, weight_none]

@[simp] theorem total_empty (g : α → β → Int) : total g (∅ : AList (fun _ : α => β)) = 0 := by
  simp [total]

theorem total_congr {g : α → β → Int} {g' : α → γ → Int} {m' : AList (fun _ : α => γ)}
    (h : ∀ k, weight g k (m.lookup k) = weight g' k (m'.lookup k)) : total g m = total g' m' := by
  have hsub : m.keys.toFinset ⊆ m.keys.toFinset ∪ m'.keys.toFinset := subset_union_left
  have hsub' : m'.keys.toFinset ⊆ m.keys.toFinset ∪ m'.keys.toFinset := subset_union_right
  rw [total_eq_sum g hsub, total_eq_sum g' hsub']
  exact sum_congr rfl fun k _ => h k

/-- If at every key one map weighs at most what two others do, its sum is at most theirs. -/
theorem total_le_add {g : α → β → Int} {g₁ : α → γ → Int} {g₂ : α → δ → Int} {m₁ : AList (fun _ : α => γ)}
    {m₂ : AList (fun _ : α => δ)}
    (h : ∀ k, weight g k (m.lookup k) ≤ weight g₁ k (m₁.lookup k) + weight g₂ k (m₂.lookup k)) :
    total g m ≤ total g₁ m₁ + total g₂ m₂ := by
  have hsub : m.keys.toFinset ⊆ m.keys.toFinset ∪ (m₁.keys.toFinset ∪ m₂.keys.toFinset) :=
    subset_union_left
  have hsub₁ : m₁.keys.toFinset ⊆ m.keys.toFinset ∪ (m₁.keys.toFinset ∪ m₂.keys.toFinset) :=
    subset_union_left.trans subset_union_right
  have hsub₂ : m₂.keys.toFinset ⊆ m.keys.toFinset ∪ (m₁.keys.toFinset ∪ m₂.keys.toFinset) :=
    subset_union_right.trans subset_union_right
  rw [total_eq_sum g hsub, total_eq_sum g₁ hsub₁, total_eq_sum g₂ hsub₂, ← sum_add_distrib]
  exact sum_le_sum fun k _ => h k

theorem total_put (m : AList (fun _ : α => β)) (k : α) (r : Option β) :
    total g (put m k r) = total g m - weight g k (m.lookup k) + weight g k r := by
  have hsub : m.keys.toFinset ⊆ insert k (m.keys.toFinset ∪ (put m k r).keys.toFinset) :=
    subset_union_left.trans (subset_insert _ _)
  have hsub' : (put m k r).keys.toFinset ⊆ insert k (m.keys.toFinset ∪ (put m k r).keys.toFinset) :=
    subset_union_right.trans (subset_insert _ _)
  have hmem : k ∈ insert k (m.keys.toFinset ∪ (put m k r).keys.toFinset) := mem_insert_self _ _
  rw [total_eq_sum g hsub, total_eq_sum g hsub', ← add_sum_erase _ _ hmem,
    ← add_sum_erase _ _ hmem, lookup_put_self]
  -- away from `k` nothing has changed
  have hrest : ∀ S : Finset α, ∑ x ∈ S.erase k, weight g x ((put m k r).lookup x) =
      ∑ x ∈ S.erase k, weight g x (m.lookup x) := by
    intro S
    apply sum_congr rfl
    intro x hx
    rw [lookup_put_ne m (ne_of_mem_erase hx)]
  rw [hrest]
  omega

end FiniteMap
