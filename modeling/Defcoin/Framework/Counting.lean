import Mathlib.Data.Fintype.BigOperators
import Mathlib.Data.List.AList

/-! # Counting

  How many values of a finite map meet a condition, and how many slots of a table hold a value; and
  how writing one entry changes that.
-/

namespace Counting

open Finset List AList Function

/-! ### Values of a finite map -/

section Map
variable {α β : Type*} [DecidableEq α]

/-- The number of values that meet `p`. -/
def count (p : β → Bool) (m : AList fun _ : α => β) : Nat := m.entries.countP fun e => p e.2

/-- One for a value that counts. -/
def tally (p : β → Bool) (v : β) : Nat := if p v then 1 else 0

variable {p : β → Bool} {m : AList fun _ : α => β}

theorem count_erase {k : α} {v : β} (h : m.lookup k = some v) :
    count p m = count p (m.erase k) + tally p v := by
  have hmem : k ∈ m.entries.keys := mem_keys.mp (lookup_isSome.mp (by rw [h]; rfl))
  obtain ⟨b, _, _, hnot, hsplit, hrest⟩ := exists_of_kerase hmem
  have hb : b = v := by
    have hlook : m.entries.dlookup k = some v := h
    rw [hsplit, dlookup_append, dlookup_eq_none.mpr hnot, dlookup_cons_eq] at hlook
    exact Option.some.inj hlook
  subst hb
  show m.entries.countP _ = (m.entries.kerase k).countP _ + _
  rw [hrest, hsplit, countP_append, countP_append, countP_cons]
  show _ + (_ + tally p b) = _
  omega

theorem count_erase_of_none {k : α} (h : m.lookup k = none) : count p (m.erase k) = count p m := by
  have hnot : k ∉ m.entries.keys := fun hmem => lookup_eq_none.mp h (mem_keys.mpr hmem)
  show (m.entries.kerase k).countP _ = _
  rw [kerase_of_notMem_keys hnot]
  rfl

/-- **Writing** an entry counts the new value instead of the old one. -/
theorem count_insert (k : α) (v : β) (m : AList fun _ : α => β) :
    count p (m.insert k v) = count p (m.erase k) + tally p v := by
  show (insert k v m).entries.countP _ = (m.entries.kerase k).countP _ + _
  rw [entries_insert, countP_cons]
  rfl

theorem count_insert_new {k : α} (h : m.lookup k = none) (v : β) :
    count p (m.insert k v) = count p m + tally p v := by
  rw [count_insert, count_erase_of_none h]

theorem count_insert_old {k : α} {old : β} (h : m.lookup k = some old) (v : β) :
    count p (m.insert k v) + tally p old = count p m + tally p v := by
  rw [count_insert, count_erase h]
  omega

theorem count_insert_same {k : α} {old v : β} (h : m.lookup k = some old) (hv : p v = p old) :
    count p (m.insert k v) = count p m := by
  have := count_insert_old (p := p) h v
  rw [tally, tally, hv] at this
  omega

end Map

/-! ### Slots of a table -/

section Table
variable {σ α : Type*} [Fintype σ] [DecidableEq α]

/-- The number of slots that hold `a`. -/
def refs (f : σ → α) (a : α) : Nat := (Finset.univ.filter fun x => f x = a).card

variable {x : σ} {a : α} {f : σ → α}

theorem refs_pos (h : f x = a) : 0 < refs f a :=
  card_pos.mpr ⟨x, mem_filter.mpr ⟨mem_univ x, h⟩⟩

theorem exists_of_refs_pos (h : 0 < refs f a) : ∃ x, f x = a := by
  obtain ⟨x, hx⟩ := card_pos.mp h
  exact ⟨x, (mem_filter.mp hx).2⟩

theorem refs_congr {g : σ → α} (h : ∀ x, f x = a ↔ g x = a) : refs f a = refs g a := by
  unfold refs
  simp only [h]

omit [Fintype σ] [DecidableEq α] in
theorem update_eq_iff [DecidableEq σ] {b : α} (hold : f x ≠ a) (hnew : b ≠ a) (y : σ) :
    update f x b y = a ↔ f y = a := by
  by_cases hy : y = x
  · rw [hy, update_self]
    exact iff_of_false hnew hold
  · rw [update_of_ne hy]

/-- **Writing** a slot counts for the new value instead of the old one. -/
theorem refs_update [DecidableEq σ] (f : σ → α) (x : σ) (b a : α) :
    refs (update f x b) a + (if f x = a then 1 else 0) = refs f a + (if b = a then 1 else 0) := by
  unfold refs
  rw [card_filter, card_filter,
    ← add_sum_erase univ (fun y => if update f x b y = a then 1 else 0)
      (mem_univ x),
    ← add_sum_erase univ (fun y => if f y = a then 1 else 0) (mem_univ x)]
  have hothers : ∑ y ∈ univ.erase x, (if update f x b y = a then 1 else 0) =
      ∑ y ∈ univ.erase x, if f y = a then 1 else 0 := by
    apply sum_congr rfl
    intro y hy
    rw [update_of_ne (ne_of_mem_erase hy)]
  simp only [update_self]
  omega

end Table

end Counting
