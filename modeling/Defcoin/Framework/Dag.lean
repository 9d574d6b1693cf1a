import Mathlib.Algebra.BigOperators.Pi

/-! # Ancestors in a changing graph

  A relation links elements, and its transitive closure says which are ancestors of which.
-/

universe u v

namespace Dag

open Relation Finset TransGen

variable {α : Type u} {L : α → α → Prop}

/-- No element is its own ancestor. -/
def Acyclic (L : α → α → Prop) : Prop := ∀ a, ¬ TransGen L a a

/-! ### Taking elements out -/

/-- The links between elements that are kept. -/
def Within (keep : α → Prop) (L : α → α → Prop) (a b : α) : Prop := L a b ∧ keep a ∧ keep b

theorem transGen_of_within {keep : α → Prop} {a b : α} (h : TransGen (Within keep L) a b) :
    TransGen L a b :=
  mono (fun _ _ hstep => hstep.1) _ _ h

theorem Acyclic.within (h : Acyclic L) (keep : α → Prop) : Acyclic (Within keep L) :=
  fun a hcycle => h a (transGen_of_within hcycle)

/-- If no path between elements that are kept leads through one that is not, then taking the others
    out keeps the ancestors. -/
theorem transGen_within_iff {keep : α → Prop}
    (hthrough : ∀ a r b, keep a → ¬ keep r → keep b → TransGen L a r → ¬ TransGen L r b) {a b : α}
    (ha : keep a) (hb : keep b) : TransGen (Within keep L) a b ↔ TransGen L a b := by
  constructor
  · exact transGen_of_within
  · intro h
    induction h with
    | single hstep => exact .single ⟨hstep, ha, hb⟩
    | @tail r b hpath hstep ih =>
      by_cases hr : keep r
      · exact (ih hr).tail ⟨hstep, hr, hb⟩
      · exact absurd (single hstep) (hthrough a r b ha hr hb hpath)

/-! ### Adding an element -/

/-- A new element `n` below those in `P`. -/
def WithChild (n : α) (P : α → Prop) (L : α → α → Prop) (a b : α) : Prop := L a b ∨ (b = n ∧ P a)

section WithChild
variable {n : α} {P : α → Prop}

theorem transGen_withChild_iff (hchild : ∀ b, ¬ L n b) (hself : ¬ P n) {a b : α} :
    TransGen (WithChild n P L) a b ↔ TransGen L a b ∨ (b = n ∧ ∃ x, P x ∧ ReflTransGen L a x) := by
  constructor
  · intro h
    induction h with
    | single hstep =>
      rcases hstep with hstep | ⟨rfl, ha⟩
      · exact .inl (.single hstep)
      · exact .inr ⟨rfl, a, ha, .refl⟩
    | tail _ hstep ih =>
      rcases ih with hpath | ⟨rfl, -⟩
      · rcases hstep with hstep | ⟨rfl, hp⟩
        · exact .inl (hpath.tail hstep)
        · exact .inr ⟨rfl, _, hp, hpath.to_reflTransGen⟩
      · rcases hstep with hstep | ⟨-, hp⟩
        · exact absurd hstep (hchild _)
        · exact absurd hp hself
  · rintro (h | ⟨rfl, x, hx, hpath⟩)
    · exact mono (fun _ _ hstep => .inl hstep) _ _ h
    · exact tail' (ReflTransGen.mono (fun _ _ hstep => .inl hstep) _ _ hpath)
        (.inr ⟨rfl, hx⟩)

theorem Acyclic.withChild (h : Acyclic L) (hchild : ∀ b, ¬ L n b)
    (hself : ¬ P n) : Acyclic (WithChild n P L) := by
  intro a hcycle
  rcases (transGen_withChild_iff hchild hself).mp hcycle with hcycle | ⟨rfl, x, hx, hpath⟩
  · exact h a hcycle
  · rcases hpath.cases_head with rfl | ⟨b, hstep, -⟩
    · exact hself hx
    · exact hchild b hstep

end WithChild

/-! ### Hiding links -/

/-- The links out of a part that lead outside it are hidden. -/
def Hidden (B : α → Prop) (E : α → α → Prop) (a b : α) : Prop := E a b ∧ ¬ (B a ∧ ¬ B b)

section Hidden
variable {B : α → Prop} {E : α → α → Prop}

theorem mem_of_transGen (hup : ∀ a b, E a b → B b → B a) {a b : α} (h : TransGen E a b) (hb : B b) :
    B a := by
  induction h using head_induction_on with
  | single hstep => exact hup _ _ hstep hb
  | head hstep _ ih => exact hup _ _ hstep ih

theorem transGen_hidden_iff (hup : ∀ a b, E a b → B b → B a) {a b : α} :
    TransGen (Hidden B E) a b ↔ TransGen E a b ∧ ¬ (B a ∧ ¬ B b) := by
  constructor
  · intro h
    refine ⟨mono (fun _ _ hstep => hstep.1) _ _ h, ?_⟩
    -- a visible path that starts in the part stays there
    rintro ⟨ha, hb⟩
    apply hb
    clear hb
    induction h with
    | single hstep => exact by_contra fun hb => hstep.2 ⟨ha, hb⟩
    | tail _ hstep ih => exact by_contra fun hb => hstep.2 ⟨ih, hb⟩
  · rintro ⟨h, hvisible⟩
    by_cases hb : B b
    · clear hvisible
      induction h with
      | single hstep => exact .single ⟨hstep, fun h => h.2 hb⟩
      | tail _ hstep ih =>
        have hmid := hup _ _ hstep hb
        exact (ih hmid).tail ⟨hstep, fun h => h.2 hb⟩
    · have ha : ¬ B a := fun ha => hvisible ⟨ha, hb⟩
      clear hvisible hb
      induction h using head_induction_on with
      | single hstep => exact .single ⟨hstep, fun h => ha h.1⟩
      | @head a c hstep _ ih =>
        -- outside the part one stays outside, since the part is closed upwards
        have hc : ¬ B c := fun hc => ha (hup _ _ hstep hc)
        exact .head ⟨hstep, fun h => ha h.1⟩ (ih hc)

theorem Acyclic.of_hidden (h : Acyclic (Hidden B E)) (hup : ∀ a b, E a b → B b → B a) : Acyclic E := by
  intro a hcycle
  exact h a ((transGen_hidden_iff hup).mpr ⟨hcycle, fun hab => hab.2 hab.1⟩)

/-- Of the links that are hidden, those out of `U` still are. -/
def Partly (U B : α → Prop) (E : α → α → Prop) (a b : α) : Prop := E a b ∧ ¬ (U a ∧ ¬ B b)

/-- From where nothing in `U` can be reached, everything is visible. -/
theorem transGen_partly_iff {U : α → Prop} {a b : α} (hclear : ∀ x, ReflTransGen E a x → ¬ U x) :
    TransGen (Partly U B E) a b ↔ TransGen E a b := by
  constructor
  · exact mono (fun _ _ hstep => hstep.1) _ _
  · intro h
    induction h with
    | single hstep => exact .single ⟨hstep, fun h => hclear a .refl h.1⟩
    | tail hpath hstep ih => exact ih.tail ⟨hstep, fun h => hclear _ hpath.to_reflTransGen h.1⟩

end Hidden

/-! ### Sums -/

section Sums
open scoped Classical
variable {M : Type v} [AddCommGroup M] (V : Finset α) (own : α → M)

/-- The sum over the elements that meet a condition. -/
noncomputable def sumWhere (P : α → Prop) : M := ∑ a ∈ V, if P a then own a else 0

variable {V own} {done : List α} {own' : α → M} {r : α} {P Q : α → Prop}

theorem sumWhere_congr (h : ∀ a ∈ V, P a ↔ Q a) (hown : ∀ a ∈ V, P a → own a = own' a) :
    sumWhere V own P = sumWhere V own' Q := by
  apply sum_congr rfl
  intro a ha
  by_cases hp : P a
  · rw [if_pos hp, if_pos ((h a ha).mp hp), hown a ha hp]
  · rw [if_neg hp, if_neg (fun hq => hp ((h a ha).mpr hq))]

theorem sumWhere_false (h : ∀ a ∈ V, ¬ P a) : sumWhere V own P = 0 := by
  apply sum_eq_zero
  intro a ha
  rw [if_neg (h a ha)]

theorem sumWhere_subset {W : Finset α} (hsub : W ⊆ V) (h : ∀ a ∈ V, P a → a ∈ W) :
    sumWhere V own P = sumWhere W own P := by
  symm
  apply sum_subset hsub
  intro a ha hout
  rw [if_neg (fun hp => hout (h a ha hp))]

theorem sumWhere_insert (hr : r ∈ V) (hnot : ¬ P r) (h : ∀ a ∈ V, Q a ↔ P a ∨ a = r) :
    sumWhere V own Q = sumWhere V own P + own r := by
  have hsingle : own r = ∑ a ∈ V, if a = r then own a else 0 := by
    rw [sum_ite_eq' V r own, if_pos hr]
  unfold sumWhere
  rw [hsingle, ← sum_add_distrib]
  apply sum_congr rfl
  intro a ha
  by_cases hp : P a
  · have hne : a ≠ r := fun heq => hnot (heq ▸ hp)
    rw [if_pos hp, if_pos ((h a ha).mpr (.inl hp)), if_neg hne, add_zero]
  · by_cases heq : a = r
    · rw [if_neg hp, if_pos ((h a ha).mpr (.inr heq)), if_pos heq, zero_add]
    · rw [if_neg hp, if_neg heq, if_neg, add_zero]
      intro hq
      rcases (h a ha).mp hq with hp' | heq'
      · exact hp hp'
      · exact heq heq'

theorem sumWhere_split (Q : α → Prop) :
    sumWhere V own P = sumWhere V own (fun a => P a ∧ Q a) + sumWhere V own (fun a => P a ∧ ¬ Q a) := by
  unfold sumWhere
  rw [← sum_add_distrib]
  apply sum_congr rfl
  intro a _
  by_cases hp : P a <;> by_cases hq : Q a <;> simp [hq]

theorem sumWhere_update [DecidableEq α] {c : M} (hr : r ∈ V)
    (hown : ∀ a, own' a = own a + if a = r then c else 0) :
    sumWhere V own' P = sumWhere V own P + if P r then c else 0 := by
  have hsingle : (if P r then c else 0) = ∑ a ∈ V, if a = r then (if P r then c else 0) else 0 := by
    rw [sum_ite_eq' V r fun _ => if P r then c else 0, if_pos hr]
  unfold sumWhere
  rw [hsingle, ← sum_add_distrib]
  apply sum_congr rfl
  intro a _
  rw [hown]
  by_cases heq : a = r
  · subst heq
    by_cases hp : P a <;> simp [hp]
  · simp [heq]

theorem sumWhere_mem_list {l : List α} (hnodup : l.Nodup) (hl : ∀ a, a ∈ l ↔ a ∈ V ∧ P a) :
    sumWhere V own P = (l.map own).sum := by
  have hset : V.filter P = l.toFinset := by
    ext a
    rw [mem_filter, List.mem_toFinset, hl]
  unfold sumWhere
  rw [← sum_filter, hset, List.sum_toFinset own hnodup]

theorem sumWhere_leave (hr : r ∈ V) (hp : P r) (hnew : r ∉ done) :
    sumWhere V own (fun a => P a ∧ a ∉ done ++ [r]) = sumWhere V own (fun a => P a ∧ a ∉ done) + -own r := by
  have hsum : sumWhere V own (fun a => P a ∧ a ∉ done) =
      sumWhere V own (fun a => P a ∧ a ∉ done ++ [r]) + own r := by
    apply sumWhere_insert hr (by simp)
    intro a _
    by_cases heq : a = r
    · subst heq
      simp [hp, hnew]
    · simp [heq]
  rw [hsum, add_neg_cancel_right]

theorem sumWhere_leave_of_not (hp : ¬ P r) :
    sumWhere V own (fun a => P a ∧ a ∉ done ++ [r]) = sumWhere V own (fun a => P a ∧ a ∉ done) := by
  apply sumWhere_congr _ fun _ _ _ => rfl
  intro a _
  by_cases heq : a = r
  · subst heq
    simp [hp]
  · simp [heq]

end Sums

end Dag
