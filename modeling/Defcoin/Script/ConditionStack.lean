import Defcoin.Framework.Outcome
import Mathlib.Algebra.Group.Nat.Defs

/-! # The stack of conditions

  `EvalScript` asks its stack of conditions only whether it is empty and whether all its values are
  true. The code keeps the number of values and the position of the lowest false one, in 32 bits.
-/

namespace Defcoin.Script

open List Outcome

def NO_FALSE : Nat := 2 ^ 32 - 1

structure ConditionStack where
  m_stack_size : Nat := 0
  m_first_false_pos : Nat := NO_FALSE

namespace ConditionStack

def empty (s : ConditionStack) : Bool := s.m_stack_size == 0

def all_true (s : ConditionStack) : Bool := s.m_first_false_pos == NO_FALSE

inductive Call where
  | push_back (f : Bool)
  | pop_back
  | toggle_top

def call (s : ConditionStack) : Call → Except String ConditionStack
  | .push_back f =>
    .ok ⟨(s.m_stack_size + 1) % 2 ^ 32, if s.all_true && !f then s.m_stack_size else s.m_first_false_pos⟩
  | .pop_back =>
    if s.m_stack_size > 0 then
      .ok ⟨s.m_stack_size - 1,
        if s.m_first_false_pos = s.m_stack_size - 1 then NO_FALSE else s.m_first_false_pos⟩
    else .error "m_stack_size > 0"
  | .toggle_top =>
    if s.m_stack_size > 0 then
      .ok ⟨s.m_stack_size,
        if s.all_true then s.m_stack_size - 1
        else if s.m_first_false_pos = s.m_stack_size - 1 then NO_FALSE
        else s.m_first_false_pos⟩
    else .error "m_stack_size > 0"

def plain : List Bool → Call → List Bool
  | l, .push_back f => f :: l
  | l, .pop_back => l.tail
  | [], .toggle_top => []
  | f :: l, .toggle_top => (!f) :: l

/-- Calls for a stack with these values: fewer than 2 ^ 32 are pushed, and none is taken from no values. -/
def Allowed (l : List Bool) : Call → Prop
  | .push_back _ => l.length + 1 < 2 ^ 32
  | _ => l ≠ []

def Legal : List Bool → List Call → Prop
  | _, [] => True
  | l, c :: calls => Allowed l c ∧ Legal (plain l c) calls

def lowest : List Bool → Nat
  | [] => NO_FALSE
  | f :: l => if lowest l = NO_FALSE ∧ f = false then l.length else lowest l

theorem lowest_spec {l : List Bool} (hl : l.length < 2 ^ 32) :
    lowest l = NO_FALSE ∧ l.all id = true ∨ lowest l < l.length ∧ l.all id = false := by
  induction l with
  | nil => exact .inl ⟨rfl, rfl⟩
  | cons f l ih =>
    rw [length_cons] at hl
    have := ih (by omega)
    cases f <;> grind [lowest, NO_FALSE]

/-- The values above the lowest false one are forgotten. -/
structure Shows (l : List Bool) (s : ConditionStack) : Prop where
  size : s.m_stack_size = l.length
  lt : l.length < 2 ^ 32
  first : s.m_first_false_pos = lowest l

variable {s : ConditionStack} {l : List Bool}

theorem Shows.answers (h : Shows l s) : s.empty = l.isEmpty ∧ s.all_true = l.all id := by
  obtain ⟨hsize, hlt, hfirst⟩ := h
  rw [empty, all_true, hsize, hfirst]
  refine ⟨by cases l <;> rfl, ?_⟩
  rcases lowest_spec hlt with ⟨hlowest, hall⟩ | ⟨hlowest, hall⟩
  · rw [hlowest, hall]
    rfl
  · rw [hall, beq_eq_false_iff_ne, NO_FALSE]
    omega

theorem Shows.after (h : Shows l s) {c : Call} (hc : Allowed l c) : Succeeds (s.call c) (Shows (plain l c)) := by
  obtain ⟨hsize, hlt, hfirst⟩ := h
  cases c with
  | push_back f =>
    refine .ok ⟨?_, hc, ?_⟩
    · exact (Nat.mod_eq_of_lt (hsize ▸ hc)).trans (congrArg (· + 1) hsize)
    · cases f <;> simp [all_true, plain, lowest, hsize, hfirst]
  | _ =>
    -- what the top was does not matter below the lowest false value
    obtain ⟨f, l, rfl⟩ := exists_cons_of_ne_nil hc
    rw [length_cons] at hsize hlt
    have hlowest := lowest_spec (Nat.lt_of_succ_lt hlt)
    rw [call, if_pos (by omega)]
    refine .ok ⟨by simp [hsize, plain], by simp [plain]; omega, ?_⟩
    cases f <;> grind [all_true, plain, lowest, NO_FALSE]

theorem Shows.afterAll {calls : List Call} (h : Shows l s) (hl : Legal l calls) :
    Succeeds (calls.foldlM call s) (Shows (calls.foldl plain l)) := by
  induction calls generalizing s l with
  | nil => exact .ok h
  | cons c calls ih => exact (h.after hl.1).bind fun s' hs' => ih hs' hl.2

/-- **Refinement**: while there are fewer than 2 ^ 32 values, the answers are those of the list. -/
theorem conditionStack_refines (calls : List Call) (h : Legal [] calls) :
    Succeeds (calls.foldlM call {}) fun s => s.empty = (calls.foldl plain []).isEmpty ∧
      s.all_true = (calls.foldl plain []).all id :=
  (Shows.afterAll ⟨rfl, by decide, rfl⟩ h).mono fun _ hs => hs.answers

theorem conditionStack_refines_else : Legal [] [.push_back false, .toggle_top] ∧
    Succeeds ([.push_back false, .toggle_top].foldlM call {}) fun s => s.empty = false ∧ s.all_true = true := by
  have h : Legal [] [.push_back false, .toggle_top] := by simp [Legal, Allowed, plain]
  exact ⟨h, conditionStack_refines _ h⟩

theorem push_replicate (n size : Nat) : (replicate n (.push_back true)).foldlM call ⟨size % 2 ^ 32, NO_FALSE⟩ =
    .ok ⟨(size + n) % 2 ^ 32, NO_FALSE⟩ := by
  induction n generalizing size with
  | zero => rfl
  | succ n ih =>
    have hnext := ih (size + 1)
    rw [← Nat.mod_add_mod, Nat.add_right_comm] at hnext
    exact hnext

theorem plain_replicate (n : Nat) (l : List Bool) :
    ((replicate n (.push_back true)).foldl plain l).length = l.length + n := by
  induction n generalizing l with
  | zero => rfl
  | succ n ih => exact (ih (true :: l)).trans (Nat.succ_add_eq_add_succ _ _)

/-- After 2 ^ 32 values the stack is as it was without any. -/
theorem conditionStack_wraps : (replicate (2 ^ 32) (.push_back true)).foldlM call {} = .ok {} ∧
    ((replicate (2 ^ 32) (.push_back true)).foldl plain []).length = 2 ^ 32 :=
  ⟨push_replicate (2 ^ 32) 0, plain_replicate (2 ^ 32) []⟩

end ConditionStack

end Defcoin.Script
