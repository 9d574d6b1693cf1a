import Mathlib.Logic.Basic

/-! # Guarded runs of deterministic machines

  A machine takes an input, answers with an output and moves to a new state, or stops with a fault.
  A run is guarded when every input meets a condition on the state it is given in.
-/

universe u v w x y

/-- A deterministic machine: states `σ`, inputs `α`, outputs `ω`, faults `ε`. -/
structure Machine (σ : Type u) (α : Type v) (ω : Type w) (ε : Type x) where
  step : σ → α → Except ε (ω × σ)

namespace Machine

variable {σ : Type u} {α : Type v} {ω : Type w} {ε : Type x}

/-- Run a list of inputs, collecting the outputs. -/
def run (M : Machine σ α ω ε) : σ → List α → Except ε (List ω × σ)
  | s, [] => .ok ([], s)
  | s, a :: as =>
    match M.step s a with
    | .error e => .error e
    | .ok (o, s') =>
      match M.run s' as with
      | .error e => .error e
      | .ok (os, s'') => .ok (o :: os, s'')

@[simp] theorem run_nil (M : Machine σ α ω ε) (s : σ) : M.run s [] = .ok ([], s) := rfl

variable {os : List ω} {as : List α} {a : α} {G : σ → α → Prop} {Inv : σ → Prop} {M : Machine σ α ω ε}

theorem run_cons_of_step {s s' : σ} {o : ω} (h : M.step s a = .ok (o, s')) {s'' : σ}
    (hrun : M.run s' as = .ok (os, s'')) : M.run s (a :: as) = .ok (o :: os, s'') := by
  simp only [run, h, hrun]

/-- Every input of the run meets `G` in the state it is given in. -/
def Guarded (M : Machine σ α ω ε) (G : σ → α → Prop) : σ → List α → Prop
  | _, [] => True
  | s, a :: as => G s a ∧ ∀ o s', M.step s a = .ok (o, s') → M.Guarded G s' as

/-- **Invariant rule**: if every guarded step from a state in `Inv` succeeds and stays in `Inv`,
    then every guarded run does. -/
theorem run_invariant (hstep : ∀ s a, Inv s → G s a → ∃ o s', M.step s a = .ok (o, s') ∧ Inv s') :
    ∀ (as : List α) (s : σ), Inv s → M.Guarded G s as →
      ∃ os s', M.run s as = .ok (os, s') ∧ Inv s' := by
  intro as
  induction as with
  | nil => intro s hs _; exact ⟨[], s, rfl, hs⟩
  | cons a as ih =>
    intro s hs ⟨ha, hrest⟩
    obtain ⟨o, s', hs', hinv⟩ := hstep s a hs ha
    obtain ⟨os, s'', hrun, hinv'⟩ := ih s' hinv (hrest o s' hs')
    exact ⟨o :: os, s'', run_cons_of_step hs' hrun, hinv'⟩

theorem run_cons_eq_ok {s s'' : σ} (h : M.run s (a :: as) = .ok (os, s'')) :
    ∃ o os' s', M.step s a = .ok (o, s') ∧ M.run s' as = .ok (os', s'') ∧ os = o :: os' := by
  rw [run] at h
  rcases hstep : M.step s a with e | ⟨o, s'⟩
  · rw [hstep] at h
    cases h
  · rw [hstep] at h
    rcases hrun : M.run s' as with e | ⟨os', _⟩
    · simp only [hrun] at h
      cases h
    · simp only [hrun] at h
      cases h
      exact ⟨o, os', s', rfl, hrun, rfl⟩

/-- What every step keeps, every run that does not fault keeps. -/
theorem run_keeps (hstep : ∀ s a o s', Inv s → M.step s a = .ok (o, s') → Inv s') :
    ∀ (as : List α) (s : σ) (os : List ω) (s' : σ), Inv s → M.run s as = .ok (os, s') → Inv s' := by
  intro as
  induction as with
  | nil =>
    intro s os s' hs hrun
    cases hrun
    exact hs
  | cons a as ih =>
    intro s os s'' hs hrun
    obtain ⟨o, os', s', hs', hrest, -⟩ := run_cons_eq_ok hrun
    exact ih s' os' s'' (hstep s a o s' hs hs') hrest

theorem guarded_cons_of_step {s s' : σ} {o : ω} (h : M.step s a = .ok (o, s')) (ha : G s a)
    (hrest : M.Guarded G s' as) : M.Guarded G s (a :: as) := by
  refine ⟨ha, fun o' s'' h' => ?_⟩
  cases h.symm.trans h'
  exact hrest

theorem run_keeps_of_guarded (hstep : ∀ s a o s', Inv s → G s a → M.step s a = .ok (o, s') → Inv s') :
    ∀ (as : List α) (s : σ) (os : List ω) (s' : σ), Inv s → M.Guarded G s as → M.run s as = .ok (os, s') →
      Inv s' := by
  intro as
  induction as with
  | nil =>
    intro s os s' hs _ hrun
    cases hrun
    exact hs
  | cons a as ih =>
    intro s os s'' hs hguard hrun
    obtain ⟨o, os', s', hs', hrest, -⟩ := run_cons_eq_ok hrun
    exact ih s' os' s'' (hstep s a o s' hs hguard.1 hs') (hguard.2 o s' hs') hrest

/-- **Exactness rule**: if the guarded steps are exactly those that succeed and stay in `Inv`, then
    the guarded runs are exactly those that are in `Inv` after every step. -/
theorem guarded_iff_invariant (hstep : ∀ s a, Inv s → (G s a ↔ ∃ o s', M.step s a = .ok (o, s') ∧ Inv s')) :
    ∀ (as : List α) (s : σ), Inv s →
      (M.Guarded G s as ↔ ∀ n, ∃ os s', M.run s (as.take n) = .ok (os, s') ∧ Inv s') := by
  intro as
  induction as with
  | nil =>
    intro s hs
    refine iff_of_true trivial fun n => ?_
    rw [List.take_nil]
    exact ⟨[], s, rfl, hs⟩
  | cons a as ih =>
    intro s hs
    constructor
    · intro hguard n
      obtain ⟨ha, hrest⟩ := hguard
      obtain ⟨o, s', hs', hinv⟩ := (hstep s a hs).mp ha
      rcases n with - | n
      · exact ⟨[], s, rfl, hs⟩
      · obtain ⟨os, s'', hrun, hinv'⟩ := (ih s' hinv).mp (hrest o s' hs') n
        exact ⟨o :: os, s'', run_cons_of_step hs' hrun, hinv'⟩
    · intro hall
      -- the first step is guarded because the run is in the invariant after it
      obtain ⟨_, s₁, hrun₁, hinv₁⟩ := hall 1
      obtain ⟨o, os, s', hs', hnil, -⟩ := run_cons_eq_ok hrun₁
      cases hnil
      refine ⟨(hstep s a hs).mpr ⟨o, s₁, hs', hinv₁⟩, fun o' s'' hs'' => ?_⟩
      rw [hs'] at hs''
      cases hs''
      rw [ih s₁ hinv₁]
      intro n
      obtain ⟨_, s₂, hrun₂, hinv₂⟩ := hall (n + 1)
      obtain ⟨_, os', _, hs₃, hrun, -⟩ := run_cons_eq_ok hrun₂
      rw [hs'] at hs₃
      cases hs₃
      exact ⟨os', s₂, hrun, hinv₂⟩

/-- **Exactness along a run**: the same for a run that does not fault. -/
theorem guarded_iff_along {Base : σ → Prop}
    (hstep : ∀ s a o s', Base s → Inv s → M.step s a = .ok (o, s') → Base s' ∧ (G s a ↔ Inv s')) :
    ∀ (as : List α) (s : σ) (os : List ω) (s' : σ), Base s → Inv s → M.run s as = .ok (os, s') →
      (M.Guarded G s as ↔ ∀ n os' s'', M.run s (as.take n) = .ok (os', s'') → Inv s'') := by
  intro as
  induction as with
  | nil =>
    intro s os s' _ hs _
    apply iff_of_true trivial
    intro n os' s'' hrun
    rw [List.take_nil] at hrun
    cases hrun
    exact hs
  | cons a as ih =>
    intro s os s' hbase hs hrun
    obtain ⟨o, os₁, s₁, hs₁, hrest, -⟩ := run_cons_eq_ok hrun
    obtain ⟨hbase₁, hiff⟩ := hstep s a o s₁ hbase hs hs₁
    constructor
    · intro hguard n os' s'' hprefix
      obtain ⟨ha, hlater⟩ := hguard
      cases n with
      | zero =>
        cases hprefix
        exact hs
      | succ n =>
        obtain ⟨_, os₂, s₂, hs₂, hprefix, -⟩ := run_cons_eq_ok hprefix
        rw [hs₁] at hs₂
        cases hs₂
        exact (ih s₁ os₁ s' hbase₁ (hiff.mp ha) hrest).mp (hlater o s₁ hs₁) n os₂ s'' hprefix
    · intro hall
      have hinv₁ : Inv s₁ := hall 1 [o] s₁ (run_cons_of_step hs₁ rfl)
      refine ⟨hiff.mpr hinv₁, fun o' s₂ hs₂ => ?_⟩
      rw [hs₁] at hs₂
      cases hs₂
      rw [ih s₁ os₁ s' hbase₁ hinv₁ hrest]
      intro n os' s'' hprefix
      exact hall (n + 1) (o :: os') s'' (run_cons_of_step hs₁ hprefix)

/-! ### Refinement -/

variable {τ : Type y}

/-- Run a list of inputs on an abstract machine that cannot fault. -/
def absRun (astep : τ → α → ω × τ) : τ → List α → List ω × τ
  | t, [] => ([], t)
  | t, a :: as =>
    ((astep t a).1 :: (absRun astep (astep t a).2 as).1, (absRun astep (astep t a).2 as).2)

/-- Every input of the abstract run meets `G` in the state it is given in. -/
def AbsGuarded (astep : τ → α → ω × τ) (G : τ → α → Prop) : τ → List α → Prop
  | _, [] => True
  | t, a :: as => G t a ∧ AbsGuarded astep G (astep t a).2 as

/-- **Refinement rule**: if each guarded step keeps `R` and answers as the abstract step does, then
    each guarded run does, and never faults. -/
theorem run_refines {M : Machine σ α ω ε} {astep : τ → α → ω × τ} {G : τ → α → Prop}
    {R : σ → τ → Prop} (hstep : ∀ s t a, R s t → G t a →
      ∃ s', M.step s a = .ok ((astep t a).1, s') ∧ R s' (astep t a).2) :
    ∀ (as : List α) (s : σ) (t : τ), R s t → AbsGuarded astep G t as →
      ∃ s', M.run s as = .ok ((absRun astep t as).1, s') ∧ R s' (absRun astep t as).2 := by
  intro as
  induction as with
  | nil => intro s t hR _; exact ⟨s, rfl, hR⟩
  | cons a as ih =>
    intro s t hR ⟨ha, hrest⟩
    obtain ⟨s', hs', hR'⟩ := hstep s t a hR ha
    obtain ⟨s'', hrun, hR''⟩ := ih s' (astep t a).2 hR' hrest
    exact ⟨s'', run_cons_of_step hs' hrun, hR''⟩

end Machine
