import Mathlib.Data.Finset.Card
import Mathlib.Data.List.Sort

/-! # Closing a set under a relation with a work list

  A set is kept as a list without repetitions, ordered by a key. The loop takes the first staged
  element, adds it to the result and stages its successors that are not there yet.
-/

universe u

namespace OrderedSet

open Relation List

variable {α : Type u}

/-- One step of the relation that a successor function is. -/
def Next (next : α → List α) (a b : α) : Prop := b ∈ next a

theorem mem_of_closed {next : α → List α} {done : List α}
    (hclosed : ∀ x ∈ done, ∀ y ∈ next x, y ∈ done) {x z : α} (hx : x ∈ done)
    (hreach : ReflTransGen (Next next) x z) : z ∈ done := by
  induction hreach with
  | refl => exact hx
  | tail _ hstep ih => exact hclosed _ ih _ hstep

variable {x y : α} {next : α → List α}

/-- Of what counts, all that can be reached from `x` is there. -/
def Covered (next : α → List α) (Good : α → Prop) (done : List α) (x : α) : Prop :=
  ∀ z, Good z → ReflTransGen (Next next) x z → z ∈ done

/-- An element is taken, staged, or done with all that can be reached from it. -/
def Known (next : α → List α) (Good : α → Prop) (seen stage done : List α) (x : α) : Prop :=
  x ∈ seen ∨ x ∈ stage ∨ Covered next Good done x

theorem Known.take {Good : α → Prop} {seen stage done stage' done' : List α}
    (h : Known next Good seen (x :: stage) done y) (hstage : ∀ z ∈ stage, z ∈ stage')
    (hdone : ∀ z ∈ done, z ∈ done') : Known next Good (x :: seen) stage' done' y := by
  rcases h with h | h | h
  · exact .inl (mem_cons_of_mem _ h)
  · rcases mem_cons.mp h with rfl | h
    · exact .inl mem_cons_self
    · exact .inr (.inl (hstage y h))
  · exact .inr (.inr fun z hgood hreach => hdone z (h z hgood hreach))

theorem Known.covered {Good : α → Prop} {seen done : List α} (hseen : ∀ x ∈ seen, x ∈ done)
    (hfront : ∀ x ∈ seen, ∀ y ∈ next x, Known next Good seen [] done y)
    (h : Known next Good seen [] done x) : Covered next Good done x := by
  intro z hgood hreach
  induction hreach using ReflTransGen.head_induction_on with
  | refl =>
    rcases h with h | h | h
    · exact hseen _ h
    · cases h
    · exact h z hgood .refl
  | head hstep hrest ih =>
    rcases h with h | h | h
    · exact ih (hfront _ h _ hstep)
    · cases h
    · exact h z hgood (.head hstep hrest)

variable [DecidableEq α] (key : α → Nat)

/-- Insertion into an ordered set. -/
def insert (x : α) (l : List α) : List α :=
  if x ∈ l then l else l.orderedInsert (fun a b => key a ≤ key b) x

@[simp] theorem mem_insert {l : List α} : y ∈ insert key x l ↔ y = x ∨ y ∈ l := by
  unfold insert
  split_ifs with hmem
  · constructor
    · exact .inr
    · rintro (rfl | h)
      · exact hmem
      · exact h
  · exact mem_orderedInsert _

variable {skip : α → Bool} {l xs : List α} {cache : α → Option (List α)}

theorem nodup_insert (h : l.Nodup) : (insert key x l).Nodup := by
  unfold insert
  split_ifs with hmem
  · exact h
  · rw [(perm_orderedInsert _ x l).nodup_iff]
    exact nodup_cons.mpr ⟨hmem, h⟩

theorem length_insert (h : x ∉ l) : (insert key x l).length = l.length + 1 := by
  unfold insert
  rw [if_neg h, orderedInsert_length]

theorem length_le_insert : l.length ≤ (insert key x l).length := by
  by_cases h : x ∈ l
  · rw [insert, if_pos h]
  · rw [length_insert key h]
    omega

theorem perm_insert (h : x ∉ l) : (insert key x l).Perm (x :: l) := by
  unfold insert
  rw [if_neg h]
  exact perm_orderedInsert _ x l

theorem mem_insertAll : y ∈ xs.foldl (fun l x => insert key x l) l ↔ y ∈ l ∨ y ∈ xs := by
  induction xs generalizing l with
  | nil => simp
  | cons x xs ih => rw [foldl_cons, ih, mem_insert, mem_cons, or_assoc, or_left_comm]

theorem nodup_insertAll (h : l.Nodup) : (xs.foldl (fun l x => insert key x l) l).Nodup := by
  induction xs generalizing l with
  | nil => exact h
  | cons x xs ih => exact ih (nodup_insert key h)

theorem length_le_insertAll : l.length ≤ (xs.foldl (fun l x => insert key x l) l).length := by
  induction xs generalizing l with
  | nil => exact le_refl _
  | cons x xs ih => exact (length_le_insert key).trans ih

/-- Insertion of those elements of a list that pass a test. -/
def insertUnless (skip : α → Bool) (xs l : List α) : List α :=
  xs.foldl (fun l x => if skip x then l else insert key x l) l

theorem insertUnless_eq : insertUnless key skip xs l =
    (xs.filter fun x => !skip x).foldl (fun l x => insert key x l) l := by
  rw [insertUnless, foldl_filter]
  congr 1
  funext l x
  cases skip x <;> rfl

theorem mem_insertUnless : y ∈ insertUnless key skip xs l ↔ y ∈ l ∨ (y ∈ xs ∧ skip y = false) := by
  rw [insertUnless_eq, mem_insertAll, mem_filter, Bool.not_eq_true']

theorem nodup_insertUnless (h : l.Nodup) : (insertUnless key skip xs l).Nodup := by
  rw [insertUnless_eq]
  exact nodup_insertAll key h

theorem length_le_insertUnless : l.length ≤ (insertUnless key skip xs l).length := by
  rw [insertUnless_eq]
  exact length_le_insertAll key

/-- The loop: `done` is closed under `next`, starting from what is staged. -/
def closure (next : α → List α) : Nat → List α → List α → List α
  | 0, _, done => done
  | _ + 1, [], done => done
  | fuel + 1, x :: stage, done =>
    let done := insert key x done
    closure next fuel (insertUnless key (fun y => decide (y ∈ done)) (next x) stage) done

theorem mem_closure_of_mem (next : α → List α) (fuel : Nat) (stage : List α) {done : List α} (h : y ∈ done) :
    y ∈ closure key next fuel stage done := by
  induction fuel generalizing stage done with
  | zero => exact h
  | succ fuel ih =>
    cases stage with
    | nil => exact h
    | cons x stage => exact ih _ ((mem_insert key).mpr (.inr h))

/-! ### Closure with a cache -/

/-- The successors of an element, staged; those with a known closure give that to the result. -/
def stageCached (cache : α → Option (List α)) (ys stage done : List α) : List α × List α :=
  ys.foldl (fun r y => match cache y with
    | some known => (r.1, known.foldl (fun done z => insert key z done) r.2)
    | none => if y ∈ r.2 then r else (insert key y r.1, r.2)) (stage, done)

/-- The loop, with a cache of what can be reached from some elements. -/
def cachedClosure (next : α → List α) (cache : α → Option (List α)) : Nat → List α → List α → List α
  | 0, _, done => done
  | _ + 1, [], done => done
  | fuel + 1, x :: stage, done =>
    let r := stageCached key cache (next x) stage (insert key x done)
    cachedClosure next cache fuel r.1 r.2

theorem nodup_stageCached {ys stage done : List α} (h : done.Nodup) :
    (stageCached key cache ys stage done).2.Nodup := by
  induction ys generalizing stage done with
  | nil => exact h
  | cons y ys ih =>
    rw [stageCached, foldl_cons]
    cases hcache : cache y with
    | some known => exact ih (nodup_insertAll key h)
    | none =>
      by_cases hin : y ∈ done
      · simp only [if_pos hin]
        exact ih h
      · simp only [if_neg hin]
        exact ih h

theorem nodup_cachedClosure {fuel : Nat} {stage done : List α} (h : done.Nodup) :
    (cachedClosure key next cache fuel stage done).Nodup := by
  induction fuel generalizing stage done with
  | zero => exact h
  | succ fuel ih =>
    cases stage with
    | nil => exact h
    | cons x stage => exact ih (nodup_stageCached key (nodup_insert key h))

theorem mem_stageCached {z : α} {ys stage done : List α} : z ∈ (stageCached key cache ys stage done).2 ↔
    z ∈ done ∨ ∃ y ∈ ys, ∃ known, cache y = some known ∧ z ∈ known := by
  induction ys generalizing stage done with
  | nil => simp [stageCached]
  | cons y ys ih =>
    rw [stageCached, foldl_cons]
    cases hcache : cache y with
    | some known =>
      refine ih.trans ?_
      simp [mem_insertAll, hcache, or_assoc]
    | none =>
      dsimp only
      split
      · refine ih.trans ?_
        simp [hcache]
      · refine ih.trans ?_
        simp [hcache]

theorem stageCached_spec (cache : α → Option (List α)) (ys : List α) :
    ∀ (stage done : List α), stage.Nodup → (stageCached key cache ys stage done).1.Nodup ∧
      (∀ z ∈ stage, z ∈ (stageCached key cache ys stage done).1) ∧
      (∀ z ∈ (stageCached key cache ys stage done).1, z ∈ stage ∨ (z ∈ ys ∧ z ∉ done)) ∧
      ∀ y ∈ ys, cache y = none →
        y ∈ (stageCached key cache ys stage done).2 ∨ y ∈ (stageCached key cache ys stage done).1 := by
  induction ys with
  | nil => exact fun stage done hnodup => ⟨hnodup, fun _ h => h, fun _ h => .inl h, by simp⟩
  | cons y ys ih =>
    intro stage done hnodup
    -- what the first successor does, and then the rest
    obtain ⟨stage', done', hstep, hnodup', hdone, hkeep, hnew, hnone⟩ : ∃ stage' done',
        stageCached key cache (y :: ys) stage done = stageCached key cache ys stage' done' ∧
          stage'.Nodup ∧ (∀ z ∈ done, z ∈ done') ∧ (∀ z ∈ stage, z ∈ stage') ∧
          (∀ z ∈ stage', z ∈ stage ∨ (z = y ∧ z ∉ done)) ∧ (cache y = none → y ∈ done' ∨ y ∈ stage') := by
      simp only [stageCached, foldl_cons]
      cases cache y with
      | some known => exact ⟨_, _, rfl, hnodup, fun z hz => (mem_insertAll key).mpr (.inl hz), fun z hz => hz,
          fun z hz => .inl hz, nofun⟩
      | none =>
        split_ifs with hin
        · exact ⟨_, _, rfl, hnodup, fun z hz => hz, fun z hz => hz, fun z hz => .inl hz, fun _ => .inl hin⟩
        · refine ⟨_, _, rfl, nodup_insert key hnodup, fun z hz => hz, fun z hz => (mem_insert key).mpr (.inr hz),
            fun z hz => ?_, fun _ => .inr ((mem_insert key).mpr (.inl rfl))⟩
          rcases (mem_insert key).mp hz with rfl | hz
          · exact .inr ⟨rfl, hin⟩
          · exact .inl hz
    obtain ⟨ihnodup, ihkeep, ihnew, ihnone⟩ := ih stage' done' hnodup'
    rw [hstep]
    refine ⟨ihnodup, fun z hz => ihkeep z (hkeep z hz), fun z hz => ?_, fun x hx hx' => ?_⟩
    · rcases ihnew z hz with hz | ⟨hz, hout⟩
      · exact (hnew z hz).imp_right (fun ⟨hy, hout⟩ => ⟨hy ▸ mem_cons_self, hout⟩)
      · exact .inr ⟨mem_cons_of_mem _ hz, fun hin => hout (hdone z hin)⟩
    · rcases mem_cons.mp hx with rfl | hx
      · exact (hnone hx').imp (fun hin => (mem_stageCached key).mpr (.inl hin)) (ihkeep _)
      · exact ihnone x hx hx'

/-- **Closure with a cache**: if the cache gives, for elements that do not count, what counts and can
    be reached from them, then of what counts the loop finds what can be reached. -/
theorem cachedClosure_spec {Good : α → Prop} {univ : Finset α} (huniv : ∀ x ∈ univ, ∀ y ∈ next x, y ∈ univ)
    (hcache : ∀ c known, cache c = some known → ¬ Good c ∧ ∀ d, d ∈ known ↔ Good d ∧ TransGen (Next next) c d) :
    ∀ (fuel : Nat) (stage done seen : List α), (∀ x ∈ stage, x ∈ univ) → (∀ x ∈ seen, x ∈ univ) →
      stage.Nodup → seen.Nodup → (∀ x ∈ stage, x ∉ seen) → (∀ x ∈ seen, x ∈ done) →
      univ.card ≤ fuel + seen.length →
      (∀ x ∈ seen, ∀ y ∈ next x, Known next Good seen stage done y) →
      (∀ x ∈ done, Known next Good seen stage done x) →
      (∀ z ∈ cachedClosure key next cache fuel stage done,
        z ∈ done ∨ ∃ x ∈ stage, ReflTransGen (Next next) x z) ∧
      ∀ x, Known next Good seen stage done x →
        Covered next Good (cachedClosure key next cache fuel stage done) x := by
  intro fuel
  induction fuel with
  | zero =>
    intro stage done seen hstage hseenu hsn hseenn hdisj hseen hfuel hfront hdone
    have hall : seen.toFinset = univ := by
      apply Finset.eq_of_subset_of_card_le
      · intro x hx
        exact hseenu x (mem_toFinset.mp hx)
      · rw [toFinset_card_of_nodup hseenn]
        omega
    have hnil : stage = [] := by
      rw [eq_nil_iff_forall_not_mem]
      intro x hx
      apply hdisj x hx
      rw [← mem_toFinset, hall]
      exact hstage x hx
    subst hnil
    exact ⟨fun z hz => .inl hz, fun x => Known.covered hseen hfront⟩
  | succ fuel ih =>
    intro stage done seen hstage hseenu hsn hseenn hdisj hseen hfuel hfront hdone
    cases stage with
    | nil => exact ⟨fun z hz => .inl hz, fun x => Known.covered hseen hfront⟩
    | cons x stage =>
      have hx : x ∉ seen := hdisj x mem_cons_self
      have hxu : x ∈ univ := hstage x mem_cons_self
      have hxs : x ∉ stage := (nodup_cons.mp hsn).1
      obtain ⟨hnodup, hkeeps, hnew, hnone⟩ :=
        stageCached_spec key cache (next x) stage (insert key x done) (nodup_cons.mp hsn).2
      have hadded := fun z => @mem_stageCached α _ key cache z (next x) stage (insert key x done)
      rw [cachedClosure]
      generalize hr : stageCached key cache (next x) stage (insert key x done) = r at *
      have hx' : x ∈ r.2 := (hadded x).mpr (.inl ((mem_insert key).mpr (.inl rfl)))
      have hdone' : ∀ z ∈ done, z ∈ r.2 := fun z hz => (hadded z).mpr (.inl ((mem_insert key).mpr (.inr hz)))
      -- what the cache gives is covered
      have hgiven : ∀ y ∈ next x, ∀ known, cache y = some known → ∀ w,
          ReflTransGen (Next next) y w → Covered next Good r.2 w := by
        intro y hy known hc w hyw z hgood hreach
        obtain ⟨hbad, hmem⟩ := hcache y known hc
        refine (hadded z).mpr (.inr ⟨y, hy, known, hc, (hmem z).mpr ⟨hgood, ?_⟩⟩)
        rcases (hyw.trans hreach).cases_head with rfl | ⟨c, hstep, hrest⟩
        · exact absurd hgood hbad
        · exact TransGen.head' hstep hrest
      have hdoneCases : ∀ z ∈ r.2, Known next Good (x :: seen) r.1 r.2 z := by
        intro z hz
        rcases (hadded z).mp hz with hz | ⟨y, hy, known, hc, hz⟩
        · rcases (mem_insert key).mp hz with rfl | hz
          · exact .inl mem_cons_self
          · exact (hdone z hz).take hkeeps hdone'
        · have hreach : ReflTransGen (Next next) y z := (((hcache y known hc).2 z).mp hz).2.to_reflTransGen
          exact .inr (.inr (hgiven y hy known hc z hreach))
      obtain ⟨ihsound, ihcovered⟩ := ih r.1 r.2 (x :: seen)
        (by
          intro z hz
          rcases hnew z hz with hz | ⟨hz, -⟩
          · exact hstage z (mem_cons_of_mem _ hz)
          · exact huniv x hxu z hz)
        (forall_mem_cons.mpr ⟨hxu, hseenu⟩) hnodup (nodup_cons.mpr ⟨hx, hseenn⟩)
        (by
          intro z hz hin
          rcases hnew z hz with hz | ⟨-, hout⟩
          · rcases mem_cons.mp hin with rfl | hin
            · exact hxs hz
            · exact hdisj z (mem_cons_of_mem _ hz) hin
          · exact hout ((mem_insert key).mpr ((mem_cons.mp hin).imp_right (hseen z))))
        (forall_mem_cons.mpr ⟨hx', fun z hz => hdone' z (hseen z hz)⟩) (by rw [length_cons]; omega)
        (by
          intro y hy z hz
          rcases mem_cons.mp hy with rfl | hy
          · cases hc : cache z with
            | some known => exact .inr (.inr (hgiven z hz known hc z .refl))
            | none =>
              rcases hnone z hz hc with hin | hin
              · exact hdoneCases z hin
              · exact .inr (.inl hin)
          · exact (hfront y hy z hz).take hkeeps hdone')
        hdoneCases
      refine ⟨fun z hz => ?_, fun y hy => ihcovered y (hy.take hkeeps hdone')⟩
      rcases ihsound z hz with hz | ⟨y, hy, hreach⟩
      · rcases (hadded z).mp hz with hz | ⟨y, hy, known, hc, hz⟩
        · rcases (mem_insert key).mp hz with rfl | hz
          · exact .inr ⟨z, mem_cons_self, .refl⟩
          · exact .inl hz
        · exact .inr ⟨x, mem_cons_self, .head hy (((hcache y known hc).2 z).mp hz).2.to_reflTransGen⟩
      · rcases hnew y hy with hy | ⟨hy, -⟩
        · exact .inr ⟨y, mem_cons_of_mem _ hy, hreach⟩
        · exact .inr ⟨x, mem_cons_self, .head hy hreach⟩

/-! ### Closure without a cache -/

theorem stageCached_none (ys stage done : List α) : stageCached key (fun _ => none) ys stage done =
    (insertUnless key (fun y => decide (y ∈ done)) ys stage, done) := by
  unfold insertUnless
  induction ys generalizing stage with
  | nil => rfl
  | cons y ys ih =>
    rw [stageCached, foldl_cons, foldl_cons]
    by_cases hin : y ∈ done
    · simp only [hin]
      exact ih stage
    · simp only [hin]
      exact ih (insert key y stage)

theorem closure_eq_cached (next : α → List α) (fuel : Nat) (stage done : List α) :
    closure key next fuel stage done = cachedClosure key next (fun _ => none) fuel stage done := by
  induction fuel generalizing stage done with
  | zero => rfl
  | succ fuel ih =>
    cases stage with
    | nil => rfl
    | cons x stage =>
      rw [cachedClosure, stageCached_none]
      exact ih _ _

/-- **Closure**: the loop ends with what can be reached. -/
theorem closure_spec {univ : Finset α} (huniv : ∀ x ∈ univ, ∀ y ∈ next x, y ∈ univ) :
    ∀ (fuel : Nat) (stage done : List α), (∀ x ∈ stage, x ∈ univ) → (∀ x ∈ done, x ∈ univ) →
      stage.Nodup → done.Nodup → (∀ x ∈ stage, x ∉ done) → univ.card ≤ fuel + done.length →
      (∀ x ∈ done, ∀ y ∈ next x, y ∈ done ∨ y ∈ stage) → (closure key next fuel stage done).Nodup ∧
        ∀ z, z ∈ closure key next fuel stage done ↔
          ∃ x, (x ∈ done ∨ x ∈ stage) ∧ ReflTransGen (Next next) x z := by
  intro fuel stage done hstage hdone hsn hdn hdisj hfuel hfront
  rw [closure_eq_cached]
  -- the result so far is what was taken, and everything counts
  obtain ⟨hsound, hcovered⟩ := @cachedClosure_spec α next _ key (fun _ => none) (fun _ => True) univ huniv nofun
    fuel stage done done hstage hdone hsn hdn hdisj (fun x hx => hx) hfuel
    (fun x hx y hy => (hfront x hx y hy).imp_right .inl) (fun x hx => .inl hx)
  refine ⟨nodup_cachedClosure key hdn, fun z => ⟨fun hz => ?_, fun hz => ?_⟩⟩
  · rcases hsound z hz with hz | ⟨x, hx, hreach⟩
    · exact ⟨z, .inl hz, .refl⟩
    · exact ⟨x, .inr hx, hreach⟩
  · obtain ⟨x, hx, hreach⟩ := hz
    exact hcovered x (hx.imp_right .inl) z trivial hreach

end OrderedSet
