import Mathlib.Data.List.Nodup

/-! # Logs of writes, and undoing them

  A partial map changed by a log of writes, where a write of `none` deletes. What a log leaves at a
  key it writes does not depend on the map it started from, so replaying a log over a half-written
  map repairs it.

  An `Effect` spends entries and adds entries. Undoing it puts back what it spent, possibly through a
  lossy copy `f`.
-/

namespace WriteLog

open Function List Prod

variable {K V : Type} [DecidableEq K]

/-! ### Running a log -/

/-- The map after the writes of a log, the oldest first. -/
def run (m : K → Option V) (log : List (K × Option V)) : K → Option V :=
  log.foldl (fun m w => update m w.1 w.2) m

@[simp] theorem run_nil (m : K → Option V) : run m [] = m := rfl

@[simp] theorem run_cons (m : K → Option V) (w : K × Option V) (log : List (K × Option V)) :
    run m (w :: log) = run (update m w.1 w.2) log := rfl

variable (m : K → Option V)

theorem run_append (log log' : List (K × Option V)) :
    run m (log ++ log') = run (run m log) log' := foldl_append ..

theorem run_of_notMem {log : List (K × Option V)} {k : K} (h : k ∉ log.map fst)
    (m : K → Option V) : run m log k = m k := by
  induction log generalizing m with
  | nil => rfl
  | cons w log ih =>
    rw [map_cons, mem_cons, not_or] at h
    rw [run_cons, ih h.2, update_of_ne h.1]

theorem run_congr {log : List (K × Option V)} {k : K} {m m' : K → Option V}
    (h : k ∉ log.map fst → m k = m' k) : run m log k = run m' log k := by
  induction log generalizing m m' with
  | nil => exact h (by simp)
  | cons w log ih =>
    rw [run_cons, run_cons]
    apply ih
    intro hk
    by_cases hw : k = w.1
    · rw [hw, update_self, update_self]
    · rw [update_of_ne hw, update_of_ne hw]
      apply h
      simp only [map_cons, mem_cons, not_or]
      exact ⟨hw, hk⟩

/-- **Recovery.** A map that holds at every key what one of two states holds is repaired by going from
    the first state back to a third, and from there to the second. -/
theorem run_mixed {old fork new m : K → Option V} {back forth : List (K × Option V)}
    (hback : run old back = fork) (hforth : run fork forth = new)
    (hm : ∀ k, m k = old k ∨ m k = new k) : run (run m back) forth = new := by
  funext k
  rw [← run_append]
  rcases hm k with hk | hk
  · rw [← hforth, ← hback, ← run_append]
    exact run_congr fun _ => hk
  · by_cases hmem : k ∈ (back ++ forth).map fst
    · rw [← hforth, ← hback, ← run_append]
      exact run_congr fun hnot => absurd hmem hnot
    · rw [run_of_notMem hmem, hk]

theorem run_of_mem {log : List (K × Option V)} (hnd : (log.map fst).Nodup) {w : K × Option V}
    (h : w ∈ log) (m : K → Option V) : run m log w.1 = w.2 := by
  induction log generalizing m with
  | nil => cases h
  | cons w' log ih =>
    rw [map_cons, nodup_cons] at hnd
    rcases mem_cons.mp h with rfl | h
    · rw [run_cons, run_of_notMem hnd.1, update_self]
    · exact ih hnd.2 h _

/-! ### Deleting and inserting -/

/-- The writes that delete `ks`. -/
def deletes (ks : List K) : List (K × Option V) := ks.map fun k => (k, none)

/-- The writes that insert `es`. -/
def inserts (es : List (K × V)) : List (K × Option V) := es.map fun e => (e.1, some e.2)

omit [DecidableEq K] in
@[simp] theorem map_fst_deletes (ks : List K) : (deletes (V := V) ks).map fst = ks := by
  simp [deletes, comp_def]

omit [DecidableEq K] in
@[simp] theorem map_fst_inserts (es : List (K × V)) : (inserts es).map fst = es.map fst := by
  simp [inserts, comp_def]

theorem run_deletes (ks : List K) (k : K) : run m (deletes ks) k = if k ∈ ks then none else m k := by
  split
  · next h =>
    -- from the empty map a delete changes nothing
    have hempty : ∀ ks : List K, run (fun _ => (none : Option V)) (deletes ks) = fun _ => none := by
      intro ks
      induction ks with
      | nil => rfl
      | cons k ks ih =>
        show run (update _ k none) (deletes ks) = _
        rw [update_eq_self_iff.mpr rfl, ih]
    have hstart : run m (deletes ks) k = run (fun _ => none) (deletes ks) k :=
      run_congr fun hk => absurd h (by simpa using hk)
    rw [hstart, hempty]
  · next h => exact run_of_notMem (by simpa using h) m

theorem run_inserts_of_mem {es : List (K × V)} (hnd : (es.map fst).Nodup) {e : K × V}
    (h : e ∈ es) (m : K → Option V) : run m (inserts es) e.1 = some e.2 := by
  have hnd' : ((inserts es).map fst).Nodup := by rwa [map_fst_inserts]
  have hmem : (e.1, some e.2) ∈ inserts es := mem_map.mpr ⟨e, h, rfl⟩
  exact run_of_mem hnd' hmem m

/-! ### Effects and their undo logs -/

/-- What a transaction does: entries spent, then entries added. -/
structure Effect (K V : Type) where
  spends : List (K × V)
  adds : List (K × V)

namespace Effect

def spentKeys (e : Effect K V) : List K := e.spends.map Prod.fst

def addedKeys (e : Effect K V) : List K := e.adds.map Prod.fst

def log (e : Effect K V) : List (K × Option V) := deletes e.spentKeys ++ inserts e.adds

/-- Delete what was added, then put back what was spent, the last first, as `f` copies it. -/
def undoLog (f : V → V) (e : Effect K V) : List (K × Option V) :=
  deletes e.addedKeys ++ inserts (e.spends.reverse.map fun p => (p.1, f p.2))

/-- The entries to spend are there, each once; the keys to add are free once those are gone. -/
structure Enabled (e : Effect K V) (m : K → Option V) : Prop where
  spent_nodup : e.spentKeys.Nodup
  added_nodup : e.addedKeys.Nodup
  present : ∀ p ∈ e.spends, m p.1 = some p.2
  fresh : ∀ k ∈ e.addedKeys, k ∉ e.spentKeys → m k = none

variable {e : Effect K V} {m : K → Option V}

theorem Enabled.run_of_mem_adds (h : e.Enabled m) {p : K × V} (hp : p ∈ e.adds) :
    run m e.log p.1 = some p.2 := by
  rw [log, run_append]
  exact run_inserts_of_mem h.added_nodup hp _

theorem run_log_of_notMem_added {k : K} (hadd : k ∉ e.addedKeys) :
    run m e.log k = if k ∈ e.spentKeys then none else m k := by
  rw [log, run_append, run_of_notMem (by rwa [map_fst_inserts]), run_deletes]

end Effect

/-! ### Undoing -/

/-- `n` holds what `m` holds, but as `f` copies it at the keys `ks`. -/
def Forgets (f : V → V) (ks : List K) (m n : K → Option V) : Prop :=
  ∀ k, n k = if k ∈ ks then (m k).map f else m k

theorem Forgets.refl (f : V → V) (m : K → Option V) : Forgets f [] m m := by
  intro k
  simp

variable {ks : List K} {f : V → V}

section
variable {m n : K → Option V} (h : Forgets f ks m n)
include h

theorem Forgets.eq_none {k : K} (hk : m k = none) : n k = none := by
  rw [h k, hk]
  split <;> rfl

theorem Forgets.eq_iff : (∀ k, n k = m k) ↔ ∀ k ∈ ks, ∀ v, m k = some v → f v = v := by
  constructor
  · intro heq k hk v hv
    have hk' := h k
    rw [if_pos hk, heq k, hv] at hk'
    exact (Option.some.inj hk').symm
  · intro hf k
    rw [h k]
    split
    · next hk =>
      cases hv : m k with
      | none => rfl
      | some v => rw [Option.map_some, hf k hk v hv]
    · rfl

theorem Forgets.map_eq {W : Type} {g : V → W} (hg : ∀ v, g (f v) = g v) (k : K) :
    (n k).map g = (m k).map g := by
  rw [h k]
  split
  · rw [Option.map_map]
    congr 1
    funext v
    exact hg v
  · rfl

end

/-- **Undo, one effect**: by cases on where a key was spent or added. -/
theorem Forgets.undo {m n : K → Option V} {e : Effect K V} (h : Forgets f ks (run m e.log) n)
    (he : e.Enabled m) : Forgets f (e.spentKeys ++ ks) m (run n (e.undoLog f)) := by
  intro k
  have hkeys : (e.spends.reverse.map fun p => (p.1, f p.2)).map fst = e.spentKeys.reverse := by
    simp [Effect.spentKeys]
  rw [Effect.undoLog, run_append]
  by_cases hspent : k ∈ e.spentKeys
  · obtain ⟨p, hp, rfl⟩ := mem_map.mp hspent
    rw [if_pos (mem_append_left _ hspent), he.present p hp]
    apply run_inserts_of_mem (e := (p.1, f p.2))
    · rw [hkeys, nodup_reverse]
      exact he.spent_nodup
    · exact mem_map.mpr ⟨p, mem_reverse.mpr hp, rfl⟩
  · rw [run_of_notMem (by rwa [map_fst_inserts, hkeys, mem_reverse]), run_deletes]
    by_cases hadd : k ∈ e.addedKeys
    · rw [if_pos hadd, he.fresh k hadd hspent]
      split <;> rfl
    · rw [if_neg hadd, h k, Effect.run_log_of_notMem_added hadd, if_neg hspent]
      simp only [mem_append, hspent, false_or]

end WriteLog
