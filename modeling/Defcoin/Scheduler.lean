import Defcoin.Framework.Machine
import Mathlib.Data.List.Sort

/-! # The scheduler

  Any number of threads are in `serviceQueue`. A thread gives up the lock only to wait and to run a
  task, so that what it does in between is one step. A thread whose wait has timed out runs the task
  that is then the first one, which need not be the task it has waited for.
-/

namespace Defcoin

open List

/-- Where a thread is while it does not hold the lock. -/
inductive Place where
  /-- not in `serviceQueue` -/
  | outside
  /-- in `wait`, for something to do -/
  | waiting
  /-- in `wait_until`, for the time of a task -/
  | waitingUntil (task : Nat × Nat)
  /-- in a task -/
  | running
  deriving DecidableEq

/-- `CScheduler`, with the threads `ι`. Tasks are numbered by the calls of `schedule`. -/
structure CScheduler (ι : Type) where
  /-- times and tasks -/
  taskQueue : List (Nat × Nat)
  stopRequested : Bool
  stopWhenEmpty : Bool
  /-- the number of calls of `schedule` -/
  scheduled : Nat
  now : Nat
  place : ι → Place
  /-- the tasks that were started, with the time they were scheduled for and that of the start -/
  started : List (Nat × Nat × Nat)

namespace CScheduler
variable {ι : Type} [DecidableEq ι] (s : CScheduler ι) (i : ι)

def new : CScheduler ι where
  taskQueue := []
  stopRequested := false
  stopWhenEmpty := false
  scheduled := 0
  now := 0
  place _ := .outside
  started := []

def shouldStop : Bool := s.stopRequested || (s.stopWhenEmpty && s.taskQueue.isEmpty)

/-- `schedule`: a task goes behind those of the same time. -/
def schedule (t : Nat) : CScheduler ι :=
  { s with
    taskQueue := s.taskQueue.orderedInsert (fun a b => a.1 < b.1) (t, s.scheduled)
    scheduled := s.scheduled + 1 }

/-- The loops of `serviceQueue` up to the next wait, or the end. -/
def resume : CScheduler ι :=
  { s with
    place := Function.update s.place i <|
      if s.shouldStop then .outside
      else
        match s.taskQueue with
        | [] => .waiting
        | task :: _ => .waitingUntil task }

/-- `serviceQueue` after a time-out, up to the call of the task. -/
def runFirst : CScheduler ι :=
  if s.shouldStop then s.resume i
  else
    match s.taskQueue with
    | [] => s.resume i
    | task :: rest =>
      { s with
        taskQueue := rest
        place := Function.update s.place i .running
        started := s.started ++ [(task.2, task.1, s.now)] }

inductive Event (ι : Type) where
  | schedule (t : Nat)
  | stop
  | stopWhenDrained
  /-- time passes -/
  | tick (duration : Nat)
  /-- a thread calls `serviceQueue` -/
  | enter (i : ι)
  /-- a thread is woken up, for a reason or for none -/
  | wake (i : ι)
  /-- a thread is woken up by the clock and gets the lock -/
  | timeOut (i : ι)
  | finish (i : ι)
  /-- the task throws -/
  | throw (i : ι)

/-- The state after an event, if it can happen. -/
def machine : Machine (CScheduler ι) (Event ι) Unit Unit where
  step s
    | .schedule t => .ok ((), s.schedule t)
    | .stop => .ok ((), { s with stopRequested := true })
    | .stopWhenDrained => .ok ((), { s with stopWhenEmpty := true })
    | .tick duration => .ok ((), { s with now := s.now + duration })
    | .enter i => if s.place i = .outside then .ok ((), s.resume i) else .error ()
    | .wake i =>
      match s.place i with
      | .waiting | .waitingUntil _ => .ok ((), s.resume i)
      | _ => .error ()
    | .timeOut i =>
      match s.place i with
      | .waitingUntil task => if task.1 ≤ s.now then .ok ((), s.runFirst i) else .error ()
      | _ => .error ()
    | .finish i => if s.place i = .running then .ok ((), s.resume i) else .error ()
    | .throw i =>
      if s.place i = .running then .ok ((), { s with place := Function.update s.place i .outside })
      else .error ()

def Timely : Prop := ∀ e ∈ s.started, e.2.1 ≤ e.2.2

/-- The task that a thread has waited for was not started by another one. -/
def NotTaken (e : Event ι) : Prop :=
  ∀ i task, e = .timeOut i → s.place i = .waitingUntil task → task.2 ∉ s.started.map Prod.fst

def tasks : List Nat := s.started.map Prod.fst ++ s.taskQueue.map Prod.snd

/-- Every task is in one place, and the queue is in the order of times and then of calls. -/
def Orderly (s : CScheduler ι) : Prop :=
  s.tasks.Perm (range s.scheduled) ∧ s.taskQueue.Pairwise (Prod.Lex (· < ·) (· < ·))

/-! ### Steps -/

variable {s i} {e : Event ι} {s' : CScheduler ι} {o : Unit}

theorem place_resume {j : ι} {task : Nat × Nat} (h : (s.resume i).place j = .waitingUntil task) :
    s.place j = .waitingUntil task ∨ task ∈ s.taskQueue := by
  simp only [resume] at h
  by_cases hj : j = i
  · rw [hj, Function.update_self] at h
    split_ifs at h
    split at h
    · cases h
    · rename_i hqueue
      cases h
      exact .inr (hqueue ▸ mem_cons_self)
  · rw [Function.update_of_ne hj] at h
    exact .inl h

theorem step_cases (h : machine.step s e = .ok (o, s')) :
    (s'.taskQueue = s.taskQueue ∧ s'.started = s.started ∧ s'.scheduled = s.scheduled ∧
        ∀ j task, s'.place j = .waitingUntil task → s.place j = .waitingUntil task ∨ task ∈ s.taskQueue) ∨
      (∃ t, e = .schedule t ∧ s' = s.schedule t) ∨
      ∃ i awaited task rest, e = .timeOut i ∧ s.place i = .waitingUntil awaited ∧ awaited.1 ≤ s.now ∧
        s.taskQueue = task :: rest ∧ s'.taskQueue = rest ∧
        s'.started = s.started ++ [(task.2, task.1, s.now)] ∧ s'.scheduled = s.scheduled ∧
        s'.place = Function.update s.place i .running := by
  -- whatever ends in `resume` leaves the queue alone
  have hresume : ∀ i, (s.resume i).taskQueue = s.taskQueue ∧ (s.resume i).started = s.started ∧
      (s.resume i).scheduled = s.scheduled ∧ ∀ j task, (s.resume i).place j = .waitingUntil task →
        s.place j = .waitingUntil task ∨ task ∈ s.taskQueue :=
    fun i => ⟨rfl, rfl, rfl, fun _ _ => place_resume⟩
  cases e with
  | schedule t =>
    cases h
    exact .inr (.inl ⟨t, rfl, rfl⟩)
  | stop | stopWhenDrained | tick =>
    cases h
    exact .inl ⟨rfl, rfl, rfl, fun _ _ => .inl⟩
  | enter i | finish i =>
    simp only [machine] at h
    split_ifs at h
    cases h
    exact .inl (hresume i)
  | wake i =>
    simp only [machine] at h
    split at h <;> cases h <;> exact .inl (hresume i)
  | throw i =>
    simp only [machine] at h
    split_ifs at h
    cases h
    refine .inl ⟨rfl, rfl, rfl, fun j task hplace => .inl ?_⟩
    simp only [Function.update_apply] at hplace
    split_ifs at hplace
    exact hplace
  | timeOut i =>
    -- the only event that takes a task from the queue
    simp only [machine] at h
    split at h
    · rename_i awaited hplace
      split_ifs at h with hdue
      cases h
      unfold runFirst
      split_ifs
      · exact .inl (hresume i)
      · split
        · exact .inl (hresume i)
        · rename_i task rest hqueue
          exact .inr (.inr ⟨i, awaited, task, rest, rfl, hplace, hdue, hqueue, rfl, rfl, rfl, rfl⟩)
    · cases h

theorem Orderly.step (hs : s.Orderly) (h : machine.step s e = .ok (o, s')) : s'.Orderly := by
  rcases step_cases h with ⟨hqueue, hstarted, hscheduled, -⟩ | ⟨t, rfl, rfl⟩ |
    ⟨i, awaited, task, rest, rfl, -, -, hqueue, hqueue', hstarted, hscheduled, -⟩
  · rwa [Orderly, tasks, hqueue, hstarted, hscheduled]
  · constructor
    · rw [schedule, range_succ]
      exact (((perm_orderedInsert _ _ _).map _).append_left _).trans
        (perm_middle.trans ((hs.1.cons _).trans (perm_append_singleton _ _).symm))
    · have hold : ∀ x ∈ s.taskQueue, x.2 < s.scheduled := fun x hx =>
        mem_range.mp (hs.1.subset (mem_append_right _ (mem_map_of_mem hx)))
      have hsorted := hs.2
      rw [schedule]
      dsimp only
      -- the new task has the largest number, so it may go behind those of its time
      generalize s.taskQueue = l at hold hsorted
      induction l with
      | nil => exact pairwise_singleton _ _
      | cons a l ih =>
        rw [pairwise_cons] at hsorted
        rw [orderedInsert]
        split <;> grind [pairwise_cons, mem_orderedInsert]
  · rw [Orderly, tasks, hstarted, hqueue', hscheduled, map_append, append_assoc]
    rw [Orderly, tasks, hqueue] at hs
    exact ⟨hs.1, hs.2.tail⟩

/-- What a thread waits for is in the queue, or was started. -/
def Awaited (s : CScheduler ι) : Prop :=
  ∀ i task, s.place i = .waitingUntil task → task ∈ s.taskQueue ∨ task.2 ∈ s.started.map Prod.fst

theorem Awaited.step (hs : s.Awaited) (h : machine.step s e = .ok (o, s')) : s'.Awaited := by
  intro j task hplace
  rcases step_cases h with ⟨hqueue, hstarted, -, hplaces⟩ | ⟨t, rfl, rfl⟩ |
    ⟨i, awaited, first, rest, rfl, -, -, hqueue, hqueue', hstarted, -, hplaces⟩
  · rw [hqueue, hstarted]
    exact (hplaces j task hplace).elim (hs j task) .inl
  · exact (hs j task hplace).imp_left fun hmem => (mem_orderedInsert ..).mpr (.inr hmem)
  · have hother : j ≠ i := by
      rintro rfl
      rw [hplaces, Function.update_self] at hplace
      cases hplace
    rw [hplaces, Function.update_of_ne hother] at hplace
    rw [hqueue', hstarted, map_append, mem_append]
    -- a task that leaves the queue is started
    rcases hs j task hplace with hmem | hmem
    · rw [hqueue, mem_cons] at hmem
      rcases hmem with rfl | hmem
      · exact .inr (.inr (mem_singleton.mpr rfl))
      · exact .inl hmem
    · exact .inr (.inl hmem)

/-- **Step lemma**: the first task is not later than the one that was waited for. -/
theorem Timely.step (htimely : s.Timely) (hord : s.Orderly) (hs : s.Awaited) (he : s.NotTaken e)
    (h : machine.step s e = .ok (o, s')) : s'.Timely := by
  rcases step_cases h with ⟨-, hstarted, -⟩ | ⟨t, rfl, rfl⟩ |
    ⟨i, awaited, task, rest, rfl, hplace, hdue, hqueue, -, hstarted, -⟩
  · rw [Timely, hstarted]
    exact htimely
  · exact htimely
  · have hmem := (hs i awaited hplace).resolve_right (he i awaited rfl hplace)
    have hfirst : task.1 ≤ awaited.1 := by
      have hsorted := hord.2
      rw [hqueue] at hmem hsorted
      rcases mem_cons.mp hmem with rfl | hlater
      · exact le_refl _
      · rcases Prod.lex_def.mp ((pairwise_cons.mp hsorted).1 awaited hlater) with hlt | heq
        · exact hlt.le
        · exact heq.1.le
    rw [Timely, hstarted, forall_mem_append, forall_mem_singleton]
    exact ⟨htimely, hfirst.trans hdue⟩

theorem notTaken_step [Subsingleton ι] (hord : s.Orderly) (hs : ∀ e, s.NotTaken e)
    (h : machine.step s e = .ok (o, s')) : ∀ e, s'.NotTaken e := by
  intro e' j task _ hplace
  rcases step_cases h with ⟨hqueue, hstarted, -, hplaces⟩ | ⟨t, rfl, rfl⟩ | ⟨i, -, -, -, -, -, -, -, -, -, -, hplaces⟩
  · rw [hstarted]
    rcases hplaces j task hplace with hold | hmem
    · exact hs (.timeOut j) j task rfl hold
    · intro hstart
      have hnodup := hord.1.nodup_iff.mpr nodup_range
      exact (nodup_append.mp hnodup).2.2 _ hstart _ (mem_map_of_mem hmem) rfl
  · exact hs (.timeOut j) j task rfl hplace
  · rw [hplaces, Subsingleton.elim j i, Function.update_self] at hplace
    cases hplace

/-! ### Runs -/

omit [DecidableEq ι] in
theorem orderly_new : (new : CScheduler ι).Orderly := ⟨.nil, .nil⟩

omit [DecidableEq ι] in
theorem awaited_new : (new : CScheduler ι).Awaited := by
  intro i task h
  cases h

/-- **Timing**: every task is started at most once. None is started too early if no thread takes a
    task that another one waits for until it times out, so in particular if there is one thread. -/
theorem timely_of_notTaken {es : List (Event ι)} {os : List Unit} (hrun : machine.run new es = .ok (os, s')) :
    (s'.started.map Prod.fst).Nodup ∧
      (machine.Guarded NotTaken (new : CScheduler ι) es → s'.Timely) ∧ (Subsingleton ι → s'.Timely) := by
  have htimely : (new : CScheduler ι).Timely := by simp [Timely, new]
  refine ⟨?_, fun hguard => ?_, fun _ => ?_⟩
  · have hord : s'.Orderly := Machine.run_keeps (fun _ _ _ _ hs h => hs.step h) es new os s' orderly_new hrun
    exact (hord.1.nodup_iff.mpr nodup_range).of_append_left
  · have hstep : ∀ (s : CScheduler ι) e o s', s.Orderly ∧ s.Awaited ∧ s.Timely → s.NotTaken e →
        machine.step s e = .ok (o, s') → s'.Orderly ∧ s'.Awaited ∧ s'.Timely :=
      fun _ _ _ _ hs he h => ⟨hs.1.step h, hs.2.1.step h, hs.2.2.step hs.1 hs.2.1 he h⟩
    exact (Machine.run_keeps_of_guarded hstep es new os s' ⟨orderly_new, awaited_new, htimely⟩ hguard hrun).2.2
  · have hstep : ∀ (s : CScheduler ι) e o s', s.Orderly ∧ s.Awaited ∧ (∀ e, s.NotTaken e) ∧ s.Timely →
        machine.step s e = .ok (o, s') → s'.Orderly ∧ s'.Awaited ∧ (∀ e, s'.NotTaken e) ∧ s'.Timely :=
      fun _ e _ _ hs h => ⟨hs.1.step h, hs.2.1.step h, notTaken_step hs.1 hs.2.2.1 h,
        hs.2.2.2.step hs.1 hs.2.1 (hs.2.2.1 e) h⟩
    have hnew : ∀ e, (new : CScheduler ι).NotTaken e := by simp [NotTaken, new]
    exact (Machine.run_keeps hstep es new os s' ⟨orderly_new, awaited_new, hnew, htimely⟩ hrun).2.2.2

/-- Two tasks and two threads, which both wait for the first task. -/
def twoTasks : List (Event (Fin 2)) :=
  [.schedule 1, .schedule 5, .enter 0, .enter 1, .tick 1, .timeOut 0, .timeOut 1]

/-- The second thread is woken up after the first task was taken, and waits for the second one. -/
def twoWaits : List (Event (Fin 2)) :=
  [.schedule 1, .schedule 5, .enter 0, .enter 1, .tick 1, .timeOut 0, .wake 1, .tick 4, .timeOut 1]

theorem timely_of_notTaken_twoWaits : machine.Guarded NotTaken (new : CScheduler (Fin 2)) twoWaits ∧
    ∃ os s', machine.run (new : CScheduler (Fin 2)) twoWaits = .ok (os, s') ∧
      s'.started = [(0, 1, 1), (1, 5, 5)] ∧ s'.Timely := by
  have hguard : machine.Guarded NotTaken (new : CScheduler (Fin 2)) twoWaits := by
    have hother : ∀ {s : CScheduler (Fin 2)} {e : Event (Fin 2)}, (∀ i, e ≠ .timeOut i) → s.NotTaken e :=
      fun h i _ he => absurd he (h i)
    have hfirst : ∀ {s : CScheduler (Fin 2)} {i task}, s.place i = .waitingUntil task →
        task.2 ∉ s.started.map Prod.fst → s.NotTaken (.timeOut i) := by
      intro s i task hplace hnot i' task' he hplace'
      cases he
      cases hplace.symm.trans hplace'
      exact hnot
    exact Machine.guarded_cons_of_step rfl (hother (by simp)) <|
      Machine.guarded_cons_of_step rfl (hother (by simp)) <|
      Machine.guarded_cons_of_step rfl (hother (by simp)) <|
      Machine.guarded_cons_of_step rfl (hother (by simp)) <|
      Machine.guarded_cons_of_step rfl (hother (by simp)) <|
      Machine.guarded_cons_of_step rfl (hfirst rfl (by decide)) <|
      Machine.guarded_cons_of_step rfl (hother (by simp)) <|
      Machine.guarded_cons_of_step rfl (hother (by simp)) <|
      Machine.guarded_cons_of_step rfl (hfirst rfl (by decide)) trivial
  exact ⟨hguard, _, _, rfl, rfl, (timely_of_notTaken rfl).2.1 hguard⟩

/-- The second task is started at time 1. -/
theorem twoTasks_early : ∃ os s', machine.run (new : CScheduler (Fin 2)) twoTasks = .ok (os, s') ∧
    s'.started = [(0, 1, 1), (1, 5, 1)] ∧ ¬ s'.Timely :=
  ⟨_, _, rfl, rfl, fun h => absurd (h (1, 5, 1) (.tail _ (.head _))) (by decide)⟩

/-- **Accounting**: whatever the threads do, a scheduled task is in the queue or was started, once. -/
theorem no_task_lost (es : List (Event ι)) {os : List Unit} (hrun : machine.run new es = .ok (os, s')) :
    s'.Orderly :=
  Machine.run_keeps (fun _ _ _ _ hs h => hs.step h) es new os s' orderly_new hrun

theorem no_task_lost_twoTasks :
    ∃ os s', machine.run (new : CScheduler (Fin 2)) twoTasks = .ok (os, s') ∧ s'.Orderly :=
  ⟨_, _, rfl, no_task_lost twoTasks rfl⟩

end CScheduler

end Defcoin
