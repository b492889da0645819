/-
Reservations are conserved: what `Dispatch` adds to an instance's
`outstanding_cost` is there until the task's `TaskScope` is left, and not
a moment longer.

# What is counted

`outstanding s i` is the multiset of the submissions dispatched to
instance `i` that have not completed: held by a call between `Dispatch`
and `Submit`, standing in the pool's queue, or in their scope on its
thread. Two more are in between. A task in `dispatching` has its cost
added and is not counted yet, for `Dispatch` makes two updates; a task in
`releasing` has its cost released and its completion not counted yet, for
so does the destructor. The two equations (`Accounted`) are exact in
every state, with these terms, and lose them where no thread is in
between.

# Why it holds

`Measured` says which submissions can be where: only functors' are
measured, each by the instance in whose pool it is, so the cost that a
destructor releases is the cost of its own instance. It says too what a
scope saved: nothing, since a thread that takes a task is idle, and that
is why restoring it leaves the thread with no task. A step then moves one
submission from one term to the next, or moves none.
-/
import Mathlib.Algebra.BigOperators.Group.Multiset.Basic
import Mathlib.Algebra.Order.BigOperators.Group.Multiset
import Mathlib.Algebra.Order.Group.Int
import Mathlib.Tactic.Abel
import Mathlib.Tactic.Ring
import Arcae.Model.IsolatedTableProxy

namespace Arcae

open Lts

variable {n : Nat} {throws : Nat → Nat → Option String} {s s' : State}
  {e : Event} {i j : Nat}

-- ======================================================= what is where

/-- The submission, where instance `i` measures it. -/
def Submission.on (i : Nat) (x : Submission) : Multiset Submission :=
  if x.stats = some i then {x} else 0

/-- A call whose `Dispatch` has reserved and not yet counted. -/
def Call.dispatching (i : Nat) : Call → Multiset Submission
  | .counting _ x _ => x.on i
  | _ => 0

/-- A call whose `Dispatch` has returned, before `Submit`. -/
def Call.dispatched (i : Nat) : Call → Multiset Submission
  | .submitting _ x _ => x.on i
  | _ => 0

/-- The phases of a task within its `TaskScope`. -/
def Phase.inScope : Phase → Bool
  | .entered | .checked | .inside | .leaving _ => true
  | .released _ | .finished => false

/-- The phase between the two updates of `~TaskScope`. -/
def Phase.isReleased : Phase → Bool
  | .released _ => true
  | _ => false

/-- The submission a thread carries in a phase that `inPhase` picks. -/
def Pool.carried (pool : Pool) (inPhase : Phase → Bool) (i : Nat) :
    Multiset Submission :=
  match pool.running with
  | some r => if inPhase r.phase then r.task.submission.on i else 0
  | none => 0

/-- The submissions waiting in a pool's queue. -/
def Pool.waiting (pool : Pool) (i : Nat) : Multiset Submission :=
  (pool.queue.map fun task => task.submission.on i).sum

/-- The measured task that a pool's thread is running. -/
def Pool.measuredTask (pool : Pool) : RunningTask :=
  match pool.running with
  | some r =>
      if r.phase.inScope ∧ r.task.submission.stats.isSome then
        { stats := r.task.submission.stats, cost := r.task.submission.cost }
      else {}
  | none => {}

namespace State

/-- Submissions reserved on instance `i`, and not counted yet. -/
def dispatching (s : State) (i : Nat) : Multiset Submission :=
  (s.calls.map fun c => c.2.dispatching i).sum

/-- The tasks dispatched to instance `i` that have not completed. -/
def outstanding (s : State) (i : Nat) : Multiset Submission :=
  (s.calls.map fun c => c.2.dispatched i).sum + (s.pools i).waiting i +
    (s.pools i).carried Phase.inScope i

/-- Submissions released on instance `i`, and not counted yet. -/
def releasing (s : State) (i : Nat) : Multiset Submission :=
  (s.pools i).carried Phase.isReleased i

/-- The measured task that a thread is running, of no instance if it
runs none. -/
def measuredTask (s : State) : Thread → RunningTask
  | .outside _ => {}
  | .isolation i => (s.pools i).measuredTask

end State

/-- The costs of some submissions, added up. -/
def costs (m : Multiset Submission) : Int :=
  (m.map Submission.cost).sum

@[simp] theorem costs_zero : costs 0 = 0 := rfl

@[simp] theorem costs_singleton (x : Submission) : costs {x} = x.cost := by
  simp [costs]

@[simp] theorem costs_add (m k : Multiset Submission) :
    costs (m + k) = costs m + costs k := by
  simp [costs]

-- ======================================================= what is measured

/-- In pool `i`, functors are those submitted to instance `i` and
measured by it, and nothing else is measured. -/
def Task.Fits (i : Nat) (task : Task) : Prop :=
  match task.body with
  | .functor _ =>
      task.submission.inst = i ∧ task.submission.stats = some i
  | _ => task.submission.stats = none

theorem Task.Fits.stats_eq {task : Task} (h : task.Fits i) {inst : Nat}
    (hstats : task.submission.stats = some inst) : inst = i := by
  unfold Task.Fits at h
  rw [hstats] at h
  split at h
  · exact Option.some.inj h.2
  · cases h

theorem Task.Fits.inst_eq {task : Task} (h : task.Fits i) {p : Nat}
    (hbody : task.body = .functor p) : task.submission.inst = i := by
  unfold Task.Fits at h
  rw [hbody] at h
  exact h.1

theorem Task.Fits.unmeasured {task : Task} (h : task.Fits i) {p : Nat}
    (hbody : task.body = .close p) : task.submission.stats = none := by
  unfold Task.Fits at h
  rw [hbody] at h
  exact h

/-- `Dispatch` makes measured submissions. -/
def Call.Measured : Call → Prop
  | .counting _ x _ => x.stats = some x.inst
  | .submitting _ x _ => x.stats = some x.inst
  | _ => True

/-- Pool `i` holds what instance `i` measures, and `current`, its
thread's `current_task`, is the task it runs. -/
structure Pool.Measured (i : Nat) (pool : Pool) (current : RunningTask) :
    Prop where
  queue : ∀ task ∈ pool.queue, task.Fits i
  running : ∀ r, pool.running = some r → r.task.Fits i
  released : ∀ r status, pool.running = some r →
    r.phase = .released status → r.task.submission.stats = some i
  previous : ∀ r, pool.running = some r → r.previous = {}
  current : current = pool.measuredTask

/-- Which submissions can be where, and what the threads' `current_task`
is. -/
structure Measured (s : State) : Prop where
  calls : ∀ c ∈ s.calls, c.2.Measured
  pools : ∀ i, (s.pools i).Measured i (s.currentTask (.isolation i))
  outside : ∀ k, s.currentTask (.outside k) = {}

theorem Measured.init (n : Nat) : Measured (State.init n) := by
  refine ⟨?_, fun i => ?_, fun _ => rfl⟩
  · intro c hc
    simp only [State.init] at hc
    split at hc
    · rw [Multiset.mem_singleton] at hc
      rw [hc]
      trivial
    · exact absurd hc (Multiset.notMem_zero c)
  · exact ⟨by simp [State.init], by simp [State.init],
      by simp [State.init], by simp [State.init], rfl⟩

/-- What holds of the calls in progress holds without one of them. -/
theorem Measured.dropCall (h : Measured s) {c : Thread × Call}
    {rest : Calls} (hcalls : s.calls = c ::ₘ rest) :
    ∀ d ∈ rest, d.2.Measured := by
  intro d hd
  refine h.calls d ?_
  rw [hcalls]
  exact Multiset.mem_cons_of_mem hd

/-- The call in progress that a step is about. -/
theorem Measured.call (h : Measured s) {c : Thread × Call} {rest : Calls}
    (hcalls : s.calls = c ::ₘ rest) : c.2.Measured := by
  refine h.calls c ?_
  rw [hcalls]
  exact Multiset.mem_cons_self c rest

/-- One call more. -/
theorem forall_measured_cons {c : Thread × Call} {rest : Calls}
    (hc : c.2.Measured) (hrest : ∀ d ∈ rest, d.2.Measured) :
    ∀ d ∈ c ::ₘ rest, d.2.Measured := by
  intro d hd
  rcases Multiset.mem_cons.mp hd with rfl | hd
  · exact hc
  · exact hrest d hd

/-- One pool changed, with its thread's `current_task`. -/
theorem Measured.setPool (h : Measured s) {pool : Pool}
    {current : RunningTask} (hpool : pool.Measured i current)
    (hcalls : ∀ c ∈ s'.calls, c.2.Measured)
    (hpools : s'.pools = Function.update s.pools i pool)
    (hcurrent : s'.currentTask
      = Function.update s.currentTask (.isolation i) current) :
    Measured s' := by
  refine ⟨hcalls, fun j => ?_, fun k => ?_⟩
  · rw [hpools, hcurrent]
    by_cases hj : j = i
    · subst hj
      simpa using hpool
    · have hth : Thread.isolation j ≠ .isolation i := by simpa using hj
      rw [Function.update_of_ne hj, Function.update_of_ne hth]
      exact h.pools j
  · rw [hcurrent, Function.update_of_ne (by simp)]
    exact h.outside k

/-- One pool changed, and no `current_task`. -/
theorem Measured.setPoolOnly (h : Measured s) {pool : Pool}
    (hpool : pool.Measured i (s.currentTask (.isolation i)))
    (hcalls : ∀ c ∈ s'.calls, c.2.Measured)
    (hpools : s'.pools = Function.update s.pools i pool)
    (hcurrent : s'.currentTask = s.currentTask) : Measured s' :=
  h.setPool hpool hcalls hpools
    (by rw [hcurrent, Function.update_eq_self])

/-- A task for the pool goes to its queue. -/
theorem Pool.Measured.enqueue {pool : Pool} {current : RunningTask}
    (h : pool.Measured i current) (task : Task)
    (htask : task.Fits i) :
    ({ pool with queue := pool.queue ++ [task] } : Pool).Measured i
      current := by
  refine ⟨fun t ht => ?_, h.running, h.released, h.previous, h.current⟩
  rcases List.mem_append.mp ht with ht | ht
  · exact h.queue t ht
  · rw [List.mem_singleton.mp ht]
    exact htask

/-- An idle thread takes a task: it saves no task, and runs this one if
it is measured. -/
theorem Pool.Measured.start {pool : Pool} {current : RunningTask}
    (h : pool.Measured i current) {task : Task} {rest : List Task}
    (hidle : pool.running = none) (hqueue : pool.queue = task :: rest) :
    ({ queue := rest,
       running := some
        { task := task, previous := current, phase := .entered } } :
      Pool).Measured i
      (match task.submission.stats with
        | none => current
        | some inst =>
            { stats := some inst, cost := task.submission.cost }) := by
  have hcurrent : current = {} := by
    rw [h.current, Pool.measuredTask, hidle]
  have hfits : task.Fits i := h.queue task (by simp [hqueue])
  refine ⟨fun t ht => h.queue t (by simp [hqueue, ht]), ?_, ?_, ?_, ?_⟩
  · intro r hof
    cases hof
    exact hfits
  · intro r status hof hof'
    cases hof
    cases hof'
  · intro r hof
    cases hof
    exact hcurrent
  · rcases hstats : task.submission.stats with _ | inst
    · simp [Pool.measuredTask, hstats, hcurrent]
    · simp [Pool.measuredTask, hstats, Phase.inScope]

/-- The task goes on to a phase on the same side of its scope's end. -/
theorem Pool.Measured.setPhase {pool : Pool} {current : RunningTask}
    (h : pool.Measured i current) {r : Running} (phase : Phase)
    (hr : pool.running = some r) (hscope : phase.inScope = r.phase.inScope)
    (hreleased : phase.isReleased = false) :
    ({ pool with running := some { r with phase := phase } } :
      Pool).Measured i current := by
  refine ⟨h.queue, ?_, ?_, ?_, ?_⟩
  · intro _ hof
    cases hof
    exact h.running r hr
  · intro _ status hof heq
    cases hof
    subst heq
    cases hreleased
  · intro _ hof
    cases hof
    exact h.previous r hr
  · rw [h.current]
    simp [Pool.measuredTask, hr, hscope]

/-- A task without statistics leaves its scope: nothing is restored,
and nothing had been saved. -/
theorem Pool.Measured.leaveUnmeasured {pool : Pool}
    {current : RunningTask} (h : pool.Measured i current) {r : Running}
    (hr : pool.running = some r) (hstats : r.task.submission.stats = none) :
    ({ pool with running := some { r with phase := .finished } } :
      Pool).Measured i current := by
  refine ⟨h.queue, ?_, ?_, ?_, ?_⟩
  · intro _ hof
    cases hof
    exact h.running r hr
  · intro _ status hof hof'
    cases hof
    cases hof'
  · intro _ hof
    cases hof
    exact h.previous r hr
  · rw [h.current]
    simp [Pool.measuredTask, hr, hstats, Phase.inScope]

/-- A measured task leaves its scope, and its thread runs no task. -/
theorem Pool.Measured.leaveMeasured {pool : Pool}
    {current : RunningTask} (h : pool.Measured i current) {r : Running}
    {inst : Nat} {status : Except String Unit}
    (hr : pool.running = some r)
    (hstats : r.task.submission.stats = some inst) :
    ({ pool with running := some { r with phase := .released status } } :
      Pool).Measured i r.previous := by
  have hinst : r.task.submission.stats = some i := by
    rw [hstats, (h.running r hr).stats_eq hstats]
  refine ⟨h.queue, ?_, ?_, ?_, ?_⟩
  · intro _ hof
    cases hof
    exact h.running r hr
  · intro _ _ hof _
    cases hof
    exact hinst
  · intro _ hof
    cases hof
    exact h.previous r hr
  · rw [h.previous r hr]
    simp [Pool.measuredTask, Phase.inScope]

/-- The thread is done with its task. -/
theorem Pool.Measured.idle {pool : Pool} {current : RunningTask}
    (h : pool.Measured i current) {r : Running}
    (hr : pool.running = some r) (hphase : r.phase.inScope = false) :
    ({ pool with running := none } : Pool).Measured i current := by
  refine ⟨h.queue, by simp, by simp, by simp, ?_⟩
  rw [h.current]
  simp [Pool.measuredTask, hr, hphase]

/-- `close()` changes nothing but a table. -/
theorem close_frame (s : State) (throws : Nat → Nat → Option String)
    (p i : Nat) :
    (s.close throws p i).calls = s.calls ∧
      (s.close throws p i).pools = s.pools ∧
      (s.close throws p i).currentTask = s.currentTask ∧
      (s.close throws p i).stats = s.stats := by
  unfold State.close
  split <;> exact ⟨rfl, rfl, rfl, rfl⟩

/-- The thread that has run `Close`'s task goes on to its callbacks. -/
theorem close_pools (s : State) (throws : Nat → Nat → Option String)
    (p i : Nat) (r : Running) (status : Except String Unit) :
    ((s.close throws p i).finishFuture i r status).pools
      = Function.update s.pools i
          { s.pools i with
            running := some { r with phase := .finished } } := by
  simp only [State.finishFuture, State.setRunning, (close_frame ..).2.1]

/-- Every step keeps measured what is measured. -/
theorem Measured.step (h : Measured s) (hs : Step n throws s e s') :
    Measured s' := by
  cases hs with
  | refuse | closeAgain => exact h
  | run | close | spawn =>
      exact ⟨forall_measured_cons trivial h.calls, h.pools, h.outside⟩
  | scan hcalls =>
      refine ⟨forall_measured_cons ?_ (h.dropCall hcalls), h.pools,
        h.outside⟩
      unfold State.scan
      split <;> trivial
  | reserve hcalls =>
      exact ⟨forall_measured_cons rfl (h.dropCall hcalls), h.pools,
        h.outside⟩
  | @count th p x sync rest hcalls =>
      have hx : x.stats = some x.inst := h.call hcalls
      exact ⟨forall_measured_cons hx (h.dropCall hcalls), h.pools,
        h.outside⟩
  | @submit th p x sync rest hcalls =>
      have hx : x.stats = some x.inst := h.call hcalls
      have htask : Task.Fits x.inst
          { body := .functor p, submission := x, future := s.nFutures } :=
        ⟨rfl, hx⟩
      refine h.setPoolOnly ((h.pools x.inst).enqueue _ htask) ?_ rfl rfl
      unfold State.submit
      split
      · exact forall_measured_cons trivial (h.dropCall hcalls)
      · exact h.dropCall hcalls
  | wake hcalls => exact ⟨h.dropCall hcalls, h.pools, h.outside⟩
  | @start i task rest hidle hqueue =>
      refine h.setPool ((h.pools i).start hidle hqueue) h.calls rfl ?_
      simp only [State.start]
      cases task.submission.stats with
      | none => exact (Function.update_eq_self _ _).symm
      | some inst => rfl
  | @check i p r hr hbody hphase =>
      refine h.setPoolOnly ((h.pools i).setPhase _ hr ?_ ?_) h.calls rfl rfl
      all_goals
        unfold State.check
        split <;> simp [hphase, Phase.inScope, Phase.isReleased]
  | @invoke i p r hr hbody hphase =>
      refine h.setPoolOnly ((h.pools i).setPhase _ hr ?_ rfl) h.calls rfl rfl
      simp [hphase, Phase.inScope]
  | @construct i r hr hbody hphase =>
      refine h.setPoolOnly ((h.pools i).setPhase _ hr ?_ rfl) h.calls rfl rfl
      simp [hphase, Phase.inScope]
  | @ends i r ending hr hphase hfree =>
      refine h.setPoolOnly ((h.pools i).setPhase _ hr ?_ rfl) h.calls rfl rfl
      simp [hphase, Phase.inScope]
  | @leaveScope i r status hr hphase =>
      unfold State.leaveScope
      split
      · next hstats =>
        exact h.setPoolOnly ((h.pools i).leaveUnmeasured hr hstats) h.calls
          rfl rfl
      · next hstats =>
        exact h.setPool ((h.pools i).leaveMeasured hr hstats) h.calls
          rfl rfl
  | @complete i r status hr hphase =>
      have hfinished := (h.pools i).setPhase .finished hr
        (by simp [hphase, Phase.inScope]) rfl
      unfold State.complete
      split
      · exact h.setPoolOnly hfinished h.calls rfl rfl
      · exact h.setPoolOnly hfinished h.calls rfl rfl
  | @closeTask i p r hr hbody hphase =>
      have hstats := ((h.pools i).running r hr).unmeasured hbody
      obtain ⟨hcalls, -, hcurrent, -⟩ := close_frame s throws p i
      refine h.setPoolOnly ((h.pools i).leaveUnmeasured hr hstats) ?_
        (close_pools ..) hcurrent
      simpa [State.finishFuture, State.setRunning, hcalls] using h.calls
  | @idle i r hr hphase hfree =>
      exact h.setPoolOnly ((h.pools i).idle hr (by rw [hphase]; rfl))
        h.calls rfl rfl
  | @closeInline p next results status rest hcalls hn =>
      obtain ⟨-, hpools, hcurrent, -⟩ := close_frame s throws p next
      refine ⟨forall_measured_cons trivial (h.dropCall hcalls), ?_, ?_⟩
      · simpa [hpools, hcurrent] using h.pools
      · simpa [hcurrent] using h.outside
  | @closeSubmit th p next results status rest hcalls hn hth =>
      have htask : Task.Fits next
          { body := .close p, future := s.nFutures } := rfl
      exact h.setPoolOnly ((h.pools next).enqueue _ htask)
        (forall_measured_cons trivial (h.dropCall hcalls)) rfl rfl
  | closeReturn hcalls => exact ⟨h.dropCall hcalls, h.pools, h.outside⟩
  | @constructSubmit th next rest hcalls =>
      have htask : Task.Fits next
          { body := .construct, future := s.nFutures } := rfl
      exact h.setPoolOnly ((h.pools next).enqueue _ htask)
        (forall_measured_cons trivial (h.dropCall hcalls)) rfl rfl
  | constructed hcalls =>
      refine ⟨?_, h.pools, h.outside⟩
      unfold State.constructed
      split
      · exact forall_measured_cons trivial (h.dropCall hcalls)
      · exact h.dropCall hcalls
  | newProxy hcalls => exact ⟨h.dropCall hcalls, h.pools, h.outside⟩

-- ====================================================== what is counted

/-- What a submission adds to its instance's counters: to
`outstanding_cost`, and to the tasks submitted and not completed. -/
def Submission.weigh (i : Nat) (x : Submission) (weight : Int × Int) :
    Int × Int :=
  if x.stats = some i then weight else 0

/-- What a call in progress has added. -/
def Call.tally (i : Nat) : Call → Int × Int
  | .counting _ x _ => x.weigh i (x.cost, 0)
  | .submitting _ x _ => x.weigh i (x.cost, 1)
  | _ => 0

/-- What a task in the queue, or in its scope, has added. -/
def Task.tally (i : Nat) (task : Task) : Int × Int :=
  task.submission.weigh i (task.submission.cost, 1)

/-- What is left of it while its thread has it. -/
def Running.tally (i : Nat) (r : Running) : Int × Int :=
  match r.phase with
  | .released _ => r.task.submission.weigh i (0, 1)
  | .finished => 0
  | _ => r.task.tally i

/-- What the tasks of a pool have added. -/
def Pool.tally (i : Nat) (pool : Pool) : Int × Int :=
  (pool.queue.map (Task.tally i)).sum +
    match pool.running with
    | some r => r.tally i
    | none => 0

/-- What the calls in progress have added. -/
def callsTally (i : Nat) (calls : Calls) : Int × Int :=
  (calls.map fun c => c.2.tally i).sum

/-- What the counters say. -/
def InstanceStats.tally (stats : InstanceStats) : Int × Int :=
  (stats.outstandingCost, stats.submitted - stats.completed)

/-- The counters say what there is. -/
def Accounted (s : State) : Prop :=
  ∀ i, (s.stats i).tally = callsTally i s.calls + (s.pools i).tally i

@[simp] theorem callsTally_cons (i : Nat) (c : Thread × Call)
    (rest : Calls) :
    callsTally i (c ::ₘ rest) = c.2.tally i + callsTally i rest := by
  simp [callsTally]

@[simp] theorem weigh_self {x : Submission} (hx : x.stats = some i)
    (w : Int × Int) : x.weigh i w = w := if_pos hx

@[simp] theorem weigh_other {x : Submission} (hx : x.stats ≠ some i)
    (w : Int × Int) : x.weigh i w = 0 := if_neg hx

/-- A task more in the queue. -/
theorem Pool.tally_enqueue (pool : Pool) (task : Task) (i : Nat) :
    ({ pool with queue := pool.queue ++ [task] } : Pool).tally i
      = task.tally i + pool.tally i := by
  simp only [Pool.tally, List.map_append, List.sum_append, List.map_cons,
    List.map_nil, List.sum_cons, List.sum_nil]
  abel

/-- The task on the thread, apart from the queue. -/
theorem Pool.tally_running {pool : Pool} {r : Running}
    (hr : pool.running = some r) (i : Nat) :
    pool.tally i
      = r.tally i + ({ pool with running := none } : Pool).tally i := by
  simp only [Pool.tally, hr]
  abel

/-- Taking a task changes nothing. -/
theorem Pool.tally_start {pool : Pool} {task : Task} {rest : List Task}
    (hidle : pool.running = none) (hqueue : pool.queue = task :: rest)
    (previous : RunningTask) (i : Nat) :
    ({ queue := rest,
       running := some
        { task := task, previous := previous, phase := .entered } } :
      Pool).tally i = pool.tally i := by
  simp only [Pool.tally, hidle, hqueue, List.map_cons, List.sum_cons,
    Running.tally]
  abel

theorem Accounted.init (n : Nat) : Accounted (State.init n) := by
  intro i
  simp only [State.init, callsTally]
  split <;> rfl

/-- A step that concerns instance `i`, and leaves the others as they
are. -/
theorem Accounted.change (h : Accounted s) (i : Nat)
    (hstats : ∀ j, j ≠ i → s'.stats j = s.stats j)
    (hcalls : ∀ j, j ≠ i → callsTally j s'.calls = callsTally j s.calls)
    (hpools : ∀ j, j ≠ i → s'.pools j = s.pools j)
    (hi : (s'.stats i).tally
      = callsTally i s'.calls + (s'.pools i).tally i) : Accounted s' := by
  intro j
  by_cases hj : j = i
  · subst hj
    exact hi
  · rw [hstats j hj, hcalls j hj, hpools j hj]
    exact h j

/-- Nothing that is counted changes. -/
theorem Accounted.congr (h : Accounted s) (hstats : s'.stats = s.stats)
    (hcalls : s'.calls = s.calls) (hpools : s'.pools = s.pools) :
    Accounted s' := by
  intro i
  rw [hstats, hcalls, hpools]
  exact h i

/-- A call goes on, and nothing else changes. -/
theorem Accounted.setCall (h : Accounted s) {c : Thread × Call}
    (c' : Thread × Call) {rest : Calls} (hcalls : s.calls = c ::ₘ rest)
    (hcall : ∀ i, c'.2.tally i = c.2.tally i) :
    Accounted { s with calls := c' ::ₘ rest } := by
  intro i
  have hi := h i
  rw [hcalls, callsTally_cons, ← hcall i, ← callsTally_cons] at hi
  exact hi

/-- A call begins, and nothing else changes. -/
theorem Accounted.addCall (h : Accounted s) {c : Thread × Call}
    (hcall : ∀ i, c.2.tally i = 0) :
    Accounted { s with calls := c ::ₘ s.calls } := by
  intro i
  have hi := h i
  rw [← zero_add (callsTally i s.calls), ← hcall i, ← callsTally_cons] at hi
  exact hi

/-- A call is over, and nothing else changes. -/
theorem Accounted.dropCall (h : Accounted s) {c : Thread × Call}
    {rest : Calls} (hcalls : s.calls = c ::ₘ rest)
    (hcall : ∀ i, c.2.tally i = 0) :
    Accounted { s with calls := rest } := by
  intro i
  have hi := h i
  rw [hcalls, callsTally_cons, hcall i, zero_add] at hi
  exact hi

/-- A thread goes on with its task, which counts as before. -/
theorem Accounted.setRunning (h : Accounted s) {r r' : Running}
    (hr : (s.pools i).running = some r)
    (hrun : r'.tally i = r.tally i)
    (hstats : s'.stats = s.stats) (hcalls : s'.calls = s.calls)
    (hpools : s'.pools = Function.update s.pools i
      { s.pools i with running := some r' }) : Accounted s' := by
  refine h.change i (fun j _ => by rw [hstats]) (fun j _ => by rw [hcalls])
    (fun j hj => by rw [hpools, Function.update_of_ne hj]) ?_
  have hi := h i
  rw [Pool.tally_running hr, ← hrun] at hi
  rw [hstats, hcalls, hpools, Function.update_self,
    @Pool.tally_running _ r' rfl]
  exact hi

theorem tally_reserve (stats : InstanceStats) (cost : Int) :
    ({ stats with
        outstandingCost := stats.outstandingCost + cost } :
      InstanceStats).tally = (cost, 0) + stats.tally := by
  simp [InstanceStats.tally, add_comm]

theorem tally_count (stats : InstanceStats) :
    ({ stats with submitted := stats.submitted + 1 } :
      InstanceStats).tally = (0, 1) + stats.tally := by
  simp only [InstanceStats.tally, Prod.mk_add_mk, Prod.mk.injEq, zero_add,
    true_and]
  ring

theorem tally_release (stats : InstanceStats) (cost : Int) :
    (cost, 0) + ({ stats with
        outstandingCost := stats.outstandingCost - cost } :
      InstanceStats).tally = stats.tally := by
  simp [InstanceStats.tally]

theorem tally_complete (stats : InstanceStats) :
    (0, 1) + ({ stats with completed := stats.completed + 1 } :
      InstanceStats).tally = stats.tally := by
  simp only [InstanceStats.tally, Prod.mk_add_mk, Prod.mk.injEq, zero_add,
    true_and]
  ring

/-- A call goes on by changing the counters of instance `i`. -/
theorem Accounted.setStats (h : Accounted s) {c c' : Thread × Call}
    {rest : Calls} {f : InstanceStats → InstanceStats} {w : Int × Int}
    (hcalls : s.calls = c ::ₘ rest)
    (hf : (f (s.stats i)).tally = w + (s.stats i).tally)
    (hi : c'.2.tally i = w + c.2.tally i)
    (hother : ∀ j, j ≠ i → c'.2.tally j = c.2.tally j) :
    Accounted { s.setStats i f with calls := c' ::ₘ rest } := by
  refine h.change i (fun j hj => Function.update_of_ne hj _ _)
    (fun j hj => ?_) (fun j _ => rfl) ?_
  · rw [hcalls, callsTally_cons, callsTally_cons, hother j hj]
  · have hstats := h i
    rw [hcalls, callsTally_cons] at hstats
    simp only [State.setStats, Function.update_self, callsTally_cons]
    rw [hf, hi, hstats]
    abel

/-- A thread goes on with its task by changing the counters of its
instance. -/
theorem Accounted.release (h : Accounted s) {r r' : Running}
    {stats : InstanceStats} {w : Int × Int}
    (hr : (s.pools i).running = some r)
    (hstats : w + stats.tally = (s.stats i).tally)
    (hrun : w + r'.tally i = r.tally i)
    (hstats' : s'.stats = Function.update s.stats i stats)
    (hcalls : s'.calls = s.calls)
    (hpools : s'.pools = Function.update s.pools i
      { s.pools i with running := some r' }) : Accounted s' := by
  refine h.change i
    (fun j hj => by rw [hstats', Function.update_of_ne hj])
    (fun j _ => by rw [hcalls])
    (fun j hj => by rw [hpools, Function.update_of_ne hj]) ?_
  have hi := h i
  rw [Pool.tally_running hr, ← hrun, ← hstats] at hi
  rw [hstats', hcalls, hpools, Function.update_self, Function.update_self,
    @Pool.tally_running _ r' rfl]
  refine add_left_cancel (hi.trans ?_)
  abel

/-- A task goes from a call to the queue of pool `i`. -/
theorem Accounted.enqueue (h : Accounted s) {calls : Calls} (body : Body)
    {x : Submission}
    (hother : ∀ j, j ≠ i → callsTally j calls = callsTally j s.calls)
    (hi : callsTally i s.calls
      = x.weigh i (x.cost, 1) + callsTally i calls) :
    Accounted { s.enqueue i body x with calls := calls } := by
  refine h.change i (fun j _ => rfl) hother
    (fun j hj => Function.update_of_ne hj _ _) ?_
  have hstats := h i
  rw [hi] at hstats
  simp only [State.enqueue, Function.update_self, Pool.tally_enqueue,
    Task.tally]
  rw [hstats]
  abel

/-- Every step changes the counters as it changes what there is. -/
theorem Accounted.step (hm : Measured s) (h : Accounted s)
    (hs : Step n throws s e s') : Accounted s' := by
  cases hs with
  | refuse | closeAgain => exact h
  | run | close | spawn => exact h.addCall fun _ => rfl
  | scan hcalls =>
      refine h.setCall _ hcalls fun i => ?_
      unfold State.scan
      split <;> rfl
  | @reserve th p cost sync next inst least rest hcalls =>
      refine h.setStats hcalls (tally_reserve _ cost) ?_ fun j hj => ?_
      · rw [Call.tally, weigh_self rfl]
        exact (add_zero _).symm
      · have hj' : (some inst : Option Nat) ≠ some j := by
          simpa using Ne.symm hj
        exact weigh_other hj' _
  | @count th p x sync rest hcalls =>
      have hx : x.stats = some x.inst := hm.call hcalls
      refine h.setStats hcalls (tally_count _) ?_ fun j hj => ?_
      · rw [Call.tally, Call.tally, weigh_self hx, weigh_self hx,
          Prod.mk_add_mk, zero_add, add_zero]
      · have hj' : x.stats ≠ some j := by simpa [hx] using Ne.symm hj
        rw [Call.tally, Call.tally, weigh_other hj', weigh_other hj']
  | @submit th p x sync rest hcalls =>
      have hx : x.stats = some x.inst := hm.call hcalls
      have hsync : ∀ j, callsTally j
          (if sync then (th, .waiting s.nFutures) ::ₘ rest else rest)
            = callsTally j rest := by
        intro j
        cases sync
        · rfl
        · simp [Call.tally]
      refine h.enqueue (.functor p) (fun j hj => ?_) ?_
      · have hj' : x.stats ≠ some j := by simpa [hx] using Ne.symm hj
        rw [hsync, hcalls, callsTally_cons, Call.tally, weigh_other hj',
          zero_add]
      · rw [hsync, hcalls, callsTally_cons, Call.tally]
  | wake hcalls => exact h.dropCall hcalls fun _ => rfl
  | @start i task rest hidle hqueue =>
      refine h.change i (fun j _ => rfl) (fun j _ => rfl)
        (fun j hj => Function.update_of_ne hj _ _) ?_
      simp only [State.start, Function.update_self, Pool.tally_start hidle hqueue]
      exact h i
  | @check i p r hr hbody hphase =>
      refine h.setRunning hr ?_ rfl rfl rfl
      unfold State.check
      split <;> simp [Running.tally, hphase]
  | @invoke i p r hr hbody hphase =>
      exact h.setRunning hr (by simp [Running.tally, hphase]) rfl rfl rfl
  | @construct i r hr hbody hphase =>
      exact h.setRunning hr (by simp [Running.tally, hphase]) rfl rfl rfl
  | @ends i r ending hr hphase hfree =>
      exact h.setRunning hr (by simp [Running.tally, hphase]) rfl rfl rfl
  | @leaveScope i r status hr hphase =>
      unfold State.leaveScope
      split
      · next hstats =>
        exact h.setRunning hr
          (by simp [Running.tally, Task.tally, hphase, hstats]) rfl rfl rfl
      · next inst hstats =>
        obtain rfl := ((hm.pools i).running r hr).stats_eq hstats
        refine h.release hr (tally_release _ r.task.submission.cost) ?_ rfl
          rfl rfl
        simp [Running.tally, Task.tally, hphase, weigh_self hstats]
  | @complete i r status hr hphase =>
      have hstats := (hm.pools i).released r status hr hphase
      unfold State.complete
      rw [hstats]
      refine h.release hr (tally_complete _) ?_ rfl rfl rfl
      simp [Running.tally, hphase, weigh_self hstats]
  | @closeTask i p r hr hbody hphase =>
      have hstats := ((hm.pools i).running r hr).unmeasured hbody
      obtain ⟨hcalls, -, -, hstats'⟩ := close_frame s throws p i
      refine h.setRunning hr ?_ hstats' hcalls (close_pools ..)
      simp [Running.tally, Task.tally, hphase, Submission.weigh, hstats]
  | @idle i r hr hphase hfree =>
      refine h.change i (fun j _ => rfl) (fun j _ => rfl)
        (fun j hj => Function.update_of_ne hj _ _) ?_
      have hi := h i
      rw [Pool.tally_running hr, Running.tally, hphase] at hi
      simpa [State.setRunning] using hi
  | @closeInline p next results status rest hcalls hn =>
      obtain ⟨-, hpools, -, hstats⟩ := close_frame s throws p next
      have hcall := h.setCall
        (.isolation next, .closing p (next + 1) results
          (State.inlineStatus throws p next status)) hcalls fun _ => rfl
      exact hcall.congr hstats rfl hpools
  | @closeSubmit th p next results status rest hcalls hn hth =>
      refine h.enqueue (.close p) (fun j _ => ?_) ?_
      · simp [hcalls, Call.tally]
      · simp [hcalls, Call.tally, Submission.weigh]
  | closeReturn hcalls => exact h.dropCall hcalls fun _ => rfl
  | @constructSubmit th next rest hcalls =>
      refine h.enqueue .construct (fun j _ => ?_) ?_
      · simp [hcalls, Call.tally]
      · simp [hcalls, Call.tally, Submission.weigh]
  | constructed hcalls =>
      unfold State.constructed
      split
      · exact h.setCall _ hcalls fun _ => rfl
      · exact h.dropCall hcalls fun _ => rfl
  | newProxy hcalls => exact h.dropCall hcalls fun _ => rfl

-- ========================================================== every state

/-- In every state the threads reach, submissions are where they belong
and the counters say what there is. -/
theorem reaches_accounted {events : List Event}
    (hs : Reaches n throws events s) : Measured s ∧ Accounted s := by
  refine Run.invariant (fun s => Measured s ∧ Accounted s)
    (fun h hstep => ?_) hs ?_
  · exact ⟨h.1.step hstep, h.2.step h.1 hstep⟩
  · exact ⟨Measured.init n, Accounted.init n⟩

/-- A call has added its cost, and its task once it is counted. -/
theorem Call.tally_eq (i : Nat) (c : Call) :
    (c.tally i).1 = costs (c.dispatched i) + costs (c.dispatching i) ∧
      (c.tally i).2 = (c.dispatched i).card := by
  cases c with
  | counting p x sync =>
      by_cases hx : x.stats = some i <;>
        simp [Call.tally, Call.dispatched, Call.dispatching,
          Submission.weigh, Submission.on, hx]
  | submitting p x sync =>
      by_cases hx : x.stats = some i <;>
        simp [Call.tally, Call.dispatched, Call.dispatching,
          Submission.weigh, Submission.on, hx]
  | _ => exact ⟨rfl, rfl⟩

/-- The same of all calls in progress. -/
theorem callsTally_eq (i : Nat) (calls : Calls) :
    (callsTally i calls).1
        = costs (calls.map fun c => c.2.dispatched i).sum
          + costs (calls.map fun c => c.2.dispatching i).sum ∧
      (callsTally i calls).2
        = (calls.map fun c : Thread × Call => c.2.dispatched i).sum.card := by
  induction calls using Multiset.induction with
  | empty => exact ⟨rfl, rfl⟩
  | cons c rest ih =>
      obtain ⟨hcost, hcard⟩ := Call.tally_eq i c.2
      simp only [callsTally_cons, Prod.fst_add, Prod.snd_add, hcost, hcard,
        ih.1, ih.2, Multiset.map_cons, Multiset.sum_cons, costs_add,
        Multiset.card_add, Nat.cast_add, and_true]
      ring

/-- A waiting task has added its cost and itself. -/
theorem Task.tally_eq (i : Nat) (task : Task) :
    (task.tally i).1 = costs (task.submission.on i) ∧
      (task.tally i).2 = (task.submission.on i).card := by
  by_cases hx : task.submission.stats = some i <;>
    simp [Task.tally, Submission.weigh, Submission.on, hx]

/-- The same of a queue. -/
theorem queueTally_eq (i : Nat) (queue : List Task) :
    (queue.map (Task.tally i)).sum.1
        = costs (queue.map fun task => task.submission.on i).sum ∧
      (queue.map (Task.tally i)).sum.2
        = (queue.map fun task : Task => task.submission.on i).sum.card := by
  induction queue with
  | nil => exact ⟨rfl, rfl⟩
  | cons task rest ih =>
      obtain ⟨hcost, hcard⟩ := Task.tally_eq i task
      simp [hcost, hcard, ih.1, ih.2]

/-- What the tasks of a pool have added, by where they are. -/
theorem Pool.tally_eq (i : Nat) (pool : Pool) :
    (pool.tally i).1
        = costs (pool.waiting i) + costs (pool.carried Phase.inScope i) ∧
      (pool.tally i).2
        = (pool.waiting i).card + ((pool.carried Phase.inScope i).card
          + (pool.carried Phase.isReleased i).card : Int) := by
  obtain ⟨hcost, hcard⟩ := queueTally_eq i pool.queue
  simp only [Pool.tally, Pool.waiting, Pool.carried, Prod.fst_add,
    Prod.snd_add, hcost, hcard, add_right_inj]
  rcases pool.running with _ | ⟨task, previous, phase⟩
  · exact ⟨rfl, rfl⟩
  · by_cases hx : task.submission.stats = some i <;> cases phase <;>
      simp [Running.tally, Task.tally, Phase.inScope, Phase.isReleased,
        Submission.weigh, Submission.on, hx]

/-- In every state that dispatches, task starts and completions can
lead to, an instance's `outstanding_cost` is the cost of the tasks
dispatched to it that have not completed, its tasks submitted and not
completed are their number, and each thread's `current_task` is the
measured task it is running. A dispatch between its two updates has its
cost in the first sum and is not in the second; a destructor between its
two is in the second only. So the cost is never negative when costs are
not, and is zero when no task is outstanding. -/
theorem reservations_conserved {events : List Event}
    (hs : Reaches n throws events s) :
    (∀ i, (s.stats i).outstandingCost
        = costs (s.outstanding i) + costs (s.dispatching i)) ∧
    (∀ i, (s.stats i).submitted - (s.stats i).completed
        = (s.outstanding i).card + (s.releasing i).card) ∧
    (∀ th, s.currentTask th = s.measuredTask th) ∧
    (∀ i, (∀ x ∈ s.outstanding i + s.dispatching i, 0 ≤ x.cost) →
      0 ≤ (s.stats i).outstandingCost) ∧
    (∀ i, s.outstanding i = 0 → s.dispatching i = 0 →
      (s.stats i).outstandingCost = 0) := by
  obtain ⟨hmeasured, haccounted⟩ := reaches_accounted hs
  have hcost (i : Nat) : (s.stats i).outstandingCost
      = costs (s.outstanding i) + costs (s.dispatching i) := by
    have hi := congrArg Prod.fst (haccounted i)
    rw [Prod.fst_add, (callsTally_eq i s.calls).1,
      (Pool.tally_eq i (s.pools i)).1] at hi
    rw [State.outstanding, State.dispatching, costs_add, costs_add]
    exact hi.trans (by ring)
  refine ⟨hcost, fun i => ?_, fun th => ?_, fun i hnonneg => ?_,
    fun i hout hdis => ?_⟩
  · have hi := congrArg Prod.snd (haccounted i)
    rw [Prod.snd_add, (callsTally_eq i s.calls).2,
      (Pool.tally_eq i (s.pools i)).2] at hi
    rw [State.outstanding, State.releasing, Multiset.card_add,
      Multiset.card_add, Nat.cast_add, Nat.cast_add]
    exact hi.trans (by ring)
  · cases th with
    | outside k => exact hmeasured.outside k
    | isolation i => exact (hmeasured.pools i).current
  · rw [hcost i, ← costs_add]
    refine Multiset.sum_nonneg fun c hc => ?_
    obtain ⟨x, hx, rfl⟩ := Multiset.mem_map.mp hc
    exact hnonneg x hx
  · rw [hcost i, hout, hdis]
    rfl

-- =============================================================== a run

/-- A step after which there are no more calls begins no `Spawn`. -/
theorem Step.unspawned (hs : Step n throws s e s')
    (hcalls : s'.calls.card ≤ s.calls.card) : UnspawnedStep n throws s e s' := by
  refine ⟨hs, fun th heq => ?_⟩
  rw [heq, Multiset.card_cons] at hcalls
  omega

/-- `Make` of one instance returns a proxy, and its thread is idle. -/
theorem makes_one (throws : Nat → Nat → Option String) :
    ∃ events s, Run (UnspawnedStep 1 throws) (State.init 1) events s ∧
      s.calls = 0 ∧ s.pools 0 = {} ∧ s.nProxies = 1 ∧ s.proxies 0 = {} ∧
      s.stats 0 = {} ∧ s.currentTask = (fun _ => {}) ∧
      ∀ e ∈ events, e = .internal := by
  have h0 : Run (UnspawnedStep 1 throws) (State.init 1) [] (State.init 1) :=
    .refl
  have h1 := h0.tail ((@Step.constructSubmit 1 throws _ (.outside 0) 0 0 rfl
    Nat.one_pos).unspawned (Nat.le_refl 1))
  have h2 := h1.tail ((@Step.start 1 throws _ 0 _ _ rfl rfl).unspawned
    (Nat.le_refl _))
  have h3 := h2.tail ((@Step.construct 1 throws _ 0 _ rfl rfl rfl).unspawned
    (Nat.le_refl _))
  have h4 := h3.tail ((@Step.ends 1 throws _ 0 _ .returned rfl rfl
    fun c hc => by simp [State.setRunning, State.start] at hc).unspawned
    (Nat.le_refl _))
  have h5 := h4.tail ((@Step.leaveScope 1 throws _ 0 _ _ rfl rfl).unspawned
    (Nat.le_refl _))
  have h6 := h5.tail ((@Step.constructed 1 throws _ (.outside 0) 0 0 0 rfl
    rfl).unspawned (Nat.le_refl 1))
  have h7 := h6.tail ((@Step.newProxy 1 throws _ (.outside 0) 1 0 rfl
    (Nat.le_refl 1)).unspawned (Nat.zero_le 1))
  have h8 := h7.tail ((@Step.idle 1 throws _ 0 _ rfl rfl
    fun c hc => by simp at hc).unspawned (Nat.le_refl _))
  exact ⟨_, _, h8, rfl, rfl, rfl, rfl, rfl, rfl, by simp⟩

theorem reaches_made (throws : Nat → Nat → Option String) :
    ∃ events s, Reaches 1 throws events s ∧ s.calls = 0 ∧
      s.pools 0 = {} ∧ s.nProxies = 1 ∧ s.proxies 0 = {} ∧
      s.stats 0 = {} ∧ s.currentTask = (fun _ => {}) ∧
      ∀ e ∈ events, e = .internal := by
  obtain ⟨events, s, hs, hmade⟩ := makes_one throws
  exact ⟨events, s, hs.mono And.left, hmade⟩

theorem reservations_conserved_sample : ∃ events s,
    Reaches 1 (fun _ _ => none) events s ∧
      s.outstanding 0 = {⟨0, some 0, 8⟩} ∧ s.dispatching 0 = 0 ∧
      (s.stats 0).outstandingCost
        = costs (s.outstanding 0) + costs (s.dispatching 0) ∧
      (s.stats 0).outstandingCost = 8 := by
  obtain ⟨events, s, h0, hcalls, hpools, hproxies, hproxy, hstats, hcurrent,
      -⟩ :=
    reaches_made fun _ _ => none
  have hmay : s.MayCall (.outside 0) :=
    ⟨fun c hc => by simp [hcalls] at hc, fun i hi => by cases hi⟩
  have hopen : s.checkClosed 0 = .ok () := by simp [State.checkClosed, hproxy]
  have hscan : s.scan (.outside 0) 0 8 false 0 0 State.int64Max
      = .scanning 0 8 false 1 0 0 := by
    simp [State.scan, State.load, hstats, hcurrent, State.int64Max]
  have h1 := h0.tail (.run 8 false hmay (hproxies ▸ Nat.one_pos) hopen)
  have h2 := h1.tail (.scan rfl Nat.one_pos)
  have h3 := h2.tail
    (.reserve (congrArg (fun c => (Thread.outside 0, c) ::ₘ s.calls) hscan)
      (Nat.le_refl 1))
  have h4 := h3.tail (.count rfl)
  refine ⟨_, _, h4, ?_, ?_, (reservations_conserved h4).1 0, ?_⟩
  · simp [State.outstanding, Call.dispatched, Submission.on, Pool.waiting,
      Pool.carried, State.count, State.reserve, State.setStats, hcalls,
      hpools]
  · simp [State.dispatching, Call.dispatching, hcalls]
  · simp [State.count, State.reserve, State.setStats, hstats]

end Arcae
