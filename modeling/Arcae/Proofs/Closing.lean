/-
Tasks and `Close` are ordered safely, whatever the threads do between
them.

# The queue is the order

Futures are numbered as `Submit` makes them, so the tasks of a pool, the
running one and those behind it, stand in ascending order of their
futures (`Ordered`): a step drops the first, or adds one at the end, or
leaves them (`Step.tasks`). That one task is queued before another is
then a comparison of two numbers, and stays one while both move forward.

# Who closes a table

A table is closed by its own instance's thread only: by `Close`'s task,
or inline by a `Close` that thread is in. Neither can happen between
`InvokeOnInstance`'s look at the table and the functor's call, because
the thread is busy with exactly that (`LooksOpen`), and user code runs on
it only inside a functor or in the callbacks of a finished future
(`Calling`). For a task queued before `Close`'s, only the inline way is
left (`outruns_close`).

# What `Close` waits for

While `Close` visits the instances, it has, for each one behind it, closed
the table itself or holds the future of the task that will; such a
future holds success only if the table is closed (`Closes`). So success
from all of them is every table closed, and nothing opens a table again.
-/
import Mathlib.Data.List.Infix
import Arcae.Proofs.Reservations

namespace Arcae

open Lts

variable {n : Nat} {throws : Nat → Nat → Option String} {s s' : State}
  {e : Event} {i j p : Nat}

-- ==================================================== the tasks of a pool

/-- The task on the pool's thread, and those in its queue. -/
def Pool.tasks (pool : Pool) : List Task :=
  (pool.running.map Running.task).toList ++ pool.queue

/-- The thread goes on with the same task. -/
theorem Pool.tasks_running {pool : Pool} {r : Running}
    (hr : pool.running = some r) (phase : Phase) :
    ({ pool with running := some { r with phase := phase } } : Pool).tasks
      = pool.tasks := by
  simp [Pool.tasks, hr]

/-- A task more at the end. -/
theorem Pool.tasks_enqueue (pool : Pool) (task : Task) :
    ({ pool with queue := pool.queue ++ [task] } : Pool).tasks
      = pool.tasks ++ [task] := by
  simp [Pool.tasks]

/-- The tasks of a pool that gets no new one. -/
theorem suffix_update {pool : Pool}
    (hpools : s'.pools = Function.update s.pools i pool)
    (hi : pool.tasks <:+ (s.pools i).tasks) (j : Nat) :
    (s'.pools j).tasks <:+ (s.pools j).tasks := by
  rw [hpools]
  by_cases hj : j = i
  · subst hj
    rw [Function.update_self]
    exact hi
  · rw [Function.update_of_ne hj]

/-- The thread of pool `i` goes on with its task. -/
theorem suffix_running {r : Running} {phase : Phase}
    (hr : (s.pools i).running = some r)
    (hpools : s'.pools = Function.update s.pools i
      { s.pools i with running := some { r with phase := phase } })
    (j : Nat) :
    (s'.pools j).tasks <:+ (s.pools j).tasks :=
  suffix_update hpools
    ((Pool.tasks_running hr phase).symm ▸ List.suffix_refl _) j

/-- A step lets the tasks of pool `i` be, drops the first, or adds one
with a new future at the end; `Close`'s task is the one that says so. -/
def TasksMove (s s' : State) (e : Event) (i : Nat) : Prop :=
  (s'.pools i).tasks <:+ (s.pools i).tasks ∨
    ∃ task, (s'.pools i).tasks = (s.pools i).tasks ++ [task] ∧
      task.future = s.nFutures ∧ s'.nFutures = s.nFutures + 1 ∧
      ∀ p, task.body = .close p → e = .closeSubmit p i

/-- A task submitted to pool `i`. -/
theorem tasksMove_enqueue {body : Body} {x : Submission}
    (hpools : s'.pools = (s.enqueue i body x).pools)
    (hfutures : s'.nFutures = s.nFutures + 1)
    (hclose : ∀ p, body = .close p → e = .closeSubmit p i) (j : Nat) :
    TasksMove s s' e j := by
  by_cases hj : j = i
  · subst hj
    refine .inr ⟨{ body := body, submission := x, future := s.nFutures },
      ?_, rfl, hfutures, hclose⟩
    rw [hpools]
    simp only [State.enqueue, Function.update_self, Pool.tasks_enqueue]
  · refine .inl ?_
    rw [hpools]
    simp only [State.enqueue, Function.update_of_ne hj, List.suffix_refl]

theorem Step.tasks (hs : Step n throws s e s') (j : Nat) :
    TasksMove s s' e j := by
  cases hs with
  | refuse | run | scan | reserve | count | wake | closeAgain | close
  | closeReturn | spawn | constructed | newProxy =>
      exact .inl (List.suffix_refl _)
  | submit hcalls =>
      exact tasksMove_enqueue rfl rfl (fun p hp => by cases hp) j
  | @start i task rest hidle hqueue =>
      refine .inl (suffix_update (i := i) rfl ?_ j)
      simp [Pool.tasks, hidle, hqueue]
  | check hr | invoke hr | construct hr | ends _ hr =>
      exact .inl (suffix_running hr rfl j)
  | @leaveScope i r status hr hphase =>
      unfold State.leaveScope
      split <;> exact .inl (suffix_running hr rfl j)
  | @complete i r status hr hphase =>
      unfold State.complete
      split <;> exact .inl (suffix_running hr rfl j)
  | @closeTask i p r hr hbody hphase =>
      exact .inl (suffix_running hr (close_pools ..) j)
  | @idle i r hr hphase hfree =>
      refine .inl (suffix_update rfl ?_ j)
      simp [Pool.tasks, hr]
  | @closeInline p next results status rest hcalls hn =>
      have hpools := (close_frame s throws p next).2.1
      exact .inl (hpools ▸ List.suffix_refl _)
  | closeSubmit hcalls =>
      refine tasksMove_enqueue rfl rfl (fun p hp => ?_) j
      cases hp
      rfl
  | constructSubmit hcalls =>
      exact tasksMove_enqueue rfl rfl (fun p hp => by cases hp) j

-- ============================================== futures, and their order

/-- Futures are only ever added. -/
theorem Step.nFutures_le (hs : Step n throws s e s') :
    s.nFutures ≤ s'.nFutures := by
  cases hs with
  | submit | closeSubmit | constructSubmit => exact Nat.le_succ _
  | leaveScope => unfold State.leaveScope; split <;> exact Nat.le_refl _
  | complete => unfold State.complete; split <;> exact Nat.le_refl _
  | closeTask | closeInline =>
      simp only [State.finishFuture, State.setRunning, State.close]
      split <;> exact Nat.le_refl _
  | _ => exact Nat.le_refl _

/-- The future `f` is finished by its task, on its thread; one that
closes a table does so in its phase `entered`, and holds success only if
the table is closed. -/
def Finishes (s s' : State) (f : Nat) : Prop :=
  ∃ i r, (s.pools i).running = some r ∧ r.task.future = f ∧
    ∀ p, r.task.body = .close p →
      (r.phase ≠ .entered ∧ r.phase ≠ .finished) ∨
        (s'.futures f = some (.ok ()) → (s'.proxies p).isNull i = true)

/-- A task that has left its scope finishes its future. -/
theorem futures_finish {r : Running} {status : Except String Unit}
    (hr : (s.pools i).running = some r)
    (hphase : r.phase ≠ .entered ∧ r.phase ≠ .finished)
    (hs' : s'.futures
      = Function.update s.futures r.task.future (some status)) (f : Nat) :
    s'.futures f = s.futures f ∨ Finishes s s' f := by
  by_cases hf : f = r.task.future
  · exact .inr ⟨i, r, hr, hf.symm, fun p _ => .inl hphase⟩
  · exact .inl (by rw [hs', Function.update_of_ne hf])

theorem Step.futures (hs : Step n throws s e s') (f : Nat) :
    s'.futures f = s.futures f ∨ Finishes s s' f := by
  cases hs with
  | leaveScope hr hphase =>
      unfold State.leaveScope
      split
      · exact futures_finish hr (by simp [hphase]) rfl f
      · exact .inl rfl
  | complete hr hphase =>
      unfold State.complete
      split <;> exact futures_finish hr (by simp [hphase]) rfl f
  | @closeTask i p r hr hbody hphase =>
      by_cases hf : f = r.task.future
      · refine .inr ⟨i, r, hr, hf.symm, fun q hq => .inr fun hok => ?_⟩
        obtain rfl : p = q := by simpa [hbody] using hq
        simp only [State.finishFuture, State.setRunning, hf,
          Function.update_self, Option.some.injEq, State.closeStatus] at hok
        simp only [State.finishFuture, State.setRunning, State.close]
        split at hok
        · cases hok
        · simp only [State.closeTable, Function.update_self]
      · refine .inl ?_
        simp only [State.finishFuture, State.setRunning,
          Function.update_of_ne hf, State.close]
        split <;> rfl
  | closeInline =>
      unfold State.close
      split <;> exact .inl rfl
  | _ => exact .inl rfl

/-- The tasks of every pool stand in the order of their futures, which
are numbered below `nFutures`; the others are not finished. -/
structure Ordered (s : State) : Prop where
  ascending : ∀ i,
    (s.pools i).tasks.Pairwise fun t u => t.future < u.future
  fresh : ∀ i, ∀ t ∈ (s.pools i).tasks, t.future < s.nFutures
  unset : ∀ f, s.nFutures ≤ f → s.futures f = none

theorem Ordered.init (n : Nat) : Ordered (State.init n) :=
  ⟨fun _ => .nil, fun _ _ ht => absurd ht List.not_mem_nil, fun _ _ => rfl⟩

theorem mem_tasks {r : Running} (hr : (s.pools i).running = some r) :
    r.task ∈ (s.pools i).tasks := by
  simp [Pool.tasks, hr]

theorem Ordered.step (h : Ordered s) (hs : Step n throws s e s') :
    Ordered s' := by
  have hle := hs.nFutures_le
  refine ⟨fun i => ?_, fun i t ht => ?_, fun f hf => ?_⟩
  · rcases hs.tasks i with hsuffix | ⟨task, htasks, hfuture, -⟩
    · exact (h.ascending i).sublist hsuffix.sublist
    · rw [htasks, List.pairwise_append]
      refine ⟨h.ascending i, List.pairwise_singleton _ _, ?_⟩
      intro t ht u hu
      rw [List.mem_singleton.mp hu, hfuture]
      exact h.fresh i t ht
  · rcases hs.tasks i with hsuffix | ⟨task, htasks, hfuture, hnew, -⟩
    · exact lt_of_lt_of_le (h.fresh i t (hsuffix.subset ht)) hle
    · rw [htasks] at ht
      rcases List.mem_append.mp ht with ht | ht
      · exact lt_of_lt_of_le (h.fresh i t ht) hle
      · rw [List.mem_singleton.mp ht, hfuture, hnew]
        exact Nat.lt_succ_self _
  · rcases hs.futures f with hkeep | ⟨i, r, hr, hfuture, -⟩
    · rw [hkeep]
      exact h.unset f (hle.trans hf)
    · have hlt := h.fresh i r.task (mem_tasks hr)
      omega

-- =================================================== who is on a thread

/-- A thread in a call runs user code: its task is in its functor, or
has finished. -/
def Calling (s : State) : Prop :=
  ∀ i c, (Thread.isolation i, c) ∈ s.calls → s.RunsUser i

theorem Calling.init (n : Nat) : Calling (State.init n) := by
  intro i c hc
  simp only [State.init] at hc
  split at hc
  · cases congrArg Prod.fst (Multiset.mem_singleton.mp hc)
  · exact absurd hc (Multiset.notMem_zero _)

/-- A thread at work on its task is in no call. -/
theorem Calling.free (h : Calling s) {r : Running}
    (hr : (s.pools i).running = some r) (hinside : r.phase ≠ .inside)
    (hfinished : r.phase ≠ .finished) : s.Free (.isolation i) := by
  intro c hc
  obtain ⟨r', hr', hphase⟩ := h i c hc
  obtain rfl : r = r' := Option.some.inj (hr.symm.trans hr')
  exact hphase.elim hinside hfinished

/-- A call goes on or is over, and no thread moves. -/
theorem Calling.setCalls (h : Calling s) {th : Thread} {c : Call}
    {rest : Calls} (hcalls : s.calls = (th, c) ::ₘ rest)
    (hcalls' : ∀ d ∈ s'.calls, d ∈ rest ∨ d.1 = th)
    (hrun : ∀ i, (s'.pools i).running = (s.pools i).running) :
    Calling s' := by
  intro i d hd
  have hruns : s.RunsUser i := by
    rcases hcalls' _ hd with hrest | hth
    · exact h i d (hcalls ▸ Multiset.mem_cons_of_mem hrest)
    · refine h i c ?_
      rw [hcalls, ← hth]
      exact Multiset.mem_cons_self _ _
  obtain ⟨r, hr, hphase⟩ := hruns
  exact ⟨r, (hrun i).trans hr, hphase⟩

/-- A thread that is in no call moves. -/
theorem Calling.setRunning (h : Calling s)
    (hfree : s.Free (.isolation i)) (hcalls : s'.calls = s.calls)
    (hrun : ∀ j, j ≠ i → (s'.pools j).running = (s.pools j).running) :
    Calling s' := by
  intro j c hc
  rw [hcalls] at hc
  have hj : j ≠ i := by
    intro heq
    subst heq
    exact hfree c hc
  obtain ⟨r, hr, hphase⟩ := h j c hc
  exact ⟨r, (hrun j hj).trans hr, hphase⟩

/-- Submitting a task moves no thread. -/
theorem running_enqueue (s : State) (i : Nat) (body : Body)
    (x : Submission) (j : Nat) :
    ((s.enqueue i body x).pools j).running = (s.pools j).running := by
  by_cases hj : j = i
  · subst hj
    simp [State.enqueue]
  · simp [State.enqueue, hj]

theorem mem_cons_or {c : Thread × Call} {rest : Calls} :
    ∀ d ∈ c ::ₘ rest, d ∈ rest ∨ d.1 = c.1 := by
  intro d hd
  rcases Multiset.mem_cons.mp hd with rfl | hd
  · exact .inr rfl
  · exact .inl hd

theorem Calling.step (h : Calling s) (hs : Step n throws s e s') :
    Calling s' := by
  cases hs with
  | refuse | closeAgain => exact h
  | run _ _ hmay | close hmay | spawn hmay =>
      intro i c hc
      rcases Multiset.mem_cons.mp hc with hc | hc
      · exact hmay.2 i (congrArg Prod.fst hc).symm
      · exact h i c hc
  | scan hcalls | reserve hcalls | count hcalls =>
      exact h.setCalls hcalls mem_cons_or fun _ => rfl
  | submit hcalls =>
      refine h.setCalls hcalls ?_ (running_enqueue _ _ _ _)
      unfold State.submit
      split
      · exact mem_cons_or
      · exact fun d hd => .inl hd
  | wake hcalls | closeReturn hcalls | newProxy hcalls =>
      exact h.setCalls hcalls (fun d hd => .inl hd) fun _ => rfl
  | @start i task rest hidle hqueue =>
      have hfree : s.Free (.isolation i) := by
        intro c hc
        obtain ⟨r, hr, -⟩ := h i c hc
        rw [hidle] at hr
        cases hr
      refine h.setRunning hfree rfl fun j hj => ?_
      simp only [State.start, Function.update_of_ne hj]
  | check hr _ hphase | invoke hr _ hphase | construct hr _ hphase =>
      refine h.setRunning (h.free hr (by simp [hphase]) (by simp [hphase]))
        rfl fun j hj => ?_
      simp only [State.setRunning, Function.update_of_ne hj]
  | ends _ _ _ hfree | idle _ _ hfree =>
      refine h.setRunning hfree rfl fun j hj => ?_
      simp only [State.setRunning, Function.update_of_ne hj]
  | leaveScope hr hphase =>
      have hfree := h.free hr (by simp [hphase]) (by simp [hphase])
      unfold State.leaveScope
      split <;>
        refine h.setRunning hfree rfl fun j hj => ?_ <;>
        simp only [State.finishFuture, State.setStats, State.setRunning,
          Function.update_of_ne hj]
  | complete hr hphase =>
      have hfree := h.free hr (by simp [hphase]) (by simp [hphase])
      unfold State.complete
      split <;>
        refine h.setRunning hfree rfl fun j hj => ?_ <;>
        simp only [State.finishFuture, State.setStats, State.setRunning,
          Function.update_of_ne hj]
  | @closeTask i p r hr _ hphase =>
      have hfree := h.free hr (by simp [hphase]) (by simp [hphase])
      refine h.setRunning hfree (close_frame s throws p i).1 fun j hj => ?_
      rw [close_pools, Function.update_of_ne hj]
  | @closeInline p next results status rest hcalls hn =>
      refine h.setCalls hcalls mem_cons_or fun i => ?_
      rw [← (close_frame s throws p next).2.1]
  | closeSubmit hcalls | constructSubmit hcalls =>
      exact h.setCalls hcalls mem_cons_or (running_enqueue _ _ _ _)
  | constructed hcalls =>
      refine h.setCalls hcalls ?_ fun _ => rfl
      unfold State.constructed
      split
      · exact mem_cons_or
      · exact fun d hd => .inl hd

-- ==================================================== closing the tables

/-- `close()` closes no table but its own. -/
theorem isNull_close {throws : Nat → Nat → Option String} {q k : Nat}
    (h : ((s.close throws q k).proxies p).isNull i = true) :
    (s.proxies p).isNull i = true ∨ (q = p ∧ k = i) := by
  unfold State.close at h
  split at h
  · exact .inl h
  · by_cases hp : p = q
    · subst hp
      simp only [State.closeTable, Function.update_self] at h
      by_cases hi : i = k
      · exact .inr ⟨rfl, hi.symm⟩
      · rw [Function.update_of_ne hi] at h
        exact .inl h
    · simp only [State.closeTable, Function.update_of_ne hp] at h
      exact .inl h

/-- A table is closed by the thread of its instance: inline, in a call,
or by `Close`'s task. -/
def ClosesTable (s : State) (e : Event) (p i : Nat) : Prop :=
  (e = .closeInline p i ∧ ∃ c, (Thread.isolation i, c) ∈ s.calls) ∨
    (e = .closeTask p i ∧ ∃ r, (s.pools i).running = some r ∧
      r.task.body = .close p ∧ r.phase = .entered)

theorem Step.closes (hs : Step n throws s e s')
    (h : (s'.proxies p).isNull i = true) :
    (s.proxies p).isNull i = true ∨ ClosesTable s e p i := by
  cases hs with
  | leaveScope =>
      unfold State.leaveScope at h
      split at h <;> exact .inl h
  | complete =>
      unfold State.complete at h
      split at h <;> exact .inl h
  | @closeTask k q r hr hbody hphase =>
      rcases isNull_close h with h | ⟨rfl, rfl⟩
      · exact .inl h
      · exact .inr (.inr ⟨rfl, r, hr, hbody, hphase⟩)
  | @closeInline q k results status rest hcalls hn =>
      rcases isNull_close h with h | ⟨rfl, rfl⟩
      · exact .inl h
      · refine .inr (.inl ⟨rfl, .closing q k results status, ?_⟩)
        rw [hcalls]
        exact Multiset.mem_cons_self _ _
  | @closeReturn th q next results status rest =>
      by_cases hp : p = q
      · subst hp
        simp only [State.setClosed, Function.update_self] at h
        exact .inl h
      · simp only [State.setClosed, Function.update_of_ne hp] at h
        exact .inl h
  | newProxy =>
      by_cases hp : p = s.nProxies
      · subst hp
        simp [State.newProxy] at h
      · simp only [State.newProxy, Function.update_of_ne hp] at h
        exact .inl h
  | _ => exact .inl h

/-- Proxies are only ever added. -/
theorem Step.nProxies_le (hs : Step n throws s e s') :
    s.nProxies ≤ s'.nProxies := by
  cases hs with
  | newProxy => exact Nat.le_succ _
  | leaveScope => unfold State.leaveScope; split <;> exact Nat.le_refl _
  | complete => unfold State.complete; split <;> exact Nat.le_refl _
  | closeTask | closeInline =>
      simp only [State.finishFuture, State.setRunning, State.close]
      split <;> exact Nat.le_refl _
  | _ => exact Nat.le_refl _

/-- What is closed stays closed. -/
theorem Step.stays (hs : Step n throws s e s') (hp : p < s.nProxies) :
    ((s.proxies p).isNull i = true → (s'.proxies p).isNull i = true) ∧
      ((s.proxies p).isClosed = true → (s'.proxies p).isClosed = true) := by
  have hclose (q k : Nat) :
      ((s.proxies p).isNull i = true →
          ((s.close throws q k).proxies p).isNull i = true) ∧
        ((s.proxies p).isClosed = true →
          ((s.close throws q k).proxies p).isClosed = true) := by
    unfold State.close
    split
    · exact ⟨id, id⟩
    · by_cases hq : p = q
      · subst hq
        simp only [State.closeTable, Function.update_self]
        refine ⟨fun h => ?_, id⟩
        by_cases hk : i = k
        · subst hk
          simp
        · rw [Function.update_of_ne hk]
          exact h
      · simp only [State.closeTable, Function.update_of_ne hq]
        exact ⟨id, id⟩
  cases hs with
  | leaveScope => unfold State.leaveScope; split <;> exact ⟨id, id⟩
  | complete => unfold State.complete; split <;> exact ⟨id, id⟩
  | closeTask => exact hclose _ _
  | closeInline => exact hclose _ _
  | @closeReturn th q =>
      by_cases hq : p = q
      · subst hq
        simp [State.setClosed]
      · simp [State.setClosed, hq]
  | newProxy =>
      have hne : p ≠ s.nProxies := hp.ne
      simp [State.newProxy, hne]
  | _ => exact ⟨id, id⟩

-- ================================================= a thread and its task

/-- How a thread goes on with its task. -/
inductive Goes (s : State) (r : Running) : Phase → Prop
  | check {p : Nat} : r.task.body = .functor p → r.phase = .entered →
      Goes s r (s.check p r.task)
  | invoke {p : Nat} : r.task.body = .functor p → r.phase = .checked →
      Goes s r .inside
  | construct : r.task.body = .construct → r.phase = .entered →
      Goes s r .inside
  | ends {status : Except String Unit} : r.phase = .inside →
      Goes s r (.leaving status)
  | release {status : Except String Unit} : r.phase = .leaving status →
      Goes s r (.released status)
  | finish {status : Except String Unit} :
      r.phase = .leaving status ∨ r.phase = .released status →
      Goes s r .finished
  | closeTask {p : Nat} : r.task.body = .close p → r.phase = .entered →
      Goes s r .finished

/-- A thread stays where it is, takes a task, or goes on with its own. -/
def Moves (s : State) (i : Nat) (r' : Running) : Prop :=
  (s.pools i).running = some r' ∨ r'.phase = .entered ∨
    ∃ r, (s.pools i).running = some r ∧ r'.task = r.task ∧
      Goes s r r'.phase

/-- The threads of the other pools stay where they are. -/
theorem moves_update {pool : Pool} {r' : Running}
    (hr' : (s'.pools j).running = some r')
    (hpools : s'.pools = Function.update s.pools i pool)
    (hi : pool.running = some r' → Moves s i r') : Moves s j r' := by
  rw [hpools] at hr'
  by_cases hj : j = i
  · subst hj
    rw [Function.update_self] at hr'
    exact hi hr'
  · rw [Function.update_of_ne hj] at hr'
    exact .inl hr'

/-- The thread of pool `i` goes on. -/
theorem moves_running {r r' : Running} {phase : Phase}
    (hr' : (s'.pools j).running = some r')
    (hr : (s.pools i).running = some r)
    (hpools : s'.pools = Function.update s.pools i
      { s.pools i with running := some { r with phase := phase } })
    (hgoes : Goes s r phase) : Moves s j r' := by
  refine moves_update hr' hpools fun h => ?_
  obtain rfl := Option.some.inj h
  exact .inr (.inr ⟨r, hr, rfl, hgoes⟩)

theorem Step.moves (hs : Step n throws s e s') {r' : Running}
    (hr' : (s'.pools j).running = some r') : Moves s j r' := by
  cases hs with
  | submit | closeSubmit | constructSubmit =>
      exact .inl ((running_enqueue _ _ _ _ j).symm.trans hr')
  | start hidle hqueue =>
      refine moves_update hr' rfl fun h => ?_
      obtain rfl := Option.some.inj h
      exact .inr (.inl rfl)
  | check hr hbody hphase =>
      exact moves_running hr' hr rfl (.check hbody hphase)
  | invoke hr hbody hphase =>
      exact moves_running hr' hr rfl (.invoke hbody hphase)
  | construct hr hbody hphase =>
      exact moves_running hr' hr rfl (.construct hbody hphase)
  | ends ending hr hphase =>
      exact moves_running hr' hr rfl (.ends hphase)
  | leaveScope hr hphase =>
      unfold State.leaveScope at hr'
      split at hr'
      · exact moves_running hr' hr rfl (.finish (.inl hphase))
      · exact moves_running hr' hr rfl (.release hphase)
  | complete hr hphase =>
      unfold State.complete at hr'
      split at hr' <;>
        exact moves_running hr' hr rfl (.finish (.inr hphase))
  | closeTask hr hbody hphase =>
      exact moves_running hr' hr (close_pools ..) (.closeTask hbody hphase)
  | idle => exact moves_update hr' rfl fun h => by cases h
  | @closeInline p next =>
      rw [show _ = s.pools from (close_frame s throws p next).2.1] at hr'
      exact .inl hr'
  | _ => exact .inl hr'

/-- `Close`'s task is closing its table, or has. -/
def ClosesAlone (s : State) : Prop :=
  ∀ i r p, (s.pools i).running = some r → r.task.body = .close p →
    r.phase = .entered ∨ r.phase = .finished

theorem ClosesAlone.step (h : ClosesAlone s) (hs : Step n throws s e s') :
    ClosesAlone s' := by
  intro i r' p hr' hbody
  rcases hs.moves hr' with hr | hentered | ⟨r, hr, htask, hgoes⟩
  · exact h i r' p hr hbody
  · exact .inl hentered
  · rw [htask] at hbody
    have hr := h i r p hr hbody
    generalize r'.phase = phase at hgoes ⊢
    cases hgoes <;> simp_all

/-- Between the look at the table and the functor, the table is open. -/
def LooksOpen (s : State) : Prop :=
  ∀ i r p, (s.pools i).running = some r → r.task.body = .functor p →
    r.phase = .checked → (s.proxies p).isNull i = false

/-- A thread at work on a functor's task closes no table. -/
theorem ClosesTable.absurd {q : Nat} (h : ClosesTable s e p i)
    (hcalling : Calling s) {r : Running}
    (hr : (s.pools i).running = some r) (hbody : r.task.body = .functor q)
    (hinside : r.phase ≠ .inside) (hfinished : r.phase ≠ .finished) :
    False := by
  rcases h with ⟨-, c, hc⟩ | ⟨-, r', hr', hclose, -⟩
  · exact hcalling.free hr hinside hfinished c hc
  · obtain rfl : r = r' := Option.some.inj (hr.symm.trans hr')
    rw [hbody] at hclose
    cases hclose

theorem LooksOpen.step (h : LooksOpen s) (hm : Measured s)
    (hcalling : Calling s) (hs : Step n throws s e s') : LooksOpen s' := by
  intro i r' p hr' hbody hphase
  by_contra hopen
  have hnull := hs.closes (Bool.not_eq_false _ ▸ hopen)
  rcases hs.moves hr' with hr | hentered | ⟨r, hr, htask, hgoes⟩
  · rcases hnull with hnull | hcloses
    · rw [h i r' p hr hbody hphase] at hnull
      cases hnull
    · exact hcloses.absurd hcalling hr hbody (by simp [hphase])
        (by simp [hphase])
  · rw [hphase] at hentered
    cases hentered
  · rw [hphase] at hgoes
    rw [htask] at hbody
    -- the look itself, at the table of the thread's own instance
    obtain ⟨hentered, hlook⟩ : r.phase = .entered ∧
        (s.proxies p).isNull r.task.submission.inst = false := by
      generalize hto : Phase.checked = phase at hgoes
      cases hgoes with
      | @check q hfunctor hentered =>
          obtain rfl : p = q := by simpa [hbody] using hfunctor
          refine ⟨hentered, ?_⟩
          unfold State.check at hto
          split at hto
          · cases hto
          · next hlook => exact Bool.eq_false_iff.mpr hlook
      | _ => cases hto
    rw [((hm.pools i).running r hr).inst_eq hbody] at hlook
    rcases hnull with hnull | hcloses
    · rw [hlook] at hnull
      cases hnull
    · exact hcloses.absurd hcalling hr hbody (by simp [hentered])
        (by simp [hentered])

-- ========================================================= every state

/-- What holds in every state that the threads reach. -/
structure Safe (s : State) : Prop where
  measured : Measured s
  ordered : Ordered s
  calling : Calling s
  alone : ClosesAlone s
  looksOpen : LooksOpen s

theorem Safe.init (n : Nat) : Safe (State.init n) where
  measured := Measured.init n
  ordered := Ordered.init n
  calling := Calling.init n
  alone := fun _ _ _ hr => by cases hr
  looksOpen := fun _ _ _ hr => by cases hr

theorem Safe.step (h : Safe s) (hs : Step n throws s e s') : Safe s' where
  measured := h.measured.step hs
  ordered := h.ordered.step hs
  calling := h.calling.step hs
  alone := h.alone.step hs
  looksOpen := h.looksOpen.step h.measured h.calling hs

theorem reaches_safe {events : List Event}
    (hs : Reaches n throws events s) : Safe s :=
  Run.invariant Safe Safe.step hs (Safe.init n)

-- ================================================= what events can have been

/-- A closed table was closed by one of the two. -/
theorem closed_by {events : List Event} (hs : Reaches n throws events s)
    (h : (s.proxies p).isNull i = true) :
    .closeInline p i ∈ events ∨ .closeTask p i ∈ events := by
  refine Run.history (fun events s =>
    (s.proxies p).isNull i = true →
      .closeInline p i ∈ events ∨ .closeTask p i ∈ events)
    (fun {events s e s'} hP hstep hnull => ?_) hs
    (fun hnull => by cases hnull) h
  rcases hstep.closes hnull with hnull | ⟨rfl, -⟩ | ⟨rfl, -⟩
  · exact (hP hnull).imp (List.mem_append_left _) (List.mem_append_left _)
  · exact .inl (List.mem_append_right _ (List.mem_singleton_self _))
  · exact .inr (List.mem_append_right _ (List.mem_singleton_self _))

/-- `Close`'s task is run by its thread. -/
theorem Step.closeTask_mem (hs : Step n throws s (.closeTask p i) s') :
    ∃ r, (s.pools i).running = some r ∧ r.task.body = .close p := by
  cases hs with
  | closeTask hr hbody => exact ⟨_, hr, hbody⟩

/-- Before `Close` submits its task to an instance, the pool has none,
and has run none. -/
theorem not_submitted {events : List Event}
    (hs : Reaches n throws events s) (h : .closeSubmit p i ∉ events) :
    (∀ t ∈ (s.pools i).tasks, t.body ≠ .close p) ∧
      .closeTask p i ∉ events := by
  refine Run.history (fun events s => .closeSubmit p i ∉ events →
    (∀ t ∈ (s.pools i).tasks, t.body ≠ .close p) ∧
      .closeTask p i ∉ events)
    (fun {events s e s'} hP hstep hnot => ?_) hs
    (fun _ => ⟨fun _ ht => absurd ht List.not_mem_nil,
      List.not_mem_nil⟩) h
  rw [List.mem_append, List.mem_singleton, not_or] at hnot
  obtain ⟨hnone, hran⟩ := hP hnot.1
  constructor
  · rcases hstep.tasks i with hsuffix | ⟨task, htasks, -, -, hclose⟩
    · exact fun t ht => hnone t (hsuffix.subset ht)
    · intro t ht hbody
      rw [htasks, List.mem_append, List.mem_singleton] at ht
      rcases ht with ht | rfl
      · exact hnone t ht hbody
      · exact hnot.2 (hclose p hbody).symm
  · rw [List.mem_append, List.mem_singleton, not_or]
    refine ⟨hran, ?_⟩
    intro heq
    subst heq
    obtain ⟨r, hr, hbody⟩ := hstep.closeTask_mem
    exact hnone r.task (mem_tasks hr) hbody

/-- The tasks by which `Close` closes a table come after the future `f`,
and one of them has run only if nothing before it is left. -/
structure Outruns (p i f : Nat) (events : List Event) (s : State) : Prop
    where
  old : f < s.nFutures
  behind : ∀ t ∈ (s.pools i).tasks, t.body = .close p → f < t.future
  ran : .closeTask p i ∈ events → ∀ t ∈ (s.pools i).tasks, f < t.future

theorem Outruns.step {f : Nat} {events : List Event}
    (h : Outruns p i f events s) (hordered : Ordered s)
    (hs : Step n throws s e s') : Outruns p i f (events ++ [e]) s' := by
  have hold := lt_of_lt_of_le h.old hs.nFutures_le
  -- what is new in the pool has a newer future
  have hnew (P : Task → Prop)
      (hP : ∀ t ∈ (s.pools i).tasks, P t → f < t.future) :
      ∀ t ∈ (s'.pools i).tasks, P t → f < t.future := by
    intro t ht hPt
    rcases hs.tasks i with hsuffix | ⟨task, htasks, hfuture, -, -⟩
    · exact hP t (hsuffix.subset ht) hPt
    · rw [htasks, List.mem_append, List.mem_singleton] at ht
      rcases ht with ht | rfl
      · exact hP t ht hPt
      · rw [hfuture]
        exact h.old
  refine ⟨hold, hnew _ h.behind, fun hran t ht => ?_⟩
  refine hnew (fun _ => True) (fun u hu _ => ?_) t ht trivial
  rw [List.mem_append, List.mem_singleton] at hran
  rcases hran with hran | rfl
  · exact h.ran hran u hu
  · -- it runs now, at the head of the pool's tasks
    obtain ⟨r, hr, hbody⟩ := hs.closeTask_mem
    have hfirst := h.behind r.task (mem_tasks hr) hbody
    have hascending := hordered.ascending i
    have htasks : (s.pools i).tasks = r.task :: (s.pools i).queue := by
      simp [Pool.tasks, hr]
    rw [htasks, List.pairwise_cons] at hascending
    rw [htasks] at hu
    rcases List.mem_cons.mp hu with rfl | hu
    · exact hfirst
    · exact hfirst.trans (hascending.1 u hu)

/-- While a task queued before `Close`'s is on its thread, its table is
open, unless a `Close` on that thread closed it. -/
theorem outruns_close {events events' : List Event} {task : Task}
    {r : Running} (hs : Reaches n throws events s)
    (htask : task ∈ (s.pools i).queue)
    (hsubmit : .closeSubmit p i ∉ events)
    (hrun : Run (Step n throws) s events' s')
    (hinline : .closeInline p i ∉ events ++ events')
    (hr : (s'.pools i).running = some r) (hrtask : r.task = task) :
    (s'.proxies p).isNull i = false := by
  have hsafe := reaches_safe hs
  obtain ⟨hnone, hran⟩ := not_submitted hs hsubmit
  have hmem : task ∈ (s.pools i).tasks := by simp [Pool.tasks, htask]
  have hstart : Outruns p i task.future events s :=
    ⟨hsafe.ordered.fresh i task hmem,
      fun t ht hbody => absurd hbody (hnone t ht),
      fun h => absurd h hran⟩
  have hend := Run.invariant_labels
    (fun events s => Safe s ∧ Outruns p i task.future events s)
    (fun h hstep => ⟨h.1.step hstep, h.2.step h.1.ordered hstep⟩)
    hrun ⟨hsafe, hstart⟩
  by_contra hopen
  rcases closed_by (hs.trans hrun) (Bool.not_eq_false _ ▸ hopen) with
    hclosed | hclosed
  · exact hinline hclosed
  · have hlt := hend.2.ran hclosed r.task (mem_tasks hr)
    rw [hrtask] at hlt
    exact lt_irrefl _ hlt

-- =================================================== what Close waits for

/-- The future `f` is that of a task of `Close` on instance `i`, and
holds success only if the table is closed. -/
structure Closes (s : State) (f p i : Nat) : Prop where
  old : f < s.nFutures
  only : ∀ j, ∀ t ∈ (s.pools j).tasks, t.future = f →
    t.body = .close p ∧ j = i
  closed : s.futures f = some (.ok ()) → (s.proxies p).isNull i = true

theorem Closes.step {f : Nat} (h : Closes s f p i) (hsafe : Safe s)
    (hp : p < s.nProxies) (hs : Step n throws s e s') :
    Closes s' f p i := by
  refine ⟨lt_of_lt_of_le h.old hs.nFutures_le, fun j t ht hf => ?_,
    fun hok => ?_⟩
  · rcases hs.tasks j with hsuffix | ⟨task, htasks, hfuture, -, -⟩
    · exact h.only j t (hsuffix.subset ht) hf
    · rw [htasks, List.mem_append, List.mem_singleton] at ht
      rcases ht with ht | rfl
      · exact h.only j t ht hf
      · exact absurd (hfuture.symm.trans hf) h.old.ne'
  · rcases hs.futures f with hkeep | ⟨k, r, hr, hf, hfinish⟩
    · rw [hkeep] at hok
      exact (hs.stays hp).1 (h.closed hok)
    · obtain ⟨hbody, rfl⟩ := h.only k r.task (mem_tasks hr) hf
      rcases hfinish p hbody with ⟨hentered, hfinished⟩ | hnull
      · exact ((hsafe.alone k r p hr hbody).elim hentered hfinished).elim
      · exact hnull hok

/-- A task of `Close` just submitted. -/
theorem Closes.submitted (h : Ordered s) (p i : Nat) :
    Closes (s.enqueue i (.close p) {}) s.nFutures p i := by
  refine ⟨Nat.lt_succ_self _, fun j t ht hf => ?_, fun hok => ?_⟩
  · by_cases hj : j = i
    · subst hj
      simp only [State.enqueue, Function.update_self, Pool.tasks_enqueue,
        List.mem_append, List.mem_singleton] at ht
      rcases ht with ht | rfl
      · exact absurd hf (h.fresh j t ht).ne
      · exact ⟨rfl, rfl⟩
    · simp only [State.enqueue, Function.update_of_ne hj] at ht
      exact absurd hf (h.fresh j t ht).ne
  · have hunset : s.futures s.nFutures = none := h.unset _ (Nat.le_refl _)
    rw [show (s.enqueue i (.close p) {}).futures = s.futures from rfl,
      hunset] at hok
    cases hok

/-- A `Close` that has come to instance `next` has the future of a task
for each instance before it, or has closed the table inline; an inline
error is remembered. -/
structure Visited (s : State) (p next : Nat) (results : List Nat)
    (status : Except String Unit) : Prop where
  proxy : p < s.nProxies
  behind : ∀ i < next, (∃ f ∈ results, Closes s f p i) ∨
    (status = .ok () → (s.proxies p).isNull i = true)

/-- Every `Close` in progress has what it waits for. -/
def Waits (s : State) : Prop :=
  ∀ th p next results status,
    (th, Call.closing p next results status) ∈ s.calls →
      Visited s p next results status

theorem Visited.step {next : Nat} {results : List Nat}
    {status : Except String Unit} (h : Visited s p next results status)
    (hsafe : Safe s) (hs : Step n throws s e s') :
    Visited s' p next results status := by
  refine ⟨lt_of_lt_of_le h.proxy hs.nProxies_le, fun i hi => ?_⟩
  rcases h.behind i hi with ⟨f, hf, hcloses⟩ | hinline
  · exact .inl ⟨f, hf, hcloses.step hsafe h.proxy hs⟩
  · exact .inr fun hok => (hs.stays h.proxy).1 (hinline hok)

/-- `close()` on the calling thread, in the inline status. -/
theorem inlineStatus_ok {q k : Nat} {status : Except String Unit}
    (h : State.inlineStatus throws q k status = .ok ()) :
    status = .ok () ∧
      ((s.close throws q k).proxies q).isNull k = true := by
  unfold State.inlineStatus State.closeStatus at h
  unfold State.close
  rcases hthrows : throws q k with _ | what
  · rw [hthrows] at h
    exact ⟨h, by simp [State.closeTable]⟩
  · rw [hthrows] at h
    cases h

/-- Where a `Close` in progress comes from: it was there before, or has
just begun, or has closed a table inline, or has submitted a task. -/
inductive ClosingFrom (n : Nat) (throws : Nat → Nat → Option String)
    (s s' : State) (th : Thread) (p : Nat) :
    Nat → List Nat → Except String Unit → Prop
  | before {next : Nat} {results : List Nat} {status : Except String Unit} :
      (th, .closing p next results status) ∈ s.calls →
      ClosingFrom n throws s s' th p next results status
  | begins : s.MayCall th → p < s.nProxies → s'.pools = s.pools →
      s'.calls = (th, .closing p 0 [] (.ok ())) ::ₘ s.calls →
      ClosingFrom n throws s s' th p 0 [] (.ok ())
  | inline {k : Nat} {results : List Nat} {status : Except String Unit} :
      k < n → th = .isolation k →
      (th, .closing p k results status) ∈ s.calls →
      s'.proxies = (s.close throws p k).proxies →
      ClosingFrom n throws s s' th p (k + 1) results
        (State.inlineStatus throws p k status)
  | submitted {k : Nat} {results : List Nat} {status : Except String Unit} :
      k < n → (th, .closing p k results status) ∈ s.calls →
      s'.pools = (s.enqueue k (.close p) {}).pools →
      s'.nFutures = s.nFutures + 1 → s'.futures = s.futures →
      ClosingFrom n throws s s' th p (k + 1) (results ++ [s.nFutures]) status

theorem Step.closing (hs : Step n throws s e s') {th : Thread} {p next : Nat}
    {results : List Nat} {status : Except String Unit}
    (hc : (th, Call.closing p next results status) ∈ s'.calls) :
    ClosingFrom n throws s s' th p next results status := by
  have hrest {c : Thread × Call} {rest : Calls}
      (hcalls : s.calls = c ::ₘ rest)
      (hmem : (th, Call.closing p next results status) ∈ rest) :
      ClosingFrom n throws s s' th p next results status :=
    .before (hcalls ▸ Multiset.mem_cons_of_mem hmem)
  cases hs with
  | run _ _ hmay | spawn hmay =>
      rcases Multiset.mem_cons.mp hc with hc | hc
      · cases hc
      · exact .before hc
  | close hmay hp hopen =>
      rcases Multiset.mem_cons.mp hc with hc | hc
      · cases hc
        exact .begins hmay hp rfl rfl
      · exact .before hc
  | scan hcalls =>
      rcases Multiset.mem_cons.mp hc with hc | hc
      · unfold State.scan at hc
        split at hc <;> cases hc
      · exact hrest hcalls hc
  | reserve hcalls | count hcalls | constructSubmit hcalls =>
      rcases Multiset.mem_cons.mp hc with hc | hc
      · cases hc
      · exact hrest hcalls hc
  | submit hcalls =>
      simp only [State.submit] at hc
      split at hc
      · rcases Multiset.mem_cons.mp hc with hc | hc
        · cases hc
        · exact hrest hcalls hc
      · exact hrest hcalls hc
  | wake hcalls | closeReturn hcalls | newProxy hcalls =>
      exact hrest hcalls hc
  | leaveScope =>
      refine .before ?_
      unfold State.leaveScope at hc
      split at hc <;> exact hc
  | complete =>
      refine .before ?_
      unfold State.complete at hc
      split at hc <;> exact hc
  | @closeTask i q r =>
      exact .before ((close_frame s throws q i).1 ▸ hc)
  | @closeInline q k results' status' rest hcalls hn =>
      rcases Multiset.mem_cons.mp hc with hc | hc
      · cases hc
        exact .inline hn rfl (hcalls ▸ Multiset.mem_cons_self _ _) rfl
      · exact hrest hcalls hc
  | @closeSubmit th' q k results' status' rest hcalls hn hth =>
      rcases Multiset.mem_cons.mp hc with hc | hc
      · cases hc
        exact .submitted hn (hcalls ▸ Multiset.mem_cons_self _ _) rfl rfl rfl
      · exact hrest hcalls hc
  | constructed hcalls =>
      simp only [State.constructed] at hc
      split at hc
      · rcases Multiset.mem_cons.mp hc with hc | hc
        · cases hc
        · exact hrest hcalls hc
      · exact hrest hcalls hc
  | _ => exact .before hc

theorem Waits.step (h : Waits s) (hsafe : Safe s)
    (hs : Step n throws s e s') : Waits s' := by
  intro th p next results status hc
  have hstep {th : Thread} {p next : Nat} {results : List Nat}
      {status : Except String Unit}
      (hold : (th, Call.closing p next results status) ∈ s.calls) :
      Visited s' p next results status :=
    (h th p next results status hold).step hsafe hs
  cases hs.closing hc with
  | before hold => exact hstep hold
  | begins _ hp =>
      exact ⟨lt_of_lt_of_le hp hs.nProxies_le,
        fun i hi => absurd hi (Nat.not_lt_zero i)⟩
  | @inline k _ status _ _ hold hproxies =>
      refine ⟨(hstep hold).proxy, fun i hi => ?_⟩
      rcases Nat.lt_succ_iff_lt_or_eq.mp hi with hi | rfl
      · exact ((hstep hold).behind i hi).imp_right fun hinline hok =>
          hinline (inlineStatus_ok (s := s) hok).1
      · refine .inr fun hok => ?_
        rw [hproxies]
        exact (inlineStatus_ok hok).2
  | @submitted k results _ _ hold hpools hnew hfutures =>
      refine ⟨(hstep hold).proxy, fun i hi => ?_⟩
      rcases Nat.lt_succ_iff_lt_or_eq.mp hi with hi | rfl
      · refine ((hstep hold).behind i hi).imp_left ?_
        intro hx
        obtain ⟨f, hf, hcloses⟩ := hx
        exact ⟨f, List.mem_append_left _ hf, hcloses⟩
      · refine .inl ⟨s.nFutures,
          List.mem_append_right _ (List.mem_singleton_self _), ?_⟩
        obtain ⟨-, honly, -⟩ := Closes.submitted hsafe.ordered p i
        refine ⟨hnew ▸ Nat.lt_succ_self _, hpools ▸ honly, fun hok => ?_⟩
        rw [hfutures, hsafe.ordered.unset _ (Nat.le_refl _)] at hok
        cases hok

theorem Waits.init (n : Nat) : Waits (State.init n) := by
  intro th p next results status hc
  simp only [State.init] at hc
  split at hc
  · cases Multiset.mem_singleton.mp hc
  · exact absurd hc (Multiset.notMem_zero _)

theorem reaches_waits {events : List Event}
    (hs : Reaches n throws events s) : Safe s ∧ Waits s :=
  Run.invariant (fun s => Safe s ∧ Waits s)
    (fun h hstep => ⟨h.1.step hstep, h.2.step h.1 hstep⟩) hs
    ⟨Safe.init n, Waits.init n⟩

/-- A loop that succeeds has succeeded in every turn. -/
theorem forM_ok {α : Type} {g : α → Except String Unit} {l : List α}
    (h : l.forM g = .ok ()) : ∀ a ∈ l, g a = .ok () := by
  induction l with
  | nil => exact fun _ ha => absurd ha List.not_mem_nil
  | cons b l ih =>
      rw [List.forM] at h
      cases hb : g b with
      | error what =>
          rw [hb] at h
          cases h
      | ok =>
          rw [hb] at h
          intro a ha
          rcases List.mem_cons.mp ha with rfl | ha
          · exact hb
          · exact ih h a ha

/-- Success of the whole is success of every part. -/
theorem closeResult_ok {results : List Nat} {status : Except String Unit}
    {closed : Bool} (h : s.closeResult results status = .ok closed)
    (hdone : ∀ f ∈ results, (s.futures f).isSome) :
    status = .ok () ∧ ∀ f ∈ results, s.futures f = some (.ok ()) := by
  unfold State.closeResult at h
  cases status with
  | error what => cases h
  | ok =>
      refine ⟨rfl, fun f hf => ?_⟩
      cases hall : results.forM fun f => (s.futures f).getD (.ok ()) with
      | error what =>
          rw [hall] at h
          cases h
      | ok =>
          have hok := forM_ok hall f hf
          obtain ⟨result, hresult⟩ := Option.isSome_iff_exists.mp (hdone f hf)
          rw [hresult, Option.getD_some] at hok
          rw [hresult, hok]

/-- Every table of the proxy is closed, and so is the proxy. -/
structure AllClosed (n : Nat) (s : State) (p : Nat) : Prop where
  proxy : p < s.nProxies
  flag : (s.proxies p).isClosed = true
  tables : ∀ i < n, (s.proxies p).isNull i = true

theorem AllClosed.step (h : AllClosed n s p) (hs : Step n throws s e s') :
    AllClosed n s' p :=
  ⟨lt_of_lt_of_le h.proxy hs.nProxies_le,
    (@Step.stays n throws s s' e 0 p hs h.proxy).2 h.flag,
    fun i hi => (hs.stays h.proxy).1 (h.tables i hi)⟩

/-- A `Close` that returns true has closed everything. -/
theorem closeReturn_true (hwaits : Waits s)
    (hs : Step n throws s (.closeReturn p (.ok true)) s') :
    AllClosed n s' p := by
  generalize hresult : (Except.ok true : Except String Bool) = result at hs
  cases hs with
  | closeAgain =>
      cases hresult
  | @closeReturn th _ next results status rest hcalls hn hdone =>
      obtain ⟨hstatus, hok⟩ := closeResult_ok hresult.symm hdone
      have hvisited := hwaits th p next results status
        (hcalls ▸ Multiset.mem_cons_self _ _)
      refine ⟨hvisited.proxy, ?_, fun i hi => ?_⟩
      · simp [State.setClosed]
      · simp only [State.setClosed, Function.update_self]
        rcases hvisited.behind i (lt_of_lt_of_le hi hn) with
          ⟨f, hf, hcloses⟩ | hinline
        · exact hcloses.closed (hok f hf)
        · exact hinline hstatus

/-- A closed proxy refuses every dispatch. -/
theorem AllClosed.refuses (h : AllClosed n s p)
    {checked : Except String Unit}
    (hs : Step n throws s (.run p checked) s') :
    checked = .error "TableProxy is closed" := by
  have hclosed : s.checkClosed p = .error "TableProxy is closed" := by
    rw [State.checkClosed, h.flag, if_pos rfl]
  cases hs with
  | refuse _ _ hrefused => rw [← hrefused, hclosed]
  | run _ _ _ _ hopen =>
      rw [hclosed] at hopen
      cases hopen

/-- `Make` of one instance, and a `Close` from outside whose task is done:
it waits for nothing more. -/
theorem reaches_closing (throws : Nat → Nat → Option String) :
    ∃ events s f, Reaches 1 throws events s ∧
      (∀ p checked, .run p checked ∉ events) ∧
      s.calls = (.outside 0, .closing 0 1 [f] (.ok ())) ::ₘ 0 ∧
      s.futures f = some (State.closeStatus throws 0 0) := by
  obtain ⟨events, s, h0, hcalls, hpools, hproxies, hproxy, -, -, hinternal⟩ :=
    reaches_made throws
  have hmay : s.MayCall (.outside 0) :=
    ⟨fun c hc => by simp [hcalls] at hc, fun i hi => by cases hi⟩
  have hopen : (s.proxies 0).isClosed = false := by rw [hproxy]
  have h1 := h0.tail (.close hmay (hproxies ▸ Nat.one_pos) hopen)
  have h2 := h1.tail (.closeSubmit rfl Nat.one_pos (by simp))
  have h3 := h2.tail (@Step.start 1 _ _ 0
    { body := .close 0, future := s.nFutures } []
    (by simp [State.enqueue, hpools]) (by simp [State.enqueue, hpools]))
  have h4 := h3.tail (@Step.closeTask 1 _ _ 0 0
    { task := { body := .close 0, future := s.nFutures }
      previous := s.currentTask (.isolation 0)
      phase := .entered }
    (by simp [State.start, State.enqueue]) rfl rfl)
  refine ⟨_, _, s.nFutures, h4, fun p checked hmem => ?_, ?_, ?_⟩
  · simp only [List.append_assoc, List.mem_append, List.mem_singleton,
      reduceCtorEq, or_false] at hmem
    cases hinternal _ hmem
  · simp [State.finishFuture, State.setRunning, close_frame, State.start, hcalls]
  · simp [State.finishFuture]

/-- What `Close` returns is what has become of its one task. -/
theorem closeResult_one {f : Nat} {status : Except String Unit}
    (h : s.futures f = some status) :
    s.closeResult [f] (.ok ()) = (do status; return true) := by
  simp only [State.closeResult, List.forM, h, Option.getD_some]
  cases status <;> rfl

/-- Tasks and `Close` are ordered safely in every run. A functor is
called only while its instance's table is open; one whose thread finds
the table closed fails with "TableProxy is closed" instead. A task queued
on an instance before `Close` queues its own there has an open table for
as long as it is on its thread, unless a `Close` on that thread closed it
inline. And once `Close` has returned true, every instance's table is
closed, and every dispatch is refused, from then on. -/
theorem close_ordered {events : List Event}
    (hs : Reaches n throws events s) (p : Nat) :
    (∀ i task s₁, Step n throws s (.invoke i task) s₁ →
      task.body = .functor p → (s.proxies p).isNull i = false) ∧
    (∀ i r, (s.pools i).running = some r → r.task.body = .functor p →
      (s.proxies p).isNull i = true →
      s.check p r.task = .leaving (.error "TableProxy is closed")) ∧
    (∀ i task, task ∈ (s.pools i).queue → task.body = .functor p →
      .closeSubmit p i ∉ events →
      ∀ events' s₁, Run (Step n throws) s events' s₁ →
        .closeInline p i ∉ events ++ events' →
        ∀ r, (s₁.pools i).running = some r → r.task = task →
          (s₁.proxies p).isNull i = false ∧
            s₁.check p task = .checked) ∧
    (∀ s₁, Step n throws s (.closeReturn p (.ok true)) s₁ →
      ∀ events' s₂, Run (Step n throws) s₁ events' s₂ →
        (∀ i < n, (s₂.proxies p).isNull i = true) ∧
          ∀ checked s₃, Step n throws s₂ (.run p checked) s₃ →
            checked = .error "TableProxy is closed") := by
  obtain ⟨hsafe, hwaits⟩ := reaches_waits hs
  refine ⟨fun i task s₁ hstep hbody => ?_, fun i r hr hbody hnull => ?_,
    fun i task htask hbody hsubmit events' s₁ hrun hinline r hr hrtask => ?_,
    fun s₁ hstep events' s₂ hrun => ?_⟩
  · cases hstep with
    | @invoke _ q r hr _ hphase =>
        exact hsafe.looksOpen i r p hr hbody hphase
  · rw [State.check, ((hsafe.measured.pools i).running r hr).inst_eq hbody,
      hnull, if_pos rfl]
  · have hopen := outruns_close hs htask hsubmit hrun hinline hr hrtask
    have hfits := (reaches_safe (hs.trans hrun)).measured.pools i
    have hinst := (hfits.running r hr).inst_eq (hrtask ▸ hbody)
    refine ⟨hopen, ?_⟩
    rw [hrtask] at hinst
    rw [State.check, hinst, hopen, if_neg Bool.false_ne_true]
  · have hclosed := Run.invariant (fun s => AllClosed n s p)
      (fun h hstep => h.step hstep) hrun (closeReturn_true hwaits hstep)
    exact ⟨hclosed.tables, fun checked s₃ hrefuse =>
      hclosed.refuses hrefuse⟩

theorem close_ordered_sample : ∃ events s s₁,
    Reaches 1 (fun _ _ => none) events s ∧
      Step 1 (fun _ _ => none) s (.closeReturn 0 (.ok true)) s₁ ∧
      ∀ i < 1, (s₁.proxies 0).isNull i = true := by
  obtain ⟨events, s, f, hs, -, hcalls, hfuture⟩ := reaches_closing fun _ _ => none
  have hreturn := @Step.closeReturn 1 (fun _ _ => none) s (.outside 0) 0 1
    [f] (.ok ()) 0 hcalls (Nat.le_refl 1) (by simp [hfuture])
  rw [closeResult_one hfuture] at hreturn
  exact ⟨events, s, _, hs, hreturn,
    ((close_ordered hs 0).2.2.2 _ hreturn [] _ .refl).1⟩

end Arcae
