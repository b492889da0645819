/-
What runs on an isolation thread: one functor at a time, in the order in
which they were submitted, and each of them once.

# One pool, one step

A step leaves a pool alone, puts a new task at the end of its queue, or
moves its thread: the thread takes the head of the queue, goes on with its
task, or leaves it behind with the future finished (`Step.pool`).
Everything below is read off these five.

# What has run

Futures are numbered as tasks are submitted, so submitted earlier means
numbered lower. A functor that was called is ahead of every task that
waits in its pool and of one whose functor is still to be called, and its
future is finished unless it is the one on the thread (`Called`). When
the next functor is called, that one is on the thread; so all before it
were submitted before it, and are done.
-/
import Arcae.Proofs.Deadlock

namespace Arcae

open Lts

variable {n : Nat} {throws : Nat → Nat → Option String} {s s' : State}
  {e : Event} {i j : Nat} {task : Task}

-- ============================================================== one pool

/-- What a step does to a pool. -/
inductive PoolMoves (s : State) (e : Event) (s' : State) (i : Nat) : Prop
  | stays : s'.pools i = s.pools i → PoolMoves s e s' i
  | queued (task : Task) : task.future = s.nFutures →
      s'.nFutures = s.nFutures + 1 →
      s'.pools i
        = { s.pools i with queue := (s.pools i).queue ++ [task] } →
      PoolMoves s e s' i
  | takes (r : Running) (rest : List Task) : (s.pools i).running = none →
      (s.pools i).queue = r.task :: rest → r.phase = .entered →
      s'.pools i = { queue := rest, running := some r } → PoolMoves s e s' i
  | goes (r : Running) (phase : Phase) : (s.pools i).running = some r →
      Goes s r phase →
      (phase = .finished → (s'.futures r.task.future).isSome) →
      (r.phase = .checked → e = .invoke i r.task) →
      s'.pools i
        = { s.pools i with running := some { r with phase := phase } } →
      PoolMoves s e s' i
  | leaves (r : Running) : (s.pools i).running = some r →
      r.phase = .finished → s'.pools i = { s.pools i with running := none } →
      PoolMoves s e s' i

/-- A step that changes one pool leaves the others alone. -/
theorem poolMoves_update {pool : Pool}
    (hpools : s'.pools = Function.update s.pools i pool)
    (hi : s'.pools i = pool → PoolMoves s e s' i) (j : Nat) :
    PoolMoves s e s' j := by
  by_cases hj : j = i
  · subst hj
    refine hi ?_
    rw [hpools, Function.update_self]
  · refine .stays ?_
    rw [hpools, Function.update_of_ne hj]

/-- The thread of pool `i` goes on. -/
theorem poolMoves_running {r : Running} {phase : Phase}
    (hr : (s.pools i).running = some r) (hgoes : Goes s r phase)
    (hfuture : phase = .finished → (s'.futures r.task.future).isSome)
    (hinvoke : r.phase = .checked → e = .invoke i r.task)
    (hpools : s'.pools = Function.update s.pools i
      { s.pools i with running := some { r with phase := phase } })
    (j : Nat) : PoolMoves s e s' j :=
  poolMoves_update hpools (.goes r phase hr hgoes hfuture hinvoke) j

theorem Step.pool (hs : Step n throws s e s') (j : Nat) :
    PoolMoves s e s' j := by
  cases hs with
  | @submit th p x =>
      exact poolMoves_update (i := x.inst) rfl (.queued _ rfl rfl) j
  | @closeSubmit th p i =>
      exact poolMoves_update (i := i) rfl (.queued _ rfl rfl) j
  | @constructSubmit th i =>
      exact poolMoves_update (i := i) rfl (.queued _ rfl rfl) j
  | @start i task rest hidle hqueue =>
      exact poolMoves_update (i := i) rfl
        (.takes { task := task, previous := _, phase := .entered } rest hidle
          hqueue rfl) j
  | check hr hbody hphase =>
      refine poolMoves_running hr (.check hbody hphase) (fun h => ?_)
        (fun h => ?_) rfl j
      · unfold State.check at h
        split at h <;> cases h
      · rw [hphase] at h
        cases h
  | invoke hr hbody hphase =>
      exact poolMoves_running hr (.invoke hbody hphase)
        (fun h => by cases h) (fun _ => rfl) rfl j
  | construct hr hbody hphase =>
      exact poolMoves_running hr (.construct hbody hphase)
        (fun h => by cases h) (fun h => by rw [hphase] at h; cases h) rfl j
  | ends ending hr hphase =>
      exact poolMoves_running hr (.ends hphase) (fun h => by cases h)
        (fun h => by rw [hphase] at h; cases h) rfl j
  | leaveScope hr hphase =>
      unfold State.leaveScope
      split
      · exact poolMoves_running hr (.finish (.inl hphase))
          (fun _ => by simp [State.finishFuture])
          (fun h => by rw [hphase] at h; cases h) rfl j
      · exact poolMoves_running hr (.release hphase) (fun h => by cases h)
          (fun h => by rw [hphase] at h; cases h) rfl j
  | complete hr hphase =>
      unfold State.complete
      split <;>
        exact poolMoves_running hr (.finish (.inr hphase))
          (fun _ => by simp [State.finishFuture, State.setStats])
          (fun h => by rw [hphase] at h; cases h) rfl j
  | closeTask hr hbody hphase =>
      exact poolMoves_running hr (.closeTask hbody hphase)
        (fun _ => by simp [State.finishFuture])
        (fun h => by rw [hphase] at h; cases h) (close_pools ..) j
  | @idle i r hr hphase hfree =>
      exact poolMoves_update rfl (.leaves r hr hphase) j
  | @closeInline p next =>
      exact .stays (congrFun (close_frame s throws p next).2.1 j)
  | _ => exact .stays rfl

/-- A future that is finished stays so. -/
theorem Step.future_stays (hs : Step n throws s e s') {f : Nat}
    (hf : (s.futures f).isSome) : (s'.futures f).isSome := by
  have hupdate {g : Nat} {status : Except String Unit} :
      (Function.update s.futures g (some status) f).isSome := by
    by_cases hg : f = g
    · rw [hg, Function.update_self]
      rfl
    · rw [Function.update_of_ne hg]
      exact hf
  cases hs with
  | leaveScope =>
      unfold State.leaveScope
      split
      · exact hupdate
      · exact hf
  | complete =>
      unfold State.complete
      split <;> exact hupdate
  | closeTask =>
      simp only [State.finishFuture, State.setRunning, State.close]
      split <;> exact hupdate
  | closeInline =>
      simp only [State.close]
      split <;> exact hf
  | _ => exact hf

/-- A functor is called by the thread whose task it is, once it has found
the table open. -/
theorem Step.invoked (hs : Step n throws s (.invoke i task) s') :
    (∃ r, (s.pools i).running = some r ∧ r.task = task ∧ r.phase = .checked)
      ∧ ∃ r', (s'.pools i).running = some r' ∧ r'.task = task
        ∧ r'.phase = .inside := by
  cases hs with
  | @invoke i p r hr hbody hphase =>
      refine ⟨⟨r, hr, rfl, hphase⟩, { r with phase := .inside }, ?_, rfl, rfl⟩
      simp only [State.setRunning, Function.update_self]

-- =========================================================== what has run

/-- The functor of the task on the thread is still to be called, if it is
called at all. -/
def Phase.beforeCall : Phase → Bool
  | .entered | .checked => true
  | _ => false

/-- The functor of the task on the thread was called, and its future is
not finished. -/
def Phase.inCall : Phase → Bool
  | .inside | .leaving _ | .released _ => true
  | _ => false

/-- A task of pool `i` whose functor was called: it is ahead of what
waits, and done unless it is on the thread. -/
structure Called (s : State) (i : Nat) (task : Task) : Prop where
  made : task.future < s.nFutures
  queue : ∀ u ∈ (s.pools i).queue, task.future < u.future
  running : ∀ r, (s.pools i).running = some r → r.phase.beforeCall = true →
    task.future < r.task.future
  done : (s.futures task.future).isSome ∨
    ∃ r, (s.pools i).running = some r ∧ r.task = task ∧ r.phase.inCall = true

/-- A thread that goes on stays before the call, or is past it. -/
theorem Goes.call {r : Running} {phase : Phase} (h : Goes s r phase) :
    (phase.beforeCall = true → r.phase.beforeCall = true)
      ∧ (r.phase.inCall = true → phase.inCall = true ∨ phase = .finished) := by
  cases h with
  | check hbody hphase =>
      rw [hphase]
      exact ⟨fun _ => rfl, fun h => (by cases h)⟩
  | invoke hbody hphase | construct hbody hphase =>
      rw [hphase]
      exact ⟨fun _ => rfl, fun h => (by cases h)⟩
  | ends | release => exact ⟨fun h => (by cases h), fun _ => .inl rfl⟩
  | finish | closeTask =>
      exact ⟨fun h => (by cases h), fun _ => .inr rfl⟩

theorem Called.step (h : Called s i task) (hs : Step n throws s e s') :
    Called s' i task := by
  have hmade : task.future < s'.nFutures :=
    Nat.lt_of_lt_of_le h.made hs.nFutures_le
  have hdone := h.done.imp_left hs.future_stays
  cases hs.pool i with
  | stays hpool =>
      exact ⟨hmade, hpool ▸ h.queue, hpool ▸ h.running, hpool ▸ hdone⟩
  | queued new hnew _ hpool =>
      have hrunning : (s'.pools i).running = (s.pools i).running := by
        rw [hpool]
      refine ⟨hmade, fun u hu => ?_, ?_, ?_⟩
      · rw [hpool] at hu
        rcases List.mem_append.mp hu with hu | hu
        · exact h.queue u hu
        · rw [List.mem_singleton.mp hu, hnew]
          exact h.made
      · rw [hrunning]
        exact h.running
      · rw [hrunning]
        exact hdone
  | takes r rest hidle hqueue hphase hpool =>
      have hrest := List.forall_mem_cons.mp (hqueue ▸ h.queue)
      refine ⟨hmade, fun u hu => ?_, fun r' hr' _ => ?_, ?_⟩
      · rw [hpool] at hu
        exact hrest.2 u hu
      · rw [hpool] at hr'
        cases hr'
        exact hrest.1
      · refine hdone.imp_right fun hx => ?_
        obtain ⟨r', hr', -⟩ := hx
        rw [hidle] at hr'
        cases hr'
  | goes r phase hr hgoes hfuture _ hpool =>
      obtain ⟨hbefore, hafter⟩ := hgoes.call
      refine ⟨hmade, fun u hu => ?_, fun r' hr' hphase => ?_, ?_⟩
      · rw [hpool] at hu
        exact h.queue u hu
      · rw [hpool] at hr'
        cases hr'
        exact h.running r hr (hbefore hphase)
      · rcases hdone with hdone | hx
        · exact .inl hdone
        · obtain ⟨r', hr', htask, hphase⟩ := hx
          cases hr.symm.trans hr'
          rcases hafter hphase with hin | hfin
          · refine .inr ⟨{ r with phase := phase }, ?_, htask, hin⟩
            rw [hpool]
          · exact .inl (htask ▸ hfuture hfin)
  | leaves r hr hphase hpool =>
      refine ⟨hmade, fun u hu => ?_, fun r' hr' => ?_, ?_⟩
      · rw [hpool] at hu
        exact h.queue u hu
      · rw [hpool] at hr'
        cases hr'
      · refine .inl (hdone.elim id fun hx => ?_)
        obtain ⟨r', hr', -, hin⟩ := hx
        cases hr.symm.trans hr'
        rw [hphase] at hin
        cases hin

/-- The functor that is called joins those that were. -/
theorem Called.begins (hordered : Ordered s)
    (hs : Step n throws s (.invoke i task) s') : Called s' i task := by
  obtain ⟨⟨r, hr, htask, -⟩, r', hr', htask', hphase'⟩ := hs.invoked
  subst htask
  have hordered' := hordered.step hs
  have hascending := hordered'.ascending i
  have htasks : (s'.pools i).tasks = r'.task :: (s'.pools i).queue := by
    rw [Pool.tasks, hr']
    rfl
  rw [htasks, List.pairwise_cons, htask'] at hascending
  refine ⟨?_, hascending.1, fun r'' hr'' hbefore => ?_,
    .inr ⟨r', hr', htask', by rw [hphase']; rfl⟩⟩
  · rw [← htask']
    exact hordered'.fresh i r'.task (mem_tasks hr')
  · cases hr'.symm.trans hr''
    rw [hphase'] at hbefore
    cases hbefore

/-- Every functor that was called is accounted for. -/
theorem reaches_called {events : List Event}
    (hs : Reaches n throws events s) :
    Ordered s ∧ ∀ i task, .invoke i task ∈ events → Called s i task := by
  refine Run.history (fun events s => Ordered s ∧
    ∀ i task, .invoke i task ∈ events → Called s i task) ?_ hs
    ⟨Ordered.init n, fun i task h => by cases h⟩
  intro events t e u h hstep
  refine ⟨h.1.step hstep, fun i task hmem => ?_⟩
  rcases List.mem_append.mp hmem with hmem | hmem
  · exact (h.2 i task hmem).step hstep
  · cases List.mem_singleton.mp hmem
    exact .begins h.1 hstep

/-- Functors on an instance run one after the other, in the order in which
they were submitted, each of them once: when one is called, every one
called there before was submitted before it and has a finished future.
They are those of `RunAsync` and `RunSync`; the tasks of `Make` and
`Spawn`, which construct an instance, are no `invoke`. -/
theorem functors_in_order {events : List Event}
    (hs : Reaches n throws events s)
    (hstep : Step n throws s (.invoke i task) s') :
    ∀ earlier, .invoke i earlier ∈ events →
      earlier.future < task.future ∧ (s.futures earlier.future).isSome := by
  intro earlier hmem
  obtain ⟨⟨r, hr, rfl, hphase⟩, -⟩ := hstep.invoked
  have hcalled := (reaches_called hs).2 i earlier hmem
  refine ⟨hcalled.running r hr (by rw [hphase]; rfl), ?_⟩
  refine hcalled.done.resolve_right fun hx => ?_
  obtain ⟨r', hr', -, hin⟩ := hx
  cases hr.symm.trans hr'
  rw [hphase] at hin
  cases hin

-- =============================================================== a run

/-- A proxy of one instance, with nothing to do. -/
structure Waiting (s : State) : Prop where
  calls : s.calls = 0
  pool : s.pools 0 = {}
  nProxies : s.nProxies = 1
  proxy : s.proxies 0 = {}

/-- A task on the only instance, from `RunAsync` to its functor. -/
theorem Waiting.invokes (h : Waiting s) : ∃ events task s₁ s₂,
    Run (UnspawnedStep 1 throws) s events s₁ ∧
      UnspawnedStep 1 throws s₁ (.invoke 0 task) s₂ ∧ s₂.calls = 0 ∧
      s₂.nProxies = 1 ∧ s₂.proxies 0 = {} ∧
      s₂.pools 0 = { running := some ⟨task, s.currentTask (.isolation 0), .inside⟩ }
      ∧ task.submission.stats = some 0 ∧ task.body = .functor 0
      ∧ ∀ e ∈ events, ∀ i task, e ≠ .invoke i task := by
  have hmay : s.MayCall (.outside 0) :=
    ⟨fun c hc => by simp [h.calls] at hc, fun i hi => by cases hi⟩
  have hopen : s.checkClosed 0 = .ok () := by simp [State.checkClosed, h.proxy]
  have hscan : ∃ least, s.scan (.outside 0) 0 8 false 0 0 State.int64Max
      = .scanning 0 8 false 1 0 least := by
    unfold State.scan
    split <;> exact ⟨_, rfl⟩
  obtain ⟨least, hscan⟩ := hscan
  have h1 : Run (UnspawnedStep 1 throws) s _ _ := Run.single
    ⟨@Step.run 1 throws s (.outside 0) 0 8 false hmay
      (h.nProxies ▸ Nat.one_pos) hopen, fun th heq => by simp at heq⟩
  have h2 := h1.tail ((Step.scan rfl Nat.one_pos).unspawned (by simp))
  have h3 := h2.tail
    ((Step.reserve (congrArg (fun c => (Thread.outside 0, c) ::ₘ s.calls) hscan)
      (Nat.le_refl 1)).unspawned (by simp))
  have h4 := h3.tail ((Step.count rfl).unspawned (by simp))
  have h5 := h4.tail ((Step.submit rfl).unspawned (by simp [State.submit]))
  have h6 := h5.tail ((@Step.start 1 throws _ 0
    { body := .functor 0, submission := ⟨0, some 0, 8⟩, future := s.nFutures } []
    (by simp [State.submit, State.enqueue, State.count, State.reserve,
      State.setStats, h.pool])
    (by simp [State.submit, State.enqueue, State.count, State.reserve,
      State.setStats, h.pool])).unspawned (Nat.le_refl _))
  have h7 := h6.tail ((@Step.check 1 throws _ 0 0
    { task :=
        { body := .functor 0, submission := ⟨0, some 0, 8⟩, future := s.nFutures }
      previous := s.currentTask (.isolation 0)
      phase := .entered }
    (by simp [State.start, State.submit, State.enqueue, State.count,
      State.reserve, State.setStats]) rfl rfl).unspawned (Nat.le_refl _))
  refine ⟨_, _, _, _, h7, (@Step.invoke 1 throws _ 0 0
    { task :=
        { body := .functor 0, submission := ⟨0, some 0, 8⟩, future := s.nFutures }
      previous := s.currentTask (.isolation 0)
      phase := .checked }
    (by simp [State.setRunning, State.check, State.start, State.submit,
      State.enqueue, State.count, State.reserve, State.setStats, h.proxy])
    rfl rfl).unspawned (Nat.le_refl _), h.calls, h.nProxies, h.proxy, ?_, rfl,
    rfl, by simp⟩
  simp [State.setRunning, State.start]

/-- And from there until its thread is idle. -/
theorem ends_alone {task : Task} {previous : RunningTask} (hcalls : s.calls = 0)
    (hproxies : s.nProxies = 1) (hproxy : s.proxies 0 = {})
    (hpool : s.pools 0 = { running := some ⟨task, previous, .inside⟩ })
    (hstats : task.submission.stats = some 0) :
    ∃ events s', Run (UnspawnedStep 1 throws) s events s' ∧ Waiting s'
      ∧ ∀ e ∈ events, ∀ i task, e ≠ .invoke i task := by
  have h1 := Run.single ((@Step.ends 1 throws s 0 ⟨task, previous, .inside⟩
    .returned (by rw [hpool]) rfl
    fun c hc => by simp [hcalls] at hc).unspawned (Nat.le_refl _))
  have h2 := h1.tail ((@Step.leaveScope 1 throws _ 0
    ⟨task, previous, .leaving (.ok ())⟩ (.ok ())
    (by simp [State.setRunning, Ending.status]) rfl).unspawned
    (by simp [State.leaveScope, hstats, State.setStats, State.setRunning]))
  have h3 := h2.tail ((@Step.complete 1 throws _ 0
    ⟨task, previous, .released (.ok ())⟩ (.ok ())
    (by simp [State.leaveScope, hstats, State.setStats, State.setRunning])
    rfl).unspawned (by simp [State.complete, hstats, State.setStats,
      State.finishFuture, State.setRunning]))
  have h4 := h3.tail ((@Step.idle 1 throws _ 0 ⟨task, previous, .finished⟩
    (by simp [State.complete, hstats, State.setStats, State.finishFuture,
      State.setRunning]) rfl
    fun c hc => by
      simp [State.complete, hstats, State.setStats, State.finishFuture,
        State.leaveScope, State.setRunning, hcalls] at hc).unspawned
    (Nat.le_refl _))
  refine ⟨_, _, h4, ⟨?_, ?_, ?_, ?_⟩, by simp⟩
  all_goals
    simp [State.complete, hstats, State.setStats, State.finishFuture,
      State.leaveScope, State.setRunning, hcalls, hpool, hproxies, hproxy]

/-- Two tasks, the second after the first. -/
theorem functors_in_order_sample : ∃ events s first second s',
    Reaches 1 (fun _ _ => none) events s ∧ .invoke 0 first ∈ events ∧
      Step 1 (fun _ _ => none) s (.invoke 0 second) s' ∧
      first.future < second.future ∧ (s.futures first.future).isSome := by
  obtain ⟨events, s, hs, hcalls, hpool, hproxies, hproxy, -⟩ :=
    makes_one fun _ _ => none
  obtain ⟨events₁, first, s₁, s₂, hrun₁, hfirst, hcalls₂, hproxies₂, hproxy₂,
    hpool₂, hstats, -⟩ := Waiting.invokes ⟨hcalls, hpool, hproxies, hproxy⟩
  obtain ⟨events₂, s₃, hrun₂, hwaiting, -⟩ :=
    ends_alone hcalls₂ hproxies₂ hproxy₂ hpool₂ hstats
  obtain ⟨events₃, second, s₄, s₅, hrun₃, hsecond, -⟩ := hwaiting.invokes
  have hreach := ((((hs.trans hrun₁).tail hfirst).trans hrun₂).trans hrun₃).mono
    And.left
  have hmem : .invoke 0 first
      ∈ ((events ++ events₁) ++ [.invoke 0 first]) ++ events₂ ++ events₃ := by
    simp
  exact ⟨_, s₄, first, second, s₅, hreach, hmem, hsecond.1,
    functors_in_order hreach hsecond.1 first hmem⟩

end Arcae
