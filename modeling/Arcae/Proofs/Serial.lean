/-
An instance does what it was asked to do, in the order in which it was
asked, whichever threads asked for it.

Who asked for what is nowhere in the state: a task that is done is
forgotten. So runs are logged, with an entry for each task as it is
submitted (`Submissions`), which every run can be (`reaches_logged`). The
functors in the log of an instance are, at any time, those the instance
has served and, behind them, those it has not called yet, in the order in
which its pool holds them (`Served`): the queue gives up its head, and a
functor that is served is called or, where its thread finds the table
closed, refused. An instance of which no table was ever closed has called
exactly what it has served.
-/
import Arcae.Proofs.Draining

namespace Arcae

open Lts

variable {n : Nat} {throws : Nat → Nat → Option String} {s s' : State}
  {e : Event} {i : Nat} {task : Task} {log entries : List (Nat × Task)}
  {functors invoked served : List Task}

-- =============================================================== the log

/-- What a step adds to the log: the task it submits, with its pool. -/
def Submissions (s : State) (_ : Event) (s' : State)
    (entries : List (Nat × Task)) : Prop :=
  (s'.nFutures = s.nFutures ∧ entries = []) ∨
    ∃ i task, Submits s s' i task ∧ entries = [(i, task)]

/-- Every step can be logged. -/
theorem Step.submissions (hs : Step n throws s e s') :
    ∃ entries, Submissions s e s' entries := by
  rcases hs.adds with hsame | ⟨i, task, hsubmits, -⟩
  · exact ⟨[], .inl ⟨hsame, rfl⟩⟩
  · exact ⟨[(i, task)], .inr ⟨i, task, hsubmits, rfl⟩⟩

/-- Every run can be logged. -/
theorem reaches_logged {events : List Event} (hs : Reaches n throws events s) :
    ∃ log, Run (logging (Step n throws) Submissions) (State.init n, [])
      events (s, log) :=
  Run.logged Step.submissions hs []

/-- A functor of `RunAsync` or `RunSync`. -/
def Body.isFunctor : Body → Bool
  | .functor _ => true
  | _ => false

/-- The functors submitted to instance `i`, in order. -/
def functorsOn (i : Nat) (log : List (Nat × Task)) : List Task :=
  (log.filter fun entry => entry.1 == i && entry.2.body.isFunctor).map Prod.snd

/-- The task whose functor instance `i` calls, if that is what happens. -/
def Event.invokedOn (i : Nat) : Event → Option Task
  | .invoke j task => if j = i then some task else none
  | _ => none

/-- The functors that instance `i` has called, in order. -/
def calledOn (i : Nat) (events : List Event) : List Task :=
  events.filterMap (Event.invokedOn i)

/-- The functors of a pool that are not called yet, in order. -/
def Pool.uncalled (pool : Pool) : List Task :=
  (((pool.running.filter fun r => r.phase.beforeCall).map Running.task).toList
    ++ pool.queue).filter fun task => task.body.isFunctor

/-- The instance's table is closed, for the proxy of this task. -/
def Refused (s : State) (i : Nat) (task : Task) : Prop :=
  ∃ p, task.body = .functor p ∧ p < s.nProxies ∧ (s.proxies p).isNull i = true

theorem Refused.step (h : Refused s i task) (hs : Step n throws s e s') :
    Refused s' i task := by
  obtain ⟨p, hbody, hp, hnull⟩ := h
  exact ⟨p, hbody, Nat.lt_of_lt_of_le hp hs.nProxies_le,
    (hs.stays hp).1 hnull⟩

theorem functorsOn_append (i : Nat) (log entries : List (Nat × Task)) :
    functorsOn i (log ++ entries) = functorsOn i log ++ functorsOn i entries := by
  rw [functorsOn, functorsOn, functorsOn, List.filter_append, List.map_append]

theorem calledOn_append (i : Nat) (events events' : List Event) :
    calledOn i (events ++ events') = calledOn i events ++ calledOn i events' :=
  List.filterMap_append

theorem calledOn_singleton (i : Nat) (e : Event) :
    calledOn i [e] = (e.invokedOn i).toList := by
  rw [calledOn, List.filterMap_cons]
  cases e.invokedOn i <;> rfl

-- ============================================================== one step

/-- Nothing is logged for a pool whose queue does not grow. -/
theorem functorsOn_nil (h : Submissions s e s' entries)
    (hqueue : (s'.pools i).queue.length ≤ (s.pools i).queue.length) :
    functorsOn i entries = [] := by
  rcases h with ⟨-, rfl⟩ | ⟨k, task, hsubmits, rfl⟩
  · rfl
  · have hk : k ≠ i := by
      intro heq
      subst heq
      rw [hsubmits.pools, Function.update_self, List.length_append,
        List.length_singleton] at hqueue
      omega
    simp [functorsOn, hk]

/-- What is logged for a pool is what was queued there. -/
theorem functorsOn_queued (h : Submissions s e s' entries)
    (hnew : s'.nFutures = s.nFutures + 1)
    (hpool : s'.pools i
      = { s.pools i with queue := (s.pools i).queue ++ [task] }) :
    functorsOn i entries = [task].filter fun task => task.body.isFunctor := by
  rcases h with ⟨hsame, -⟩ | ⟨k, new, hsubmits, rfl⟩
  · omega
  · rw [hsubmits.pools] at hpool
    by_cases hk : i = k
    · subst hk
      rw [Function.update_self] at hpool
      injection hpool with hqueue
      obtain rfl := List.singleton_inj.mp (List.append_cancel_left hqueue)
      cases hbody : new.body.isFunctor <;> simp [functorsOn, hbody]
    · rw [Function.update_of_ne hk] at hpool
      have hlength := congrArg (fun pool => pool.queue.length) hpool
      simp at hlength

/-- Only a thread that has found its table open calls a functor. -/
theorem Step.calledOn_nil (hs : Step n throws s e s')
    (h : (s'.pools i).running = (s.pools i).running ∨
      ∀ r, (s.pools i).running = some r → r.phase ≠ .checked) :
    calledOn i [e] = [] := by
  rw [calledOn_singleton]
  cases e with
  | invoke j task =>
      by_cases hj : j = i
      · subst hj
        exfalso
        obtain ⟨⟨r, hr, -, hphase⟩, r', hr', -, hphase'⟩ := hs.invoked
        rcases h with hsame | hne
        · cases hr.symm.trans (hsame.symm.trans hr')
          rw [hphase] at hphase'
          cases hphase'
        · exact hne r hr hphase
      · simp [Event.invokedOn, hj]
  | _ => rfl

/-- The functors in the log of instance `i`: those it has served, each
called or refused, and behind them those it has still to serve. -/
structure Served (s : State) (i : Nat) (functors called served : List Task) :
    Prop where
  split : functors = served ++ (s.pools i).uncalled
  order : called.Sublist served
  done : ∀ task ∈ served, task ∈ called ∨ Refused s i task

/-- Nothing is served, and what is new waits. -/
theorem Served.keep {called new : List Task}
    (h : Served s i functors called served) (hs : Step n throws s e s')
    (huncalled : (s'.pools i).uncalled = (s.pools i).uncalled ++ new) :
    Served s' i (functors ++ new) called served where
  split := by rw [huncalled, h.split, List.append_assoc]
  order := h.order
  done task htask := (h.done task htask).imp_right fun hr => hr.step hs

/-- The task on the thread is served. -/
theorem Served.serve {called calls : List Task}
    (h : Served s i functors called served) (hs : Step n throws s e s')
    (huncalled : (s.pools i).uncalled = task :: (s'.pools i).uncalled)
    (hcalls : calls = [task] ∨ calls = [] ∧ Refused s i task) :
    Served s' i functors (called ++ calls) (served ++ [task]) where
  split := by
    rw [h.split, huncalled, List.append_assoc]
    rfl
  order := by
    refine h.order.append ?_
    rcases hcalls with rfl | ⟨rfl, -⟩
    · exact List.Sublist.refl _
    · exact List.nil_sublist _
  done u hu := by
    rcases List.mem_append.mp hu with hu | hu
    · exact (h.done u hu).imp (List.mem_append_left _) fun hr => hr.step hs
    · obtain rfl := List.mem_singleton.mp hu
      rcases hcalls with rfl | ⟨-, hrefused⟩
      · exact .inl (List.mem_append_right _ (List.mem_singleton_self _))
      · exact .inr (hrefused.step hs)

/-- A pool whose thread is past the call, or idle. -/
theorem uncalled_past {pool : Pool}
    (h : ∀ r, pool.running = some r → r.phase.beforeCall = false) :
    pool.uncalled = pool.queue.filter fun task => task.body.isFunctor := by
  rw [Pool.uncalled]
  rcases hr : pool.running with _ | r
  · rfl
  · rw [Option.filter_some, h r hr]
    rfl

/-- A pool whose thread has its functor still to call. -/
theorem uncalled_before {pool : Pool} {r : Running} (hr : pool.running = some r)
    (h : r.phase.beforeCall = true) : pool.uncalled
      = (r.task :: pool.queue).filter fun task => task.body.isFunctor := by
  rw [Pool.uncalled, hr, Option.filter_some, h]
  rfl

/-- A thread goes on with its task. -/
theorem Served.goes {called : List Task} (h : Served s i functors called served)
    (hs : Step n throws s e s') (hmeasured : Measured s) (hsteady : Steady n s)
    {r : Running} {phase : Phase} (hr : (s.pools i).running = some r)
    (hgoes : Goes s r phase) (hinvoke : r.phase = .checked → e = .invoke i r.task)
    (hpool : s'.pools i
      = { s.pools i with running := some { r with phase := phase } }) :
    ∃ served', Served s' i functors (called ++ calledOn i [e]) served' := by
  have hbehind : phase.beforeCall = false → (s'.pools i).uncalled
      = (s.pools i).queue.filter fun task => task.body.isFunctor := by
    intro hphase
    rw [uncalled_past, hpool]
    intro r' hr'
    rw [hpool] at hr'
    cases hr'
    exact hphase
  have hkept (hcalled : r.phase ≠ .checked)
      (huncalled : (s'.pools i).uncalled = (s.pools i).uncalled) :
      ∃ served', Served s' i functors (called ++ calledOn i [e]) served' := by
    refine ⟨served, ?_⟩
    have hkeep := h.keep hs (huncalled.trans (List.append_nil _).symm)
    rw [List.append_nil] at hkeep
    rw [hs.calledOn_nil (.inr fun r' hr' => by cases hr.symm.trans hr'; exact hcalled),
      List.append_nil]
    exact hkeep
  have hpast (hcalled : r.phase.beforeCall = false)
      (hphase : phase.beforeCall = false) :
      ∃ served', Served s' i functors (called ++ calledOn i [e]) served' := by
    refine hkept (fun heq => ?_) ?_
    · rw [heq] at hcalled
      cases hcalled
    · rw [hbehind hphase, uncalled_past]
      intro r' hr'
      cases hr.symm.trans hr'
      exact hcalled
  have hunmeasured (hbody : r.task.body.isFunctor = false)
      (hcalled : r.phase = .entered) (hphase : phase.beforeCall = false) :
      ∃ served', Served s' i functors (called ++ calledOn i [e]) served' := by
    refine hkept (by rw [hcalled]; simp) ?_
    rw [hbehind hphase, uncalled_before hr (by rw [hcalled]; rfl),
      List.filter_cons_of_neg (by rw [hbody]; simp)]
  cases hgoes with
  | @check p hbody hphase =>
      have huncalled : (s.pools i).uncalled = r.task
          :: (s.pools i).queue.filter fun task => task.body.isFunctor := by
        rw [uncalled_before hr (by rw [hphase]; rfl),
          List.filter_cons_of_pos (by rw [hbody]; rfl)]
      cases hnull : (s.proxies p).isNull i with
      | true =>
          have hcheck : s.check p r.task
              = .leaving (.error "TableProxy is closed") := by
            rw [State.check, ((hmeasured.pools i).running r hr).inst_eq hbody,
              if_pos hnull]
          rw [hcheck] at hbehind
          refine ⟨served ++ [r.task], h.serve hs ?_ (.inr ⟨?_, p, hbody, ?_, hnull⟩)⟩
          · rw [huncalled, hbehind rfl]
          · refine hs.calledOn_nil (.inr fun r' hr' => ?_)
            cases hr.symm.trans hr'
            rw [hphase]
            simp
          · exact hsteady.proxies i r.task (mem_tasks hr) p hbody
      | false =>
          have hcheck : s.check p r.task = .checked := by
            rw [State.check, ((hmeasured.pools i).running r hr).inst_eq hbody,
              if_neg (by simp [hnull])]
          refine hkept (by rw [hphase]; simp) ?_
          rw [huncalled, hpool, hcheck, @uncalled_before _
            { r with phase := .checked } rfl rfl,
            List.filter_cons_of_pos (by rw [hbody]; rfl)]
  | invoke hbody hphase =>
      have hcalls : calledOn i [e] = [r.task] := by
        rw [hinvoke hphase, calledOn_singleton, Event.invokedOn, if_pos rfl]
        rfl
      refine ⟨served ++ [r.task], hcalls ▸ h.serve hs ?_ (.inl hcalls)⟩
      rw [uncalled_before hr (by rw [hphase]; rfl), hbehind rfl,
        List.filter_cons_of_pos (by rw [hbody]; rfl)]
  | construct hbody hphase | closeTask hbody hphase =>
      exact hunmeasured (by rw [hbody]; rfl) hphase rfl
  | ends hphase | release hphase => exact hpast (by rw [hphase]; rfl) rfl
  | finish hphase =>
      refine hpast ?_ rfl
      rcases hphase with hphase | hphase
      · rw [hphase]
        rfl
      · rw [hphase]
        rfl

/-- What one step does to what an instance has served. -/
theorem Served.step {called : List Task} (h : Served s i functors called served)
    (hs : Step n throws s e s') (hmeasured : Measured s) (hsteady : Steady n s)
    (hlog : Submissions s e s' entries) :
    ∃ served', Served s' i (functors ++ functorsOn i entries)
      (called ++ calledOn i [e]) served' := by
  have hnew {new : List Task} (hcalled : calledOn i [e] = [])
      (hentries : functorsOn i entries = new)
      (huncalled : (s'.pools i).uncalled = (s.pools i).uncalled ++ new) :
      ∃ served', Served s' i (functors ++ functorsOn i entries)
        (called ++ calledOn i [e]) served' := by
    refine ⟨served, ?_⟩
    rw [hcalled, hentries, List.append_nil]
    exact h.keep hs huncalled
  cases hs.pool i with
  | stays hpool =>
      refine hnew (hs.calledOn_nil (.inl (by rw [hpool])))
        (functorsOn_nil hlog (by rw [hpool])) ?_
      rw [hpool, List.append_nil]
  | @queued new hfuture hfutures hpool =>
      refine hnew (hs.calledOn_nil (.inl (by rw [hpool])))
        (functorsOn_queued hlog hfutures hpool) ?_
      rw [hpool, Pool.uncalled, Pool.uncalled, ← List.filter_append,
        List.append_assoc]
  | takes r rest hidle hqueue hphase hpool =>
      refine hnew (hs.calledOn_nil (.inr fun r' hr' => ?_))
        (functorsOn_nil hlog ?_) ?_
      · rw [hidle] at hr'
        cases hr'
      · rw [hpool, hqueue]
        exact Nat.le_succ _
      · rw [hpool, uncalled_before rfl (by rw [hphase]; rfl), ← hqueue,
          uncalled_past (fun r' hr' => by rw [hidle] at hr'; cases hr'),
          List.append_nil]
  | goes r phase hr hgoes _ hinvoke hpool =>
      rw [functorsOn_nil hlog (by rw [hpool]), List.append_nil]
      exact h.goes hs hmeasured hsteady hr hgoes hinvoke hpool
  | leaves r hr hphase hpool =>
      refine hnew (hs.calledOn_nil (.inr fun r' hr' => ?_))
        (functorsOn_nil hlog (by rw [hpool])) ?_
      · cases hr.symm.trans hr'
        rw [hphase]
        simp
      · rw [uncalled_past, uncalled_past, hpool, List.append_nil]
        · intro r' hr'
          cases hr.symm.trans hr'
          rw [hphase]
          rfl
        · intro r' hr'
          rw [hpool] at hr'
          cases hr'

-- ============================================================== the runs

/-- The log has an entry for every future. -/
def Numbered (s : State) (log : List (Nat × Task)) : Prop :=
  log.map (fun entry => entry.2.future) = List.range s.nFutures

theorem Numbered.step (h : Numbered s log)
    (hlog : Submissions s e s' entries) : Numbered s' (log ++ entries) := by
  rw [Numbered, List.map_append, h]
  rcases hlog with ⟨hsame, rfl⟩ | ⟨i, task, hsubmits, rfl⟩
  · rw [hsame, List.map_nil, List.append_nil]
  · rw [hsubmits.nFutures, List.range_succ, List.map_cons, List.map_nil,
      hsubmits.future]

/-- No task is in the log twice. -/
theorem Numbered.nodup (h : Numbered s log) (i : Nat) :
    (functorsOn i log).Nodup := by
  have hfutures : ((log.map Prod.snd).map Task.future).Nodup := by
    rw [List.map_map]
    exact h.symm ▸ List.nodup_range
  exact (List.Nodup.of_map _ hfutures).sublist (List.filter_sublist.map _)

/-- What is known in every state of a logged run. -/
structure Kept (n : Nat) (events : List Event) (s : State)
    (log : List (Nat × Task)) : Prop where
  measured : Measured s
  steady : Steady n s
  numbered : Numbered s log
  served : ∀ i, ∃ served,
    Served s i (functorsOn i log) (calledOn i events) served

theorem Kept.init (n : Nat) : Kept n [] (State.init n) [] where
  measured := Measured.init n
  steady := Steady.init n
  numbered := rfl
  served _ := ⟨[], rfl, List.Sublist.refl _, fun _ h => absurd h List.not_mem_nil⟩

theorem Kept.step {events : List Event} (h : Kept n events s log) (hn : 1 ≤ n)
    (hs : Step n throws s e s') (hlog : Submissions s e s' entries) :
    Kept n (events ++ [e]) s' (log ++ entries) where
  measured := h.measured.step hs
  steady := h.steady.step hn hs
  numbered := h.numbered.step hlog
  served i := by
    obtain ⟨served, hserved⟩ := h.served i
    rw [functorsOn_append, calledOn_append]
    exact hserved.step hs h.measured h.steady hlog

theorem kept_of_run (hn : 1 ≤ n) {events : List Event}
    (h : Run (logging (Step n throws) Submissions) (State.init n, []) events
      (s, log)) : Kept n events s log :=
  Run.history (fun events x => Kept n events x.1 x.2)
    (fun hkept hstep => by
      obtain ⟨hs, entries, hlog, heq⟩ := hstep
      rw [heq]
      exact hkept.step hn hs hlog)
    h (Kept.init n)

/-- Every task submitted is in the log, in the order of submission. The
functors in the log of an instance are those it has served and, behind
them, those in its pool that it has not called yet. It has called those
it has served in the order of the log, each once, but for those whose
proxy's table is closed there; if no table is, it has called exactly what
it has served. -/
theorem served_in_order (hn : 1 ≤ n) {events : List Event}
    (h : Run (logging (Step n throws) Submissions) (State.init n, []) events
      (s, log)) (i : Nat) :
    log.map (fun entry => entry.2.future) = List.range s.nFutures ∧
      ∃ served, functorsOn i log = served ++ (s.pools i).uncalled ∧
        (calledOn i events).Sublist served ∧
        (∀ task ∈ served, task ∈ calledOn i events ∨ Refused s i task) ∧
        ((∀ p < s.nProxies, (s.proxies p).isNull i = false) →
          calledOn i events = served) := by
  have hkept := kept_of_run hn h
  obtain ⟨served, hserved⟩ := hkept.served i
  refine ⟨hkept.numbered, served, hserved.split, hserved.order, hserved.done,
    fun hopen => ?_⟩
  have hcalled : ∀ task ∈ served, task ∈ calledOn i events := by
    intro task htask
    refine (hserved.done task htask).resolve_right fun hrefused => ?_
    obtain ⟨p, -, hp, hnull⟩ := hrefused
    rw [hopen p hp] at hnull
    cases hnull
  have hnodup : served.Nodup := by
    have hall := hkept.numbered.nodup i
    rw [hserved.split] at hall
    exact (List.nodup_append.mp hall).1
  exact hserved.order.eq_of_length_le
    (hnodup.subperm fun task htask => hcalled task htask).length_le

/-- Two tasks on the only instance, called in the order of the log. -/
theorem served_in_order_sample : ∃ events s log first second,
    Run (logging (Step 1 fun _ _ => none) Submissions) (State.init 1, []) events
      (s, log) ∧ [first, second].Sublist (functorsOn 0 log) ∧
      calledOn 0 events = functorsOn 0 log := by
  obtain ⟨events, s, hs, hcalls, hpool, hproxies, hproxy, -⟩ :=
    makes_one fun _ _ => none
  obtain ⟨events₁, first, s₁, s₂, hrun₁, hfirst, hcalls₂, hproxies₂, hproxy₂,
    hpool₂, hstats, -⟩ := Waiting.invokes ⟨hcalls, hpool, hproxies, hproxy⟩
  obtain ⟨events₂, s₃, hrun₂, hwaiting, -⟩ :=
    ends_alone hcalls₂ hproxies₂ hproxy₂ hpool₂ hstats
  obtain ⟨events₃, second, s₄, s₅, hrun₃, hsecond, -, hproxies₅, hproxy₅, hpool₅,
    -⟩ := hwaiting.invokes
  have hreach := (((((hs.trans hrun₁).tail hfirst).trans hrun₂).trans
    hrun₃).tail hsecond).mono And.left
  obtain ⟨log, hlogged⟩ := reaches_logged hreach
  obtain ⟨-, served, hsplit, -, -, hopen⟩ :=
    served_in_order (Nat.le_refl 1) hlogged 0
  have hcalled := hopen fun p hp => by
    rw [hproxies₅] at hp
    rw [Nat.lt_one_iff.mp hp, hproxy₅]
  have huncalled : (s₅.pools 0).uncalled = [] := by
    rw [hpool₅]
    rfl
  rw [huncalled, List.append_nil] at hsplit
  have hmem : first ∈ calledOn 0
      (((events ++ events₁) ++ [.invoke 0 first]) ++ events₂ ++ events₃) :=
    List.mem_filterMap.mpr ⟨.invoke 0 first, by simp, rfl⟩
  have hboth : [first, second].Sublist (calledOn 0
      ((((events ++ events₁) ++ [.invoke 0 first]) ++ events₂ ++ events₃)
        ++ [.invoke 0 second])) := by
    rw [calledOn_append]
    exact (List.singleton_sublist.mpr hmem).append (List.Sublist.refl [second])
  exact ⟨_, s₅, log, first, second, hlogged, hsplit ▸ hcalled ▸ hboth,
    hcalled.trans hsplit.symm⟩

end Arcae
