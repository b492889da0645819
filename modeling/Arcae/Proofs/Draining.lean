/-
What is submitted gets done: once no new calls are made, the threads have
only so many steps left, and when none is left, nothing is.

# The measure

`State.work` adds up the steps still to come. A task in a queue is worth
one more than a task just taken, and that is worth its phases; a call is
worth its own steps and the tasks it has yet to submit. A task moves from
a call to a queue to a thread and is worth less each time, so every step
but a new call lowers the sum (`DrainStep.work`).

# Where it ends

A thread that waits, for a future or in `Close` or `Spawn`, goes on when
the futures it waits for are finished, and every future that is not
finished has its task in a pool (`Held`). A pool with a task has a next
step, unless its thread is in a call; so if only threads outside the
pools wait, nothing stands still before everything is done (`drains`).
Where threads of pools wait too, they may wait for each other.
-/
import Mathlib.Algebra.BigOperators.Group.Finset.Basic
import Arcae.Proofs.Invocations

namespace Arcae

open Lts

variable {n : Nat} {throws : Nat → Nat → Option String} {s s' : State}
  {e : Event} {i j : Nat} {task : Task}

-- =========================================================== the measure

/-- The steps a task has left on its thread. -/
def Phase.work : Phase → Nat
  | .entered => 6
  | .checked => 5
  | .inside => 4
  | .leaving _ => 3
  | .released _ => 2
  | .finished => 1

/-- The steps left in a pool. -/
def Pool.work (pool : Pool) : Nat :=
  7 * pool.queue.length + (pool.running.map fun r => r.phase.work).getD 0

/-- The steps left in a call, and in the tasks it has yet to submit. -/
def Call.work (n : Nat) : Call → Nat
  | .scanning _ _ _ next _ _ => 11 + (n - next)
  | .counting _ _ _ => 10
  | .submitting _ _ _ => 9
  | .waiting _ => 1
  | .constructing next none => 1 + 9 * (n - next)
  | .constructing next (some _) => 2 + 9 * (n - (next + 1))
  | .closing _ next _ _ => 1 + 8 * (n - next)

namespace State

/-- The steps left in the pools. -/
def poolsWork (n : Nat) (s : State) : Nat :=
  ∑ i ∈ Finset.range n, (s.pools i).work

/-- The steps left in the calls. -/
def callsWork (n : Nat) (s : State) : Nat :=
  (s.calls.map fun c => c.2.work n).sum

/-- The steps left, if no new call is made. -/
def work (n : Nat) (s : State) : Nat :=
  s.callsWork n + s.poolsWork n

end State

/-- `RunAsync` or `RunSync` is called, or `Close` of a closed proxy. -/
def Event.isCall : Event → Bool
  | .run _ _ | .closeReturn _ (.ok false) => true
  | _ => false

/-- A step in which no thread makes a new call. -/
structure DrainStep (n : Nat) (throws : Nat → Nat → Option String) (s : State)
    (e : Event) (s' : State) : Prop where
  step : Step n throws s e s'
  calls : s'.calls.card ≤ s.calls.card
  event : e.isCall = false

/-- What changes in one pool changes the sum. -/
theorem poolsWork_update {pool : Pool} (hi : i < n)
    (hpools : s'.pools = Function.update s.pools i pool) :
    s'.poolsWork n + (s.pools i).work = s.poolsWork n + pool.work := by
  have hmem := Finset.mem_range.mpr hi
  have hold := Finset.add_sum_erase _ (fun j => (s.pools j).work) hmem
  have hnew := Finset.add_sum_erase _ (fun j => (s'.pools j).work) hmem
  have hrest : ∑ j ∈ (Finset.range n).erase i, (s'.pools j).work
      = ∑ j ∈ (Finset.range n).erase i, (s.pools j).work := by
    refine Finset.sum_congr rfl fun j hj => ?_
    rw [hpools, Function.update_of_ne (Finset.ne_of_mem_erase hj)]
  rw [hpools] at hnew
  simp only [Function.update_self] at hnew
  rw [State.poolsWork, State.poolsWork]
  rw [hpools] at hrest ⊢
  omega

theorem callsWork_cons {c : Thread × Call} {rest : Calls}
    (hcalls : s.calls = c ::ₘ rest) :
    s.callsWork n = c.2.work n + (rest.map fun c => c.2.work n).sum := by
  rw [State.callsWork, hcalls, Multiset.map_cons, Multiset.sum_cons]

/-- A call goes on. -/
theorem work_call {c c' : Thread × Call} {rest : Calls}
    (hcalls : s.calls = c ::ₘ rest) (hcalls' : s'.calls = c' ::ₘ rest)
    (hpools : s'.pools = s.pools) (hless : c'.2.work n < c.2.work n) :
    s'.work n < s.work n := by
  rw [State.work, State.work, callsWork_cons hcalls, callsWork_cons hcalls',
    State.poolsWork, State.poolsWork, hpools]
  omega

/-- A call is over. -/
theorem work_return {c : Thread × Call} {rest : Calls}
    (hcalls : s.calls = c ::ₘ rest) (hcalls' : s'.calls = rest)
    (hpools : s'.pools = s.pools) : s'.work n < s.work n := by
  have hpos : 0 < c.2.work n := by
    rcases c with ⟨th, call⟩
    cases call with
    | constructing next pending =>
        cases pending <;> simp only [Call.work] <;> omega
    | scanning | counting | submitting | waiting | closing =>
        simp only [Call.work]
        omega
  rw [State.work, State.work, callsWork_cons hcalls, State.callsWork, hcalls',
    State.poolsWork, State.poolsWork, hpools]
  omega

/-- A call submits a task, and `calls` is what becomes of it. -/
theorem work_enqueue {c : Thread × Call} {rest : Calls} {body : Body}
    {x : Submission} (hi : i < n) (hcalls : s.calls = c ::ₘ rest)
    (hpools : s'.pools = (s.enqueue i body x).pools)
    (hless : s'.callsWork n + 7
      < c.2.work n + (rest.map fun c => c.2.work n).sum) :
    s'.work n < s.work n := by
  have hupdate := poolsWork_update hi hpools
  rw [State.work, State.work, callsWork_cons hcalls]
  simp only [Pool.work, List.length_append, List.length_singleton] at hupdate
  omega

/-- A thread that goes on has fewer phases left. -/
theorem Goes.work {r : Running} {phase : Phase} (h : Goes s r phase) :
    phase.work < r.phase.work := by
  cases h with
  | check _ hphase =>
      rw [hphase]
      unfold State.check
      split <;> simp only [Phase.work] <;> decide
  | invoke _ hphase | construct _ hphase | closeTask _ hphase =>
      rw [hphase]
      decide
  | ends hphase | release hphase =>
      rw [hphase]
      exact Nat.lt_succ_self _
  | finish hphase =>
      rcases hphase with hphase | hphase
      · rw [hphase]
        exact Nat.lt_add_of_pos_left (by decide)
      · rw [hphase]
        exact Nat.lt_succ_self _

/-- The thread of pool `i` goes on. -/
theorem work_running {r : Running} {phase : Phase} (hi : i < n)
    (hr : (s.pools i).running = some r) (hcalls : s'.calls = s.calls)
    (hpools : s'.pools = Function.update s.pools i
      { s.pools i with running := some { r with phase := phase } })
    (hgoes : Goes s r phase) : s'.work n < s.work n := by
  have hless := hgoes.work
  have hupdate := poolsWork_update hi hpools
  rw [State.work, State.work, State.callsWork, State.callsWork, hcalls]
  simp only [Pool.work, hr, Option.map_some, Option.getD_some] at hupdate
  omega

-- ======================================================== what is steady

/-- A call dispatches for a proxy and to an instance that there are, and
waits for futures that were made. -/
def Call.Placed (n : Nat) (s : State) : Call → Prop
  | .scanning p _ _ _ inst _ => p < s.nProxies ∧ inst < n
  | .counting p x _ | .submitting p x _ => p < s.nProxies ∧ x.inst < n
  | .waiting future => future < s.nFutures
  | .constructing _ pending => ∀ f, pending = some f → f < s.nFutures
  | .closing _ _ results _ => ∀ f ∈ results, f < s.nFutures

theorem Call.Placed.mono {c : Call} (h : c.Placed n s)
    (hle : s.nFutures ≤ s'.nFutures) (hproxies : s.nProxies ≤ s'.nProxies) :
    c.Placed n s' := by
  cases c with
  | scanning | counting | submitting =>
      exact ⟨Nat.lt_of_lt_of_le h.1 hproxies, h.2⟩
  | waiting => exact Nat.lt_of_lt_of_le h hle
  | constructing => exact fun f hf => Nat.lt_of_lt_of_le (h f hf) hle
  | closing => exact fun f hf => Nat.lt_of_lt_of_le (h f hf) hle

/-- The future is finished, or its task is in some pool. -/
def Held (s : State) (f : Nat) : Prop :=
  (s.futures f).isSome ∨ ∃ i, ∃ task ∈ (s.pools i).tasks, task.future = f

/-- Calls and tasks are where there are instances, no future is lost, and
a task on its thread is in a phase of its own kind. -/
structure Steady (n : Nat) (s : State) : Prop where
  calls : ∀ c ∈ s.calls, c.2.Placed n s
  pools : ∀ i, n ≤ i → (s.pools i).tasks = []
  held : ∀ f < s.nFutures, Held s f
  finished : ∀ i r, (s.pools i).running = some r → r.phase = .finished →
    (s.futures r.task.future).isSome
  checked : ∀ i r, (s.pools i).running = some r → r.phase = .checked →
    ∃ p, r.task.body = .functor p
  proxies : ∀ i, ∀ task ∈ (s.pools i).tasks, ∀ p, task.body = .functor p →
    p < s.nProxies

theorem Steady.init (n : Nat) : Steady n (State.init n) where
  calls := by
    intro c hc
    simp only [State.init] at hc
    split at hc
    · rw [Multiset.mem_singleton.mp hc]
      intro f hf
      cases hf
    · exact absurd hc (Multiset.notMem_zero _)
  pools _ _ := rfl
  held f hf := absurd hf (Nat.not_lt_zero f)
  finished i r hr := by cases hr
  checked i r hr := by cases hr
  proxies i task ht := absurd ht List.not_mem_nil

/-- A call goes on, or is over. -/
theorem placed_calls {c : Thread × Call} {rest calls : Calls}
    (h : ∀ c ∈ s.calls, c.2.Placed n s) (hs : Step n throws s e s')
    (hcalls : s.calls = c ::ₘ rest)
    (hcalls' : ∀ d ∈ calls, d ∈ rest ∨ d.2.Placed n s') :
    ∀ d ∈ calls, d.2.Placed n s' := by
  intro d hd
  rcases hcalls' d hd with hd | hplaced
  · exact (h d (hcalls ▸ Multiset.mem_cons_of_mem hd)).mono hs.nFutures_le
      hs.nProxies_le
  · exact hplaced

theorem placed_cons {c : Thread × Call} {rest : Calls}
    (hc : c.2.Placed n s) : ∀ d ∈ c ::ₘ rest, d ∈ rest ∨ d.2.Placed n s := by
  intro d hd
  rcases Multiset.mem_cons.mp hd with rfl | hd
  · exact .inr hc
  · exact .inl hd

theorem Step.placed (hs : Step n throws s e s') (hn : 1 ≤ n)
    (h : ∀ c ∈ s.calls, c.2.Placed n s) :
    ∀ c ∈ s'.calls, c.2.Placed n s' := by
  have hs' := hs
  have hfirst {c : Thread × Call} {rest : Calls}
      (hcalls : s.calls = c ::ₘ rest) : c.2.Placed n s :=
    h c (hcalls ▸ Multiset.mem_cons_self _ _)
  have hkeep : ∀ c ∈ s.calls, c.2.Placed n s' :=
    fun c hc => (h c hc).mono hs.nFutures_le hs.nProxies_le
  cases hs with
  | run _ _ _ hp =>
      intro d hd
      rcases Multiset.mem_cons.mp hd with rfl | hd
      · exact ⟨hp, hn⟩
      · exact hkeep d hd
  | close | spawn =>
      intro d hd
      rcases Multiset.mem_cons.mp hd with rfl | hd
      · intro f hf
        cases hf
      · exact hkeep d hd
  | @scan th p cost sync next inst least rest hcalls hnext =>
      have hinst := hfirst hcalls
      refine placed_calls h hs' hcalls (placed_cons ?_)
      unfold State.scan
      split
      · exact ⟨hinst.1, hnext⟩
      · exact hinst
  | reserve hcalls | count hcalls =>
      have hinst := hfirst hcalls
      exact placed_calls h hs' hcalls (placed_cons hinst)
  | submit hcalls =>
      refine placed_calls h hs' hcalls ?_
      unfold State.submit
      dsimp only
      split
      · exact placed_cons (Nat.lt_succ_self _)
      · exact fun d hd => .inl hd
  | wake hcalls | closeReturn hcalls | newProxy hcalls =>
      exact placed_calls h hs' hcalls fun d hd => .inl hd
  | constructSubmit hcalls =>
      refine placed_calls h hs' hcalls (placed_cons fun f hf => ?_)
      cases hf
      exact Nat.lt_succ_self _
  | constructed hcalls =>
      refine placed_calls h hs' hcalls ?_
      unfold State.constructed
      split
      · refine placed_cons fun f hf => ?_
        cases hf
      · exact fun d hd => .inl hd
  | closeInline hcalls =>
      refine placed_calls h hs' hcalls (placed_cons fun f hf => ?_)
      exact Nat.lt_of_lt_of_le (hfirst hcalls f hf) hs'.nFutures_le
  | closeSubmit hcalls =>
      refine placed_calls h hs' hcalls (placed_cons fun f hf => ?_)
      rcases List.mem_append.mp hf with hf | hf
      · exact Nat.lt_succ_of_lt (hfirst hcalls f hf)
      · rw [List.mem_singleton.mp hf]
        exact Nat.lt_succ_self _
  | leaveScope =>
      unfold State.leaveScope at hkeep ⊢
      split at hkeep <;> exact hkeep
  | complete =>
      unfold State.complete at hkeep ⊢
      split at hkeep <;> exact hkeep
  | @closeTask i p r =>
      intro d hd
      exact hkeep d ((close_frame s throws p i).1 ▸ hd)
  | _ => exact hkeep

/-- The step submits this task to pool `i`. -/
structure Submits (s s' : State) (i : Nat) (task : Task) : Prop where
  future : task.future = s.nFutures
  nFutures : s'.nFutures = s.nFutures + 1
  pools : s'.pools = Function.update s.pools i
    { s.pools i with queue := (s.pools i).queue ++ [task] }

/-- A future is made with a task for it, in the pool of an instance. -/
theorem Step.adds (hs : Step n throws s e s') :
    s'.nFutures = s.nFutures ∨ ∃ i task, Submits s s' i task ∧
      ((∀ c ∈ s.calls, c.2.Placed n s) →
        i < n ∧ ∀ p, task.body = .functor p → p < s.nProxies) := by
  cases hs with
  | @submit th p x sync rest hcalls =>
      refine .inr ⟨_, _, ⟨rfl, rfl, rfl⟩, fun h => ?_⟩
      have hplaced := h (th, .submitting p x sync)
        (hcalls ▸ Multiset.mem_cons_self _ _)
      refine ⟨hplaced.2, fun q hq => ?_⟩
      cases hq
      exact hplaced.1
  | closeSubmit _ hnext | constructSubmit _ hnext =>
      exact .inr ⟨_, _, ⟨rfl, rfl, rfl⟩, fun _ => ⟨hnext, fun q hq => by cases hq⟩⟩
  | leaveScope => unfold State.leaveScope; split <;> exact .inl rfl
  | complete => unfold State.complete; split <;> exact .inl rfl
  | closeTask | closeInline =>
      simp only [State.finishFuture, State.setRunning, State.close]
      split <;> exact .inl rfl
  | _ => exact .inl rfl

/-- A task stays in its pool until its future is finished. -/
theorem Held.step (hs : Step n throws s e s') {f : Nat} (h : Held s f)
    (hfinished : ∀ i r, (s.pools i).running = some r → r.phase = .finished →
      (s.futures r.task.future).isSome) : Held s' f := by
  rcases h with hdone | ⟨i, task, htask, hfuture⟩
  · exact .inl (hs.future_stays hdone)
  · cases hs.pool i with
    | stays hpool => exact .inr ⟨i, task, hpool ▸ htask, hfuture⟩
    | queued new _ _ hpool =>
        refine .inr ⟨i, task, ?_, hfuture⟩
        rw [hpool, Pool.tasks_enqueue]
        exact List.mem_append_left _ htask
    | takes r rest hidle hqueue hphase hpool =>
        refine .inr ⟨i, task, ?_, hfuture⟩
        rw [Pool.tasks, hidle, hqueue] at htask
        rw [Pool.tasks, hpool]
        exact htask
    | goes r phase hr hgoes _ _ hpool =>
        refine .inr ⟨i, task, ?_, hfuture⟩
        rw [hpool, Pool.tasks_running hr]
        exact htask
    | leaves r hr hphase hpool =>
        rw [Pool.tasks, hr] at htask
        rcases List.mem_cons.mp htask with rfl | htask
        · exact .inl (hs.future_stays (hfuture ▸ hfinished i r hr hphase))
        · refine .inr ⟨i, task, ?_, hfuture⟩
          rw [hpool, Pool.tasks]
          exact htask

/-- A thread whose task is finished, or about to call its functor. -/
theorem Goes.kind {r : Running} {phase : Phase} (h : Goes s r phase)
    (hphase : phase = .checked) : ∃ p, r.task.body = .functor p := by
  cases h with
  | check hbody => exact ⟨_, hbody⟩
  | _ => cases hphase

theorem Steady.step (h : Steady n s) (hn : 1 ≤ n)
    (hs : Step n throws s e s') : Steady n s' where
  calls := hs.placed hn h.calls
  pools := by
    intro i hi
    have hempty := h.pools i hi
    rcases hs.adds with hsame | ⟨k, task, hsubmits, hlt⟩
    · rcases hs.tasks i with hsuffix | ⟨task, -, -, hnew, -⟩
      · rw [hempty] at hsuffix
        exact List.suffix_nil.mp hsuffix
      · omega
    · have hk := (hlt h.calls).1
      rw [hsubmits.pools, Function.update_of_ne (by omega)]
      exact hempty
  held := by
    intro f hf
    rcases hs.adds with hsame | ⟨k, task, ⟨hfuture, hnew, hpools⟩, -⟩
    · exact (h.held f (hsame ▸ hf)).step hs h.finished
    · rcases Nat.lt_succ_iff_lt_or_eq.mp (hnew ▸ hf) with hf | rfl
      · exact (h.held f hf).step hs h.finished
      · refine .inr ⟨k, task, ?_, hfuture⟩
        rw [hpools, Function.update_self, Pool.tasks_enqueue]
        exact List.mem_append_right _ (List.mem_singleton_self _)
  finished := by
    intro i r hr hphase
    cases hs.pool i with
    | stays hpool =>
        exact hs.future_stays (h.finished i r (hpool ▸ hr) hphase)
    | queued _ _ _ hpool =>
        rw [hpool] at hr
        exact hs.future_stays (h.finished i r hr hphase)
    | takes r' _ _ _ hentered hpool =>
        rw [hpool] at hr
        cases hr
        rw [hentered] at hphase
        cases hphase
    | goes r' phase _ _ hfuture _ hpool =>
        rw [hpool] at hr
        cases hr
        exact hfuture hphase
    | leaves r' _ _ hpool =>
        rw [hpool] at hr
        cases hr
  checked := by
    intro i r hr hphase
    cases hs.pool i with
    | stays hpool => exact h.checked i r (hpool ▸ hr) hphase
    | queued _ _ _ hpool =>
        rw [hpool] at hr
        exact h.checked i r hr hphase
    | takes r' _ _ _ hentered hpool =>
        rw [hpool] at hr
        cases hr
        rw [hentered] at hphase
        cases hphase
    | goes r' phase _ hgoes _ _ hpool =>
        rw [hpool] at hr
        cases hr
        exact hgoes.kind hphase
    | leaves r' _ _ hpool =>
        rw [hpool] at hr
        cases hr
  proxies := by
    intro i task htask p hp
    have hold (hmem : task ∈ (s.pools i).tasks) : p < s'.nProxies :=
      Nat.lt_of_lt_of_le (h.proxies i task hmem p hp) hs.nProxies_le
    rcases hs.adds with hsame | ⟨k, new, hsubmits, hnew⟩
    · rcases hs.tasks i with hsuffix | ⟨new, -, -, hfutures, -⟩
      · exact hold (hsuffix.subset htask)
      · omega
    · rw [hsubmits.pools] at htask
      by_cases hk : i = k
      · subst hk
        rw [Function.update_self, Pool.tasks_enqueue] at htask
        rcases List.mem_append.mp htask with hmem | hmem
        · exact hold hmem
        · obtain rfl := List.mem_singleton.mp hmem
          exact Nat.lt_of_lt_of_le ((hnew h.calls).2 p hp) hs.nProxies_le
      · rw [Function.update_of_ne hk] at htask
        exact hold htask

theorem reaches_steady {events : List Event} (hn : 1 ≤ n)
    (hs : Reaches n throws events s) : Steady n s :=
  Run.invariant (Steady n) (fun h hstep => h.step hn hstep) hs
    (Steady.init n)

/-- A pool with a task is the pool of an instance. -/
theorem Steady.lt (h : Steady n s) (hi : (s.pools i).tasks ≠ []) : i < n := by
  by_contra hle
  exact hi (h.pools i (Nat.le_of_not_lt hle))

theorem Steady.running_lt (h : Steady n s) {r : Running}
    (hr : (s.pools i).running = some r) : i < n := by
  refine h.lt fun hempty => ?_
  have hmem := mem_tasks hr
  rw [hempty] at hmem
  cases hmem

-- ====================================================== what a step costs

/-- A step that makes no new call leaves less to do. -/
theorem DrainStep.work (hs : DrainStep n throws s e s') (h : Steady n s) :
    s'.work n < s.work n := by
  obtain ⟨hstep, hcard, hevent⟩ := hs
  cases hstep with
  | refuse | run | closeAgain => cases hevent
  | close | spawn => simp at hcard
  | scan hcalls hnext =>
      refine work_call hcalls rfl rfl ?_
      unfold State.scan
      split <;> simp only [Call.work] <;> omega
  | reserve hcalls hnext =>
      refine work_call hcalls rfl rfl ?_
      simp only [Call.work]
      omega
  | count hcalls => exact work_call hcalls rfl rfl (Nat.lt_succ_self _)
  | @submit th p x sync rest hcalls =>
      have hplaced := h.calls (th, .submitting p x sync)
        (hcalls ▸ Multiset.mem_cons_self _ _)
      refine work_enqueue hplaced.2 hcalls rfl ?_
      cases sync <;> simp [State.submit, State.callsWork, Call.work] <;> omega
  | wake hcalls => exact work_return hcalls rfl rfl
  | @start i task rest hidle hqueue =>
      have hi : i < n := h.lt (by simp [Pool.tasks, hqueue])
      have hupdate := @poolsWork_update n s (s.start i task rest) i _ hi rfl
      rw [State.work, State.work]
      simp only [Pool.work, hidle, hqueue, List.length_cons, Option.map_none,
        Option.map_some, Option.getD_none, Option.getD_some,
        Phase.work] at hupdate
      simp only [State.callsWork, State.start] at hupdate ⊢
      omega
  | check hr hbody hphase =>
      exact work_running (h.running_lt hr) hr rfl rfl (.check hbody hphase)
  | invoke hr hbody hphase =>
      exact work_running (h.running_lt hr) hr rfl rfl (.invoke hbody hphase)
  | construct hr hbody hphase =>
      exact work_running (h.running_lt hr) hr rfl rfl (.construct hbody hphase)
  | ends _ hr hphase =>
      exact work_running (h.running_lt hr) hr rfl rfl (.ends hphase)
  | leaveScope hr hphase =>
      unfold State.leaveScope
      split
      · exact work_running (h.running_lt hr) hr rfl rfl (.finish (.inl hphase))
      · exact work_running (h.running_lt hr) hr rfl rfl (.release hphase)
  | complete hr hphase =>
      unfold State.complete
      split <;>
        exact work_running (h.running_lt hr) hr rfl rfl
          (.finish (.inr hphase))
  | @closeTask i p r hr hbody hphase =>
      exact work_running (h.running_lt hr) hr (close_frame s throws p i).1
        (close_pools ..) (.closeTask hbody hphase)
  | @idle i r hr hphase =>
      have hupdate := @poolsWork_update n s (s.setRunning i none) i _
        (h.running_lt hr) rfl
      rw [State.work, State.work]
      simp only [Pool.work, hr, hphase, Option.map_none, Option.map_some,
        Option.getD_none, Option.getD_some, Phase.work] at hupdate
      simp only [State.callsWork, State.setRunning] at hupdate ⊢
      omega
  | @closeInline p next results status rest hcalls hnext =>
      refine work_call hcalls rfl (close_frame s throws p next).2.1 ?_
      simp only [Call.work]
      omega
  | closeSubmit hcalls hnext =>
      refine work_enqueue hnext hcalls rfl ?_
      simp only [State.callsWork, Multiset.map_cons, Multiset.sum_cons,
        Call.work]
      omega
  | closeReturn hcalls | newProxy hcalls => exact work_return hcalls rfl rfl
  | constructSubmit hcalls hnext =>
      refine work_enqueue hnext hcalls rfl ?_
      simp only [State.callsWork, Multiset.map_cons, Multiset.sum_cons,
        Call.work]
      omega
  | @constructed th next future rest hcalls hdone =>
      rcases hstatus : (s.futures future).getD (.ok ()) with what | ok
      · refine work_return hcalls ?_ rfl
        simp only [State.constructed, hstatus]
      · have hgoes : s.constructed th next future rest
            = (th, .constructing (next + 1) none) ::ₘ rest := by
          simp only [State.constructed, hstatus]
        refine work_call hcalls hgoes rfl ?_
        simp only [Call.work]
        omega

-- ============================================================ where it ends

/-- A call of which a thread does not know how long it takes: it waits for
a task, or will. -/
def Call.waits : Call → Bool
  | .scanning _ _ sync _ _ _ | .counting _ _ sync | .submitting _ _ sync => sync
  | .waiting _ | .constructing _ _ | .closing _ _ _ _ => true

/-- User code on the isolation threads waits for no task: it makes no
call there but `RunAsync`. -/
def NoneWaits (s : State) : Prop :=
  ∀ i c, (Thread.isolation i, c) ∈ s.calls → c.waits = false

/-- It is done with: nobody is in a call, no pool has a task, and every
future is finished. -/
structure Drained (s : State) : Prop where
  calls : s.calls = 0
  pools : ∀ i, s.pools i = {}
  futures : ∀ f < s.nFutures, (s.futures f).isSome

/-- A step that makes no new call makes no thread of a pool wait. -/
theorem NoneWaits.step (h : NoneWaits s) (hs : DrainStep n throws s e s') :
    NoneWaits s' := by
  obtain ⟨hstep, hcard, hevent⟩ := hs
  have hrest {c : Thread × Call} {rest : Calls} (hcalls : s.calls = c ::ₘ rest) :
      ∀ i d, (Thread.isolation i, d) ∈ rest → d.waits = false :=
    fun i d hd => h i d (hcalls ▸ Multiset.mem_cons_of_mem hd)
  have hgoes {th : Thread} {c c' : Call} {rest : Calls}
      (hcalls : s.calls = (th, c) ::ₘ rest) (hc : c'.waits = c.waits) :
      ∀ i d, (Thread.isolation i, d) ∈ (th, c') ::ₘ rest →
        d.waits = false := by
    intro i d hd
    rcases Multiset.mem_cons.mp hd with heq | hd
    · cases heq
      exact hc.trans (h i c (hcalls ▸ Multiset.mem_cons_self _ _))
    · exact hrest hcalls i d hd
  cases hstep with
  | refuse | run | closeAgain => cases hevent
  | close | spawn => simp at hcard
  | scan hcalls =>
      refine hgoes hcalls ?_
      unfold State.scan
      split <;> rfl
  | reserve hcalls | count hcalls | constructSubmit hcalls
  | closeInline hcalls | closeSubmit hcalls => exact hgoes hcalls rfl
  | @submit th p x sync rest hcalls =>
      cases sync with
      | false => exact hrest hcalls
      | true => exact hgoes hcalls rfl
  | wake hcalls | closeReturn hcalls | newProxy hcalls => exact hrest hcalls
  | @constructed th next future rest hcalls =>
      show ∀ i d, (Thread.isolation i, d) ∈ s.constructed th next future rest →
        d.waits = false
      unfold State.constructed
      split
      · exact hgoes hcalls rfl
      · exact hrest hcalls
  | leaveScope =>
      unfold State.leaveScope
      split <;> exact h
  | complete =>
      unfold State.complete
      split <;> exact h
  | @closeTask i p r =>
      exact fun j d hd => h j d ((close_frame s throws p i).1 ▸ hd)
  | _ => exact h

/-- `Close` never answers false once it has begun. -/
theorem closeResult_event (p : Nat) (s : State) (results : List Nat)
    (status : Except String Unit) :
    (Event.closeReturn p (s.closeResult results status)).isCall = false := by
  unfold State.closeResult
  rcases status with what | ok
  · rfl
  · rcases results.forM fun f => (s.futures f).getD (.ok ()) with what | ok
    · rfl
    · rfl

/-- No step is left but new calls. -/
def Settled (n : Nat) (throws : Nat → Nat → Option String) (s : State) :
    Prop :=
  ∀ e s', ¬ DrainStep n throws s e s'

theorem Settled.internal (h : Settled n throws s)
    (hstep : Step n throws s .internal s')
    (hcard : s'.calls.card ≤ s.calls.card) : False :=
  h _ s' ⟨hstep, hcard, rfl⟩

/-- Where nothing goes on but new calls, a thread in a call waits for a
future that is not finished. -/
theorem Settled.waiting (h : Settled n throws s) (hsteady : Steady n s)
    {th : Thread} {c : Call} (hc : (th, c) ∈ s.calls) :
    c.waits = true ∧ ∃ f < s.nFutures, s.futures f = none := by
  have hplaced := hsteady.calls _ hc
  obtain ⟨rest, hcalls⟩ := Multiset.exists_cons_of_mem hc
  have hunset {f : Nat} (hf : ¬ (s.futures f).isSome) : s.futures f = none :=
    Option.not_isSome_iff_eq_none.mp hf
  cases c with
  | scanning p cost sync next inst least =>
      exfalso
      by_cases hnext : next < n
      · exact h.internal (.scan hcalls hnext) (by simp [hcalls])
      · exact h.internal (.reserve hcalls (Nat.le_of_not_lt hnext))
          (by simp [hcalls])
  | counting => exact (h.internal (.count hcalls) (by simp [hcalls])).elim
  | submitting p x sync =>
      refine (h.internal (.submit hcalls) ?_).elim
      cases sync <;> simp [State.submit, hcalls]
  | waiting future =>
      refine ⟨rfl, future, hplaced, hunset fun hdone => ?_⟩
      exact h.internal (.wake hcalls hdone) (by simp [hcalls])
  | constructing next pending =>
      cases pending with
      | none =>
          exfalso
          by_cases hnext : next < n
          · exact h.internal (.constructSubmit hcalls hnext) (by simp [hcalls])
          · exact h.internal (.newProxy hcalls (Nat.le_of_not_lt hnext))
              (by simp [hcalls])
      | some future =>
          refine ⟨rfl, future, hplaced _ rfl, hunset fun hdone => ?_⟩
          refine h.internal (.constructed hcalls hdone) ?_
          simp only [State.constructed, hcalls]
          split <;> simp
  | closing p next results status =>
      refine ⟨rfl, ?_⟩
      by_cases hnext : next < n
      · exfalso
        by_cases hth : th = .isolation next
        · subst hth
          exact h _ _ ⟨.closeInline hcalls hnext, by simp [hcalls], rfl⟩
        · exact h _ _ ⟨.closeSubmit hcalls hnext hth, by simp [hcalls], rfl⟩
      · by_contra hall
        refine h _ _ ⟨.closeReturn hcalls (Nat.le_of_not_lt hnext) ?_,
          by simp [hcalls], closeResult_event p s results status⟩
        intro f hf
        by_contra hnot
        exact hall ⟨f, hplaced f hf, hunset hnot⟩

/-- And no pool has a task, if only threads outside the pools wait. -/
theorem Settled.pool (h : Settled n throws s) (hsteady : Steady n s)
    (hnone : NoneWaits s) (i : Nat) : s.pools i = {} := by
  have hfree : s.Free (.isolation i) := by
    intro c hc
    have hwaits := (h.waiting hsteady hc).1
    rw [hnone i c hc] at hwaits
    cases hwaits
  have hrunning : (s.pools i).running = none := by
    rcases hr : (s.pools i).running with _ | r
    · rfl
    exfalso
    rcases hphase : r.phase with _ | _ | _ | status | status | _
    · rcases hbody : r.task.body with p | _ | p
      · exact h.internal (.check hr hbody hphase) (Nat.le_refl _)
      · exact h.internal (.construct hr hbody hphase) (Nat.le_refl _)
      · exact h _ _ ⟨.closeTask hr hbody hphase,
          Nat.le_of_eq (congrArg _ (close_frame s throws p i).1), rfl⟩
    · obtain ⟨p, hbody⟩ := hsteady.checked i r hr hphase
      exact h _ _ ⟨.invoke hr hbody hphase, Nat.le_refl _, rfl⟩
    · exact h.internal (.ends .returned hr hphase hfree) (Nat.le_refl _)
    · refine h.internal (.leaveScope hr hphase) (Nat.le_of_eq ?_)
      unfold State.leaveScope
      split <;> rfl
    · refine h.internal (.complete hr hphase) (Nat.le_of_eq ?_)
      unfold State.complete
      split <;> rfl
    · exact h.internal (.idle hr hphase hfree) (Nat.le_refl _)
  have hqueue : (s.pools i).queue = [] := by
    rcases hq : (s.pools i).queue with _ | ⟨task, rest⟩
    · rfl
    · exact (h.internal (.start hrunning hq) (Nat.le_refl _)).elim
  rcases hpool : s.pools i with ⟨queue, running⟩
  rw [hpool] at hrunning hqueue
  subst hrunning hqueue
  rfl

theorem Settled.drained (h : Settled n throws s) (hsteady : Steady n s)
    (hnone : NoneWaits s) : Drained s := by
  have hpools := h.pool hsteady hnone
  have hfutures : ∀ f < s.nFutures, (s.futures f).isSome := by
    intro f hf
    rcases hsteady.held f hf with hdone | ⟨i, task, htask, -⟩
    · exact hdone
    · rw [hpools i] at htask
      cases htask
  refine ⟨Multiset.eq_zero_of_forall_notMem fun c hc => ?_, hpools, hfutures⟩
  obtain ⟨-, f, hf, hnot⟩ := h.waiting hsteady hc
  have hdone := hfutures f hf
  rw [hnot] at hdone
  cases hdone

/-- Where nothing is left, no instance has a load, and what was submitted
is completed. -/
theorem Drained.stats (h : Drained s) (haccounted : Accounted s) (i : Nat) :
    (s.stats i).outstandingCost = 0
      ∧ (s.stats i).submitted = (s.stats i).completed := by
  have hi := haccounted i
  rw [h.calls, h.pools i] at hi
  have hcost : (s.stats i).outstandingCost = 0 := congrArg Prod.fst hi
  have hcount : (s.stats i).submitted - (s.stats i).completed = 0 :=
    congrArg Prod.snd hi
  exact ⟨hcost, by omega⟩

/-- Once no new calls are made, and if no code on an isolation thread
waits for a task, the threads have at most `s.work n` steps left,
whatever their order; and where none is left, every call has returned,
every pool is idle and empty, every future is finished, and every
instance has completed what was submitted to it and has no load. -/
theorem drains (hn : 1 ≤ n) {events : List Event}
    (hs : Reaches n throws events s) (hnone : NoneWaits s) :
    ∀ events' s', Run (DrainStep n throws) s events' s' →
      events'.length ≤ s.work n ∧
        (Settled n throws s' → Drained s' ∧
          ∀ i, (s'.stats i).outstandingCost = 0
            ∧ (s'.stats i).submitted = (s'.stats i).completed) := by
  intro events' s' hrun
  obtain ⟨hmeasured, haccounted⟩ := reaches_accounted hs
  obtain ⟨⟨hsteady, hnone', hmeasured', haccounted'⟩, hlength⟩ :=
    Run.length_le
      (fun s => Steady n s ∧ NoneWaits s ∧ Measured s ∧ Accounted s)
      (State.work n)
      (fun h hstep => ⟨⟨h.1.step hn hstep.step, h.2.1.step hstep,
        h.2.2.1.step hstep.step, h.2.2.2.step h.2.2.1 hstep.step⟩,
        hstep.work h.1⟩)
      hrun ⟨reaches_steady hn hs, hnone, hmeasured, haccounted⟩
  refine ⟨by omega, fun hsettled => ?_⟩
  have hdrained := hsettled.drained hsteady hnone'
  exact ⟨hdrained, hdrained.stats haccounted'⟩

/-- A task whose functor runs, on the only instance. -/
theorem drains_sample : ∃ events s, Reaches 1 (fun _ _ => none) events s ∧
    s.RunsUser 0 ∧ ∀ events' s', Run (DrainStep 1 fun _ _ => none) s events' s' →
      Settled 1 (fun _ _ => none) s' →
        Drained s' ∧ (s'.stats 0).submitted = (s'.stats 0).completed := by
  obtain ⟨events, s, hs, hcalls, hpool, hproxies, hproxy, -⟩ :=
    makes_one fun _ _ => none
  obtain ⟨events₁, task, s₁, s₂, hrun, hinvoke, hcalls₂, -, -, hpool₂, -⟩ :=
    Waiting.invokes ⟨hcalls, hpool, hproxies, hproxy⟩
  have hreach := ((hs.trans hrun).tail hinvoke).mono And.left
  have hnone : NoneWaits s₂ := by
    intro i c hc
    simp [hcalls₂] at hc
  refine ⟨_, s₂, hreach, ⟨_, by rw [hpool₂], .inl rfl⟩,
    fun events' s' hrun' hsettled => ?_⟩
  obtain ⟨hdrained, hstats⟩ :=
    (drains (Nat.le_refl 1) hreach hnone events' s' hrun').2 hsettled
  exact ⟨hdrained, (hstats 0).2⟩

end Arcae
