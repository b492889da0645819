/-
`isolated_table_proxy.h` and `isolated_table_proxy.cc`: tasks placed on
instances, run one at a time on their isolation threads, and closed.

An `IsolatedTableProxy` owns `n` instances, each a pool of one thread
with its own table. `RunAsync` and `RunSync` check `is_closed_`, let
`Dispatch` place the task, and submit it to the chosen instance's pool;
`Close` visits every instance and waits; `Spawn` builds another proxy on
the same pools and the same `InstanceStats`. All of it may be called from
any thread, the isolation threads included, so the model is a step
relation: a step is one thread's next operation on what threads share,
and any thread may take the next step.

# Where a task is

A task is held by the call that dispatches it, then by the queue of its
pool, then by the pool's thread, and by nothing once its future is
finished; the state has no other record of it. A thread outside the
pools is known only by the call it is in. An isolation thread takes the
head of its queue and carries the task through its phases; user code
runs on it inside a functor and in the callbacks of a finished future,
and may make the same calls there as any other thread. `RunSync` is
`RunAsync` followed by a wait, and a thread that waits takes no step until
the future is finished, so a functor waiting on its own pool never goes
on here either.

# What is one step

`Dispatch` reads the instances' loads one at a time, then adds the cost,
then counts the task; `TaskScope`'s destructor subtracts the cost, then
counts the completion. Each of these is a step of its own, so that what
two threads may do between them is in the model. `current_task` is
`thread_local` and changes together with the step next to it.

Left out: what `InstanceStats` measures in time and in bytes moved, and
the pools' destruction. The counters are integers here and 64 bits wide
in the source.
-/
import Mathlib.Algebra.BigOperators.Group.Multiset.Basic
import Mathlib.Logic.Function.Basic
import Arcae.Lib.Lts

namespace Arcae

-- =============================================================== tasks

/-- A thread: the one of pool `pool`, or any other. -/
inductive Thread
  | isolation (pool : Nat)
  | outside (id : Nat)
deriving DecidableEq, Repr

/-- Cumulative statistics of one instance, shared by every proxy that
dispatches to its pool. -/
structure InstanceStats where
  submitted : Int := 0
  outstandingCost : Int := 0
  completed : Int := 0
deriving DecidableEq, Repr

/-- The `RunningTask` of a thread. A pointer to an instance's
statistics is the instance's index, null when there is none. -/
structure RunningTask where
  stats : Option Nat := none
  cost : Int := 0
deriving DecidableEq, Repr

/-- A `Submission`; `Submission{}` is not measured. -/
structure Submission where
  inst : Nat := 0
  stats : Option Nat := none
  cost : Int := 0
deriving DecidableEq, Repr

/-- What a task submitted to a pool does: `InvokeOnInstance` a functor
of `RunAsync` or `RunSync`, `Invoke` the functor by which `Make` or
`Spawn` builds a table, or close an instance's table for `Close`. -/
inductive Body
  | functor (proxy : Nat)
  | construct
  | close (proxy : Nat)
deriving DecidableEq, Repr

/-- A task in the queue of a pool, with the future `Submit` returned. -/
structure Task where
  body : Body
  submission : Submission := {}
  future : Nat

/-- What the thread of a pool does next with its task. -/
inductive Phase
  /-- It has taken it, and is in its `TaskScope` if it has one. -/
  | entered
  /-- `InvokeOnInstance` found the table open. -/
  | checked
  /-- It runs the functor. -/
  | inside
  /-- It has a result and leaves the `TaskScope`. -/
  | leaving (status : Except String Unit)
  /-- `~TaskScope` has released the cost. -/
  | released (status : Except String Unit)
  /-- The future is finished, and its callbacks run. -/
  | finished

/-- A task on its thread. `previous` is what its `TaskScope` saved. -/
structure Running where
  task : Task
  previous : RunningTask
  phase : Phase

/-- A FIFO pool of one thread. -/
structure Pool where
  queue : List Task := []
  running : Option Running := none

/-- How a functor ends. -/
inductive Ending
  | returned
  | failed (status : String)
  | aipsError (what : String)
  | stdException (what : String)
deriving DecidableEq, Repr

/-- `Invoke`: exceptions become a failed status. -/
def Ending.status : Ending → Except String Unit
  | .returned => .ok ()
  | .failed status => .error status
  | .aipsError what => .error ("Unhandled casacore exception: " ++ what)
  | .stdException what => .error ("Unhandled exception: " ++ what)

-- =============================================================== state

/-- One `IsolatedTableProxy`: its flag, and which of its instances'
tables are closed. -/
structure Proxy where
  isClosed : Bool := false
  isNull : Nat → Bool := fun _ => false

/-- A call into a proxy that a thread has not returned from. -/
inductive Call
  /-- `Dispatch` is reading the loads: `next` is its loop variable. -/
  | scanning (proxy : Nat) (cost : Int) (sync : Bool) (next : Nat)
      (inst : Nat) (least : Int)
  /-- `Dispatch` has reserved the cost and counts the task next. -/
  | counting (proxy : Nat) (submission : Submission) (sync : Bool)
  /-- `Dispatch` has returned; `RunInPool` submits the task next. -/
  | submitting (proxy : Nat) (submission : Submission) (sync : Bool)
  /-- `RunSync` waits for the task's future. -/
  | waiting (future : Nat)
  /-- `Make` or `Spawn` builds the table of instance `next`, or waits
  for it. -/
  | constructing (next : Nat) (pending : Option Nat)
  /-- `Close` visits instance `next`, or waits for its `results`. -/
  | closing (proxy : Nat) (next : Nat) (results : List Nat)
      (inlineStatus : Except String Unit)

/-- The calls in progress, each with the thread that made it. -/
abbrev Calls := Multiset (Thread × Call)

/-- Everything the threads share, and where each of them is. -/
structure State where
  stats : Nat → InstanceStats
  pools : Nat → Pool
  currentTask : Thread → RunningTask
  calls : Calls
  futures : Nat → Option (Except String Unit)
  nFutures : Nat
  proxies : Nat → Proxy
  nProxies : Nat

/-- `Make` with `n` instances, called by some thread: it has checked
that `n` is at least one, and there is no proxy yet. -/
def State.init (n : Nat) : State where
  stats := fun _ => {}
  pools := fun _ => {}
  currentTask := fun _ => {}
  calls := if 1 ≤ n then {(.outside 0, .constructing 0 none)} else 0
  futures := fun _ => none
  nFutures := 0
  proxies := fun _ => {}
  nProxies := 0

namespace State

/-- The statistics of an instance after `f`. -/
def setStats (s : State) (i : Nat) (f : InstanceStats → InstanceStats) :
    State :=
  { s with stats := Function.update s.stats i (f (s.stats i)) }

/-- What the thread of pool `i` is doing now. -/
def setRunning (s : State) (i : Nat) (running : Option Running) : State :=
  { s with
    pools := Function.update s.pools i
      { s.pools i with running := running } }

/-- `Submit`: a task for a new future goes to the end of the queue. -/
def enqueue (s : State) (i : Nat) (body : Body) (submission : Submission) :
    State :=
  let task := { body := body, submission := submission, future := s.nFutures }
  { s with
    pools := Function.update s.pools i
      { s.pools i with queue := (s.pools i).queue ++ [task] }
    nFutures := s.nFutures + 1 }

/-- The future of the thread's task is finished. -/
def finishFuture (s : State) (i : Nat) (r : Running)
    (status : Except String Unit) : State :=
  { s.setRunning i (some { r with phase := .finished }) with
    futures := Function.update s.futures r.task.future (some status) }

/-- `tp->close()` of instance `i` has succeeded. -/
def closeTable (s : State) (p i : Nat) : State :=
  { s with
    proxies := Function.update s.proxies p
      { s.proxies p with
        isNull := Function.update (s.proxies p).isNull i true } }

-- ==================================================== RunAsync, RunSync

/-- `CheckClosed`. -/
def checkClosed (s : State) (p : Nat) : Except String Unit :=
  if (s.proxies p).isClosed then .error "TableProxy is closed" else .ok ()

/-- The largest `std::int64_t`, where `Dispatch` starts its minimum. -/
def int64Max : Int := 2 ^ 63 - 1

/-- The load `Dispatch` sees: a task dispatching work from its
isolation thread is about to complete. -/
def load (s : State) (th : Thread) (i : Nat) : Int :=
  if (s.currentTask th).stats = some i then
    (s.stats i).outstandingCost - (s.currentTask th).cost
  else (s.stats i).outstandingCost

/-- One turn of `Dispatch`'s loop. -/
def scan (s : State) (th : Thread) (p : Nat) (cost : Int) (sync : Bool)
    (next inst : Nat) (least : Int) : Call :=
  if s.load th next < least then
    .scanning p cost sync (next + 1) next (s.load th next)
  else .scanning p cost sync (next + 1) inst least

/-- `Dispatch` after its loop: reserve the cost on the instance. -/
def reserve (s : State) (inst : Nat) (cost : Int) : State :=
  s.setStats inst fun stats =>
    { stats with outstandingCost := stats.outstandingCost + cost }

/-- `Dispatch` counts the task. -/
def count (s : State) (inst : Nat) : State :=
  s.setStats inst fun stats =>
    { stats with submitted := stats.submitted + 1 }

/-- `RunInPool`, and `RunInPoolSync`, which waits for the future. -/
def submit (s : State) (th : Thread) (p : Nat) (submission : Submission)
    (sync : Bool) (rest : Calls) : State :=
  { s.enqueue submission.inst (.functor p) submission with
    calls := if sync then (th, .waiting s.nFutures) ::ₘ rest else rest }

-- =========================================================== TaskScope

/-- The thread of pool `i` takes a task; the constructor of `TaskScope`
does nothing more for one that is not measured, and `Close`'s task has
no `TaskScope`. -/
def start (s : State) (i : Nat) (task : Task) (rest : List Task) : State :=
  let previous := s.currentTask (.isolation i)
  let running := { task := task, previous := previous, phase := .entered }
  { s with
    pools := Function.update s.pools i
      { queue := rest, running := some running }
    currentTask :=
      match task.submission.stats with
      | none => s.currentTask
      | some inst =>
          Function.update s.currentTask (.isolation i)
            { stats := some inst, cost := task.submission.cost } }

/-- `InvokeOnInstance` looks at the table before it calls the functor. -/
def check (s : State) (p : Nat) (task : Task) : Phase :=
  if (s.proxies p).isNull task.submission.inst then
    .leaving (.error "TableProxy is closed")
  else .checked

/-- `~TaskScope`: a scope that measures restores `current_task` and
releases the cost. -/
def leaveScope (s : State) (i : Nat) (r : Running)
    (status : Except String Unit) : State :=
  match r.task.submission.stats with
  | none => s.finishFuture i r status
  | some inst =>
      { (s.setRunning i (some { r with phase := .released status })).setStats
          inst fun stats =>
            { stats with
              outstandingCost :=
                stats.outstandingCost - r.task.submission.cost } with
        currentTask :=
          Function.update s.currentTask (.isolation i) r.previous }

/-- The end of `~TaskScope`: count the completion, and finish the
future. -/
def complete (s : State) (i : Nat) (r : Running)
    (status : Except String Unit) : State :=
  match r.task.submission.stats with
  | none => s.finishFuture i r status
  | some inst =>
      (s.finishFuture i r status).setStats inst fun stats =>
        { stats with completed := stats.completed + 1 }

-- =============================================================== Close

/-- `close()` of the table of instance `i`, which may throw: then
`throws p i` is what the exception says. -/
def close (s : State) (throws : Nat → Nat → Option String) (p i : Nat) :
    State :=
  match throws p i with
  | some _ => s
  | none => s.closeTable p i

/-- What becomes of an exception of `close()`. -/
def closeStatus (throws : Nat → Nat → Option String) (p i : Nat) :
    Except String Unit :=
  match throws p i with
  | some what => .error ("Error closing table: " ++ what)
  | none => .ok ()

/-- The inline status after `close()` on the calling thread: the last
error counts. -/
def inlineStatus (throws : Nat → Nat → Option String) (p i : Nat)
    (status : Except String Unit) : Except String Unit :=
  match closeStatus throws p i with
  | .ok () => status
  | .error what => .error what

/-- What `Close` returns once its tasks are done: the inline error
first, then the first result that failed. -/
def closeResult (s : State) (results : List Nat)
    (inlineStatus : Except String Unit) : Except String Bool := do
  inlineStatus
  results.forM fun f => (s.futures f).getD (.ok ())
  return true

/-- `defer_close`. -/
def setClosed (s : State) (p : Nat) : State :=
  { s with
    proxies :=
      Function.update s.proxies p { s.proxies p with isClosed := true } }

-- ========================================================= Make, Spawn

/-- `Make` and `Spawn` take the result of a functor, and give up on a
failed one. -/
def constructed (s : State) (th : Thread) (next future : Nat)
    (rest : Calls) : Calls :=
  match (s.futures future).getD (.ok ()) with
  | .ok () => (th, .constructing (next + 1) none) ::ₘ rest
  | .error _ => rest

/-- They return the new proxy. -/
def newProxy (s : State) : State :=
  { s with
    proxies := Function.update s.proxies s.nProxies {}
    nProxies := s.nProxies + 1 }

-- =============================================================== steps

/-- The thread of pool `i` runs code of the user: a functor, or the
callbacks of a finished future. -/
def RunsUser (s : State) (i : Nat) : Prop :=
  ∃ r, (s.pools i).running = some r ∧
    (r.phase = .inside ∨ r.phase = .finished)

/-- The thread is in no call. -/
def Free (s : State) (th : Thread) : Prop :=
  ∀ c, (th, c) ∉ s.calls

/-- The thread can make a call. -/
def MayCall (s : State) (th : Thread) : Prop :=
  s.Free th ∧ ∀ i, th = .isolation i → s.RunsUser i

end State

/-- What a step did, where a statement speaks of it. -/
inductive Event
  /-- `RunAsync` or `RunSync`, with what `CheckClosed` answered. -/
  | run (proxy : Nat) (checked : Except String Unit)
  /-- The thread of pool `inst` calls the functor of this task. -/
  | invoke (inst : Nat) (task : Task)
  /-- `Close` submits its task to an instance's pool. -/
  | closeSubmit (proxy inst : Nat)
  /-- An instance's thread runs `Close`'s task. -/
  | closeTask (proxy inst : Nat)
  /-- `Close` closes the table of the instance it is running on. -/
  | closeInline (proxy inst : Nat)
  /-- `Close` returns. -/
  | closeReturn (proxy : Nat) (result : Except String Bool)
  /-- Any other step. -/
  | internal

section Step

variable (n : Nat) (throws : Nat → Nat → Option String)

/-- The next operation of one of the threads, on a proxy of `n`
instances and those spawned from it. -/
inductive Step : State → Event → State → Prop
  -- RunAsync, RunSync
  | refuse {s : State} {th : Thread} {p : Nat} {status : String} :
      s.MayCall th → p < s.nProxies → s.checkClosed p = .error status →
      Step s (.run p (.error status)) s
  | run {s : State} {th : Thread} {p : Nat} (cost : Int) (sync : Bool) :
      s.MayCall th → p < s.nProxies → s.checkClosed p = .ok () →
      Step s (.run p (.ok ()))
        { s with
          calls :=
            (th, .scanning p cost sync 0 0 State.int64Max) ::ₘ s.calls }
  | scan {s : State} {th : Thread} {p : Nat} {cost : Int} {sync : Bool}
      {next inst : Nat} {least : Int} {rest : Calls} :
      s.calls = (th, .scanning p cost sync next inst least) ::ₘ rest →
      next < n →
      Step s .internal
        { s with
          calls := (th, s.scan th p cost sync next inst least) ::ₘ rest }
  | reserve {s : State} {th : Thread} {p : Nat} {cost : Int} {sync : Bool}
      {next inst : Nat} {least : Int} {rest : Calls} :
      s.calls = (th, .scanning p cost sync next inst least) ::ₘ rest →
      n ≤ next →
      Step s .internal
        { s.reserve inst cost with
          calls := (th, .counting p ⟨inst, some inst, cost⟩ sync) ::ₘ rest }
  | count {s : State} {th : Thread} {p : Nat} {submission : Submission}
      {sync : Bool} {rest : Calls} :
      s.calls = (th, .counting p submission sync) ::ₘ rest →
      Step s .internal
        { s.count submission.inst with
          calls := (th, .submitting p submission sync) ::ₘ rest }
  | submit {s : State} {th : Thread} {p : Nat} {submission : Submission}
      {sync : Bool} {rest : Calls} :
      s.calls = (th, .submitting p submission sync) ::ₘ rest →
      Step s .internal (s.submit th p submission sync rest)
  | wake {s : State} {th : Thread} {future : Nat} {rest : Calls} :
      s.calls = (th, .waiting future) ::ₘ rest →
      (s.futures future).isSome →
      Step s .internal { s with calls := rest }
  -- the isolation threads
  | start {s : State} {i : Nat} {task : Task} {rest : List Task} :
      (s.pools i).running = none → (s.pools i).queue = task :: rest →
      Step s .internal (s.start i task rest)
  | check {s : State} {i p : Nat} {r : Running} :
      (s.pools i).running = some r → r.task.body = .functor p →
      r.phase = .entered →
      Step s .internal
        (s.setRunning i (some { r with phase := s.check p r.task }))
  | invoke {s : State} {i p : Nat} {r : Running} :
      (s.pools i).running = some r → r.task.body = .functor p →
      r.phase = .checked →
      Step s (.invoke i r.task)
        (s.setRunning i (some { r with phase := .inside }))
  | construct {s : State} {i : Nat} {r : Running} :
      (s.pools i).running = some r → r.task.body = .construct →
      r.phase = .entered →
      Step s .internal
        (s.setRunning i (some { r with phase := .inside }))
  | ends {s : State} {i : Nat} {r : Running} (ending : Ending) :
      (s.pools i).running = some r → r.phase = .inside →
      s.Free (.isolation i) →
      Step s .internal
        (s.setRunning i (some { r with phase := .leaving ending.status }))
  | leaveScope {s : State} {i : Nat} {r : Running}
      {status : Except String Unit} :
      (s.pools i).running = some r → r.phase = .leaving status →
      Step s .internal (s.leaveScope i r status)
  | complete {s : State} {i : Nat} {r : Running}
      {status : Except String Unit} :
      (s.pools i).running = some r → r.phase = .released status →
      Step s .internal (s.complete i r status)
  | closeTask {s : State} {i p : Nat} {r : Running} :
      (s.pools i).running = some r → r.task.body = .close p →
      r.phase = .entered →
      Step s (.closeTask p i)
        ((s.close throws p i).finishFuture i r
          (State.closeStatus throws p i))
  | idle {s : State} {i : Nat} {r : Running} :
      (s.pools i).running = some r → r.phase = .finished →
      s.Free (.isolation i) →
      Step s .internal (s.setRunning i none)
  -- Close
  | closeAgain {s : State} {th : Thread} {p : Nat} :
      s.MayCall th → p < s.nProxies → (s.proxies p).isClosed = true →
      Step s (.closeReturn p (.ok false)) s
  | close {s : State} {th : Thread} {p : Nat} :
      s.MayCall th → p < s.nProxies → (s.proxies p).isClosed = false →
      Step s .internal
        { s with calls := (th, .closing p 0 [] (.ok ())) ::ₘ s.calls }
  | closeInline {s : State} {p next : Nat} {results : List Nat}
      {status : Except String Unit} {rest : Calls} :
      s.calls
        = (.isolation next, .closing p next results status) ::ₘ rest →
      next < n →
      Step s (.closeInline p next)
        { s.close throws p next with
          calls :=
            (.isolation next, .closing p (next + 1) results
              (State.inlineStatus throws p next status)) ::ₘ rest }
  | closeSubmit {s : State} {th : Thread} {p next : Nat}
      {results : List Nat} {status : Except String Unit} {rest : Calls} :
      s.calls = (th, .closing p next results status) ::ₘ rest → next < n →
      th ≠ .isolation next →
      Step s (.closeSubmit p next)
        { s.enqueue next (.close p) {} with
          calls :=
            (th, .closing p (next + 1) (results ++ [s.nFutures]) status)
              ::ₘ rest }
  | closeReturn {s : State} {th : Thread} {p next : Nat}
      {results : List Nat} {status : Except String Unit} {rest : Calls} :
      s.calls = (th, .closing p next results status) ::ₘ rest → n ≤ next →
      (∀ f ∈ results, (s.futures f).isSome) →
      Step s (.closeReturn p (s.closeResult results status))
        { s.setClosed p with calls := rest }
  -- Make, Spawn
  | spawn {s : State} {th : Thread} {p : Nat} :
      s.MayCall th → p < s.nProxies →
      Step s .internal
        { s with calls := (th, .constructing 0 none) ::ₘ s.calls }
  | constructSubmit {s : State} {th : Thread} {next : Nat} {rest : Calls} :
      s.calls = (th, .constructing next none) ::ₘ rest → next < n →
      Step s .internal
        { s.enqueue next .construct {} with
          calls := (th, .constructing next (some s.nFutures)) ::ₘ rest }
  | constructed {s : State} {th : Thread} {next future : Nat}
      {rest : Calls} :
      s.calls = (th, .constructing next (some future)) ::ₘ rest →
      (s.futures future).isSome →
      Step s .internal
        { s with calls := s.constructed th next future rest }
  | newProxy {s : State} {th : Thread} {next : Nat} {rest : Calls} :
      s.calls = (th, .constructing next none) ::ₘ rest → n ≤ next →
      Step s .internal { s.newProxy with calls := rest }

/-- A state to which `Make`, and what the threads did since, can lead;
the events are what they did. -/
def Reaches (events : List Event) (s : State) : Prop :=
  Lts.Run (Step n throws) (State.init n) events s

/-- A step in which no thread begins a `Spawn`. -/
def UnspawnedStep (s : State) (e : Event) (s' : State) : Prop :=
  Step n throws s e s'
    ∧ ∀ th, s'.calls ≠ (th, .constructing 0 none) ::ₘ s.calls

end Step

end Arcae
