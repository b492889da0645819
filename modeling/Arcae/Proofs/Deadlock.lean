/-
When isolation threads in `Close` wait for each other.

A `Close` on an isolation thread waits for tasks in the queues of other
pools, and its own pool's queue stands still until it returns. Isolation
threads of which each waits for another of them never return
(`Deadlocked`).

# Order

A thread needs another one as long as its `Close` has still to visit
that pool, or has its task queued there (`Needs`). What a thread needs
only ever shrinks while its `Close` goes on (`Step.needs`). So if no
isolation thread begins a `Close` while another one's still needs it
(`Admits`), the threads in `Close`, in the order they began, never need
one that began after them (`CloseOrder`), and the first of any set of
them waits for none of the set (`deadlock_free`).

Two tasks that close from two isolation threads at once do wait for each
other (`close_deadlocks`).
-/
import Arcae.Proofs.Closing

namespace Arcae

open Lts

variable {n : Nat} {throws : Nat → Nat → Option String} {s s' : State}
  {e : Event} {i j k p : Nat}

-- ============================================================== deadlock

/-- The thread of pool `i` is in a `Close`. -/
def InClose (s : State) (i : Nat) : Prop :=
  ∃ p next results status,
    (Thread.isolation i, Call.closing p next results status) ∈ s.calls

/-- Some isolation threads are in `Close`, have visited all instances,
and each waits for a task in the queue of another of them. -/
def Deadlocked (n : Nat) (s : State) : Prop :=
  ∃ threads : Set Nat, threads.Nonempty ∧ ∀ i ∈ threads,
    ∃ p next results status,
      (Thread.isolation i, Call.closing p next results status) ∈ s.calls
        ∧ n ≤ next
        ∧ ∃ j ∈ threads, j ≠ i ∧ ∃ task ∈ (s.pools j).queue,
          task.body = .close p ∧ task.future ∈ results

/-- The `Close` on the thread of pool `i` has still to visit instance
`k`, or its task is in that instance's queue. -/
def Needs (n : Nat) (s : State) (i k : Nat) : Prop :=
  ∃ p next results status,
    (Thread.isolation i, Call.closing p next results status) ∈ s.calls
      ∧ ((next ≤ k ∧ k < n)
        ∨ ∃ task ∈ (s.pools k).queue, task.future ∈ results)

/-- No isolation thread begins a `Close` that another one's still
needs. -/
def Admits (n : Nat) (s s' : State) : Prop :=
  ∀ k, s.Free (.isolation k) → InClose s' k → ∀ i, ¬ Needs n s i k

-- ================================================================ queues

/-- Queues only ever get tasks with new futures. -/
theorem queue_update {pool : Pool} {task : Task}
    (hpools : s'.pools = Function.update s.pools i pool)
    (hi : pool.queue ⊆ (s.pools i).queue)
    (ht : task ∈ (s'.pools j).queue) : task ∈ (s.pools j).queue := by
  rw [hpools] at ht
  by_cases hj : j = i
  · subst hj
    rw [Function.update_self] at ht
    exact hi ht
  · rwa [Function.update_of_ne hj] at ht

theorem queue_enqueue {body : Body} {x : Submission} {task : Task}
    (ht : task ∈ ((s.enqueue i body x).pools j).queue) :
    task ∈ (s.pools j).queue ∨ (task.future = s.nFutures ∧ j = i) := by
  by_cases hj : j = i
  · subst hj
    simp only [State.enqueue, Function.update_self, List.mem_append,
      List.mem_singleton] at ht
    exact ht.imp id fun heq => ⟨by rw [heq], rfl⟩
  · simp only [State.enqueue, Function.update_of_ne hj] at ht
    exact .inl ht

theorem Step.queue (hs : Step n throws s e s') {task : Task}
    (ht : task ∈ (s'.pools j).queue) :
    task ∈ (s.pools j).queue ∨ task.future = s.nFutures := by
  have hsame {pool : Pool} {i : Nat}
      (hpools : s'.pools = Function.update s.pools i pool)
      (hi : pool.queue ⊆ (s.pools i).queue) :
      task ∈ (s.pools j).queue ∨ task.future = s.nFutures :=
    .inl (queue_update hpools hi ht)
  cases hs with
  | submit | closeSubmit | constructSubmit =>
      exact (queue_enqueue ht).imp id And.left
  | @start i task rest hidle hqueue =>
      refine hsame rfl ?_
      rw [hqueue]
      exact List.subset_cons_self _ _
  | check | invoke | construct | ends | idle =>
      exact hsame rfl (List.Subset.refl _)
  | leaveScope =>
      unfold State.leaveScope at hsame
      split at hsame <;> exact hsame rfl (List.Subset.refl _)
  | complete =>
      unfold State.complete at hsame
      split at hsame <;> exact hsame rfl (List.Subset.refl _)
  | closeTask => exact hsame (close_pools ..) (List.Subset.refl _)
  | @closeInline p next results status rest =>
      have hpools := (close_frame s throws p next).2.1
      exact .inl (hpools ▸ ht)
  | _ => exact .inl ht

-- ========================================================== what is needed

/-- The futures a `Close` waits for have been made. -/
def ResultsMade (s : State) : Prop :=
  ∀ th p next results status,
    (th, Call.closing p next results status) ∈ s.calls →
      ∀ f ∈ results, f < s.nFutures

theorem ResultsMade.init (n : Nat) : ResultsMade (State.init n) := by
  intro th p next results status hc
  simp only [State.init] at hc
  split at hc
  · cases Multiset.mem_singleton.mp hc
  · exact absurd hc (Multiset.notMem_zero _)

theorem ResultsMade.step (h : ResultsMade s) (hs : Step n throws s e s') :
    ResultsMade s' := by
  intro th p next results status hc f hf
  cases hs.closing hc with
  | before hold => exact lt_of_lt_of_le (h _ _ _ _ _ hold f hf) hs.nFutures_le
  | begins => cases hf
  | inline _ _ hold => exact lt_of_lt_of_le (h _ _ _ _ _ hold f hf) hs.nFutures_le
  | submitted _ hold _ hnew =>
      rw [hnew]
      rcases List.mem_append.mp hf with hf | hf
      · exact Nat.lt_succ_of_lt (h _ _ _ _ _ hold f hf)
      · rw [List.mem_singleton.mp hf]
        exact Nat.lt_succ_self _

/-- A thread in `Close` needs no more than it did; another one may have
begun. -/
theorem Step.needs (hs : Step n throws s e s') (hordered : Ordered s)
    (hmade : ResultsMade s) (h : Needs n s' i k) :
    Needs n s i k ∨ s.Free (.isolation i) := by
  obtain ⟨p, next, results, status, hc, hneeds⟩ := h
  -- a task for one of some old futures was queued before
  have hqueued {next : Nat} {results : List Nat} {status : Except String Unit}
      (hold : (Thread.isolation i, Call.closing p next results status) ∈ s.calls)
      (hx : ∃ task ∈ (s'.pools k).queue, task.future ∈ results) :
      Needs n s i k := by
    obtain ⟨task, htask, hfuture⟩ := hx
    rcases hs.queue htask with htask | hnew
    · exact ⟨p, next, results, status, hold, .inr ⟨task, htask, hfuture⟩⟩
    · have := hmade _ _ _ _ _ hold _ hfuture
      omega
  cases hs.closing hc with
  | before hold =>
      left
      rcases hneeds with hvisit | hx
      · exact ⟨p, next, results, status, hold, .inl hvisit⟩
      · exact hqueued hold hx
  | begins hmay => exact .inr hmay.1
  | @inline at_ _ status _ _ hold =>
      left
      rcases hneeds with hvisit | hx
      · exact ⟨p, at_, results, status, hold, .inl ⟨by omega, hvisit.2⟩⟩
      · exact hqueued hold hx
  | @submitted at_ results _ hlt hold hpools =>
      left
      rcases hneeds with hvisit | ⟨task, htask, hfuture⟩
      · exact ⟨p, at_, results, status, hold, .inl ⟨by omega, hvisit.2⟩⟩
      · rcases List.mem_append.mp hfuture with hfuture | hfuture
        · exact hqueued hold ⟨task, htask, hfuture⟩
        · -- the task just submitted: this instance is the one visited
          have hnew := List.mem_singleton.mp hfuture
          rw [hpools] at htask
          rcases queue_enqueue htask with htask | ⟨-, rfl⟩
          · have := hordered.fresh k task (List.mem_append_right _ htask)
            omega
          · exact ⟨p, k, results, status, hold, .inl ⟨Nat.le_refl k, hlt⟩⟩

/-- The threads in `Close` in the order they began: none needs one that
began after it. -/
structure CloseOrder (n : Nat) (s : State) (began : List Nat) : Prop where
  mem : ∀ i, i ∈ began ↔ InClose s i
  apart : began.Pairwise fun i k => ¬ Needs n s i k

theorem CloseOrder.init (n : Nat) : CloseOrder n (State.init n) [] where
  mem := by
    intro i
    refine iff_of_false List.not_mem_nil fun hx => ?_
    obtain ⟨p, next, results, status, hc⟩ := hx
    simp only [State.init] at hc
    split at hc
    · cases Multiset.mem_singleton.mp hc
    · exact Multiset.notMem_zero _ hc
  apart := .nil

/-- A thread that was not in a `Close` and now is has begun one, alone. -/
theorem Step.begins (hs : Step n throws s e s') (hk : InClose s' k)
    (hold : ¬ InClose s k) : s.Free (.isolation k) ∧
      ∀ i, InClose s' i ↔ i = k ∨ InClose s i := by
  obtain ⟨p, next, results, status, hc⟩ := hk
  cases hs.closing hc with
  | before hc' => exact absurd ⟨p, _, _, _, hc'⟩ hold
  | inline _ _ hc' => exact absurd ⟨p, _, _, _, hc'⟩ hold
  | submitted _ hc' => exact absurd ⟨p, _, _, _, hc'⟩ hold
  | begins hmay _ _ hcalls =>
      refine ⟨hmay.1, fun i => ?_⟩
      constructor
      · intro hx
        obtain ⟨p', next', results', status', hc'⟩ := hx
        rw [hcalls] at hc'
        rcases Multiset.mem_cons.mp hc' with heq | hc'
        · left
          have hth := congrArg Prod.fst heq
          exact Thread.isolation.inj hth
        · exact .inr ⟨p', next', results', status', hc'⟩
      · intro hx
        rcases hx with rfl | ⟨p', next', results', status', hc'⟩
        · exact ⟨p, 0, [], .ok (), hc⟩
        · exact ⟨p', next', results', status', hcalls ▸ Multiset.mem_cons_of_mem hc'⟩

/-- An admitted step keeps the order: a thread that begins a `Close`
comes last. -/
theorem CloseOrder.step {began : List Nat} (h : CloseOrder n s began)
    (hordered : Ordered s) (hmade : ResultsMade s)
    (hs : Step n throws s e s') (hadmits : Admits n s s') :
    ∃ began', CloseOrder n s' began' := by
  have hin : ∀ i, InClose s i → ¬ s.Free (.isolation i) := by
    intro i hx hfree
    obtain ⟨p, next, results, status, hc⟩ := hx
    exact hfree _ hc
  have hneeds : ∀ i k, InClose s i → Needs n s' i k → Needs n s i k :=
    fun i k hi h' => (hs.needs hordered hmade h').resolve_right (hin i hi)
  classical
  -- those that have returned leave the order
  have hkept : (began.filter fun i => decide (InClose s' i)).Pairwise
      fun i k => ¬ Needs n s' i k := by
    refine (h.apart.filter _).imp_of_mem fun {i k} hi _ hno h' => hno ?_
    exact hneeds i k ((h.mem i).mp (List.mem_of_mem_filter hi)) h'
  by_cases hbegins : ∃ k, InClose s' k ∧ ¬ InClose s k
  · obtain ⟨k, hk, hold⟩ := hbegins
    obtain ⟨hfree, hall⟩ := hs.begins hk hold
    refine ⟨began.filter (fun i => decide (InClose s' i)) ++ [k], fun i => ?_, ?_⟩
    · rw [List.mem_append, List.mem_filter, List.mem_singleton, h.mem,
        decide_eq_true_eq, hall]
      tauto
    · refine List.pairwise_append.mpr ⟨hkept, List.pairwise_singleton _ _, ?_⟩
      intro i hi k' hk' h'
      rw [List.mem_singleton.mp hk'] at h'
      exact hadmits k hfree hk i
        (hneeds i k ((h.mem i).mp (List.mem_of_mem_filter hi)) h')
  · refine ⟨began.filter fun i => decide (InClose s' i), fun i => ?_, hkept⟩
    rw [List.mem_filter, h.mem, decide_eq_true_eq]
    constructor
    · exact And.right
    · intro hi
      by_contra hno
      exact hbegins ⟨i, hi, fun hold => hno ⟨hold, hi⟩⟩

-- ============================================================== the runs

/-- If nothing in a list is related to anything after it, then in every
set of its elements there is one that is related to no other. -/
theorem exists_unrelated {R : Nat → Nat → Prop} {l : List Nat}
    (h : l.Pairwise fun i k => ¬ R i k) {set : Set Nat} (hne : set.Nonempty)
    (hin : ∀ i ∈ set, i ∈ l) : ∃ i ∈ set, ∀ k ∈ set, k ≠ i → ¬ R i k := by
  induction l generalizing set with
  | nil =>
      obtain ⟨i, hi⟩ := hne
      exact absurd (hin i hi) List.not_mem_nil
  | cons a l ih =>
      rw [List.pairwise_cons] at h
      by_cases ha : a ∈ set
      · refine ⟨a, ha, fun k hk hka => h.1 k ?_⟩
        exact (List.mem_cons.mp (hin k hk)).resolve_left hka
      · refine ih h.2 hne fun i hi => ?_
        refine (List.mem_cons.mp (hin i hi)).resolve_left fun heq => ha ?_
        exact heq ▸ hi

/-- A step in which no isolation thread begins a `Close` that another
one's still needs. -/
def AdmittedStep (n : Nat) (throws : Nat → Nat → Option String) (s : State)
    (e : Event) (s' : State) : Prop :=
  Step n throws s e s' ∧ Admits n s s'

/-- In a run of admitted steps no isolation threads deadlock. -/
theorem deadlock_free {events : List Event}
    (hs : Run (AdmittedStep n throws) (State.init n) events s) :
    ¬ Deadlocked n s := by
  obtain ⟨-, -, began, horder⟩ := Run.invariant
    (fun s => Ordered s ∧ ResultsMade s ∧ ∃ began, CloseOrder n s began)
    (fun h hstep => by
      obtain ⟨hordered, hmade, began, horder⟩ := h
      exact ⟨hordered.step hstep.1, hmade.step hstep.1,
        horder.step hordered hmade hstep.1 hstep.2⟩)
    hs ⟨Ordered.init n, ResultsMade.init n, [], CloseOrder.init n⟩
  intro hx
  obtain ⟨threads, hne, hwait⟩ := hx
  have hin : ∀ i ∈ threads, i ∈ began := by
    intro i hi
    obtain ⟨p, next, results, status, hc, -⟩ := hwait i hi
    exact (horder.mem i).mpr ⟨p, next, results, status, hc⟩
  obtain ⟨i, hi, hfirst⟩ := exists_unrelated horder.apart hne hin
  obtain ⟨p, next, results, status, hc, -, j, hj, hne', task, htask, -, hfuture⟩ :=
    hwait i hi
  exact hfirst j hj hne'
    ⟨p, next, results, status, hc, .inr ⟨task, htask, hfuture⟩⟩

-- =============================================================== a run

/-- No `Close` has returned. -/
def NoReturn (events : List Event) : Prop :=
  ∀ p result, Event.closeReturn p result ∉ events

theorem NoReturn.append {events events' : List Event} (h : NoReturn events)
    (h' : NoReturn events') : NoReturn (events ++ events') := by
  intro p result hmem
  exact (List.mem_append.mp hmem).elim (h p result) (h' p result)

/-- A `Close` ends only by returning. -/
theorem InClose.step (h : InClose s i) (hs : Step n throws s e s')
    (hno : ∀ p result, e ≠ .closeReturn p result) : InClose s' i := by
  obtain ⟨p, next, results, status, hc⟩ := h
  have hkeep (hmem : (Thread.isolation i, Call.closing p next results status)
      ∈ s'.calls) : InClose s' i := ⟨p, next, results, status, hmem⟩
  have hrest {c : Thread × Call} {rest : Calls} (hcalls : s.calls = c ::ₘ rest) :
      (Thread.isolation i, Call.closing p next results status) = c
        ∨ (Thread.isolation i, Call.closing p next results status) ∈ rest :=
    Multiset.mem_cons.mp (hcalls ▸ hc)
  cases hs with
  | run | close | spawn => exact hkeep (Multiset.mem_cons_of_mem hc)
  | scan hcalls | reserve hcalls | count hcalls | constructSubmit hcalls =>
      rcases hrest hcalls with heq | hmem
      · cases heq
      · exact hkeep (Multiset.mem_cons_of_mem hmem)
  | submit hcalls =>
      rcases hrest hcalls with heq | hmem
      · cases heq
      · refine hkeep ?_
        unfold State.submit
        dsimp only
        split
        · exact Multiset.mem_cons_of_mem hmem
        · exact hmem
  | wake hcalls | newProxy hcalls =>
      rcases hrest hcalls with heq | hmem
      · cases heq
      · exact hkeep hmem
  | constructed hcalls =>
      rcases hrest hcalls with heq | hmem
      · cases heq
      · refine hkeep ?_
        unfold State.constructed
        split
        · exact Multiset.mem_cons_of_mem hmem
        · exact hmem
  | leaveScope =>
      refine hkeep ?_
      unfold State.leaveScope
      split <;> exact hc
  | complete =>
      refine hkeep ?_
      unfold State.complete
      split <;> exact hc
  | @closeTask j q r =>
      exact hkeep ((close_frame s throws q j).1.symm ▸ hc)
  | closeInline hcalls =>
      rcases hrest hcalls with heq | hmem
      · cases heq
        exact ⟨p, _, _, _, Multiset.mem_cons_self _ _⟩
      · exact hkeep (Multiset.mem_cons_of_mem hmem)
  | closeSubmit hcalls =>
      rcases hrest hcalls with heq | hmem
      · cases heq
        exact ⟨p, _, _, _, Multiset.mem_cons_self _ _⟩
      · exact hkeep (Multiset.mem_cons_of_mem hmem)
  | closeAgain | closeReturn => exact absurd rfl (hno _ _)
  | _ => exact hkeep hc

/-- A run in which no `Close` returned, to a state in which no isolation
thread is in one, has only admitted steps. -/
theorem admitted_of_noReturn {events : List Event}
    (hs : Run (Step n throws) s events s') (hno : NoReturn events)
    (hend : ∀ i, ¬ InClose s' i) : Run (AdmittedStep n throws) s events s' := by
  induction hs with
  | refl => exact .refl
  | @tail events t u e hrun hstep ih =>
      refine (ih (fun p result hmem => hno p result (List.mem_append_left _ hmem))
        fun i hi => hend i (hi.step hstep fun p result he => ?_)).tail
        ⟨hstep, fun k _ hk => absurd hk (hend k)⟩
      exact hno p result
        (List.mem_append_right _ (List.mem_singleton.mpr he.symm))

/-- Nobody is in a call, and no pool has a task. -/
structure Quiet (s : State) : Prop where
  pools : s.pools = fun _ => {}
  currentTask : s.currentTask = fun _ => {}
  stats : s.stats = fun _ => {}
  proxies : s.proxies = fun _ => {}

/-- `Make` builds the table of an instance. -/
theorem constructs_next (hq : Quiet s) {k : Nat} (hk : k < n)
    (hcalls : s.calls = {(.outside 0, .constructing k none)})
    (hproxies : s.nProxies = 0) : ∃ events s',
      Run (Step n throws) s events s' ∧ NoReturn events ∧ Quiet s' ∧
        s'.nProxies = 0 ∧
        s'.calls = {(.outside 0, .constructing (k + 1) none)} := by
  have h1 := Run.single (@Step.constructSubmit n throws s (.outside 0) k 0 hcalls hk)
  have h2 := h1.tail (@Step.start n throws _ k
    { body := .construct, future := s.nFutures } []
    (by simp [State.enqueue, hq.pools]) (by simp [State.enqueue, hq.pools]))
  have h3 := h2.tail (@Step.construct n throws _ k
    { task := { body := .construct, future := s.nFutures }
      previous := {}
      phase := .entered }
    (by simp [State.start, State.enqueue, hq.currentTask]) rfl rfl)
  have h4 := h3.tail (@Step.ends n throws _ k
    { task := { body := .construct, future := s.nFutures }
      previous := {}
      phase := .inside } .returned
    (by simp [State.setRunning]) rfl
    fun c hc => by simp [State.setRunning, State.start] at hc)
  have h5 := h4.tail (@Step.leaveScope n throws _ k
    { task := { body := .construct, future := s.nFutures }
      previous := {}
      phase := .leaving (.ok ()) } (.ok ())
    (by simp [State.setRunning, Ending.status]) rfl)
  have h6 := h5.tail (@Step.constructed n throws _ (.outside 0) k s.nFutures 0
    (by simp [State.leaveScope, State.finishFuture, State.setRunning, State.start])
    (by simp [State.leaveScope, State.finishFuture]))
  have h7 := h6.tail (@Step.idle n throws _ k
    { task := { body := .construct, future := s.nFutures }
      previous := {}
      phase := .finished }
    (by simp [State.leaveScope, State.finishFuture, State.setRunning]) rfl
    fun c hc => by
      simp [State.leaveScope, State.finishFuture, State.constructed] at hc)
  refine ⟨_, _, h7, by simp [NoReturn], ⟨?_, ?_, ?_, ?_⟩, ?_, ?_⟩
  · funext j
    simp [State.leaveScope, State.finishFuture, State.setRunning, State.start,
      State.enqueue, hq.pools]
  · simp [State.leaveScope, State.finishFuture, State.setRunning, State.start,
      State.enqueue, hq.currentTask]
  · simp [State.leaveScope, State.finishFuture, State.setRunning, State.start,
      State.enqueue, hq.stats]
  · simp [State.leaveScope, State.finishFuture, State.setRunning, State.start,
      State.enqueue, hq.proxies]
  · simp [State.leaveScope, State.finishFuture, State.setRunning, State.start,
      State.enqueue, hproxies]
  · simp [State.leaveScope, State.finishFuture, State.setRunning,
      State.constructed]

/-- `Make` of any number of instances returns a proxy. -/
theorem reaches_proxy (throws : Nat → Nat → Option String) (hn : 1 ≤ n) :
    ∃ events s, Reaches n throws events s ∧ NoReturn events ∧ s.calls = 0 ∧
      s.nProxies = 1 ∧ Quiet s := by
  have key : ∀ k ≤ n, ∃ events s, Reaches n throws events s ∧
      NoReturn events ∧ Quiet s ∧ s.nProxies = 0 ∧
      s.calls = {(.outside 0, .constructing k none)} := by
    intro k
    induction k with
    | zero =>
        intro _
        exact ⟨[], State.init n, .refl, by simp [NoReturn], ⟨rfl, rfl, rfl, rfl⟩,
          rfl, if_pos hn⟩
    | succ k ih =>
        intro hk
        obtain ⟨events, s, hs, hno, hq, hproxies, hcalls⟩ := ih (by omega)
        obtain ⟨events', s', hrun, hno', hrest⟩ :=
          @constructs_next n throws s hq k (by omega) hcalls hproxies
        exact ⟨_, s', hs.trans hrun, hno.append hno', hrest⟩
  obtain ⟨events, s, hs, hno, hq, hproxies, hcalls⟩ := key n (Nat.le_refl n)
  have h1 := hs.tail
    (@Step.newProxy n throws s (.outside 0) n 0 hcalls (Nat.le_refl n))
  refine ⟨_, _, h1, hno.append (by simp [NoReturn]), rfl, ?_, hq.pools,
    hq.currentTask, hq.stats, ?_⟩
  · simp [State.newProxy, hproxies]
  · simp [State.newProxy, hq.proxies]

/-- A task that `RunAsync` places on instance `k` of two comes to run
there. -/
theorem runs_on {k : Nat} {least least' : Int} (hcalls : s.calls = 0)
    (hproxies : s.nProxies = 1) (hproxy : s.proxies = fun _ => {})
    (hfirst : s.scan (.outside 0) 0 8 false 0 0 State.int64Max
      = .scanning 0 8 false 1 0 least)
    (hsecond : s.scan (.outside 0) 0 8 false 1 0 least
      = .scanning 0 8 false 2 k least')
    (hpool : s.pools k = {}) : ∃ events s',
      Run (Step 2 throws) s events s' ∧ NoReturn events ∧ s'.calls = 0 ∧
        s'.nProxies = 1 ∧
        s'.proxies = (fun _ => {}) ∧
        s'.currentTask (.outside 0) = s.currentTask (.outside 0) ∧
        (s'.stats k).outstandingCost = (s.stats k).outstandingCost + 8 ∧
        (∀ j, j ≠ k → s'.pools j = s.pools j ∧ s'.stats j = s.stats j) ∧
        (s'.pools k).queue = [] ∧ s'.RunsUser k := by
  have hmay : s.MayCall (.outside 0) :=
    ⟨fun c hc => by simp [hcalls] at hc, fun i hi => by cases hi⟩
  have hopen : s.checkClosed 0 = .ok () := by simp [State.checkClosed, hproxy]
  have h1 := Run.single (@Step.run 2 throws s (.outside 0) 0 8 false hmay
    (by omega) hopen)
  have h2 := h1.tail (.scan rfl (by decide))
  have h3 := h2.tail
    (.scan (congrArg (fun c => (Thread.outside 0, c) ::ₘ s.calls) hfirst)
      (by decide))
  have h4 := h3.tail
    (.reserve (congrArg (fun c => (Thread.outside 0, c) ::ₘ s.calls) hsecond)
      (Nat.le_refl 2))
  have h5 := h4.tail (.count rfl)
  have h6 := h5.tail (.submit rfl)
  have h7 := h6.tail (@Step.start 2 throws _ k
    { body := .functor 0, submission := ⟨k, some k, 8⟩, future := s.nFutures } []
    (by simp [State.submit, State.enqueue, State.count, State.reserve,
      State.setStats, hpool])
    (by simp [State.submit, State.enqueue, State.count, State.reserve,
      State.setStats, hpool]))
  have h8 := h7.tail (@Step.check 2 throws _ k 0
    { task :=
        { body := .functor 0, submission := ⟨k, some k, 8⟩, future := s.nFutures }
      previous := s.currentTask (.isolation k)
      phase := .entered }
    (by simp [State.start, State.submit, State.enqueue, State.count,
      State.reserve, State.setStats]) rfl rfl)
  have h9 := h8.tail (@Step.invoke 2 throws _ k 0
    { task :=
        { body := .functor 0, submission := ⟨k, some k, 8⟩, future := s.nFutures }
      previous := s.currentTask (.isolation k)
      phase := .checked }
    (by simp [State.setRunning, State.check, State.start, State.submit,
      State.enqueue, State.count, State.reserve, State.setStats, hproxy])
    rfl rfl)
  refine ⟨_, _, h9, by simp [NoReturn], hcalls, hproxies, hproxy, ?_, ?_,
    fun j hj => ⟨?_, ?_⟩, ?_, ?_⟩
  · simp [State.setRunning, State.start, State.submit, State.enqueue, State.count,
      State.reserve, State.setStats]
  · simp [State.setRunning, State.start, State.submit, State.enqueue, State.count,
      State.reserve, State.setStats]
  · simp [State.setRunning, State.start, State.submit, State.enqueue, State.count,
      State.reserve, State.setStats, hj]
  · simp [State.setRunning, State.start, State.submit, State.enqueue, State.count,
      State.reserve, State.setStats, hj]
  · simp [State.setRunning, State.start]
  · simp [State.RunsUser, State.setRunning]

/-- From two threads that run user code, a `Close` on each of them. -/
theorem closes_both (hcalls : s.calls = 0) (hproxies : s.nProxies = 1)
    (hproxy : s.proxies = fun _ => {}) (hrun0 : s.RunsUser 0)
    (hrun1 : s.RunsUser 1) (hqueue0 : (s.pools 0).queue = [])
    (hqueue1 : (s.pools 1).queue = []) : ∃ events s',
      Run (Step 2 fun _ _ => none) s events s' ∧ Deadlocked 2 s' := by
  have hmay : s.MayCall (.isolation 0) := by
    refine ⟨fun c hc => by simp [hcalls] at hc, fun i hi => ?_⟩
    cases hi
    exact hrun0
  -- the thread of instance 0 closes its table, and waits for instance 1
  have h1 := Run.single (@Step.close 2 (fun _ _ => none) s (.isolation 0) 0 hmay
    (by omega) (by rw [hproxy]))
  have h2 := h1.tail (.closeInline rfl (by decide))
  have h3 := h2.tail (.closeSubmit rfl (by decide) (by simp))
  -- the thread of instance 1 waits for instance 0, and closes its table
  have h4 := h3.tail (@Step.close 2 (fun _ _ => none) _ (.isolation 1) 0
    ⟨fun c hc => by simp [State.close, State.closeTable, hcalls] at hc,
      fun i hi => by
        cases hi
        obtain ⟨r, hr, hphase⟩ := hrun1
        exact ⟨r, by simp [State.enqueue, State.close, State.closeTable, hr], hphase⟩⟩
    (by simp [State.enqueue, State.close, State.closeTable, hproxies])
    (by simp [State.enqueue, State.close, State.closeTable, hproxy]))
  have h5 := h4.tail (.closeSubmit rfl (by decide) (by simp))
  have h6 := h5.tail (.closeInline rfl (by decide))
  refine ⟨_, _, h6, {0, 1}, ⟨0, by simp⟩, fun i hi => ?_⟩
  rcases hi with rfl | rfl
  · refine ⟨0, 2, [s.nFutures], .ok (), ?_, Nat.le_refl 2, 1, by simp,
      by simp, { body := .close 0, future := s.nFutures }, ?_, rfl, by simp⟩
    · simp [State.inlineStatus, State.closeStatus, State.close, State.closeTable]
    · simp [State.enqueue, State.close, State.closeTable, hqueue1]
  · refine ⟨0, 2, [s.nFutures + 1], .ok (), ?_, Nat.le_refl 2, 0, by simp,
      by simp, { body := .close 0, future := s.nFutures + 1 }, ?_, rfl, by simp⟩
    · simp [State.inlineStatus, State.closeStatus, State.enqueue, State.close,
        State.closeTable]
    · simp [State.enqueue, State.close, State.closeTable, hqueue0]

/-- Tasks come to run on both of two instances. -/
theorem runs_on_both : ∃ events s, Reaches 2 (fun _ _ => none) events s ∧
    NoReturn events ∧ s.calls = 0 ∧ s.nProxies = 1 ∧
      s.proxies = (fun _ => {}) ∧ (∀ i < 2, s.RunsUser i) ∧
      ∀ i < 2, (s.pools i).queue = [] := by
  obtain ⟨events, s, hs, hno, hcalls, hproxies, hq⟩ :=
    @reaches_proxy 2 (fun _ _ => none) (by decide)
  -- a task on instance 0, which has no load
  obtain ⟨events₁, s₁, hs₁, hno₁, hcalls₁, hproxies₁, hproxy₁, hcurrent₁, hcost₁,
      hother₁, hqueue₁, huser₁⟩ :=
    @runs_on (fun _ _ => none) s 0 0 0 hcalls hproxies hq.proxies
      (by simp [State.scan, State.load, hq.stats, hq.currentTask, State.int64Max])
      (by simp [State.scan, State.load, hq.stats, hq.currentTask])
      (by rw [hq.pools])
  obtain ⟨hpool₁, hstats₁⟩ := hother₁ 1 (by decide)
  rw [hq.stats] at hcost₁ hstats₁
  rw [hq.currentTask] at hcurrent₁
  -- and one on instance 1, which now has less
  obtain ⟨events₂, s₂, hs₂, hno₂, hcalls₂, hproxies₂, hproxy₂, -, -, hother₂,
      hqueue₂, huser₂⟩ :=
    @runs_on (fun _ _ => none) s₁ 1 8 0 hcalls₁ hproxies₁ hproxy₁
      (by simp [State.scan, State.load, hcost₁, hcurrent₁, State.int64Max])
      (by simp [State.scan, State.load, hstats₁, hcurrent₁])
      (by rw [hpool₁, hq.pools])
  obtain ⟨hpool₂, -⟩ := hother₂ 0 (by decide)
  obtain ⟨r, hr, hphase⟩ := huser₁
  refine ⟨_, s₂, (hs.trans hs₁).trans hs₂, (hno.append hno₁).append hno₂,
    hcalls₂, hproxies₂, hproxy₂, fun i hi => ?_, fun i hi => ?_⟩
  · rcases Nat.lt_succ_iff_lt_or_eq.mp hi with hi | rfl
    · obtain rfl := Nat.lt_one_iff.mp hi
      exact ⟨r, hpool₂ ▸ hr, hphase⟩
    · exact huser₂
  · rcases Nat.lt_succ_iff_lt_or_eq.mp hi with hi | rfl
    · obtain rfl := Nat.lt_one_iff.mp hi
      exact hpool₂ ▸ hqueue₁
    · exact hqueue₂

/-- A task that closes the proxy while another one runs on the other
instance is in no deadlock. -/
theorem deadlock_free_sample : ∃ events s,
    Run (AdmittedStep 2 fun _ _ => none) (State.init 2) events s
      ∧ InClose s 0 ∧ ¬ Deadlocked 2 s := by
  obtain ⟨events, s, hs, hno, hcalls, hproxies, hproxy, huser, -⟩ := runs_on_both
  have hnone : ∀ i, ¬ InClose s i := by
    intro i hx
    obtain ⟨p, next, results, status, hc⟩ := hx
    simp [hcalls] at hc
  have hmay : s.MayCall (.isolation 0) := by
    refine ⟨fun c hc => by simp [hcalls] at hc, fun i hi => ?_⟩
    cases hi
    exact huser 0 (by decide)
  have hadmits : ∀ s', Admits 2 s s' := by
    intro s' k _ _ i hneeds
    obtain ⟨p, next, results, status, hc, -⟩ := hneeds
    exact hnone i ⟨p, next, results, status, hc⟩
  have hrun := (admitted_of_noReturn hs hno hnone).tail
    ⟨@Step.close 2 (fun _ _ => none) s (.isolation 0) 0 hmay (by omega)
      (by rw [hproxy]), hadmits _⟩
  exact ⟨_, _, hrun, ⟨0, 0, [], .ok (), Multiset.mem_cons_self _ _⟩,
    deadlock_free hrun⟩

/-- Two tasks that close the proxy from the threads of its two instances
wait for each other. -/
theorem close_deadlocks : ∃ events s,
    Reaches 2 (fun _ _ => none) events s ∧ Deadlocked 2 s := by
  obtain ⟨events, s, hs, -, hcalls, hproxies, hproxy, huser, hqueue⟩ :=
    runs_on_both
  obtain ⟨events', s', hs', hdeadlock⟩ := closes_both hcalls hproxies hproxy
    (huser 0 (by decide)) (huser 1 (by decide)) (hqueue 0 (by decide))
    (hqueue 1 (by decide))
  exact ⟨_, s', hs.trans hs', hdeadlock⟩

end Arcae
