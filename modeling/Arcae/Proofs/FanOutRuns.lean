/-
A read that is spread over two instances can be completed.

Nothing in a read waits for anything but a thread: from a proxy that is at
rest, a functor can be submitted, called, carried through its actions and
finished, and the proxy is at rest again (`Resting.serves`). Doing this
for one group after the other completes any read (`exists_completed`). The
threads are free to do otherwise; this is the one run that is needed to
know that there is one.
-/
import Arcae.Model.FanOut
import Arcae.Proofs.Draining

namespace Arcae

open Lts

variable {α : Type} {n : Nat} {throws : Nat → Nat → Option String}
  {s s' : State} {events : List Event} {left : Nat → List (Action α)}
  {buffer : Memory α} {ioBytes : Nat → Nat}

/-- Where every future that was made has nothing left, anything is
permitted. -/
theorem permits_of_fresh (h : Ordered s) (hleft : ∀ f < s.nFutures, left f = []) :
    FanOut.Permits left s where
  returned i r hr _ := hleft _ (h.fresh i r.task (mem_tasks hr))
  queued i task htask hne :=
    absurd (hleft _ (h.fresh i task (List.mem_append_right _ htask))) hne

/-- A run of the pools is one of a read whose functors are all done or
still to come. -/
theorem fanOut_of_run (hrun : Run (Step n throws) s events s') (h : Ordered s)
    (hleft : ∀ f < s'.nFutures, left f = []) :
    Run (FanOutStep n throws) ⟨s, buffer, ioBytes, left⟩ (events.map some)
      ⟨s', buffer, ioBytes, left⟩ := by
  have hordered : Ordered s' :=
    Run.invariant Ordered (fun ht hstep => ht.step hstep) hrun h
  induction hrun with
  | refl => exact .refl
  | @tail events t u e hinit hstep ih =>
      rw [List.map_append]
      have ht : Ordered t :=
        Run.invariant Ordered (fun ht hstep => ht.step hstep) hinit h
      refine (ih (fun f hf => hleft f ?_) ht).tail
        (.pools hstep (permits_of_fresh hordered hleft))
      exact Nat.lt_of_lt_of_le hf hstep.nFutures_le

/-- Where only the thread of pool `i` has anything to do, and its functor
has not returned. -/
theorem permits_alone {i : Nat} {pool : Pool}
    (hpools : s.pools = Function.update (fun _ => {}) i pool)
    (hrunning : ∀ r, pool.running = some r → r.phase ≠ .leaving (.ok ()))
    (hqueue : ∀ task ∈ pool.queue, ∃ p, task.body = .functor p) :
    FanOut.Permits left s := by
  constructor
  · intro j r hr hphase
    rw [hpools] at hr
    by_cases hj : j = i
    · subst hj
      rw [Function.update_self] at hr
      exact absurd hphase (hrunning r hr)
    · rw [Function.update_of_ne hj] at hr
      cases hr
  · intro j task htask _
    rw [hpools] at htask
    by_cases hj : j = i
    · subst hj
      rw [Function.update_self] at htask
      exact hqueue task htask
    · rw [Function.update_of_ne hj] at htask
      cases htask

/-- A proxy of which nothing is asked. -/
structure Resting (s : State) : Prop where
  calls : s.calls = 0
  nProxies : s.nProxies = 1
  proxies : s.proxies = fun _ => {}
  pools : s.pools = fun _ => {}
  currentTask : s.currentTask = fun _ => {}
  loads : ∀ i, (s.stats i).outstandingCost = 0

/-- The next task of such a proxy, of a cost of 8 bytes. -/
def State.nextTask (s : State) : Task :=
  { body := .functor 0, submission := ⟨0, some 0, 8⟩, future := s.nFutures }

/-- The functor of that task runs on the first instance, and nothing else
goes on. -/
structure Serving (s s₁ : State) : Prop where
  calls : s₁.calls = 0
  nProxies : s₁.nProxies = 1
  proxies : s₁.proxies = fun _ => {}
  pools : s₁.pools = Function.update (fun _ => {}) 0
    { queue := [], running := some ⟨s.nextTask, {}, .inside⟩ }
  currentTask : s₁.currentTask
    = Function.update (fun _ => {}) (.isolation 0) ⟨some 0, 8⟩
  futures : s₁.futures = s.futures
  nFutures : s₁.nFutures = s.nFutures + 1
  loads : ∀ i, (s₁.stats i).outstandingCost = if i = 0 then 8 else 0

/-- A functor is submitted and called, on the first of two instances. -/
theorem Resting.calls_functor (h : Resting s) : ∃ events s₁,
    Run (FanOutStep 2 throws) ⟨s, buffer, ioBytes, left⟩ events
        ⟨s₁, buffer, ioBytes, left⟩
      ∧ Serving s s₁ := by
  have hmay : s.MayCall (.outside 0) :=
    ⟨fun c hc => by simp [h.calls] at hc, fun i hi => by cases hi⟩
  have hopen : s.checkClosed 0 = .ok () := by simp [State.checkClosed, h.proxies]
  have hrest : ∀ t : State, t.pools = (fun _ => {}) → FanOut.Permits left t :=
    fun t ht => @permits_alone _ t left 0 {} (by rw [ht]; simp)
      (fun r hr => by cases hr) (fun task htask => by cases htask)
  have hfirst : s.scan (.outside 0) 0 8 false 0 0 State.int64Max
      = .scanning 0 8 false 1 0 0 := by
    simp [State.scan, State.load, h.currentTask, h.loads, State.int64Max]
  have hsecond : s.scan (.outside 0) 0 8 false 1 0 0
      = .scanning 0 8 false 2 0 0 := by
    simp [State.scan, State.load, h.currentTask, h.loads]
  have h1 := Run.single (@FanOutStep.pools α 2 throws
    ⟨s, buffer, ioBytes, left⟩ _ _
    (@Step.run 2 throws s (.outside 0) 0 8 false hmay
      (h.nProxies ▸ Nat.one_pos) hopen) (hrest _ h.pools))
  have h2 := h1.tail (.pools (.scan rfl (by decide)) (hrest _ h.pools))
  have h3 := h2.tail (.pools
    (.scan (congrArg (fun c => (Thread.outside 0, c) ::ₘ s.calls) hfirst)
      (by decide)) (hrest _ h.pools))
  have h4 := h3.tail (.pools
    (.reserve (congrArg (fun c => (Thread.outside 0, c) ::ₘ s.calls) hsecond)
      (Nat.le_refl 2)) (hrest _ h.pools))
  have h5 := h4.tail (.pools (.count rfl) (hrest _ h.pools))
  have h6 := h5.tail (.pools (.submit rfl) (@permits_alone _ _ left 0
    { queue := [s.nextTask], running := none }
    (by simp [State.submit, State.enqueue, State.count, State.reserve,
      State.setStats, h.pools, State.nextTask])
    (fun r hr => by cases hr)
    (fun task htask => ⟨0, by rw [List.mem_singleton.mp htask]; rfl⟩)))
  have h7 := h6.tail (.pools (@Step.start 2 throws _ 0 s.nextTask []
    (by simp [State.submit, State.enqueue, State.count, State.reserve,
      State.setStats, h.pools])
    (by simp [State.submit, State.enqueue, State.count, State.reserve,
      State.setStats, h.pools, State.nextTask]))
    (@permits_alone _ _ left 0
      { queue := [], running := some ⟨s.nextTask, {}, .entered⟩ }
      (by simp [State.start, State.submit, State.enqueue, State.count,
        State.reserve, State.setStats, h.pools, h.currentTask])
      (fun r hr => by cases hr; simp) (fun task htask => by cases htask)))
  have h8 := h7.tail (.pools (@Step.check 2 throws _ 0 0
    ⟨s.nextTask, {}, .entered⟩
    (by simp [State.start, State.submit, State.enqueue, State.count,
      State.reserve, State.setStats, h.currentTask]) rfl rfl)
    (@permits_alone _ _ left 0
      { queue := [], running := some ⟨s.nextTask, {}, .checked⟩ }
      (by simp [State.setRunning, State.check, State.start, State.submit,
        State.enqueue, State.count, State.reserve, State.setStats, h.pools,
        h.proxies])
      (fun r hr => by cases hr; simp) (fun task htask => by cases htask)))
  have h9 := h8.tail (.pools (@Step.invoke 2 throws _ 0 0
    ⟨s.nextTask, {}, .checked⟩
    (by simp [State.setRunning, State.check, State.start, State.submit,
      State.enqueue, State.count, State.reserve, State.setStats, h.proxies])
    rfl rfl)
    (@permits_alone _ _ left 0
      { queue := [], running := some ⟨s.nextTask, {}, .inside⟩ }
      (by simp [State.setRunning, State.start, State.submit, State.enqueue,
        State.count, State.reserve, State.setStats, h.pools])
      (fun r hr => by cases hr; simp) (fun task htask => by cases htask)))
  refine ⟨_, _, h9, h.calls, h.nProxies, h.proxies, ?_, ?_, rfl, rfl, fun i => ?_⟩
  · simp [State.setRunning, State.start, State.submit, State.enqueue,
      State.count, State.reserve, State.setStats, h.pools]
  · simp [State.setRunning, State.start, State.submit, State.enqueue,
      State.count, State.reserve, State.setStats, h.currentTask, State.nextTask]
  · by_cases hi : i = 0
    · subst hi
      simp [State.setRunning, State.start, State.submit, State.enqueue,
        State.count, State.reserve, State.setStats, h.loads]
    · simp [State.setRunning, State.start, State.submit, State.enqueue,
        State.count, State.reserve, State.setStats, h.loads, hi]

/-- The functor does all it has left, if none of it is a failure. -/
theorem Serving.acts {s₁ : State} (h : Serving s s₁) :
    ∀ (actions : List (Action α)) (buffer : Memory α) (ioBytes : Nat → Nat)
      (left : Nat → List (Action α)), left s.nFutures = actions →
      (∀ action ∈ actions, action.goesOn = true) →
      ∃ events buffer' ioBytes',
        Run (FanOutStep 2 throws) ⟨s₁, buffer, ioBytes, left⟩ events
          ⟨s₁, buffer', ioBytes', Function.update left s.nFutures []⟩ := by
  intro actions
  induction actions with
  | nil =>
      intro buffer ioBytes left hleft _
      refine ⟨[], buffer, ioBytes, ?_⟩
      rw [← hleft, Function.update_eq_self]
      exact .refl
  | cons action rest ih =>
      intro buffer ioBytes left hleft hgoes
      obtain ⟨hgo, hrest⟩ := List.forall_mem_cons.mp hgoes
      have hrunning : (s₁.pools 0).running = some ⟨s.nextTask, {}, .inside⟩ := by
        rw [h.pools, Function.update_self]
      have hact := @FanOutStep.act _ 2 throws ⟨s₁, buffer, ioBytes, left⟩ 0 _
        action rest hrunning rfl hleft hgo
      obtain ⟨buffer₁, ioBytes₁, hstate⟩ : ∃ buffer₁ ioBytes₁,
          (FanOut.act ⟨s₁, buffer, ioBytes, left⟩ 0 action).goesOn s.nFutures rest
            = ⟨s₁, buffer₁, ioBytes₁, Function.update left s.nFutures rest⟩ := by
        cases action with
        | store address value => exact ⟨_, _, rfl⟩
        | record nbytes =>
            refine ⟨buffer, Function.update ioBytes 0 (ioBytes 0 + nbytes), ?_⟩
            simp [FanOut.act, FanOut.recordIoBytes, FanOut.goesOn, h.currentTask]
        | fail status => cases hgo
      obtain ⟨events, buffer₂, ioBytes₂, hrun⟩ := ih buffer₁ ioBytes₁
        (Function.update left s.nFutures rest) (Function.update_self ..) hrest
      rw [Function.update_idem] at hrun
      exact ⟨_, buffer₂, ioBytes₂, (Run.single (hstate ▸ hact)).trans hrun⟩

/-- It returns, and the proxy is at rest again. -/
theorem Serving.finishes {s₁ : State} (h : Serving s s₁) : ∃ events s₂,
    Run (Step 2 throws) s₁ events s₂ ∧ Resting s₂
      ∧ s₂.nFutures = s.nFutures + 1
      ∧ s₂.futures = Function.update s.futures s.nFutures (some (.ok ())) := by
  have h1 := Run.single (@Step.ends 2 throws s₁ 0 ⟨s.nextTask, {}, .inside⟩
    .returned (by rw [h.pools, Function.update_self]) rfl
    fun c hc => by simp [h.calls] at hc)
  have h2 := h1.tail (@Step.leaveScope 2 throws _ 0
    ⟨s.nextTask, {}, .leaving (.ok ())⟩ (.ok ())
    (by simp [State.setRunning, Ending.status]) rfl)
  have h3 := h2.tail (@Step.complete 2 throws _ 0
    ⟨s.nextTask, {}, .released (.ok ())⟩ (.ok ())
    (by simp [State.leaveScope, State.nextTask, State.setStats,
      State.setRunning]) rfl)
  have h4 := h3.tail (@Step.idle 2 throws _ 0 ⟨s.nextTask, {}, .finished⟩
    (by simp [State.complete, State.nextTask, State.setStats,
      State.finishFuture, State.setRunning]) rfl
    fun c hc => by
      simp [State.complete, State.nextTask, State.setStats, State.finishFuture,
        State.leaveScope, State.setRunning, h.calls] at hc)
  refine ⟨_, _, h4, ⟨h.calls, h.nProxies, h.proxies, ?_, ?_, fun i => ?_⟩,
    h.nFutures, ?_⟩
  · funext i
    simp [State.complete, State.nextTask, State.setStats, State.finishFuture,
      State.leaveScope, State.setRunning, h.pools]
  · simp [State.complete, State.nextTask, State.setStats, State.finishFuture,
      State.leaveScope, State.setRunning, h.currentTask]
  · by_cases hi : i = 0
    · subst hi
      simp [State.complete, State.nextTask, State.setStats, State.finishFuture,
        State.leaveScope, State.setRunning, h.loads]
    · simp [State.complete, State.nextTask, State.setStats, State.finishFuture,
        State.leaveScope, State.setRunning, h.loads, hi]
  · simp [State.complete, State.nextTask, State.setStats, State.finishFuture,
      State.leaveScope, State.setRunning, h.futures]

/-- A functor of a read, from its submission to its end. -/
theorem Resting.serves (h : Resting s) (hordered : Ordered s)
    (hleft : ∀ f < s.nFutures, left f = [])
    (hgoes : ∀ action ∈ left s.nFutures, action.goesOn = true) : ∃ events s₂ buffer' ioBytes',
      Run (FanOutStep 2 throws) ⟨s, buffer, ioBytes, left⟩ events
          ⟨s₂, buffer', ioBytes', Function.update left s.nFutures []⟩
        ∧ Resting s₂ ∧ Ordered s₂ ∧ s₂.nFutures = s.nFutures + 1
        ∧ s₂.futures = Function.update s.futures s.nFutures (some (.ok ())) := by
  obtain ⟨events₁, s₁, hrun₁, hserving⟩ :=
    @Resting.calls_functor α throws s left buffer ioBytes h
  obtain ⟨events₂, buffer', ioBytes', hrun₂⟩ :=
    hserving.acts _ buffer ioBytes left rfl hgoes
  obtain ⟨events₃, s₂, hrun₃, hresting, hnew, hfutures⟩ :=
    @Serving.finishes throws s s₁ hserving
  have hordered₁ : Ordered s₁ :=
    Run.invariant (fun x : FanOut α => Ordered x.state)
      (fun hx hstep => by
        cases hstep with
        | pools hs _ => exact hx.step hs
        | act => exact (FanOut.act_state ..).symm ▸ hx)
      hrun₁ hordered
  have hordered₂ : Ordered s₂ :=
    Run.invariant Ordered (fun ht hstep => ht.step hstep) hrun₃ hordered₁
  have hlifted := @fanOut_of_run α 2 throws s₁ s₂ events₃
    (Function.update left s.nFutures []) buffer' ioBytes' hrun₃ hordered₁
    fun f hf => by
      rcases Nat.lt_succ_iff_lt_or_eq.mp (hnew ▸ hf) with hlt | rfl
      · rw [Function.update_of_ne (Nat.ne_of_lt hlt)]
        exact hleft f hlt
      · exact Function.update_self ..
  exact ⟨_, s₂, buffer', ioBytes', (hrun₁.trans hrun₂).trans hlifted, hresting,
    hordered₂, hnew, hfutures⟩

/-- Any read can be completed whose functors do not fail, one after the
other. -/
theorem exists_completed (mem : Memory α) (programs : List (List (Action α)))
    (hgoes : ∀ program ∈ programs, ∀ action ∈ program,
      action.goesOn = true) : ∃ futures : List Nat,
      futures.Nodup ∧ futures.length = programs.length ∧ ∃ events x,
        Run (FanOutStep 2 fun _ _ => none)
            (FanOut.start 2 mem futures programs) events x
          ∧ ∀ f ∈ futures, x.state.futures f = some (.ok ()) := by
  obtain ⟨made, s, hs, -, hcalls, hproxies, hq⟩ :=
    @reaches_proxy 2 (fun _ _ => none) (by decide)
  set futures := List.range' s.nFutures programs.length with hfutures
  have hbounds : ∀ f ∈ futures,
      s.nFutures ≤ f ∧ f < s.nFutures + programs.length :=
    fun f hf => List.mem_range'_1.mp hf
  have hresting : Resting s :=
    ⟨hcalls, hproxies, hq.proxies, hq.pools, hq.currentTask,
      fun i => by rw [hq.stats]⟩
  -- the first `j` functors have been served
  have key : ∀ j, ∃ events t buffer ioBytes left,
      Run (FanOutStep 2 fun _ _ => none) (FanOut.start 2 mem futures programs)
          events ⟨t, buffer, ioBytes, left⟩
        ∧ Resting t ∧ Ordered t ∧ t.nFutures = s.nFutures + j
        ∧ (∀ f < t.nFutures, left f = [])
        ∧ (∀ f, ∀ action ∈ left f, action.goesOn = true)
        ∧ ∀ f, s.nFutures ≤ f → f < t.nFutures →
            t.futures f = some (.ok ()) := by
    intro j
    induction j with
    | zero =>
        have hordered := (reaches_called hs).1
        have hleft : ∀ f < s.nFutures,
            (FanOut.start 2 mem futures programs).left f = [] :=
          fun f hf => FanOut.start_left_nil fun hmem =>
            absurd (hbounds f hmem).1 (Nat.not_le_of_lt hf)
        refine ⟨_, s, mem, fun _ => 0, _, fanOut_of_run hs (Ordered.init 2) hleft,
          hresting, hordered, rfl, hleft, fun f action haction => ?_,
          fun f hle hlt => by omega⟩
        -- a functor has a program left, or nothing
        have hlookup : action ∈ ((futures.zip programs).lookup f).getD [] := haction
        cases hfound : (futures.zip programs).lookup f with
        | none =>
            rw [hfound] at hlookup
            cases hlookup
        | some program =>
            rw [hfound] at hlookup
            obtain ⟨before, after, hzip, -⟩ := List.lookup_eq_some_iff.mp hfound
            have hmem : (f, program) ∈ futures.zip programs := by
              rw [hzip]
              exact List.mem_append_right _ List.mem_cons_self
            exact hgoes program (List.of_mem_zip hmem).2 action hlookup
    | succ j ih =>
        obtain ⟨events, t, buffer, ioBytes, left, hrun, ht, hordered, hmade,
          hleft, hgo, hdone⟩ := ih
        obtain ⟨events', t', buffer', ioBytes', hrun', ht', hordered', hmade',
          hfutures'⟩ := @Resting.serves α (fun _ _ => none) t left buffer ioBytes
            ht hordered hleft (hgo _)
        refine ⟨_, t', buffer', ioBytes', _, hrun.trans hrun', ht', hordered',
          by omega, fun f hf => ?_, fun f action haction => ?_,
          fun f hle hf => ?_⟩
        · rcases Nat.lt_succ_iff_lt_or_eq.mp (hmade' ▸ hf) with hlt | rfl
          · rw [Function.update_of_ne (Nat.ne_of_lt hlt)]
            exact hleft f hlt
          · exact Function.update_self ..
        · by_cases hf : f = t.nFutures
          · rw [hf, Function.update_self] at haction
            cases haction
          · rw [Function.update_of_ne hf] at haction
            exact hgo f action haction
        · rw [hfutures']
          rcases Nat.lt_succ_iff_lt_or_eq.mp (hmade' ▸ hf) with hlt | rfl
          · rw [Function.update_of_ne (Nat.ne_of_lt hlt)]
            exact hdone f hle hlt
          · exact Function.update_self ..
  obtain ⟨events, t, buffer, ioBytes, left, hrun, -, -, hmade, -, -, hdone⟩ :=
    key programs.length
  refine ⟨futures, List.nodup_range', List.length_range', events, _, hrun,
    fun f hf => ?_⟩
  have := hbounds f hf
  exact hdone f this.1 (by omega)

end Arcae
