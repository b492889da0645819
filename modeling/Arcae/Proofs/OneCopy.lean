/-
All instances of a table stand for one, and it answers everything in the
order of submission.

The instances do not know of each other: a change of one table is not seen
through another. What keeps them alike is that a method which changes a
table refuses to with several instances (`Request.accept`). So either no
functor changes anything, or there is one instance; in both cases the
instances stay what one table is that has been asked the same
(`serve_agrees`). `Spawn` asks nothing of the kind, and the runs here are
those without one (`UnspawnedStep`); the functors called are then all of
the one proxy that `Make` made (`callsOf_proxy`).

With one instance, the order in which functors are called is that in which
they were submitted, for its pool is a queue (`Served`); and with several,
nothing depends on the order (`Copy.after_perm`). So what a caller is told
is what one table would have told it, had it been asked everything in the
order of submission, whatever the threads have interleaved
(`one_copy_in_order`).
-/
import Arcae.Model.TableCalls
import Arcae.Proofs.Serial
import Arcae.Proofs.RowCount

namespace Arcae

open Lts

variable {σ : Type} {n : Nat} {throws : Nat → Nat → Option String}
  {s s' : State} {e : Event} {events : List Event} {log : List (Nat × Task)}
  {casa : TableOps σ} {requests : Nat → Request σ}

-- ============================================================= functors

/-- What is accepted with several instances changes no table. -/
theorem call_of_several {request : Request σ}
    (haccept : request.accept n = .ok ()) (hn : n ≠ 1) (tp : σ) :
    ((casa.functor request).call tp).2 = tp := by
  have hrefused : (Request.accept.safeMultithreadedWrites n) ≠ .ok () := by
    intro hok
    simp only [Request.accept.safeMultithreadedWrites,
      NewTableProxy.safeMultithreadedWrites, if_neg hn] at hok
    cases hok
  cases request with
  | putColumn | putKeywords | removeKeyword | addRows | addColumns =>
      exact absurd haccept hrefused
  | _ => rfl

/-- The tables of the instances are all the one table, and have answered
alike. -/
structure Agrees (n : Nat) (x : Instances σ) (copy : Copy σ) : Prop where
  table : ∀ i < n, x.table i = copy.table
  answers : x.answers = copy.answers

/-- A call of a functor is a question to the one table. -/
theorem serve_agrees {x : Instances σ} {copy : Copy σ} {call : Nat × Task}
    (h : Agrees n x copy) (hi : call.1 < n)
    (haccept : (requests call.2.future).accept n = .ok ()) :
    Agrees n (x.serve casa requests call)
      (copy.serve casa requests call.2.future) := by
  have hsame := h.table call.1 hi
  unfold Instances.serve
  dsimp only
  rw [hsame, h.answers]
  refine ⟨fun j hj => ?_, rfl⟩
  by_cases hj' : j = call.1
  · rw [hj']
    exact Function.update_self ..
  · -- another instance, so that nothing has changed
    show Function.update x.table call.1 _ j = _
    rw [Function.update_of_ne hj', h.table j hj]
    exact (call_of_several haccept (by omega) copy.table).symm

theorem foldl_agrees {run : List (Nat × Task)} {x : Instances σ}
    {copy : Copy σ} (h : Agrees n x copy) (hplace : ∀ call ∈ run, call.1 < n)
    (haccept : ∀ future, (requests future).accept n = .ok ()) :
    Agrees n (run.foldl (Instances.serve casa requests) x)
      ((run.map fun call => call.2.future).foldl (Copy.serve casa requests)
        copy) := by
  induction run generalizing x copy with
  | nil => exact h
  | cons call run ih =>
      exact ih (serve_agrees h (hplace call List.mem_cons_self) (haccept _))
        fun call' hcall' => hplace call' (List.mem_cons_of_mem _ hcall')

-- ============================================================ the order

/-- Where no functor changes the table, each is told the same at any
time. -/
theorem Copy.foldl_told {tp : σ}
    (hsame : ∀ future, ((casa.functor (requests future)).call tp).2 = tp) :
    ∀ (futures : List Nat) (answers : List (Nat × Result Answer)),
      futures.foldl (Copy.serve casa requests) ⟨tp, answers⟩
        = ⟨tp, answers ++ futures.map fun future =>
            (future, ((casa.functor (requests future)).call tp).1)⟩ := by
  intro futures
  induction futures with
  | nil => exact fun answers => by rw [List.map_nil, List.append_nil]; rfl
  | cons future futures ih =>
      intro answers
      have hserve : Copy.serve casa requests ⟨tp, answers⟩ future
          = ⟨tp, answers
              ++ [(future, ((casa.functor (requests future)).call tp).1)]⟩ := by
        show Copy.mk ((casa.functor (requests future)).call tp).2 _ = _
        rw [hsame]
      rw [List.foldl_cons, hserve, ih, List.append_assoc]
      rfl

/-- Where no functor changes the table, the order is of no account. -/
theorem Copy.after_perm {tp : σ} {futures futures' : List Nat}
    (hsame : ∀ future, ((casa.functor (requests future)).call tp).2 = tp)
    (hperm : futures.Perm futures') :
    (Copy.after casa requests tp futures).table
        = (Copy.after casa requests tp futures').table
      ∧ (Copy.after casa requests tp futures).answers.Perm
          (Copy.after casa requests tp futures').answers := by
  unfold Copy.after
  rw [Copy.foldl_told hsame, Copy.foldl_told hsame]
  exact ⟨rfl, hperm.map _⟩

-- ============================================================= the calls

/-- The calls of functors on one instance. -/
theorem calledOn_eq (i : Nat) (events : List Event) : calledOn i events
    = ((callsOf events).filter fun call => call.1 == i).map Prod.snd := by
  induction events with
  | nil => rfl
  | cons e events ih =>
      cases e with
      | invoke j task =>
          have hcalls : callsOf (.invoke j task :: events)
              = (j, task) :: callsOf events := rfl
          rw [hcalls, calledOn, List.filterMap_cons, Event.invokedOn]
          by_cases hj : j = i
          · rw [if_pos hj, List.filter_cons_of_pos (by simpa using hj),
              List.map_cons, ← ih]
            rfl
          · rw [if_neg hj, List.filter_cons_of_neg (by simpa using hj), ← ih]
            rfl
      | _ => exact ih

/-- Functors are called on instances. -/
theorem callsOf_lt (hn : 1 ≤ n) (h : Reaches n throws events s) :
    ∀ call ∈ callsOf events, call.1 < n := by
  have hhistory := Run.history
    (fun events s => Steady n s ∧ ∀ call ∈ callsOf events, call.1 < n)
    (fun {events s e s'} hx hstep => by
      obtain ⟨hsteady, hplace⟩ := hx
      refine ⟨hsteady.step hn hstep, fun call hcall => ?_⟩
      rw [callsOf, List.filterMap_append] at hcall
      rcases List.mem_append.mp hcall with hcall | hcall
      · exact hplace call hcall
      · cases e with
        | invoke i task =>
            rw [List.mem_singleton.mp hcall]
            obtain ⟨⟨r, hr, -, -⟩, -⟩ := hstep.invoked
            by_contra hle
            have hempty := hsteady.pools i (Nat.not_lt.mp hle)
            rw [Pool.tasks, hr] at hempty
            cases hempty
        | _ => cases hcall)
    h ⟨Steady.init n, fun call hcall => absurd hcall List.not_mem_nil⟩
  exact hhistory.2

/-- What is called is in the log. -/
theorem Kept.mem_log (h : Kept n events s log) {call : Nat × Task}
    (hcall : call ∈ callsOf events) : call ∈ log := by
  obtain ⟨served, hserved⟩ := h.served call.1
  have hcalled : call.2 ∈ calledOn call.1 events := by
    rw [calledOn_eq]
    exact List.mem_map_of_mem (List.mem_filter.mpr ⟨hcall, beq_self_eq_true _⟩)
  have hlog : call.2 ∈ functorsOn call.1 log := by
    rw [hserved.split]
    exact List.mem_append_left _ (hserved.order.subset hcalled)
  obtain ⟨entry, hentry, heq⟩ := List.mem_map.mp hlog
  obtain ⟨hentry, hpool⟩ := List.mem_filter.mp hentry
  rw [Bool.and_eq_true, beq_iff_eq] at hpool
  rwa [← Prod.ext hpool.1 heq]

/-- A list without repetitions among those of any one key has none. -/
theorem nodup_of_keys {α : Type} {l : List (Nat × α)}
    (h : ∀ i, ((l.filter fun x => x.1 == i).map Prod.snd).Nodup) : l.Nodup := by
  induction l with
  | nil => exact .nil
  | cons x l ih =>
      rw [List.nodup_cons]
      constructor
      · intro hx
        have hkey := h x.1
        rw [List.filter_cons_of_pos (by simp), List.map_cons,
          List.nodup_cons] at hkey
        exact hkey.1 (List.mem_map_of_mem
          (List.mem_filter.mpr ⟨hx, beq_self_eq_true _⟩))
      · refine ih fun i => (h i).sublist (List.Sublist.map _ ?_)
        exact (List.sublist_cons_self x l).filter _

/-- The tasks of the log, with no future twice. -/
theorem Numbered.futures_nodup (h : Numbered s log) :
    ((log.map Prod.snd).map Task.future).Nodup := by
  rw [List.map_map]
  exact h.symm ▸ List.nodup_range

/-- No functor is called twice. -/
theorem Kept.calls_nodup (h : Kept n events s log) :
    ((callsOf events).map Prod.snd).Nodup := by
  have hcalls : (callsOf events).Nodup := by
    refine nodup_of_keys fun i => ?_
    rw [← calledOn_eq]
    obtain ⟨served, hserved⟩ := h.served i
    have hfunctors := h.numbered.nodup i
    rw [hserved.split] at hfunctors
    exact (List.nodup_append.mp hfunctors).1.sublist hserved.order
  refine hcalls.map_on fun call hcall call' hcall' heq => ?_
  have hlog : (log.map fun entry => entry.2.future).Nodup :=
    h.numbered.symm ▸ List.nodup_range
  exact List.inj_on_of_nodup_map hlog (h.mem_log hcall) (h.mem_log hcall')
    (congrArg Task.future heq)

/-- The tasks whose functors have been called, in the order of their
submission. -/
def servedOrder (events : List Event) (log : List (Nat × Task)) : List Task :=
  (log.map Prod.snd).filter fun task =>
    decide (task.future ∈ (callsOf events).map fun call => call.2.future)

/-- They are those that were called, in whatever order. -/
theorem Kept.servedOrder_perm (h : Kept n events s log) :
    ((callsOf events).map Prod.snd).Perm (servedOrder events log) := by
  have hlog : (log.map Prod.snd).Nodup :=
    List.Nodup.of_map _ h.numbered.futures_nodup
  refine (List.perm_ext_iff_of_nodup h.calls_nodup
    (hlog.sublist List.filter_sublist)).mpr fun task => ?_
  constructor
  · intro htask
    obtain ⟨call, hcall, rfl⟩ := List.mem_map.mp htask
    exact List.mem_filter.mpr ⟨List.mem_map_of_mem (h.mem_log hcall),
      decide_eq_true (List.mem_map_of_mem hcall)⟩
  · intro htask
    obtain ⟨hmem, hfuture⟩ := List.mem_filter.mp htask
    obtain ⟨call, hcall, heq⟩ := List.mem_map.mp (of_decide_eq_true hfuture)
    rw [← List.inj_on_of_nodup_map h.numbered.futures_nodup
      (List.mem_map_of_mem (h.mem_log hcall)) hmem heq]
    exact List.mem_map_of_mem hcall

/-- With one instance, they were called in that order. -/
theorem Kept.servedOrder_eq (h : Kept n events s log)
    (hplace : ∀ call ∈ callsOf events, call.1 = 0) :
    (callsOf events).map Prod.snd = servedOrder events log := by
  refine List.Sublist.eq_of_length ?_ h.servedOrder_perm.length_eq
  have hcalled : (callsOf events).map Prod.snd = calledOn 0 events := by
    rw [calledOn_eq, List.filter_eq_self.mpr fun call hcall => by
      rw [hplace call hcall]; rfl]
  obtain ⟨served, hserved⟩ := h.served 0
  have hfunctors : (functorsOn 0 log).Sublist (log.map Prod.snd) :=
    List.filter_sublist.map Prod.snd
  have hlog : ((callsOf events).map Prod.snd).Sublist (log.map Prod.snd) := by
    rw [hcalled]
    refine (hserved.order.trans ?_).trans hfunctors
    rw [hserved.split]
    exact List.sublist_append_left _ _
  have hself : ((callsOf events).map Prod.snd).filter (fun task =>
      decide (task.future ∈ (callsOf events).map fun call => call.2.future))
      = (callsOf events).map Prod.snd := by
    refine List.filter_eq_self.mpr fun task htask => ?_
    obtain ⟨call, hcall, rfl⟩ := List.mem_map.mp htask
    exact decide_eq_true (List.mem_map_of_mem hcall)
  rw [← hself]
  exact hlog.filter _

-- ========================================================= one proxy only

/-- The proxies that a call will make: one, in `Make` and `Spawn`. -/
def Call.makes : Call → Nat
  | .constructing .. => 1
  | _ => 0

/-- The proxies that some calls will make. -/
def makers (calls : Calls) : Nat := (calls.map fun call => call.2.makes).sum

@[simp] theorem makers_cons (call : Thread × Call) (calls : Calls) :
    makers (call ::ₘ calls) = call.2.makes + makers calls := by
  rw [makers, Multiset.map_cons, Multiset.sum_cons]
  rfl

/-- Without a `Spawn`, no step begins to make a proxy. -/
theorem UnspawnedStep.makers_le (h : UnspawnedStep n throws s e s') :
    s'.nProxies + makers s'.calls ≤ s.nProxies + makers s.calls := by
  obtain ⟨hs, hno⟩ := h
  cases hs with
  | @spawn th p => exact absurd rfl (hno th)
  | run | close =>
      rw [makers_cons]
      exact Nat.le_of_eq (congrArg _ (Nat.zero_add _))
  | scan hcalls =>
      rw [hcalls, makers_cons, makers_cons]
      unfold State.scan
      split <;> exact Nat.le_refl _
  | reserve hcalls | count hcalls | closeSubmit hcalls | constructSubmit hcalls =>
      rw [hcalls, makers_cons, makers_cons]
      exact Nat.le_refl _
  | wake hcalls | closeReturn hcalls =>
      rw [hcalls, makers_cons]
      exact Nat.add_le_add_left (Nat.le_add_left _ _) _
  | closeInline hcalls =>
      rw [hcalls, makers_cons, makers_cons]
      unfold State.close
      split <;> exact Nat.le_refl _
  | newProxy hcalls =>
      rw [hcalls, makers_cons]
      exact Nat.le_of_eq (Nat.add_assoc _ 1 _)
  | @submit th p submission sync rest hcalls =>
      rw [hcalls, makers_cons]
      cases sync with
      | true => exact Nat.le_of_eq (congrArg _ (makers_cons _ _))
      | false => exact Nat.add_le_add_left (Nat.le_add_left _ _) _
  | @constructed th next future rest hcalls =>
      rw [hcalls, makers_cons]
      unfold State.constructed
      split
      · exact Nat.le_of_eq (congrArg _ (makers_cons _ _))
      · exact Nat.add_le_add_left (Nat.le_add_left _ _) _
  | leaveScope =>
      unfold State.leaveScope
      split <;> exact Nat.le_refl _
  | complete =>
      unfold State.complete
      split <;> exact Nat.le_refl _
  | closeTask =>
      unfold State.close
      split <;> exact Nat.le_refl _
  | _ => exact Nat.le_refl _

theorem makers_init (n : Nat) :
    (State.init n).nProxies + makers (State.init n).calls ≤ 1 := by
  unfold State.init
  dsimp only
  split
  · exact Nat.le_refl 1
  · exact Nat.zero_le 1

/-- Every functor that is called is one of the proxy that was made. -/
theorem callsOf_proxy (hn : 1 ≤ n)
    (h : Run (UnspawnedStep n throws) (State.init n) events s) :
    ∀ call ∈ callsOf events, call.2.body = .functor 0 := by
  have hhistory := Run.history
    (fun events s => Steady n s ∧ s.nProxies + makers s.calls ≤ 1
      ∧ ∀ call ∈ callsOf events, call.2.body = .functor 0)
    (fun {events s e s'} hx hstep => by
      obtain ⟨hsteady, hone, hcalled⟩ := hx
      refine ⟨hsteady.step hn hstep.1, hstep.makers_le.trans hone,
        fun call hcall => ?_⟩
      rw [callsOf, List.filterMap_append] at hcall
      rcases List.mem_append.mp hcall with hcall | hcall
      · exact hcalled call hcall
      · cases e with
        | invoke i task =>
            rw [List.mem_singleton.mp hcall]
            obtain ⟨⟨r, hr, rfl, hphase⟩, -⟩ := hstep.1.invoked
            obtain ⟨p, hbody⟩ := hsteady.checked i r hr hphase
            have hp := hsteady.proxies i r.task (mem_tasks hr) p hbody
            have hzero : p = 0 := by omega
            rw [hbody, hzero]
        | _ => cases hcall)
    h ⟨Steady.init n, makers_init n, fun call hcall => absurd hcall List.not_mem_nil⟩
  exact hhistory.2.2

-- =============================================================== all runs

/-- The one table, asked in the order of submission. -/
def copyOf (casa : TableOps σ) (requests : Nat → Request σ) (tp : σ)
    (events : List Event) (log : List (Nat × Task)) : Copy σ :=
  Copy.after casa requests tp ((servedOrder events log).map Task.future)

/-- Whatever threads submit, and on whichever instances their functors are
called, as long as none spawns a proxy: all instances are at any time what
one table is that has been asked, one after the other and in the order of
submission, what the called functors ask; and each of these has returned
what it is told there. -/
theorem one_copy_in_order (casa : TableOps σ) (requests : Nat → Request σ)
    (haccept : ∀ future, (requests future).accept n = .ok ())
    (tp : σ) (hn : 1 ≤ n)
    (h : Run (logging (UnspawnedStep n throws) Submissions) (State.init n, [])
      events (s, log)) :
    (∀ call ∈ callsOf events, call.2.body = .functor 0)
      ∧ (∀ i < n, (Instances.after casa requests tp events).table i
          = (copyOf casa requests tp events log).table)
      ∧ (Instances.after casa requests tp events).answers.Perm
          (copyOf casa requests tp events log).answers := by
  refine ⟨callsOf_proxy hn (Run.unlogged h), ?_⟩
  have hrun : Run (logging (Step n throws) Submissions) (State.init n, []) events
      (s, log) := h.mono fun hstep => ⟨hstep.1.1, hstep.2⟩
  have hkept := kept_of_run hn hrun
  have hplace := callsOf_lt hn (Run.unlogged hrun)
  have hagrees : Agrees n (Instances.after casa requests tp events)
      (Copy.after casa requests tp
        ((callsOf events).map fun call => call.2.future)) :=
    foldl_agrees ⟨fun _ _ => rfl, rfl⟩ hplace haccept
  have hfutures : ((callsOf events).map fun call => call.2.future)
      = ((callsOf events).map Prod.snd).map Task.future := (List.map_map ..).symm
  rw [hfutures] at hagrees
  by_cases hone : n = 1
  · have horder := hkept.servedOrder_eq fun call hcall => by
      have := hplace call hcall
      omega
    rw [horder] at hagrees
    exact ⟨hagrees.table, hagrees.answers ▸ List.Perm.refl _⟩
  · obtain ⟨htable, hanswers⟩ := @Copy.after_perm _ casa requests tp _ _
      (fun future => call_of_several (haccept future) hone tp)
      (hkept.servedOrder_perm.map Task.future)
    exact ⟨fun i hi => (hagrees.table i hi).trans htable,
      hagrees.answers ▸ hanswers⟩

-- ================================================================= rows

/-- Rows added by a functor that has returned this. -/
def rowsAdded (requests : Nat → Request σ)
    (told : Nat × Result Answer) : Nat :=
  match requests told.1, told.2 with
  | .addRows nrows, .ok _ => nrows
  | _, _ => 0

/-- The request adds rows, or does nothing to them. -/
def KeepsCount (casa : TableOps σ) (request : Request σ) : Prop :=
  (∃ nrows, request = .addRows nrows)
    ∨ ∀ tp, casa.nrow ((casa.functor request).call tp).2 = casa.nrow tp

/-- `AddRows` tells by its answer how many rows it has added. -/
theorem nrow_call_addRows (hdoc : casa.Documented) {future nrows : Nat}
    (hadd : requests future = .addRows nrows) {tp : σ}
    (hlimit : casa.nrow tp < 2 ^ 64) :
    casa.nrow ((casa.functor (requests future)).call tp).2
      = (casa.nrow tp + rowsAdded requests
          (future, ((casa.functor (requests future)).call tp).1)) % 2 ^ 64 := by
  have hcall : (casa.functor (requests future)).call tp
      = ((NewTableProxy.addRow casa.toCasacore tp nrows).1.map
          fun _ => .flag true,
        (NewTableProxy.addRow casa.toCasacore tp nrows).2) := by
    rw [hadd]
    unfold NewTableProxy.addRow TableOps.functor Functor.onWritable
    dsimp only [Functor.call]
    cases (NewTableProxy.maybeReopenRW casa.toCasacore tp).1 <;> rfl
  rw [hcall, rowsAdded, hadd]
  cases hadded : (NewTableProxy.addRow casa.toCasacore tp nrows).1 with
  | ok u => exact NewTableProxy.nrow_addRow hdoc hadded
  | error status =>
      show casa.nrow _ = (casa.nrow tp + 0) % 2 ^ 64
      rw [NewTableProxy.nrow_addRow_throws hdoc hadded, Nat.add_zero,
        Nat.mod_eq_of_lt hlimit]

/-- Any functor tells by its answer how many rows it has added. -/
theorem nrow_call (hdoc : casa.Documented) {future : Nat}
    (hkeeps : KeepsCount casa (requests future)) {tp : σ}
    (hlimit : casa.nrow tp < 2 ^ 64) :
    casa.nrow ((casa.functor (requests future)).call tp).2
      = (casa.nrow tp + rowsAdded requests
          (future, ((casa.functor (requests future)).call tp).1)) % 2 ^ 64 := by
  by_cases hadd : ∃ nrows, requests future = .addRows nrows
  · obtain ⟨nrows, hadd⟩ := hadd
    exact nrow_call_addRows hdoc hadd hlimit
  · have hnone : ∀ answer, rowsAdded requests (future, answer) = 0 := by
      intro answer
      rw [rowsAdded]
      cases hr : requests future with
      | addRows nrows => exact absurd ⟨nrows, hr⟩ hadd
      | _ => rfl
    rw [hkeeps.resolve_left hadd, hnone, Nat.add_zero, Nat.mod_eq_of_lt hlimit]

/-- The rows of the one table. -/
theorem nrow_after (hdoc : casa.Documented) {tp : σ}
    (hkeeps : ∀ future, KeepsCount casa (requests future))
    (hlimit : casa.nrow tp < 2 ^ 64) (futures : List Nat) :
    casa.nrow (Copy.after casa requests tp futures).table
      = (casa.nrow tp + ((Copy.after casa requests tp futures).answers.map
          (rowsAdded requests)).sum) % 2 ^ 64 := by
  induction futures using List.reverseRecOn with
  | nil => exact (Nat.mod_eq_of_lt hlimit).symm
  | append_singleton futures future ih =>
      have hstep : Copy.after casa requests tp (futures ++ [future])
          = (Copy.after casa requests tp futures).serve casa requests future := by
        rw [Copy.after, List.foldl_append]
        rfl
      rw [hstep]
      generalize Copy.after casa requests tp futures = copy at ih ⊢
      show casa.nrow ((casa.functor (requests future)).call copy.table).2
        = (casa.nrow tp + ((copy.answers ++ [(future, _)]).map _).sum) % 2 ^ 64
      rw [nrow_call hdoc (hkeeps future) (ih ▸ Nat.mod_lt _ (by decide)), ih,
        Nat.mod_add_mod, List.map_append, List.sum_append, List.map_singleton,
        List.sum_singleton, Nat.add_assoc]

/-- However many threads add rows to a table, and whatever else is asked of
it, as long as none spawns a proxy, no rows are lost and none are added
twice: at any time an instance has the rows it was opened with and those of
every `AddRows` that has succeeded. -/
theorem rows_of_all_threads (casa : TableOps σ) (hdoc : casa.Documented)
    (requests : Nat → Request σ)
    (haccept : ∀ future, (requests future).accept n = .ok ())
    (hkeeps : ∀ future, KeepsCount casa (requests future))
    (tp : σ) (hlimit : casa.nrow tp < 2 ^ 64) (hn : 1 ≤ n)
    (h : Run (UnspawnedStep n throws) (State.init n) events s) (i : Nat)
    (hi : i < n) :
    casa.nrow ((Instances.after casa requests tp events).table i)
      = (casa.nrow tp + ((Instances.after casa requests tp events).answers.map
          (rowsAdded requests)).sum) % 2 ^ 64 := by
  have hagrees : Agrees n (Instances.after casa requests tp events)
      (Copy.after casa requests tp
        ((callsOf events).map fun call => call.2.future)) :=
    foldl_agrees ⟨fun _ _ => rfl, rfl⟩
      (callsOf_lt hn (h.mono fun hstep => hstep.1)) haccept
  rw [hagrees.table i hi, hagrees.answers]
  exact nrow_after hdoc hkeeps hlimit _

-- ============================================================ two threads

/-- A table in memory that has rows and nothing else. -/
def memoryOps : TableOps (Fin (2 ^ 64)) where
  toCasacore := NewTableProxy.memoryTable
  tableName _ := "memory"
  columnNames _ := []
  getTableDescription _ := .ok ""
  getColumnDescription _ _ := .ok ""
  getDataManagerInfo _ := .ok ""
  lockOptions _ := .ok ""
  getKeywordSet _ _ := .ok ""
  putKeywordSet tp _ _ := (.ok (), tp)
  removeKeyword tp _ _ := (.ok (), tp)
  addColumns tp _ _ := (.ok (), tp)

/-- Events that call no functor. -/
theorem callsOf_nil (h : ∀ e ∈ events, ∀ i task, e ≠ .invoke i task) :
    callsOf events = [] := by
  refine List.filterMap_eq_nil_iff.mpr fun e he => ?_
  cases e with
  | invoke i task => exact absurd rfl (h _ he i task)
  | _ => rfl

/-- Two tasks on the only instance. -/
theorem runs_two_calls : ∃ events s first second,
    Run (UnspawnedStep 1 fun _ _ => none) (State.init 1) events s
      ∧ callsOf events = [(0, first), (0, second)] := by
  obtain ⟨events, s, hs, hcalls, hpool, hproxies, hproxy, -, -, hinternal⟩ :=
    makes_one fun _ _ => none
  obtain ⟨events₁, first, s₁, s₂, hrun₁, hfirst, hcalls₂, hproxies₂, hproxy₂,
    hpool₂, hstats, -, hquiet₁⟩ :=
    Waiting.invokes ⟨hcalls, hpool, hproxies, hproxy⟩
  obtain ⟨events₂, s₃, hrun₂, hwaiting, hquiet₂⟩ :=
    ends_alone hcalls₂ hproxies₂ hproxy₂ hpool₂ hstats
  obtain ⟨events₃, second, s₄, s₅, hrun₃, hsecond, -, -, -, -, -, -, hquiet₃⟩ :=
    hwaiting.invokes
  refine ⟨_, s₅, first, second,
    ((((hs.trans hrun₁).tail hfirst).trans hrun₂).trans hrun₃).tail hsecond, ?_⟩
  have hquiet : callsOf events = [] := callsOf_nil fun e he i task heq => by
    rw [hinternal e he] at heq
    cases heq
  have h₁ := callsOf_nil hquiet₁
  have h₂ := callsOf_nil hquiet₂
  have h₃ := callsOf_nil hquiet₃
  rw [callsOf] at hquiet h₁ h₂ h₃ ⊢
  simp only [List.filterMap_append, hquiet, h₁, h₂, h₃]
  rfl

/-- Three rows are added twice. -/
theorem rows_of_all_threads_sample : ∃ events s,
    Run (UnspawnedStep 1 fun _ _ => none) (State.init 1) events s
      ∧ NewTableProxy.memoryTable.nrow ((Instances.after memoryOps
          (fun _ => .addRows 3) 0 events).table 0) = 6 := by
  obtain ⟨events, s, first, second, hs, hcalls⟩ := runs_two_calls
  refine ⟨events, s, hs, ?_⟩
  have hrows := @rows_of_all_threads _ 1 _ s events memoryOps
    NewTableProxy.memoryTable_documented (fun _ => .addRows 3) (fun _ => rfl)
    (fun _ => .inl ⟨3, rfl⟩) 0 (by decide) (Nat.le_refl 1) hs 0 Nat.one_pos
  have hanswers : (Instances.after memoryOps (fun _ => .addRows 3) 0
      events).answers
      = [(first.future, .ok (.flag true)), (second.future, .ok (.flag true))] := by
    rw [Instances.after, hcalls]
    rfl
  rw [hanswers] at hrows
  exact hrows

/-- One table in the place of the only instance. -/
theorem one_copy_in_order_sample : ∃ events s log,
    Run (logging (UnspawnedStep 1 fun _ _ => none) Submissions)
        (State.init 1, []) events (s, log)
      ∧ (callsOf events).length = 2
      ∧ (Instances.after memoryOps (fun _ => .addRows 3) 0 events).answers.Perm
          (copyOf memoryOps (fun _ => .addRows 3) 0 events log).answers := by
  obtain ⟨events, s, first, second, hs, hcalls⟩ := runs_two_calls
  obtain ⟨log, hlogged⟩ := Run.logged (fun hstep => hstep.1.submissions) hs []
  have hcopy := one_copy_in_order memoryOps (fun _ => .addRows 3)
    (fun _ => rfl) 0 (Nat.le_refl 1) hlogged
  exact ⟨events, s, log, hlogged, by rw [hcalls]; rfl, hcopy.2.2⟩

end Arcae
