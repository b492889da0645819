/-
A read that is spread over the instances, from `Make` to its array.

The threads of the pools interleave as they like, so while a read is going
on, its buffer is anything between untouched and filled. What is known of
it all the while is what there is still to do (`Filling`): the stores that
the functors have left, and those that were made, are together the moves
of the plan. They are to distinct places, so the order in which they were
made is not seen in the buffer (`Partly`).

What `All` waits for is that every future of the read is finished, and it
goes on if none holds an error. A future that holds success is that of a
task which returned, and a functor returns with nothing left to do
(`Step.future_ok`); `Close` also finishes futures, but none of the read's,
which are functors'. So nothing is left, and the buffer is what one thread
would have made of it (`fanned_out_read`).

The bytes are accounted for in the same way: those recorded by the
instances, and those that functors have yet to record, are together those
of the elements that exist (`bytes_of_fan_out`).
-/
import Mathlib.Algebra.BigOperators.Group.Finset.Piecewise
import Arcae.Proofs.GroupActions
import Arcae.Proofs.FanOutRuns
import Arcae.Proofs.GetColumn

namespace Arcae

open FOrder Scatter Loops Lts

variable {α β : Type} {n : Nat} {throws : Nat → Nat → Option String}
  {s s' : State} {e : Event} {f g : Nat} {x y : FanOut α}
  {futures : List Nat} {mem : Memory α} {action : Action α}
  {rest all : List (Action α)}

-- ======================================================= what is still left

/-- The actions that the functors of a read have left. -/
def FanOut.pending (x : FanOut α) (futures : List Nat) : List (Action α) :=
  futures.flatMap x.left

/-- One action fewer is left. -/
theorem pending_goesOn (hnodup : futures.Nodup) (hf : f ∈ futures)
    (hleft : x.left f = action :: rest) :
    (x.pending futures).Perm
      (action :: (x.goesOn f rest).pending futures) := by
  obtain ⟨before, after, rfl⟩ := List.append_of_mem hf
  rw [List.nodup_append, List.nodup_cons] at hnodup
  obtain ⟨-, ⟨hafter, -⟩, hbefore⟩ := hnodup
  have hsame : ∀ l : List Nat, f ∉ l →
      l.flatMap (x.goesOn f rest).left = l.flatMap x.left := by
    intro l hl
    refine List.flatMap_congr fun g hg => ?_
    refine Function.update_of_ne (fun heq => hl ?_) _ _
    rwa [← heq]
  have hnew : (x.goesOn f rest).left f = rest := Function.update_self ..
  unfold FanOut.pending
  rw [List.flatMap_append, List.flatMap_cons, List.flatMap_append,
    List.flatMap_cons, hsame after hafter, hnew,
    hsame before fun hmem => hbefore f hmem f List.mem_cons_self rfl, hleft]
  exact List.perm_middle

/-- A functor that has nothing left goes on having nothing left. -/
theorem goesOn_nil (hleft : x.left f = action :: rest) (hg : x.left g = []) :
    (x.goesOn f rest).left g = [] := by
  have hne : g ≠ f := fun heq => by
    rw [heq, hleft] at hg
    cases hg
  exact (Function.update_of_ne hne _ _).trans hg

/-- At first there are the programs. -/
theorem pending_start {programs : List (List (Action α))}
    (hnodup : futures.Nodup) (hlength : futures.length = programs.length) :
    (FanOut.start n mem futures programs).pending futures
      = programs.flatten := by
  have key : ∀ (fs : List Nat) (ps : List (List (Action α))), fs.Nodup →
      fs.length = ps.length →
      fs.map (fun f => ((fs.zip ps).lookup f).getD []) = ps := by
    intro fs
    induction fs with
    | nil =>
        intro ps _ hlen
        exact (List.length_eq_zero_iff.mp hlen.symm).symm
    | cons f fs ih =>
        intro ps hnd hlen
        cases ps with
        | nil => cases hlen
        | cons p ps =>
            rw [List.nodup_cons] at hnd
            rw [List.map_cons, List.zip_cons_cons, List.lookup_cons_self]
            refine congrArg (p :: ·) (Eq.trans (List.map_congr_left fun g hg => ?_)
              (ih ps hnd.2 (Nat.succ.inj hlen)))
            have hne : g ≠ f := fun heq => hnd.1 (heq ▸ hg)
            rw [List.lookup_cons, beq_eq_false_iff_ne.mpr hne]
  rw [FanOut.pending, List.flatMap_def]
  exact congrArg List.flatten (key futures programs hnodup hlength)

-- ========================================================= what succeeded

/-- The future holds success, or its task is about to finish it so. -/
def Succeeds (s : State) (f : Nat) : Prop :=
  s.futures f = some (.ok ()) ∨ ∃ i r, (s.pools i).running = some r ∧
    r.task.future = f ∧ r.phase = .released (.ok ())

/-- A future comes to hold success by a task that has returned, or has
closed its table. -/
theorem Step.future_ok (hs : Step n throws s e s')
    (h : s'.futures f = some (.ok ())) : s.futures f = some (.ok ()) ∨
      ∃ i r, (s.pools i).running = some r ∧ r.task.future = f ∧
        (r.phase = .leaving (.ok ()) ∨ r.phase = .released (.ok ())
          ∨ ∃ p, r.task.body = .close p) := by
  have hfinish {i : Nat} {r : Running} {status : Except String Unit}
      (hr : (s.pools i).running = some r)
      (hphase : r.phase = .leaving status ∨ r.phase = .released status)
      (hf : Function.update s.futures r.task.future (some status) f
        = some (.ok ())) : s.futures f = some (.ok ()) ∨
      ∃ i r, (s.pools i).running = some r ∧ r.task.future = f ∧
        (r.phase = .leaving (.ok ()) ∨ r.phase = .released (.ok ())
          ∨ ∃ p, r.task.body = .close p) := by
    by_cases heq : f = r.task.future
    · rw [heq, Function.update_self] at hf
      cases hf
      exact .inr ⟨i, r, hr, heq.symm, hphase.imp_right .inl⟩
    · rw [Function.update_of_ne heq] at hf
      exact .inl hf
  cases hs with
  | leaveScope hr hphase =>
      unfold State.leaveScope at h
      split at h
      · exact hfinish hr (.inl hphase) h
      · exact .inl h
  | complete hr hphase =>
      unfold State.complete at h
      split at h <;> exact hfinish hr (.inr hphase) h
  | @closeTask i p r hr hbody hphase =>
      by_cases heq : f = r.task.future
      · exact .inr ⟨i, r, hr, heq.symm, .inr (.inr ⟨p, hbody⟩)⟩
      · simp only [State.finishFuture, State.setRunning,
          Function.update_of_ne heq, State.close] at h
        refine .inl ?_
        split at h <;> exact h
  | closeInline =>
      unfold State.close at h
      split at h <;> exact .inl h
  | _ => exact .inl h

/-- Success comes of a task that has returned, or has closed its
table. -/
theorem Step.succeeds (hs : Step n throws s e s') (h : Succeeds s' f) :
    Succeeds s f ∨ ∃ i r, (s.pools i).running = some r ∧ r.task.future = f ∧
      (r.phase = .leaving (.ok ()) ∨ ∃ p, r.task.body = .close p) := by
  rcases h with hfuture | ⟨i, r', hr', hfuture, hphase⟩
  · rcases hs.future_ok hfuture with hkept | ⟨i, r, hr, htask, hreturned⟩
    · exact .inl (.inl hkept)
    · rcases hreturned with hleaving | hreleased | hclose
      · exact .inr ⟨i, r, hr, htask, .inl hleaving⟩
      · exact .inl (.inr ⟨i, r, hr, htask, hreleased⟩)
      · exact .inr ⟨i, r, hr, htask, .inr hclose⟩
  · rcases hs.moves hr' with hr | hentered | ⟨r, hr, htask, hgoes⟩
    · exact .inl (.inr ⟨i, r', hr, hfuture, hphase⟩)
    · rw [hphase] at hentered
      cases hentered
    · rw [hphase] at hgoes
      generalize hto : Phase.released (.ok ()) = phase at hgoes
      cases hgoes with
      | release hleaving =>
          cases hto
          exact .inr ⟨i, r, hr, htask ▸ hfuture, .inl hleaving⟩
      | check =>
          unfold State.check at hto
          split at hto <;> cases hto
      | _ => cases hto

-- ============================================================ the buffer

/-- A read that is going on: `all` is what its functors do to `mem`, and
what they have left of it is what the buffer and the statistics lack. -/
structure Filling (n : Nat) (mem : Memory α) (futures : List Nat)
    (all : List (Action α)) (x : FanOut α) : Prop where
  measured : Measured x.state
  steady : Steady n x.state
  permits : FanOut.Permits x.left x.state
  others : ∀ f, f ∉ futures → x.left f = []
  functors : ∀ i, ∀ task ∈ (x.state.pools i).tasks, x.left task.future ≠ [] →
    ∃ p, task.body = .functor p
  succeeded : ∀ f, Succeeds x.state f → x.left f = []
  buffer : Partly mem (storesOf all) (storesOf (x.pending futures)) x.buffer
  bytes : ∑ i ∈ Finset.range n, x.ioBytes i + bytesOf (x.pending futures)
    = bytesOf all
  failures : ∀ action ∈ all, action.goesOn = false →
    action ∈ x.pending futures

theorem Filling.start {programs : List (List (Action α))}
    (hnodup : futures.Nodup) (hlength : futures.length = programs.length) :
    Filling n mem futures programs.flatten
      (FanOut.start n mem futures programs) where
  measured := Measured.init n
  steady := Steady.init n
  permits := by
    constructor
    · intro i r hr
      cases hr
    · intro i task h
      cases h
  others _ hf := FanOut.start_left_nil hf
  functors i task h := by cases h
  succeeded f h := by
    rcases h with hfuture | ⟨i, r, hr, -⟩
    · cases hfuture
    · cases hr
  buffer := by
    rw [pending_start hnodup hlength]
    exact Partly.start mem _
  bytes := by
    rw [pending_start hnodup hlength]
    show ∑ i ∈ Finset.range n, 0 + _ = _
    rw [Finset.sum_const_zero, Nat.zero_add]
  failures action haction _ := by rwa [pending_start hnodup hlength]

/-- A step of the pools leaves the buffer alone, and what functors have
left. -/
theorem Filling.pools (h : Filling n mem futures all x) (hn : 1 ≤ n)
    (hs : Step n throws x.state e s) (hpermits : FanOut.Permits x.left s) :
    Filling n mem futures all { x with state := s } where
  measured := h.measured.step hs
  steady := h.steady.step hn hs
  permits := hpermits
  others := h.others
  functors i task htask hleft := by
    cases hs.pool i with
    | stays hpool => exact h.functors i task (hpool ▸ htask) hleft
    | queued new hfuture hnew hpool =>
        have htasks : (s.pools i).tasks = (x.state.pools i).tasks ++ [new] := by
          rw [hpool, Pool.tasks_enqueue]
        rw [htasks] at htask
        rcases List.mem_append.mp htask with htask | htask
        · exact h.functors i task htask hleft
        · refine hpermits.queued i task ?_ hleft
          rw [hpool, List.mem_singleton.mp htask]
          exact List.mem_append_right _ (List.mem_singleton_self _)
    | takes r tail hidle hqueue hphase hpool =>
        refine h.functors i task ?_ hleft
        rw [Pool.tasks, hpool] at htask
        rw [Pool.tasks, hidle, hqueue]
        exact htask
    | goes r phase hr hgoes hfinished hinvoke hpool =>
        refine h.functors i task ?_ hleft
        rw [← Pool.tasks_running hr phase, ← hpool]
        exact htask
    | leaves r hr hphase hpool =>
        refine h.functors i task ?_ hleft
        rw [Pool.tasks, hpool] at htask
        exact List.mem_append_right _ htask
  succeeded f hf := by
    rcases hs.succeeds hf with hkept | ⟨i, r, hr, rfl, hreturned⟩
    · exact h.succeeded f hkept
    · rcases hreturned with hleaving | ⟨p, hclose⟩
      · exact h.permits.returned i r hr hleaving
      · by_contra hleft
        obtain ⟨q, hfunctor⟩ := h.functors i r.task (mem_tasks hr) hleft
        rw [hclose] at hfunctor
        cases hfunctor
  buffer := h.buffer
  bytes := h.bytes
  failures := h.failures

/-- The statistics that a functor records to are its instance's. -/
theorem Filling.stats (h : Filling n mem futures all x) {i : Nat} {r : Running}
    (hr : (x.state.pools i).running = some r) (hphase : r.phase = .inside)
    (hleft : x.left r.task.future ≠ []) :
    (x.state.currentTask (.isolation i)).stats = some i := by
  obtain ⟨p, hbody⟩ := h.functors i r.task (mem_tasks hr) hleft
  have hfits := (h.measured.pools i).running r hr
  rw [Task.Fits, hbody] at hfits
  rw [(h.measured.pools i).current, Pool.measuredTask, hr]
  dsimp only
  rw [if_pos ⟨by rw [hphase]; rfl, by rw [hfits.2]; rfl⟩]
  exact hfits.2

/-- Bytes more on one instance. -/
theorem sum_update_add {i : Nat} (hi : i < n) (ioBytes : Nat → Nat)
    (nbytes : Nat) :
    ∑ j ∈ Finset.range n, Function.update ioBytes i (ioBytes i + nbytes) j
      = ∑ j ∈ Finset.range n, ioBytes j + nbytes := by
  have hmem := Finset.mem_range.mpr hi
  rw [Finset.sum_update_of_mem hmem, ← Finset.add_sum_erase _ ioBytes hmem,
    Finset.sdiff_singleton_eq_erase]
  omega

/-- A functor does an action. -/
theorem Filling.act (h : Filling n mem futures all x) (hnodup : futures.Nodup)
    {i : Nat} {r : Running} (hr : (x.state.pools i).running = some r)
    (hphase : r.phase = .inside)
    (hleft : x.left r.task.future = action :: rest)
    (hgoes : action.goesOn = true) : Filling n mem futures all
      ((x.act i action).goesOn r.task.future rest) := by
  have hne : x.left r.task.future ≠ [] := by
    rw [hleft]
    exact List.cons_ne_nil _ _
  have hstats := h.stats hr hphase hne
  have hmem : r.task.future ∈ futures := by
    by_contra hout
    exact hne (h.others _ hout)
  -- an action changes neither the pools nor what is left
  have hstate := x.act_state i action
  have hold := x.act_left i action
  have hnil {f : Nat} (hf : x.left f = []) :
      ((x.act i action).goesOn r.task.future rest).left f = [] :=
    goesOn_nil (hold.symm ▸ hleft) (hold.symm ▸ hf)
  have hpending : (x.pending futures).Perm
      (action :: ((x.act i action).goesOn r.task.future rest).pending
        futures) := by
    have hperm := @pending_goesOn _ _ (x.act i action) _ _ _ hnodup hmem
      (hold.symm ▸ hleft)
    rwa [FanOut.pending, hold] at hperm
  refine ⟨hstate.symm ▸ h.measured, hstate.symm ▸ h.steady, ⟨?_, ?_⟩,
    fun f hf => hnil (h.others f hf), ?_, ?_, ?_, ?_, ?_⟩
  · intro j r' hr' hleaving
    exact hnil (h.permits.returned j r' (hstate ▸ hr') hleaving)
  · intro j task htask hsome
    exact h.permits.queued j task (hstate ▸ htask) fun hf => hsome (hnil hf)
  · intro j task htask hsome
    exact h.functors j task (hstate ▸ htask) fun hf => hsome (hnil hf)
  · intro f hf
    exact hnil (h.succeeded f (hstate ▸ hf))
  · have hbuffer := h.buffer.perm (storesOf_perm hpending)
    cases action with
    | store address value => exact hbuffer.write
    | record nbytes =>
        rw [FanOut.act, FanOut.recordIoBytes, hstats] at hbuffer ⊢
        exact hbuffer
    | fail status => cases hgoes
  · have hbytes := h.bytes
    rw [bytesOf_perm hpending, bytesOf, List.map_cons, List.sum_cons] at hbytes
    cases action with
    | store address value => exact hbytes ▸ (by simp [Action.nbytes]; rfl)
    | record nbytes =>
        rw [FanOut.act, FanOut.recordIoBytes, hstats] at hbytes ⊢
        show ∑ j ∈ Finset.range n,
          Function.update x.ioBytes i (x.ioBytes i + nbytes) j + _ = _
        rw [sum_update_add (h.steady.running_lt hr), ← hbytes, Nat.add_assoc]
        rfl
    | fail status => cases hgoes
  · -- a failure is not got past
    intro failure hfailure hstays
    rcases List.mem_cons.mp (hpending.mem_iff.mp
        (h.failures failure hfailure hstays)) with heq | hrest
    · rw [heq, hgoes] at hstays
      cases hstays
    · exact hrest

/-- What is known of a read that is going on, in every state reached. -/
theorem filling_of_run {programs : List (List (Action α))} (hn : 1 ≤ n)
    (hnodup : futures.Nodup) (hlength : futures.length = programs.length)
    {events : List (Option Event)}
    (h : Run (FanOutStep n throws) (FanOut.start n mem futures programs) events
      x) : Filling n mem futures programs.flatten x :=
  Run.invariant (Filling n mem futures programs.flatten)
    (fun hfilling hstep => by
      cases hstep with
      | pools hs hpermits => exact hfilling.pools hn hs hpermits
      | act hr hphase hleft hgoes =>
          exact hfilling.act hnodup hr hphase hleft hgoes)
    h (Filling.start hnodup hlength)

/-- When all have succeeded, nothing is left. -/
theorem Filling.pending_nil (h : Filling n mem futures all x)
    (hdone : ∀ f ∈ futures, x.state.futures f = some (.ok ())) :
    x.pending futures = [] :=
  List.flatMap_eq_nil_iff.mpr fun f hf => h.succeeded f (.inl (hdone f hf))

/-- And none of them has failed. -/
theorem Filling.not_fails (h : Filling n mem futures all x)
    (hdone : ∀ f ∈ futures, x.state.futures f = some (.ok ())) :
    ¬ Fails all := by
  intro hfails
  obtain ⟨action, haction, hstays⟩ := hfails
  have hpending := h.failures action haction hstays
  rw [h.pending_nil hdone] at hpending
  cases hpending

-- ============================================================== the array

variable {col : TableColumn α} {sel : Selection} {rs : ResultShapeData}

/-- A request can be spread over instances, and its functors carry the
moves of the plan. -/
theorem ArrayRequest.spread {m : Nat} (h : ArrayRequest col sel m)
    (srt : StdSort) (n : Nat) (unitStart : Option RowUnitStart)
    (emptyString : α) (allocated : Memory α) :
    ∃ spread p dtypeSize moves,
      spreadRead srt n unitStart col emptyString sel allocated = .ok spread
      ∧ ResultShapeData.makeRead col sel false = .ok spread.shape
      ∧ ReadFacts col sel spread.shape m
      ∧ DataPartition.make srt sel spread.shape (readSplit n unitStart) = .ok p
      ∧ CarriesPlan col sel spread.shape (readSplit n unitStart) p
      ∧ allocateBuffer p.casaDtype emptyString allocated = .ok spread.buffer
      ∧ Carries col dtypeSize moves spread.programs.flatten
      ∧ moves.Perm (planMoves sel spread.shape) := by
  obtain ⟨rs, p, hread, hf, hp, hplan⟩ := h.plan_ok srt (readSplit n unitStart)
  obtain ⟨buffer, hbuffer⟩ := allocateBuffer_ok hplan.supported emptyString
    allocated
  obtain ⟨dtypeSize, hsize⟩ := (casaDataTypeSize_isOk _).mpr hplan.supported
  set groups := chunkGroups p.dataChunks (groupChunks p.dataChunks n)
    with hgroups
  have hflat : groups.flatten = p.dataChunks := groupChunks_flatten _ n
  have hcases := @programs_cases _ _ _ col dtypeSize hf.consistent hf.isMatch
    groups fun c hc => hplan.partitions.planned c (hflat ▸ hc)
  rw [hflat] at hcases
  have hcarry := hcases.resolve_right fun hbad => hbad.1 fun m hm =>
    hplan.has m (hplan.moves.mem_iff.mp hm)
  refine ⟨⟨rs, buffer, groups.map (groupCost dtypeSize),
    groups.map (groupActions col dtypeSize)⟩, p, dtypeSize, _, ?_, hread, hf, hp,
    hplan, hbuffer, hcarry, hplan.moves⟩
  unfold spreadRead
  rw [hread, Result.ok_bind, hp, Result.ok_bind, hbuffer, Result.ok_bind]
  dsimp only
  rw [hsize, Result.ok_bind, ← hgroups]
  rfl

/-- The buffer of a read that is going on, and when it is done. -/
theorem Filling.plan_buffer {dtypeSize : Nat} {moves : List Move}
    (h : Filling n mem futures all x) (hrs : rs.Consistent)
    (hm : sel.Matches rs) (hcarry : Carries col dtypeSize moves all)
    (hmoves : moves.Perm (planMoves sel rs)) :
    (∀ a, x.buffer a = mem a
        ∨ ∃ move ∈ planMoves sel rs, a = move.1 ∧ x.buffer a = col.value move.2)
      ∧ ((∀ f ∈ futures, x.state.futures f = some (.ok ())) →
        x.buffer = Moves.read col (planMoves sel rs) mem) := by
  have hbuffer := h.buffer
  rw [hcarry.stores] at hbuffer
  constructor
  · intro a
    refine (hbuffer.held_or_written a).imp_right fun hin => ?_
    obtain ⟨move, hmove, heq⟩ := List.mem_map.mp hin
    rw [Prod.mk.injEq] at heq
    exact ⟨move, hmoves.mem_iff.mp hmove, heq.1.symm, heq.2.symm⟩
  · intro hdone
    rw [h.pending_nil hdone] at hbuffer
    rw [← read_eq_plan hrs hm hmoves]
    refine Partly.done hbuffer ?_
    rw [Moves.values, List.map_map]
    exact ((hmoves.map Prod.fst).nodup_iff).mpr (planMoves_offsets_nodup hrs hm)

/-- The chunks of the sample request can all be read. -/
theorem sample_goesOn {spread : Spread Nat}
    (h : spreadRead .insertion 2 none sampleColumn 0 sampleSelection blankBuffer
      = .ok spread) :
    ∀ program ∈ spread.programs, ∀ action ∈ program, action.goesOn = true := by
  have hall : (spreadRead .insertion 2 none sampleColumn 0 sampleSelection
      blankBuffer).map (fun spread => spread.programs.all fun program =>
        program.all Action.goesOn) = .ok true := rfl
  rw [h] at hall
  have hall := Except.ok.inj hall
  simpa only [List.all_eq_true] using hall

/-- The number of moves of a partition, slips or not. -/
theorem DataPartition.Partitions.moves_length {opt : RowSplitOptions}
    {p : DataPartition} (h : p.Partitions sel rs opt) :
    (movesOf p.dataChunks).length = (planMoves sel rs).length := by
  have hchunks : (movesOf p.dataChunks).length
      = ((p.dataChunks.flatMap DataChunk.transfers).filter
          Transfer.live).length := by
    rw [movesOf, List.length_flatMap, List.filter_flatMap, List.length_flatMap]
    simp [DataChunk.moves, Transfer.moves]
  rw [hchunks, (h.transfers.filter _).length_eq, planMoves, Transfer.moves,
    List.length_map]

theorem plan_length (hrs : rs.Consistent) (hm : sel.Matches rs) :
    (plan sel rs).length = rs.nElements := by
  have hpositions := congrArg List.length (plan_positions hm hrs)
  rwa [List.length_map, List.length_range] at hpositions

/-- The elements of a partition are those of its result. -/
theorem DataPartition.Partitions.nElements_sum {opt : RowSplitOptions}
    {p : DataPartition} (h : p.Partitions sel rs opt) (hrs : rs.Consistent)
    (hm : sel.Matches rs) :
    (p.dataChunks.map DataChunk.nElements).sum = rs.nElements := by
  rw [← plan_length hrs hm, ← h.transfers.length_eq, List.length_flatMap]
  exact congrArg List.sum (List.map_congr_left fun c hc =>
    (h.planned c hc).nElements_eq)

/-- Moves of all of a plan are moves of all its elements. -/
theorem planMoves_length_eq (hrs : rs.Consistent) (hm : sel.Matches rs) :
    (planMoves sel rs).length = rs.nElements
      ↔ ∀ t ∈ plan sel rs, t.live = true := by
  rw [planMoves, Transfer.moves, List.length_map, ← plan_length hrs hm,
    List.length_filter_eq_length_iff]

end Arcae
