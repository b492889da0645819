/-
What the flag of a proxy says about its tables.

`Close` sets the flag however it leaves: a proxy is flagged exactly if
some `Close` of it has returned (`closed_iff_returned`). A table whose
`close()` throws is never closed (`Step.null_throws`). So the flag says
that every table is closed only as long as no `Close` has returned, or if
no table throws; and in the other runs a `Close` that returned an error
left a proxy that is flagged and has an open table, which no later
`Close` visits (`flag_right_iff`).

If no table throws, every `Close` in progress has no error yet
(`NoErrors`), and each returns true.
-/
import Arcae.Proofs.Closing

namespace Arcae

open Lts

variable {n : Nat} {throws : Nat → Nat → Option String} {s s' : State}
  {e : Event} {i p : Nat}

-- =============================================================== the flag

/-- The flag is right: a flagged proxy has all its tables closed, and one
of which a `Close` returned an error is not flagged. -/
structure FlagRight (n : Nat) (events : List Event) (s : State) (p : Nat) :
    Prop where
  tables : (s.proxies p).isClosed = true →
    ∀ i < n, (s.proxies p).isNull i = true
  error : ∀ what, .closeReturn p (.error what) ∈ events →
    (s.proxies p).isClosed = false

/-- `close()` sets no flag. -/
theorem isClosed_close (s : State) (throws : Nat → Nat → Option String)
    (q k p : Nat) :
    ((s.close throws q k).proxies p).isClosed = (s.proxies p).isClosed := by
  unfold State.close
  split
  · rfl
  · by_cases hp : p = q
    · subst hp
      simp only [State.closeTable, Function.update_self]
    · simp only [State.closeTable, Function.update_of_ne hp]

/-- Only a `Close` that returns sets the flag. -/
theorem Step.isClosed (hs : Step n throws s e s')
    (h : (s'.proxies p).isClosed = true) :
    (s.proxies p).isClosed = true ∨ ∃ result, e = .closeReturn p result := by
  cases hs with
  | leaveScope =>
      unfold State.leaveScope at h
      split at h <;> exact .inl h
  | complete =>
      unfold State.complete at h
      split at h <;> exact .inl h
  | closeTask =>
      refine .inl ((isClosed_close ..).symm.trans h)
  | closeInline =>
      refine .inl ((isClosed_close ..).symm.trans h)
  | @closeReturn th q =>
      by_cases hp : p = q
      · subst hp
        exact .inr ⟨_, rfl⟩
      · simp only [State.setClosed, Function.update_of_ne hp] at h
        exact .inl h
  | newProxy =>
      by_cases hp : p = s.nProxies
      · subst hp
        simp [State.newProxy] at h
      · simp only [State.newProxy, Function.update_of_ne hp] at h
        exact .inl h
  | _ => exact .inl h

/-- And every `Close` that returns does. -/
theorem Step.returned {result : Except String Bool}
    (hs : Step n throws s (.closeReturn p result) s') (hwaits : Waits s) :
    p < s.nProxies ∧ (s'.proxies p).isClosed = true := by
  cases hs with
  | closeAgain _ hp hclosed => exact ⟨hp, hclosed⟩
  | @closeReturn th _ next results status rest hcalls =>
      have hvisited := hwaits th p next results status
        (hcalls ▸ Multiset.mem_cons_self _ _)
      exact ⟨hvisited.proxy, by simp [State.setClosed]⟩

/-- A proxy is flagged exactly if a `Close` of it has returned. -/
theorem closed_iff_returned {events : List Event}
    (hs : Reaches n throws events s) (p : Nat) :
    (s.proxies p).isClosed = true ↔ ∃ result, .closeReturn p result ∈ events := by
  have key := Run.history
    (fun events s => (Safe s ∧ Waits s) ∧
      ((s.proxies p).isClosed = true → ∃ result, .closeReturn p result ∈ events) ∧
      ((∃ result, .closeReturn p result ∈ events) →
        p < s.nProxies ∧ (s.proxies p).isClosed = true))
    (fun {events t e u} h hstep => by
      obtain ⟨⟨hsafe, hwaits⟩, hflag, hreturned⟩ := h
      refine ⟨⟨hsafe.step hstep, hwaits.step hsafe hstep⟩, fun hclosed => ?_,
        fun hx => ?_⟩
      · rcases hstep.isClosed hclosed with hold | ⟨result, rfl⟩
        · obtain ⟨result, hmem⟩ := hflag hold
          exact ⟨result, List.mem_append_left _ hmem⟩
        · exact ⟨result, List.mem_append_right _ (List.mem_singleton_self _)⟩
      · obtain ⟨result, hmem⟩ := hx
        rcases List.mem_append.mp hmem with hmem | hmem
        · obtain ⟨hp, hclosed⟩ := hreturned ⟨result, hmem⟩
          exact ⟨lt_of_lt_of_le hp hstep.nProxies_le,
            (@Step.stays n throws t u e 0 p hstep hp).2 hclosed⟩
        · obtain rfl := List.mem_singleton.mp hmem
          obtain ⟨hp, hclosed⟩ := hstep.returned hwaits
          exact ⟨lt_of_lt_of_le hp hstep.nProxies_le, hclosed⟩)
    hs ⟨⟨Safe.init n, Waits.init n⟩, fun h => (Bool.false_ne_true h).elim,
      fun hx => hx.elim fun _ hmem => absurd hmem List.not_mem_nil⟩
  exact ⟨key.2.1, fun hx => (key.2.2 hx).2⟩

/-- A table whose `close()` throws is never closed. -/
theorem Step.null_throws (hs : Step n throws s e s')
    (h : (s'.proxies p).isNull i = true) :
    (s.proxies p).isNull i = true ∨ throws p i = none := by
  cases hthrows : throws p i with
  | none => exact .inr rfl
  | some what =>
      left
      rcases hs.closes h with hold | ⟨rfl, -⟩ | ⟨rfl, -⟩
      · exact hold
      · cases hs with
        | closeInline =>
            unfold State.close at h
            rw [hthrows] at h
            exact h
      · cases hs with
        | closeTask =>
            unfold State.close at h
            rw [hthrows] at h
            exact h

theorem null_throws {events : List Event} (hs : Reaches n throws events s)
    (h : (s.proxies p).isNull i = true) : throws p i = none := by
  refine Run.invariant
    (fun s => (s.proxies p).isNull i = true → throws p i = none)
    (fun h hstep hnull => (hstep.null_throws hnull).elim h id) hs
    (fun h => by cases h) h

-- ========================================================= nothing throws

/-- The future of `Close`'s task on a table that does not throw stays, or
holds success. -/
theorem Step.close_future (hs : Step n throws s e s') (hsafe : Safe s)
    {f : Nat} (h : Closes s f p i) (hthrows : throws p i = none) :
    s'.futures f = s.futures f ∨ s'.futures f = some (.ok ()) := by
  -- a task with a scope is not `Close`'s
  have hne {j : Nat} {r : Running} (hr : (s.pools j).running = some r)
      (hphase : r.phase ≠ .entered ∧ r.phase ≠ .finished) :
      f ≠ r.task.future := by
    intro hf
    obtain ⟨hbody, -⟩ := h.only j r.task (mem_tasks hr) hf.symm
    exact (hsafe.alone j r p hr hbody).elim hphase.1 hphase.2
  cases hs with
  | leaveScope hr hphase =>
      left
      unfold State.leaveScope
      split
      · exact Function.update_of_ne (hne hr (by simp [hphase])) _ _
      · rfl
  | complete hr hphase =>
      left
      unfold State.complete
      split <;> exact Function.update_of_ne (hne hr (by simp [hphase])) _ _
  | @closeTask j q r hr hbody hphase =>
      by_cases hf : f = r.task.future
      · right
        obtain ⟨hbody', rfl⟩ := h.only j r.task (mem_tasks hr) hf.symm
        obtain rfl : q = p := by simpa [hbody] using hbody'
        simp only [State.finishFuture, hf, Function.update_self,
          State.closeStatus, hthrows]
      · left
        simp only [State.finishFuture, Function.update_of_ne hf,
          State.setRunning, State.close]
        split <;> rfl
  | closeInline =>
      left
      unfold State.close
      split <;> rfl
  | _ => exact .inl rfl

/-- A `Close` in progress has no error, and none in what it waits for. -/
structure NoError (n : Nat) (s : State) (p : Nat) (results : List Nat)
    (status : Except String Unit) : Prop where
  inline : status = .ok ()
  tasks : ∀ f ∈ results, (∃ i < n, Closes s f p i) ∧
    ∀ what, s.futures f ≠ some (.error what)

theorem NoError.step {results : List Nat} {status : Except String Unit}
    (h : NoError n s p results status) (hsafe : Safe s) (hp : p < s.nProxies)
    (hthrows : ∀ i < n, throws p i = none) (hs : Step n throws s e s') :
    NoError n s' p results status := by
  refine ⟨h.inline, fun f hf => ?_⟩
  obtain ⟨⟨i, hi, hcloses⟩, hfuture⟩ := h.tasks f hf
  refine ⟨⟨i, hi, hcloses.step hsafe hp hs⟩, fun what => ?_⟩
  rcases hs.close_future hsafe hcloses (hthrows i hi) with hkeep | hok
  · rw [hkeep]
    exact hfuture what
  · simp [hok]

/-- No `Close` of the proxy has an error. -/
def NoErrors (n : Nat) (s : State) (p : Nat) : Prop :=
  ∀ th next results status,
    (th, Call.closing p next results status) ∈ s.calls →
      NoError n s p results status

theorem NoErrors.step (h : NoErrors n s p) (hsafe : Safe s) (hwaits : Waits s)
    (hthrows : ∀ i < n, throws p i = none) (hs : Step n throws s e s') :
    NoErrors n s' p := by
  intro th next results status hc
  have hstep {th : Thread} {next : Nat} {results : List Nat}
      {status : Except String Unit}
      (hold : (th, Call.closing p next results status) ∈ s.calls) :
      NoError n s' p results status :=
    (h th next results status hold).step hsafe
      (hwaits th p next results status hold).proxy hthrows hs
  cases hs.closing hc with
  | before hold => exact hstep hold
  | begins => exact ⟨rfl, fun f hf => absurd hf List.not_mem_nil⟩
  | inline hk _ hold =>
      refine ⟨?_, (hstep hold).tasks⟩
      simp only [State.inlineStatus, State.closeStatus, hthrows _ hk,
        (hstep hold).inline]
  | @submitted k results _ hk hold hpools hnew hfutures =>
      refine ⟨(hstep hold).inline, fun f hf => ?_⟩
      rcases List.mem_append.mp hf with hf | hf
      · exact (hstep hold).tasks f hf
      · obtain rfl := List.mem_singleton.mp hf
        have hunset := hsafe.ordered.unset _ (Nat.le_refl s.nFutures)
        obtain ⟨-, honly, -⟩ := Closes.submitted hsafe.ordered p k
        refine ⟨⟨k, hk, hnew ▸ Nat.lt_succ_self _, hpools ▸ honly,
          fun hok => ?_⟩, fun what => ?_⟩
        · rw [hfutures, hunset] at hok
          cases hok
        · rw [hfutures, hunset]
          exact Option.some_ne_none _ ∘ Eq.symm

theorem NoErrors.init (n p : Nat) : NoErrors n (State.init n) p := by
  intro th next results status hc
  simp only [State.init] at hc
  split at hc
  · cases Multiset.mem_singleton.mp hc
  · exact absurd hc (Multiset.notMem_zero _)

/-- What it returns then is no error. -/
theorem NoError.result {results : List Nat} {status : Except String Unit}
    (h : NoError n s p results status) :
    s.closeResult results status = .ok true := by
  have hall : results.forM (fun f => (s.futures f).getD (.ok ())) =
      .ok () := by
    have hfuture (f : Nat) (hf : f ∈ results) :
        (s.futures f).getD (.ok ()) = .ok () := by
      cases hdone : s.futures f with
      | none => rfl
      | some result =>
          cases result with
          | error what => exact absurd hdone ((h.tasks f hf).2 what)
          | ok => rfl
    clear h
    induction results with
    | nil => rfl
    | cons f results ih =>
        rw [List.forM, hfuture f (List.mem_cons_self ..)]
        exact ih fun g hg => hfuture g (List.mem_cons_of_mem _ hg)
  rw [State.closeResult, h.inline, hall]
  rfl

/-- A `Close` that returns then has closed every table. -/
theorem NoErrors.returned {result : Except String Bool} (h : NoErrors n s p)
    (hwaits : Waits s) (hold : (s.proxies p).isClosed = true → AllClosed n s p)
    (hs : Step n throws s (.closeReturn p result) s') :
    (∃ closed, result = .ok closed) ∧ AllClosed n s' p := by
  cases hs with
  | closeAgain _ _ hclosed => exact ⟨⟨false, rfl⟩, hold hclosed⟩
  | @closeReturn th _ next results status rest hcalls hn hdone =>
      have hresult : s.closeResult results status = .ok true :=
        (h th next results status
          (hcalls ▸ Multiset.mem_cons_self _ _)).result
      have hstep := @Step.closeReturn n throws s th p next results status rest
        hcalls hn hdone
      rw [hresult] at hstep
      exact ⟨⟨true, hresult⟩, closeReturn_true hwaits hstep⟩

/-- What holds of the proxy if none of its tables throws. -/
structure Sound (n : Nat) (events : List Event) (s : State) (p : Nat) :
    Prop where
  safe : Safe s
  waits : Waits s
  noErrors : NoErrors n s p
  closed : (s.proxies p).isClosed = true → AllClosed n s p
  succeeds : ∀ result, .closeReturn p result ∈ events →
    ∃ closed, result = .ok closed

theorem Sound.init (n p : Nat) : Sound n [] (State.init n) p where
  safe := Safe.init n
  waits := Waits.init n
  noErrors := NoErrors.init n p
  closed := fun h => (Bool.false_ne_true h).elim
  succeeds := fun _ hmem => absurd hmem List.not_mem_nil

theorem Sound.step {events : List Event} (h : Sound n events s p)
    (hthrows : ∀ i < n, throws p i = none) (hs : Step n throws s e s') :
    Sound n (events ++ [e]) s' p where
  safe := h.safe.step hs
  waits := h.waits.step h.safe hs
  noErrors := h.noErrors.step h.safe h.waits hthrows hs
  closed := by
    intro hflag
    rcases hs.isClosed hflag with hold | ⟨result, rfl⟩
    · exact (h.closed hold).step hs
    · exact (h.noErrors.returned h.waits h.closed hs).2
  succeeds := by
    intro result hmem
    rcases List.mem_append.mp hmem with hmem | hmem
    · exact h.succeeds result hmem
    · obtain rfl := List.mem_singleton.mp hmem
      exact (h.noErrors.returned h.waits h.closed hs).1

-- ====================================================== when it is right

/-- The flag of a proxy is right exactly as long as no `Close` of it has
returned, or if none of its tables throws: a `Close` that has an error to
return has set the flag nevertheless. -/
theorem flag_right_iff {events : List Event} (hs : Reaches n throws events s)
    (p : Nat) :
    FlagRight n events s p ↔
      (∀ result, .closeReturn p result ∉ events) ∨
        ∀ i < n, throws p i = none := by
  constructor
  · intro hright
    by_cases hreturned : ∃ result, .closeReturn p result ∈ events
    · right
      intro i hi
      have hflag := (closed_iff_returned hs p).mpr hreturned
      exact null_throws hs (hright.tables hflag i hi)
    · exact .inl fun result hmem => hreturned ⟨result, hmem⟩
  · intro hright
    rcases hright with hnot | hthrows
    · have hopen : (s.proxies p).isClosed = false := by
        by_contra hflag
        obtain ⟨result, hmem⟩ := (closed_iff_returned hs p).mp
          (Bool.not_eq_false _ ▸ hflag)
        exact hnot result hmem
      refine ⟨fun hflag => ?_, fun what hmem => absurd hmem (hnot _)⟩
      rw [hopen] at hflag
      cases hflag
    · have hsound : Sound n events s p :=
        Run.history (fun events s => Sound n events s p)
          (fun h hstep => h.step hthrows hstep) hs (Sound.init n p)
      refine ⟨fun hflag => (hsound.closed hflag).tables, fun what hmem => ?_⟩
      obtain ⟨_, hok⟩ := hsound.succeeds _ hmem
      cases hok

/-- `Make` of one instance, and a `Close` from outside: it has set the
flag, whatever its task has found. -/
theorem reaches_closed (throws : Nat → Nat → Option String) :
    ∃ events s, Reaches 1 throws events s ∧
      (∀ p checked, .run p checked ∉ events) ∧
      .closeReturn 0 (do State.closeStatus throws 0 0; return true) ∈ events ∧
      (s.proxies 0).isClosed = true := by
  obtain ⟨events, s, f, hs, hrun, hcalls, hfuture⟩ := reaches_closing throws
  have hreturn := hs.tail (@Step.closeReturn 1 throws s (.outside 0) 0 1
    [f] (.ok ()) 0 hcalls (Nat.le_refl 1) (by simp [hfuture]))
  rw [closeResult_one hfuture] at hreturn
  refine ⟨_, _, hreturn, fun p checked hmem => ?_,
    List.mem_append_right _ (List.mem_singleton_self _), by simp [State.setClosed]⟩
  rcases List.mem_append.mp hmem with hmem | hmem
  · exact hrun p checked hmem
  · cases List.mem_singleton.mp hmem

theorem flag_right_sample : ∃ events s,
    Reaches 1 (fun _ _ => none) events s ∧
      .closeReturn 0 (.ok true) ∈ events ∧ FlagRight 1 events s 0 := by
  obtain ⟨events, s, hs, -, hreturned, -⟩ := reaches_closed fun _ _ => none
  exact ⟨events, s, hs, hreturned,
    (flag_right_iff hs 0).mpr (.inr fun _ _ => rfl)⟩

/-- The table is full when `Close` flushes it: the proxy is flagged with
its table open. -/
theorem flag_wrong : ∃ events s,
    Reaches 1 (fun _ _ => some "disk full") events s ∧
      (∀ p checked, .run p checked ∉ events) ∧
      .closeReturn 0 (.error "Error closing table: disk full") ∈ events ∧
      (s.proxies 0).isClosed = true ∧ (s.proxies 0).isNull 0 = false ∧
      ¬ FlagRight 1 events s 0 := by
  obtain ⟨events, s, hs, hrun, hreturned, hflag⟩ :=
    reaches_closed fun _ _ => some "disk full"
  have hopen : (s.proxies 0).isNull 0 = false := by
    by_contra hnull
    cases null_throws hs (Bool.not_eq_false _ ▸ hnull)
  refine ⟨events, s, hs, hrun, hreturned, hflag, hopen, fun hright => ?_⟩
  have hnull := hright.tables hflag 0 Nat.one_pos
  rw [hopen] at hnull
  cases hnull

end Arcae
