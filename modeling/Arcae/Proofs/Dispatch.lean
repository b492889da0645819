/-
Where `Dispatch` places a task: on the instance with the least load it
read, the lowest-numbered of them if there are several.

Other threads go on between one instance's load and the next, and other
`Dispatch`es reserve costs there, so no state need have all the loads
that one `Dispatch` compares. What is read is therefore written down as
the run goes: that a thread enters the loop, and each load that it reads
there (`Looks`). A thread is in one call at a time (`OneCall`), so what it
has read since it last entered is what this `Dispatch` has read
(`readsOf`): the loads of the instances up to its loop variable, in that
order. Its `instance` and `least` are the first minimum of them
(`Scanned`): a turn of the loop reads one load more, and nothing else
touches them.
-/
import Arcae.Proofs.Deadlock

namespace Arcae

open Lts

variable {n : Nat} {throws : Nat → Nat → Option String} {s s' : State}
  {e : Event} {th : Thread} {p next inst : Nat} {cost least : Int}
  {sync : Bool}

-- ===================================================== the first minimum

/-- The loop of `Dispatch` over loads that are all at hand: the instance
with the least of them below the largest `std::int64_t`, and that load. -/
def leastLoaded (loads : List Int) : Nat × Int :=
  loads.zipIdx.foldl
    (fun best load => if load.1 < best.2 then (load.2, load.1) else best)
    (0, State.int64Max)

theorem leastLoaded_append (loads : List Int) (load : Int) :
    leastLoaded (loads ++ [load])
      = if load < (leastLoaded loads).2 then (loads.length, load)
        else leastLoaded loads := by
  rw [leastLoaded, leastLoaded, List.zipIdx_append, List.foldl_append]
  simp

/-- It is a load of the list, or none of them is below the largest. -/
theorem leastLoaded_mem (loads : List Int) :
    loads[(leastLoaded loads).1]? = some (leastLoaded loads).2
      ∨ leastLoaded loads = (0, State.int64Max) := by
  induction loads using List.reverseRecOn with
  | nil => exact .inr rfl
  | append_singleton loads load ih =>
      rw [leastLoaded_append]
      split
      · exact .inl (by simp)
      · refine ih.imp_left fun hmem => ?_
        obtain ⟨hlt, -⟩ := List.getElem?_eq_some_iff.mp hmem
        rw [List.getElem?_append_left hlt]
        exact hmem

theorem leastLoaded_fst_le (loads : List Int) :
    (leastLoaded loads).1 ≤ loads.length := by
  rcases leastLoaded_mem loads with hmem | hnone
  · exact Nat.le_of_lt (List.getElem?_eq_some_iff.mp hmem).1
  · rw [hnone]
    exact Nat.zero_le _

/-- No load is less, and none before it is as small. -/
theorem leastLoaded_le (loads : List Int) {j : Nat} {load : Int}
    (hj : loads[j]? = some load) : (leastLoaded loads).2 ≤ load ∧
      (j < (leastLoaded loads).1 → (leastLoaded loads).2 < load) := by
  induction loads using List.reverseRecOn generalizing j load with
  | nil => cases hj
  | append_singleton loads last ih =>
      rw [leastLoaded_append]
      rcases Nat.lt_or_ge j loads.length with hlt | hge
      · rw [List.getElem?_append_left hlt] at hj
        obtain ⟨hle, hfirst⟩ := ih hj
        split
        · exact ⟨by dsimp only; omega, fun _ => by dsimp only; omega⟩
        · exact ⟨hle, hfirst⟩
      · have hbest := leastLoaded_fst_le loads
        rw [List.getElem?_append_right hge, List.getElem?_singleton] at hj
        split at hj
        · obtain rfl := Option.some.inj hj
          split
          · exact ⟨Int.le_refl _, fun h => by dsimp only at h; omega⟩
          · exact ⟨by omega, fun h => by omega⟩
        · cases hj

-- ========================================================== what is read

/-- What is written down of a `Dispatch`: that a thread enters its loop,
and the load of an instance that it reads there. -/
inductive Look where
  | enters (th : Thread)
  | reads (th : Thread) (inst : Nat) (load : Int)
  deriving Repr, DecidableEq

/-- The call is in the loop of `Dispatch`. -/
def Call.scans : Call → Bool
  | .scanning .. => true
  | _ => false

/-- What a step does to the calls, and what of it is written down: only
a thread that enters the loop, or takes a turn of it. -/
inductive Looks (n : Nat) (s : State) (e : Event) (s' : State) :
    List Look → Prop
  | enters {th : Thread} {p : Nat} {cost : Int} {sync : Bool} :
      s.Free th →
      s'.calls = (th, .scanning p cost sync 0 0 State.int64Max) ::ₘ s.calls →
      Looks n s e s' [.enters th]
  | reads {th : Thread} {p : Nat} {cost : Int} {sync : Bool} {next inst : Nat}
      {least : Int} {rest : Calls} :
      s.calls = (th, .scanning p cost sync next inst least) ::ₘ rest →
      next < n →
      s'.calls = (th, s.scan th p cost sync next inst least) ::ₘ rest →
      Looks n s e s' [.reads th next (s.load th next)]
  | begins {th : Thread} {c : Call} :
      s.Free th → c.scans = false → s'.calls = (th, c) ::ₘ s.calls →
      Looks n s e s' []
  | goesOn {th : Thread} {c c' : Call} {rest : Calls} :
      s.calls = (th, c) ::ₘ rest → c'.scans = false →
      s'.calls = (th, c') ::ₘ rest → Looks n s e s' []
  | ends {th : Thread} {c : Call} {rest : Calls} :
      s.calls = (th, c) ::ₘ rest → s'.calls = rest → Looks n s e s' []
  | elsewhere : s'.calls = s.calls → Looks n s e s' []

/-- Every step is one of these. -/
theorem Step.looks (hs : Step n throws s e s') :
    ∃ entries, Looks n s e s' entries := by
  cases hs with
  | run _ _ hmay => exact ⟨_, .enters hmay.1 rfl⟩
  | scan hcalls hnext => exact ⟨_, .reads hcalls hnext rfl⟩
  | close hmay | spawn hmay => exact ⟨_, .begins hmay.1 rfl rfl⟩
  | reserve hcalls | count hcalls | constructSubmit hcalls
  | closeInline hcalls | closeSubmit hcalls =>
      exact ⟨_, .goesOn hcalls rfl rfl⟩
  | wake hcalls | closeReturn hcalls | newProxy hcalls =>
      exact ⟨_, .ends hcalls rfl⟩
  | @submit th p submission sync rest hcalls =>
      cases sync with
      | true => exact ⟨_, .goesOn hcalls rfl rfl⟩
      | false => exact ⟨_, .ends hcalls rfl⟩
  | @constructed th next future rest hcalls =>
      cases hresult : (s.futures future).getD (.ok ()) with
      | ok _ =>
          exact ⟨_, @Looks.goesOn _ _ _ _ _ _ (.constructing (next + 1) none) _
            hcalls rfl (by simp [State.constructed, hresult])⟩
      | error _ =>
          exact ⟨_, .ends hcalls (by simp [State.constructed, hresult])⟩
  | leaveScope =>
      refine ⟨_, .elsewhere ?_⟩
      unfold State.leaveScope
      split <;> rfl
  | complete =>
      refine ⟨_, .elsewhere ?_⟩
      unfold State.complete
      split <;> rfl
  | @closeTask i q r => exact ⟨_, .elsewhere (close_frame s throws q i).1⟩
  | _ => exact ⟨_, .elsewhere rfl⟩

/-- No thread is in two calls. -/
def OneCall (s : State) : Prop := (s.calls.map Prod.fst).Nodup

theorem OneCall.looks {entries : List Look} (h : OneCall s)
    (hlooks : Looks n s e s' entries) : OneCall s' := by
  unfold OneCall at h ⊢
  have hbegins {th : Thread} {c : Call} (hfree : s.Free th)
      (hcalls : s'.calls = (th, c) ::ₘ s.calls) :
      (s'.calls.map Prod.fst).Nodup := by
    rw [hcalls, Multiset.map_cons, Multiset.nodup_cons]
    refine ⟨fun hmem => ?_, h⟩
    obtain ⟨call, hcall, rfl⟩ := Multiset.mem_map.mp hmem
    exact hfree call.2 hcall
  cases hlooks with
  | enters hfree hcalls => exact hbegins hfree hcalls
  | begins hfree _ hcalls => exact hbegins hfree hcalls
  | reads hold _ hcalls | goesOn hold _ hcalls =>
      rw [hold, Multiset.map_cons] at h
      rw [hcalls, Multiset.map_cons]
      exact h
  | ends hold hcalls =>
      rw [hold, Multiset.map_cons] at h
      rw [hcalls]
      exact (Multiset.nodup_cons.mp h).2
  | elsewhere hcalls =>
      rw [hcalls]
      exact h

/-- A look of a thread, after what it has read since it last entered. -/
def Look.note (th : Thread) (seen : List (Nat × Int)) : Look → List (Nat × Int)
  | .enters th' => if th' = th then [] else seen
  | .reads th' inst load => if th' = th then seen ++ [(inst, load)] else seen

/-- The loads that a thread has read since it last entered the loop, each
with its instance. -/
def readsOf (th : Thread) (log : List Look) : List (Nat × Int) :=
  log.foldl (Look.note th) []

theorem readsOf_append (th : Thread) (log : List Look) (look : Look) :
    readsOf th (log ++ [look]) = look.note th (readsOf th log) :=
  List.foldl_append

-- ================================================================ the run

/-- A `Dispatch` has read the loads of the instances before its loop
variable, and holds the first minimum of them. -/
def Scanned (n : Nat) (log : List Look) (s : State) : Prop :=
  ∀ th p cost sync next inst least,
    (th, Call.scanning p cost sync next inst least) ∈ s.calls →
      next ≤ n ∧ (readsOf th log).map Prod.fst = List.range next ∧
        leastLoaded ((readsOf th log).map Prod.snd) = (inst, least)

/-- A turn of the loop keeps the first minimum. -/
theorem State.scan_eq {next' : Nat} {loads : List Int}
    (hlength : loads.length = next)
    (hleast : leastLoaded loads = (inst, least)) {inst' : Nat} {least' : Int}
    (hscan : s.scan th p cost sync next inst least
      = .scanning p cost sync next' inst' least') :
    next' = next + 1
      ∧ leastLoaded (loads ++ [s.load th next]) = (inst', least') := by
  rw [leastLoaded_append, hleast, hlength]
  unfold State.scan at hscan
  split at hscan
  · next hless =>
      cases hscan
      exact ⟨rfl, if_pos hless⟩
  · next hless =>
      cases hscan
      exact ⟨rfl, if_neg hless⟩

theorem Scanned.looks {log entries : List Look} (h : Scanned n log s)
    (hone : OneCall s) (hlooks : Looks n s e s' entries) :
    Scanned n (log ++ entries) s' := by
  intro th p cost sync next inst least hc
  -- of a call that was there, nothing is written down
  have hbefore (hold : (th, Call.scanning p cost sync next inst least) ∈ s.calls)
      (hsame : readsOf th (log ++ entries) = readsOf th log) :
      next ≤ n ∧ (readsOf th (log ++ entries)).map Prod.fst = List.range next ∧
        leastLoaded ((readsOf th (log ++ entries)).map Prod.snd)
          = (inst, least) := by
    rw [hsame]
    exact h th p cost sync next inst least hold
  cases hlooks with
  | @enters th' p' cost' sync' hfree hcalls =>
      rw [hcalls] at hc
      rcases Multiset.mem_cons.mp hc with heq | hold
      · cases heq
        rw [readsOf_append, Look.note, if_pos rfl]
        exact ⟨Nat.zero_le _, rfl, rfl⟩
      · refine hbefore hold ?_
        rw [readsOf_append, Look.note, if_neg]
        intro hth
        exact hfree _ (hth ▸ hold)
  | @reads th' p' cost' sync' next' inst' least' rest hold hnext hcalls =>
      rw [hcalls] at hc
      rcases Multiset.mem_cons.mp hc with heq | hrest
      · injection heq with hth hcall
        subst hth
        have hsame : p' = p ∧ cost' = cost ∧ sync' = sync := by
          unfold State.scan at hcall
          split at hcall <;> cases hcall <;> exact ⟨rfl, rfl, rfl⟩
        obtain ⟨rfl, rfl, rfl⟩ := hsame
        obtain ⟨-, hinsts, hleast⟩ := h th p' cost' sync' next' inst' least'
          (hold ▸ Multiset.mem_cons_self _ _)
        have hlength : ((readsOf th log).map Prod.snd).length = next' := by
          rw [List.length_map, ← List.length_map Prod.fst, hinsts,
            List.length_range]
        obtain ⟨rfl, hleast'⟩ := State.scan_eq hlength hleast hcall.symm
        rw [readsOf_append, Look.note, if_pos rfl, List.map_append,
          List.map_append, hinsts, List.range_succ]
        exact ⟨hnext, rfl, hleast'⟩
      · refine hbefore (hold ▸ Multiset.mem_cons_of_mem hrest) ?_
        rw [readsOf_append, Look.note, if_neg]
        intro hth
        subst hth
        rw [OneCall, hold, Multiset.map_cons, Multiset.nodup_cons] at hone
        exact hone.1 (Multiset.mem_map.mpr ⟨_, hrest, rfl⟩)
  | begins _ hother hcalls =>
      rw [hcalls] at hc
      rcases Multiset.mem_cons.mp hc with heq | hold
      · cases heq
        cases hother
      · exact hbefore hold (by rw [List.append_nil])
  | goesOn hold hother hcalls =>
      rw [hcalls] at hc
      rcases Multiset.mem_cons.mp hc with heq | hrest
      · cases heq
        cases hother
      · exact hbefore (hold ▸ Multiset.mem_cons_of_mem hrest)
          (by rw [List.append_nil])
  | ends hold hcalls =>
      rw [hcalls] at hc
      exact hbefore (hold ▸ Multiset.mem_cons_of_mem hc) (by rw [List.append_nil])
  | elsewhere hcalls =>
      exact hbefore (hcalls ▸ hc) (by rw [List.append_nil])

theorem Scanned.init (n : Nat) :
    OneCall (State.init n) ∧ Scanned n [] (State.init n) := by
  unfold OneCall Scanned State.init
  dsimp only
  split
  · refine ⟨Multiset.nodup_singleton _, ?_⟩
    intro th p cost sync next inst least hc
    cases Multiset.mem_singleton.mp hc
  · refine ⟨Multiset.nodup_zero, ?_⟩
    intro th p cost sync next inst least hc
    exact absurd hc (Multiset.notMem_zero _)

/-- Loads that are read in the order of the instances are found by
them. -/
theorem mem_reads_iff {reads : List (Nat × Int)}
    (h : reads.map Prod.fst = List.range n) {j : Nat} {load : Int} :
    (j, load) ∈ reads ↔ (reads.map Prod.snd)[j]? = some load := by
  have hat : ∀ (i a : Nat) (b : Int), reads[i]? = some (a, b) → a = i := by
    intro i a b hi
    have hfst : (reads.map Prod.fst)[i]? = some a := by
      rw [List.getElem?_map, hi]
      rfl
    rw [h] at hfst
    obtain ⟨-, rfl⟩ := List.getElem?_eq_some_iff.mp hfst
    exact List.getElem_range _
  rw [List.getElem?_map, Option.map_eq_some_iff]
  constructor
  · intro hmem
    obtain ⟨i, hi⟩ := List.mem_iff_getElem?.mp hmem
    obtain rfl := hat i j load hi
    exact ⟨_, hi, rfl⟩
  · intro hx
    obtain ⟨⟨a, b⟩, hj, rfl⟩ := hx
    obtain rfl := hat j a b hj
    exact List.mem_of_getElem? hj

/-- However threads interleave, a `Dispatch` that is through with its loop
has read the load of each instance once, in order. It reserves on one
whose load, when it read it, was no more than any other's when it read
that, and less than those of the instances before it; unless it found no
load below the largest `std::int64_t`, and reserves on the first. -/
theorem dispatch_least {events : List Event} {log : List Look}
    (h : Run (logging (Step n throws) (Looks n)) (State.init n, []) events
      (s, log))
    (hc : (th, Call.scanning p cost sync next inst least) ∈ s.calls)
    (hdone : n ≤ next) :
    (readsOf th log).map Prod.fst = List.range n ∧
      ((inst, least) ∈ readsOf th log ∨ (inst = 0 ∧ least = State.int64Max)) ∧
      ∀ j load, (j, load) ∈ readsOf th log →
        least ≤ load ∧ (j < inst → least < load) := by
  obtain ⟨-, hscanned⟩ : OneCall s ∧ Scanned n log s :=
    Run.invariant (fun x => OneCall x.1 ∧ Scanned n x.2 x.1)
      (fun hgood hstep => by
        obtain ⟨-, entries, hlooks, heq⟩ := hstep
        rw [heq]
        exact ⟨hgood.1.looks hlooks, hgood.2.looks hgood.1 hlooks⟩)
      h (Scanned.init n)
  obtain ⟨hle, hinsts, hleast⟩ := hscanned th p cost sync next inst least hc
  obtain rfl : next = n := Nat.le_antisymm hle hdone
  refine ⟨hinsts, ?_, fun j load hread => ?_⟩
  · have hmem := leastLoaded_mem ((readsOf th log).map Prod.snd)
    rw [hleast] at hmem
    rcases hmem with hmem | hnone
    · exact .inl ((mem_reads_iff hinsts).mpr hmem)
    · cases hnone
      exact .inr ⟨rfl, rfl⟩
  · have hfirst := leastLoaded_le _ ((mem_reads_iff hinsts).mp hread)
    rw [hleast] at hfirst
    exact hfirst

/-- A task for the second of two instances, as the first one has a task
already. -/
theorem dispatch_least_sample : ∃ events s log,
    Run (logging (Step 2 fun _ _ => none) (Looks 2)) (State.init 2, []) events
        (s, log) ∧
      (readsOf (.outside 0) log).map Prod.fst = [0, 1] ∧
      (1, 0) ∈ readsOf (.outside 0) log ∧
      ∀ load, (0, load) ∈ readsOf (.outside 0) log → 0 < load := by
  obtain ⟨events, s, hs, -, hcalls, hproxies, hq⟩ :=
    @reaches_proxy 2 (fun _ _ => none) (by decide)
  -- a task on instance 0, which has no load
  obtain ⟨events₁, s₁, hs₁, -, hcalls₁, hproxies₁, hproxy₁, hcurrent₁, hcost₁,
      hother₁, -, -⟩ :=
    @runs_on (fun _ _ => none) s 0 0 0 hcalls hproxies hq.proxies
      (by simp [State.scan, State.load, hq.stats, hq.currentTask, State.int64Max])
      (by simp [State.scan, State.load, hq.stats, hq.currentTask])
      (by rw [hq.pools])
  obtain ⟨-, hstats₁⟩ := hother₁ 1 (by decide)
  rw [hq.stats] at hcost₁ hstats₁
  rw [hq.currentTask] at hcurrent₁
  -- the loads are 8 and 0
  have hfirst : s₁.scan (.outside 0) 0 8 false 0 0 State.int64Max
      = .scanning 0 8 false 1 0 8 := by
    simp [State.scan, State.load, hcost₁, hcurrent₁, State.int64Max]
  have hsecond : s₁.scan (.outside 0) 0 8 false 1 0 8
      = .scanning 0 8 false 2 1 0 := by
    simp [State.scan, State.load, hstats₁, hcurrent₁]
  have hmay : s₁.MayCall (.outside 0) :=
    ⟨fun c hc => by simp [hcalls₁] at hc, fun i hi => by cases hi⟩
  have hopen : s₁.checkClosed 0 = .ok () := by
    simp [State.checkClosed, hproxy₁]
  have h1 := (hs.trans hs₁).tail (.run 8 false hmay (by omega) hopen)
  have h2 := h1.tail (.scan rfl (by decide))
  have h3 := h2.tail
    (.scan (congrArg (fun c => (Thread.outside 0, c) ::ₘ s₁.calls) hfirst)
      (by decide))
  obtain ⟨log, hlog⟩ := Run.logged Step.looks h3 []
  obtain ⟨hinsts, hchosen, hall⟩ := @dispatch_least 2 _ _ (.outside 0) 0 2 1 8 0
    false _ log hlog (hsecond ▸ Multiset.mem_cons_self _ _) (Nat.le_refl 2)
  refine ⟨_, _, log, hlog, hinsts, ?_, fun load hread => ?_⟩
  · rcases hchosen with hchosen | hnone
    · exact hchosen
    · cases hnone.1
  · exact (hall 0 load hread).2 Nat.one_pos

end Arcae
