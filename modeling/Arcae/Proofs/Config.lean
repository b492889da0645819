/-
`config.set` restores the configuration unless a block that an exception
leaves has changed it.

# The two loops

The loop before the `yield` assigns the keywords up to the first whose
assignment raises (`run_enter`). No key comes twice, and different keys
have different bytes (`tobytes_inj`), so that what it saves is what the
configuration held at the start of the loop. After the `yield`, every
key that was assigned is still there, since nothing but `leave` removes
one, and removes it only where it was not before; so `leave` raises
nothing, and puts back what was there (`run_leave`).

# The body

By induction on the body, what it does to the configuration is to carry
out the assignments it leaves behind (`run_exec`). It leaves none behind
if each of its blocks finishes (`leaves_of_blocksFinish`).
-/
import Arcae.Spec.Config

namespace Arcae.Config

open Overlay

-- ============================================================== strings

theorem CodePoint.toChar_ofChar (c : Char) :
    CodePoint.toChar (CodePoint.ofChar c) = some c :=
  dif_pos c.valid

theorem CodePoint.ofChar_toChar {p : CodePoint} {c : Char}
    (h : CodePoint.toChar p = some c) : CodePoint.ofChar c = p := by
  by_cases hvalid : p.val.isValidChar
  · rw [toChar, dif_pos hvalid] at h
    obtain rfl := Option.some.inj h
    rfl
  · rw [toChar, dif_neg hvalid] at h
    cases h

/-- Strings with the same characters are the same. -/
theorem mapM_toChar {text : PyStr} {chars : List Char}
    (h : text.mapM CodePoint.toChar = some chars) :
    chars.map CodePoint.ofChar = text := by
  induction text generalizing chars with
  | nil =>
      obtain rfl : [] = chars := by simpa using h
      rfl
  | cons p text ih =>
      obtain ⟨c, hc, rest, hrest, rfl⟩ :
          ∃ c, CodePoint.toChar p = some c ∧
            ∃ rest, text.mapM CodePoint.toChar = some rest ∧
              c :: rest = chars := by
        simpa [List.mapM_cons, Option.bind_eq_some_iff] using h
      rw [List.map_cons, CodePoint.ofChar_toChar hc, ih hrest]

theorem mapM_toChar_map (chars : List Char) :
    (chars.map CodePoint.ofChar).mapM CodePoint.toChar = some chars := by
  induction chars with
  | nil => rfl
  | cons c chars ih =>
      simp [List.mapM_cons, CodePoint.toChar_ofChar, ih]

theorem utf8_inj {s t : String} (h : utf8 s = utf8 t) : s = t :=
  String.toByteArray_inj.mp (ByteArray.ext (Array.toList_inj.mp h))

/-- What was decoded encodes to the same bytes. -/
theorem tobytes_frombytes {bytes : StdString} {text : PyStr}
    (h : frombytes bytes = .ok text) : tobytes text = .ok bytes := by
  unfold frombytes String.fromUTF8? at h
  split at h
  · next s hs =>
      split at hs
      · obtain rfl := Option.some.inj hs
        obtain rfl := Except.ok.inj h
        rw [tobytes, mapM_toChar_map]
        simp only [String.ofList_toList]
        rfl
      · cases hs
  · cases h

/-- Different keys have different bytes. -/
theorem tobytes_inj {s t : PyStr} {bytes : StdString}
    (hs : tobytes s = .ok bytes) (ht : tobytes t = .ok bytes) : s = t := by
  unfold tobytes at hs ht
  split at hs
  · next chars hchars =>
      split at ht
      · next chars' hchars' =>
          have heq : String.ofList chars = String.ofList chars' :=
            utf8_inj ((Except.ok.inj hs).trans (Except.ok.inj ht).symm)
          obtain rfl : chars = chars' := by
            simpa using congrArg String.toList heq
          exact (mapM_toChar hchars).symm.trans (mapM_toChar hchars')
      · cases ht
  · cases hs

-- ========================================================= computations

section Run

variable {α β : Type} {config : Configuration}

@[simp] theorem run_pure (a : α) :
    (pure a : Py α).run config = (.ok a, config) := rfl

@[simp] theorem run_throw (e : PyException) :
    (throw e : Py α).run config = (.error e, config) := rfl

@[simp] theorem run_get :
    (get : Py Configuration).run config = (.ok config, config) := rfl

@[simp] theorem run_set (config' : Configuration) :
    (set config' : Py PUnit).run config = (.ok ⟨⟩, config') := rfl

@[simp] theorem run_modify (f : Configuration → Configuration) :
    (modify f : Py PUnit).run config = (.ok ⟨⟩, f config) := rfl

@[simp] theorem run_liftExcept (x : Except PyException α) :
    (liftM x : Py α).run config = (x, config) := rfl

/-- The second part runs if the first has ended well. -/
theorem run_bind_ok {x : Py α} {f : α → Py β} {a : α}
    {config' : Configuration} (h : x.run config = (.ok a, config')) :
    (x >>= f).run config = (f a).run config' := by
  show ExceptT.bindCont f (x config).1 (x config).2 = _
  rw [show x config = _ from h]
  rfl

theorem run_bind_error {x : Py α} {f : α → Py β} {e : PyException}
    {config' : Configuration} (h : x.run config = (.error e, config')) :
    (x >>= f).run config = (.error e, config') := by
  show ExceptT.bindCont f (x config).1 (x config).2 = _
  rw [show x config = _ from h]
  rfl

theorem run_tryCatch_ok {x : Py α} {f : PyException → Py α} {a : α}
    {config' : Configuration} (h : x.run config = (.ok a, config')) :
    (tryCatch x f : Py α).run config = (.ok a, config') := by
  unfold Py.run at h ⊢
  simp only [tryCatch, tryCatchThe, MonadExceptOf.tryCatch,
    ExceptT.tryCatch, ExceptT.mk, bind, StateT.bind, h]
  rfl

theorem run_tryCatch_error {x : Py α} {f : PyException → Py α}
    {e : PyException} {config' : Configuration}
    (h : x.run config = (.error e, config')) :
    (tryCatch x f : Py α).run config = (f e).run config' := by
  unfold Py.run at h ⊢
  simp only [tryCatch, tryCatchThe, MonadExceptOf.tryCatch,
    ExceptT.tryCatch, ExceptT.mk, bind, StateT.bind, h]

end Run

-- ========================================================= one keyword

variable {config start : Configuration} {key value : PyStr}

/-- What `saved` has for a key: what the configuration holds there. -/
def SavedFrom (config : Configuration) (entry : PyStr × Option PyStr) :
    Prop :=
  ∃ ckey, tobytes entry.1 = .ok ckey ∧
    match entry.2 with
    | none => config.kvmap ckey = none
    | some value => ∃ cvalue, config.kvmap ckey = some cvalue ∧
        frombytes cvalue = .ok value

/-- A failed conversion is no missing key. -/
theorem tobytes_error {text : PyStr} {e : PyException}
    (h : tobytes text = .error e) : e = .unicodeEncodeError := by
  unfold tobytes at h
  split at h
  · cases h
  · exact (Except.error.inj h).symm

theorem frombytes_error {bytes : StdString} {e : PyException}
    (h : frombytes bytes = .error e) : e = .unicodeDecodeError := by
  unfold frombytes at h
  split at h
  · cases h
  · exact (Except.error.inj h).symm

theorem run_setitem {ckey cvalue : StdString} (hkey : tobytes key = .ok ckey)
    (hvalue : tobytes value = .ok cvalue) :
    (setitem key value).run config = (.ok (), config.set ckey cvalue) := by
  unfold setitem
  rw [run_bind_ok (by rw [run_liftExcept, hkey]),
    run_bind_ok (by rw [run_liftExcept, hvalue]), run_modify]

theorem run_delitem {ckey old : StdString} (hkey : tobytes key = .ok ckey)
    (hold : config.kvmap ckey = some old) :
    (delitem key).run config
      = (.ok (), { kvmap := Function.update config.kvmap ckey none }) := by
  unfold delitem
  rw [run_bind_ok (by rw [run_liftExcept, hkey]), run_bind_ok run_get]
  simp only [Configuration.delete, hold, run_set]

theorem run_getitem_none {ckey : StdString} (hkey : tobytes key = .ok ckey)
    (hold : config.kvmap ckey = none) :
    (getitem key).run config = (.error (.keyError key), config) := by
  unfold getitem
  rw [run_bind_ok (by rw [run_liftExcept, hkey]), run_bind_ok run_get]
  simp only [Configuration.get, hold, run_throw]

theorem run_getitem_some {ckey old : StdString} (hkey : tobytes key = .ok ckey)
    (hold : config.kvmap ckey = some old) :
    (getitem key).run config = (frombytes old, config) := by
  unfold getitem
  rw [run_bind_ok (by rw [run_liftExcept, hkey]), run_bind_ok run_get]
  simp only [Configuration.get, hold, run_liftExcept]

/-- What `getOld` finds. -/
theorem run_getOld : (getOld key).run config = (oldValue config key, config) := by
  unfold getOld oldValue
  have hmap {result : Except PyException PyStr}
      (h : (getitem key).run config = (result, config)) :
      (some <$> getitem key : Py _).run config = (some <$> result, config) := by
    rw [← bind_pure_comp]
    cases result with
    | error e => exact run_bind_error h
    | ok text => exact (run_bind_ok h).trans (run_pure _)
  cases hkey : tobytes key with
  | error e =>
      have hget : (getitem key).run config = (.error e, config) :=
        run_bind_error (by rw [run_liftExcept, hkey])
      rw [run_tryCatch_error (hmap hget), tobytes_error hkey]
      rfl
  | ok ckey =>
      simp only [bind, Except.bind]
      cases hold : config.kvmap ckey with
      | none =>
          rw [run_tryCatch_error (hmap (run_getitem_none hkey hold))]
          rfl
      | some old =>
          have hget := run_getitem_some hkey hold
          cases htext : frombytes old with
          | error e =>
              rw [htext] at hget
              rw [run_tryCatch_error (hmap hget)]
              simp only [htext]
              rw [frombytes_error htext]
              rfl
          | ok text =>
              rw [htext] at hget
              rw [run_tryCatch_ok (hmap hget)]
              simp only [htext]
              rfl

theorem savedFrom_oldValue {old : Option PyStr}
    (h : oldValue config key = .ok old) : SavedFrom config (key, old) := by
  unfold oldValue at h
  cases hkey : tobytes key with
  | error e => simp [hkey, bind, Except.bind] at h
  | ok ckey =>
      refine ⟨ckey, hkey, ?_⟩
      simp only [hkey, bind, Except.bind] at h
      split at h
      · next cold hold =>
          cases htext : frombytes cold with
          | error e =>
              rw [htext] at h
              cases h
          | ok text =>
              rw [htext] at h
              obtain rfl := Except.ok.inj h
              exact ⟨cold, hold, htext⟩
      · next hold =>
          obtain rfl := Except.ok.inj h
          exact hold

/-- The keyword is assigned: the old value can be read, and the strings
encoded. -/
theorem assignment_ok {ckey cvalue : StdString}
    (h : assignment config key value = .ok (ckey, cvalue)) :
    (∃ old, oldValue config key = .ok old) ∧ tobytes key = .ok ckey ∧
      tobytes value = .ok cvalue := by
  unfold assignment at h
  cases hold : oldValue config key with
  | error e =>
      rw [hold] at h
      cases h
  | ok old =>
      rw [hold] at h
      cases hkey : tobytes key with
      | error e =>
          rw [hkey] at h
          cases h
      | ok ckey' =>
          rw [hkey] at h
          cases hvalue : tobytes value with
          | error e =>
              rw [hvalue] at h
              cases h
          | ok cvalue' =>
              rw [hvalue] at h
              cases h
              exact ⟨⟨old, rfl⟩, rfl, rfl⟩

/-- Or one of the two raises the exception. -/
theorem assignment_error {e : PyException}
    (h : assignment config key value = .error e) :
    oldValue config key = .error e ∨
      (∃ old, oldValue config key = .ok old) ∧
        ∀ config', (setitem key value).run config' = (.error e, config') := by
  unfold assignment at h
  cases hold : oldValue config key with
  | error e' =>
      rw [hold] at h
      cases h
      exact .inl rfl
  | ok old =>
      refine .inr ⟨⟨old, rfl⟩, fun config' => ?_⟩
      rw [hold] at h
      unfold setitem
      cases hkey : tobytes key with
      | error e' =>
          rw [hkey] at h
          cases h
          exact run_bind_error (run_liftExcept _)
      | ok ckey =>
          rw [hkey] at h
          rw [run_bind_ok (run_liftExcept _)]
          cases hvalue : tobytes value with
          | error e' =>
              rw [hvalue] at h
              cases h
              exact run_bind_error (run_liftExcept _)
          | ok cvalue =>
              rw [hvalue] at h
              cases h

-- ============================================================= the loops

/-- Two configurations hold the same at the keys. -/
def Agree (config start : Configuration) (keys : List PyStr) : Prop :=
  ∀ key ∈ keys, ∀ ckey, tobytes key = .ok ckey →
    config.kvmap ckey = start.kvmap ckey

theorem oldValue_congr {keys : List PyStr} (h : Agree config start keys)
    (hkey : key ∈ keys) : oldValue config key = oldValue start key := by
  unfold oldValue
  cases hbytes : tobytes key with
  | error e => rfl
  | ok ckey =>
      simp only [bind, Except.bind, h key hkey ckey hbytes]

/-- An assignment to a key leaves the others. -/
theorem Agree.set {keys : List PyStr} {ckey cvalue : StdString}
    (h : Agree config start (key :: keys)) (hnodup : (key :: keys).Nodup)
    (hkey : tobytes key = .ok ckey) :
    Agree (config.set ckey cvalue) start keys := by
  intro key' hmem ckey' hkey'
  have hne : ckey' ≠ ckey := by
    intro heq
    subst heq
    have hsame := tobytes_inj hkey hkey'
    exact (List.nodup_cons.mp hnodup).1 (hsame ▸ hmem)
  simp only [Configuration.set, Function.update_of_ne hne]
  exact h key' (List.mem_cons_of_mem _ hmem) ckey' hkey'

/-- Only the keys are assigned. -/
theorem mem_assigned {kw : List (PyStr × PyStr)} {ckey cvalue : StdString}
    (h : (assigned start kw).1 ckey = some cvalue) :
    ∃ key ∈ kw.map Prod.fst, tobytes key = .ok ckey := by
  induction kw with
  | nil => cases h
  | cons item kw ih =>
      obtain ⟨key, value⟩ := item
      unfold assigned at h
      cases hitem : assignment start key value with
      | error e => simp [hitem, nothing] at h
      | ok pair =>
          obtain ⟨ckey', cvalue'⟩ := pair
          simp only [hitem] at h
          by_cases hne : ckey = ckey'
          · subst hne
            exact ⟨key, List.mem_cons_self .., (assignment_ok hitem).2.1⟩
          · rw [Function.update_of_ne hne] at h
            obtain ⟨key', hmem, hkey'⟩ := ih h
            exact ⟨key', List.mem_cons_of_mem _ hmem, hkey'⟩

/-- A key behind the others is not among their assignments. -/
theorem assigned_fresh {kw : List (PyStr × PyStr)} {ckey : StdString}
    (hnodup : (key :: kw.map Prod.fst).Nodup) (hkey : tobytes key = .ok ckey) :
    (assigned start kw).1 ckey = none := by
  cases hvalue : (assigned start kw).1 ckey with
  | none => rfl
  | some cvalue =>
      obtain ⟨key', hmem, hkey'⟩ := mem_assigned hvalue
      have hsame := tobytes_inj hkey hkey'
      exact absurd (hsame ▸ hmem) (List.nodup_cons.mp hnodup).1

theorem assign_nothing (config : Configuration) :
    config.assign nothing = config :=
  congrArg Configuration.mk (overlay_nothing _)

theorem assign_assign (config : Configuration) (first second : Assignments) :
    (config.assign first).assign second
      = config.assign (overlay second first) :=
  congrArg Configuration.mk overlay_assoc.symm

/-- How the first loop goes: it assigns the keywords up to the first that
raises an exception, and saves what the configuration held. -/
theorem run_enter {kw : List (PyStr × PyStr)}
    (hnodup : (kw.map Prod.fst).Nodup)
    (hagree : Agree config start (kw.map Prod.fst)) (saved : Saved) :
    (∃ e, (assigned start kw).2 = .error e ∧
      (enter kw saved).run config
        = (.error e, config.assign (assigned start kw).1)) ∨
    ∃ olds : Saved, (assigned start kw).2 = .ok () ∧
      olds.map Prod.fst = kw.map Prod.fst ∧
      (∀ entry ∈ olds, SavedFrom start entry) ∧
      (enter kw saved).run config
        = (.ok (saved ++ olds), config.assign (assigned start kw).1) := by
  induction kw generalizing config saved with
  | nil =>
      refine .inr ⟨[], rfl, rfl, by simp, ?_⟩
      rw [List.append_nil, assigned, assign_nothing]
      rfl
  | cons item kw ih =>
      obtain ⟨key, value⟩ := item
      have hold : oldValue config key = oldValue start key :=
        oldValue_congr hagree (List.mem_cons_self ..)
      unfold enter assigned
      cases hitem : assignment start key value with
      | error e =>
          refine .inl ⟨e, rfl, ?_⟩
          rw [assign_nothing]
          rcases assignment_error hitem with hfail | ⟨⟨old, hok⟩, hset⟩
          · exact run_bind_error (by rw [run_getOld, hold, hfail])
          · rw [run_bind_ok (by rw [run_getOld, hold, hok])]
            exact run_bind_error (hset config)
      | ok pair =>
          obtain ⟨ckey, cvalue⟩ := pair
          obtain ⟨⟨old, hok⟩, hkey, hvalue⟩ := assignment_ok hitem
          have hfresh := @assigned_fresh start key kw ckey hnodup hkey
          have hassign : (config.set ckey cvalue).assign (assigned start kw).1
              = config.assign
                (Function.update (assigned start kw).1 ckey (some cvalue)) :=
            congrArg Configuration.mk (overlay_update cvalue hfresh)
          have hrest : (enter ((key, value) :: kw) saved).run config
              = (enter kw (saved ++ [(key, old)])).run
                (config.set ckey cvalue) := by
            rw [enter, run_bind_ok (by rw [run_getOld, hold, hok]),
              run_bind_ok (run_setitem hkey hvalue)]
          rw [enter] at hrest
          simp only [hrest, ← hassign]
          rcases ih (List.nodup_cons.mp hnodup).2 (hagree.set hnodup hkey)
            (saved ++ [(key, old)]) with
            ⟨e, hfail, hrun⟩ | ⟨olds, hdone, hkeys, hsaved, hrun⟩
          · exact .inl ⟨e, hfail, hrun⟩
          · refine .inr ⟨(key, old) :: olds, hdone, by rw [List.map_cons, hkeys]; rfl,
              fun entry hentry => ?_, by rw [hrun]; simp⟩
            rcases List.mem_cons.mp hentry with rfl | hentry
            · exact savedFrom_oldValue hok
            · exact hsaved entry hentry

/-- One turn of the second loop puts back what was there. -/
theorem run_restore {old : Option PyStr} {ckey : StdString}
    (hsaved : SavedFrom start (key, old)) (hkey : tobytes key = .ok ckey)
    (hthere : (config.kvmap ckey).isSome) :
    (restore key old).run config
      = (.ok (), { kvmap :=
          Function.update config.kvmap ckey (start.kvmap ckey) }) := by
  obtain ⟨ckey', hkey', hold⟩ := hsaved
  obtain rfl : ckey' = ckey := Except.ok.inj (hkey'.symm.trans hkey)
  cases old with
  | none =>
      obtain ⟨now, hnow⟩ := Option.isSome_iff_exists.mp hthere
      rw [show start.kvmap ckey' = none from hold]
      exact run_delitem hkey hnow
  | some value =>
      obtain ⟨cvalue, hcvalue, htext⟩ := hold
      rw [hcvalue]
      exact run_setitem hkey (tobytes_frombytes htext)

/-- How the second loop goes: it raises nothing, since no key has gone,
and puts back what the configuration held. -/
theorem run_leave {olds : Saved} (hnodup : (olds.map Prod.fst).Nodup)
    (hsaved : ∀ entry ∈ olds, SavedFrom start entry)
    (hthere : ∀ key ∈ olds.map Prod.fst, ∀ ckey, tobytes key = .ok ckey →
      (config.kvmap ckey).isSome) :
    ∃ config', (leave olds).run config = (.ok (), config') ∧
      Agree config' start (olds.map Prod.fst) ∧
      ∀ ckey, (∀ key ∈ olds.map Prod.fst, tobytes key ≠ .ok ckey) →
        config'.kvmap ckey = config.kvmap ckey := by
  induction olds generalizing config with
  | nil => exact ⟨config, rfl, fun _ h => absurd h List.not_mem_nil, fun _ _ => rfl⟩
  | cons entry olds ih =>
      obtain ⟨key, old⟩ := entry
      obtain ⟨ckey, hkey, hold⟩ := hsaved _ (List.mem_cons_self ..)
      have hnotin : key ∉ olds.map Prod.fst := (List.nodup_cons.mp hnodup).1
      have hothers : ∀ key' ∈ olds.map Prod.fst, tobytes key' ≠ .ok ckey := by
        intro key' hmem hkey'
        have hsame : key = key' := tobytes_inj hkey hkey'
        exact hnotin (hsame ▸ hmem)
      have hone := run_restore ⟨ckey, hkey, hold⟩ hkey
        (hthere key (List.mem_cons_self ..) ckey hkey)
      obtain ⟨config', hrun, hagree, hframe⟩ := @ih
        { kvmap := Function.update config.kvmap ckey (start.kvmap ckey) }
        (List.nodup_cons.mp hnodup).2
        (fun entry hentry => hsaved entry (List.mem_cons_of_mem _ hentry))
        fun key' hmem ckey' hkey' => by
          have hne : ckey' ≠ ckey := fun heq => hothers key' hmem (heq ▸ hkey')
          simp only [Function.update_of_ne hne]
          exact hthere key' (List.mem_cons_of_mem _ hmem) ckey' hkey'
      refine ⟨config', ?_, fun key' hmem ckey' hkey' => ?_, fun ckey' hnot => ?_⟩
      · rw [leave]
        exact (run_bind_ok hone).trans hrun
      · rcases List.mem_cons.mp hmem with rfl | hmem
        · obtain rfl : ckey' = ckey := Except.ok.inj (hkey'.symm.trans hkey)
          rw [hframe ckey' hothers]
          exact Function.update_self ..
        · exact hagree key' hmem ckey' hkey'
      · have hne : ckey' ≠ ckey := by
          intro heq
          exact hnot key (List.mem_cons_self ..) (heq ▸ hkey)
        rw [hframe ckey' fun key' hmem => hnot key' (List.mem_cons_of_mem _ hmem)]
        exact Function.update_of_ne hne ..

-- =========================================================== the bodies

/-- Every key is assigned if no keyword raises an exception. -/
theorem isSome_assigned {kw : List (PyStr × PyStr)}
    (h : (assigned start kw).2 = .ok ()) (hmem : key ∈ kw.map Prod.fst)
    {ckey : StdString} (hkey : tobytes key = .ok ckey) :
    ((assigned start kw).1 ckey).isSome := by
  induction kw with
  | nil => exact absurd hmem List.not_mem_nil
  | cons item kw ih =>
      obtain ⟨key', value⟩ := item
      unfold assigned at h ⊢
      cases hitem : assignment start key' value with
      | error e => simp [hitem] at h
      | ok pair =>
          obtain ⟨ckey', cvalue⟩ := pair
          simp only [hitem] at h ⊢
          by_cases hne : ckey = ckey'
          · subst hne
            simp
          · rw [Function.update_of_ne hne]
            rcases List.mem_cons.mp hmem with rfl | hmem
            · exact absurd
                (Except.ok.inj (hkey.symm.trans (assignment_ok hitem).2.1)) hne
            · exact ih h hmem

/-- The end of a block whose body has finished: its own keys hold what
they held before. -/
theorem leave_block {kw : List (PyStr × PyStr)} {olds : Saved}
    (hnodup : (kw.map Prod.fst).Nodup) (hdone : (assigned start kw).2 = .ok ())
    (hkeys : olds.map Prod.fst = kw.map Prod.fst)
    (hsaved : ∀ entry ∈ olds, SavedFrom start entry) (left : Assignments) :
    (leave olds).run ((start.assign (assigned start kw).1).assign left)
      = (.ok (), start.assign fun ckey =>
          if ((assigned start kw).1 ckey).isSome then none else left ckey) := by
  obtain ⟨config', hrun, hagree, hframe⟩ := @run_leave
    ((start.assign (assigned start kw).1).assign left) start olds
    (hkeys ▸ hnodup) hsaved fun key hmem ckey hkey =>
      isSome_overlay (isSome_overlay_left
        (isSome_assigned hdone (hkeys ▸ hmem) hkey))
  rw [hrun]
  have hsame : ∀ ckey, config'.kvmap ckey = overlay (fun ckey =>
      if ((assigned start kw).1 ckey).isSome then none else left ckey)
      start.kvmap ckey := by
    intro ckey
    cases hown : (assigned start kw).1 ckey with
    | some cvalue =>
        obtain ⟨key, hmem, hkey⟩ := mem_assigned hown
        rw [hagree key (hkeys ▸ hmem) ckey hkey]
        simp [overlay, hown]
    | none =>
        have hnot : ∀ key ∈ olds.map Prod.fst, tobytes key ≠ .ok ckey := by
          intro key hmem hkey
          have hsome := isSome_assigned hdone (hkeys ▸ hmem) hkey
          rw [hown] at hsome
          cases hsome
        rw [hframe ckey hnot]
        simp [Configuration.assign, overlay, hown]
  exact congrArg _ (congrArg Configuration.mk (funext hsame))

/-- Carrying out what a body leaves behind is all it does to the
configuration. -/
theorem run_exec (body : Body) (config : Configuration) :
    body.exec.run config
      = ((body.leaves config).2, config.assign (body.leaves config).1) := by
  induction body generalizing config with
  | pass => rw [Body.leaves, assign_nothing]; rfl
  | raises e => rw [Body.leaves, assign_nothing]; rfl
  | look next ih =>
      rw [Body.exec, run_bind_ok run_get]
      exact ih config config
  | andThen first second ihfirst ihsecond =>
      have hfirst := ihfirst config
      rw [Body.exec, Body.leaves]
      cases hleaves : first.leaves config with
      | mk left result =>
          rw [hleaves] at hfirst
          cases result with
          | error e => exact run_bind_error hfirst
          | ok =>
              rw [run_bind_ok hfirst, ihsecond, assign_assign]
  | handles body handler ihbody ihhandler =>
      have hbody := ihbody config
      rw [Body.exec, Body.leaves]
      cases hleaves : body.leaves config with
      | mk left result =>
          rw [hleaves] at hbody
          cases result with
          | ok => exact run_tryCatch_ok hbody
          | error e =>
              rw [run_tryCatch_error hbody, ihhandler, assign_assign]
  | block kw body ih =>
      have hnodup := kw.nodup
      rw [Body.exec, Body.leaves, withSet]
      rcases @run_enter config config kw.items hnodup (fun _ _ _ _ => rfl) [] with
        ⟨e, hfail, hrun⟩ | ⟨olds, hdone, hkeys, hsaved, hrun⟩
      · rw [run_bind_error hrun]
        generalize assigned config kw.items = own at hfail ⊢
        obtain ⟨own, result⟩ := own
        obtain rfl : result = .error e := hfail
        rfl
      · rw [run_bind_ok hrun, List.nil_append]
        have hbody := ih (config.assign (assigned config kw.items).1)
        have hleave := leave_block hnodup hdone hkeys hsaved
        generalize assigned config kw.items = own at hdone hbody hleave ⊢
        obtain ⟨own, result⟩ := own
        obtain rfl : result = .ok () := hdone
        simp only at hbody hleave ⊢
        generalize body.leaves (config.assign own) = ended at hbody ⊢
        obtain ⟨left, result⟩ := ended
        cases result with
        | error e => rw [run_bind_error hbody, assign_assign]
        | ok => rw [run_bind_ok hbody, hleave]

/-- Blocks that finish leave nothing behind. -/
theorem leaves_of_blocksFinish {body : Body} {config : Configuration}
    (h : body.BlocksFinish config) : (body.leaves config).1 = nothing := by
  induction body generalizing config with
  | pass => rfl
  | raises e => rfl
  | look next ih => exact ih config h
  | andThen first second ihfirst ihsecond =>
      obtain ⟨hfirst, hsecond⟩ := h
      rw [run_exec] at hsecond
      have hleft := ihfirst hfirst
      rw [Body.leaves]
      generalize first.leaves config = ended at hsecond hleft ⊢
      obtain ⟨left, result⟩ := ended
      cases result with
      | error e => exact hleft
      | ok =>
          dsimp only at hleft hsecond ⊢
          rw [ihsecond (hsecond rfl), hleft, overlay_nothing]
  | handles body handler ihbody ihhandler =>
      obtain ⟨hbody, hhandler⟩ := h
      rw [run_exec] at hhandler
      have hleft := ihbody hbody
      rw [Body.leaves]
      generalize body.leaves config = ended at hhandler hleft ⊢
      obtain ⟨left, result⟩ := ended
      cases result with
      | ok => exact hleft
      | error e =>
          dsimp only at hleft hhandler ⊢
          rw [ihhandler e (hhandler e rfl), hleft, overlay_nothing]
  | block kw body ih =>
      obtain ⟨hends, hbody⟩ := h
      rw [show withSet kw body.exec = (Body.block kw body).exec from rfl,
        run_exec] at hends
      rw [Body.leaves] at hends ⊢
      rcases @run_enter config config kw.items kw.nodup (fun _ _ _ _ => rfl) []
        with ⟨e, hfail, -⟩ | ⟨olds, hdone, -, -, hrun⟩
      · generalize assigned config kw.items = own at hfail hends
        obtain ⟨own, result⟩ := own
        obtain rfl : result = .error e := hfail
        cases hends
      · rw [hrun] at hbody
        have hleft := ih hbody
        generalize assigned config kw.items = own at hdone hends hleft ⊢
        obtain ⟨own, result⟩ := own
        obtain rfl : result = .ok () := hdone
        dsimp only at hends hleft ⊢
        generalize body.leaves (config.assign own) = ended at hends hleft ⊢
        obtain ⟨left, result⟩ := ended
        cases result with
        | error e => cases hends
        | ok =>
            dsimp only at hleft ⊢
            rw [hleft]
            funext key
            exact ite_self none

-- ============================================================ the block

/-- What a block leaves behind. -/
def leftBehind (kw : Keywords) (body : Body) (config : Configuration) :
    Assignments :=
  ((Body.block kw body).leaves config).1

/-- `config.set` restores the configuration exactly if every assignment
that was left behind, in this block or in one inside it, gave its key the
value that the configuration held there. -/
theorem set_restores_iff (kw : Keywords) (body : Body)
    (config : Configuration) :
    ((withSet kw body.exec).run config).2 = config ↔
      ∀ key value, leftBehind kw body config key = some value →
        config.kvmap key = some value := by
  rw [show withSet kw body.exec = (Body.block kw body).exec from rfl, run_exec]
  constructor
  · intro hsame
    exact overlay_eq_right.mp (congrArg Configuration.kvmap hsame)
  · intro hall
    exact congrArg Configuration.mk (overlay_eq_right.mpr hall)

/-- So it does if no exception leaves the block, or one inside it. -/
theorem set_restores_of_blocksFinish {kw : Keywords} {body : Body}
    {config : Configuration} (h : (Body.block kw body).BlocksFinish config) :
    (withSet kw body.exec).run config = (.ok (), config) := by
  have hends := h.1
  rw [show withSet kw body.exec = (Body.block kw body).exec from rfl, run_exec]
    at hends ⊢
  dsimp only at hends
  rw [hends, leaves_of_blocksFinish h, assign_nothing]

/-- A literal has an encoding. -/
theorem tobytes_literal (text : String) :
    tobytes (text.toList.map CodePoint.ofChar) = .ok (utf8 text) := by
  rw [tobytes, mapM_toChar_map]
  simp only [String.ofList_toList]

/-- The keyword `foo="bar"`. -/
def fooBar : Keywords where
  items := [("foo".toList.map CodePoint.ofChar,
    "bar".toList.map CodePoint.ofChar)]
  nodup := List.pairwise_singleton _ _

/-- The configuration of the tests. -/
def validationFull : Configuration :=
  Configuration.empty.set (utf8 "validation-level") (utf8 "full")

/-- The body raises an exception: `foo` is left with `bar`. -/
theorem set_left_behind :
    validationFull.kvmap (utf8 "foo") = none ∧
      ((withSet fooBar (Body.raises (.raised "ValueError")).exec).run
        validationFull).2.kvmap (utf8 "foo") = some (utf8 "bar") ∧
      ((withSet fooBar (Body.raises (.raised "ValueError")).exec).run
        validationFull).2 ≠ validationFull := by
  have hnone : validationFull.kvmap (utf8 "foo") = none := by
    have hne : utf8 "foo" ≠ utf8 "validation-level" :=
      fun heq => absurd (utf8_inj heq) (by decide)
    simp only [validationFull, Configuration.set, Configuration.empty,
      Function.update_of_ne hne]
  have hold : oldValue validationFull ("foo".toList.map CodePoint.ofChar) = .ok none := by
    rw [oldValue, tobytes_literal]
    simp only [bind, Except.bind, hnone]
    rfl
  have hfoo : ((withSet fooBar (Body.raises (.raised "ValueError")).exec).run
      validationFull).2.kvmap (utf8 "foo") = some (utf8 "bar") := by
    rw [show withSet fooBar _ = (Body.block fooBar
      (.raises (.raised "ValueError"))).exec from rfl, run_exec]
    simp only [Body.leaves, fooBar, assigned, assignment, hold, tobytes_literal,
      bind, Except.bind, pure, Except.pure]
    simp [Configuration.assign, overlay]
  refine ⟨hnone, hfoo, fun hsame => ?_⟩
  rw [hsame, hnone] at hfoo
  cases hfoo

end Arcae.Config
