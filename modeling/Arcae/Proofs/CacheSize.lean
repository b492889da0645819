/-
Which cap a storage manager ends up with.

Writing caps in order leaves the last one written, and sizes of zero
are not written. So the cap of a storage manager is the last positive
value among those that apply to it, from the default to its columns'
(`cap_eq_lastPositive`), while the value that should win is the last of
them, positive or not (`CacheSizeSpec.resolved`). The two differ exactly
when a zero overrides a positive value (`cache_precedence_iff`).
-/
import Arcae.Model.CacheSize
import Arcae.Lib.Loops
import Mathlib.Data.List.GetD
import Mathlib.Data.List.Induction
import Mathlib.Data.List.Pairwise

namespace Arcae

open Loops

-- ======================================================== the last positive

/-- The last positive value of some, or the value to start with. -/
def lastPositive (init : Int) (values : List Int) : Int :=
  values.foldl (fun cap mib => if 0 < mib then mib else cap) init

@[simp] theorem lastPositive_nil (init : Int) : lastPositive init [] = init := rfl

theorem lastPositive_append (init : Int) (values values' : List Int) :
    lastPositive init (values ++ values')
      = lastPositive (lastPositive init values) values' :=
  List.foldl_append

/-- One value as often as you like is one value. -/
theorem lastPositive_replicate (init v : Int) {n : Nat} (hn : 0 < n) :
    lastPositive init (List.replicate n v) = lastPositive init [v] := by
  induction n generalizing init with
  | zero => exact absurd hn (Nat.lt_irrefl 0)
  | succ n ih =>
      rw [List.replicate_succ, lastPositive, List.foldl_cons, ← lastPositive]
      cases n with
      | zero => rfl
      | succ n =>
          rw [ih _ (Nat.succ_pos n)]
          unfold lastPositive
          simp only [List.foldl_cons, List.foldl_nil]
          split <;> rfl

/-- Of values that are not negative, the last positive one is the last
if that is positive, or none is. -/
theorem lastPositive_eq_last {values : List Int} (hnn : ∀ v ∈ values, 0 ≤ v) :
    lastPositive 0 values = values.getLastD 0
      ↔ values.getLastD 0 ≠ 0 ∨ ∀ v ∈ values, v = 0 := by
  induction values using List.reverseRecOn with
  | nil => simp
  | append_singleton values v ih =>
      have hv := hnn v (by simp)
      have hrest := ih fun x hx => hnn x (by simp [hx])
      rw [List.getLastD_concat, lastPositive_append]
      simp only [lastPositive, List.foldl_cons, List.foldl_nil]
      rw [← lastPositive]
      by_cases hpos : 0 < v
      · rw [if_pos hpos]
        simp only [true_iff]
        exact .inl (by omega)
      · have hzero : v = 0 := by omega
        subst hzero
        rw [if_neg hpos]
        have hall : lastPositive 0 values = 0 ↔ ∀ x ∈ values, x = 0 := by
          constructor
          · intro heq x hx
            rw [heq] at hrest
            by_contra hne
            by_cases hlast : values.getLastD 0 = 0
            · rw [hlast] at hrest
              rcases hrest.mp rfl with h | h
              · exact h rfl
              · exact hne (h x hx)
            · exact hlast (hrest.mpr (.inl hlast)).symm
          · intro hx
            have hlast : values.getLastD 0 = 0 := by
              rcases List.eq_nil_or_concat values with rfl | ⟨l, y, rfl⟩
              · rfl
              · rw [List.concat_eq_append, List.getLastD_concat]
                exact hx y (by simp)
            rw [hrest.mpr (.inr hx), hlast]
        rw [hall]
        constructor
        · intro hx
          refine .inr fun x hx' => ?_
          rcases List.mem_append.mp hx' with h | h
          · exact hx x h
          · exact List.mem_singleton.mp h
        · intro hx
          obtain (h | h) := hx
          · exact absurd rfl h
          · exact fun x hx => h x (by simp [hx])

-- ==================================================== what ought to be set

namespace CacheSizeSpec

variable (spec : CacheSizeSpec)

/-- Every size is zero or more. -/
structure Valid : Prop where
  default_nonneg : ∀ mib, spec.defaultMib = some mib → 0 ≤ mib
  sm_nonneg : ∀ e ∈ spec.smMib.entries, 0 ≤ e.2
  col_nonneg : ∀ e ∈ spec.colMib.entries, 0 ≤ e.2

/-- Every name of the specification exists. -/
def Known (t : StorageManagers) : Prop :=
  (∀ e ∈ spec.smMib.entries, ∃ dm ∈ t.managers, dm.name = e.1)
    ∧ ∀ e ∈ spec.colMib.entries, ∃ dm ∈ t.managers, e.1 ∈ dm.columns

/-- The "column:" values that name a column of a storage manager. -/
def columnValues (dm : DataManagerInfo) : List Int :=
  (spec.colMib.entries.filter fun e => decide (e.1 ∈ dm.columns)).map Prod.snd

/-- The value meant for a storage manager: that of the last "column:"
entry naming one of its columns, else of its "stman:" entry, else the
default. -/
def resolved (dm : DataManagerInfo) : Int :=
  match (spec.columnValues dm).getLast? with
  | some mib => mib
  | none =>
      match spec.smMib.find dm.name with
      | some mib => mib
      | none => spec.defaultMib.getD kDefaultCacheSizeMiB

/-- Every value that applies to a storage manager, from the least to the
most specific. -/
def values (dm : DataManagerInfo) : List Int :=
  spec.defaultMib.getD kDefaultCacheSizeMiB
    :: ((spec.smMib.find dm.name).toList ++ spec.columnValues dm)

/-- No zero overrides a positive value: the value meant for the storage
manager is positive, or every value that applies to it is zero. A
storage manager without columns cannot be bounded. -/
def NoZeroOverride (dm : DataManagerInfo) : Prop :=
  if dm.columns = [] then spec.resolved dm = 0
  else spec.resolved dm ≠ 0 ∨ ∀ mib ∈ spec.values dm, mib = 0

/-- The value meant for a storage manager is the last that applies. -/
theorem resolved_eq_last (dm : DataManagerInfo) :
    spec.resolved dm = (spec.values dm).getLastD 0 := by
  unfold resolved values
  rcases List.eq_nil_or_concat (spec.columnValues dm) with hnil | ⟨l, v, hv⟩
  · rw [hnil]
    cases spec.smMib.find dm.name <;> rfl
  · rw [hv, List.concat_eq_append, List.getLast?_concat, ← List.append_assoc,
      ← List.cons_append, List.getLastD_concat]

variable {spec}

theorem Valid.values_nonneg (h : spec.Valid) (dm : DataManagerInfo) :
    ∀ v ∈ spec.values dm, 0 ≤ v := by
  intro v hv
  rcases List.mem_cons.mp hv with rfl | hv
  · cases hdef : spec.defaultMib with
    | none => exact (by decide : (0 : Int) ≤ 128)
    | some mib => exact h.default_nonneg mib hdef
  · rcases List.mem_append.mp hv with hv | hv
    · rw [Option.mem_toList, StdMap.find, Option.map_eq_some_iff] at hv
      obtain ⟨e, he, rfl⟩ := hv
      exact h.sm_nonneg e (List.mem_of_find?_eq_some he)
    · obtain ⟨e, he, rfl⟩ := List.mem_map.mp hv
      exact h.col_nonneg e (List.mem_filter.mp he).1

end CacheSizeSpec

-- ============================================================ what is set

namespace StorageManagers

variable {t : StorageManagers} {spec : CacheSizeSpec} {dm : DataManagerInfo}

/-- A column is served by one storage manager. -/
theorem eq_of_column_mem {dm' : DataManagerInfo} (hdm : dm ∈ t.managers)
    (hdm' : dm' ∈ t.managers) {column : String} (h : column ∈ dm.columns)
    (h' : column ∈ dm'.columns) : dm = dm' :=
  Loops.eq_of_disjoint (List.nodup_flatMap.mp t.columns_nodup).2 hdm hdm' h h'

/-- A storage manager is known by its name. -/
theorem eq_of_name_eq {dm' : DataManagerInfo} (hdm : dm ∈ t.managers)
    (hdm' : dm' ∈ t.managers) (h : dm.name = dm'.name) : dm = dm' :=
  List.inj_on_of_nodup_map t.names_nodup hdm hdm' h

/-- Setting a column sets the cap of the storage manager that serves it,
and no other. -/
theorem setColumn_name (hdm : dm ∈ t.managers) (caps : CacheCaps)
    (write : String × Int) :
    t.setColumn caps write dm.name
      = if write.1 ∈ dm.columns ∧ 0 < write.2 then write.2 else caps dm.name := by
  unfold setColumn setMaximumCacheSize
  by_cases hpos : 0 < write.2
  · rw [if_pos hpos]
    cases hfind : t.managers.find? fun dm => decide (write.1 ∈ dm.columns) with
    | none =>
        have hnot := List.find?_eq_none.mp hfind dm hdm
        rw [decide_eq_true_eq] at hnot
        exact (if_neg fun h => hnot h.1).symm
    | some dm' =>
        have hdm' := List.mem_of_find?_eq_some hfind
        have hin' : write.1 ∈ dm'.columns := by
          have := List.find?_some hfind
          rwa [decide_eq_true_eq] at this
        by_cases hin : write.1 ∈ dm.columns
        · rw [eq_of_column_mem hdm hdm' hin hin', if_pos ⟨hin', hpos⟩]
          exact Function.update_self _ _ _
        · rw [if_neg fun h => hin h.1]
          refine Function.update_of_ne (fun hname => hin ?_) _ _
          rwa [eq_of_name_eq hdm hdm' hname]
  · rw [if_neg hpos, if_neg fun h => hpos h.2]

/-- The cap of a storage manager is the last positive one written to its
columns. -/
theorem caps_foldl (hdm : dm ∈ t.managers) (writes : List (String × Int))
    (caps : CacheCaps) :
    writes.foldl t.setColumn caps dm.name
      = lastPositive (caps dm.name)
        ((writes.filter fun w => decide (w.1 ∈ dm.columns)).map Prod.snd) := by
  induction writes generalizing caps with
  | nil => rfl
  | cons w writes ih =>
      rw [List.foldl_cons, ih, setColumn_name hdm]
      by_cases hin : w.1 ∈ dm.columns
      · rw [List.filter_cons_of_pos (by simpa using hin), List.map_cons]
        simp only [hin, true_and]
        rfl
      · rw [List.filter_cons_of_neg (by simpa using hin), if_neg fun h => hin h.1]

/-- The columns of a storage manager among all columns. -/
theorem filter_allColumns (hdm : dm ∈ t.managers) :
    (t.allColumns.filter fun column => decide (column ∈ dm.columns)).Perm
      dm.columns := by
  have hflat := t.columns_nodup
  rw [allColumns, List.Nodup.dedup hflat]
  refine (List.perm_ext_iff_of_nodup (hflat.filter _) ?_).mpr fun column => ?_
  · exact (List.nodup_flatMap.mp hflat).1 dm hdm
  · rw [List.mem_filter, List.mem_flatMap, decide_eq_true_eq]
    exact ⟨And.right, fun h => ⟨⟨dm, hdm, h⟩, h⟩⟩

/-- The columns of a name are those of the storage manager of that
name. -/
theorem smColumns_name (hdm : dm ∈ t.managers) :
    t.smColumns dm.name = dm.columns := by
  have hfilter : t.managers.filter (fun dm' => dm'.name == dm.name) = [dm] := by
    refine List.perm_singleton.mp ?_
    have hnodup : t.managers.Nodup := List.Nodup.of_map _ t.names_nodup
    refine (List.perm_ext_iff_of_nodup (hnodup.filter _)
      (List.nodup_singleton dm)).mpr fun dm' => ?_
    rw [List.mem_filter, List.mem_singleton, beq_iff_eq]
    constructor
    · intro hx
      obtain ⟨hdm', hname⟩ := hx
      exact eq_of_name_eq hdm' hdm hname
    · intro heq
      subst heq
      exact ⟨hdm, rfl⟩
  rw [smColumns, hfilter, List.flatMap_singleton]

/-- The values a pass over the columns of some names writes to a storage
manager: that of its own name, once for each column. -/
theorem smWrites_values (hdm : dm ∈ t.managers) (m : StdMap Int) :
    ((m.entries.flatMap fun e => (t.smColumns e.1).map fun column =>
        (column, e.2)).filter fun w => decide (w.1 ∈ dm.columns)).map Prod.snd
      = (m.find dm.name).toList.flatMap fun mib =>
          List.replicate dm.columns.length mib := by
  obtain ⟨entries, hsorted⟩ := m
  have hnodup : (entries.map Prod.fst).Nodup := hsorted.imp fun {a b} hlt => by
    intro heq
    subst heq
    exact String.lt_irrefl a hlt
  unfold StdMap.find
  dsimp only
  clear hsorted
  induction entries with
  | nil => rfl
  | cons e entries ih =>
      rw [List.map_cons, List.nodup_cons] at hnodup
      rw [List.flatMap_cons, List.filter_append, List.map_append,
        ih hnodup.2, List.filter_map, List.map_map]
      by_cases hname : e.1 = dm.name
      · have hrest : entries.find? (fun e' => e'.1 == dm.name) = none := by
          rw [List.find?_eq_none]
          intro e' he' heq
          rw [beq_iff_eq] at heq
          exact hnodup.1 (List.mem_map.mpr ⟨e', he', heq.trans hname.symm⟩)
        have hall : (dm.columns.filter
            ((fun w : String × Int => decide (w.1 ∈ dm.columns))
              ∘ fun column => (column, e.2))) = dm.columns :=
          List.filter_eq_self.mpr fun column h => by simpa using h
        rw [hrest, hname, smColumns_name hdm, hall,
          List.find?_cons_of_pos (by simpa using hname)]
        rw [Option.map_some, Option.toList_some, List.flatMap_singleton]
        simp only [Option.map_none, Option.toList_none, List.flatMap_nil,
          List.append_nil]
        exact List.map_const'
      · have hnone : (t.smColumns e.1).filter
            ((fun w : String × Int => decide (w.1 ∈ dm.columns))
              ∘ fun column => (column, e.2)) = [] := by
          rw [List.filter_eq_nil_iff]
          intro column hcolumn
          rw [smColumns, List.mem_flatMap] at hcolumn
          obtain ⟨dm', hdm', hin'⟩ := hcolumn
          rw [List.mem_filter, beq_iff_eq] at hdm'
          rw [Function.comp_apply, decide_eq_true_eq]
          intro hin
          exact hname (by rw [← hdm'.2, eq_of_column_mem hdm hdm'.1 hin hin'])
        rw [hnone, List.find?_cons_of_neg (by simpa using hname)]
        rfl

/-- The cap of a storage manager: the last positive of the values that
apply to it, if it has a column to set it through. -/
theorem cap_eq_lastPositive (hdm : dm ∈ t.managers) :
    (t.cacheWrites spec).foldl t.setColumn CacheCaps.unbounded dm.name
      = if dm.columns = [] then 0 else lastPositive 0 (spec.values dm) := by
  have hdefault : ((t.allColumns.map fun column =>
        (column, spec.defaultMib.getD kDefaultCacheSizeMiB)).filter
        fun w => decide (w.1 ∈ dm.columns)).map Prod.snd
      = List.replicate dm.columns.length
          (spec.defaultMib.getD kDefaultCacheSizeMiB) := by
    rw [List.filter_map, List.map_map]
    have hlen := (filter_allColumns hdm).length_eq
    rw [← hlen]
    exact List.map_const'
  rw [caps_foldl hdm, cacheWrites, List.filter_append, List.filter_append,
    List.map_append, List.map_append, hdefault, smWrites_values hdm, lastPositive_append, lastPositive_append]
  show lastPositive (lastPositive (lastPositive 0 _) _) (spec.columnValues dm) = _
  by_cases hnil : dm.columns = []
  · have hcols : spec.columnValues dm = [] := by
      simp [CacheSizeSpec.columnValues, hnil]
    rw [if_pos hnil, hcols, hnil]
    cases spec.smMib.find dm.name <;> rfl
  · have hlen : 0 < dm.columns.length := List.length_pos_of_ne_nil hnil
    have hvalues : spec.values dm
        = ([spec.defaultMib.getD kDefaultCacheSizeMiB]
          ++ (spec.smMib.find dm.name).toList) ++ spec.columnValues dm := rfl
    rw [if_neg hnil, lastPositive_replicate _ _ hlen, hvalues,
      lastPositive_append _ _ (spec.columnValues dm), lastPositive_append]
    congr 1
    cases spec.smMib.find dm.name with
    | none => rfl
    | some mib =>
        rw [Option.toList_some, List.flatMap_singleton,
          lastPositive_replicate _ _ hlen]

/-- The names are checked first. -/
theorem checkNames_outcome :
    Outcome (t.checkNames spec) (spec.Known t) (fun _ => True)
      (fun _ => True) := by
  have hcolumn : ∀ column, column ∈ t.allColumns
      ↔ ∃ dm ∈ t.managers, column ∈ dm.columns := by
    intro column
    rw [allColumns, List.mem_dedup, List.mem_flatMap]
  have hsm : Outcome (spec.smMib.entries.forM fun e =>
      if t.managers.any (fun dm => dm.name == e.1) then Except.ok PUnit.unit
      else .error (Status.invalid
        ("Unknown storage manager '" ++ e.1 ++ "' in cache_size")))
      (∀ e ∈ spec.smMib.entries, ∃ dm ∈ t.managers, dm.name = e.1)
      (fun _ => True) (fun _ => True) := by
    refine Outcome.forM fun e _ => ?_
    split
    · rename_i h
      simp only [List.any_eq_true, beq_iff_eq] at h
      exact .inl ⟨h, _, rfl, trivial⟩
    · rename_i h
      simp only [List.any_eq_true, beq_iff_eq] at h
      exact .inr ⟨h, _, rfl, trivial⟩
  have hcol : Outcome (spec.colMib.entries.forM fun e =>
      if e.1 ∈ t.allColumns then Except.ok PUnit.unit
      else .error (Status.invalid
        ("Unknown column '" ++ e.1 ++ "' in cache_size")))
      (∀ e ∈ spec.colMib.entries, ∃ dm ∈ t.managers, e.1 ∈ dm.columns)
      (fun _ => True) (fun _ => True) := by
    refine Outcome.forM fun e _ => ?_
    split
    · rename_i h
      exact .inl ⟨(hcolumn e.1).mp h, _, rfl, trivial⟩
    · rename_i h
      exact .inr ⟨fun hk => h ((hcolumn e.1).mpr hk), _, rfl, trivial⟩
  rcases hsm with ⟨hgood, b, hb, -⟩ | ⟨hbad, e, he, -⟩
  · rcases hcol with ⟨hgood', b', hb', -⟩ | ⟨hbad', e', he', -⟩
    · refine .inl ⟨⟨hgood, hgood'⟩, (), ?_, trivial⟩
      rw [checkNames, hb]
      exact hb'
    · refine .inr ⟨fun hk => hbad' hk.2, e', ?_, trivial⟩
      rw [checkNames, hb]
      exact he'
  · refine .inr ⟨fun hk => hbad hk.1, e, ?_, trivial⟩
    rw [checkNames, he]
    rfl

end StorageManagers

-- ========================================================== the precedence

/-- Every storage manager ends up with the value meant for it, and
unknown names change nothing, exactly when some name is unknown or no
zero overrides a positive value. -/
theorem cache_precedence_iff (t : StorageManagers) (spec : CacheSizeSpec)
    (hvalid : spec.Valid) :
    ((∀ caps, t.applyCacheSizes spec .unbounded = (.ok (), caps) →
        ∀ dm ∈ t.managers, caps dm.name = spec.resolved dm)
      ∧ (¬ spec.Known t →
          (t.applyCacheSizes spec .unbounded).2 = CacheCaps.unbounded))
    ↔ ¬ spec.Known t ∨ ∀ dm ∈ t.managers, spec.NoZeroOverride dm := by
  have hcap : ∀ dm ∈ t.managers,
      ((t.cacheWrites spec).foldl t.setColumn .unbounded dm.name
        = spec.resolved dm ↔ spec.NoZeroOverride dm) := by
    intro dm hdm
    rw [StorageManagers.cap_eq_lastPositive hdm, CacheSizeSpec.NoZeroOverride]
    by_cases hnil : dm.columns = []
    · rw [if_pos hnil, if_pos hnil]
      exact eq_comm
    · rw [if_neg hnil, if_neg hnil, spec.resolved_eq_last]
      exact lastPositive_eq_last (hvalid.values_nonneg dm)
  unfold StorageManagers.applyCacheSizes
  rcases @StorageManagers.checkNames_outcome t spec with
    ⟨hknown, ⟨⟩, hok, -⟩ | ⟨hunknown, e, herr, -⟩
  · rw [hok]
    simp only [Prod.mk.injEq, true_and, hknown, not_true_eq_false,
      false_implies, and_true, false_or]
    constructor
    · exact fun h dm hdm => (hcap dm hdm).mp (h _ rfl dm hdm)
    · intro h caps heq dm hdm
      subst heq
      exact (hcap dm hdm).mpr (h dm hdm)
  · rw [herr]
    refine iff_of_true ⟨?_, fun _ => rfl⟩ (.inl hunknown)
    intro caps h
    cases h

/-- A table of two storage managers. -/
def sampleManagers : StorageManagers where
  managers := [⟨"TiledData", ["DATA", "MODEL"]⟩, ⟨"TiledFlag", ["FLAG"]⟩]
  names_nodup := by decide
  columns_nodup := by decide

/-- All three levels. -/
def sampleSpec : CacheSizeSpec where
  defaultMib := some 0
  smMib := ⟨[("TiledData", 64)], by decide⟩
  colMib := ⟨[("DATA", 32)], by decide⟩

theorem sampleSpec_valid : sampleSpec.Valid where
  default_nonneg := by
    intro mib hof
    cases hof
    decide
  sm_nonneg := by decide
  col_nonneg := by decide

/-- The column's size wins for its storage manager, the default for the
other. -/
theorem cache_precedence_sample :
    ∃ caps, sampleManagers.applyCacheSizes sampleSpec .unbounded = (.ok (), caps)
      ∧ caps "TiledData" = 32 ∧ caps "TiledFlag" = 0 := by
  have hall : ∀ dm ∈ sampleManagers.managers, sampleSpec.NoZeroOverride dm := by
    unfold CacheSizeSpec.NoZeroOverride
    decide
  have h := (cache_precedence_iff sampleManagers sampleSpec sampleSpec_valid).mpr
    (.inr hall)
  exact ⟨_, rfl, h.1 _ rfl ⟨"TiledData", ["DATA", "MODEL"]⟩ (by decide),
    h.1 _ rfl ⟨"TiledFlag", ["FLAG"]⟩ (by decide)⟩

/-- A storage manager asked to be unbounded. -/
def zeroSpec : CacheSizeSpec where
  defaultMib := none
  smMib := ⟨[("TiledData", 0)], by decide⟩
  colMib := .empty

/-- The storage manager asked to be unbounded gets the default cap. -/
theorem zero_not_applied :
    zeroSpec.Valid ∧ zeroSpec.Known sampleManagers
      ∧ zeroSpec.resolved ⟨"TiledData", ["DATA", "MODEL"]⟩ = 0
      ∧ ∃ caps, sampleManagers.applyCacheSizes zeroSpec .unbounded
            = (.ok (), caps)
          ∧ caps "TiledData" = 128 := by
  refine ⟨⟨by rintro mib ⟨⟩, by decide, by rintro e ⟨⟩⟩, ?_, by decide, _, rfl,
    by decide⟩
  unfold CacheSizeSpec.Known
  decide

end Arcae
