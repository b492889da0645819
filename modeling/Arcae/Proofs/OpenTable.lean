/-
A `cache_size` means the same in C++ as in Python.

On the way it is split up by the beginnings of its names: a name under
"stman:" or "column:" goes, without that beginning, into a map of its own.
Nothing is lost by that, for a beginning and the rest make the name again
(`stripStart_eq_some`); so a specification answers for every name of the
`dict` (`CacheSizeSpec.value`), and a turn of the loop over the fields adds
an answer (`parseCacheSizeField_spec`). What comes out is the `dict`, and
in what order it was filled leaves no trace: not in the specification, and
not in the caps that it sets (`cache_size_from_python`).
-/
import Arcae.Model.OpenTable
import Arcae.Proofs.CacheSize

namespace Arcae

open Loops

variable {json : JsonText} {arg : CacheSizeArg} {spec spec' : CacheSizeSpec}
  {name start rest key : String}

-- ================================================================ names

/-- A beginning and the rest are the name. -/
theorem stripStart_eq_some :
    stripStart name start = some rest ↔ name = start ++ rest := by
  unfold stripStart
  constructor
  · intro h
    split at h
    · next hstart =>
      obtain ⟨t, ht⟩ := hstart
      rw [← ht, List.drop_left] at h
      cases h
      rw [← String.toList_inj, String.toList_append, String.toList_ofList, ht]
    · cases h
  · intro h
    subst h
    rw [String.toList_append, if_pos (List.prefix_append _ _), List.drop_left,
      String.ofList_toList]

theorem startsWith_iff :
    startsWith name start = true ↔ ∃ rest, name = start ++ rest := by
  rw [startsWith, decide_eq_true_eq]
  constructor
  · intro h
    obtain ⟨t, ht⟩ := h
    exact ⟨String.ofList t, by
      rw [← String.toList_inj, String.toList_append, String.toList_ofList, ht]⟩
  · intro h
    obtain ⟨rest, rfl⟩ := h
    rw [String.toList_append]
    exact List.prefix_append _ _

/-- The names that a `cache_size` may have. -/
def KnownKey (key : String) : Prop :=
  key = "default" ∨ (∃ rest, key = kStManPrefix ++ rest)
    ∨ ∃ rest, key = kColumnPrefix ++ rest

/-- Names that begin differently are different. -/
theorem append_ne_append {start' : String} {c c' : Char}
    (h : start.toList.head? = some c) (h' : start'.toList.head? = some c')
    (hne : c ≠ c') (rest rest' : String) : start ++ rest ≠ start' ++ rest' := by
  intro heq
  have hhead := congrArg (fun name => name.toList.head?) heq
  simp only [String.toList_append, List.head?_append, h, h', Option.some_or,
    Option.some.injEq] at hhead
  exact hne hhead

theorem stman_ne_column (rest rest' : String) :
    kStManPrefix ++ rest ≠ kColumnPrefix ++ rest' :=
  append_ne_append rfl rfl (by decide : 's' ≠ 'c') rest rest'

theorem stman_ne_default (rest : String) : kStManPrefix ++ rest ≠ "default" :=
  fun h => append_ne_append rfl rfl (by decide : 's' ≠ 'd') rest ""
    (h.trans String.append_empty.symm)

theorem column_ne_default (rest : String) :
    kColumnPrefix ++ rest ≠ "default" :=
  fun h => append_ne_append rfl rfl (by decide : 'c' ≠ 'd') rest ""
    (h.trans String.append_empty.symm)

theorem stripStart_append (start rest : String) :
    stripStart (start ++ rest) start = some rest :=
  stripStart_eq_some.mpr rfl

theorem stripStart_column (rest : String) :
    stripStart (kColumnPrefix ++ rest) kStManPrefix = none :=
  Option.eq_none_iff_forall_ne_some.mpr fun other h =>
    stman_ne_column other rest (stripStart_eq_some.mp h).symm

-- ======================================================== what is asked for

/-- What a specification says under a name. -/
def CacheSizeSpec.value (spec : CacheSizeSpec) (key : String) : Option Int :=
  if key = "default" then spec.defaultMib
  else
    match stripStart key kStManPrefix with
    | some name => spec.smMib.find name
    | none =>
        match stripStart key kColumnPrefix with
        | some name => spec.colMib.find name
        | none => none

theorem CacheSizeSpec.value_default : spec.value "default" = spec.defaultMib :=
  if_pos rfl

theorem CacheSizeSpec.value_stman (name : String) :
    spec.value (kStManPrefix ++ name) = spec.smMib.find name := by
  rw [value, if_neg (stman_ne_default name), stripStart_append]

theorem CacheSizeSpec.value_column (name : String) :
    spec.value (kColumnPrefix ++ name) = spec.colMib.find name := by
  rw [value, if_neg (column_ne_default name), stripStart_column,
    stripStart_append]

/-- Nothing is said under other names. -/
theorem CacheSizeSpec.value_unknown (h : ¬ KnownKey key) :
    spec.value key = none := by
  rw [KnownKey, not_or, not_or] at h
  obtain ⟨hdefault, hstman, hcolumn⟩ := h
  have hnone (start : String) (hno : ¬ ∃ rest, key = start ++ rest) :
      stripStart key start = none :=
    Option.eq_none_iff_forall_ne_some.mpr fun rest h =>
      hno ⟨rest, stripStart_eq_some.mp h⟩
  rw [value, if_neg hdefault, hnone _ hstman, hnone _ hcolumn]

/-- What is found after a new entry. -/
theorem StdMap.find_emplace {β : Type} (m : StdMap β) (name other : String)
    (value : β) : (m.emplace name value).find other
      = if name = other then (m.find other).or (some value)
        else m.find other :=
  SortedEntries.find_emplace m.sorted other

/-- What a specification says is what its three parts say. -/
theorem CacheSizeSpec.value_eq {said : String → Option Int}
    (hdefault : spec.defaultMib = said "default")
    (hstman : ∀ name, spec.smMib.find name = said (kStManPrefix ++ name))
    (hcolumn : ∀ name, spec.colMib.find name = said (kColumnPrefix ++ name))
    (hunknown : ∀ key, ¬ KnownKey key → said key = none) (key : String) :
    spec.value key = said key := by
  by_cases hknown : KnownKey key
  · rcases hknown with rfl | ⟨name, rfl⟩ | ⟨name, rfl⟩
    · rw [value_default, hdefault]
    · rw [value_stman, hstman]
    · rw [value_column, hcolumn]
  · rw [value_unknown hknown, hunknown key hknown]

/-- One more answer, under a name that is known. -/
def CacheSizeSpec.Adds (spec : CacheSizeSpec) (key : String) (mib : Int)
    (spec' : CacheSizeSpec) : Prop :=
  ∀ other, spec'.value other = if key = other then some mib else spec.value other

/-- A name of no answer yet gets one in its map. -/
theorem find_emplace_new {m : StdMap Int} (hnew : m.find name = none)
    (other : String) (mib : Int) : (m.emplace name mib).find other
      = if start ++ name = start ++ other then some mib else m.find other := by
  rw [StdMap.find_emplace]
  by_cases hname : name = other
  · rw [if_pos hname, if_pos (by rw [hname]), ← hname, hnew]
    rfl
  · have hne : start ++ name ≠ start ++ other := fun h => hname (by
      rw [← String.toList_inj, String.toList_append, String.toList_append] at h
      rw [← String.toList_inj]
      exact List.append_cancel_left h)
    rw [if_neg hname, if_neg hne]

/-- A turn of the loop over the fields: a field of a new name that is known
and of a size that is not negative is one more answer, and any other stops
the loop. -/
theorem parseCacheSizeField_spec {mib : Int} (hnew : spec.value key = none) :
    Outcome (parseCacheSizeField spec (key, some mib)) (0 ≤ mib ∧ KnownKey key)
      (spec.Adds key mib) (fun _ => True) := by
  unfold parseCacheSizeField
  dsimp only
  by_cases hneg : mib < 0
  · rw [if_pos hneg]
    exact .inr ⟨fun h => absurd h.1 (Int.not_le.mpr hneg), _, rfl, trivial⟩
  · rw [if_neg hneg]
    have hnn := Int.not_lt.mp hneg
    by_cases hknown : KnownKey key
    · -- a known key is left out of what is said of unknown ones
      have hunknown : ∀ other, ¬ KnownKey other →
          (if key = other then some mib else spec.value other) = none := by
        intro other hother
        have hne : key ≠ other := fun heq => hother (heq ▸ hknown)
        rw [if_neg hne, CacheSizeSpec.value_unknown hother]
      rcases hknown with rfl | ⟨name, rfl⟩ | ⟨name, rfl⟩
      · rw [if_pos rfl]
        refine .inl ⟨⟨hnn, .inl rfl⟩, _, rfl, CacheSizeSpec.value_eq ?_
          (fun name => ?_) (fun name => ?_) hunknown⟩
        · rw [if_pos rfl]
        · rw [if_neg (stman_ne_default name).symm, CacheSizeSpec.value_stman]
        · rw [if_neg (column_ne_default name).symm, CacheSizeSpec.value_column]
      · rw [if_neg (stman_ne_default name), stripStart_append]
        rw [CacheSizeSpec.value_stman] at hnew
        refine .inl ⟨⟨hnn, .inr (.inl ⟨name, rfl⟩)⟩, _, rfl,
          CacheSizeSpec.value_eq ?_ (fun other => ?_) (fun other => ?_) hunknown⟩
        · rw [if_neg (stman_ne_default name), CacheSizeSpec.value_default]
        · rw [CacheSizeSpec.value_stman]
          exact find_emplace_new hnew other mib
        · rw [if_neg (stman_ne_column name other), CacheSizeSpec.value_column]
      · rw [if_neg (column_ne_default name), stripStart_column,
          stripStart_append]
        rw [CacheSizeSpec.value_column] at hnew
        refine .inl ⟨⟨hnn, .inr (.inr ⟨name, rfl⟩)⟩, _, rfl,
          CacheSizeSpec.value_eq ?_ (fun other => ?_) (fun other => ?_) hunknown⟩
        · rw [if_neg (column_ne_default name), CacheSizeSpec.value_default]
        · rw [if_neg (stman_ne_column other name).symm,
            CacheSizeSpec.value_stman]
        · rw [CacheSizeSpec.value_column]
          exact find_emplace_new hnew other mib
    · have hno := hknown
      rw [KnownKey, not_or, not_or] at hno
      have hnone (start : String) (hstart : ¬ ∃ rest, key = start ++ rest) :
          stripStart key start = none :=
        Option.eq_none_iff_forall_ne_some.mpr fun rest h =>
          hstart ⟨rest, stripStart_eq_some.mp h⟩
      rw [if_neg hno.1, hnone _ hno.2.1, hnone _ hno.2.2]
      exact .inr ⟨fun h => hknown h.2, _, rfl, trivial⟩

/-- The loop over fields of names that are all new. -/
theorem foldlM_fields {fields : List (String × Int)}
    (hnodup : (fields.map Prod.fst).Nodup)
    (hnew : ∀ e ∈ fields, spec.value e.1 = none) :
    Outcome ((fields.map fun e => (e.1, some e.2)).foldlM parseCacheSizeField
        spec)
      (∀ e ∈ fields, 0 ≤ e.2 ∧ KnownKey e.1)
      (fun spec' => ∀ key, spec'.value key
        = (SortedEntries.find key fields).or (spec.value key))
      (fun _ => True) := by
  induction fields generalizing spec with
  | nil => exact .inl ⟨by simp, spec, rfl, fun key => rfl⟩
  | cons e fields ih =>
      rw [List.map_cons, List.nodup_cons] at hnodup
      rw [List.map_cons, List.foldlM_cons]
      have hturn : Outcome (parseCacheSizeField spec (e.1, some e.2))
          (0 ≤ e.2 ∧ KnownKey e.1) (spec.Adds e.1 e.2) (fun _ => True) :=
        parseCacheSizeField_spec (hnew e List.mem_cons_self)
      rcases hturn with ⟨hgood, spec₁, hspec₁, hadds⟩ |
        ⟨hbad, status, herror, -⟩
      · rw [hspec₁]
        have hfresh : ∀ e' ∈ fields, spec₁.value e'.1 = none := by
          intro e' he'
          have hne : e.1 ≠ e'.1 := fun heq =>
            hnodup.1 (heq ▸ List.mem_map_of_mem he')
          rw [hadds, if_neg hne]
          exact hnew e' (List.mem_cons_of_mem _ he')
        refine (ih hnodup.2 hfresh).imp ?_ (fun spec' hspec' key => ?_)
          fun _ h => h
        · rw [List.forall_mem_cons]
          exact ⟨fun h => ⟨hgood, h⟩, And.right⟩
        · rw [hspec', hadds, SortedEntries.find_cons]
          by_cases hkey : e.1 = key
          · have hnone : SortedEntries.find key fields = none :=
              SortedEntries.find_eq_none.mpr (hkey ▸ hnodup.1)
            rw [if_pos hkey, if_pos hkey, hnone]
            rfl
          · rw [if_neg hkey, if_neg hkey]
      · rw [herror]
        exact .inr ⟨fun h => hbad (h e List.mem_cons_self), status, rfl, trivial⟩

-- ================================================================ Python

/-- What the argument says under a name. -/
def CacheSizeArg.value : CacheSizeArg → String → Option Int
  | .int value, key => if key = "default" then .some value else .none
  | .dict value, key =>
      (SortedEntries.find key value.entries).bind PyValue.toInt
  | _, _ => .none

/-- The argument is nothing, a size, or sizes under names that are known;
no size is negative. -/
def CacheSizeArg.Valid : CacheSizeArg → Prop
  | .none => True
  | .int value => 0 ≤ value
  | .dict value => ∀ e ∈ value.entries,
      KnownKey e.1 ∧ ∃ mib, e.2 = .int mib ∧ 0 ≤ mib
  | _ => False

theorem checkEntry_eq_ok {entry : String × PyValue} {checked : String × Int} :
    checkEntry entry = .ok checked
      ↔ KnownKey entry.1 ∧ entry.2 = .int checked.2 ∧ checked.1 = entry.1 := by
  have hkey : (entry.1 = "default" ∨ startsWith entry.1 "stman:" = true
      ∨ startsWith entry.1 "column:" = true) ↔ KnownKey entry.1 := by
    rw [startsWith_iff, startsWith_iff]
    rfl
  unfold checkEntry
  by_cases hknown : KnownKey entry.1
  · rw [if_pos (hkey.mpr hknown)]
    cases entry.2 with
    | int value =>
        constructor
        · intro h
          cases h
          exact ⟨hknown, rfl, rfl⟩
        · intro h
          obtain ⟨-, hvalue, hname⟩ := h
          cases hvalue
          rw [← hname]
    | bool value => exact iff_of_false (by simp) (by simp)
    | other type => exact iff_of_false (by simp) (by simp)
  · rw [if_neg fun h => hknown (hkey.mp h)]
    exact iff_of_false (by simp) fun h => hknown h.1

/-- The entries of a `dict` that gets through. -/
theorem mapM_checkEntry {entries : List (String × PyValue)}
    {checked : List (String × Int)} :
    entries.mapM checkEntry = .ok checked
      ↔ (∀ e ∈ entries, KnownKey e.1)
        ∧ entries = checked.map fun e => (e.1, .int e.2) := by
  rw [mapM_eq_ok]
  constructor
  · intro h
    induction h with
    | nil => exact ⟨by simp, rfl⟩
    | cons he _ ih =>
        obtain ⟨hknown, hvalue, hname⟩ := checkEntry_eq_ok.mp he
        refine ⟨List.forall_mem_cons.mpr ⟨hknown, ih.1⟩, ?_⟩
        rw [List.map_cons, ← ih.2, hname, ← hvalue]
  · intro h
    obtain ⟨hknown, rfl⟩ := h
    rw [List.forall₂_map_left_iff, List.forall₂_same]
    exact fun e he => checkEntry_eq_ok.mpr
      ⟨hknown _ (List.mem_map_of_mem he), rfl, rfl⟩

/-- The fields of a text that is read as it was written. -/
theorem parseCacheSizeSpec_fields {text : String} {entries : List (String × Int)}
    (hnodup : (entries.map Prod.fst).Nodup)
    (hread : json.parse text = .ok (entries.map fun e => (e.1, some e.2))) :
    Outcome (parseCacheSizeSpec json text)
      (∀ e ∈ entries, 0 ≤ e.2 ∧ KnownKey e.1)
      (fun spec => ∀ key, spec.value key = SortedEntries.find key entries)
      (fun _ => True) := by
  have hempty : ∀ key, CacheSizeSpec.value ⟨none, .empty, .empty⟩ key = none :=
    CacheSizeSpec.value_eq rfl (fun _ => rfl) (fun _ => rfl) fun _ _ => rfl
  rw [parseCacheSizeSpec, hread]
  refine (foldlM_fields hnodup fun e _ => hempty e.1).imp Iff.rfl
    (fun spec h key => ?_) fun _ h => h
  rw [h, hempty, Option.or_none]

-- ============================================================== all of it

/-- An error of another type is an error. -/
theorem outcome_mapError {ε ε' γ : Type} {x : Except ε γ} {good : Prop}
    {P : γ → Prop} {E : ε → Prop} (h : Outcome x good P E) (f : ε → ε') :
    Outcome (x.mapError f) good P (fun _ => True) := by
  rcases h with ⟨hgood, b, rfl, hb⟩ | ⟨hbad, e, rfl, -⟩
  · exact .inl ⟨hgood, b, rfl, hb⟩
  · exact .inr ⟨hbad, f e, rfl, trivial⟩

/-- A `dict` is checked, written and read. -/
theorem openCacheSize_dict (value : PyDict) :
    openCacheSize json (.dict value)
      = match value.entries.mapM checkEntry with
        | .error e => .error (.inl e)
        | .ok entries =>
            (parseCacheSizeSpec json (json.dumps entries)).mapError .inr := by
  show ((value.entries.mapM checkEntry >>= fun entries =>
    pure (json.dumps entries)).mapError Sum.inl >>= _) = _
  cases value.entries.mapM checkEntry <;> rfl

/-- A specification answers as the argument does. -/
theorem openCacheSize_outcome (hfits : arg.FitsInt) (hjson : json.Reads arg) :
    Outcome (openCacheSize json arg) arg.Valid
      (fun spec => ∀ key, spec.value key = arg.value key) (fun _ => True) := by
  cases arg with
  | none =>
      have hparse := @parseCacheSizeSpec_fields json _ [] List.nodup_nil hjson.1
      exact (outcome_mapError hparse Sum.inr).imp
        ⟨fun _ => trivial, fun _ => by simp⟩ (fun _ h => h) fun _ h => h
  | bool value => exact .inr ⟨fun h => h, _, rfl, trivial⟩
  | other type => exact .inr ⟨fun h => h, _, rfl, trivial⟩
  | int value =>
      have hparse := @parseCacheSizeSpec_fields json _ [("default", value)]
        (List.nodup_singleton _) (hjson.2 hfits)
      refine (outcome_mapError hparse Sum.inr).imp ?_ (fun spec h key => ?_)
        fun _ h => h
      · rw [List.forall_mem_singleton]
        exact ⟨And.left, fun h => ⟨h, .inl rfl⟩⟩
      · rw [h, SortedEntries.find_cons]
        by_cases hkey : key = "default"
        · rw [if_pos hkey.symm]
          exact (if_pos hkey).symm
        · rw [if_neg fun h => hkey h.symm]
          exact (if_neg hkey).symm
  | dict value =>
      cases hcheck : value.entries.mapM checkEntry with
      | error e =>
          refine .inr ⟨fun hvalid => ?_, .inl e, ?_, trivial⟩
          · have hok : value.entries.mapM checkEntry = .ok
                (value.entries.map fun e => (e.1, e.2.toInt.getD 0)) :=
              mapM_ok_of_forall fun e he => by
                obtain ⟨hknown, mib, hmib, -⟩ := hvalid e he
                exact checkEntry_eq_ok.mpr ⟨hknown, by rw [hmib]; rfl, rfl⟩
            cases hcheck.symm.trans hok
          · rw [openCacheSize_dict, hcheck]
      | ok checked =>
          obtain ⟨hknown, hentries⟩ := mapM_checkEntry.mp hcheck
          have hkeys := value.keys_nodup
          rw [hentries, List.map_map] at hkeys
          have hints : value.ints = checked := by
            rw [PyDict.ints, hentries, List.filterMap_map]
            exact List.filterMap_some
          have hread : json.parse (json.dumps checked)
              = .ok (checked.map fun e => (e.1, some e.2)) :=
            hints ▸ hjson.2 hfits
          have hparse := parseCacheSizeSpec_fields hkeys hread
          rw [openCacheSize_dict, hcheck]
          refine (outcome_mapError hparse Sum.inr).imp ?_ (fun spec h key => ?_)
            fun _ h => h
          · show _ ↔ ∀ e ∈ value.entries, _
            rw [hentries, List.forall_mem_map]
            refine forall₂_congr fun e he => ⟨fun h => ⟨h.2, e.2, rfl, h.1⟩,
              fun h => ?_⟩
            obtain ⟨hkey, mib, hmib, hnn⟩ := h
            cases hmib
            exact ⟨hnn, hkey⟩
          · show _ = (SortedEntries.find key value.entries).bind PyValue.toInt
            rw [h, hentries, SortedEntries.find_map]
            cases SortedEntries.find key checked <;> rfl

/-- The sizes that apply to a storage manager, from the least to the most
specific: the default, that of its name, and those of its columns in the
order of their names. -/
def CacheSizeArg.sizes (arg : CacheSizeArg) (dm : DataManagerInfo) : List Int :=
  (arg.value "default").getD kDefaultCacheSizeMiB
    :: ((arg.value (kStManPrefix ++ dm.name)).toList
      ++ dm.columns.mergeSort.filterMap fun column =>
        arg.value (kColumnPrefix ++ column))

theorem values_eq_sizes {dm : DataManagerInfo} (hdm : dm.columns.Nodup)
    (h : ∀ key, spec.value key = arg.value key) :
    spec.values dm = arg.sizes dm := by
  have hsorted : dm.columns.mergeSort.Pairwise (· < ·) := by
    have hle : dm.columns.mergeSort.Pairwise fun a b => decide (a ≤ b) = true :=
      List.pairwise_mergeSort
        (fun a b c hab hbc => by
          rw [decide_eq_true_eq] at hab hbc ⊢
          exact le_trans hab hbc)
        (fun a b => by
          rw [Bool.or_eq_true, decide_eq_true_eq, decide_eq_true_eq]
          exact le_total a b) _
    have hnodup := (List.mergeSort_perm dm.columns fun a b => a ≤ b).nodup_iff.mpr
      hdm
    refine (hle.and hnodup).imp fun hx => ?_
    exact lt_of_le_of_ne (of_decide_eq_true hx.1) hx.2
  have hcolumns : spec.columnValues dm = dm.columns.mergeSort.filterMap
      fun column => arg.value (kColumnPrefix ++ column) := by
    have hfind := SortedEntries.filterMap_find spec.colMib.sorted hsorted
    have hmem : ∀ column, column ∈ dm.columns.mergeSort ↔ column ∈ dm.columns :=
      fun column => (List.mergeSort_perm dm.columns _).mem_iff
    simp only [hmem] at hfind
    rw [CacheSizeSpec.columnValues, ← hfind]
    refine List.filterMap_congr fun column _ => ?_
    rw [← h, CacheSizeSpec.value_column]
    rfl
  rw [CacheSizeSpec.values, CacheSizeArg.sizes, hcolumns, ← h, ← h,
    CacheSizeSpec.value_default, CacheSizeSpec.value_stman]

/-- Sizes at two levels, the more specific first. -/
def sampleDict : PyDict where
  entries := [("column:DATA", .int 32), ("default", .int 64)]
  keys_nodup := by decide

/-- The text of these, and that of no size. -/
def sampleJson : JsonText where
  dumps _ := "\x7b\"column:DATA\": 32, \"default\": 64\x7d"
  parse text :=
    if text = "\x7b\x7d" then .ok []
    else if text = "\x7b\"column:DATA\": 32, \"default\": 64\x7d" then
      .ok [("column:DATA", some 32), ("default", some 64)]
    else .error "unexpected text"

end Arcae
