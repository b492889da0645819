/-
The `cache_size` of a table that is opened, from Python
(`_normalise_cache_size`, arrow_tables.pyx) to the specification that
`ApplyCacheSizes` is given (`ParseCacheSizeSpec`, table_utils.cc).

Between the two it is text. What Python writes and what casacore reads of
it is a parameter (`JsonText`), with what is documented of the two together
(`JsonText.Reads`). Python's integers have no bound, and `asInt` gives an
`int` of 32 bits: nothing is assumed of a text with a larger one in it.
-/
import Arcae.Model.BuildSelection
import Arcae.Model.CacheSize
import Arcae.Lib.SortedEntries
import Mathlib.Data.String.Basic

namespace Arcae

-- ================================================================ Python

/-- A value of a `dict`, under the name of its type if it is no integer. -/
inductive PyValue
  | int (value : Int)
  | bool (value : Bool)
  | other (type : String)
  deriving Repr, DecidableEq

/-- The integer that a value is. -/
def PyValue.toInt : PyValue → Option Int
  | .int value => some value
  | _ => none

/-- A `dict` of names, in the order of insertion. -/
structure PyDict where
  entries : List (String × PyValue)
  keys_nodup : (entries.map Prod.fst).Nodup

/-- The entries that hold integers. -/
def PyDict.ints (d : PyDict) : List (String × Int) :=
  d.entries.filterMap fun e => e.2.toInt.map fun value => (e.1, value)

/-- The argument `cache_size`. -/
inductive CacheSizeArg
  | none
  | bool (value : Bool)
  | int (value : Int)
  | dict (value : PyDict)
  | other (type : String)

/-- The values of an `int`. -/
def IsInt (value : Int) : Prop := -2 ^ 31 ≤ value ∧ value < 2 ^ 31

/-- The integers that are written for an argument. -/
def CacheSizeArg.ints : CacheSizeArg → List (String × Int)
  | .int value => [("default", value)]
  | .dict value => value.ints
  | _ => []

/-- Each of them is the value of an `int`. -/
def CacheSizeArg.FitsInt (arg : CacheSizeArg) : Prop :=
  ∀ e ∈ arg.ints, IsInt e.2

/-- JSON as Python writes integers under names, and as casacore reads it:
the fields of a record, with what `asInt` makes of each. -/
structure JsonText where
  dumps : List (String × Int) → String
  parse : String → Except String (List (String × Option Int))

/-- What is documented of `json.dumps`, `JsonParser` and `asInt`, for the
text that is written for this argument: names that need no escape come
back as they were, and if all integers are values of an `int`, `asInt`
gives each of them. -/
def JsonText.Reads (json : JsonText) (arg : CacheSizeArg) : Prop :=
  json.parse "\x7b\x7d" = .ok []
    ∧ (arg.FitsInt → json.parse (json.dumps arg.ints)
        = .ok (arg.ints.map fun e => (e.1, some e.2)))

/-- `startswith`. -/
def startsWith (name start : String) : Bool :=
  decide (start.toList <+: name.toList)

/-- An entry of the `dict`, checked. -/
def checkEntry (entry : String × PyValue) : PyResult (String × Int) :=
  if entry.1 = "default" ∨ startsWith entry.1 "stman:" = true
      ∨ startsWith entry.1 "column:" = true then
    match entry.2 with
    | .int value => .ok (entry.1, value)
    | _ => .error (.typeError
        ("cache_size value for '" ++ entry.1 ++ "' must be an int"))
  else
    .error (.valueError ("Invalid cache_size key '" ++ entry.1
      ++ "'. Expected 'default', 'stman:<NAME>' or 'column:<NAME>'"))

/-- `_normalise_cache_size`. -/
def normaliseCacheSize (json : JsonText) : CacheSizeArg → PyResult String
  | .none => .ok "\x7b\x7d"
  | .bool _ =>
      .error (.typeError "cache_size must be an int or dict, not bool")
  | .int value => .ok (json.dumps [("default", value)])
  | .dict value => do
      let entries ← value.entries.mapM checkEntry
      return json.dumps entries
  | .other type => .error (.typeError ("Invalid cache_size type " ++ type))

-- =================================================================== C++

/-- `std::map::emplace`: a name that is there keeps its value. -/
def StdMap.emplace {β : Type} (m : StdMap β) (name : String) (value : β) :
    StdMap β :=
  ⟨SortedEntries.emplace name value m.entries, SortedEntries.sorted_emplace m.sorted⟩

/-- `kStManPrefix`. -/
def kStManPrefix : String := "stman:"

/-- `kColumnPrefix`. -/
def kColumnPrefix : String := "column:"

/-- `StripPrefix`: the rest of the name. -/
def stripStart (name start : String) : Option String :=
  if start.toList <+: name.toList then
    some (String.ofList (name.toList.drop start.toList.length))
  else none

/-- One turn of the loop of `ParseCacheSizeSpec`. -/
def parseCacheSizeField (spec : CacheSizeSpec) (field : String × Option Int) :
    Result CacheSizeSpec :=
  match field.2 with
  | none => .error (.invalid
      ("cache_size value for '" ++ field.1 ++ "' is not an integer"))
  | some value =>
      if value < 0 then
        .error (.invalid
          ("cache_size value for '" ++ field.1 ++ "' must be >= 0"))
      else if field.1 = "default" then
        .ok { spec with defaultMib := some value }
      else
        match stripStart field.1 kStManPrefix with
        | some name => .ok { spec with smMib := spec.smMib.emplace name value }
        | none =>
            match stripStart field.1 kColumnPrefix with
            | some name =>
                .ok { spec with colMib := spec.colMib.emplace name value }
            | none => .error (.invalid ("Unknown cache_size key '" ++ field.1
                ++ "'. Expected 'default', 'stman:<NAME>' or 'column:<NAME>'"))

/-- `ParseCacheSizeSpec`. -/
def parseCacheSizeSpec (json : JsonText) (text : String) :
    Result CacheSizeSpec :=
  match json.parse text with
  | .error what => .error (.invalid
      ("Failed to parse cache_size '" ++ text ++ "': " ++ what))
  | .ok record => record.foldlM parseCacheSizeField ⟨none, .empty, .empty⟩

/-- What a table is opened with: Python raises, or C++ fails, or there is a
specification. -/
def openCacheSize (json : JsonText) (arg : CacheSizeArg) :
    Except (PyError ⊕ Status) CacheSizeSpec := do
  let text ← (normaliseCacheSize json arg).mapError .inl
  (parseCacheSizeSpec json text).mapError .inr

end Arcae
