/-
The selection of a Python index (`build_selection` of
arrow_tables.pyx).

An index has one entry for each dimension, rows first. Entries hold
Python integers, which are unbounded; each is converted to the 64-bit
`IndexType` when it is read, and the conversion raises on overflow. The
count of a slice is computed in 64 bits: a sum that overflows becomes a
negative count, and the vector of that many indices cannot be made, no
more than one beyond the size of any vector. Memory for what is smaller is
taken to be there.

A one-dimensional contiguous int64 array is wrapped in a span without
copying it; the indices are the same as those of the copy.
-/
import Arcae.Model.Selection

namespace Arcae

-- ================================================================ failures

/-- How `build_selection` raises. `overflowError` is the conversion to
`IndexType`, and `runtimeError` a C++ exception. -/
inductive PyError where
  | typeError (msg : String)
  | valueError (msg : String)
  | overflowError
  | runtimeError
  deriving Repr, DecidableEq

abbrev PyResult := Except PyError

-- ================================================================= indices

/-- An entry of an index: `None`, a slice, a list of integers, an
integer array, or anything else, under the name of its type. -/
inductive DimIndex where
  | none
  | slice (start stop step : Option Int)
  | list (items : List Int)
  | ndarray (ndim : Nat) (isInt64 cContiguous : Bool) (items : List Int)
  | other (type : String)
  deriving Repr, DecidableEq

/-- `FullIndex`: `None`, a tuple or list of entries, or anything
else. -/
inductive FullIndex where
  | none
  | entries (index : List DimIndex)
  | other
  deriving Repr, DecidableEq

/-- Conversion of a Python integer to `IndexType`. -/
def toIndexType (z : Int) : PyResult Int :=
  if -2 ^ 63 ≤ z ∧ z < 2 ^ 63 then .ok z else .error .overflowError

/-- Conversion of a sequence of Python integers to `Index`. -/
def toIndex (items : List Int) : PyResult Index := items.mapM toIndexType

/-- Conversion of an attribute of a slice, where it is not `None`. -/
def toIndexTypeOr (default : Int) (z : Option Int) : PyResult Int :=
  match z with
  | .none => .ok default
  | .some z => toIndexType z

/-- `repr` of an attribute of a slice. -/
def pyRepr (z : Option Int) : String :=
  match z with
  | .none => "None"
  | .some z => toString z

/-- `repr` of a slice. -/
def sliceRepr (start stop step : Option Int) : String :=
  "slice(" ++ pyRepr start ++ ", " ++ pyRepr stop ++ ", " ++ pyRepr step ++ ")"

/-- The count of a slice, in 64 bits. -/
def sliceCount (start stop step : Int) : Int :=
  (stop - start + step - 1).bmod (2 ^ 64) / step

/-- `max_size` of `Index`: the pointer differences, over eight bytes. -/
def maxIndexSize : Int := (2 ^ 63 - 1) / 8

/-- `Index(count, 0)`, filled from the slice. A count below zero is none
of `std::size_t` that a vector has room for. -/
def sliceIndex (start stop step : Int) : PyResult Index :=
  let count := sliceCount start stop step
  if count < 0 ∨ maxIndexSize < count then .error .runtimeError
  else .ok ((List.range count.toNat).map fun i : Nat => start + (i : Int) * step)

/-- The indices of a slice in dimension `d`, checked. -/
def checkedSlice (d : Nat) (start stop step : Option Int) : PyResult Index := do
  let name := "slice " ++ sliceRepr start stop step
    ++ " in dimension " ++ toString d
  let step' ← toIndexTypeOr 1 step
  if step' ≤ 0 then
    .error (.valueError ("slice step must be positive, got " ++ toString step'))
  else match stop with
  | .none => .error (.valueError (name ++ " has no stop. "
      ++ "arcae builds selections without knowing the extent of "
      ++ "each dimension, so an unbounded stop cannot be resolved. "
      ++ "Supply an explicit stop, or use slice(None) to select "
      ++ "the entire dimension"))
  | .some stop => do
      let start' ← toIndexTypeOr 0 start
      let stop' ← toIndexType stop
      if start' < 0 ∨ stop' < 0 then
        .error (.valueError (name ++ " has negative bounds. "
          ++ "arcae does not support negative slice bounds, as negative "
          ++ "indices denote null values rather than an offset from the "
          ++ "end of the dimension"))
      else if stop' ≤ start' then
        .error (.valueError (name ++ " is empty. "
          ++ "arcae cannot represent an empty selection, as it is "
          ++ "indistinguishable from selecting the entire dimension"))
      else sliceIndex start' stop' step'

/-- The body of the loop over the entries: add the entry of dimension
`d` to the builder. -/
def addDimIndex (builder : SelectionBuilder) (d : Nat) (entry : DimIndex) :
    PyResult SelectionBuilder :=
  match entry with
  | .none => .ok builder.addEmpty
  | .slice .none .none .none => .ok builder.addEmpty
  | .slice start stop step => do
      let ids ← checkedSlice d start stop step
      pure (builder.add ids)
  | .list items => do
      let ids ← toIndex items
      pure (builder.add ids)
  | .ndarray ndim isInt64 cContiguous items =>
      if ndim ≠ 1 then
        .error (.valueError ("Multi-dimensional ndarray received "
          ++ "as index in dimension " ++ toString d))
      else if isInt64 ∧ 0 < items.length ∧ cContiguous then
        .ok (builder.add items)
      else do
        let ids ← toIndex items
        pure (builder.add ids)
  | .other type =>
      .error (.typeError ("Invalid index type " ++ type
        ++ " for dimension " ++ toString d))

/-- `build_selection`. -/
def buildSelection (index : FullIndex) : PyResult Selection :=
  match index with
  | .none => .ok (SelectionBuilder.init .cOrder).build
  | .other => .error (.typeError ("index must be a tuple of "
      ++ "(None, slices or numpy arrays), or None"))
  | .entries entries => do
      let builder ← entries.zipIdx.foldlM
        (fun builder e => addDimIndex builder e.2 e.1)
        (SelectionBuilder.init .cOrder)
      pure builder.build

end Arcae
