/-
Arrays of numpy (`Table._numpy_to_arrow`, `Table._arrow_to_numpy`,
`Table.putcol` and `Table.getcol` of arrow_tables.pyx).

# Arrays

`NdArray` is a numpy array, its values in C order; a complex value is two
of its parts, and a string one value. Memory order and strides are
numpy's business: `ascontiguousarray` and `reshape(-1)` lay the values out
in C order whatever they were before. Byte order is not (`isnative`).
Numbers wider or narrower than those of columns are left out, and of
arrays of objects there are only those of strings. Strings are text that
UTF-8 can encode, and those of `U` hold no NUL, where pyarrow ends them.

# There

The values are one flat leaf, bools as the bytes they are and complex
values as pairs, and it is nested by the secondary dimensions, innermost
first. An array without dimensions is the leaf itself. What is not numbers
in the machine's byte order goes through `pa.array`, which refuses numbers
in the other one, finds no type in an array without objects, and makes
several arrays of more text than one can hold (`chunkedArray`).

# And back

The list levels are taken off from the outside, and the sizes they had
are the shape. A list that is not of fixed size has no shape, and so
lists with offsets are refused as they come. In a complex column the
last dimension is the pair, and goes.

A conversion raises what pyarrow and numpy raise; `ColError` has their
kinds beside those of `build_selection`.
-/
import Arcae.Model.BuildSelection
import Arcae.Model.ReadImpl
import Arcae.Model.Write

namespace Arcae

variable {α β : Type}

-- ================================================================= arrays

/-- The data types of the arrays that columns are read as and written
from. -/
inductive ArrayDtype where
  | bool | uint8 | uint16 | uint32 | uint64 | int8 | int16 | int32 | int64
  | float32 | float64 | complex64 | complex128
  /-- Strings of one width: numpy's `U`. -/
  | unicode
  /-- Objects, all of them strings. -/
  | object
  deriving Repr, DecidableEq

namespace ArrayDtype

/-- `issubclass(dtype.type, np.complexfloating)`. -/
def isComplex : ArrayDtype → Bool
  | complex64 | complex128 => true
  | _ => false

/-- Numbers, and bools, which become such. -/
def isNumber : ArrayDtype → Bool
  | unicode | object => false
  | _ => true

/-- Values of a byte, and objects, are in no byte order. -/
def hasByteOrder : ArrayDtype → Bool
  | bool | uint8 | int8 | object => false
  | _ => true

/-- The Arrow type of the flat values: those of complex values are their
parts, and bools are bytes. -/
def flatType : ArrayDtype → ArrowType
  | bool | uint8 => .uint8
  | uint16 => .uint16
  | uint32 => .uint32
  | uint64 => .uint64
  | int8 => .int8
  | int16 => .int16
  | int32 => .int32
  | int64 => .int64
  | float32 | complex64 => .float
  | float64 | complex128 => .double
  | unicode | object => .utf8

/-- Flat values of one value of the type. -/
def width (dtype : ArrayDtype) : Nat := if dtype.isComplex then 2 else 1

end ArrayDtype

/-- A numpy array: its values in C order, the parts of a complex one in
turn. -/
structure NdArray (β : Type) where
  dtype : ArrayDtype
  shape : List Nat
  values : List β
  size_eq : values.length = dtype.width * shape.prod
  /-- The values are in the machine's byte order, if they are in any. -/
  native : Bool

/-- How `getcol` and `putcol` raise. -/
inductive ColError where
  | python (e : PyError)
  | indexError
  | arrow (status : Status)
  /-- There is no one array, and what there is cannot be nested or put. -/
  | chunkedArray
  deriving Repr, DecidableEq

abbrev ColResult := Except ColError

-- =============================================================== to Arrow

/-- `pa.FixedSizeListArray.from_arrays`: the size is an `int32_t`. -/
def nestLevel (values : ArrowArray β) (dim : Nat) : ColResult (ArrowArray β) :=
  if 2 ^ 31 ≤ dim then .error (.python .overflowError)
  else
    match h : fixedSizeListFromArrays values.data dim with
    | .error status => .error (.arrow status)
    | .ok data =>
        .ok ⟨data, fixedSizeListFromArrays_wellFormed values.wellFormed h⟩

namespace NdArray

variable (data : NdArray β)

/-- The shape, with the extra dimension of a complex array. -/
def flatShape : List Nat :=
  if data.dtype.isComplex then data.shape ++ [2] else data.shape

/-- `dtype.isnative`. -/
def isnative : Bool := data.native || !data.dtype.hasByteOrder

/-- The type of the flat values: nothing tells an array of no objects from
another. -/
def leafType : ArrowType :=
  if data.dtype = .object ∧ data.values.length = 0 then .other "null"
  else data.dtype.flatType

/-- The flat values. -/
def flatLeaf : LeafArray β := ⟨data.leafType, 0, data.values.length, none, data.values⟩

theorem flatLeaf_wellFormed : (ArrayData.leaf data.flatLeaf).WellFormed :=
  Nat.le_of_eq (Nat.zero_add data.values.length)

/-- The flat values, as an array of their own. -/
def flat : ArrowArray β := ⟨.leaf data.flatLeaf, data.flatLeaf_wellFormed⟩

/-- The flat values as an array: numbers are shared, and strings are
copied. -/
def flatArray [LeafValue β] : ColResult (ArrowArray β) :=
  if data.dtype.isNumber then
    if data.isnative then .ok data.flat
    else .error (.arrow (.notImplemented "Byte-swapped arrays not supported"))
  else if totalText data.values ≤ maxTextBytes then .ok data.flat
  else .error .chunkedArray

end NdArray

/-- `_numpy_to_arrow`. -/
def numpyToArrow [LeafValue β] (data : NdArray β) : ColResult (ArrowArray β) := do
  let paArray ← data.flatArray
  -- nested by secondary dimensions
  data.flatShape.tail.reverse.foldlM nestLevel paArray

-- ============================================================= from Arrow

/-- The data type of a numpy array over the memory of a leaf, or of its
strings. Bools of Arrow are bits, and cannot be shared. -/
def ArrowType.npDtype : ArrowType → Option ArrayDtype
  | .uint8 => some .uint8
  | .uint16 => some .uint16
  | .uint32 => some .uint32
  | .uint64 => some .uint64
  | .int8 => some .int8
  | .int16 => some .int16
  | .int32 => some .int32
  | .int64 => some .int64
  | .float => some .float32
  | .double => some .float64
  | .utf8 => some .object
  | .bool | .other _ => none

/-- `to_numpy` of the values from `start` to `stop` of a leaf. -/
def leafToNumpy (slots : LeafArray β) (start stop : Nat) :
    ColResult (ArrayDtype × List β) :=
  match slots.type.npDtype with
  | none => .error (.arrow (.invalid "zero_copy_only was True"))
  | some dtype =>
      if 0 < slots.nullCount then
        .error (.arrow (.invalid "zero_copy_only was True"))
      else
        .ok (dtype,
          (slots.values.drop (slots.offset + start)).take (stop - start))

/-- The type error of the loop over the nested column. -/
def invalidNested (column typeName : String) : ColError :=
  .python (.typeError ("Encountered invalid type " ++ typeName
    ++ " when converting column " ++ column ++ " from a "
    ++ "nested FixedSizeListArray to a numpy array. "
    ++ "Only FixedSizeListArrays or PrimitiveArrays are supported"))

/-- The loop over the nested column: it is the elements `start` to `stop`
of `nested`, and `shape` are the sizes of the levels before. -/
def flattenNested (column : String) : (nested : ArrayData β) →
    (start stop : Nat) → (shape : List Nat) →
    ColResult (List Nat × ArrayDtype × List β)
  | .leaf slots, start, stop, shape =>
      if slots.type.known then do
        let values ← leafToNumpy slots start stop
        pure (shape, values)
      else .error (invalidNested column slots.type.name)
  | .list level child, start, stop, shape =>
      match level.layout with
      | .fixedSizeList size =>
          -- `flatten` leaves out the nulls, and `reshape` misses them
          if 0 < level.nullCount then
            .error (.python (.valueError "cannot reshape array"))
          else
            flattenNested column child ((start + level.offset) * size)
              ((stop + level.offset) * size) (shape ++ [size])
      | _ =>
          .error (invalidNested column (ArrayData.list level child).typeName)

/-- `reshape` of plain values. -/
def reshapeValues (shape : List Nat) (dtype : ArrayDtype) (values : List β) :
    ColResult (NdArray β) :=
  if h : values.length = dtype.width * shape.prod then
    .ok ⟨dtype, shape, values, h, true⟩
  else .error (.python (.valueError "cannot reshape array"))

/-- `np.result_type(dtype, np.complex64)`, of the parts of complex
values. -/
def complexDtype : ArrayDtype → ColResult ArrayDtype
  | .float32 => .ok .complex64
  | .float64 => .ok .complex128
  | _ => .error (.python (.typeError "not the parts of complex values"))

/-- `array.view(complex_dtype)[..., 0]`: the first pair of the last
dimension. -/
def viewComplex (array : NdArray β) : ColResult (NdArray β) := do
  let dtype ← complexDtype array.dtype
  let last := array.shape.getLast?.getD 0
  let rows := array.shape.dropLast
  if last % 2 ≠ 0 then
    .error (.python (.valueError
      ("When changing to a larger dtype, its size must be a divisor of "
        ++ "the total size in bytes of the last axis of the array.")))
  else if last = 0 then .error .indexError
  else
    reshapeValues rows dtype
      ((List.range rows.prod).flatMap fun i =>
        (array.values.drop (i * last)).take 2)

/-- `_arrow_to_numpy`. -/
def arrowToNumpy (desc : ColumnDesc) (array : ArrayData β) :
    ColResult (NdArray β) :=
  match array with
  | .leaf slots =>
      -- a numeric array, or one of strings
      match slots.type.npDtype with
      | none =>
          .error (.python (.typeError
            ("Unhandled column type " ++ slots.type.name)))
      | some _ => do
          let values ← leafToNumpy slots 0 slots.length
          reshapeValues [slots.length] values.1 values.2
  | .list level child =>
      match level.layout with
      | .fixedSizeList _ => do
          let flat ← flattenNested desc.name (.list level child) 0 level.length
            [level.length]
          let array ← reshapeValues flat.1 flat.2.1 flat.2.2
          -- convert to complex if necessary
          if desc.dataType.isComplex then viewComplex array else pure array
      | _ =>
          .error (.python (.typeError ("Can't convert variably shaped column "
            ++ desc.name ++ " to numpy array")))

-- ================================================================== Table

/-- `NewTableProxy::PutColumn`: only one instance may write. -/
def putColumn (nInstances : Nat) (srt : StdSort)
    (cast : LeafArray β → ArrowType → Result (LeafArray β)) (around : Memory β)
    (col : TableColumn α) (layout : ElementLayout col.columnDesc.dataType α β)
    (data : ArrowArray β) (sel : Selection) : Result Unit × TableColumn α :=
  if nInstances = 1 then writeImpl srt cast around col layout data sel
  else
    (.error (.notImplemented ("Write support when number of table instances "
      ++ toString nInstances ++ " is greater than one")), col)

/-- `Table.putcol`. -/
def putcol [LeafValue β] (nInstances : Nat) (srt : StdSort)
    (cast : LeafArray β → ArrowType → Result (LeafArray β)) (around : Memory β)
    (col : TableColumn α) (layout : ElementLayout col.columnDesc.dataType α β)
    (data : NdArray β) (index : FullIndex) : ColResult Unit × TableColumn α :=
  match buildSelection index with
  | .error e => (.error (.python e), col)
  | .ok sel =>
      match numpyToArrow data with
      | .error e => (.error e, col)
      | .ok array =>
          let written := putColumn nInstances srt cast around col layout array sel
          (written.1.mapError .arrow, written.2)

/-- `Table.getcol` without a result. -/
def getcol [LeafValue β] (srt : StdSort) (nInstances : Nat)
    (unitStart : Option RowUnitStart) (configured : Option String)
    (schedule : List DataChunk → List DataChunk) (col : TableColumn α)
    (layout : ElementLayout col.columnDesc.dataType α β)
    (emptyString : α) (allocated : Memory α) (index : FullIndex) :
    ColResult (NdArray β) := do
  let sel ← (buildSelection index).mapError .python
  let array ← (readImpl srt nInstances unitStart configured schedule col layout
    emptyString sel allocated).mapError .arrow
  arrowToNumpy col.columnDesc array

end Arcae
