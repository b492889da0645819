/-
Arrow arrays, as `putcol` and `getcol` take them apart, and the shape
inferred from one (the anonymous functions of result_shape.cc, and the
flattening of write_impl.cc).

# Arrays

An array is a nest of list levels over a leaf (`ArrayData`). Every level
has an offset and a length of its own: a slice shares the memory of the
array it was taken from and moves these two. An element of a list level
is a range of the level below, between two entries of an offset buffer
(List, LargeList) or of constant size (FixedSizeList). A null is a
cleared bit of the level's validity, if it has one. Leaf values are one
type `β` of values, numbers and strings alike; `ArrowType` tells them
apart.

`WellFormed` is the columnar format's own requirement: buffers are as
long as offset and length say, offsets ascend and stay within the level
below. An `ArrowArray` carries it, so that an ill-formed array is not a
value here. Of a leaf value all that is ever asked is how long it is as
text, and whether it is a bit (`LeafValue`).

# Shape

`getArrowResultShapeData` walks down the levels. As long as all elements
of each level have one size the shape is fixed; otherwise the shape of
each row is taken from its own ranges. Complex columns hold pairs, and
the innermost dimension of their data is the pair (`getResultShapeData`).

# Memory

`buffers[1]` of a leaf is its memory from the first slot on, whatever
the leaf's offset (`LeafArray.buffer`). `cast` stands for Arrow's
`compute::Cast`, which is not part of the source.
-/
import Arcae.Model.ResultShape
import Arcae.Model.Column
import Arcae.Model.ChunkIo

namespace Arcae

variable {α β : Type}

-- ================================================================ arrays

/-- Values that arrays have as leaves. -/
class LeafValue (β : Type) where
  /-- The bytes of a string; numbers have none. -/
  textBytes : β → Nat
  /-- It is 0 or 1, as what a bool is kept in. -/
  isBit : β → Bool

instance : LeafValue Nat := ⟨fun _ => 0, fun n => decide (n ≤ 1)⟩

instance : LeafValue Int := ⟨fun _ => 0, fun n => decide (0 ≤ n ∧ n ≤ 1)⟩

instance (w : Nat) : LeafValue (BitVec w) :=
  ⟨fun _ => 0, fun bits => decide (bits.toNat ≤ 1)⟩

/-- Null entries of a range of a validity bitmap. -/
def nullCountOf (validity : Option (List Bool)) (offset length : Nat) : Nat :=
  match validity with
  | none => 0
  | some bits => ((bits.drop offset).take length).count false

/-- An array of plain values: a slice of some memory. -/
structure LeafArray (β : Type) where
  type : ArrowType
  offset : Nat
  length : Nat
  validity : Option (List Bool)
  values : List β
  deriving Repr, DecidableEq

/-- How the ranges of a list level are laid out. -/
inductive ListLayout where
  | list (offsets : List Nat)
  | largeList (offsets : List Nat)
  | fixedSizeList (size : Nat)
  deriving Repr, DecidableEq

/-- A list level of an array. -/
structure ListArray where
  layout : ListLayout
  offset : Nat
  length : Nat
  validity : Option (List Bool)
  deriving Repr, DecidableEq

/-- `arrow::ArrayData`: list levels over a leaf. -/
inductive ArrayData (β : Type) where
  | leaf (slots : LeafArray β)
  | list (level : ListArray) (child : ArrayData β)
  deriving Repr

/-- `null_count`. -/
def LeafArray.nullCount (leaf : LeafArray β) : Nat :=
  nullCountOf leaf.validity leaf.offset leaf.length

namespace ListArray

variable (level : ListArray)

/-- `null_count`. -/
def nullCount : Nat := nullCountOf level.validity level.offset level.length

/-- An entry of an offset buffer. -/
def offsetAt (offsets : List Nat) (i : Nat) : Result Nat :=
  match offsets[i]? with
  | some o => .ok o
  | none => .error .outOfBounds

/-- `value_offset`: where the range of element `i` starts. -/
def valueOffset (i : Nat) : Result Nat :=
  match level.layout with
  | .list offsets | .largeList offsets => offsetAt offsets (i + level.offset)
  | .fixedSizeList size => .ok ((i + level.offset) * size)

/-- `value_length`: the size of the range of element `i`. -/
def valueLength (i : Nat) : Result Nat :=
  match level.layout with
  | .list offsets | .largeList offsets => do
      let start ← offsetAt offsets (i + level.offset)
      let stop ← offsetAt offsets (i + level.offset + 1)
      pure (stop - start)
  | .fixedSizeList size => .ok size

/-- The level has no offset buffer. -/
def isFixedSize : Bool :=
  match level.layout with
  | .fixedSizeList _ => true
  | _ => false

end ListArray

namespace ArrayData

/-- `length`. -/
def length : ArrayData β → Nat
  | .leaf slots => slots.length
  | .list level _ => level.length

/-- The buffers of an array are as the columnar format requires. -/
def WellFormed : ArrayData β → Prop
  | .leaf slots => slots.offset + slots.length ≤ slots.values.length
  | .list level child =>
      (match level.layout with
        | .list offsets | .largeList offsets =>
            level.offset + level.length < offsets.length
              ∧ offsets.Pairwise (· ≤ ·) ∧ ∀ o ∈ offsets, o ≤ child.length
        | .fixedSizeList size =>
            (level.offset + level.length) * size ≤ child.length)
        ∧ child.WellFormed

/-- The leaf under all list levels. -/
def leafArray : ArrayData β → LeafArray β
  | .leaf slots => slots
  | .list _ child => child.leafArray

end ArrayData

/-- `arrow::Array`. -/
structure ArrowArray (β : Type) where
  data : ArrayData β
  wellFormed : data.WellFormed

-- ================================================================= names

/-- `ToString` of a leaf type. -/
def ArrowType.name : ArrowType → String
  | .bool => "bool"
  | .uint8 => "uint8"
  | .uint16 => "uint16"
  | .uint32 => "uint32"
  | .uint64 => "uint64"
  | .int8 => "int8"
  | .int16 => "int16"
  | .int32 => "int32"
  | .int64 => "int64"
  | .float => "float"
  | .double => "double"
  | .utf8 => "string"
  | .other name => name

/-- The leaf types the source knows how to flatten. -/
def ArrowType.known : ArrowType → Bool
  | .other _ => false
  | _ => true

/-- `ToString` of the type of an array. -/
def ArrayData.typeName : ArrayData β → String
  | .leaf slots => slots.type.name
  | .list level child =>
      match level.layout with
      | .list _ => "list<item: " ++ child.typeName ++ ">"
      | .largeList _ => "large_list<item: " ++ child.typeName ++ ">"
      | .fixedSizeList size =>
          "fixed_size_list<item: " ++ child.typeName ++ ">[" ++ toString size
            ++ "]"

-- ======================================================== shapes of rows

/-- `SetRowShape` at each level under row `r`: the sizes of the ranges of
elements `start` to `stop`, outermost first. -/
def rowShapeFrom (r : Nat) : ArrayData β → Nat → Nat → Result IPosition
  | .leaf slots, _, _ =>
      if slots.type.known then .ok []
      else .error (.notImplemented
        ("Shape derivation of " ++ slots.type.name ++ " is not supported"))
  | .list level child, start, stop =>
      if 0 < level.nullCount then .error (.notImplemented "nulls")
      else do
        let dimSize ← level.valueLength start
        if !level.isFixedSize then
          (List.range' (start + 1) (stop - (start + 1))).forM fun i => do
            let size ← level.valueLength i
            if dimSize ≠ size then
              .error (.invalid
                ("Offsets in row " ++ toString r ++ " don't match"))
            else .ok ()
        let start ← level.valueOffset start
        let stop ← level.valueOffset stop
        let sizes ← rowShapeFrom r child start stop
        pure (dimSize :: sizes)

/-- `GetRowShapes`, outermost dimension first. -/
def getRowShapes (data : ArrayData β) : Result (List IPosition) :=
  (List.range data.length).mapM fun r => rowShapeFrom r data r (r + 1)

-- ================================================================= shape

/-- What the walk down the levels has found so far: the sizes as long as
they are fixed, outermost first, and the number of dimensions. -/
structure ShapeWalk where
  fixedShape : Bool
  shape : IPosition
  ndim : Nat
  deriving Repr, DecidableEq

/-- The sizes that are compared with that of the first element: none
without an offset buffer. -/
def comparedLengths (level : ListArray) : Result (List Nat) :=
  if level.isFixedSize then .ok []
  else (List.range level.length).mapM level.valueLength

/-- `MaybeUpdateShapeAndNdim`. -/
def maybeUpdateShapeAndNdim (level : ListArray) (walk : ShapeWalk) :
    Result ShapeWalk :=
  if 0 < level.nullCount then .error (.notImplemented "null handling")
  else if !walk.fixedShape then .ok { walk with ndim := walk.ndim + 1 }
  else do
    let dimSize ← level.valueLength 0
    let sizes ← comparedLengths level
    -- variable dimension sizes
    if sizes.any fun size => dimSize != size then
      pure { walk with fixedShape := false, ndim := walk.ndim + 1 }
    else
      pure { walk with shape := walk.shape ++ [dimSize], ndim := walk.ndim + 1 }

/-- The walk of `GetArrowResultShapeData`. -/
def walkShape : ArrayData β → ShapeWalk → Result ShapeWalk
  | .leaf slots, walk =>
      if slots.type.known then .ok walk
      else .error (.notImplemented
        ("Shape derivation of " ++ slots.type.name ++ " is not supported"))
  | .list level child, walk => do
      let walk ← maybeUpdateShapeAndNdim level walk
      walkShape child walk

/-- `GetArrowResultShapeData`. -/
def getArrowResultShapeData (columnDesc : ColumnDesc) (data : ArrayData β) :
    Result ResultShapeData := do
  let walk ← walkShape data ⟨true, [data.length], 1⟩
  if walk.fixedShape then
    -- C-ORDER to FORTRAN-ORDER
    pure
      { columnName := columnDesc.name
        shape := some walk.shape.reverse
        ndim := walk.ndim
        dtype := columnDesc.dataType
        rowShapes := none
        cellExtents := none }
  else do
    let rowShapes ← getRowShapes data
    pure
      { columnName := columnDesc.name
        shape := none
        ndim := walk.ndim
        dtype := columnDesc.dataType
        rowShapes := some (rowShapes.map List.reverse)
        cellExtents := none }

/-- A shape of pairs, without the dimension of the pair. -/
def dropPair (columnName : String) (shape : IPosition) : Result IPosition :=
  match shape with
  | 2 :: rest => .ok rest
  | _ =>
      .error (.invalid ("Arrow result data must supply pairs of values for "
        ++ "complex valued column " ++ columnName))

/-- `GetResultShapeData`: complex values are pairs. -/
def getResultShapeData (columnDesc : ColumnDesc) (data : ArrayData β) :
    Result ResultShapeData := do
  let shapeData ← getArrowResultShapeData columnDesc data
  if !shapeData.dtype.isComplex then pure shapeData
  else
    match shapeData.shape with
    | some shape => do
        let shape ← dropPair shapeData.columnName shape
        pure { shapeData with shape := some shape, ndim := shape.length }
    | none => do
        let shapes ← shapeData.getRowShapes.mapM (dropPair shapeData.columnName)
        let ndim ← shapeData.consistentNDim
        pure { shapeData with rowShapes := some shapes, ndim := (ndim : Int) - 1 }

/-- `FromArray`. -/
def ResultShapeData.fromArray (col : TableColumn α) (array : ArrowArray β) :
    Result ResultShapeData :=
  getResultShapeData col.columnDesc array.data

-- ============================================================ flattening

/-- The walk of `GetFlatArray` under an array of type `typeName`. -/
def flatArrayFrom (typeName : String) : ArrayData β → Result (LeafArray β)
  | .leaf slots =>
      if slots.type.known then .ok slots
      else .error (.notImplemented
        ("Flattening of type " ++ typeName ++ " is not supported"))
  | .list level child =>
      if 0 < level.nullCount then
        .error (.invalid ("Null values were encountered "
          ++ "during array flattening."))
      else flatArrayFrom typeName child

/-- `GetFlatArray`: the leaf under the list levels. -/
def getFlatArray (data : ArrayData β) : Result (LeafArray β) :=
  flatArrayFrom data.typeName data

/-- `buffers[1]`: the memory of the leaf from its first slot on, and
whatever lies around it. -/
def LeafArray.buffer (leaf : LeafArray β) (around : Memory β) : Memory β :=
  fun q => if 0 ≤ q then leaf.values.getD q.toNat (around q) else around q

/-- The values of the leaf itself. -/
def LeafArray.slice (leaf : LeafArray β) : List β :=
  (leaf.values.drop leaf.offset).take leaf.length

/-- `ExtractBufferOrCopyValues`. -/
def extractBufferOrCopyValues
    (cast : LeafArray β → ArrowType → Result (LeafArray β)) (around : Memory β)
    (flatArray : LeafArray β) (casaDtype : DataType) : Result (Memory β) :=
  if casaDtype.isPrimitive then do
    let arrowDtype ← arrowDataType casaDtype
    if arrowDtype = flatArray.type then pure (flatArray.buffer around)
    else do
      -- cast to the type appropriate to the column
      let datum ← cast flatArray arrowDtype
      pure (datum.buffer around)
  else if casaDtype = .tpString then
    -- strings are copied, one view at a time
    if flatArray.type = .utf8 then
      pure ({ flatArray with offset := 0, values := flatArray.slice }
        |>.buffer around)
    else .error (.invalid "Cast to StringArray")
  else
    match casaDtype with
    | .tpOther name => .error (.typeError ("Unhandled CASA type " ++ name))
    | _ => .error (.typeError "Unhandled CASA type")

-- ============================================================== elements

/-- Leaf values of one element of a column: two for a complex one. -/
def leafWidth (dtype : DataType) : Nat := if dtype.isComplex then 2 else 1

theorem leafWidth_pos (dtype : DataType) : 0 < leafWidth dtype := by
  unfold leafWidth
  split <;> decide

/-- How an element of a column is made of leaf values. -/
structure ElementLayout (dtype : DataType) (α β : Type) where
  parts : α ≃ (Fin (leafWidth dtype) → β)

/-- `data_as`: a buffer of leaf values as one of elements. -/
def ElementLayout.dataAs {dtype : DataType} (layout : ElementLayout dtype α β)
    (buffer : Memory β) : Memory α :=
  fun q => layout.parts.symm fun i => buffer (leafWidth dtype * q + (i : Nat))

end Arcae
