/-
The shape of a read or a write, and the offsets of its elements
(result_shape.h and the members of `ResultShapeData`).

A shape is fixed (`shape_`, rows last) or varies by row
(`row_shapes_`). A fixed shape may carry the extent each row reads from
disk (`cell_extents_`). The layout of the result in memory is row after
row, each row FORTRAN-ordered.

`FlatOffset` multiplies its strides up in a 32-bit `int`, while every
other stride of the program is a `std::size_t`; `flatOffsetLoop` keeps
the truncation, and its result is an integer because a truncated
product can be negative.
-/
import Arcae.Model.Basic
import Arcae.Lib.FOrder

namespace Arcae

/-- `IPosition::product`, which is zero for a shape without axes. -/
def IPosition.product (shape : IPosition) : Nat :=
  if shape = [] then 0 else shape.prod

/-- `IsDegenerateShape`: the shape of a missing row. -/
def isDegenerateShape (shape : IPosition) : Bool := shape.isEmpty

/-- `ResultShapeData`: the shape of the data of a read or a write. -/
structure ResultShapeData where
  columnName : String
  /-- The shape if it is fixed, rows last. -/
  shape : Option IPosition
  /-- Number of dimensions, rows included; negative if the rows do not
  agree on one. -/
  ndim : Int
  dtype : DataType
  /-- The shape of each row, if the shape is not fixed. -/
  rowShapes : Option (List IPosition)
  /-- The extent of the cell read from disk for each row of a fixed
  result, if the extents vary by row. -/
  cellExtents : Option (List IPosition)
  deriving Repr, DecidableEq

namespace ResultShapeData

variable (rs : ResultShapeData)

/-- `IsFixed`. -/
def isFixed : Bool := rs.shape.isSome

/-- `HasCellExtents`. -/
def hasCellExtents : Bool := rs.cellExtents.isSome

/-- The row shapes; only read if the shape is not fixed. -/
def getRowShapes : List IPosition := rs.rowShapes.getD []

/-- `GetRowShape`. -/
def getRowShape (row : Nat) : Result IPosition :=
  match rs.getRowShapes[row]? with
  | some shape => .ok shape
  | none => .error .outOfBounds

/-- `GetCellExtent`. -/
def getCellExtent (row : Nat) : Result IPosition :=
  match (rs.cellExtents.getD [])[row]? with
  | some extent => .ok extent
  | none => .error .outOfBounds

/-- `nRows`. -/
def nRows : Nat :=
  match rs.shape with
  | some shape => shape.getLastD 0
  | none => rs.getRowShapes.length

/-- `ConsistentNDim`. -/
def consistentNDim : Result Nat :=
  if 0 ≤ rs.ndim then .ok rs.ndim.toNat
  else .error (.invalid "Result shape dimensions are not consistent")

/-- The largest element of a shape; a shape without axes has none. -/
def maxElement (shape : IPosition) : Result Nat :=
  match shape with
  | [] => .error .outOfBounds
  | n :: ns => .ok (ns.foldl max n)

/-- `MaxDimensionSize`. -/
def maxDimensionSize : Result Nat :=
  match rs.shape with
  | some shape => maxElement shape
  | none =>
      rs.getRowShapes.foldlM
        (fun maxSize shape => do
          let shapeMax ← maxElement shape
          pure (max maxSize shapeMax))
        rs.nRows

/-- `nElements`. -/
def nElements : Nat :=
  match rs.shape with
  | some shape => IPosition.product shape
  | none => (rs.getRowShapes.map IPosition.product).sum

/-- `RowOffsets`: the offset of the first element of each row, and the
number of elements. -/
def rowOffsets : List Nat :=
  (rs.getRowShapes.map IPosition.product).scanl (· + ·) 0

/-- The loop of `FlatOffset`: the index times the running product of
the sizes below, the product held in an `int`. -/
def flatOffsetLoop : Int → List Nat → List Nat → Int
  | product, i :: index, n :: shape =>
      i * product + flatOffsetLoop (toInt32 (product * n)) index shape
  | _, _, _ => 0

/-- `FlatOffset`: the offset of the element at `index`. Given the row
offsets, the elements of preceding rows are not summed again. -/
def flatOffset (index : List Nat) (rowOffsets : Option (List Nat)) :
    Result Int := do
  let ndim ← rs.consistentNDim
  match rs.shape with
  | some shape => pure (flatOffsetLoop 1 index shape)
  | none =>
      match index[ndim - 1]? with
      | none => .error .outOfBounds
      | some row =>
          let shape ← rs.getRowShape row
          let offset := flatOffsetLoop 1 (index.take (ndim - 1)) shape
          match rowOffsets with
          | some offsets =>
              match offsets[row]? with
              | some start => pure (offset + start)
              | none => .error .outOfBounds
          | none =>
              pure (offset
                + ((rs.getRowShapes.take row).map IPosition.product).sum)

end ResultShapeData

end Arcae
