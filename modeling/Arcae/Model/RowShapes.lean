/-
The shapes of the selected rows, as an Arrow array
(`NewTableProxy::GetRowShapes` of new_table_proxy.cc and
`ResultShapeData::GetShapeArray` of result_shape.cc).

The shapes are those of a read that may miss rows, reported in C order: a
list of one size for each row, which is null where the row is missing if
the shapes were kept row by row. Sizes are held in 32 bits.

The table and its column are there already: the check that the column
exists, and the pool its tables are read in, are left out.
-/
import Arcae.Model.ReadShape
import Arcae.Model.Arrow
import Arcae.Model.ReadImpl

namespace Arcae

variable {α : Type}

/-- `Int32Builder::Finish`. -/
def int32Array (values : List Int) : ArrayData Int :=
  .leaf
    { type := .int32
      offset := 0
      length := values.length
      validity := none
      values := values }

/-- The array with the null bitmap on its outermost level. -/
def ArrayData.withNulls (nullBitmap : List Bool) : ArrayData Int → ArrayData Int
  | .leaf slots => .leaf { slots with validity := some nullBitmap }
  | .list level child => .list { level with validity := some nullBitmap } child

namespace ResultShapeData

variable (rs : ResultShapeData)

/-- The sizes of a shape without its rows, last dimension first, as
`Int32Builder` holds them. -/
def appendSizes (ndim : Nat) (shape : IPosition) : Result (List Int) :=
  (List.range ndim).reverse.mapM fun dim =>
    match (shape[dim]? : Option Nat) with
    | none => .error .outOfBounds
    | some size => .ok (toInt32 size)

/-- One turn of the loop over the rows of a varying shape: the bit of the
row, and its sizes. -/
def appendRowSizes (ndim row : Nat) : Result (Bool × List Int) := do
  let shape ← rs.getRowShape row
  let sizes ← appendSizes ndim
    (if isDegenerateShape shape then List.replicate ndim 0 else shape)
  pure (decide (shape.length ≠ 0), sizes)

/-- `GetShapeArray`. -/
def getShapeArray : Result (ArrayData Int) := do
  let ndim ← rs.consistentNDim
  let nrow := rs.nRows
  match ndim with
  -- a vector of -1 builders
  | 0 => .error .outOfBounds
  -- without row
  | 1 =>
      pure (.leaf
        { type := .uint8
          offset := 0
          length := nrow
          validity := none
          values := List.replicate nrow 1 })
  | ndim + 1 =>
      match rs.shape with
      | some shape => do
          let sizes ← (List.range nrow).mapM fun _ => appendSizes ndim shape
          fixedSizeListFromArrays (int32Array sizes.flatten) ndim
      | none => do
          let rows ← (List.range nrow).mapM (rs.appendRowSizes ndim)
          let array ← fixedSizeListFromArrays
            (int32Array (rows.map Prod.snd).flatten) ndim
          pure (array.withNulls (rows.map Prod.fst))

end ResultShapeData

/-- `NewTableProxy::GetRowShapes`. -/
def NewTableProxy.getRowShapes (col : TableColumn α) (sel : Selection) :
    Result (ArrayData Int) :=
  if 1 < sel.size then
    .error (.notImplemented ("GetRowShapes with selection of secondary "
      ++ "dimensions. Select on row only"))
  else do
    let shapeData ← ResultShapeData.makeRead col sel true
    shapeData.getShapeArray

end Arcae
