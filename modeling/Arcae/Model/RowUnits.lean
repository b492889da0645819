/-
The storage units of a column's rows (`MakeRowUnitStart`,
data_partition.cc).

Tiled storage managers keep the cells of many rows in hypercubes, cells
in the leading axes and rows in the rest, and read a hypercube tile by
tile. The rows in one band of tiles along the last axis are therefore
best read together. `unitStart` takes a row back to the start of its
band by subtracting the offset of the row in the band.

A hypercube is known by a number here, where the source holds a
pointer. What the storage manager itself answers (its type, the
hypercube of a row and the position of the row's cell there, the block
size of Dysco) is data: `none` wherever casacore throws.
-/
import Arcae.Model.DataPartition

namespace Arcae

/-- The types of storage manager the source tells apart. -/
inductive DataManagerType where
  | tiledCellStMan | tiledColumnStMan | tiledShapeStMan | tiledDataStMan
  | dyscoStMan
  | other (name : String)
  deriving Repr, DecidableEq

/-- `casacore::TSMCube`. -/
structure TSMCube where
  cubeShape : IPosition
  tileShape : IPosition
  deriving Repr, DecidableEq

/-- `casacore::TiledStMan`: its hypercubes, and where it keeps each
row. -/
structure TiledStMan where
  cube : Nat → TSMCube
  /-- The hypercube of a row, and the position of its cell in it. -/
  getHypercube : Nat → Option (Nat × IPosition)

/-- `casacore::DataManager`, as far as it is asked. -/
structure DataManager where
  dataManagerType : DataManagerType
  /-- `dynamic_cast<TiledStMan*>`. -/
  tiled : Option TiledStMan
  /-- The field of that name in the specification. -/
  rowsPerBlock : Option Nat

/-- A column of a table, as far as the storage of its rows goes. -/
structure ColumnStorage where
  isRootTable : Bool
  /-- `findDataManager`. -/
  dataManager : Option DataManager
  /-- `columnDesc().ndim()`. -/
  ndim : Int

namespace TiledStMan

variable (tsm : TiledStMan) (cellNDim : Int)

/-- The offset of a cell's row in its band: its offset along the last
axis of its tile, then its positions along the other row axes. -/
def bandOffset (cube : TSMCube) (position : IPosition) (firstRowAxis : Nat) :
    Nat :=
  let last := position.length - 1
  let rowAxes := ((List.range last).filter fun d => decide (firstRowAxis ≤ d)).reverse
  rowAxes.foldl
    (fun offset d => offset * cube.cubeShape.getD d 0 + position.getD d 0)
    (position.getD last 0 % cube.tileShape.getD last 0)

/-- The function returned for a tiled storage manager. -/
def unitStart (row : Nat) : Nat :=
  match tsm.getHypercube row with
  | none => row -- a row in no hypercube
  | some (c, position) =>
      let cube := tsm.cube c
      let ndim : Int := position.length
      let firstRowAxis := if 0 < cellNDim then cellNDim else ndim - 1
      -- the dummy hypercube of rows that have no hypercube
      if ndim ≤ firstRowAxis ∨ (cube.tileShape.length : Int) ≠ ndim
          ∨ (cube.cubeShape.length : Int) ≠ ndim then row
      else
        let offset := bandOffset cube position firstRowAxis.toNat
        if offset ≤ row then row - offset else row

end TiledStMan

/-- `MakeRowUnitStart`. -/
def makeRowUnitStart (column : ColumnStorage) : Option RowUnitStart :=
  if !column.isRootTable then none
  else
    match column.dataManager with
    | none => none
    | some dm =>
        if dm.dataManagerType = .tiledCellStMan then none
        else
          match dm.tiled with
          | some tsm =>
              if column.ndim ≤ 0 ∧ dm.dataManagerType = .tiledDataStMan then none
              else some (tsm.unitStart column.ndim)
          | none =>
              if dm.dataManagerType = .dyscoStMan then
                match dm.rowsPerBlock with
                | none => none
                | some rows =>
                    if rows ≤ 1 then none else some fun row => row - row % rows
              else none

end Arcae
