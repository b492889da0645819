/-
The shapes of the selected rows, with all that is cached.

`makeRowData` once more, with the clipper it keeps: `CellShapeClipper`
holds the sizes and the largest indices of the selected dimensions for
cells of one rank, and collects them anew when the rank changes.
-/
import Arcae.Model.ReadShape

namespace Arcae

variable {α : Type}

/-- `CellShapeClipper`: the rank of the cells it is ready for, none at
first, and their dimensions. -/
structure CellShapeClipper where
  ndim : Option Nat
  dims : List (Option SelectedDim)
  deriving Repr, DecidableEq

namespace CellShapeClipper

/-- A new clipper. -/
def init : CellShapeClipper := ⟨none, []⟩

/-- `Cache`. -/
def cache (sel : Selection) (ndim : Nat) : CellShapeClipper :=
  ⟨some ndim, (List.range ndim).map (selectedDim sel ndim)⟩

/-- One turn of the loop of `Clip`. -/
def clipDim (columnDesc : ColumnDesc) (dims : List (Option SelectedDim))
    (cellShape : IPosition) (dim : Nat) : Result IPosition :=
  match dims[dim]? with
  | none => .error .outOfBounds
  | some none => .ok cellShape
  | some (some selected) =>
      if (cellShape.getD dim 0 : Int) ≤ selected.max then
        .error (.indexError ("Selection index " ++ toString selected.max
          ++ " exceeds dimension " ++ toString dim ++ " of shape "
          ++ toString cellShape ++ " in column " ++ columnDesc.name))
      else .ok (cellShape.set dim selected.size)

/-- `Clip`: the clipped shape, and the clipper afterwards. -/
def clip (columnDesc : ColumnDesc) (sel : Selection)
    (clipper : CellShapeClipper) (cellShape : IPosition) :
    Result (IPosition × CellShapeClipper) :=
  -- check non-row selection dimensions
  if sel.size ≤ 1 then .ok (cellShape, clipper)
  else do
    let clipper :=
      if clipper.ndim = some cellShape.length then clipper
      else cache sel cellShape.length
    let clipped ← (List.range cellShape.length).foldlM
      (clipDim columnDesc clipper.dims) cellShape
    pure (clipped, clipper)

end CellShapeClipper

/-- The state of the loop of `MakeRowData`, with its clipper. -/
structure RowScanState extends RowDataState where
  clipper : CellShapeClipper
  deriving Repr, DecidableEq

/-- One turn of the loop of `MakeRowData`. -/
def rowScanStep (col : TableColumn α) (sel : Selection)
    (allowMissingRows : Bool) (st : RowScanState) (i : Nat) :
    Result RowScanState :=
  let name := col.columnDesc.name
  let r := selectedRow sel i
  if (col.nrow : Int) ≤ r then
    .error (.indexError ("Requested row " ++ toString r ++ " in column " ++ name
      ++ " >= column.nrow() " ++ toString col.nrow))
  else
    match if r < 0 then none else col.cellShape r.toNat with
    | none =>
        -- negative and undefined rows are missing
        if allowMissingRows then .ok { st with result := addShape i [] st.result }
        else if 0 ≤ r then
          .error (.invalid ("Row " ++ toString r ++ " is not defined for column "
            ++ name ++ " and missing rows are not configured"))
        else
          .error (.indexError ("Unable to derive a row shape for negative "
            ++ "row index " ++ toString r
            ++ ". MakeRowData has likely been misused"))
    | some shape =>
        if st.lastShape = some shape then
          -- while shapes are common, the previous row had the common shape
          if st.result.shapes.isEmpty then .ok st
          else
            .ok { st with
              result := { st.result with
                shapes := st.result.shapes ++ [st.lastClipped] } }
        else do
          let (clipped, clipper) ← st.clipper.clip col.columnDesc sel shape
          pure
            { result := addShape i clipped st.result
              lastShape := some shape
              lastClipped := clipped
              clipper := clipper }

/-- `MakeRowData`. -/
def rowScan (col : TableColumn α) (sel : Selection)
    (allowMissingRows : Bool) : Result RowShapeData := do
  let st ← (List.range (selectedRows sel col.nrow)).foldlM
    (rowScanStep col sel allowMissingRows)
    { result := ⟨none, [], 0⟩
      lastShape := none
      lastClipped := []
      clipper := .init }
  pure st.result

end Arcae
