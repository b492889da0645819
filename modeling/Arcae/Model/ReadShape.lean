/-
The shape of a read (the read functions of result_shape.cc).

# Without a result

`makeRead` derives the shape from the column. A fixed column has its
cells' shape, clipped against the selection; otherwise each selected
row is clipped on its own (`makeRowData`), and the shapes are one shape
if they agree and no row is missing.

# Into a result

The shape is the result's own, and `negateMissingSelectedRows` fits the
selection to it: undefined rows become -1, and dimensions of which a
cell has less than the result are padded with -1, in the selection if
all cells agree on how much they have, else row by row
(`cellExtents`).
-/
import Arcae.Model.Selection
import Arcae.Model.ResultShape
import Arcae.Model.Column

namespace Arcae

variable {α : Type}

/-- `CheckRowNumberLimit`: rows are counted in an `IndexType`. -/
def checkRowNumberLimit (column : String) (nrows : Nat) : Result Unit :=
  if nrows ≤ indexTypeMax then .ok ()
  else .error (.indexError ("Number of rows " ++ toString nrows ++ " in column "
    ++ column ++ " is too large for arcae's IndexType"))

-- =============================================================== clipping

/-- `std::max_element` of a span of indices. -/
def maxIndex : Index → Int
  | [] => 0
  | i :: is => is.foldl max i

/-- `SelectedDim`: the size and the largest index of a selected
dimension. -/
structure SelectedDim where
  size : Nat
  max : Int
  deriving Repr, DecidableEq

/-- `CellShapeClipper::Cache`: one dimension of a cell of rank `ndim`. -/
def selectedDim (sel : Selection) (ndim dim : Nat) : Option SelectedDim :=
  (sel.maybeFSpan dim (ndim + 1)).map fun span => ⟨span.length, maxIndex span⟩

/-- One turn of the loop of `Clip`. -/
def clipStep (columnDesc : ColumnDesc) (sel : Selection) (ndim : Nat)
    (cellShape : IPosition) (dim : Nat) : Result IPosition :=
  match selectedDim sel ndim dim with
  | none => .ok cellShape
  | some selected =>
      if (cellShape.getD dim 0 : Int) ≤ selected.max then
        .error (.indexError ("Selection index " ++ toString selected.max
          ++ " exceeds dimension " ++ toString dim ++ " of shape "
          ++ toString cellShape ++ " in column " ++ columnDesc.name))
      else .ok (cellShape.set dim selected.size)

/-- `CellShapeClipper::Clip`. -/
def clip (columnDesc : ColumnDesc) (sel : Selection) (cellShape : IPosition) :
    Result IPosition :=
  if sel.size ≤ 1 then .ok cellShape
  else (List.range cellShape.length).foldlM
    (clipStep columnDesc sel cellShape.length) cellShape

-- ======================================================== shapes of rows

/-- `RowShapeData`: the shape every row shares, or the shape of each
row once they vary or one is missing. -/
structure RowShapeData where
  commonShape : Option IPosition
  shapes : List IPosition
  missingRows : Nat
  deriving Repr, DecidableEq

/-- `AddShape`: record the clipped shape of row `i`, which is empty if
the row is missing. -/
def addShape (i : Nat) (shape : IPosition) (data : RowShapeData) :
    RowShapeData :=
  let missing := isDegenerateShape shape
  let missingRows := data.missingRows + if missing then 1 else 0
  if data.shapes.isEmpty then
    if !missing && data.commonShape.isNone then
      { data with commonShape := some shape, missingRows := missingRows }
    else if !missing && data.commonShape == some shape then
      { data with missingRows := missingRows }
    else
      -- all preceding rows share the common shape
      { commonShape := none
        shapes := List.replicate i (data.commonShape.getD []) ++ [shape]
        missingRows := missingRows }
  else { data with shapes := data.shapes ++ [shape], missingRows := missingRows }

/-- The state of the loop of `MakeRowData`: the shapes so far, and the
shape of the most recent defined row, before and after clipping. -/
structure RowDataState where
  result : RowShapeData
  lastShape : Option IPosition
  lastClipped : IPosition
  deriving Repr, DecidableEq

/-- The row that row `i` of the result is read from. -/
def selectedRow (sel : Selection) (i : Nat) : Int :=
  if sel.hasRowSpan then sel.getRowSpan.getD i 0 else i

/-- Number of rows of the result. -/
def selectedRows (sel : Selection) (nrow : Nat) : Nat :=
  if sel.hasRowSpan then sel.getRowSpan.length else nrow

/-- One turn of the loop of `MakeRowData`. -/
def makeRowDataStep (col : TableColumn α) (sel : Selection)
    (allowMissingRows : Bool) (st : RowDataState) (i : Nat) :
    Result RowDataState :=
  let name := col.columnDesc.name
  let r := selectedRow sel i
  if (col.nrow : Int) ≤ r then
    .error (.indexError ("Requested row " ++ toString r ++ " in column " ++ name
      ++ " >= column.nrow() " ++ toString col.nrow))
  else
    match if r < 0 then none else col.cellShape r.toNat with
    | none =>
        -- negative and undefined rows are missing
        if allowMissingRows then .ok { st with result := addShape i [] st.result }
        else if 0 ≤ r then
          .error (.invalid ("Row " ++ toString r ++ " is not defined for column "
            ++ name ++ " and missing rows are not configured"))
        else
          .error (.indexError ("Unable to derive a row shape for negative "
            ++ "row index " ++ toString r
            ++ ". MakeRowData has likely been misused"))
    | some shape =>
        if st.lastShape = some shape then
          -- while shapes are common, the previous row had the common shape
          if st.result.shapes.isEmpty then .ok st
          else
            .ok { st with
              result := { st.result with
                shapes := st.result.shapes ++ [st.lastClipped] } }
        else do
          let clipped ← clip col.columnDesc sel shape
          pure ⟨addShape i clipped st.result, some shape, clipped⟩

/-- `MakeRowData`. -/
def makeRowData (col : TableColumn α) (sel : Selection)
    (allowMissingRows : Bool) : Result RowShapeData := do
  let st ← (List.range (selectedRows sel col.nrow)).foldlM
    (makeRowDataStep col sel allowMissingRows) ⟨⟨none, [], 0⟩, none, []⟩
  pure st.result

-- ============================================================== MakeRead

/-- The dimensionality the row shapes agree on, or -1. -/
def rowShapesNDim : List IPosition → Int → Int
  | [], ndim => ndim
  | shape :: shapes, ndim =>
      if isDegenerateShape shape then rowShapesNDim shapes ndim
      else if ndim = -1 then rowShapesNDim shapes (shape.length + 1)
      else if ndim = shape.length + 1 then rowShapesNDim shapes ndim
      else -1

namespace ResultShapeData

/-- A fixed shape with its rows. -/
def ofShape (columnName : String) (shape : IPosition) (dtype : DataType) :
    ResultShapeData where
  columnName := columnName
  shape := some shape
  ndim := shape.length
  dtype := dtype
  rowShapes := none
  cellExtents := none

/-- `MakeRead`. -/
def makeRead (col : TableColumn α) (sel : Selection)
    (allowMissingRows : Bool) : Result ResultShapeData := do
  let columnName := col.columnDesc.name
  checkRowNumberLimit columnName col.nrow
  let dtype := col.columnDesc.dataType
  let nselrow := selectedRows sel col.nrow
  match col.columnDesc.fixedShape with
  | some shape =>
      let shape ← clip col.columnDesc sel shape
      pure (ofShape columnName (shape ++ [nselrow]) dtype)
  | none =>
      let rowData ← makeRowData col sel allowMissingRows
      if !allowMissingRows && decide (0 < rowData.missingRows) then
        .error (.invalid (toString rowData.missingRows
          ++ " missing rows in column " ++ columnName
          ++ " for the given row selection"))
      else
        match rowData.commonShape with
        | some shape =>
            -- the column varies, but the selected shape is fixed
            pure (ofShape columnName (shape ++ [nselrow]) dtype)
        | none =>
            let derived := rowShapesNDim rowData.shapes (-1)
            let ndim :=
              if derived = -1 then
                if 0 ≤ col.columnDesc.ndim then col.columnDesc.ndim + 1
                else col.columnDesc.ndim
              else derived
            pure
              { columnName := columnName
                shape := none
                ndim := ndim
                dtype := dtype
                rowShapes := some rowData.shapes
                cellExtents := none }

end ResultShapeData

-- ============================================== fitting a supplied result

/-- One dimension of `ValidateCellShape`: a selected dimension must match
the result, and its indices lie within the cell. -/
def validateCellDim (columnDesc : ColumnDesc) (cellShape resultShape : IPosition)
    (sel : Selection) (dim : Nat) : Result Unit :=
  match sel.maybeFSpan dim (cellShape.length + 1) with
  | none => .ok ()
  | some span =>
      let name := columnDesc.name
      if span.length ≠ resultShape.getD dim 0 then
        .error (.indexError ("Selection size " ++ toString span.length
          ++ " does not match the result shape size "
          ++ toString (resultShape.getD dim 0) ++ " in dimension "
          ++ toString dim ++ " of column " ++ name))
      else
        match span.find? fun i => decide ((cellShape.getD dim 0 : Int) ≤ i) with
        | some i =>
            .error (.indexError ("Selection index " ++ toString i
              ++ " exceeds dimension " ++ toString dim ++ " of shape "
              ++ toString cellShape ++ " in column " ++ name))
        | none => .ok ()

/-- `ValidateCellShape`. -/
def validateCellShape (columnDesc : ColumnDesc)
    (cellShape resultShape : IPosition) (sel : Selection) : Result Unit :=
  if resultShape.length ≠ cellShape.length then
    .error (.invalid ("Result rank " ++ toString resultShape.length
      ++ " does not match column rank " ++ toString cellShape.length
      ++ " in column " ++ columnDesc.name))
  else
    (List.range cellShape.length).forM
      (validateCellDim columnDesc cellShape resultShape sel)

/-- `CellExtent`: the cell shape clipped against the result in unselected
dimensions, and the result shape in selected ones. -/
def cellExtent (cellShape resultShape : IPosition) (sel : Selection) :
    IPosition :=
  resultShape.zipIdx.map fun n =>
    match sel.maybeFSpan n.2 (resultShape.length + 1) with
    | some _ => n.1
    | none => min (cellShape.getD n.2 0) n.1

/-- One secondary dimension of `RebuildSelection`. -/
def rebuildDim (sel : Selection) (resultShape extent : IPosition) (dim : Nat) :
    Index :=
  match sel.maybeFSpan dim (resultShape.length + 1) with
  | some span => span
  | none =>
      let n := resultShape.getD dim 0
      let e := extent.getD dim 0
      if e < n then
        (List.range e).map Int.ofNat ++ List.replicate (n - e) (-1)
      else []

/-- `RebuildSelection`: substitute the rows, if any are supplied, and pad
unselected dimensions whose extent is smaller than the result. -/
def rebuildSelection (sel : Selection) (resultShape extent : IPosition)
    (rows : Option Index) : Selection :=
  let builder := (List.range resultShape.length).foldl
    (fun b dim => b.add (rebuildDim sel resultShape extent dim))
    (SelectionBuilder.init .fOrder)
  let builder :=
    match rows with
    | some rows => builder.add rows
    | none =>
        if sel.hasRowSpan then builder.add sel.getRowSpan else builder.addEmpty
  builder.build

/-- The state of the loop of `NegateMissingSelectedRows`. -/
structure NegateState where
  rows : Index
  rowsModified : Bool
  /-- Extent shared by all defined rows, if any. -/
  commonExtent : Option IPosition
  /-- Extent of each row, if the extents vary by row. -/
  cellExtents : Option (List IPosition)
  deriving Repr, DecidableEq

/-- Append to the extents of the rows, if they are kept. -/
def NegateState.emplace (st : NegateState) (extent : IPosition) : NegateState :=
  { st with cellExtents := st.cellExtents.map (· ++ [extent]) }

/-- Take the extent of row `i`, which is read. -/
def NegateState.takeExtent (st : NegateState) (i : Nat) (extent : IPosition) :
    NegateState :=
  match st.commonExtent with
  | none => { st with commonExtent := some extent }
  | some common =>
      if st.cellExtents.isNone && extent != common then
        -- preceding rows either share the common extent or are not read
        { st with cellExtents := some (List.replicate i common) }
      else st

/-- One turn of the loop of `NegateMissingSelectedRows`. -/
def negateStep (col : TableColumn α) (resultShape : IPosition)
    (sel : Selection) (st : NegateState) (i : Nat) : Result NegateState :=
  let r := st.rows.getD i 0
  if (col.nrow : Int) ≤ r then
    .error (.indexError ("Row " ++ toString r ++ " in selection is >= nrow "
      ++ toString col.nrow ++ " in column " ++ col.columnDesc.name))
  else if r < 0 then .ok (st.emplace resultShape)
  else
    match col.cellShape r.toNat with
    | some cellShape => do
        validateCellShape col.columnDesc cellShape resultShape sel
        let extent := cellExtent cellShape resultShape sel
        pure ((st.takeExtent i extent).emplace extent)
    | none =>
        -- an undefined row is not read
        .ok ({ st with rows := st.rows.set i (-1), rowsModified := true }.emplace
          resultShape)

namespace ResultShapeData

variable (rs : ResultShapeData)

/-- `CheckNrOfRows`. -/
def checkNrOfRows (hasSpan : Bool) (r : Nat) : Result Unit :=
  if r = rs.nRows then .ok ()
  else .error (.indexError ("Number of rows in the result shape "
    ++ toString rs.nRows ++ " does not match the number of rows " ++ toString r
    ++ " in the " ++ (if hasSpan then "selection." else "column.")))

/-- `NegateMissingSelectedRows` of a variably shaped column. -/
def negateVarying (col : TableColumn α) (sel : Selection)
    (resultShape : IPosition) : Result (ResultShapeData × Selection) := do
  let hasSpan := sel.hasRowSpan
  rs.checkNrOfRows hasSpan (selectedRows sel col.nrow)
  let rows :=
    if hasSpan then sel.getRowSpan else (List.range col.nrow).map Int.ofNat
  let st ← (List.range rows.length).foldlM (negateStep col resultShape sel)
    ⟨rows, false, none, none⟩
  -- extents that vary by row are left to the data partition
  let (rs, commonExtent) :=
    match st.cellExtents with
    | some extents => ({ rs with cellExtents := some extents }, resultShape)
    | none => (rs, st.commonExtent.getD resultShape)
  if !st.rowsModified && commonExtent == resultShape then pure (rs, sel)
  else
    pure (rs, rebuildSelection sel resultShape commonExtent
      (if st.rowsModified then some st.rows else none))

/-- `NegateMissingSelectedRows`. It may also set the cell extents of the
shape, so it returns both. -/
def negateMissingSelectedRows (col : TableColumn α) (sel : Selection) :
    Result (ResultShapeData × Selection) :=
  match rs.shape with
  | none => .error (.notImplemented
      "Checking selections against non fixed-shape result data")
  | some shape =>
      let resultShape := shape.dropLast
      match col.columnDesc.fixedShape with
      | some cellShape => do
          -- all cells share the same extent
          validateCellShape col.columnDesc cellShape resultShape sel
          let extent := cellExtent cellShape resultShape sel
          if extent = resultShape then pure (rs, sel)
          else pure (rs, rebuildSelection sel resultShape extent none)
      | none => rs.negateVarying col sel resultShape

end ResultShapeData

end Arcae
