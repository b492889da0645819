/-
`putcol`: `MakeWrite` and `WriteImpl`.

# State

`MakeWrite` checks a write and, on its way, gives undefined rows of a
variably shaped column a cell. So a write is a function from a column to
a column, and a failure leaves whatever was done before it: each stage
returns its result and the column as it is then.

# Checks

A selection of a secondary dimension is summarised once
(`DimSelection`), and must match the data and lie within each cell that
exists; an undefined row is given the shape of its data, extended to
the largest selected index. Consecutive rows of one cell shape and one
data shape are checked once.

# Values

The data is flattened to its leaf, and the leaf's buffer, its conversion
by Arrow or, for strings, a copy of its views is what the chunks are
written from.
-/
import Arcae.Model.Arrow
import Arcae.Model.ReadShape
import Arcae.Model.ChunkIo

namespace Arcae

variable {α β : Type}

-- ================================================================ checks

/-- `DimSelection`: the selection of a secondary dimension, its number
of non-negative indices and the largest one. -/
structure DimSelection where
  span : Index
  nselected : Nat
  maxIndex : Int
  deriving Repr, DecidableEq

/-- The selection of a dimension of data of `shapeNDim` dimensions. -/
def dimSelection (sel : Selection) (shapeNDim dim : Nat) :
    Option DimSelection :=
  (sel.maybeFSpan dim shapeNDim).map fun span =>
    ⟨span, span.countP fun i => decide (0 ≤ i), maxIndex span⟩

/-- One dimension of `CheckAgainstCell`. -/
def checkDimAgainstCell (columnDesc : ColumnDesc) (sel : Selection)
    (shapeNDim : Nat) (cellShape dataShape : IPosition) (dim : Nat) :
    Result Unit :=
  match cellShape[dim]? with
  | none => .error .outOfBounds
  | some cellSize =>
      match dimSelection sel shapeNDim dim with
      | some selection =>
          if cellSize < selection.nselected then
            .error (.indexError ("Selection size " ++ toString selection.nselected
              ++ " exceeds the dimension size " ++ toString cellSize
              ++ " of dimension " ++ toString dim ++ " in column "
              ++ columnDesc.name))
          else if (cellSize : Int) ≤ selection.maxIndex then
            .error (.indexError ("Selection " ++ toString selection.maxIndex
              ++ " exceeds the dimension size " ++ toString cellSize
              ++ " of dimension " ++ toString dim ++ " in column "
              ++ columnDesc.name))
          else .ok ()
      | none =>
          match dataShape[dim]? with
          | none => .error .outOfBounds
          | some dataSize =>
              if cellSize < dataSize then
                .error (.indexError ("Data shape " ++ toString dataShape
                  ++ " exceeds cell shape " ++ toString cellShape
                  ++ " in dimension " ++ toString dim ++ " of column "
                  ++ columnDesc.name))
              else .ok ()

/-- `CheckAgainstCell`: selected dimensions must fit within the cell, and
unselected dimensions of the data may not exceed it. -/
def checkAgainstCell (columnDesc : ColumnDesc) (sel : Selection)
    (shapeNDim : Nat) (cellShape dataShape : IPosition) : Result Unit :=
  (List.range (shapeNDim - 1)).forM
    (checkDimAgainstCell columnDesc sel shapeNDim cellShape dataShape)

/-- The selection of a dimension has the size of the data there. -/
def checkDimAgainstData (columnDesc : ColumnDesc) (sel : Selection)
    (shapeNDim : Nat) (dataShape : IPosition) (dim : Nat) : Result Unit :=
  match dimSelection sel shapeNDim dim with
  | none => .ok ()
  | some selection =>
      match dataShape[dim]? with
      | none => .error .outOfBounds
      | some dataSize =>
          if selection.span.length ≠ dataSize then
            .error (.indexError ("Selection size "
              ++ toString selection.span.length ++ " does not match data size "
              ++ toString dataSize ++ " in dimension " ++ toString dim
              ++ " of column " ++ columnDesc.name))
          else .ok ()

/-- The checks of the row selection. The row count is the last axis of a
fixed shape, which a shape without axes does not have. -/
def checkRowSelection (columnDesc : ColumnDesc) (nrow : Nat)
    (rs : ResultShapeData) (sel : Selection) : Result Unit :=
  if sel.hasRowSpan then
    let rowSpan := sel.getRowSpan
    if rs.shape = some [] then .error .outOfBounds
    else if rowSpan.length ≠ rs.nRows then
      .error (.indexError ("Row selection size " ++ toString rowSpan.length
        ++ " does not match the number of rows in the result shape "
        ++ toString rs.nRows))
    else if nrow < rowSpan.length then
      .error (.indexError ("Row selection size " ++ toString rowSpan.length
        ++ " exceeds the number of rows in the result shape " ++ toString nrow))
    else
      match rowSpan.find? fun r => decide ((nrow : Int) ≤ r) with
      | some r =>
          .error (.indexError ("Row selection " ++ toString r
            ++ " exceeds the number of rows " ++ toString nrow ++ " in column "
            ++ columnDesc.name))
      | none => .ok ()
  else .ok ()

-- ================================================================== rows

namespace ResultShapeData

variable (rs : ResultShapeData)

/-- `DataRowShape`: the shape of a row of the data. -/
def dataRowShape (shapeNDim r : Nat) : Result IPosition :=
  match rs.shape with
  | some shape => .ok (shape.take (shapeNDim - 1))
  | none => rs.getRowShape r

/-- Number of rows whose shapes are checked: a fixed shape is checked
once. -/
def nDataRows : Nat := if rs.isFixed then 1 else rs.nRows

end ResultShapeData

/-- The shape given to an undefined row: that of its data, extended to
the largest selected index. -/
def newCellShape (sel : Selection) (shapeNDim : Nat) (dataShape : IPosition) :
    IPosition :=
  dataShape.zipIdx.map fun n =>
    match dimSelection sel shapeNDim n.2 with
    | some selection => (max (selection.maxIndex + 1) n.1).toNat
    | none => n.1

/-- The state of the loop over the rows of a variably shaped column: the
column, and the cell and data shapes that passed the checks last. -/
structure WriteState (α : Type) where
  col : TableColumn α
  last : Option (IPosition × IPosition)

/-- One turn of that loop. -/
def makeWriteRow (rs : ResultShapeData) (sel : Selection) (shapeNDim : Nat)
    (st : WriteState α) (r : Nat) : Result (WriteState α) :=
  let row := selectedRow sel r
  if row < 0 then .ok st
  else do
    let dataShape ← rs.dataRowShape shapeNDim r
    match st.col.cellShape row.toNat with
    | some cellShape =>
        if st.last = some (cellShape, dataShape) then pure st
        else do
          checkAgainstCell st.col.columnDesc sel shapeNDim cellShape dataShape
          pure { st with last := some (cellShape, dataShape) }
    | none =>
        let col ← st.col.setShape row.toNat
          (newCellShape sel shapeNDim dataShape)
        pure { st with col := col }

/-- The loop: a failure leaves the rows before it as they are then. -/
def makeWriteRows (rs : ResultShapeData) (sel : Selection) (shapeNDim : Nat) :
    List Nat → WriteState α → Result Unit × TableColumn α
  | [], st => (.ok (), st.col)
  | r :: rows, st =>
      match makeWriteRow rs sel shapeNDim st r with
      | .ok st => makeWriteRows rs sel shapeNDim rows st
      | .error e => (.error e, st.col)

-- ============================================================= MakeWrite

/-- The checks of `MakeWrite` before the cells: the shape of the data,
and its number of dimensions. -/
def checkWrite (col : TableColumn α) (data : ArrowArray β) (sel : Selection) :
    Result (ResultShapeData × Nat) := do
  let columnDesc := col.columnDesc
  checkRowNumberLimit columnDesc.name col.nrow
  let rs ← getResultShapeData columnDesc data.data
  let shapeNDim ← rs.consistentNDim
  if columnDesc.ndim ≠ -1 ∧ (shapeNDim : Int) ≠ columnDesc.ndim + 1 then
    .error (.invalid ("Number of data dimensions " ++ toString shapeNDim
      ++ " does not match number of column dimensions "
      ++ toString (columnDesc.ndim + 1)))
  else do
    checkRowSelection columnDesc col.nrow rs sel
    pure (rs, shapeNDim)

/-- Selections of secondary dimensions match the data. -/
def checkData (columnDesc : ColumnDesc) (rs : ResultShapeData)
    (sel : Selection) (shapeNDim : Nat) : Result Unit :=
  (List.range rs.nDataRows).forM fun r => do
    let dataShape ← rs.dataRowShape shapeNDim r
    (List.range (shapeNDim - 1)).forM
      (checkDimAgainstData columnDesc sel shapeNDim dataShape)

/-- The cells of a column of one cell shape, checked. -/
def checkFixedCells (columnDesc : ColumnDesc) (rs : ResultShapeData)
    (sel : Selection) (shapeNDim : Nat) (cellShape : IPosition) : Result Unit :=
  (List.range rs.nDataRows).forM fun r => do
    let dataShape ← rs.dataRowShape shapeNDim r
    checkAgainstCell columnDesc sel shapeNDim cellShape dataShape

/-- Rows that are checked or given a cell: without a row selection, the
leading rows of the column. -/
def nWrittenRows (col : TableColumn α) (rs : ResultShapeData)
    (sel : Selection) : Nat :=
  if sel.hasRowSpan then sel.getRowSpan.length else min col.nrow rs.nRows

namespace ResultShapeData

/-- `MakeWrite`. -/
def makeWrite (col : TableColumn α) (data : ArrowArray β) (sel : Selection) :
    Result ResultShapeData × TableColumn α :=
  match checkWrite col data sel with
  | .error e => (.error e, col)
  | .ok (rs, shapeNDim) =>
      -- no secondary dimensions
      if shapeNDim ≤ 1 then (.ok rs, col)
      else
        match checkData col.columnDesc rs sel shapeNDim with
        | .error e => (.error e, col)
        | .ok () =>
            match col.columnDesc.fixedShape with
            | some shape =>
                ((checkFixedCells col.columnDesc rs sel shapeNDim shape).map
                  fun _ => rs, col)
            | none =>
                match makeWriteRows rs sel shapeNDim
                    (List.range (nWrittenRows col rs sel)) ⟨col, none⟩ with
                | (result, col) => (result.map fun _ => rs, col)

end ResultShapeData

-- ============================================================= WriteImpl

/-- What `WriteImpl` does between the checks and the chunks: partition
the data, and find the buffer to write it from. -/
def prepareWrite (srt : StdSort)
    (cast : LeafArray β → ArrowType → Result (LeafArray β)) (around : Memory β)
    (rs : ResultShapeData) (data : ArrowArray β) (sel : Selection) :
    Result (DataPartition × Memory β) := do
  let partition ← DataPartition.make srt sel rs .default
  let casaDtype := partition.casaDtype
  let nelements := leafWidth casaDtype * partition.nElements
  let flatArray ← getFlatArray data.data
  if flatArray.length ≠ nelements then
    .error (.invalid ("Partition elements " ++ toString nelements
      ++ " don't match flat array elements " ++ toString flatArray.length))
  else do
    let buffer ← extractBufferOrCopyValues cast around flatArray casaDtype
    pure (partition, buffer)

/-- The part of `WriteImpl` before the chunks: what can fail without an
element having been written. -/
def planWrite (srt : StdSort)
    (cast : LeafArray β → ArrowType → Result (LeafArray β)) (around : Memory β)
    (col : TableColumn α) (data : ArrowArray β) (sel : Selection) :
    Result (DataPartition × Memory β) × TableColumn α :=
  match ResultShapeData.makeWrite col data sel with
  | (.error e, col') => (.error e, col')
  | (.ok rs, col') => (prepareWrite srt cast around rs data sel, col')

/-- `WriteImpl`: put data into a column. The table has the column and has
been opened for writing: `reopenRW` and `ColumnExists` come first. -/
def writeImpl (srt : StdSort)
    (cast : LeafArray β → ArrowType → Result (LeafArray β)) (around : Memory β)
    (col : TableColumn α) (layout : ElementLayout col.columnDesc.dataType α β)
    (data : ArrowArray β) (sel : Selection) : Result Unit × TableColumn α :=
  match planWrite srt cast around col data sel with
  | (.error e, col') => (.error e, col')
  | (.ok (partition, buffer), col') =>
      writeChunks col' partition.casaDtype partition.dataChunks
        (layout.dataAs buffer)

end Arcae
