/-
A column of a casacore table, as the code under `src/` relies on it:
the description, the number of rows, the shape of each defined cell and
the value of each element.

# What casacore promises

The fields after `value` are casacore's own invariants, so that a
column casacore cannot hold cannot be built here. Every row of a
fixed-shape column (scalar columns are those of rank 0) has a cell of
the column's shape; a defined cell of any other column has at least one
axis, and the column's own number of axes where the description fixes
it.

# Reading and writing

`getColumnCells` and `putColumnCells` are exact: they take precisely
the requested section of each requested row, first axis fastest and
rows slowest, and throw when some requested element does not exist:
a row out of range or without a cell, a section of another rank, an
index past the cell. Values sit in one total map, addressed by row and
cell index, so a put is a scatter of its section; the values a fresh
cell starts with are whatever the map holds there.
-/
import Arcae.Model.Basic
import Arcae.Lib.FOrder
import Arcae.Lib.Scatter

namespace Arcae

open FOrder Scatter

-- ========================================================= description

/-- `casacore::ColumnDesc`. `ndim` is -1 when the column does not fix
the rank of its cells. -/
structure ColumnDesc where
  name : String
  dataType : DataType
  ndim : Int
  /-- The shape of every cell of a fixed-shape column. -/
  fixedShape : Option IPosition
  ndim_ge : -1 ≤ ndim
  ndim_fixed : ∀ s, fixedShape = some s → ndim = s.length

/-- A rank as it is described. -/
def ColumnDesc.ndimOf (rank : Option Nat) : Int := rank.elim (-1) Int.ofNat

theorem ColumnDesc.ndimOf_ge (rank : Option Nat) : -1 ≤ ndimOf rank := by
  cases rank with
  | none => exact Int.le_refl (-1)
  | some n => exact Int.le_trans (Int.negSucc_le_zero 0) (Int.natCast_nonneg n)

/-- The descriptor of a column whose cells have shapes of their own, of a
rank if it fixes one. -/
def ColumnDesc.withoutShape (name : String) (dataType : DataType)
    (rank : Option Nat) : ColumnDesc where
  name := name
  dataType := dataType
  ndim := ndimOf rank
  fixedShape := none
  ndim_ge := ndimOf_ge rank
  ndim_fixed := by intro s hs; cases hs

/-- The descriptor of a column whose cells have one shape. -/
def ColumnDesc.ofShape (name : String) (dataType : DataType)
    (shape : IPosition) : ColumnDesc where
  name := name
  dataType := dataType
  ndim := shape.length
  fixedShape := some shape
  ndim_ge := ndimOf_ge (some shape.length)
  ndim_fixed := by intro s hs; cases hs; rfl

/-- `isFixedShape`: every cell has the column's own shape. -/
def ColumnDesc.isFixedShape (desc : ColumnDesc) : Bool :=
  desc.fixedShape.isSome

/-- The address of an element: its row, and its index in the row's
cell. -/
abbrev CellIndex := Nat × List Nat

/-- `casacore::TableColumn` over elements of type `α`. -/
structure TableColumn (α : Type) where
  columnDesc : ColumnDesc
  nrow : Nat
  /-- The shape of a row's cell; `none` for an undefined row. -/
  cellShape : Nat → Option IPosition
  value : CellIndex → α
  cell_nrow : ∀ r s, cellShape r = some s → r < nrow
  cell_fixed : ∀ s r, columnDesc.fixedShape = some s → r < nrow →
    cellShape r = some s
  cell_rank : ∀ r s, columnDesc.fixedShape = none → cellShape r = some s →
    s ≠ []
  cell_ndim : ∀ r s, 0 ≤ columnDesc.ndim → cellShape r = some s →
    columnDesc.ndim = s.length

namespace TableColumn

variable {α : Type}

/-- The rank of a cell is the column's, if that fixes one. -/
theorem ndim_cell (col : TableColumn α) {r : Nat} {s : IPosition}
    (h : col.cellShape r = some s) :
    col.columnDesc.ndim = -1 ∨ col.columnDesc.ndim = s.length := by
  have hge := col.columnDesc.ndim_ge
  by_cases hfree : col.columnDesc.ndim = -1
  · exact .inl hfree
  · exact .inr (col.cell_ndim r s (by omega) h)

/-- A column whose cells have one shape. -/
def ofShape (name : String) (dataType : DataType) (shape : IPosition)
    (nrow : Nat) (value : CellIndex → α) : TableColumn α where
  columnDesc := .ofShape name dataType shape
  nrow := nrow
  cellShape row := if row < nrow then some shape else none
  value := value
  cell_nrow := by
    intro r s h
    split at h
    · assumption
    · cases h
  cell_fixed := by
    intro s r hs h
    cases hs
    exact if_pos h
  cell_rank := by intro r s hs; cases hs
  cell_ndim := by
    intro r s _ h
    split at h
    · cases h
      rfl
    · cases h

-- ============================================================= access

/-- The element at a disk index (cell index first, row last), if it
exists. -/
def locate (col : TableColumn α) (disk : List Int) : Option CellIndex :=
  match disk.getLast? with
  | none => none
  | some row =>
      match col.cellShape row.toNat with
      | none => none
      | some shape =>
          let idx := disk.dropLast
          if 0 ≤ row ∧ (∀ i ∈ idx, 0 ≤ i) ∧ InBox (idx.map Int.toNat) shape
          then some (row.toNat, idx.map Int.toNat) else none

/-- The inclusive range of a slicer axis. -/
def slicerRange (axis : Int × Int) : List Int :=
  (List.range (axis.2 - axis.1 + 1).toNat).map fun i : Nat => axis.1 + (i : Int)

/-- `Slicer::length`. -/
def slicerLength (slicer : List (Int × Int)) : List Int :=
  slicer.map fun axis => axis.2 - axis.1 + 1

/-- The disk indices of a section of some rows, first axis fastest and
rows slowest. -/
def sectionIndices (rows : List Int) (slicer : List (Int × Int)) :
    List (List Int) :=
  (slicer.map slicerRange ++ [rows]).sections

/-- The elements of a section of some rows; an exception if one of them
does not exist. -/
def locateSection (col : TableColumn α) (rows : List Int)
    (slicer : List (Int × Int)) : Result (List CellIndex) :=
  match (sectionIndices rows slicer).mapM col.locate with
  | some addrs => .ok addrs
  | none => .error .aipsError

/-- `getColumnCells`: the values of a section of some rows. -/
def getColumnCells (col : TableColumn α) (rows : List Int)
    (slicer : List (Int × Int)) : Result (List α) := do
  let addrs ← col.locateSection rows slicer
  pure (addrs.map col.value)

/-- `getSlice`: the values of a section of one row. -/
def getSlice (col : TableColumn α) (row : Int)
    (slicer : List (Int × Int)) : Result (List α) :=
  col.getColumnCells [row] slicer

/-- Replace the values of some elements. Shapes stay, so casacore's
invariants do. -/
def putValues (col : TableColumn α) (writes : List (CellIndex × α)) :
    TableColumn α :=
  { col with value := scatter col.value writes }

/-- `putColumnCells`: write a section of some rows. -/
def putColumnCells (col : TableColumn α) (rows : List Int)
    (slicer : List (Int × Int)) (data : List α) : Result (TableColumn α) := do
  let addrs ← col.locateSection rows slicer
  pure (col.putValues (addrs.zip data))

/-- `putSlice`: write a section of one row. -/
def putSlice (col : TableColumn α) (row : Int) (slicer : List (Int × Int))
    (data : List α) : Result (TableColumn α) :=
  col.putColumnCells [row] slicer data

/-- `setShape`: give a row of a variably shaped column a cell. An
exception where casacore cannot hold the cell. -/
def setShape (col : TableColumn α) (row : Nat) (shape : IPosition) :
    Result (TableColumn α) :=
  if h : col.columnDesc.fixedShape = none ∧ row < col.nrow ∧ shape ≠ []
      ∧ (0 ≤ col.columnDesc.ndim → col.columnDesc.ndim = shape.length) then
    .ok
      { col with
        cellShape := Function.update col.cellShape row (some shape)
        cell_nrow := by
          intro r s hs
          by_cases hr : r = row
          · exact hr ▸ h.2.1
          · rw [Function.update_of_ne hr] at hs
            exact col.cell_nrow r s hs
        cell_fixed := by
          intro s r hs
          rw [h.1] at hs
          cases hs
        cell_rank := by
          intro r s hf hs
          by_cases hr : r = row
          · rw [hr, Function.update_self] at hs
            cases hs
            exact h.2.2.1
          · rw [Function.update_of_ne hr] at hs
            exact col.cell_rank r s hf hs
        cell_ndim := by
          intro r s hn hs
          by_cases hr : r = row
          · rw [hr, Function.update_self] at hs
            cases hs
            exact h.2.2.2 hn
          · rw [Function.update_of_ne hr] at hs
            exact col.cell_ndim r s hn hs }
  else .error .aipsError

end TableColumn

end Arcae
