/-
A request, in the caller's terms: cells of a column, and what a
selection makes of them.

`cellOf` is the cell a row of the result is read from, `clipped` its
shape once the selection has picked from it, and `diskIndex` takes a
multi-index of the result back to the cell. Nothing here mentions
chunks, spans or memory.
-/
import Arcae.Model.ReadShape
import Arcae.Spec.Moves
import Mathlib.Data.List.GetD

namespace Arcae

open FOrder

variable {α : Type}

namespace Selection

variable (sel : Selection)

/-- The shape of a cell after selection: the size of the selection in
selected dimensions. -/
def clipped (shape : IPosition) : IPosition :=
  shape.zipIdx.map fun n =>
    match sel.maybeFSpan n.2 (shape.length + 1) with
    | some ids => ids.length
    | none => n.1

/-- Every selected index lies within the cell. -/
def Fits (shape : IPosition) : Prop :=
  ∀ d < shape.length, ∀ ids, sel.maybeFSpan d (shape.length + 1) = some ids →
    ∀ i ∈ ids, i < (shape.getD d 0 : Int)

/-- The index of a cell that a multi-index of the result stands for. -/
def diskIndex (m : List Nat) : List Nat :=
  m.zipIdx.map fun i =>
    match sel.maybeFSpan i.2 (m.length + 1) with
    | some ids => (ids.getD i.1 0).toNat
    | none => i.1

/-- No selected index that a multi-index stands for is negative. -/
def Picks (m : List Nat) : Prop :=
  ∀ d < m.length, ∀ ids, sel.maybeFSpan d (m.length + 1) = some ids →
    0 ≤ ids.getD (m.getD d 0) 0

@[simp] theorem clipped_length (shape : IPosition) :
    (sel.clipped shape).length = shape.length := by
  simp [clipped]

theorem clipped_getElem? {shape : IPosition} {d : Nat} (hd : d < shape.length) :
    (sel.clipped shape)[d]? = some
      (match sel.maybeFSpan d (shape.length + 1) with
        | some ids => ids.length
        | none => shape.getD d 0) := by
  simp only [clipped, List.getElem?_map, List.getElem?_zipIdx,
    List.getElem?_eq_getElem hd, Option.map_some, Nat.zero_add,
    List.getD_eq_getElem _ _ hd]

/-- A selection of rows alone clips nothing. -/
theorem maybeFSpan_secondary_of_size {sel : Selection} (h : sel.size ≤ 1)
    {d ndim : Nat} (hd : d < ndim) : sel.maybeFSpan d (ndim + 1) = none := by
  have hnone : sel.spans.reverse[ndim + 1 - 1 - d]? = none := by
    rw [List.getElem?_eq_none_iff, List.length_reverse]
    unfold size at h
    omega
  rw [maybeFSpan_eq_fromRow sel (by omega), fromRow, hnone]

end Selection

/-- The cell that a row of the result is read from, if there is one. -/
def cellOf (col : TableColumn α) (sel : Selection) (i : Nat) :
    Option IPosition :=
  if selectedRow sel i < 0 then none
  else col.cellShape (selectedRow sel i).toNat

/-- A row read from a cell is a row of the table. -/
theorem cellOf_lt {col : TableColumn α} {sel : Selection} {i : Nat}
    {shape : IPosition} (h : cellOf col sel i = some shape) :
    0 ≤ selectedRow sel i ∧ selectedRow sel i < col.nrow
      ∧ col.cellShape (selectedRow sel i).toNat = some shape := by
  unfold cellOf at h
  split at h
  · cases h
  · have hlt := col.cell_nrow _ _ h
    exact ⟨by omega, by omega, h⟩

/-- A request to gather: rows that exist and have cells of one rank, and
selected indices that are distinct and lie within each of the cells. -/
structure GatherRequest (col : TableColumn α) (sel : Selection) (n : Nat) :
    Prop where
  /-- The rows can be counted, and elements of the type read. -/
  limit : col.nrow ≤ indexTypeMax
  supported : col.columnDesc.dataType.supported = true
  rows_pos : 0 < selectedRows sel col.nrow
  rows_distinct : sel.hasRowSpan = true → sel.getRowSpan.Nodup
  cells : ∀ k < selectedRows sel col.nrow, ∃ shape,
    cellOf col sel k = some shape ∧ shape.length = n
  dims_distinct : ∀ d < n, ∀ ids, sel.maybeFSpan d (n + 1) = some ids →
    ids.Nodup ∧ ∀ i ∈ ids, 0 ≤ i
  dims_within : ∀ k < selectedRows sel col.nrow, ∀ shape,
    cellOf col sel k = some shape → sel.Fits shape

/-- Where a row of the result has elements, its strides along a selected
dimension are below 2^31, or the indices selected there have no gaps. -/
def StridesSmall (col : TableColumn α) (sel : Selection) (n : Nat) : Prop :=
  ∀ k < selectedRows sel col.nrow, ∀ shape, cellOf col sel k = some shape →
    0 ∈ sel.clipped shape ∨ ∀ d < n, ∀ ids,
      sel.maybeFSpan d (n + 1) = some ids →
        Gapless ids ∨ ((sel.clipped shape).take d).prod < 2 ^ 31

end Arcae
