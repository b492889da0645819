/-
Which reads fill their buffer.

`getcol` allocates its buffer as it comes, so every element of it has to
be read into. A request has one for each row and each multi-index of the
row's cell as it is clipped (`readCell`), on disk or not, and the chunks
that hold them must be put where they belong. That no index is negative
is one half of it, and that no chunk slips is the other: along a
dimension that is cut, and along the rows if they are read in pieces
(`ReadFills`).
-/
import Arcae.Spec.Request

namespace Arcae

open FOrder

variable {α : Type}

/-- The cell a row is read as: the column's own shape is not asked of the
row. -/
def readCell (col : TableColumn α) (sel : Selection) (k : Nat) :
    Option IPosition :=
  match col.columnDesc.fixedShape with
  | some cell => some cell
  | none => cellOf col sel k

/-- Where the pieces end that the rows of a request are read in, each row
of which is worth a piece. -/
def rowPieceEnds (nInstances : Nat) (unitStart : Option RowUnitStart)
    (col : TableColumn α) (sel : Selection) : List Nat :=
  let rows := (List.range (selectedRows sel col.nrow)).map (selectedRow sel)
  let sorted := rows.mergeSort fun i j => decide (i ≤ j)
  pieceEnds rows.length (min nInstances rows.length) (fun p => sorted.getD p 0)
    unitStart

/-- Every element of a request exists, and each cut of a dimension or of
the rows leaves its chunks in their places. -/
structure ReadFills (nInstances : Nat) (unitStart : Option RowUnitStart)
    (col : TableColumn α) (sel : Selection) : Prop where
  exist : ∀ k < selectedRows sel col.nrow, ∀ cell,
    readCell col sel k = some cell → ∀ m, InBox m (sel.clipped cell) →
      0 ≤ selectedRow sel k ∧ sel.Picks m
  dims : ∀ k < selectedRows sel col.nrow, ∀ cell,
    readCell col sel k = some cell → 0 ∉ sel.clipped cell →
      ∀ d < cell.length, ∀ ids, sel.maybeFSpan d (cell.length + 1) = some ids →
        Gapless ids ∨ ((sel.clipped cell).take d).prod < 2 ^ 31
  rows : 1 < (rowPieceEnds nInstances unitStart col sel).length →
    ∀ dims, (∀ k < selectedRows sel col.nrow, ∀ cell,
      readCell col sel k = some cell → sel.clipped cell = dims) →
      dims.prod < 2 ^ 31

end Arcae
