/-
What `putcol` is for: an exact scatter, and a frame.

Element `m` of row `k` of the data is found in the array by its own
nested index, a pair of leaf values for a complex column
(`ElementLayout.ElementAt`). It belongs in the cell of the row that is
selected, at the index that `m` stands for. A write of all elements that
have such a place scatters them (`Scatters`) if each is there
afterwards, every other element that was defined before is as it was,
and cells have come only where elements went.

The values of an array are told apart from its levels by putting others
in their place (`withValues`).
-/
import Arcae.Model.Write
import Arcae.Spec.Arrow
import Arcae.Spec.Moves
import Arcae.Spec.Request

namespace Arcae

open FOrder

variable {α β : Type}

-- ============================================================== elements

namespace ArrayData

/-- The same levels over other leaf values. -/
def withValues (values : List β) : ArrayData β → ArrayData β
  | .leaf slots => .leaf { slots with values := values }
  | .list level child => .list level (child.withValues values)

@[simp] theorem withValues_length (values : List β) (data : ArrayData β) :
    (data.withValues values).length = data.length := by
  cases data <;> rfl

@[simp] theorem withValues_leafArray (values : List β) (data : ArrayData β) :
    (data.withValues values).leafArray
      = { data.leafArray with values := values } := by
  induction data with
  | leaf slots => rfl
  | list level child ih => exact ih

theorem WellFormed.withValues {values : List β} {data : ArrayData β}
    (h : data.WellFormed)
    (hlen : values.length = data.leafArray.values.length) :
    (data.withValues values).WellFormed := by
  induction data with
  | leaf slots =>
      show slots.offset + slots.length ≤ values.length
      rw [hlen]
      exact h
  | list level child ih =>
      refine ⟨?_, ih h.2 hlen⟩
      rw [withValues_length]
      exact h.1

end ArrayData

/-- The same array with other leaf values. -/
def ArrowArray.withValues (array : ArrowArray β) (values : List β)
    (h : values.length = array.data.leafArray.values.length) : ArrowArray β where
  data := array.data.withValues values
  wellFormed := array.wellFormed.withValues h

/-- The element of a row of the data at a multi-index, first axis
first. -/
def ElementLayout.ElementAt {dtype : DataType} (layout : ElementLayout dtype α β)
    (data : ArrayData β) (k : Nat) (m : List Nat) (x : α) : Prop :=
  ∀ i : Fin (leafWidth dtype),
    data.element k (m.reverse ++ if dtype.isComplex then [(i : Nat)] else [])
      = some (layout.parts x i)

-- =============================================================== scatters

/-- `putcol` took a column from `col` to `col'`: each element of the data
whose place exists is in it, and nothing else has changed. -/
structure Scatters {col : TableColumn α}
    (layout : ElementLayout col.columnDesc.dataType α β) (data : ArrayData β)
    (sel : Selection) (col' : TableColumn α) : Prop where
  written : ∀ k < data.length, 0 ≤ selectedRow sel k → ∀ m x,
    layout.ElementAt data k m x → sel.Picks m →
      col'.Has ((selectedRow sel k).toNat, sel.diskIndex m)
        ∧ col'.value ((selectedRow sel k).toNat, sel.diskIndex m) = x
  frame : ∀ row idx, col.Has (row, idx) →
    (∀ k < data.length, selectedRow sel k = row → ∀ m x,
      layout.ElementAt data k m x → sel.Picks m → sel.diskIndex m ≠ idx) →
      col'.value (row, idx) = col.value (row, idx)
  shapes : ∀ row shape, col.cellShape row = some shape →
    col'.cellShape row = some shape
  unselected : ∀ row : Nat, (∀ k < data.length, selectedRow sel k ≠ row) →
    col'.cellShape row = col.cellShape row
  defined : col.columnDesc.fixedShape = none → ∀ k < data.length,
    0 ≤ selectedRow sel k → selectedRow sel k < (col.nrow : Int) →
      ∃ shape, col'.cellShape (selectedRow sel k).toNat = some shape
        ∧ ∀ m x, layout.ElementAt data k m x → sel.Picks m →
            InBox (sel.diskIndex m) shape

/-- The arguments of a scatter: unsliced data of the column's own element
type, and a selection that repeats no non-negative index. The values are
elements of the column: for a Bool column, which keeps one bit of each,
that is asked where they are read back (`Keeps`). -/
structure PutRequest (col : TableColumn α) (data : ArrowArray β)
    (sel : Selection) : Prop where
  unsliced : data.data.Unsliced
  ownType : arrowDataType col.columnDesc.dataType
    = .ok data.data.leafArray.type
  distinct : ∀ span ∈ sel.spans, NoRepeat span

/-- In a row with an element to write, the indices of a selected dimension
are one run from the first position on, or its stride is below 2^31; and
so are the rows of data of a fixed shape, or each of them is small. -/
def WriteStridesSmall (sel : Selection) (rs : ResultShapeData) : Prop :=
  ∀ k < rs.nRows, 0 ≤ selectedRow sel k →
    (∃ m, InBox m (rs.rowDims k) ∧ sel.Picks m) →
      (∀ d < rs.rank - 1, ∀ ids, sel.maybeFSpan d rs.rank = some ids →
        (0 ≤ ids.headD 0 ∧ Gapless ids)
          ∨ ((rs.rowDims k).take d).prod < 2 ^ 31)
      ∧ (rs.isFixed = true →
          0 ≤ selectedRow sel 0 ∨ (rs.rowDims k).prod < 2 ^ 31)

end Arcae
