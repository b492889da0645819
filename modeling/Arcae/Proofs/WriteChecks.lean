/-
A write that skips checks accepts what a write that makes them all does.

`MakeWrite` remembers the cell shape and the data shape that passed the
checks last, across rows that are negative or undefined and through
cells given on the way, and skips the check of a defined row where both
are met again. The loop without the memory is written out beside it
(`checkedWriteRows`): it checks every defined row against its cell.

The check reads the two shapes, the selection and the description of the
column, and nothing that a turn of the loop changes; which row of the
table or of the data the shapes came from is not among what it reads. So
a pair that passed passes again (`LastPassed`), and the two loops go
through the same columns turn by turn and end with the same result
(`makeWriteRows_eq_checked`).
-/
import Arcae.Proofs.WriteFailure

namespace Arcae

open Loops

variable {α β : Type} {sel : Selection} {rs : ResultShapeData}

-- =================================================== statement vocabulary

/-- One turn of the loop that checks each defined row. -/
def checkedWriteRow (rs : ResultShapeData) (sel : Selection) (shapeNDim : Nat)
    (col : TableColumn α) (r : Nat) : Result (TableColumn α) :=
  let row := selectedRow sel r
  if row < 0 then .ok col
  else do
    let dataShape ← rs.dataRowShape shapeNDim r
    match col.cellShape row.toNat with
    | some cellShape => do
        checkAgainstCell col.columnDesc sel shapeNDim cellShape dataShape
        pure col
    | none => col.setShape row.toNat (newCellShape sel shapeNDim dataShape)

/-- That loop: it remembers nothing but the column. -/
def checkedWriteRows (rs : ResultShapeData) (sel : Selection)
    (shapeNDim : Nat) :
    List Nat → TableColumn α → Result Unit × TableColumn α
  | [], col => (.ok (), col)
  | r :: rows, col =>
      match checkedWriteRow rs sel shapeNDim col r with
      | .ok col => checkedWriteRows rs sel shapeNDim rows col
      | .error e => (.error e, col)

/-- What `MakeWrite` would be if it checked each defined row against its
cell. -/
def makeCheckedWrite (col : TableColumn α) (data : ArrowArray β)
    (sel : Selection) : Result ResultShapeData × TableColumn α :=
  match checkWrite col data sel with
  | .error e => (.error e, col)
  | .ok (rs, shapeNDim) =>
      if shapeNDim ≤ 1 then (.ok rs, col)
      else
        match checkData col.columnDesc rs sel shapeNDim with
        | .error e => (.error e, col)
        | .ok () =>
            match col.columnDesc.fixedShape with
            | some shape =>
                ((checkFixedCells col.columnDesc rs sel shapeNDim shape).map
                  fun _ => rs, col)
            | none =>
                match checkedWriteRows rs sel shapeNDim
                    (List.range (nWrittenRows col rs sel)) col with
                | (result, col) => (result.map fun _ => rs, col)

-- ============================================================== one turn

/-- Giving a row a cell leaves the description of the column. -/
theorem setShape_columnDesc {col col' : TableColumn α} {row : Nat}
    {shape : IPosition} (h : col.setShape row shape = .ok col') :
    col'.columnDesc = col.columnDesc := by
  unfold TableColumn.setShape at h
  split at h
  · cases h
    rfl
  · cases h

/-- With a memory of shapes that passed, a turn does what the turn that
checks does, and leaves such a memory. -/
theorem makeWriteRow_eq_checked {st : WriteState α}
    (hlast : LastPassed sel rs st) (r : Nat) :
    (∃ e, makeWriteRow rs sel rs.rank st r = .error e
        ∧ checkedWriteRow rs sel rs.rank st.col r = .error e)
      ∨ ∃ st', makeWriteRow rs sel rs.rank st r = .ok st'
        ∧ checkedWriteRow rs sel rs.rank st.col r = .ok st'.col
        ∧ LastPassed sel rs st' := by
  unfold checkedWriteRow
  dsimp only
  by_cases hneg : selectedRow sel r < 0
  · -- not written
    rw [makeWriteRow_negative hneg, if_pos hneg]
    exact .inr ⟨st, rfl, rfl, hlast⟩
  · rw [if_neg hneg]
    cases hshape : rs.dataRowShape rs.rank r with
    | error e =>
        refine .inl ⟨e, ?_, rfl⟩
        unfold makeWriteRow
        dsimp only
        rw [if_neg hneg, hshape, Result.error_bind]
    | ok dataShape =>
        rw [Result.ok_bind]
        cases hcell : st.col.cellShape (selectedRow sel r).toNat with
        | none =>
            -- given a cell, by both
            rw [makeWriteRow_undefined hneg hshape hcell]
            cases hset : st.col.setShape (selectedRow sel r).toNat
                (newCellShape sel rs.rank dataShape) with
            | error e => exact .inl ⟨e, rfl, rfl⟩
            | ok col =>
                refine .inr ⟨{ st with col := col }, rfl, rfl,
                  fun cell data heq => ?_⟩
                show checkAgainstCell col.columnDesc sel rs.rank cell data = _
                rw [setShape_columnDesc hset]
                exact hlast cell data heq
        | some cellShape =>
            obtain ⟨st', hturn, hcol, hlast'⟩ :=
              makeWriteRow_checked hlast hneg hshape hcell
            rw [hturn]
            dsimp only
            cases hcheck : checkAgainstCell st.col.columnDesc sel rs.rank
                cellShape dataShape with
            | error e => exact .inl ⟨e, rfl, rfl⟩
            | ok u =>
                refine .inr ⟨st', rfl, ?_, hlast' hcheck⟩
                rw [hcol]
                rfl

-- ============================================================== all turns

/-- With a memory of shapes that passed, the loop ends with the result
and the column of the loop that checks. -/
theorem makeWriteRows_eq_checked :
    ∀ (rows : List Nat) (st : WriteState α), LastPassed sel rs st →
      makeWriteRows rs sel rs.rank rows st
        = checkedWriteRows rs sel rs.rank rows st.col := by
  intro rows
  induction rows with
  | nil => intro st _; rfl
  | cons r rows ih =>
      intro st hlast
      rw [makeWriteRows, checkedWriteRows]
      rcases makeWriteRow_eq_checked hlast r with h | h
      · obtain ⟨e, hrow, hchecked⟩ := h
        rw [hrow, hchecked]
      · obtain ⟨st', hrow, hchecked, hlast'⟩ := h
        rw [hrow, hchecked]
        exact ih st' hlast'

/-- Skipping repeated checks does not change what a write accepts: for
any column, data and selection, `MakeWrite` returns what it would return
if it checked each defined row against its cell, with the same error if
there is one, and leaves the column with the same cells. -/
theorem makeWrite_eq_checked (col : TableColumn α) (data : ArrowArray β)
    (sel : Selection) :
    ResultShapeData.makeWrite col data sel = makeCheckedWrite col data sel := by
  unfold ResultShapeData.makeWrite makeCheckedWrite
  cases hcheck : checkWrite col data sel with
  | error e => rfl
  | ok checked =>
      obtain ⟨rs, ndim⟩ := checked
      obtain ⟨-, rfl, -⟩ := checkWrite_ok hcheck
      have hlast : LastPassed sel rs (⟨col, none⟩ : WriteState α) := by
        intro cell data hnone
        cases hnone
      have hloop := makeWriteRows_eq_checked
        (List.range (nWrittenRows col rs sel)) ⟨col, none⟩ hlast
      dsimp only
      by_cases hrank : rs.rank ≤ 1
      · rw [if_pos hrank, if_pos hrank]
      · rw [if_neg hrank, if_neg hrank]
        cases checkData col.columnDesc rs sel rs.rank with
        | error e => rfl
        | ok u =>
            dsimp only
            cases col.columnDesc.fixedShape with
            | some shape => rfl
            | none =>
                dsimp only
                rw [hloop]

end Arcae
