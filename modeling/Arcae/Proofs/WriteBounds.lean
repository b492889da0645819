/-
Where a planned write may go.

The partition of a write plans a transfer for every row of the data,
whereas the checks of `MakeWrite` see the rows of a row selection or,
without one, those rows of the data that the column has. With a row
selection the two agree. Without one, a row of data beyond the column
is planned and never checked; it is harmless only if it has no element
to write (`planned_writes_in_bounds_iff`).

Everything else about a planned write is in bounds: its rows are in the
column, and in each of them the cell has room.
-/
import Arcae.Proofs.Bounds
import Arcae.Proofs.Write

namespace Arcae

open Loops

variable {α β : Type} {col col' : TableColumn α} {sel : Selection}
  {rs : ResultShapeData} {desc : ColumnDesc}

-- ============================================================ the request

/-- A write that passes is a request the partition can plan. -/
theorem IsWrite.isMatch (h : IsWrite sel rs col col') (hrs : rs.Consistent)
    (hext : rs.cellExtents = none) : sel.Matches rs where
  rows := by
    intro ids hids
    rw [Selection.selected, Selection.maybeFSpan_row sel hrs.rank_pos] at hids
    by_cases hspan : sel.hasRowSpan = true
    · rw [if_pos hspan] at hids
      cases hids
      exact (h.rowSpan hspan).1
    · rw [if_neg hspan] at hids
      cases hids
  secondary := by
    intro row hrow dim hdim ids hids
    exact h.dims (by omega) row hrow dim hdim ids hids
  unpadded := by
    intro row dim hpad
    obtain ⟨extent, hextent, -⟩ := hpad
    rw [ResultShapeData.extent, hext] at hextent
    cases hextent

/-- Without extents of their own, rows are not padded. -/
theorem dimIds_of_extents_none (hext : rs.cellExtents = none) (row dim : Nat) :
    dimIds sel rs row dim = (sel.selected rs dim).getD
      (monotonicIds ((rs.rowDims row).getD dim 0)) := by
  simp only [dimIds, ResultShapeData.extent, hext]

/-- An index a row is written at lies within a cell with room for it. -/
theorem RowHasRoom.inCell {k dim : Nat} (h : RowHasRoom col sel rs k)
    (hext : rs.cellExtents = none) (hdim : dim < rs.rank - 1) {i : Int}
    (hi : i ∈ dimIds sel rs k dim) : col.InCell (selectedRow sel k) dim i := by
  obtain ⟨cell, hcell, hroom⟩ := h
  obtain ⟨size, hsize, hselected, hunselected⟩ := hroom dim hdim
  refine ⟨cell, size, hcell, hsize, ?_⟩
  rw [dimIds_of_extents_none hext] at hi
  cases hspan : sel.maybeFSpan dim rs.rank with
  | some ids =>
      rw [Selection.selected, hspan, Option.getD_some] at hi
      exact hselected ids hspan i hi
  | none =>
      rw [Selection.selected, hspan, Option.getD_none] at hi
      obtain ⟨j, hj, rfl⟩ := List.mem_map.mp hi
      have hle := hunselected hspan
      have hlt := List.mem_range.mp hj
      exact Int.ofNat_lt.mpr (by omega)

-- ============================================================== in bounds

/-- A planned write addresses only storage the column has exactly when
there is a row selection, or no row of data beyond the column has an
element to write. -/
theorem planned_writes_in_bounds_iff (srt : StdSort) {data : ArrowArray β}
    {p : DataPartition}
    (hwrite : ResultShapeData.makeWrite col data sel = (.ok rs, col'))
    (hmake : DataPartition.make srt sel rs .default = .ok p) :
    (∀ c ∈ p.dataChunks, c.isEmpty = false → c.InBounds col')
      ↔ sel.hasRowSpan = true
        ∨ ∀ k, col.nrow ≤ k → k < rs.nRows → ¬ RowLive sel rs k := by
  obtain ⟨hshape, hw⟩ := makeWrite_ok hwrite
  have hext := hshape.cellExtents
  have hrs := hshape.consistent_of_make hmake
  obtain ⟨-, hpart⟩ := partitions_of_make hrs (hw.isMatch hrs hext) hmake
  have hiff := addressed_iff hrs hpart (fun row => row < (col'.nrow : Int))
    col'.InCell
  have hbounds : (∀ c ∈ p.dataChunks, c.isEmpty = false → c.InBounds col')
      ↔ ∀ c ∈ p.dataChunks, c.isEmpty = false → ∀ row ∈ c.disk (c.nDim - 1),
          row < (col'.nrow : Int)
            ∧ ∀ dim < c.nDim - 1, ∀ i ∈ c.disk dim, col'.InCell row dim i := by
    constructor
    · intro hall c hc hempty row hrow
      have hin := hall c hc hempty
      exact ⟨hin.rows row hrow, hin.dims row hrow⟩
    · intro hall c hc hempty
      exact ⟨fun row hrow => (hall c hc hempty row hrow).1,
        fun row hrow => (hall c hc hempty row hrow).2⟩
  rw [hbounds, hiff, hw.grows.nrow]
  constructor
  · intro hrows
    by_cases hspan : sel.hasRowSpan = true
    · exact .inl hspan
    · refine .inr fun k hle hk hlive => ?_
      -- the row is its own number, past the last
      have hlt := (hrows k hk hlive).1
      rw [rowIds_getD hrs hk, selectedRow, if_neg hspan] at hlt
      omega
  · intro hcond k hk hlive
    have hin : sel.hasRowSpan = true ∨ k < col.nrow := by
      by_contra hno
      rw [not_or] at hno
      exact (hcond.resolve_left hno.1) k (by omega) hk hlive
    have hnn := hlive.1
    rw [rowIds_getD hrs hk] at hnn ⊢
    refine ⟨selectedRow_lt hw.rowSpan hk hin, fun dim hdim i hi _ => ?_⟩
    exact (hw.room (by omega) k hk hin hnn).inCell hext hdim hi

/-- A column of one row, of two elements. -/
def shortColumn : TableColumn Nat where
  columnDesc := .ofShape "DATA" .tpInt [2]
  nrow := 1
  cellShape row := if row < 1 then some [2] else none
  value _ := 0
  cell_nrow := by
    intro r s h
    split at h
    · assumption
    · cases h
  cell_fixed := by
    intro s r hs h
    cases hs
    exact if_pos h
  cell_rank := by intro r s hs; cases hs
  cell_ndim := by
    intro r s _ h
    split at h
    · cases h
      rfl
    · cases h

/-- Rows of two elements. -/
def pairRows (n : Nat) : ArrowArray Nat where
  data := .list ⟨.fixedSizeList 2, 0, n, none⟩
    (.leaf ⟨.int32, 0, n * 2, none, List.replicate (n * 2) 0⟩)
  wellFormed := by
    refine ⟨?_, ?_⟩
    · show (0 + n) * 2 ≤ n * 2
      omega
    · show 0 + n * 2 ≤ (List.replicate (n * 2) 0).length
      simp

/-- Plain numbers are their own leaf values. -/
def plainLayout : ElementLayout .tpInt Nat Nat :=
  ⟨(Equiv.funUnique (Fin 1) Nat).symm⟩

/-- As many rows as the column has are written within it. -/
theorem planned_writes_in_bounds_sample : ∃ rs col' p,
    ResultShapeData.makeWrite shortColumn (pairRows 1) .empty = (.ok rs, col')
      ∧ DataPartition.make .insertion .empty rs .default = .ok p
      ∧ ∀ c ∈ p.dataChunks, c.isEmpty = false → c.InBounds col' := by
  refine ⟨_, _, _, rfl, rfl, ?_⟩
  refine (@planned_writes_in_bounds_iff _ _ shortColumn _ .empty _ .insertion
    (pairRows 1) _ rfl rfl).mpr (.inr fun k hle hk => ?_)
  have hle : 1 ≤ k := hle
  have hk : k < 1 := hk
  omega

/-- A second row passes the checks of a column of one, and is planned
behind its end. -/
theorem surplus_row_out_of_bounds : ∃ rs col' p,
    ResultShapeData.makeWrite shortColumn (pairRows 2) .empty = (.ok rs, col')
      ∧ DataPartition.make .insertion .empty rs .default = .ok p
      ∧ ∃ c ∈ p.dataChunks, c.isEmpty = false ∧ ¬ c.InBounds col' := by
  refine ⟨_, _, _, rfl, rfl, _, List.mem_cons_self, rfl, fun h => ?_⟩
  have hlt : (1 : Int) < (1 : Nat) := h.rows 1 (by decide)
  omega

end Arcae
