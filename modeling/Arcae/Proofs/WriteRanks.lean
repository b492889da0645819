/-
What a write checks of ranks.

The rank of the data is compared with that of the column, which a column
of cells of any rank does not have. The check of a cell then walks the
axes of the data: past the end of a cell of lower rank, and without a
look at the further axes of one of higher rank. So all that stands
between such a cell and the write is an axis both have, of this row or
of one visited before, that is too short and stops the loop
(`RanksGuarded`).

A second look at an axis that does not exist comes earlier. A complex
column takes the innermost axis of its data for the pair; two bare
numbers are left with a shape without axes, whose last one is read for
the number of rows when rows are selected.

The loop remembers the shapes that passed last and gives cells to rows
on its way, neither of which shows in what it reports: that is a check
of each row on its own, against its cell as the rows before it leave it
(`makeWriteRows_eq_forM`).
-/
import Arcae.Proofs.WriteFailure

namespace Arcae

open Loops

variable {α β : Type} {col col' : TableColumn α} {sel : Selection}
  {rs : ResultShapeData} {desc : ColumnDesc}

-- =============================================================== one cell

/-- An axis the cell has is too short for what is written along it. -/
def AxisTooShort (sel : Selection) (ndim : Nat) (cell data : IPosition)
    (dim : Nat) : Prop :=
  ∃ size, cell[dim]? = some size
    ∧ (dimSelection sel ndim dim).elim (size < data.getD dim 0) fun selection =>
        size < selection.nselected ∨ (size : Int) ≤ selection.maxIndex

/-- Some axis that cell and data both have is too short. -/
def CellTooSmall (sel : Selection) (ndim : Nat) (cell data : IPosition) : Prop :=
  ∃ dim < ndim - 1, AxisTooShort sel ndim cell data dim

/-- One axis of the check: too short, missing, or passed. -/
theorem checkDimAgainstCell_cases {ndim dim : Nat} {cell data : IPosition}
    (hdim : dim < data.length) :
    (AxisTooShort sel ndim cell data dim ∧ ∃ text,
        checkDimAgainstCell desc sel ndim cell data dim
          = .error (.indexError text))
      ∨ (cell.length ≤ dim
        ∧ checkDimAgainstCell desc sel ndim cell data dim = .error .outOfBounds)
      ∨ (dim < cell.length ∧ ¬ AxisTooShort sel ndim cell data dim
        ∧ checkDimAgainstCell desc sel ndim cell data dim = .ok ()) := by
  by_cases hlt : dim < cell.length
  · have hsize := List.getElem?_eq_getElem hlt
    have hdata := List.getElem?_eq_getElem hdim
    -- what it means here for the axis to be too short
    have hshort : AxisTooShort sel ndim cell data dim
        ↔ (dimSelection sel ndim dim).elim (cell[dim] < data[dim])
            fun selection => cell[dim] < selection.nselected
              ∨ (cell[dim] : Int) ≤ selection.maxIndex := by
      rw [← List.getD_eq_getElem _ 0 hdim]
      constructor
      · intro h
        obtain ⟨size, hsome, h⟩ := h
        rw [hsize] at hsome
        cases hsome
        exact h
      · intro h
        exact ⟨_, hsize, h⟩
    unfold checkDimAgainstCell
    rw [hshort]
    simp only [hsize, hdata]
    cases dimSelection sel ndim dim with
    | none =>
        simp only [Option.elim_none]
        by_cases hless : cell[dim] < data[dim]
        · rw [if_pos hless]
          exact .inl ⟨hless, _, rfl⟩
        · rw [if_neg hless]
          exact .inr (.inr ⟨hlt, hless, rfl⟩)
    | some selection =>
        simp only [Option.elim_some]
        by_cases hmany : cell[dim] < selection.nselected
        · rw [if_pos hmany]
          exact .inl ⟨.inl hmany, _, rfl⟩
        · rw [if_neg hmany]
          by_cases hmax : (cell[dim] : Int) ≤ selection.maxIndex
          · rw [if_pos hmax]
            exact .inl ⟨.inr hmax, _, rfl⟩
          · rw [if_neg hmax]
            exact .inr (.inr ⟨hlt, not_or.mpr ⟨hmany, hmax⟩, rfl⟩)
  · refine .inr (.inl ⟨by omega, ?_⟩)
    unfold checkDimAgainstCell
    simp only [List.getElem?_eq_none (Nat.not_lt.mp hlt)]

/-- The check of a cell: refused for its sizes, walked past its end, or
passed. Axes past its end come last. -/
theorem checkAgainstCell_cases {ndim : Nat} {cell data : IPosition}
    (hlen : data.length = ndim - 1) :
    (CellTooSmall sel ndim cell data ∧ ∃ text,
        checkAgainstCell desc sel ndim cell data = .error (.indexError text))
      ∨ (¬ CellTooSmall sel ndim cell data ∧ cell.length < ndim - 1
        ∧ checkAgainstCell desc sel ndim cell data = .error .outOfBounds)
      ∨ (¬ CellTooSmall sel ndim cell data ∧ ndim - 1 ≤ cell.length
        ∧ checkAgainstCell desc sel ndim cell data = .ok ()) := by
  have hdims : ∀ dim < ndim - 1, dim < data.length := by
    intro dim hdim
    omega
  -- an axis that passes exists, and is long enough
  have hpassed : ∀ dim < ndim - 1,
      checkDimAgainstCell desc sel ndim cell data dim = .ok () →
        dim < cell.length ∧ ¬ AxisTooShort sel ndim cell data dim := by
    intro dim hdim hok
    rcases @checkDimAgainstCell_cases sel desc ndim dim cell data
      (hdims dim hdim) with ⟨-, text, hbad⟩ | ⟨-, hbad⟩ | ⟨hlt, hfits, -⟩
    · rw [hok] at hbad
      cases hbad
    · rw [hok] at hbad
      cases hbad
    · exact ⟨hlt, hfits⟩
  unfold checkAgainstCell
  rcases @forM_range_cases _
    (checkDimAgainstCell desc sel ndim cell data) (ndim - 1) with
    ⟨hall, hok⟩ | ⟨k, hk, e, hall, hfail, herror⟩
  · refine .inr (.inr ⟨fun hsmall => ?_, ?_, hok⟩)
    · obtain ⟨dim, hdim, hshort⟩ := hsmall
      exact (hpassed dim hdim (hall dim hdim)).2 hshort
    · by_contra hless
      have := (hpassed cell.length (by omega) (hall _ (by omega))).1
      omega
  · rw [herror]
    rcases @checkDimAgainstCell_cases sel desc ndim k cell data
      (hdims k hk) with ⟨hshort, text, hbad⟩ | ⟨hend, hbad⟩ | ⟨-, -, hok⟩
    · rw [hfail] at hbad
      cases hbad
      exact .inl ⟨⟨k, hk, hshort⟩, text, rfl⟩
    · rw [hfail] at hbad
      cases hbad
      refine .inr (.inl ⟨fun hsmall => ?_, by omega, rfl⟩)
      -- an axis the cell has comes before its end
      obtain ⟨dim, hdim, hshort⟩ := hsmall
      have hlt : dim < cell.length := by
        obtain ⟨size, hsize, -⟩ := hshort
        exact (List.getElem?_eq_some_iff.mp hsize).1
      exact (hpassed dim hdim (hall dim (by omega))).2 hshort
    · rw [hfail] at hok
      cases hok

-- =============================================================== the loop

/-- The cell of a row after some rows of the data were visited: its own,
or the one the first of them written there gave it. -/
def visitedCell (col : TableColumn α) (sel : Selection) (rs : ResultShapeData)
    (before : List Nat) (row : Nat) : Option IPosition :=
  (col.cellShape row).or
    ((before.find? fun j => decide (selectedRow sel j = (row : Int))).map
      fun j => newCellShape sel rs.rank (rs.rowDims j))

/-- The check of a row of the data on its own. -/
def rowCheck (col : TableColumn α) (sel : Selection) (rs : ResultShapeData)
    (k : Nat) : Result Unit :=
  if selectedRow sel k < 0 then .ok ()
  else (visitedCell col sel rs (List.range k) (selectedRow sel k).toNat).elim
    (.ok ()) fun cell =>
      checkAgainstCell col.columnDesc sel rs.rank cell (rs.rowDims k)

/-- One more visit gives a cell to the row it is written to, if it has
none. -/
theorem visitedCell_succ (k row : Nat) :
    visitedCell col sel rs (List.range (k + 1)) row
      = (visitedCell col sel rs (List.range k) row).or
          (if selectedRow sel k = (row : Int) then
            some (newCellShape sel rs.rank (rs.rowDims k)) else none) := by
  unfold visitedCell
  rw [List.range_succ, List.find?_append, Option.map_or, Option.or_assoc]
  congr 2
  by_cases hrow : selectedRow sel k = (row : Int)
  · simp [hrow]
  · simp [hrow]

/-- The state of the loop after `k` rows: cells are those the rows
visited leave, and the shapes remembered passed. -/
structure VisitedState (col : TableColumn α) (sel : Selection)
    (rs : ResultShapeData) (k : Nat) (st : WriteState α) : Prop where
  columnDesc : st.col.columnDesc = col.columnDesc
  nrow : st.col.nrow = col.nrow
  cells : ∀ row, st.col.cellShape row
    = visitedCell col sel rs (List.range k) row
  last : ∀ cell data, st.last = some (cell, data) →
    checkAgainstCell col.columnDesc sel rs.rank cell data = .ok ()

theorem VisitedState.lastPassed {k : Nat} {st : WriteState α}
    (h : VisitedState col sel rs k st) : LastPassed sel rs st := by
  rw [LastPassed, h.columnDesc]
  exact h.last

/-- One visit reports the check of its row, and leaves the state behind
that the next one expects. -/
theorem makeWriteRow_visited (hrs : rs.Consistent) {k : Nat}
    {st : WriteState α} (hst : VisitedState col sel rs k st)
    (hvis : RowsVisited col sel rs [k]) :
    (∃ st', makeWriteRow rs sel rs.rank st k = .ok st'
        ∧ rowCheck col sel rs k = .ok () ∧ VisitedState col sel rs (k + 1) st')
      ∨ ∃ e, makeWriteRow rs sel rs.rank st k = .error e
        ∧ rowCheck col sel rs k = .error e := by
  obtain ⟨hk, hlt⟩ := hvis.rows k List.mem_cons_self
  have hshape := dataRowShape_eq (.inl hk)
  by_cases hneg : selectedRow sel k < 0
  · refine .inl ⟨st, makeWriteRow_negative hneg, ?_, hst.columnDesc, hst.nrow,
      fun row => ?_, hst.last⟩
    · rw [rowCheck, if_pos hneg]
    · rw [visitedCell_succ, hst.cells, if_neg (by omega), Option.or_none]
  · have hcells := hst.cells (selectedRow sel k).toNat
    cases hcell : st.col.cellShape (selectedRow sel k).toNat with
    | some cell =>
        rw [hcell] at hcells
        have hcheck : rowCheck col sel rs k
            = checkAgainstCell col.columnDesc sel rs.rank cell
                (rs.rowDims k) := by
          rw [rowCheck, if_neg hneg, ← hcells, Option.elim_some]
        -- the row has a cell, so the visit gives it none
        have hkept : ∀ row, st.col.cellShape row
            = visitedCell col sel rs (List.range (k + 1)) row := by
          intro row
          rw [visitedCell_succ, hst.cells]
          by_cases hrow : selectedRow sel k = (row : Int)
          · rw [hrow, Int.toNat_natCast] at hcells
            rw [← hcells, Option.some_or]
          · rw [if_neg hrow, Option.or_none]
        obtain ⟨st', hturn, hcol, hlast⟩ :=
          makeWriteRow_checked hst.lastPassed hneg hshape hcell
        rw [hst.columnDesc] at hturn hlast
        rw [hcheck, hturn]
        cases hresult : checkAgainstCell col.columnDesc sel rs.rank cell
            (rs.rowDims k) with
        | error e => exact .inr ⟨e, rfl, rfl⟩
        | ok u =>
            rw [← hcol] at hkept
            refine .inl ⟨st', rfl, rfl, hcol ▸ hst.columnDesc, hcol ▸ hst.nrow,
              hkept, ?_⟩
            have hpassed := hlast hresult
            rw [LastPassed, hcol, hst.columnDesc] at hpassed
            exact hpassed
    | none =>
        rw [hcell] at hcells
        have hlen := hrs.rowDims_length (.inl hk)
        have htwo := hvis.rank
        have hnrow := hst.nrow
        obtain ⟨col₁, hset⟩ := @setShape_isOk _ st.col
          (selectedRow sel k).toNat (newCellShape sel rs.rank (rs.rowDims k))
          (hst.columnDesc ▸ hvis.varying) (by omega) (by
            refine List.ne_nil_of_length_pos ?_
            rw [newCellShape_length]
            omega) (by
            rw [hst.columnDesc, newCellShape_length, hlen]
            intro hnn
            have := hvis.ndim hnn
            omega)
        obtain ⟨hgrows, hnew⟩ := setShape_ok hcell hset
        refine .inl ⟨{ st with col := col₁ }, ?_, ?_,
          hgrows.columnDesc.trans hst.columnDesc, hgrows.nrow.trans hst.nrow,
          fun row => ?_, hst.last⟩
        · rw [makeWriteRow_undefined hneg hshape hcell, hset, Result.ok_bind]
        · rw [rowCheck, if_neg hneg, ← hcells, Option.elim_none]
        · rw [visitedCell_succ]
          by_cases hrow : selectedRow sel k = (row : Int)
          · rw [hrow, Int.toNat_natCast] at hcells hnew
            rw [if_pos hrow, ← hcells, Option.none_or]
            exact hnew
          · have hother : ¬ (row : Int) = ((selectedRow sel k).toNat : Int) := by
              omega
            rw [if_neg hrow, Option.or_none, ← hst.cells]
            exact hgrows.others row hother

/-- What the loop reports is the check of each row, in order. -/
theorem makeWriteRows_eq_forM (hrs : rs.Consistent) :
    ∀ (n k : Nat) (st : WriteState α), VisitedState col sel rs k st →
      RowsVisited col sel rs (List.range' k n) →
      (makeWriteRows rs sel rs.rank (List.range' k n) st).1
        = (List.range' k n).forM (rowCheck col sel rs) := by
  intro n
  induction n with
  | zero =>
      intro k st _ _
      rfl
  | succ n ih =>
      intro k st hst hvis
      rw [List.range'_succ] at hvis ⊢
      obtain ⟨hhead, htail⟩ := List.forall_mem_cons.mp hvis.rows
      have hcons : (k :: List.range' (k + 1) n).forM (rowCheck col sel rs)
          = (rowCheck col sel rs k >>= fun _ =>
              (List.range' (k + 1) n).forM (rowCheck col sel rs)) := rfl
      rw [makeWriteRows, hcons]
      rcases makeWriteRow_visited hrs hst ⟨hvis.varying, hvis.rank, hvis.ndim,
        List.forall_mem_singleton.mpr hhead⟩ with
        ⟨st', hstep, hcheck, hst'⟩ | ⟨e, hstep, hcheck⟩
      · simp only [hstep, hcheck, Result.ok_bind]
        exact ih (k + 1) st' hst' ⟨hvis.varying, hvis.rank, hvis.ndim, htail⟩
      · simp only [hstep, hcheck, Result.error_bind]

-- ================================================================== ranks

/-- A row of the data is written to a cell of `rank` axes that was there
before. -/
def CellRank (col : TableColumn α) (sel : Selection) (k rank : Nat) : Prop :=
  0 ≤ selectedRow sel k ∧ ∃ cell,
    col.cellShape (selectedRow sel k).toNat = some cell ∧ cell.length = rank

/-- The sizes of a row of the data do not fit its cell, as the rows before
it leave it. -/
def RowRefused (col : TableColumn α) (sel : Selection) (rs : ResultShapeData)
    (k : Nat) : Prop :=
  0 ≤ selectedRow sel k ∧ ∃ cell,
    visitedCell col sel rs (List.range k) (selectedRow sel k).toNat = some cell
      ∧ CellTooSmall sel rs.rank cell (rs.rowDims k)

/-- Rows of data have one axis less than the data. -/
theorem IsDataShape.rowDims_length {data : ArrayData β}
    (h : IsDataShape desc data rs) {k : Nat}
    (hk : k < rs.nRows ∨ rs.isFixed = true) :
    (rs.rowDims k).length = rs.rank - 1 := by
  unfold ResultShapeData.rowDims
  cases hs : rs.shape with
  | some shape =>
      have hndim := (h.fixed shape hs).1
      show (shape.take (rs.rank - 1)).length = rs.rank - 1
      rw [List.length_take, ResultShapeData.rank]
      omega
  | none =>
      have hlt : k < rs.getRowShapes.length := by
        rcases hk with hk | hk
        · rwa [ResultShapeData.nRows, hs] at hk
        · rw [ResultShapeData.isFixed, hs] at hk
          cases hk
      have hndim := ((h.varying hs).2 k hlt).1
      show (rs.getRowShapes.getD k []).length = rs.rank - 1
      rw [List.getD_eq_getElem _ _ hlt, ResultShapeData.rank]
      omega

/-- A cell that a visit left behind was there before, or has the rank of
the data. -/
theorem visitedCell_rank {k row : Nat} {cell : IPosition}
    (hlen : ∀ j < k, (rs.rowDims j).length = rs.rank - 1)
    (h : visitedCell col sel rs (List.range k) row = some cell) :
    col.cellShape row = some cell
      ∨ (col.cellShape row = none ∧ cell.length = rs.rank - 1) := by
  unfold visitedCell at h
  cases hcell : col.cellShape row with
  | some own =>
      rw [hcell, Option.some_or] at h
      exact .inl h
  | none =>
      rw [hcell, Option.none_or] at h
      obtain ⟨j, hj, rfl⟩ := Option.map_eq_some_iff.mp h
      have hmem := List.mem_range.mp (List.mem_of_find?_eq_some hj)
      exact .inr ⟨rfl, (newCellShape_length _ _).trans (hlen j hmem)⟩

/-- A cell that was there before stays. -/
theorem visitedCell_own {k row : Nat} {cell : IPosition}
    (h : col.cellShape row = some cell) :
    visitedCell col sel rs (List.range k) row = some cell := by
  rw [visitedCell, h, Option.some_or]

/-- The check of a row: refused for its sizes, walked past the end of a
cell of lower rank, or passed. -/
theorem rowCheck_cases {k : Nat}
    (hlen : ∀ j ≤ k, (rs.rowDims j).length = rs.rank - 1) :
    (RowRefused col sel rs k
        ∧ ∃ text, rowCheck col sel rs k = .error (.indexError text))
      ∨ (¬ RowRefused col sel rs k ∧ (∃ rank < rs.rank - 1, CellRank col sel k rank)
        ∧ rowCheck col sel rs k = .error .outOfBounds)
      ∨ (¬ RowRefused col sel rs k
        ∧ (∀ rank, CellRank col sel k rank → rs.rank - 1 ≤ rank)
        ∧ rowCheck col sel rs k = .ok ()) := by
  unfold rowCheck
  by_cases hneg : selectedRow sel k < 0
  · rw [if_pos hneg]
    refine .inr (.inr ⟨fun h => ?_, fun rank h => ?_, rfl⟩)
    · have := h.1
      omega
    · have := h.1
      omega
  · rw [if_neg hneg]
    cases hcell : visitedCell col sel rs (List.range k)
        (selectedRow sel k).toNat with
    | none =>
        refine .inr (.inr ⟨fun h => ?_, fun rank h => ?_, rfl⟩)
        · obtain ⟨-, cell, hsome, -⟩ := h
          rw [hcell] at hsome
          cases hsome
        · obtain ⟨-, cell, hown, -⟩ := h
          rw [visitedCell_own hown] at hcell
          cases hcell
    | some cell =>
        have hrefused : RowRefused col sel rs k
            ↔ CellTooSmall sel rs.rank cell (rs.rowDims k) := by
          constructor
          · intro h
            obtain ⟨-, cell', hsome, hsmall⟩ := h
            rw [hcell] at hsome
            cases hsome
            exact hsmall
          · intro h
            exact ⟨by omega, cell, hcell, h⟩
        rw [hrefused, Option.elim_some]
        rcases @checkAgainstCell_cases sel col.columnDesc rs.rank cell
          (rs.rowDims k) (hlen k (Nat.le_refl k)) with
          hsmall | ⟨hfits, hless, hcheck⟩ | ⟨hfits, hle, hcheck⟩
        · exact .inl hsmall
        · refine .inr (.inl ⟨hfits, ⟨cell.length, hless, by omega, cell, ?_, rfl⟩,
            hcheck⟩)
          -- the rows before give no cell of lower rank
          rcases visitedCell_rank (fun j hj => hlen j (by omega)) hcell with
            hown | ⟨-, hrank⟩
          · exact hown
          · omega
        · refine .inr (.inr ⟨hfits, fun rank h => ?_, hcheck⟩)
          obtain ⟨-, cell', hown, rfl⟩ := h
          rw [visitedCell_own hown] at hcell
          cases hcell
          exact hle

/-- The rows mind ranks exactly when each cell of another rank has a row
that is refused, in time if its own check would not end. -/
theorem rowChecks_ranks_iff {n : Nat}
    (hlen : ∀ k < n, (rs.rowDims k).length = rs.rank - 1) :
    ((List.range n).forM (rowCheck col sel rs) ≠ .error .outOfBounds
        ∧ ((∃ k < n, ∃ rank, CellRank col sel k rank ∧ rank ≠ rs.rank - 1) →
          ∃ e, (List.range n).forM (rowCheck col sel rs) = .error e))
      ↔ ∀ k < n, ∀ rank, CellRank col sel k rank → rank ≠ rs.rank - 1 →
          ∃ j < n, (rank < rs.rank - 1 → j ≤ k) ∧ RowRefused col sel rs j := by
  have hcases : ∀ k < n, _ := fun k hk =>
    @rowCheck_cases _ col sel rs k fun j hj => hlen j (by omega)
  -- a row that passes was not refused, and has no cell of lower rank
  have hpassed : ∀ k < n, rowCheck col sel rs k = .ok () →
      ¬ RowRefused col sel rs k
        ∧ ∀ rank, CellRank col sel k rank → rs.rank - 1 ≤ rank := by
    intro k hk hok
    rcases hcases k hk with ⟨-, text, hbad⟩ | ⟨-, -, hbad⟩ | ⟨hfits, hle, -⟩
    · rw [hok] at hbad
      cases hbad
    · rw [hok] at hbad
      cases hbad
    · exact ⟨hfits, hle⟩
  rcases @forM_range_cases _ (rowCheck col sel rs) n with
    ⟨hall, hok⟩ | ⟨first, hfirst, e, hbefore, hfail, herror⟩
  · rw [hok]
    constructor
    · intro h k hk rank hcell hne
      obtain ⟨e, hbad⟩ := h.2 ⟨k, hk, rank, hcell, hne⟩
      cases hbad
    · intro h
      refine ⟨(fun hbad => by cases hbad), fun hdiffer => ?_⟩
      obtain ⟨k, hk, rank, hcell, hne⟩ := hdiffer
      obtain ⟨j, hj, -, hrefused⟩ := h k hk rank hcell hne
      exact absurd hrefused (hpassed j hj (hall j hj)).1
  · rw [herror]
    rcases hcases first hfirst with
      ⟨hrefused, text, hbad⟩ | ⟨hfits, ⟨rank, hless, hcell⟩, hbad⟩ | ⟨-, -, hok⟩
    · rw [hfail] at hbad
      cases hbad
      refine ⟨fun _ k hk rank hcell hne => ⟨first, hfirst, fun hless => ?_,
        hrefused⟩, fun _ => ⟨(fun hbad => by cases hbad), fun _ => ⟨_, rfl⟩⟩⟩
      by_contra hlt
      have := (hpassed k hk (hbefore k (by omega))).2 rank hcell
      omega
    · rw [hfail] at hbad
      cases hbad
      constructor
      · intro h
        exact absurd rfl h.1
      · intro h
        obtain ⟨j, hj, hle, hrefused⟩ := h first hfirst rank hcell (by omega)
        rcases Nat.lt_or_eq_of_le (hle hless) with hlt | rfl
        · exact absurd hrefused (hpassed j hj (hbefore j hlt)).1
        · exact absurd hrefused hfits
    · rw [hfail] at hok
      cases hok

-- ======================================================= the whole write

/-- Some selected cell that is defined differs in rank from the data
written to it. -/
def RankDiffers (col : TableColumn α) (data : ArrowArray β) (sel : Selection) :
    Prop :=
  ∃ rs, getResultShapeData col.columnDesc data.data = .ok rs
    ∧ ∃ k < rs.nRows, ∃ rank, CellRank col sel k rank
      ∧ rank ≠ (rs.rowDims k).length

/-- `MakeWrite` indexes a shape beyond its rank. Once the shape of the
data is known, shapes are all it indexes that can be too short. -/
def IndexesBeyondRank (col : TableColumn α) (data : ArrowArray β)
    (sel : Selection) : Prop :=
  (∃ rs, getResultShapeData col.columnDesc data.data = .ok rs)
    ∧ (ResultShapeData.makeWrite col data sel).1 = .error .outOfBounds

/-- Ranks are checked before sizes: no shape is indexed beyond its rank,
and a cell of another rank than its data fails the write. -/
def RanksChecked (col : TableColumn α) (data : ArrowArray β)
    (sel : Selection) : Prop :=
  ¬ IndexesBeyondRank col data sel
    ∧ (RankDiffers col data sel →
      ∃ e, (ResultShapeData.makeWrite col data sel).1 = .error e)

/-- Data of one rank, that of the column if it has one, for a column of a
size the code works with. -/
structure WriteAdmitted (col : TableColumn α) (data : ArrowArray β)
    (rs : ResultShapeData) : Prop where
  nrow : col.nrow ≤ indexTypeMax
  shape : getResultShapeData col.columnDesc data.data = .ok rs
  consistent : 0 ≤ rs.ndim
  ndim : col.columnDesc.ndim = -1 ∨ rs.ndim = col.columnDesc.ndim + 1

/-- The selected rows are those of the data, and rows of the column. -/
def RowSelectionMatches (col : TableColumn α) (sel : Selection)
    (rs : ResultShapeData) : Prop :=
  sel.hasRowSpan = true → sel.getRowSpan.length = rs.nRows
    ∧ sel.getRowSpan.length ≤ col.nrow
    ∧ ∀ r ∈ sel.getRowSpan, r < (col.nrow : Int)

/-- Selections of other dimensions are of the size of the data. -/
def DimSelectionsMatch (sel : Selection) (rs : ResultShapeData) : Prop :=
  ∀ k < rs.nDataRows, ∀ dim < rs.rank - 1, ∀ ids,
    sel.maybeFSpan dim rs.rank = some ids →
      (rs.rowDims k)[dim]? = some ids.length

/-- Nothing hinges on a rank that is not checked: no row count is taken
from a shape without axes, and where the checks before the rows let the
request pass, each selected cell of another rank than the data has a row
that its sizes refuse, no later than the row itself if the cell is of
lower rank. -/
def RanksGuarded (col : TableColumn α) (data : ArrowArray β)
    (sel : Selection) : Prop :=
  ∀ rs, WriteAdmitted col data rs →
    (sel.hasRowSpan = true → rs.shape ≠ some [])
      ∧ (RowSelectionMatches col sel rs → DimSelectionsMatch sel rs →
        ∀ k < nWrittenRows col rs sel, ∀ rank, CellRank col sel k rank →
          rank ≠ rs.rank - 1 → ∃ j < nWrittenRows col rs sel,
            (rank < rs.rank - 1 → j ≤ k) ∧ RowRefused col sel rs j)

/-- The check of the row selection. -/
theorem checkRowSelection_cases :
    ((sel.hasRowSpan = true → rs.shape ≠ some [])
        ∧ RowSelectionMatches col sel rs
        ∧ checkRowSelection col.columnDesc col.nrow rs sel = .ok ())
      ∨ ((sel.hasRowSpan = true ∧ rs.shape = some [])
        ∧ checkRowSelection col.columnDesc col.nrow rs sel
          = .error .outOfBounds)
      ∨ ((sel.hasRowSpan = true → rs.shape ≠ some [])
        ∧ ¬ RowSelectionMatches col sel rs
        ∧ ∃ text, checkRowSelection col.columnDesc col.nrow rs sel
          = .error (.indexError text)) := by
  unfold checkRowSelection
  by_cases hspan : sel.hasRowSpan = true
  · rw [if_pos hspan]
    dsimp only
    by_cases hnil : rs.shape = some []
    · rw [if_pos hnil]
      exact .inr (.inl ⟨⟨hspan, hnil⟩, rfl⟩)
    · rw [if_neg hnil]
      by_cases hlen : sel.getRowSpan.length ≠ rs.nRows
      · rw [if_pos hlen]
        exact .inr (.inr ⟨fun _ => hnil, fun h => hlen (h hspan).1, _, rfl⟩)
      · rw [if_neg hlen]
        by_cases hmany : col.nrow < sel.getRowSpan.length
        · rw [if_pos hmany]
          refine .inr (.inr ⟨fun _ => hnil, fun h => ?_, _, rfl⟩)
          exact Nat.not_lt.mpr (h hspan).2.1 hmany
        · rw [if_neg hmany]
          cases hfind : sel.getRowSpan.find? fun r =>
              decide ((col.nrow : Int) ≤ r) with
          | some r =>
              have hbeyond : (col.nrow : Int) ≤ r := by
                simpa using List.find?_some hfind
              have hmem := List.mem_of_find?_eq_some hfind
              refine .inr (.inr ⟨fun _ => hnil, fun h => ?_, _, rfl⟩)
              have := (h hspan).2.2 r hmem
              omega
          | none =>
              refine .inl ⟨fun _ => hnil, fun _ => ⟨not_not.mp hlen,
                Nat.not_lt.mp hmany, fun r hr => ?_⟩, rfl⟩
              have := List.find?_eq_none.mp hfind r hr
              simpa using this
  · rw [if_neg hspan]
    exact .inl ⟨fun h => absurd h hspan, fun h => absurd h hspan, rfl⟩

/-- The checks before the cells end in the one of the row selection, or
fail without indexing anything. -/
theorem checkWrite_cases {data : ArrowArray β}
    (hshape : getResultShapeData col.columnDesc data.data = .ok rs) :
    (WriteAdmitted col data rs ∧ checkWrite col data sel
        = (checkRowSelection col.columnDesc col.nrow rs sel).map
            fun _ => (rs, rs.rank))
      ∨ (¬ WriteAdmitted col data rs ∧ ∃ e, e ≠ .outOfBounds
        ∧ checkWrite col data sel = .error e) := by
  unfold checkWrite
  dsimp only
  rw [hshape, Result.ok_bind]
  by_cases hnrow : col.nrow ≤ indexTypeMax
  · have hlimit : checkRowNumberLimit col.columnDesc.name col.nrow = .ok () := by
      rw [checkRowNumberLimit, if_pos hnrow]
    rw [hlimit, Result.ok_bind]
    by_cases hndim : 0 ≤ rs.ndim
    · have hconsistent : rs.consistentNDim = .ok rs.rank := by
        rw [ResultShapeData.consistentNDim, if_pos hndim]
        rfl
      rw [hconsistent, Result.ok_bind]
      have hcast : (rs.rank : Int) = rs.ndim := Int.toNat_of_nonneg hndim
      by_cases hdiffer : col.columnDesc.ndim ≠ -1
          ∧ (rs.rank : Int) ≠ col.columnDesc.ndim + 1
      · rw [if_pos hdiffer]
        refine .inr ⟨fun h => ?_, _, (fun hbad => by cases hbad), rfl⟩
        rcases h.ndim with hfree | heq
        · exact hdiffer.1 hfree
        · exact hdiffer.2 (hcast.trans heq)
      · rw [if_neg hdiffer]
        refine .inl ⟨⟨hnrow, hshape, hndim, ?_⟩, ?_⟩
        · by_cases hfree : col.columnDesc.ndim = -1
          · exact .inl hfree
          · refine .inr (hcast.symm.trans (not_not.mp fun hne => ?_))
            exact hdiffer ⟨hfree, hne⟩
        · cases checkRowSelection col.columnDesc col.nrow rs sel <;> rfl
    · have hconsistent : rs.consistentNDim
          = .error (.invalid "Result shape dimensions are not consistent") := by
        rw [ResultShapeData.consistentNDim, if_neg hndim]
      rw [hconsistent, Result.error_bind]
      exact .inr ⟨fun h => hndim h.consistent, _, (fun hbad => by cases hbad), rfl⟩
  · refine .inr ⟨fun h => hnrow h.nrow, ?_⟩
    unfold checkRowNumberLimit
    rw [if_neg hnrow, Result.error_bind]
    exact ⟨_, (fun hbad => by cases hbad), rfl⟩

/-- The check of the other selections indexes only axes the data has. -/
theorem checkData_outcome
    (hlen : ∀ k < rs.nDataRows, (rs.rowDims k).length = rs.rank - 1) :
    Outcome (checkData desc rs sel rs.rank) (DimSelectionsMatch sel rs)
      (fun _ => True) fun e => ∃ text, e = .indexError text := by
  have hrow : ∀ k ∈ List.range rs.nDataRows,
      Outcome (rs.dataRowShape rs.rank k >>= fun dataShape =>
          (List.range (rs.rank - 1)).forM
            (checkDimAgainstData desc sel rs.rank dataShape))
        (∀ dim ∈ List.range (rs.rank - 1), ∀ ids,
          sel.maybeFSpan dim rs.rank = some ids →
            (rs.rowDims k)[dim]? = some ids.length)
        (fun _ => True) fun e => ∃ text, e = Status.indexError text := by
    intro k hk
    have hk := List.mem_range.mp hk
    rw [dataRowShape_of_lt hk, Result.ok_bind]
    refine Outcome.forM fun dim hdim => ?_
    have hlt : dim < (rs.rowDims k).length := by
      rw [hlen k hk]
      exact List.mem_range.mp hdim
    unfold checkDimAgainstData dimSelection
    rw [List.getElem?_eq_getElem hlt]
    cases sel.maybeFSpan dim rs.rank with
    | none =>
        exact .inl ⟨(fun ids hids => by cases hids), (), rfl, trivial⟩
    | some span =>
        simp only [Option.map_some]
        by_cases hdiffer : span.length ≠ (rs.rowDims k)[dim]
        · rw [if_pos hdiffer]
          refine .inr ⟨fun hall => hdiffer ?_, _, rfl, _, rfl⟩
          exact (Option.some.inj (hall span rfl)).symm
        · rw [if_neg hdiffer]
          refine .inl ⟨fun ids hids => ?_, (), rfl, trivial⟩
          cases hids
          rw [not_not.mp hdiffer]
  have hall := Outcome.forM hrow
  refine hall.imp ⟨fun h k hk dim hdim => ?_, fun h k hk dim hdim => ?_⟩
    (fun _ h => h) fun _ h => h
  · exact h k (List.mem_range.mpr hk) dim (List.mem_range.mpr hdim)
  · exact h k (List.mem_range.mp hk) dim (List.mem_range.mp hdim)

/-- A row written to a cell is among the rows the loop visits. -/
theorem CellRank.visited {k rank : Nat} (h : CellRank col sel k rank)
    (hrows : RowSelectionMatches col sel rs) (hk : k < rs.nRows) :
    k < nWrittenRows col rs sel := by
  unfold nWrittenRows
  by_cases hspan : sel.hasRowSpan = true
  · rw [if_pos hspan, (hrows hspan).1]
    exact hk
  · rw [if_neg hspan]
    obtain ⟨-, cell, hcell, -⟩ := h
    have hlt := col.cell_nrow _ _ hcell
    rw [selectedRow, if_neg hspan] at hlt
    omega

/-- Cells of a column that fixes their rank have it. -/
theorem CellRank.ndim {k rank : Nat} (h : CellRank col sel k rank)
    (hndim : 0 ≤ col.columnDesc.ndim) : col.columnDesc.ndim = rank := by
  obtain ⟨-, cell, hcell, rfl⟩ := h
  exact col.cell_ndim _ _ hndim hcell

/-- What an admitted write of matching selections reports: the checks of
its rows, where cells have shapes of their own. -/
theorem makeWrite_varying {data : ArrowArray β}
    (hdata : IsDataShape col.columnDesc data.data rs)
    (hadmitted : WriteAdmitted col data rs)
    (hcheck : checkWrite col data sel = .ok (rs, rs.rank))
    (hrows : RowSelectionMatches col sel rs)
    (hdims : checkData col.columnDesc rs sel rs.rank = .ok ())
    (hvar : col.columnDesc.fixedShape = none) :
    (ResultShapeData.makeWrite col data sel).1
      = ((List.range (nWrittenRows col rs sel)).forM (rowCheck col sel rs)).map
          fun _ => rs := by
  unfold ResultShapeData.makeWrite
  simp only [hcheck]
  by_cases hrank : rs.rank ≤ 1
  · -- there is no axis to check
    have hpass : (List.range (nWrittenRows col rs sel)).forM
        (rowCheck col sel rs) = .ok () := by
      refine forM_eq_ok.mpr fun k _ => ?_
      have hzero : rs.rank - 1 = 0 := by omega
      unfold rowCheck checkAgainstCell
      rw [hzero]
      by_cases hneg : selectedRow sel k < 0
      · rw [if_pos hneg]
      · rw [if_neg hneg]
        cases visitedCell col sel rs (List.range k) (selectedRow sel k).toNat
        · rfl
        · rfl
    rw [if_pos hrank, hpass]
    rfl
  · rw [if_neg hrank]
    simp only [hdims, hvar]
    have hrs := hdata.consistent_of_rank (by omega)
    have hvis : RowsVisited col sel rs
        (List.range' 0 (nWrittenRows col rs sel)) := by
      refine ⟨hvar, by omega, fun hnn => ?_, fun k hk => ?_⟩
      · have hcast : (rs.rank : Int) = rs.ndim :=
          Int.toNat_of_nonneg hadmitted.consistent
        rcases hadmitted.ndim with hfree | heq
        · omega
        · exact hcast.trans heq
      · rw [← List.range_eq_range'] at hk
        exact nWrittenRows_lt (fun hs => ⟨(hrows hs).1, (hrows hs).2.2⟩)
          (List.mem_range.mp hk)
    have hstart : VisitedState col sel rs 0 ⟨col, none⟩ :=
      ⟨rfl, rfl, fun row => by simp [visitedCell],
        fun _ _ hnone => by cases hnone⟩
    have hloop := makeWriteRows_eq_forM hrs (nWrittenRows col rs sel) 0
      ⟨col, none⟩ hstart hvis
    rw [← List.range_eq_range'] at hloop
    rw [← hloop]

/-- The cells of a column of one shape are checked to their own rank. -/
theorem checkFixedCells_ne {cell : IPosition}
    (hlen : ∀ k < rs.nDataRows, (rs.rowDims k).length = rs.rank - 1)
    (hcell : cell.length = rs.rank - 1) :
    checkFixedCells desc rs sel rs.rank cell ≠ .error .outOfBounds := by
  intro hbad
  unfold checkFixedCells at hbad
  rcases @forM_range_cases _ (fun r => do
    let dataShape ← rs.dataRowShape rs.rank r
    checkAgainstCell desc sel rs.rank cell dataShape) rs.nDataRows with
    ⟨-, hok⟩ | ⟨k, hk, e, -, hfail, herror⟩
  · rw [hok] at hbad
    cases hbad
  · rw [herror] at hbad
    cases hbad
    rw [dataRowShape_of_lt hk, Result.ok_bind] at hfail
    rcases @checkAgainstCell_cases sel desc rs.rank cell (rs.rowDims k)
      (hlen k hk) with ⟨-, text, hcheck⟩ | ⟨-, hless, -⟩ | ⟨-, -, hcheck⟩
    · rw [hfail] at hcheck
      cases hcheck
    · omega
    · rw [hfail] at hcheck
      cases hcheck

/-- A write whose selections match the data comes down to the checks of
its rows. -/
theorem ranks_checked_of_matching {data : ArrowArray β}
    (hadmitted : WriteAdmitted col data rs)
    (hcheck : checkWrite col data sel = .ok (rs, rs.rank))
    (hrows : RowSelectionMatches col sel rs)
    (hmatch : DimSelectionsMatch sel rs) :
    RanksChecked col data sel
      ↔ ∀ k < nWrittenRows col rs sel, ∀ rank, CellRank col sel k rank →
          rank ≠ rs.rank - 1 → ∃ j < nWrittenRows col rs sel,
            (rank < rs.rank - 1 → j ≤ k) ∧ RowRefused col sel rs j := by
  have hshape := hadmitted.shape
  have hdata := getResultShapeData_ok data.wellFormed hshape
  have hvisited : ∀ k < nWrittenRows col rs sel, k < rs.nRows := fun k hk =>
    lt_nRows_of_lt_nWrittenRows (fun hs => (hrows hs).1) hk
  have hlen : ∀ k < nWrittenRows col rs sel,
      (rs.rowDims k).length = rs.rank - 1 := fun k hk =>
    hdata.rowDims_length (.inl (hvisited k hk))
  have hlenData : ∀ k < rs.nDataRows, (rs.rowDims k).length = rs.rank - 1 :=
    fun k hk => hdata.rowDims_length (lt_nDataRows hk)
  have hdims : checkData col.columnDesc rs sel rs.rank = .ok () := by
    obtain ⟨u, hok, -⟩ := (checkData_outcome hlenData).of_good hmatch
    exact hok
  have hindexes : IndexesBeyondRank col data sel
      ↔ (ResultShapeData.makeWrite col data sel).1 = .error .outOfBounds :=
    ⟨And.right, fun h => ⟨⟨rs, hshape⟩, h⟩⟩
  have hdiffers : RankDiffers col data sel
      ↔ ∃ k < nWrittenRows col rs sel, ∃ rank, CellRank col sel k rank
          ∧ rank ≠ rs.rank - 1 := by
    constructor
    · intro h
      obtain ⟨rs', hrs', k, hk, rank, hcell, hne⟩ := h
      obtain rfl := Except.ok.inj (hrs'.symm.trans hshape)
      rw [hdata.rowDims_length (.inl hk)] at hne
      exact ⟨k, hcell.visited hrows hk, rank, hcell, hne⟩
    · intro h
      obtain ⟨k, hk, rank, hcell, hne⟩ := h
      refine ⟨rs, hshape, k, hvisited k hk, rank, hcell, ?_⟩
      rw [hlen k hk]
      exact hne
  unfold RanksChecked
  rw [hindexes, hdiffers]
  cases hfixed : col.columnDesc.fixedShape with
  | none =>
      rw [makeWrite_varying hdata hadmitted hcheck hrows hdims hfixed,
        ← rowChecks_ranks_iff hlen]
      simp only [map_eq_error, ne_eq]
  | some cell =>
      -- the rank of the cells is the column's, and that of the data
      have hndim := col.columnDesc.ndim_fixed cell hfixed
      have hcast : (rs.rank : Int) = rs.ndim :=
        Int.toNat_of_nonneg hadmitted.consistent
      have hrank : rs.rank = cell.length + 1 := by
        rcases hadmitted.ndim with hfree | heq
        · omega
        · omega
      have hsame : ∀ k rank, CellRank col sel k rank → rank = rs.rank - 1 := by
        intro k rank hcell
        have := hcell.ndim (by omega)
        omega
      refine ⟨fun _ k _ rank hcell hne => absurd (hsame k rank hcell) hne,
        fun _ => ⟨fun hbad => ?_, fun hd => ?_⟩⟩
      · unfold ResultShapeData.makeWrite at hbad
        simp only [hcheck] at hbad
        split at hbad
        · cases hbad
        · simp only [hdims, hfixed] at hbad
          have hne := @checkFixedCells_ne sel rs col.columnDesc cell hlenData
            (by omega)
          cases hcells : checkFixedCells col.columnDesc rs sel rs.rank cell with
          | ok u =>
              rw [hcells] at hbad
              cases hbad
          | error e =>
              rw [hcells] at hbad hne
              cases hbad
              exact hne rfl
      · obtain ⟨k, hk, rank, hcell, hne⟩ := hd
        exact absurd (hsame k rank hcell) hne

/-- `MakeWrite` checks ranks before sizes exactly when nothing hinges on a
rank that it does not check. -/
theorem ranks_checked_iff (col : TableColumn α) (data : ArrowArray β)
    (sel : Selection) :
    RanksChecked col data sel ↔ RanksGuarded col data sel := by
  cases hshape : getResultShapeData col.columnDesc data.data with
  | error e =>
      -- no shape, so none is indexed
      refine ⟨fun _ rs h => ?_, fun _ => ⟨fun h => ?_, fun h => ?_⟩⟩
      · have := h.shape
        rw [hshape] at this
        cases this
      · obtain ⟨⟨rs, hrs⟩, -⟩ := h
        rw [hshape] at hrs
        cases hrs
      · obtain ⟨rs, hrs, -⟩ := h
        rw [hshape] at hrs
        cases hrs
  | ok rs =>
      have hdata := getResultShapeData_ok data.wellFormed hshape
      -- all of it is about this shape
      have hone : ∀ rs', WriteAdmitted col data rs' → rs' = rs := by
        intro rs' h
        exact Except.ok.inj (h.shape.symm.trans hshape)
      have hindexes : IndexesBeyondRank col data sel
          ↔ (ResultShapeData.makeWrite col data sel).1 = .error .outOfBounds :=
        ⟨And.right, fun h => ⟨⟨rs, hshape⟩, h⟩⟩
      -- a write that fails otherwise does not go wrong
      have hfails : ∀ e, e ≠ .outOfBounds →
          (ResultShapeData.makeWrite col data sel).1 = .error e →
          RanksChecked col data sel := by
        intro e he herror
        refine ⟨fun h => ?_, fun _ => ⟨e, herror⟩⟩
        rw [hindexes, herror] at h
        exact he (Except.error.inj h)
      rcases @checkWrite_cases _ _ col sel rs data hshape with
        ⟨hadmitted, hwrite⟩ | ⟨hrefused, e, he, hwrite⟩
      · -- the row count, the row selection, the other selections, the rows
        have hguarded : RanksGuarded col data sel
            ↔ (sel.hasRowSpan = true → rs.shape ≠ some [])
              ∧ (RowSelectionMatches col sel rs → DimSelectionsMatch sel rs →
                ∀ k < nWrittenRows col rs sel, ∀ rank,
                  CellRank col sel k rank → rank ≠ rs.rank - 1 →
                    ∃ j < nWrittenRows col rs sel,
                      (rank < rs.rank - 1 → j ≤ k) ∧ RowRefused col sel rs j) :=
          ⟨fun h => h rs hadmitted, fun h rs' h' => by rwa [hone rs' h']⟩
        rw [hguarded]
        rcases @checkRowSelection_cases _ col sel rs with
          ⟨hne, hrows, hrow⟩ | ⟨⟨hspan, hnil⟩, hrow⟩ | ⟨hne, hrows, text, hrow⟩
        · rw [hrow] at hwrite
          by_cases hmatch : DimSelectionsMatch sel rs
          · rw [ranks_checked_of_matching hadmitted hwrite hrows hmatch]
            exact ⟨fun h => ⟨hne, fun _ _ => h⟩, fun h => h.2 hrows hmatch⟩
          · refine ⟨fun _ => ⟨hne, fun _ h => absurd h hmatch⟩, fun _ => ?_⟩
            have hlen : ∀ k < rs.nDataRows,
                (rs.rowDims k).length = rs.rank - 1 :=
              fun k hk => hdata.rowDims_length (lt_nDataRows hk)
            obtain ⟨e, hdims, text, rfl⟩ := (@checkData_outcome sel rs
              col.columnDesc hlen).of_not_good hmatch
            refine hfails (.indexError text) (fun hbad => by cases hbad) ?_
            have hrank : ¬ rs.rank ≤ 1 := by
              intro hle
              refine hmatch fun k _ dim hdim => ?_
              omega
            unfold ResultShapeData.makeWrite
            simp only [hwrite, Except.map, if_neg hrank, hdims]
        · refine ⟨fun h => absurd ?_ h.1, fun h => absurd hnil (h.1 hspan)⟩
          rw [hindexes]
          unfold ResultShapeData.makeWrite
          rw [hwrite, hrow]
          rfl
        · refine ⟨fun _ => ⟨hne, fun h => absurd h hrows⟩, fun _ => ?_⟩
          refine hfails (.indexError text) (fun hbad => by cases hbad) ?_
          unfold ResultShapeData.makeWrite
          rw [hwrite, hrow]
          rfl
      · refine ⟨fun _ rs' h => ?_, fun _ => hfails e he ?_⟩
        · exact absurd (hone rs' h ▸ h) hrefused
        · unfold ResultShapeData.makeWrite
          rw [hwrite]

/-- A column of cells of any rank, with one cell. -/
def freeRankColumn (cell : IPosition) (hne : cell ≠ []) : TableColumn Nat where
  columnDesc := .withoutShape "FREE" .tpInt none
  nrow := 1
  cellShape row := if row < 1 then some cell else none
  value _ := 0
  cell_nrow := by
    intro r s h
    split at h
    · assumption
    · cases h
  cell_fixed := by intro s r hs; cases hs
  cell_rank := by
    intro r s _ h
    split at h
    · cases h
      exact hne
    · cases h
  cell_ndim := by
    intro r s hndim
    exact absurd hndim (by decide)

/-- One row, of one pair. -/
def pairPlane : ArrowArray Nat where
  data := .list ⟨.fixedSizeList 1, 0, 1, none⟩
    (.list ⟨.fixedSizeList 2, 0, 1, none⟩
      (.leaf ⟨.int32, 0, 2, none, [1, 2]⟩))
  wellFormed := by
    refine ⟨?_, ?_, ?_⟩
    · show (0 + 1) * 1 ≤ 1
      omega
    · show (0 + 1) * 2 ≤ 2
      omega
    · show 0 + 2 ≤ 2
      omega

/-- A plane written to a vector is checked past the vector's end; a
vector written to a plane passes. -/
theorem ranks_not_checked :
    ¬ RanksChecked (freeRankColumn [2] (by decide)) pairPlane .empty
      ∧ ¬ RanksChecked (freeRankColumn [2, 2] (by decide)) (pairRows 1) .empty := by
  constructor
  · intro h
    exact h.1 ⟨⟨_, rfl⟩, rfl⟩
  · intro h
    obtain ⟨e, he⟩ := h.2 ⟨_, rfl, 0, by decide, 2, ⟨by decide, _, rfl, rfl⟩,
      by decide⟩
    cases he

end Arcae
