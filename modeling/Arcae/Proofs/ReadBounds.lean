/-
Where a planned read may go.

There are four ways to plan a read: into a result or not, of a column
of one cell shape or of one whose cells vary. Where cells vary, both
ways visit every row, so a row out of range fails and a row without a
cell is missing or negated. Where all cells have one shape neither way
looks at a row: the rows that are asked for are planned as they are, in
range or not (`planned_reads_in_bounds_iff`).

The secondary indices are in bounds on all four ways, because selected
indices are compared with the cell and unselected dimensions never
extend beyond it.
-/
import Arcae.Model.ReadImpl
import Arcae.Proofs.Bounds
import Arcae.Proofs.Read
import Arcae.Proofs.ReadInto

namespace Arcae

open Loops

variable {α β : Type} {col : TableColumn α} {sel sel' : Selection}
  {rs rs' : ResultShapeData} {srt : StdSort} {opt : RowSplitOptions}
  {p : DataPartition}

-- =============================================================== storage

/-- A chunk refers to rows that have cells, and to indices within
them. -/
structure DataChunk.ReadsStorage (c : DataChunk) (col : TableColumn α) :
    Prop extends c.InBounds col where
  defined : ∀ row ∈ c.disk (c.nDim - 1), ∃ cell,
    col.cellShape row.toNat = some cell

/-- The rows a read asks for: those selected, or one for each row of the
result, which without a result is each row of the column. -/
def requestedRows (col : TableColumn α) (sel : Selection)
    (result : Option (ArrowArray β)) : Index :=
  if sel.hasRowSpan then sel.getRowSpan
  else monotonicIds (match result with
    | some array => array.data.length
    | none => col.nrow)

/-- Every row asked for is in the column. -/
def RowsExist (col : TableColumn α) (sel : Selection)
    (result : Option (ArrowArray β)) : Prop :=
  ∀ row ∈ requestedRows col sel result, row < (col.nrow : Int)

/-- A row asked for is a selected one, or one of those that are counted. -/
theorem mem_requestedRows {result : Option (ArrowArray β)} {row : Int}
    (h : row ∈ requestedRows col sel result) :
    ∃ k < (requestedRows col sel result).length, row = selectedRow sel k := by
  obtain ⟨k, hk, rfl⟩ := List.mem_iff_getElem.mp h
  refine ⟨k, hk, ?_⟩
  unfold requestedRows at hk ⊢
  unfold selectedRow
  by_cases hspan : sel.hasRowSpan = true
  · simp only [if_pos hspan] at hk ⊢
    rw [List.getD_eq_getElem _ _ hk]
  · simp only [if_neg hspan, monotonicIds, List.getElem_map,
      List.getElem_range]
    rfl

/-- The rows of a plan that keeps the selected ones are those asked
for. -/
theorem rowIds_eq_requestedRows (hrs : rs'.Consistent)
    {result : Option (ArrowArray β)}
    (hspan : sel'.hasRowSpan = sel.hasRowSpan)
    (hget : sel.hasRowSpan = true → sel'.getRowSpan = sel.getRowSpan)
    (hcount : sel.hasRowSpan = false →
      requestedRows col sel result = monotonicIds rs'.nRows) :
    rowIds sel' rs' = requestedRows col sel result := by
  rw [rowIds, Selection.selected, Selection.maybeFSpan_row sel' hrs.rank_pos,
    hspan]
  cases hrows : sel.hasRowSpan with
  | true =>
      unfold requestedRows
      rw [hrows, hget hrows]
      rfl
  | false =>
      rw [hcount hrows]
      rfl

-- ==================================================== cells of one shape

/-- Every row of a column of one cell shape has a cell; so rows in range
are all it takes. -/
theorem reads_fixed {cell : IPosition}
    (hfixed : col.columnDesc.fixedShape = some cell) (hrs : rs.Consistent)
    (hplain : rs.IsPlain) (hrank : rs.rank = cell.length + 1)
    (hmake : DataPartition.make srt sel rs opt = .ok p)
    (hrows : ∀ row ∈ rowIds sel rs, row < (col.nrow : Int))
    (hdims : ∀ dim < cell.length, ∀ i ∈ dimIds sel rs 0 dim,
      i < (cell.getD dim 0 : Int)) :
    ∀ c ∈ p.dataChunks, c.isEmpty = false → c.ReadsStorage col := by
  intro c hc hempty
  obtain ⟨hndim, hrow, hdim⟩ := plain_indices hrs hplain hmake hc
  have hcell : ∀ row ∈ c.disk (c.nDim - 1),
      col.cellShape row.toNat = some cell := by
    intro row hmem
    have hlt := hrows row (hrow row hmem)
    have hpos := hrs.rank_pos
    have hnn : 0 ≤ row := by
      have hlast : c.nDim - 1 < c.dimSpans.length := by
        show c.dimSpans.length - 1 < _
        have : c.dimSpans.length = rs.rank := hndim
        omega
      rw [DataChunk.disk, List.getD_eq_getElem _ _ hlast] at hmem
      exact DataChunk.Planned.nonneg_of_not_isEmpty hempty _
        (List.getElem_mem hlast) row hmem
    exact col.cell_fixed _ _ hfixed (by omega)
  refine ⟨⟨fun row hmem => hrows row (hrow row hmem), ?_⟩,
    fun row hmem => ⟨cell, hcell row hmem⟩⟩
  intro row hmem dim hd i hi
  have hd' : dim < cell.length := by omega
  refine ⟨cell, cell[dim], hcell row hmem, List.getElem?_eq_getElem hd', ?_⟩
  rw [← List.getD_eq_getElem _ 0 hd']
  exact hdims dim hd' i (hdim dim (by omega) i hi)

-- ======================================================= cells that vary

/-- Where live rows have cells, and their indices lie within them, so do
those of the chunks. -/
theorem reads_varying (hrs : rs.Consistent)
    (hcount : (rowIds sel rs).length = rs.nRows)
    (hmake : DataPartition.make srt sel rs opt = .ok p)
    (hlive : ∀ k < rs.nRows, RowLive sel rs k → ∃ cell,
      cellOf col sel k = some cell ∧ cell.length = rs.rank - 1
        ∧ ∀ dim < rs.rank - 1, ∀ i ∈ dimIds sel rs k dim, 0 ≤ i →
            i < (cell.getD dim 0 : Int)) :
    ∀ c ∈ p.dataChunks, c.isEmpty = false → c.ReadsStorage col := by
  obtain ⟨-, hpart⟩ := partitions_of_rows hrs hcount hmake
  have hall := (addressed_iff hrs hpart
    (fun row => row < (col.nrow : Int)
      ∧ ∃ cell, col.cellShape row.toNat = some cell) col.InCell).mpr ?_
  · intro c hc hempty
    have hchunk := hall c hc hempty
    exact ⟨⟨fun row hrow => (hchunk row hrow).1.1,
      fun row hrow => (hchunk row hrow).2⟩, fun row hrow => (hchunk row hrow).1.2⟩
  · intro k hk hrow
    obtain ⟨cell, hcell, hlen, hdims⟩ := hlive k hk hrow
    obtain ⟨-, hlt, hshape⟩ := cellOf_lt hcell
    rw [rowIds_getD hrs hk]
    refine ⟨⟨hlt, cell, hshape⟩, fun dim hdim i hi hnn => ?_⟩
    have hd : dim < cell.length := by omega
    refine ⟨cell, cell[dim], hshape, List.getElem?_eq_getElem hd, ?_⟩
    rw [← List.getD_eq_getElem _ 0 hd]
    exact hdims dim hdim i hi hnn

-- ======================================================= without a result

/-- The shape of a read of a column of one cell shape. -/
theorem makeRead_fixed {cell : IPosition}
    (hfixed : col.columnDesc.fixedShape = some cell)
    (h : ResultShapeData.makeRead col sel false = .ok rs) :
    sel.Fits cell ∧ rs.shape = some (sel.clipped cell ++ [selectedRows sel col.nrow])
      ∧ rs.ndim = cell.length + 1 ∧ rs.cellExtents = none := by
  obtain ⟨hr, hshape⟩ := (makeRead_outcome col sel).of_ok h
  cases hs : rs.shape with
  | none =>
      have hvar := (hshape.varying hs).1
      rw [hfixed] at hvar
      cases hvar
  | some shape =>
      obtain ⟨hndim, hcases⟩ := hshape.fixed shape hs
      rcases hcases with ⟨cell', hcell', heq⟩ | ⟨hvar, -⟩
      · rw [hfixed] at hcell'
        cases hcell'
        refine ⟨hr.fixed cell hfixed, by rw [heq], ?_, hshape.cellExtents⟩
        rw [hndim, heq, List.length_append, Selection.clipped_length]
        rfl
      · rw [hfixed] at hvar
        cases hvar

/-- An index a row reads of a dimension that was clipped against a cell
lies within the cell. -/
theorem lt_of_clipped {cell : IPosition} (hrank : rs.rank = cell.length + 1)
    (hext : rs.cellExtents = none) {k : Nat}
    (hdims : rs.rowDims k = sel.clipped cell) (hfits : sel.Fits cell) {dim : Nat}
    (hdim : dim < cell.length) {i : Int} (hi : i ∈ dimIds sel rs k dim) :
    i < (cell.getD dim 0 : Int) := by
  simp only [dimIds, ResultShapeData.extent, hext, Selection.selected, hrank,
    hdims] at hi
  cases hspan : sel.maybeFSpan dim (cell.length + 1) with
  | some ids =>
      rw [hspan, Option.getD_some] at hi
      exact hfits dim hdim ids hspan i hi
  | none =>
      rw [hspan, Option.getD_none] at hi
      obtain ⟨j, hj, rfl⟩ := List.mem_map.mp hi
      have hlt := List.mem_range.mp hj
      rw [List.getD_eq_getElem?_getD, sel.clipped_getElem? hdim, hspan,
        Option.getD_some] at hlt
      exact Int.ofNat_lt.mpr hlt

/-- Reading without a result. -/
theorem makeRead_in_bounds (h : ResultShapeData.makeRead col sel false = .ok rs)
    (hmake : DataPartition.make srt sel rs opt = .ok p) :
    (col.columnDesc.fixedShape = none →
      RowsExist col sel (none : Option (ArrowArray β)))
      ∧ (RowsExist col sel (none : Option (ArrowArray β)) →
        ∀ c ∈ p.dataChunks, c.isEmpty = false → c.ReadsStorage col) := by
  obtain ⟨hr, hshape⟩ := (makeRead_outcome col sel).of_ok h
  constructor
  · intro hvar row hmem
    obtain ⟨k, hk, rfl⟩ := mem_requestedRows hmem
    have hk : k < selectedRows sel col.nrow := by
      unfold requestedRows at hk
      unfold selectedRows
      by_cases hspan : sel.hasRowSpan = true
      · rwa [if_pos hspan] at hk ⊢
      · rw [if_neg hspan, monotonicIds_length] at hk
        rwa [if_neg hspan]
    obtain ⟨shape, hcell, -⟩ := hr.varying hvar k hk
    exact (cellOf_lt hcell).2.1
  · intro hexist
    cases hfixed : col.columnDesc.fixedShape with
    | none =>
        obtain ⟨n, hf⟩ := hshape.facts hr (ndim_nonneg_of_make hmake) fun hs => by
          have hpos := nRows_pos_of_make hmake hs
          obtain ⟨-, hshapes, -⟩ := hshape.varying hs
          rw [ResultShapeData.nRows, hs] at hpos
          simpa [hshapes] using hpos
        refine reads_varying hf.consistent hf.isMatch.rowIds_length hmake ?_
        intro k hk _
        obtain ⟨cell, hcell, hfits⟩ := hr.varying hfixed k (hf.nRows ▸ hk)
        obtain ⟨hlen, hdims⟩ := hf.ofCell k hk cell hcell
        have hrank : rs.rank = cell.length + 1 := by rw [hf.rank, hlen]
        refine ⟨cell, hcell, by omega, fun dim hdim i hi _ => ?_⟩
        exact lt_of_clipped hrank hf.cellExtents hdims hfits (by omega) hi
    | some cell =>
        obtain ⟨hfits, hs, hndim, hext⟩ := makeRead_fixed hfixed h
        have hrank : rs.rank = cell.length + 1 := by
          unfold ResultShapeData.rank
          omega
        have hdims : rs.rowDims 0 = sel.clipped cell := by
          simp only [ResultShapeData.rowDims, hs, hrank]
          rw [Nat.add_sub_cancel, ← sel.clipped_length cell, List.take_left]
        have hrs : rs.Consistent :=
          { ndim_pos := by omega
            fixed := by
              intro shape hs'
              rw [hs] at hs'
              cases hs'
              rw [hrank, List.length_append, Selection.clipped_length]
              rfl
            varying := by
              intro hs'
              rw [hs] at hs'
              cases hs'
            extents := by
              intro es hes
              rw [hext] at hes
              cases hes }
        have hplain : rs.IsPlain := ⟨by simp [ResultShapeData.isFixed, hs], hext⟩
        refine reads_fixed hfixed hrs hplain hrank hmake (fun row hmem => ?_)
          fun dim hdim i hi => lt_of_clipped hrank hext hdims hfits hdim hi
        have hnrows : rs.nRows = selectedRows sel col.nrow := by
          simp only [ResultShapeData.nRows, hs, List.getLastD_concat]
        refine hexist row ?_
        rwa [← rowIds_eq_requestedRows hrs rfl (fun _ => rfl) fun hspan => by
          rw [hnrows, selectedRows, hspan, requestedRows, hspan]
          rfl]

-- ========================================================= into a result

/-- The result that a read is fitted to. -/
theorem isResult_of_fromArray {array : ArrowArray β}
    (hfrom : ResultShapeData.fromArray col array = .ok rs)
    (hne : rs.shape ≠ some []) {shape : IPosition} (hs : rs.shape = some shape) :
    IsResult rs shape.dropLast array.data.length
      ∧ rs.cellExtents = none := by
  have hdata := getResultShapeData_ok array.wellFormed hfrom
  obtain ⟨hndim, hshape⟩ := hdata.fixed shape hs
  rcases hshape with rfl | ⟨dims, rfl, -⟩
  · exact absurd hs hne
  · rw [List.dropLast_concat]
    refine ⟨⟨hs, ?_⟩, hdata.cellExtents⟩
    rw [hndim, List.length_append]
    rfl

/-- The indices a fitted read of a column of one cell shape takes from a
dimension: the selected ones, or those of the cell as far as it
reaches. -/
theorem lt_of_fitted {cell resultShape : IPosition}
    (hfits : FitsCell sel resultShape cell)
    (hres : IsResult rs resultShape rs.nRows) (hext : rs.cellExtents = none)
    (hsel : sel' = if cellExtent cell resultShape sel = resultShape then sel
      else rebuildSelection sel resultShape (cellExtent cell resultShape sel)
        none) {dim : Nat} (hdim : dim < cell.length) {i : Int}
    (hi : i ∈ dimIds sel' rs 0 dim) : i < (cell.getD dim 0 : Int) := by
  have hd : dim < resultShape.length := hfits.rank ▸ hdim
  have hextent := @cellExtent_getD sel cell resultShape dim hd
  simp only [dimIds, ResultShapeData.extent, hext, Selection.selected,
    hres.rank, hres.rowDims] at hi
  -- what is selected there after fitting, unless all was the same
  have hspan (hne : cellExtent cell resultShape sel ≠ resultShape) :
      sel' = rebuildSelection sel resultShape
        (cellExtent cell resultShape sel) none := by
    rw [hsel, if_neg hne]
  have hsame (heq : cellExtent cell resultShape sel = resultShape) :
      sel' = sel := by
    rw [hsel, if_pos heq]
  cases hselected : sel.maybeFSpan dim (resultShape.length + 1) with
  | some ids =>
      have hdim : sel'.maybeFSpan dim (resultShape.length + 1) = some ids := by
        by_cases heq : cellExtent cell resultShape sel = resultShape
        · rw [hsame heq, hselected]
        · rw [hspan heq, rebuildSelection_dim none hd, hselected]
      rw [hdim] at hi
      exact hfits.within dim hd ids hselected i hi
  | none =>
      rw [hselected] at hextent
      dsimp only at hextent
      have hdim : sel'.maybeFSpan dim (resultShape.length + 1)
          = if (cellExtent cell resultShape sel).getD dim 0
                < resultShape.getD dim 0 then
              some (paddedIds (resultShape.getD dim 0)
                ((cellExtent cell resultShape sel).getD dim 0))
            else none := by
        by_cases heq : cellExtent cell resultShape sel = resultShape
        · rw [hsame heq, heq, if_neg (Nat.lt_irrefl _), hselected]
        · rw [hspan heq, rebuildSelection_dim none hd, hselected]
      rw [hdim, hextent] at hi
      by_cases hpad : min (cell.getD dim 0) (resultShape.getD dim 0)
          < resultShape.getD dim 0
      · rw [if_pos hpad, Option.getD_some] at hi
        rcases List.mem_append.mp hi with hi | hi
        · obtain ⟨j, hj, rfl⟩ := List.mem_map.mp hi
          have hlt := List.mem_range.mp hj
          exact Int.ofNat_lt.mpr
            (Nat.lt_of_lt_of_le hlt (Nat.min_le_left _ _))
        · have hneg := List.eq_of_mem_replicate hi
          omega
      · rw [if_neg hpad, Option.getD_none] at hi
        obtain ⟨j, hj, rfl⟩ := List.mem_map.mp hi
        have hlt := List.mem_range.mp hj
        exact Int.ofNat_lt.mpr (by omega)

/-- The indices a fitted read of varying cells takes from a dimension:
the same, of the cell of each row. -/
theorem IsFitted.lt_of_varying {resultShape : IPosition} {n : Nat}
    (hfit : IsFitted col sel rs resultShape rs' sel')
    (hres : IsResult rs resultShape n) {k : Nat} (hk : k < rs.nRows)
    {cell : IPosition} (hcell : cellOf col sel k = some cell) {dim : Nat}
    (hd : dim < resultShape.length) {i : Int} (hi : i ∈ dimIds sel' rs' k dim)
    (hnn : 0 ≤ i) : i < (cell.getD dim 0 : Int) := by
  have hfits := hfit.cells k hk cell hcell
  rw [hfit.dimIds_eq hres (hfit.isMatch hres hfits.sizes) hk hcell hd] at hi
  cases hspan : sel.maybeFSpan dim (resultShape.length + 1) with
  | some ids =>
      rw [hspan] at hi
      exact hfits.within dim hd ids hspan i hi
  | none =>
      rw [hspan] at hi
      rcases List.mem_append.mp hi with hi | hi
      · obtain ⟨j, hj, rfl⟩ := List.mem_map.mp hi
        have hlt := List.mem_range.mp hj
        exact Int.ofNat_lt.mpr (by omega)
      · have hneg := List.eq_of_mem_replicate hi
        omega

section FromArray

variable {array : ArrowArray β} {shape : IPosition}
  (hfrom : ResultShapeData.fromArray col array = .ok rs)
  (hs : rs.shape = some shape)
  (hmake : DataPartition.make srt sel' rs' opt = .ok p)

include hfrom hs hmake

/-- Reading varying cells into a result: every row was visited. -/
theorem fromArray_varying_in_bounds
    (hfixed : col.columnDesc.fixedShape = none)
    (hneg : rs.negateVarying col sel shape.dropLast = .ok (rs', sel')) :
    RowsExist col sel (some array)
      ∧ ∀ c ∈ p.dataChunks, c.isEmpty = false → c.ReadsStorage col := by
  have hdata := getResultShapeData_ok array.wellFormed hfrom
  have hfit := negateVarying_fitted hdata.cellExtents hneg
  have hne : rs.shape ≠ some [] := by
    have := shape_ne_nil_of_make hmake
    rwa [hfit.eq] at this
  obtain ⟨hres, -⟩ := isResult_of_fromArray hfrom hne hs
  have hres' := hfit.isResult hres
  have hrs' := hfit.consistent hres
  have hrows := hfit.varying hfixed
  constructor
  · intro row hmem
    obtain ⟨k, hk, rfl⟩ := mem_requestedRows hmem
    refine (hrows k ?_).1
    -- as many rows are asked for as the result has
    obtain ⟨_, hcheck, -⟩ := Result.bind_eq_ok.mp hneg
    have hn := checkNrOfRows_ok hcheck
    unfold requestedRows at hk
    unfold selectedRows at hn
    by_cases hspan : sel.hasRowSpan = true
    · rw [if_pos hspan] at hk hn
      omega
    · rw [if_neg hspan, monotonicIds_length] at hk
      rw [hres.nRows]
      exact hk
  · have hcount : (rowIds sel' rs').length = rs'.nRows := by
      rw [rowIds, Selection.selected,
        Selection.maybeFSpan_row sel' hrs'.rank_pos]
      by_cases hspan : sel'.hasRowSpan = true
      · rw [if_pos hspan, Option.getD_some, hfit.rows_count hspan,
          hres.nRows, hres'.nRows]
      · rw [if_neg hspan, Option.getD_none, monotonicIds_length]
    refine reads_varying hrs' hcount hmake fun k hk hlive => ?_
    have hk' : k < rs.nRows := by
      rw [hres.nRows, ← hres'.nRows]
      exact hk
    have hnn := hlive.1
    rw [rowIds_getD hrs' hk] at hnn
    obtain ⟨cell, hcell⟩ := (hrows k hk').2 hnn
    have hfits := hfit.cells k hk' cell hcell
    have hsame : selectedRow sel' k = selectedRow sel k := by
      rcases hfit.rows k hk' with hsame | ⟨hlt, -⟩
      · exact hsame
      · omega
    have hrank : cell.length = rs'.rank - 1 := by
      rw [hres'.rank, hfits.rank]
      rfl
    have hcell' : cellOf col sel' k = some cell := by
      rwa [cellOf, hsame]
    refine ⟨cell, hcell', hrank, fun dim hdim i hi hnn => ?_⟩
    have hd : dim < shape.dropLast.length := by
      have := hfits.rank
      omega
    exact hfit.lt_of_varying hres hk' hcell hd hi hnn

/-- Reading cells of one shape into a result: no row is looked at. -/
theorem fromArray_fixed_in_bounds {cell : IPosition}
    (hfixed : col.columnDesc.fixedShape = some cell)
    (hneg : rs.negateMissingSelectedRows col sel = .ok (rs', sel'))
    (hexist : RowsExist col sel (some array)) :
    ∀ c ∈ p.dataChunks, c.isEmpty = false → c.ReadsStorage col := by
  unfold ResultShapeData.negateMissingSelectedRows at hneg
  rw [hs] at hneg
  dsimp only at hneg
  rw [hfixed] at hneg
  obtain ⟨_, hvalid, hneg⟩ := Result.bind_eq_ok.mp hneg
  have hfits := validateCellShape_ok hvalid
  obtain ⟨rfl, hsel'⟩ : rs' = rs
      ∧ sel' = if cellExtent cell shape.dropLast sel = shape.dropLast
        then sel else rebuildSelection sel shape.dropLast
          (cellExtent cell shape.dropLast sel) none := by
    split at hneg
    · rename_i hsame
      cases hneg
      exact ⟨rfl, by rw [if_pos hsame]⟩
    · rename_i hsame
      cases hneg
      exact ⟨rfl, by rw [if_neg hsame]⟩
  have hne := shape_ne_nil_of_make hmake
  obtain ⟨hres, hext⟩ := isResult_of_fromArray hfrom hne hs
  have hrs := (getResultShapeData_ok array.wellFormed hfrom).consistent hne
    fun hs' => by
      rw [hs] at hs'
      cases hs'
  have hplain : rs'.IsPlain := ⟨by simp [ResultShapeData.isFixed, hs], hext⟩
  have hrank : rs'.rank = cell.length + 1 := by rw [hres.rank, hfits.rank]
  refine reads_fixed hfixed hrs hplain hrank hmake (fun row hmem => ?_)
    fun dim hdim i hi => lt_of_fitted hfits (hres.nRows ▸ hres) hext hsel'
      hdim hi
  have hrows : sel'.hasRowSpan = sel.hasRowSpan
      ∧ (sel.hasRowSpan = true → sel'.getRowSpan = sel.getRowSpan) := by
    rw [hsel']
    split
    · exact ⟨rfl, fun _ => rfl⟩
    · obtain ⟨h₁, h₂, -⟩ := @selectedRow_rebuilt_none sel
        shape.dropLast (cellExtent cell shape.dropLast sel)
      exact ⟨h₁, h₂⟩
  refine hexist row ?_
  rwa [← rowIds_eq_requestedRows hrs hrows.1 hrows.2 fun hspan => by
    rw [hres.nRows, requestedRows, hspan]
    rfl]

end FromArray

/-- Reading into a result. -/
theorem fromArray_in_bounds {array : ArrowArray β}
    (hfrom : ResultShapeData.fromArray col array = .ok rs)
    (hneg : rs.negateMissingSelectedRows col sel = .ok (rs', sel'))
    (hmake : DataPartition.make srt sel' rs' opt = .ok p) :
    (col.columnDesc.fixedShape = none → RowsExist col sel (some array))
      ∧ (RowsExist col sel (some array) →
        ∀ c ∈ p.dataChunks, c.isEmpty = false → c.ReadsStorage col) := by
  have hneg' := hneg
  unfold ResultShapeData.negateMissingSelectedRows at hneg'
  cases hs : rs.shape with
  | none =>
      rw [hs] at hneg'
      cases hneg'
  | some shape =>
      rw [hs] at hneg'
      dsimp only at hneg'
      cases hfixed : col.columnDesc.fixedShape with
      | none =>
          rw [hfixed] at hneg'
          obtain ⟨hexist, hreads⟩ :=
            fromArray_varying_in_bounds hfrom hs hmake hfixed hneg'
          exact ⟨fun _ => hexist, fun _ => hreads⟩
      | some cell =>
          exact ⟨fun hvar => (by cases hvar),
            fromArray_fixed_in_bounds hfrom hs hmake hfixed hneg⟩

-- ============================================================ every way

/-- A planned read addresses only storage the column has, and asks for
no row beyond it, exactly when the cells of the column vary, or no row
beyond it is asked for. -/
theorem planned_reads_in_bounds_iff (srt : StdSort) (opt : RowSplitOptions)
    {result : Option (ArrowArray β)}
    (hplan : planRead col sel result = .ok (rs, sel'))
    (hmake : DataPartition.make srt sel' rs opt = .ok p) :
    (∀ c ∈ p.dataChunks, c.isEmpty = false → c.ReadsStorage col)
        ∧ RowsExist col sel result
      ↔ col.columnDesc.fixedShape = none ∨ RowsExist col sel result := by
  have hboth : (col.columnDesc.fixedShape = none → RowsExist col sel result)
      ∧ (RowsExist col sel result →
        ∀ c ∈ p.dataChunks, c.isEmpty = false → c.ReadsStorage col) := by
    cases result with
    | none =>
        obtain ⟨rs₀, hread, hplan⟩ := Result.bind_eq_ok.mp hplan
        cases hplan
        exact makeRead_in_bounds hread hmake
    | some array =>
        obtain ⟨rs₀, hfrom, hneg⟩ := Result.bind_eq_ok.mp hplan
        exact fromArray_in_bounds hfrom hneg hmake
  constructor
  · intro hall
    exact .inr hall.2
  · intro hcond
    have hexist := hcond.elim hboth.1 id
    exact ⟨hboth.2 hexist, hexist⟩

/-- The sample request reads rows the column has. -/
theorem planned_reads_in_bounds_sample : ∃ rs p,
    planRead sampleColumn sampleSelection (none : Option (ArrowArray Nat))
        = .ok (rs, sampleSelection)
      ∧ DataPartition.make .insertion sampleSelection rs .default = .ok p
      ∧ ∀ c ∈ p.dataChunks, c.isEmpty = false → c.ReadsStorage sampleColumn := by
  refine ⟨_, _, rfl, rfl, ?_⟩
  refine ((@planned_reads_in_bounds_iff _ _ sampleColumn sampleSelection _ _ _
    .insertion .default (none : Option (ArrowArray Nat)) rfl rfl).mpr
      (.inr ?_)).1
  unfold RowsExist
  decide

/-- A row that the sample column does not have. -/
def beyondSelection : Selection := ⟨[[7]]⟩

/-- Asking for a row beyond the column passes the planning. -/
theorem row_beyond_planned : ∃ rs p,
    planRead sampleColumn beyondSelection (none : Option (ArrowArray Nat))
        = .ok (rs, beyondSelection)
      ∧ DataPartition.make .insertion beyondSelection rs .default = .ok p
      ∧ ¬ RowsExist sampleColumn beyondSelection (none : Option (ArrowArray Nat))
      ∧ ∃ c ∈ p.dataChunks, c.isEmpty = false
          ∧ ¬ c.ReadsStorage sampleColumn := by
  refine ⟨_, _, rfl, rfl, ?_, _, List.mem_cons_self, rfl, fun h => ?_⟩
  · unfold RowsExist
    decide
  · have hlt := h.rows 7 (by decide)
    revert hlt
    decide

end Arcae
