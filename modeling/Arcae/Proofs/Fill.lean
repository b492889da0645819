/-
`getcol` and the memory it allocates.

Two reads that differ only in what their buffers held leave the same
array exactly when every element is read into: an element no chunk is
put at shows what its buffer held (`noninterference_iff_covered`). By
counting, that takes an element on disk for each element of the result,
and a place of its own for each chunk, which is what `ReadFills` says of
the request (`getcol_uninitialised_iff`). Rows and indices that are
negative are planned like any other where all cells have one shape, and
their chunks are skipped.
-/
import Arcae.Spec.Fill
import Arcae.Proofs.RowPieces
import Arcae.Proofs.ReadBounds
import Arcae.Proofs.Put

namespace Arcae

open FOrder Scatter Loops

variable {α β : Type} {col : TableColumn α} {sel : Selection}
  {rs : ResultShapeData} {n : Nat} {srt : StdSort} {opt : RowSplitOptions}
  {p : DataPartition}

-- ======================================================= the rows of a read

/-- A read that is partitioned has rows of one rank. -/
theorem readFacts_of_make
    (hread : ResultShapeData.makeRead col sel false = .ok rs)
    (hmake : DataPartition.make srt sel rs opt = .ok p) :
    ∃ n, ReadFacts col sel rs n := by
  obtain ⟨hr, hshape⟩ := (makeRead_outcome col sel).of_ok hread
  refine hshape.facts hr (ndim_nonneg_of_make hmake) fun hs => ?_
  have hpos := nRows_pos_of_make hmake hs
  obtain ⟨-, hshapes, -⟩ := hshape.varying hs
  rw [ResultShapeData.nRows, hs] at hpos
  simpa [hshapes] using hpos

/-- Every row of a read is read as some cell. -/
theorem exists_readCell
    (hread : ResultShapeData.makeRead col sel false = .ok rs) {k : Nat}
    (hk : k < selectedRows sel col.nrow) :
    ∃ cell, readCell col sel k = some cell := by
  obtain ⟨hr, -⟩ := (makeRead_outcome col sel).of_ok hread
  unfold readCell
  cases hfixed : col.columnDesc.fixedShape with
  | some cell => exact ⟨cell, rfl⟩
  | none =>
      obtain ⟨cell, hcell, -⟩ := hr.varying hfixed k hk
      exact ⟨cell, hcell⟩

/-- The row of the result is that cell, clipped. -/
theorem ReadFacts.ofReadCell (h : ReadFacts col sel rs n)
    (hread : ResultShapeData.makeRead col sel false = .ok rs) {k : Nat}
    (hk : k < rs.nRows) {cell : IPosition}
    (hcell : readCell col sel k = some cell) :
    cell.length = n ∧ rs.rowDims k = sel.clipped cell := by
  unfold readCell at hcell
  cases hfixed : col.columnDesc.fixedShape with
  | some shape =>
      rw [hfixed] at hcell
      cases hcell
      obtain ⟨-, hs, hndim, -⟩ := makeRead_fixed hfixed hread
      have hrank : rs.rank = cell.length + 1 := by
        unfold ResultShapeData.rank
        omega
      have hn := h.rank
      refine ⟨by omega, ?_⟩
      simp only [ResultShapeData.rowDims, hs, hrank]
      rw [Nat.add_sub_cancel, ← sel.clipped_length cell, List.take_left]
  | none =>
      rw [hfixed] at hcell
      exact h.ofCell k hk cell hcell

/-- Rows of their own shapes are not all of one shape. -/
theorem makeRead_varied
    (hread : ResultShapeData.makeRead col sel false = .ok rs)
    (hs : rs.shape = none) (hpos : 0 < selectedRows sel col.nrow)
    {dims : IPosition} (hall : ∀ k < selectedRows sel col.nrow,
      clippedCell col sel k = dims) : False := by
  obtain ⟨hr, hshape⟩ := (makeRead_outcome col sel).of_ok hread
  have hvar := (hshape.varying hs).1
  unfold ResultShapeData.makeRead at hread
  obtain ⟨_, -, hread⟩ := Result.bind_eq_ok.mp hread
  rw [hvar] at hread
  obtain ⟨rowData, hdata, hread⟩ := Result.bind_eq_ok.mp hread
  obtain ⟨-, rfl⟩ := (makeRowData_outcome hvar).of_ok hdata
  have hcommon : (summary ((List.range (selectedRows sel col.nrow)).map
      (clippedCell col sel))).commonShape = some dims := by
    obtain ⟨m, hm⟩ : ∃ m, selectedRows sel col.nrow = m + 1 :=
      ⟨_, (Nat.succ_pred_eq_of_pos hpos).symm⟩
    rw [hm, List.range_succ_eq_map, List.map_cons, summary,
      hall 0 hpos, if_pos]
    intro s hs'
    rw [List.map_map] at hs'
    obtain ⟨k, hk, rfl⟩ := List.mem_map.mp hs'
    exact hall (k + 1) (by have := List.mem_range.mp hk; omega)
  split at hread
  · cases hread
  · rw [hcommon] at hread
    cases hread
    cases hs

/-- A result is fixed exactly when its rows are of one shape. -/
theorem isFixed_iff_common (hf : ReadFacts col sel rs n)
    (hread : ResultShapeData.makeRead col sel false = .ok rs)
    (hpos : 0 < rs.nRows) :
    rs.isFixed = true ↔ ∃ dims, ∀ k < selectedRows sel col.nrow, ∀ cell,
      readCell col sel k = some cell → sel.clipped cell = dims := by
  constructor
  · intro hfixed
    refine ⟨rs.rowDims 0, fun k hk cell hcell => ?_⟩
    rw [← (hf.ofReadCell hread (hf.nRows ▸ hk) hcell).2]
    exact ResultShapeData.rowDims_fixed hfixed k 0
  · intro hcommon
    obtain ⟨dims, hall⟩ := hcommon
    cases hs : rs.shape with
    | some shape => simp [ResultShapeData.isFixed, hs]
    | none =>
        exfalso
        refine @makeRead_varied _ _ _ _ hread hs (hf.nRows ▸ hpos) dims
          fun k hk => ?_
        obtain ⟨hr, hshape⟩ := (makeRead_outcome col sel).of_ok hread
        have hvar := (hshape.varying hs).1
        obtain ⟨cell, hcell, -⟩ := hr.varying hvar k hk
        have hread' : readCell col sel k = some cell := by
          rw [readCell, hvar]
          exact hcell
        rw [clippedCell, hcell, Option.getD_some]
        exact hall k hk cell hread'

-- ================================================= which reads are filled

/-- The rows of a read, in the order of the request. -/
theorem ReadFacts.rowIds_eq (hf : ReadFacts col sel rs n) : rowIds sel rs
    = (List.range (selectedRows sel col.nrow)).map (selectedRow sel) := by
  rw [Arcae.rowIds_eq hf.consistent hf.isMatch, hf.nRows]

/-- Alignment is no matter where there is nothing to split. -/
theorem one_end_iff {nrows nInstances : Nat} {rowAt : Nat → Int}
    {unitStart : Option RowUnitStart} :
    (pieceEnds nrows (min nInstances nrows) rowAt
        (readSplit nInstances unitStart).unitStart).length ≤ 1
      ↔ (pieceEnds nrows (min nInstances nrows) rowAt unitStart).length
        ≤ 1 := by
  by_cases hmany : 1 < min nInstances nrows
  · have hsplit : (readSplit nInstances unitStart).unitStart = unitStart :=
      if_pos (Nat.lt_of_lt_of_le hmany (Nat.min_le_left _ _))
    rw [hsplit]
  · have hone : ∀ units, (pieceEnds nrows (min nInstances nrows) rowAt
        units).length ≤ 1 := by
      intro units
      exact Nat.le_of_eq (pieceEnds_length_of_few (Nat.not_lt.mp hmany) _ _)
    exact iff_of_true (hone _) (hone _)

section Cover

variable (hf : ReadFacts col sel rs n)
  (hread : ResultShapeData.makeRead col sel false = .ok rs)

include hf hread

/-- The plan is all on disk exactly when every element of the request
exists. -/
theorem plan_live_iff_exist : (∀ t ∈ plan sel rs, t.live = true)
    ↔ ∀ k < selectedRows sel col.nrow, ∀ cell,
        readCell col sel k = some cell → ∀ m, InBox m (sel.clipped cell) →
          0 ≤ selectedRow sel k ∧ sel.Picks m := by
  have hrs := hf.consistent
  have hm := hf.isMatch
  have hext := hf.cellExtents
  rw [plan_live_iff hrs hm]
  constructor
  · intro hall k hk cell hcell m hbox
    have hk' : k < rs.nRows := hf.nRows ▸ hk
    rw [← (hf.ofReadCell hread hk' hcell).2] at hbox
    exact (elementLive_iff hm hext hrs hk' hbox).mp (hall k hk' m hbox)
  · intro hall k hk m hbox
    refine (elementLive_iff hm hext hrs hk hbox).mpr ?_
    obtain ⟨cell, hcell⟩ := exists_readCell hread (hf.nRows ▸ hk)
    rw [(hf.ofReadCell hread hk hcell).2] at hbox
    exact hall k (hf.nRows ▸ hk) cell hcell m hbox

/-- The first element of a row that has elements. -/
theorem inBox_zeros {k : Nat} (hk : k < rs.nRows) {cell : IPosition}
    (hcell : readCell col sel k = some cell) (hne : 0 ∉ sel.clipped cell) :
    InBox (List.replicate n 0) (sel.clipped cell) := by
  obtain ⟨hlen, -⟩ := hf.ofReadCell hread hk hcell
  refine List.forall₂_iff_get.mpr ⟨by simp [hlen], fun d h₁ h₂ => ?_⟩
  have hpos : (sel.clipped cell)[d] ≠ 0 :=
    fun hzero => hne (hzero ▸ List.getElem_mem h₂)
  simp only [List.get_eq_getElem, List.getElem_replicate]
  omega

/-- Where every element exists, the strides fit exactly if they are small
or their dimensions are not cut. -/
theorem stridesFit_iff_dims
    (hexist : ∀ k < selectedRows sel col.nrow, ∀ cell,
      readCell col sel k = some cell → ∀ m, InBox m (sel.clipped cell) →
        0 ≤ selectedRow sel k ∧ sel.Picks m) :
    StridesFit sel rs ↔ ∀ k < selectedRows sel col.nrow, ∀ cell,
      readCell col sel k = some cell → 0 ∉ sel.clipped cell →
        ∀ d < cell.length, ∀ ids,
          sel.maybeFSpan d (cell.length + 1) = some ids →
            Gapless ids ∨ ((sel.clipped cell).take d).prod < 2 ^ 31 := by
  have hrs := hf.consistent
  have hm := hf.isMatch
  have hext := hf.cellExtents
  -- the first index of each dimension of a row that has elements
  have hfirst : ∀ k < rs.nRows, ∀ cell, readCell col sel k = some cell →
      0 ∉ sel.clipped cell → RowLive sel rs k
        ∧ ∀ d < n, ∀ ids, sel.maybeFSpan d (n + 1) = some ids →
            0 ≤ ids.headD 0 ∧ 0 < ids.length := by
    intro k hk cell hcell hne
    obtain ⟨hlen, hdims⟩ := hf.ofReadCell hread hk hcell
    have hbox := inBox_zeros hf hread hk hcell hne
    obtain ⟨hnn, hpicks⟩ := hexist k (hf.nRows ▸ hk) cell hcell _ hbox
    refine ⟨(rowLive_iff hrs hm hext hk).mpr
      ⟨hnn, _, by rw [hdims]; exact hbox, hpicks⟩, fun d hd ids hids => ⟨?_, ?_⟩⟩
    · have hpick := hpicks d (by simpa using hd) ids (by simpa using hids)
      rw [List.getD_replicate _ hd] at hpick
      cases ids with
      | nil => exact Int.le_refl 0
      | cons i is => exact hpick
    · have hsize := sel.clipped_getElem? (by omega : d < cell.length)
      rw [hlen, hids] at hsize
      have hpos : 0 ≠ ids.length :=
        fun hzero => hne (hzero ▸ List.mem_of_getElem? hsize)
      omega
  constructor
  · intro hfit k hk cell hcell hne d hd ids hids
    have hk' : k < rs.nRows := hf.nRows ▸ hk
    obtain ⟨hlen, hdims⟩ := hf.ofReadCell hread hk' hcell
    obtain ⟨hlive, hheads⟩ := hfirst k hk' cell hcell hne
    rw [hlen] at hd hids
    obtain ⟨hhead, hpos⟩ := hheads d hd ids hids
    have hanch := hfit k hk' hlive d (by rw [hf.rank]; exact hd)
    rw [dimIds_eq_span hm hext, hf.rank, hids, hdims] at hanch
    refine hanch.imp_left fun h => ?_
    rcases h with hneg | ⟨-, hg⟩
    · have hlt : ids.headD 0 < 0 := by
        cases ids with
        | nil => cases hpos
        | cons i is => exact hneg i List.mem_cons_self
      omega
    · exact hg
  · intro hdims k hk hlive d hd
    obtain ⟨cell, hcell⟩ := exists_readCell hread (hf.nRows ▸ hk)
    obtain ⟨hlen, hrow⟩ := hf.ofReadCell hread hk hcell
    -- a live row has elements
    have hne : 0 ∉ sel.clipped cell := by
      intro hzero
      obtain ⟨-, m, hbox, -⟩ := (rowLive_iff hrs hm hext hk).mp hlive
      rw [hrow] at hbox
      obtain ⟨e, he, hsize⟩ := List.mem_iff_getElem.mp hzero
      have hlt := List.Forall₂.get hbox (i := e)
        (by rw [hbox.length_eq]; exact he) he
      rw [List.get_eq_getElem, List.get_eq_getElem, hsize] at hlt
      omega
    rw [hf.rank, Nat.add_sub_cancel] at hd
    rw [dimIds_eq_span hm hext, hf.rank, hrow]
    cases hsel : sel.maybeFSpan d (n + 1) with
    | none => exact .inl (anchored_monotonicIds _)
    | some ids =>
        have hsmall := hdims k (hf.nRows ▸ hk) cell hcell hne d (by omega) ids
          (by rw [hlen]; exact hsel)
        exact hsmall.imp_left fun hg =>
          .inr ⟨((hfirst k hk cell hcell hne).2 d hd ids hsel).1, hg⟩

/-- Where every element exists, a row that has elements is read. -/
theorem rowLive_of_live (hlive : ∀ t ∈ plan sel rs, t.live = true) {k : Nat}
    (hk : k < rs.nRows) (hne : 0 ∉ rs.rowDims k) : RowLive sel rs k := by
  obtain ⟨cell, hcell⟩ := exists_readCell hread (hf.nRows ▸ hk)
  have hdims := (hf.ofReadCell hread hk hcell).2
  rw [hdims] at hne
  have hbox := inBox_zeros hf hread hk hcell hne
  rw [← hdims] at hbox
  obtain ⟨hplan, -⟩ := transferOf_of_inBox hf.consistent hf.isMatch hk hbox
  have hrow := rowLive_of_mem_plan hplan (hlive _ hplan)
  rwa [transferOf_row] at hrow

/-- The shape that the rows have in common is the size of the first. -/
theorem common_iff (hfixed : rs.isFixed = true) (hpos : 0 < rs.nRows)
    (dims : IPosition) :
    (∀ k < selectedRows sel col.nrow, ∀ cell,
        readCell col sel k = some cell → sel.clipped cell = dims)
      ↔ dims = rs.rowDims 0 := by
  have hdims : ∀ k < selectedRows sel col.nrow, ∀ cell,
      readCell col sel k = some cell → sel.clipped cell = rs.rowDims 0 := by
    intro k hk cell hcell
    rw [← (hf.ofReadCell hread (hf.nRows ▸ hk) hcell).2]
    exact ResultShapeData.rowDims_fixed hfixed k 0
  constructor
  · intro hall
    obtain ⟨cell, hcell⟩ := exists_readCell hread (hf.nRows ▸ hpos)
    rw [← hall 0 (hf.nRows ▸ hpos) cell hcell]
    exact hdims 0 (hf.nRows ▸ hpos) cell hcell
  · intro heq
    rw [heq]
    exact hdims

/-- Where every element exists, the rows are in their places exactly if
they are read in one piece, or small. -/
theorem rowsAnchored_iff_rows {nInstances : Nat}
    {unitStart : Option RowUnitStart}
    (hpart : p.Partitions sel rs (readSplit nInstances unitStart))
    (hlive : ∀ t ∈ plan sel rs, t.live = true) :
    (rs.isFixed = true → p.RowsAnchored ∨ (rs.rowDims 0).prod < 2 ^ 31)
      ↔ (1 < (rowPieceEnds nInstances unitStart col sel).length →
        ∀ dims, (∀ k < selectedRows sel col.nrow, ∀ cell,
          readCell col sel k = some cell → sel.clipped cell = dims) →
          dims.prod < 2 ^ 31) := by
  have hrs := hf.consistent
  have hm := hf.isMatch
  have hends : ((rowPieceEnds nInstances unitStart col sel).length ≤ 1)
      ↔ (pieceEnds rs.nRows (min nInstances rs.nRows)
        (fun q => ((rowIds sel rs).mergeSort
          fun i j => decide (i ≤ j)).getD q 0)
        (readSplit nInstances unitStart).unitStart).length ≤ 1 := by
    rw [one_end_iff, rowPieceEnds, ← hf.rowIds_eq, hm.rowIds_length]
  rcases Nat.eq_zero_or_pos rs.nRows with hzero | hpos
  · -- no rows, no chunk to move one
    refine iff_of_true (fun _ => .inl fun c hc hmoves => ?_) fun hlen => ?_
    · obtain ⟨t, ht, -⟩ := hmoves
      have := (mem_plan_inBox hm hrs (hpart.mem_plan hc ht)).1
      omega
    · exfalso
      refine absurd hlen (Nat.not_lt.mpr (hends.mpr ?_))
      have hfew : min nInstances rs.nRows ≤ 1 := by omega
      exact Nat.le_of_eq (pieceEnds_length_of_few hfew _ _)
  by_cases hfixed : rs.isFixed = true
  case neg =>
    refine iff_of_true (fun h => absurd h hfixed) fun _ dims hall => ?_
    exact absurd ((isFixed_iff_common hf hread hpos).mpr ⟨dims, hall⟩) hfixed
  have hcommon := common_iff hf hread hfixed hpos
  by_cases hsmall : (rs.rowDims 0).prod < 2 ^ 31
  · refine iff_of_true (fun _ => .inr hsmall) fun _ dims hall => ?_
    rw [(hcommon dims).mp hall]
    exact hsmall
  -- large rows have elements, so every row is there to be read
  have hne : 0 ∉ rs.rowDims 0 := fun hzero =>
    hsmall (by rw [List.prod_eq_zero hzero]; decide)
  have hrows : ∀ k < rs.nRows, RowLive sel rs k := by
    intro k hk
    refine rowLive_of_live hf hread hlive hk ?_
    rw [rs.rowDims_fixed hfixed k 0]
    exact hne
  have hnn : ∀ i ∈ rowIds sel rs, 0 ≤ i := by
    intro i hi
    obtain ⟨k, hk, rfl⟩ := List.mem_iff_getElem.mp hi
    have hrow := (hrows k (hm.rowIds_length ▸ hk)).1
    rwa [List.getD_eq_getElem _ _ hk] at hrow
  have hhead : 0 ≤ (rowIds sel rs).headD 0 := by
    rw [List.headD_eq_getD]
    exact (hrows 0 hpos).1
  have hbytes : 0 < minSplitBytes ∧ minSplitBytes ≤ 2 ^ 31 := by decide
  rw [rowsAnchored_iff_ends hrs hm hpart ⟨hfixed, hf.cellExtents⟩ hbytes.1
    (Nat.le_trans hbytes.2 (Nat.le_of_not_lt hsmall)),
    (readIds_of_nonneg hnn).1, (readIds_of_nonneg hnn).2, hm.rowIds_length]
  constructor
  · intro h hlen dims hdims
    rw [(hcommon dims).mp hdims]
    refine (h hfixed).resolve_left fun hone => ?_
    exact absurd hlen (Nat.not_lt.mpr (hends.mpr (hone 0 hpos (hrows 0 hpos)).2))
  · intro h _
    refine .inl fun k hk _ => ⟨hhead, hends.mp ?_⟩
    by_contra hlen
    exact hsmall (h (by omega) _ ((hcommon _).mpr rfl))

/-- A read fills its buffer exactly when the request says so. -/
theorem covered_iff_fills {nInstances : Nat} {unitStart : Option RowUnitStart}
    (hpart : p.Partitions sel rs (readSplit nInstances unitStart)) :
    (∀ q < rs.nElements, (q : Int) ∈ (movesOf p.dataChunks).map Prod.fst)
      ↔ ReadFills nInstances unitStart col sel := by
  rw [covered_iff hf.consistent hf.isMatch hpart]
  constructor
  · intro h
    obtain ⟨hlive, hslip⟩ := h
    obtain ⟨hfit, hrows⟩ := (no_slip_iff hf.consistent hpart).mp hslip
    have hexist := (plan_live_iff_exist hf hread).mp hlive
    exact ⟨hexist, (stridesFit_iff_dims hf hread hexist).mp hfit,
      (rowsAnchored_iff_rows hf hread hpart hlive).mp hrows⟩
  · intro h
    have hlive := (plan_live_iff_exist hf hread).mpr h.exist
    exact ⟨hlive, (no_slip_iff hf.consistent hpart).mpr
      ⟨(stridesFit_iff_dims hf hread h.exist).mpr h.dims,
        (rowsAnchored_iff_rows hf hread hpart hlive).mpr h.rows⟩⟩

end Cover

-- ============================================================== the array

section Array

variable (values : List β)

/-- Wrapping other values in a level is wrapping, with other values. -/
theorem fixedSizeListFromArrays_withValues {data data' : ArrayData β}
    {size : Int} (h : fixedSizeListFromArrays data size = .ok data') :
    fixedSizeListFromArrays (data.withValues values) size
      = .ok (data'.withValues values) := by
  unfold fixedSizeListFromArrays at h ⊢
  rw [ArrayData.withValues_length]
  split at h
  · cases h
  · rename_i hsize
    rw [if_neg hsize]
    split at h
    · cases h
    · rename_i hmod
      cases h
      exact if_neg hmod

theorem listFromArrays_withValues {data data' : ArrayData β}
    {offsets : List Int} (h : listFromArrays data offsets = .ok data') :
    listFromArrays (data.withValues values) offsets
      = .ok (data'.withValues values) := by
  unfold listFromArrays at h ⊢
  split at h
  · cases h
  · rename_i hne
    cases h
    exact if_neg hne

theorem foldlM_withValues {γ : Type} {f : ArrayData β → γ → Result (ArrayData β)}
    (hf : ∀ {data data' x}, f data x = .ok data' →
      f (data.withValues values) x = .ok (data'.withValues values)) :
    ∀ (l : List γ) {data data' : ArrayData β}, l.foldlM f data = .ok data' →
      l.foldlM f (data.withValues values) = .ok (data'.withValues values) := by
  intro l
  induction l with
  | nil =>
      intro data data' h
      cases h
      rfl
  | cons x l ih =>
      intro data data' h
      rw [List.foldlM_cons] at h ⊢
      obtain ⟨next, hnext, h⟩ := Result.bind_eq_ok.mp h
      rw [hf hnext]
      exact ih h

theorem makeElements_withValues [LeafValue β] {arrowDtype : ArrowType}
    {strat : ConvertStrategy} {values' : List β} {data : ArrayData β}
    (hnumeric : rs.dtype ≠ .tpString)
    (h : makeElements rs arrowDtype strat values' = .ok data) :
    makeElements rs arrowDtype strat values = .ok (data.withValues values) := by
  unfold makeElements at h ⊢
  dsimp only at h ⊢
  rw [if_neg hnumeric] at h ⊢
  split at h
  · rename_i hcomplex
    rw [if_pos hcomplex]
    cases strat with
    | fixed => exact fixedSizeListFromArrays_withValues values h
    | list => exact listFromArrays_withValues values h
  · rename_i hplain
    cases h
    exact if_neg hplain

/-- The array of numbers is the same for all values, but for them. -/
theorem makeArray_withValues [LeafValue β] {configured : Option String}
    {values' : List β} {data : ArrayData β} (hnumeric : rs.dtype ≠ .tpString)
    (h : makeArray configured rs values' = .ok data) :
    makeArray configured rs values = .ok (data.withValues values) := by
  unfold makeArray at h ⊢
  obtain ⟨arrowDtype, htype, h⟩ := Result.bind_eq_ok.mp h
  obtain ⟨strat, hstrat, h⟩ := Result.bind_eq_ok.mp h
  obtain ⟨elements, helements, h⟩ := Result.bind_eq_ok.mp h
  rw [htype, Result.ok_bind, hstrat, Result.ok_bind,
    makeElements_withValues values hnumeric helements, Result.ok_bind]
  split at h
  · obtain ⟨ndim, hndim, h⟩ := Result.bind_eq_ok.mp h
    rw [hndim, Result.ok_bind]
    exact foldlM_withValues values
      (fixedSizeListFromArrays_withValues values) _ h
  · obtain ⟨offsets, hoffsets, h⟩ := Result.bind_eq_ok.mp h
    rw [hoffsets, Result.ok_bind]
    exact foldlM_withValues values (listFromArrays_withValues values) _ h

end Array

/-- Leaf values tell elements apart. -/
theorem ElementLayout.values_inj {dtype : DataType}
    (layout : ElementLayout dtype α β) {b b' : Memory α} {n : Nat} :
    layout.values b n = layout.values b' n ↔ ∀ q < n, b (q : Nat) = b' q := by
  constructor
  · induction n with
    | zero => exact fun _ q hq => absurd hq (Nat.not_lt_zero q)
    | succ n ih =>
        intro h q hq
        unfold ElementLayout.values at h ih
        rw [List.range_succ, List.flatMap_append, List.flatMap_append] at h
        obtain ⟨hinit, hlast⟩ := List.append_inj' h (by simp)
        rcases Nat.lt_succ_iff_lt_or_eq.mp hq with hlt | rfl
        · exact ih hinit q hlt
        · rw [List.flatMap_singleton, List.flatMap_singleton] at hlast
          refine layout.parts.injective (funext fun i => ?_)
          exact List.map_inj_left.mp hlast i (List.mem_finRange i)
  · intro h
    refine List.flatMap_congr fun q hq => ?_
    rw [h q (List.mem_range.mp hq)]

-- ============================================================== two runs

section Runs

variable {nInstances : Nat} {unitStart : Option RowUnitStart}
  {configured : Option String}
  {schedule : List DataChunk → List DataChunk}
  {layout : ElementLayout col.columnDesc.dataType α β} {emptyString : α}
  {array : ArrayData β} {allocated : Memory α}

/-- The chunks as they are read, scheduled or not, are those of the
partition. -/
theorem scheduled_perm (hschedule : ∀ chunks, (schedule chunks).Perm chunks)
    (chunks : List DataChunk) :
    (if 1 < nInstances ∧ 1 < chunks.length then schedule chunks
      else chunks).Perm chunks := by
  split
  · exact hschedule chunks
  · exact .refl chunks

/-- A read of numbers that gets through would with other memory, and its
values are those of the memory after the moves. -/
theorem readImpl_ok [LeafValue β]
    (hnumeric : col.columnDesc.dataType.isPrimitive = true)
    (hschedule : ∀ chunks, (schedule chunks).Perm chunks)
    (h : readImpl srt nInstances unitStart configured schedule col layout
      emptyString sel allocated = .ok array) :
    ∃ rs p moves, ResultShapeData.makeRead col sel false = .ok rs
      ∧ DataPartition.make srt sel rs (readSplit nInstances unitStart) = .ok p
      ∧ moves.Perm (movesOf p.dataChunks)
      ∧ ∀ memory, readImpl srt nInstances unitStart configured schedule col
          layout emptyString sel memory
        = .ok (array.withValues
            (layout.values (Moves.read col moves memory) rs.nElements)) := by
  unfold readImpl at h
  obtain ⟨rs, hread, h⟩ := Result.bind_eq_ok.mp h
  obtain ⟨p, hmake, h⟩ := Result.bind_eq_ok.mp h
  obtain ⟨buffer, hbuffer, h⟩ := Result.bind_eq_ok.mp h
  obtain ⟨n, hf⟩ := readFacts_of_make hread hmake
  have hrs := hf.consistent
  have hm := hf.isMatch
  obtain ⟨-, hpart⟩ := partitions_of_make hrs hm hmake
  have hdtype : p.casaDtype = col.columnDesc.dataType :=
    hpart.dtype.trans hf.dtype
  -- memory for numbers is taken as it comes
  have hallocate : ∀ memory : Memory α,
      allocateBuffer p.casaDtype emptyString memory = .ok memory := by
    intro memory
    unfold allocateBuffer at hbuffer ⊢
    obtain ⟨size, hsize, -⟩ := Result.bind_eq_ok.mp hbuffer
    rw [hsize, Result.ok_bind, if_pos (by rw [hdtype]; exact hnumeric)]
    rfl
  set chunks := if 1 < nInstances ∧ 1 < p.dataChunks.length
    then schedule p.dataChunks else p.dataChunks with hchunks
  have hperm : chunks.Perm p.dataChunks := scheduled_perm hschedule _
  have hplanned : ∀ c ∈ chunks, c.Planned sel rs :=
    fun c hc => hpart.planned c (hperm.mem_iff.mp hc)
  obtain ⟨b, hb, h⟩ := Result.bind_eq_ok.mp h
  obtain ⟨hgood, -⟩ :=
    (readChunks_outcome hrs hm hplanned col p.casaDtype buffer).of_ok hb
  have hstring : rs.dtype ≠ .tpString := by
    intro hstring
    rw [← hf.dtype, hstring] at hnumeric
    cases hnumeric
  refine ⟨rs, p, movesOf chunks, hread, hmake, hperm.flatMap_right _,
    fun memory => ?_⟩
  obtain ⟨b', hb', rfl⟩ :=
    (readChunks_outcome hrs hm hplanned col p.casaDtype memory).of_good hgood
  unfold readImpl
  rw [hread, Result.ok_bind, hmake, Result.ok_bind, hallocate, Result.ok_bind]
  dsimp only
  rw [← hchunks, hb', Result.ok_bind]
  exact makeArray_withValues _ hstring h

/-- `getcol` without a result does not depend on the memory it allocates
exactly when the request fills it. -/
theorem getcol_uninitialised_iff [LeafValue β] [Nontrivial α]
    (hnumeric : col.columnDesc.dataType.isPrimitive = true)
    (hschedule : ∀ chunks, (schedule chunks).Perm chunks)
    (h : readImpl srt nInstances unitStart configured schedule col layout
      emptyString sel allocated = .ok array) :
    (∀ memory memory' array array',
      readImpl srt nInstances unitStart configured schedule col layout
        emptyString sel memory = .ok array →
      readImpl srt nInstances unitStart configured schedule col layout
        emptyString sel memory' = .ok array' → array = array')
      ↔ ReadFills nInstances unitStart col sel := by
  obtain ⟨rs, p, moves, hread, hmake, hperm, hruns⟩ :=
    readImpl_ok hnumeric hschedule h
  obtain ⟨n, hf⟩ := readFacts_of_make hread hmake
  obtain ⟨-, hpart⟩ := partitions_of_make hf.consistent hf.isMatch hmake
  have hkeys : ∀ q : Int, q ∈ moves.map Prod.fst
      ↔ q ∈ (movesOf p.dataChunks).map Prod.fst :=
    fun q => (hperm.map _).mem_iff
  rw [← covered_iff_fills hf hread hpart]
  constructor
  · intro hsame q hq
    by_contra hno
    rw [← hkeys] at hno
    -- two memories, told apart where nothing is read into
    obtain ⟨x, y, hne⟩ := exists_pair_ne α
    have heq := hsame _ _ _ _ (hruns fun _ => x) (hruns fun _ => y)
    have hvalues := congrArg (fun data => data.leafArray.values) heq
    simp only [ArrayData.withValues_leafArray] at hvalues
    have hx := layout.values_inj.mp hvalues q hq
    rw [read_uncovered col hno, read_uncovered col hno] at hx
    exact hne hx
  · intro hcovered memory memory' array₁ array₂ h₁ h₂
    rw [hruns memory] at h₁
    rw [hruns memory'] at h₂
    cases h₁
    cases h₂
    congr 1
    refine layout.values_inj.mpr fun q hq => ?_
    refine scatter_eq_of_mem ?_
    rw [Moves.values, List.map_map]
    exact (hkeys q).mpr (hcovered q hq)

end Runs

/-- A read of one row of two elements, which its request fills. -/
theorem getcol_uninitialised_sample :
    (∀ memory memory' array array',
      readImpl .insertion 1 none none (fun chunks => chunks) shortColumn
        plainLayout 0 .empty memory = .ok array →
      readImpl .insertion 1 none none (fun chunks => chunks) shortColumn
        plainLayout 0 .empty memory' = .ok array' → array = array')
      ↔ ReadFills 1 none shortColumn .empty :=
  @getcol_uninitialised_iff _ _ shortColumn .empty .insertion 1 none none
    (fun chunks => chunks) plainLayout 0 _ (fun _ => 0) _ _ rfl
    (fun _ => .refl _) rfl

/-- A missing row of that column is read as whatever was there. -/
theorem missing_row_uninitialised : ∃ array array',
    readImpl .insertion 1 none none (fun chunks => chunks) shortColumn
        plainLayout 0 ⟨[[-1]]⟩ (fun _ => 0) = .ok array
      ∧ readImpl .insertion 1 none none (fun chunks => chunks) shortColumn
        plainLayout 0 ⟨[[-1]]⟩ (fun _ => 1) = .ok array'
      ∧ array.leafArray.values = [0, 0] ∧ array'.leafArray.values = [1, 1] :=
  ⟨_, _, rfl, rfl, rfl, rfl⟩

end Arcae
