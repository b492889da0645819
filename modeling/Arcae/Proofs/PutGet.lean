/-
`putcol` and `getcol` against each other.

A write to cells that are all there is a scatter of its data, and a read
a gather of its cells, both by the one place that the selection gives
each element. So what is written is read back at its own index
(`getcol_of_putcol`), and what was read is written back to where it
came from, which changes nothing (`putcol_of_getcol`).

# Acceptance

The first is about a write that got through. For the second the write
has to be shown to: every check of `MakeWrite` compares the data with a
selection or a cell, and the data of a read were cut to both
(`makeWrite_of_cells`).
-/
import Arcae.Proofs.GetColumn
import Arcae.Proofs.WriteRanks

namespace Arcae

open FOrder Scatter Loops

variable {α β : Type} {col col' : TableColumn α} {sel : Selection}
  {rs : ResultShapeData} {n : Nat}

-- ==================================================== cells that are there

/-- Distinct indices below a size are no more than it. -/
theorem length_le_of_distinct {ids : Index} {size : Nat} (hnodup : ids.Nodup)
    (hall : ∀ i ∈ ids, 0 ≤ i ∧ i < (size : Int)) : ids.length ≤ size := by
  have hsub : ids ⊆ monotonicIds size := by
    intro i hi
    obtain ⟨hnn, hlt⟩ := hall i hi
    exact List.mem_map.mpr ⟨i.toNat, List.mem_range.mpr (by omega),
      Int.toNat_of_nonneg hnn⟩
  have hle := (hnodup.subperm hsub).length_le
  rwa [monotonicIds, List.length_map, List.length_range] at hle

/-- A row that is read from a cell is read as that cell. -/
theorem readCell_of_cellOf {k : Nat} {cell : IPosition}
    (hcell : cellOf col sel k = some cell) :
    readCell col sel k = some cell := by
  unfold readCell
  cases hfixed : col.columnDesc.fixedShape with
  | none => exact hcell
  | some shape =>
      have hown := (cellOf_lt hcell).2.2
      rw [col.cell_fixed _ _ hfixed (col.cell_nrow _ _ hown)] at hown
      exact hown

/-- Columns that differ in nothing a write can change are one. -/
theorem TableColumn.eq_of_fields {col col' : TableColumn α}
    (hdesc : col'.columnDesc = col.columnDesc) (hnrow : col'.nrow = col.nrow)
    (hcell : col'.cellShape = col.cellShape) (hvalue : col'.value = col.value) :
    col' = col := by
  cases col
  cases col'
  cases hdesc
  cases hnrow
  cases hcell
  cases hvalue
  rfl

/-- `MakeWrite` accepts data that match the selection, and fit the cells
that their rows are read as. It changes nothing then. -/
theorem makeWrite_of_cells {data : ArrowArray β}
    (hadmitted : WriteAdmitted col data rs) (hnil : rs.shape ≠ some [])
    (hrows : RowSelectionMatches col sel rs) (hdims : DimSelectionsMatch sel rs)
    (hpos : 0 < rs.nRows)
    (hcells : ∀ k < rs.nRows, ∃ cell, readCell col sel k = some cell
      ∧ cell.length = rs.rank - 1
      ∧ ¬ CellTooSmall sel rs.rank cell (rs.rowDims k)) :
    ResultShapeData.makeWrite col data sel = (.ok rs, col) := by
  have hdata := getResultShapeData_ok data.wellFormed hadmitted.shape
  have hrow : checkRowSelection col.columnDesc col.nrow rs sel = .ok () := by
    rcases @checkRowSelection_cases _ col sel rs with h | h | h
    · exact h.2.2
    · exact absurd h.1.2 hnil
    · exact absurd hrows h.2.1
  have hcheck : checkWrite col data sel = .ok (rs, rs.rank) := by
    rcases checkWrite_cases hadmitted.shape with h | h
    · rw [h.2, hrow]
      rfl
    · exact absurd hadmitted h.1
  have hlen : ∀ k < rs.nDataRows, (rs.rowDims k).length = rs.rank - 1 :=
    fun k hk => hdata.rowDims_length (lt_nDataRows hk)
  obtain ⟨u, hok, -⟩ :=
    (@checkData_outcome sel rs col.columnDesc hlen).of_good hdims
  -- the check of a row against the cell it is read as
  have hpass : ∀ k < rs.nRows, ∀ cell, readCell col sel k = some cell →
      checkAgainstCell col.columnDesc sel rs.rank cell (rs.rowDims k)
        = .ok () := by
    intro k hk cell hcell
    obtain ⟨cell', hcell', hrank, hroom⟩ := hcells k hk
    cases hcell.symm.trans hcell'
    rcases @checkAgainstCell_cases sel col.columnDesc rs.rank cell
        (rs.rowDims k) (hdata.rowDims_length (.inl hk)) with h | h | h
    · exact absurd h.1 hroom
    · omega
    · exact h.2.2
  cases hfixed : col.columnDesc.fixedShape with
  | some shape =>
      have hfits : checkFixedCells col.columnDesc rs sel rs.rank shape
          = .ok () := by
        refine forM_eq_ok.mpr fun k hk => ?_
        have hk := List.mem_range.mp hk
        rw [dataRowShape_of_lt hk, Result.ok_bind]
        have hlt : k < rs.nRows := by
          unfold ResultShapeData.nDataRows at hk
          split at hk
          · omega
          · exact hk
        exact hpass k hlt _ (by rw [readCell, hfixed])
      unfold ResultShapeData.makeWrite
      simp only [hcheck, hok, hfixed, hfits]
      split <;> rfl
  | none =>
      have hvarying : ∀ k, readCell col sel k = cellOf col sel k := by
        intro k
        rw [readCell, hfixed]
      simp only [hvarying] at hcells hpass
      have hle : ∀ k < nWrittenRows col rs sel, k < rs.nRows :=
        fun k hk => lt_nRows_of_lt_nWrittenRows (fun hs => (hrows hs).1) hk
      cases hw : ResultShapeData.makeWrite col data sel with
      | mk result col₁ =>
          have hresult := makeWrite_varying hdata hadmitted hcheck hrows hok hfixed
          rw [hw] at hresult
          have hall : (List.range (nWrittenRows col rs sel)).forM
              (rowCheck col sel rs) = .ok () := by
            refine forM_eq_ok.mpr fun k hk => ?_
            have hk := hle k (List.mem_range.mp hk)
            obtain ⟨cell, hcell, -⟩ := hcells k hk
            obtain ⟨hnn, -, hshape⟩ := cellOf_lt hcell
            rw [rowCheck, if_neg (by omega), visitedCell_own hshape]
            exact hpass k hk cell hcell
          rw [hall] at hresult
          obtain rfl : result = .ok rs := hresult
          -- no row is without a cell, so none is given one
          have hcell : col₁.cellShape = col.cellShape := by
            by_contra hne
            obtain ⟨rs', ndim, hcheck', -, -, -, before, k, after, hsplit,
              hfresh, -⟩ := ((makeWrite_cells hw).2).mp hne
            rw [hcheck] at hcheck'
            cases hcheck'
            have hk : k < rs.nRows := by
              refine hle k (List.mem_range.mp ?_)
              rw [hsplit]
              exact List.mem_append_right _ List.mem_cons_self
            obtain ⟨cell, hc, -⟩ := hcells k hk
            have hshape := (cellOf_lt hc).2.2
            rw [hfresh.2] at hshape
            cases hshape
          have hgrows := (makeWrite_ok hw).2.grows
          rw [TableColumn.eq_of_fields hgrows.columnDesc hgrows.nrow hcell
            hgrows.value]

-- ==================================================== what was read, written

/-- Data cut from a cell fit it, as no index is picked twice. -/
theorem not_tooSmall_of_clipped {cell dims : IPosition} {rank : Nat}
    (hrank : rank = cell.length + 1) (hdims : dims = sel.clipped cell)
    (hfits : sel.Fits cell)
    (hdistinct : ∀ d < cell.length, ∀ ids,
      sel.maybeFSpan d (cell.length + 1) = some ids → NoRepeat ids) :
    ¬ CellTooSmall sel rank cell dims := by
  intro hsmall
  obtain ⟨d, hd, size, hsize, hshort⟩ := hsmall
  rw [hrank] at hd hshort
  rw [Nat.add_sub_cancel] at hd
  have hgetD : cell.getD d 0 = size := by
    rw [List.getD_eq_getElem?_getD, hsize, Option.getD_some]
  unfold dimSelection at hshort
  cases hsel : sel.maybeFSpan d (cell.length + 1) with
  | some ids =>
      rw [hsel] at hshort
      have hids : ∀ i ∈ ids, i < (size : Int) := by
        intro i hi
        rw [← hgetD]
        exact hfits d hd ids hsel i hi
      have hcount := length_le_of_distinct (hdistinct d hd ids hsel)
        fun i hi => ⟨of_decide_eq_true (List.mem_filter.mp hi).2,
          hids i (List.mem_filter.mp hi).1⟩
      rw [← List.countP_eq_length_filter] at hcount
      have hmax := hids _
        (maxIndex_spec (Selection.maybeFSpan_ne_nil hsel)).1
      rcases hshort with hfew | hbeyond
      · exact absurd hfew (by dsimp only; omega)
      · exact absurd hbeyond (by dsimp only; omega)
  | none =>
      rw [hsel] at hshort
      have hclip := sel.clipped_getElem? hd
      rw [hsel] at hclip
      dsimp only at hclip
      rw [hdims, List.getD_eq_getElem?_getD, hclip, Option.getD_some,
        hgetD] at hshort
      exact Nat.lt_irrefl _ hshort

/-- `MakeWrite` accepts what was read, and changes nothing. -/
theorem ArrayRequest.makeWrite_ok (h : ArrayRequest col sel n)
    (hf : ReadFacts col sel rs n)
    {layout : ElementLayout col.columnDesc.dataType α β}
    {array : ArrowArray β} (hof : IsArrayOf layout sel rs array) :
    ResultShapeData.makeWrite col array sel = (.ok rs, col) := by
  have hrs := hf.consistent
  have hm := hf.isMatch
  have hg := h.gather
  have hrank : (rs.rank : Int) = rs.ndim :=
    Int.toNat_of_nonneg (by have := hrs.ndim_pos; omega)
  have hrows : 0 < rs.nRows := hf.nRows ▸ hg.rows_pos
  refine makeWrite_of_cells ⟨hg.limit, hof.inferred, ?_, ?_⟩ ?_ ?_ ?_ hrows ?_
  · have := hrs.ndim_pos
    omega
  · obtain ⟨cell, hcell, hlen⟩ := hg.cells 0 hg.rows_pos
    have hn := hf.rank
    rcases col.ndim_cell (cellOf_lt hcell).2.2 with hfree | hown
    · exact .inl hfree
    · exact .inr (by omega)
  · intro hs
    have hlen := hrs.fixed [] hs
    have := hrs.rank_pos
    rw [List.length_nil] at hlen
    omega
  · intro hspan
    have hlen : sel.getRowSpan.length = selectedRows sel col.nrow := by
      rw [selectedRows, if_pos hspan]
    have hin : ∀ r ∈ sel.getRowSpan, 0 ≤ r ∧ r < (col.nrow : Int) := by
      intro r hr
      obtain ⟨k, hk, rfl⟩ := List.mem_iff_getElem.mp hr
      obtain ⟨cell, hcell, -⟩ := hg.cells k (hlen ▸ hk)
      obtain ⟨hnn, hlt, -⟩ := cellOf_lt hcell
      rw [selectedRow, if_pos hspan, List.getD_eq_getElem _ _ hk] at hnn hlt
      exact ⟨hnn, hlt⟩
    exact ⟨hlen.trans hf.nRows.symm,
      length_le_of_distinct (hg.rows_distinct hspan) hin,
      fun r hr => (hin r hr).2⟩
  · intro k hk dim hdim ids hids
    exact hm.secondary k (lt_nDataRows hk) dim hdim ids hids
  · intro k hk
    obtain ⟨cell, hcell, hlen⟩ := hg.cells k (hf.nRows ▸ hk)
    have hn := hf.rank
    have hfits := hg.dims_within k (hf.nRows ▸ hk) cell hcell
    refine ⟨cell, readCell_of_cellOf hcell, by omega,
      not_tooSmall_of_clipped (by omega) (hf.ofCell k hk cell hcell).2 hfits
        fun d hd ids hids => ?_⟩
    rw [hlen] at hd hids
    exact (hg.dims_distinct d hd ids hids).1.filter _

/-- Strides are small where rows are. -/
theorem ResultShapeData.SmallRows.writeStrides (h : rs.SmallRows) :
    WriteStridesSmall sel rs := by
  intro k hk _ hsome
  obtain ⟨m, hbox, -⟩ := hsome
  refine ⟨fun d _ ids _ => .inr ?_, fun _ => .inr (h k hk)⟩
  have hdrop : 0 < ((rs.rowDims k).drop d).prod :=
    List.prod_pos fun size hsize =>
      hbox.pos_of_mem size (List.mem_of_mem_drop hsize)
  have hsplit := List.prod_take_mul_prod_drop (rs.rowDims k) d
  exact Nat.lt_of_le_of_lt (hsplit ▸ Nat.le_mul_of_pos_right _ hdrop) (h k hk)

section Back

variable (srt srt' : StdSort)
  (cast : LeafArray β → ArrowType → Result (LeafArray β)) (around : Memory β)
  (layout : ElementLayout col.columnDesc.dataType α β)

/-- Writing back the array of a request leaves the column as it is. -/
theorem ArrayRequest.write_back (h : ArrayRequest col sel n)
    (hdistinct : ∀ span ∈ sel.spans, NoRepeat span)
    (hread : ResultShapeData.makeRead col sel false = .ok rs)
    (hf : ReadFacts col sel rs n) {array : ArrowArray β}
    (hof : IsArrayOf layout sel rs array) :
    writeImpl srt cast around col layout array sel = (.ok (), col) := by
  have hrs := hf.consistent
  have hm := hf.isMatch
  obtain ⟨rs', p, hread', hp, -, hpart, -, hhas⟩ := h.gather.partition_ok srt
  cases hread.symm.trans hread'
  -- the write gets through, and scatters
  have hmoves : ∀ m ∈ movesOf p.dataChunks, col.Has m.2 := by
    intro m hmem
    have haddress := (movesOf_addresses_perm hpart).mem_iff.mp
      (List.mem_map_of_mem hmem)
    obtain ⟨m', hmem', heq⟩ := List.mem_map.mp haddress
    exact heq ▸ hhas m' hmem'
  obtain ⟨buffer, col', hput, hwrite⟩ := @isPut_of _ _ col sel rs srt cast layout
    array p col (h.makeWrite_ok hf hof) hp hof.ownType
    (by rw [hof.count, hpart.dtype, hf.dtype, hpart.nElements_eq hrs hm])
    (by rw [hpart.dtype, hf.dtype]; exact h.gather.supported) hmoves around
  have hscatters := hput.scatters ⟨hof.unsliced, hof.ownType, hdistinct⟩
    (h.smallRows hf).writeStrides
  rw [hwrite]
  refine congrArg (Prod.mk _) (TableColumn.eq_of_fields ?_ ?_ ?_ ?_)
  · rw [hput.result]
    rfl
  · rw [hput.result]
    rfl
  · exact hput.cellShape_eq
  · funext a
    obtain ⟨row, idx⟩ := a
    by_cases hhit : ∃ k < rs.nRows, selectedRow sel k = row ∧ ∃ m,
        InBox m (rs.rowDims k) ∧ sel.Picks m ∧ sel.diskIndex m = idx
    · obtain ⟨k, hk, hrow, m, hbox, hpicks, rfl⟩ := hhit
      have hk' : k < selectedRows sel col.nrow := hf.nRows ▸ hk
      obtain ⟨cell, hcell, -⟩ := h.gather.cells k hk'
      rw [(hf.ofCell k hk cell hcell).2] at hbox
      have hat := (hof.holds.element k hk' cell hcell m _).mpr ⟨hbox, rfl⟩
      have hplace := (hscatters.written k (by rw [hof.holds.length]; exact hk')
        (by omega) m _ hat hpicks).2
      rw [hrow, Int.toNat_natCast] at hplace
      exact hplace
    · refine hput.frame row idx fun k hk hrow m hbox hpicks heq => hhit ?_
      exact ⟨k, hk, hrow, m, hbox, hpicks, heq⟩

end Back

/-- Nests without an empty range have no size of zero. -/
theorem ArrayData.Uniform.pos_of_noEmptyList {data : ArrayData β}
    (hwf : data.WellFormed) (hfull : data.NoEmptyList) {a b : Nat}
    {sizes : IPosition} (hu : data.Uniform a b sizes) (hab : a < b)
    (hb : b ≤ data.length) : ∀ size ∈ sizes, 0 < size := by
  induction data generalizing a b sizes with
  | leaf slots =>
      intro size hsize
      rw [hu] at hsize
      cases hsize
  | list level child ih =>
      obtain ⟨first, rest, rfl, hall, hrest⟩ := hu
      have hb' : b ≤ level.length := hb
      have hpos : 0 < first := by
        rw [← hall a (Nat.le_refl a) hab]
        exact hfull.1 a (by omega)
      have hstep := ListArray.start_add_size hwf (i := a) (by omega)
      rw [hall a (Nat.le_refl a) hab] at hstep
      have hlast := ListArray.start_mono hwf (show a + 1 ≤ b from hab) hb'
      have hchild := ih hwf.2 hfull.2 hrest (by omega)
        (ListArray.start_le hwf hb')
      exact List.forall_mem_cons.mpr ⟨hpos, hchild⟩

/-- A layout, for a type known under another name. -/
def ElementLayout.cast {dtype dtype' : DataType} (h : dtype' = dtype)
    (layout : ElementLayout dtype α β) : ElementLayout dtype' α β :=
  h ▸ layout

theorem ElementLayout.cast_elementAt {dtype dtype' : DataType}
    (h : dtype' = dtype) (layout : ElementLayout dtype α β) {data : ArrayData β}
    {k : Nat} {m : List Nat} {x : α} :
    (layout.cast h).ElementAt data k m x ↔ layout.ElementAt data k m x := by
  cases h
  rfl

/-- A column keeps values as they are: of those in a Bool column, one
bit. -/
def Keeps [LeafValue β] (dtype : DataType) (values : List β) : Prop :=
  dtype = .tpBool → ∀ v ∈ values, LeafValue.isBit v = true

/-- Data that have a row for each row that is selected, no empty list, no
index that is negative, and values that the column keeps. -/
structure FullData [LeafValue β] (col : TableColumn α) (data : ArrowArray β)
    (sel : Selection) : Prop where
  rows_pos : 0 < data.data.length
  rows : sel.hasRowSpan = false → data.data.length = col.nrow
  noEmptyList : data.data.NoEmptyList
  nonneg : ∀ span ∈ sel.spans, ∀ i ∈ span, 0 ≤ i
  kept : Keeps col.columnDesc.dataType data.data.leafArray.slice

section PutThenGet

variable {srt : StdSort}
  {cast : LeafArray β → ArrowType → Result (LeafArray β)} {around : Memory β}
  {layout : ElementLayout col.columnDesc.dataType α β} {array : ArrowArray β}
  {p : DataPartition} {buffer : Memory β} {col₁ : TableColumn α}

theorem FullData.picks [LeafValue β] (h : FullData col array sel) (m : List Nat) :
    sel.Picks m := by
  intro d _ ids hids
  rcases Nat.lt_or_ge (m.getD d 0) ids.length with hlt | hge
  · rw [List.getD_eq_getElem _ _ hlt]
    exact h.nonneg ids (Selection.maybeFSpan_mem hids) _ (List.getElem_mem hlt)
  · rw [List.getD_eq_default _ _ hge]

theorem Selection.getRowSpan_mem (hspan : sel.hasRowSpan = true) :
    sel.getRowSpan ∈ sel.spans := by
  refine Selection.maybeFSpan_mem (d := 0) (n := 1) ?_
  have hrow := sel.maybeFSpan_row Nat.one_pos
  rwa [if_pos hspan] at hrow

theorem FullData.row_nonneg [LeafValue β] (h : FullData col array sel) (k : Nat) :
    0 ≤ selectedRow sel k := by
  unfold selectedRow
  by_cases hspan : sel.hasRowSpan = true
  · rw [if_pos hspan]
    rcases Nat.lt_or_ge k sel.getRowSpan.length with hlt | hge
    · rw [List.getD_eq_getElem _ _ hlt]
      exact h.nonneg _ (Selection.getRowSpan_mem hspan) _ (List.getElem_mem hlt)
    · rw [List.getD_eq_default _ _ hge]
  · rw [if_neg hspan]
    exact Int.natCast_nonneg k

/-- A column that can be written is of a size the code works with. -/
theorem writeAdmitted_of_makeWrite
    (h : ResultShapeData.makeWrite col array sel = (.ok rs, col')) :
    WriteAdmitted col array rs := by
  have hshape := makeWrite_shape h
  rcases @checkWrite_cases _ _ col sel rs array hshape with hok | hbad
  · exact hok.1
  · obtain ⟨-, e, -, he⟩ := hbad
    unfold ResultShapeData.makeWrite at h
    simp only [he] at h
    cases h

namespace IsPut

variable (h : IsPut srt cast around col layout array sel rs p buffer col₁ col')

include h

theorem columnDesc_eq : col'.columnDesc = col.columnDesc := by
  rw [h.result]
  exact h.planned.write.grows.columnDesc

theorem nrow_eq : col'.nrow = col.nrow := by
  rw [h.result]
  exact h.planned.write.grows.nrow

variable [LeafValue β] (hdata : FullData col array sel)

include hdata

/-- Every selected row has its data. -/
theorem selectedRows_eq : selectedRows sel col'.nrow = rs.nRows := by
  rw [selectedRows, h.nrow_eq]
  by_cases hspan : sel.hasRowSpan = true
  · rw [if_pos hspan]
    exact (h.planned.write.rowSpan hspan).1
  · rw [if_neg hspan, ← hdata.rows (by simpa using hspan)]
    exact h.length_eq

/-- Rows of the data have no empty dimension. -/
theorem positive {k : Nat} (hk : k < rs.nRows) : ∀ size ∈ rs.rowDims k,
    0 < size := by
  have hu := h.planned.shape.uniform array.wellFormed h.planned.consistent hk
  have hpos := hu.pos_of_noEmptyList array.wellFormed hdata.noEmptyList
    (Nat.lt_succ_self k) (by rw [h.length_eq]; exact hk)
  intro size hsize
  refine hpos size ?_
  unfold nestSizes
  exact List.mem_append_left _ (List.mem_reverse.mpr hsize)

/-- The cell a row was written to has the rank of the data, and room for
it. -/
theorem cell {k : Nat} (hk : k < rs.nRows) : ∃ cell,
    cellOf col' sel k = some cell ∧ cell.length = rs.rank - 1
      ∧ HasRoom sel rs.rank cell (rs.rowDims k) := by
  have hrs := h.planned.consistent
  have hdims := hrs.rowDims_length (.inl hk)
  have hnn := hdata.row_nonneg k
  -- the first element of the row has a place
  have hbox : InBox (List.replicate (rs.rank - 1) 0) (rs.rowDims k) := by
    refine List.forall₂_iff_get.mpr ⟨by simp [hdims], fun d h₁ h₂ => ?_⟩
    rw [List.get_eq_getElem, List.getElem_replicate]
    exact h.positive hdata hk _ (List.get_mem _ _)
  obtain ⟨-, shape, hshape, hin⟩ := h.placed hk hbox hnn (hdata.picks _)
  have hlen : shape.length = rs.rank - 1 := by
    rw [← hin.length_eq]
    simp [Selection.diskIndex]
  refine ⟨shape, ?_, hlen, ?_⟩
  · rw [cellOf, if_neg (by omega)]
    exact hshape
  · intro d hd
    have hin' : sel.hasRowSpan = true ∨ k < col.nrow := by
      by_cases hspan : sel.hasRowSpan = true
      · exact .inl hspan
      · refine .inr ?_
        rw [← hdata.rows (by simpa using hspan), h.length_eq]
        exact hk
    obtain ⟨cell, hcell, hroom⟩ :=
      h.planned.write.room (by omega) k hk hin' hnn
    rw [← h.cellShape_eq, hshape] at hcell
    cases hcell
    exact hroom d hd

/-- A row of the data is no larger than its cell, clipped. -/
theorem rowDims_le {k : Nat} (hk : k < rs.nRows) {cell : IPosition}
    (hcell : cellOf col' sel k = some cell) :
    List.Forall₂ (· ≤ ·) (rs.rowDims k) (sel.clipped cell) := by
  have hdims := h.planned.consistent.rowDims_length (.inl hk)
  obtain ⟨cell', hcell', hlen, hroom⟩ := h.cell hdata hk
  cases hcell.symm.trans hcell'
  refine List.forall₂_iff_get.mpr
    ⟨by rw [hdims, Selection.clipped_length, hlen], fun d h₁ h₂ => ?_⟩
  have hd : d < rs.rank - 1 := hdims ▸ h₁
  have hclip := sel.clipped_getElem? (hlen ▸ hd : d < cell.length)
  have hrank : cell.length + 1 = rs.rank := by omega
  obtain ⟨size, hsize, -, hle⟩ := hroom d hd
  rw [hrank, List.getElem?_eq_getElem h₂] at hclip
  rw [List.get_eq_getElem, List.get_eq_getElem, Option.some.inj hclip]
  cases hsel : sel.maybeFSpan d rs.rank with
  | some ids =>
      have hids := h.planned.isMatch.secondary k (.inl hk) d hd ids hsel
      rw [List.getElem?_eq_getElem h₁] at hids
      exact Nat.le_of_eq (Option.some.inj hids)
  | none =>
      have hdata' := hle hsel
      rw [List.getD_eq_getElem _ _ h₁] at hdata'
      show _ ≤ cell.getD d 0
      rwa [List.getD_eq_getElem?_getD, hsize, Option.getD_some]

/-- The request by which the data are read back. -/
theorem gatherRequest (hdistinct : ∀ span ∈ sel.spans, NoRepeat span) :
    GatherRequest col' sel (rs.rank - 1) := by
  have hrs := h.planned.consistent
  have hrows := h.selectedRows_eq hdata
  have hrank := hrs.rank_pos
  have hnodup : ∀ span ∈ sel.spans, span.Nodup := by
    intro span hspan
    have hall : span.filter (fun i => decide (0 ≤ i)) = span :=
      List.filter_eq_self.mpr fun i hi =>
        decide_eq_true (hdata.nonneg span hspan i hi)
    have := hdistinct span hspan
    rwa [NoRepeat, hall] at this
  constructor
  case limit =>
    rw [h.nrow_eq]
    exact (writeAdmitted_of_makeWrite h.planned.makeWrite).nrow
  case supported =>
    rw [h.columnDesc_eq, ← h.planned.shape.dtype, ← h.planned.partition.2.dtype]
    exact h.supported
  case rows_pos =>
    rw [hrows, ← h.length_eq]
    exact hdata.rows_pos
  case rows_distinct =>
    exact fun hspan => hnodup _ (Selection.getRowSpan_mem hspan)
  case cells =>
    intro k hk
    obtain ⟨cell, hcell, hlen, -⟩ := h.cell hdata (hrows ▸ hk)
    exact ⟨cell, hcell, hlen⟩
  case dims_distinct =>
    intro d _ ids hids
    have hmem := Selection.maybeFSpan_mem hids
    exact ⟨hnodup ids hmem, hdata.nonneg ids hmem⟩
  case dims_within =>
    intro k hk cell hcell d hd ids hids i hi
    obtain ⟨cell', hcell', hlen, hroom⟩ := h.cell hdata (hrows ▸ hk)
    cases hcell.symm.trans hcell'
    obtain ⟨size, hsize, hin, -⟩ := hroom d (by omega)
    rw [List.getD_eq_getElem?_getD, hsize, Option.getD_some]
    exact hin ids (by rw [show rs.rank = cell.length + 1 by omega]; exact hids) i hi

/-- The request for the array they are read back as. -/
theorem arrayRequest (hdistinct : ∀ span ∈ sel.spans, NoRepeat span)
    (hsmall : leafWidth col.columnDesc.dataType * requestedElements col' sel
      < 2 ^ 31) : ArrayRequest col' sel (rs.rank - 1) where
  gather := h.gatherRequest hdata hdistinct
  full := by
    intro k hk cell hcell hzero
    have hk' : k < rs.nRows := h.selectedRows_eq hdata ▸ hk
    obtain ⟨d, hd, heq⟩ := List.mem_iff_getElem.mp hzero
    have hle := h.rowDims_le hdata hk' hcell
    have hd' : d < (rs.rowDims k).length := hle.length_eq ▸ hd
    have hpos := h.positive hdata hk' _ (List.getElem_mem hd')
    have hget := List.Forall₂.get hle hd' hd
    rw [List.get_eq_getElem, List.get_eq_getElem, heq] at hget
    exact Nat.not_lt.mpr hget hpos
  small := by
    rw [h.columnDesc_eq]
    exact hsmall

/-- The rows of the data are small where those of the request are. -/
theorem smallRows (hsmall : leafWidth col.columnDesc.dataType
      * requestedElements col' sel < 2 ^ 31) : rs.SmallRows := by
  intro k hk
  obtain ⟨cell, hcell, -⟩ := h.cell hdata hk
  have hle := (h.rowDims_le hdata hk hcell).prod_le_prod'
  have hmem : (sel.clipped cell).prod
      ∈ (List.range (selectedRows sel col'.nrow)).map fun k =>
          (sel.clipped ((cellOf col' sel k).getD [])).prod := by
    refine List.mem_map.mpr ⟨k, List.mem_range.mpr ?_, ?_⟩
    · rw [h.selectedRows_eq hdata]
      exact hk
    · rw [hcell, Option.getD_some]
  have hsum := List.single_le_sum (fun _ _ => Nat.zero_le _) _ hmem
  have hwidth := Nat.le_mul_of_pos_left (requestedElements col' sel)
    (leafWidth_pos col.columnDesc.dataType)
  unfold requestedElements at hsmall hwidth
  omega

/-- The data are read back, every element at its own index. -/
theorem read_back (hreq : PutRequest col array sel)
    (hsmall : leafWidth col.columnDesc.dataType * requestedElements col' sel
      < 2 ^ 31) (srt' : StdSort) (nInstances : Nat)
    (unitStart : Option RowUnitStart) {configured : Option String}
    {strat : ConvertStrategy}
    (hstrat : getConvertStrategy configured = .ok strat)
    {schedule : List DataChunk → List DataChunk}
    (hschedule : ∀ chunks, (schedule chunks).Perm chunks) (emptyString : α)
    (allocated : Memory α)
    (hdtype : col'.columnDesc.dataType = col.columnDesc.dataType)
    (htext : TextFits (layout.cast hdtype) sel) :
    ∃ rs', ∃ back : ArrowArray β,
      ResultShapeData.makeRead col' sel false = .ok rs'
        ∧ ReadFacts col' sel rs' (rs.rank - 1)
        ∧ readImpl srt' nInstances unitStart configured schedule col'
            (layout.cast hdtype) emptyString sel allocated = .ok back.data
        ∧ IsArrayOf (layout.cast hdtype) sel rs' back
        ∧ (∃ buffer, makeArray configured rs'
            ((layout.cast hdtype).values buffer rs'.nElements) = .ok back.data)
        ∧ back.data.length = array.data.length
        ∧ ∀ k < array.data.length, ∀ m x, layout.ElementAt array.data k m x →
            layout.ElementAt back.data k m x := by
  have hrows := h.selectedRows_eq hdata
  obtain ⟨rs', back, hread, hf, hget, hof, hmade⟩ :=
    (h.arrayRequest hdata hreq.distinct hsmall).read srt' nInstances
      unitStart hstrat hschedule (layout.cast hdtype) htext emptyString allocated
  have hscatters := h.scatters hreq (h.smallRows hdata hsmall).writeStrides
  refine ⟨rs', back, hread, hf, hget, hof, hmade, ?_, fun k hk m x hx => ?_⟩
  · rw [hof.holds.length, hrows, h.length_eq]
  · have hk' : k < rs.nRows := h.length_eq ▸ hk
    obtain ⟨hbox, -⟩ := (h.elementAt_iff hk').mp hx
    obtain ⟨cell, hcell, hlen, -⟩ := h.cell hdata hk'
    obtain ⟨-, hvalue⟩ := hscatters.written k hk (hdata.row_nonneg k) m x hx
      (hdata.picks m)
    refine (layout.cast_elementAt hdtype).mp ((hof.holds.element k
      (hrows ▸ hk') cell hcell m x).mpr ⟨?_, hvalue.symm⟩)
    exact hbox.mono (h.rowDims_le hdata hk' hcell)

end IsPut

end PutThenGet

/-- Two rows of two elements. -/
def twoRows : TableColumn Nat := .ofShape "DATA" .tpInt [2] 2 fun _ => 0

end Arcae
