/-
Where a read into a result slips.

The result is read into over a selection that was fitted to the cells,
and in the chunks that this selection is cut into. Whether one of them is
put at a wrapped offset can be said of the request (`ReadsInPlace`): of
the indices it selects, of the sizes of the result and of the rows that
have cells.

The rows are where chunks start that the request does not name. If the
cells reach differently far into the result they are planned one by one,
and only the first one starts at the first. Otherwise they are planned
together, so that a chunk starts at the first row if that one has a cell
and no piece ends inside the rows that have (`IsFitted.readIds_eq`).
-/
import Arcae.Proofs.Fill
import Arcae.Proofs.ReadInto

namespace Arcae

open FOrder Loops

variable {α : Type} {col : TableColumn α} {sel sel' : Selection}
  {rs rs' : ResultShapeData} {dims : IPosition} {n : Nat}
  {nInstances : Nat} {unitStart : Option RowUnitStart} {p : DataPartition}

-- ============================================================== conditions

/-- A row of the result is read into. -/
def RowOverwritten (col : TableColumn α) (sel : Selection)
    (rs : ResultShapeData) (k : Nat) : Prop :=
  ∃ m, InBox m (rs.rowDims k) ∧ Overwritten col sel k m

/-- The rows that have cells, in the order in which they are read. -/
def cellRows (col : TableColumn α) (sel : Selection) (nrows : Nat) : Index :=
  (((List.range nrows).filter fun k => (cellOf col sel k).isSome).map
    (selectedRow sel)).mergeSort fun i j => decide (i ≤ j)

/-- Where the pieces end that these rows are read in, each of which is
worth a piece. -/
def cellPieceEnds (nInstances : Nat) (unitStart : Option RowUnitStart)
    (col : TableColumn α) (sel : Selection) (nrows : Nat) : List Nat :=
  let rows := cellRows col sel nrows
  pieceEnds rows.length (min nInstances rows.length)
    (fun position => rows.getD position 0) unitStart

/-- What is read is put in its place. A row that is read starts each
dimension that is selected with its run of indices, or has a stride there
that an `int` can hold; and the rows have sizes an `int` can hold, or none
is read but the first, or the first has a cell and all that have are read
in one piece. -/
structure ReadsInPlace (nInstances : Nat) (unitStart : Option RowUnitStart)
    (col : TableColumn α) (sel : Selection) (rs : ResultShapeData) : Prop where
  dims : ∀ k < rs.nRows, RowOverwritten col sel rs k → ∀ d < rs.rank - 1,
    ∀ ids, sel.maybeFSpan d rs.rank = some ids →
      (0 ≤ ids.headD 0 ∧ Gapless ids)
        ∨ ((rs.rowDims k).take d).prod < 2 ^ 31
  rows : (rs.rowDims 0).prod < 2 ^ 31
    ∨ ∀ k < rs.nRows, RowOverwritten col sel rs k → k = 0
      ∨ (cellOf col sel 0).isSome = true
        ∧ ¬ ExtentsDiffer col sel (rs.rowDims 0) rs.nRows
        ∧ (cellPieceEnds nInstances unitStart col sel rs.nRows).length ≤ 1

-- ================================================================ the rows

section Fitted

variable (hfit : IsFitted col sel rs dims rs' sel')
  (hres : IsResult rs dims n) (hm : sel'.Matches rs')
  (hover : ∀ k < rs.nRows, ∀ m, InBox m (rs.rowDims k) →
    (ElementLive sel' rs' k m ↔ Overwritten col sel k m))

include hfit hres hm hover

/-- The rows that are live are those that are read into. -/
theorem IsFitted.rowLive_iff {k : Nat} (hk : k < rs.nRows) :
    RowLive sel' rs' k ↔ RowOverwritten col sel rs k := by
  have hres' := hfit.isResult hres
  have hk' : k < rs'.nRows := by
    rw [hres'.nRows, ← hres.nRows]
    exact hk
  have hdims : rs'.rowDims k = rs.rowDims k :=
    (hres'.rowDims k).trans (hres.rowDims k).symm
  rw [rowLive_iff_element (hfit.consistent hres) hm hk', hdims]
  exact exists_congr fun m => and_congr_right fun hbox => hover k hk m hbox

omit hm hover in
/-- A row with a cell is read from where it was asked for. -/
theorem IsFitted.row_of_cell {k : Nat} (hk : k < rs.nRows)
    (hcell : (cellOf col sel k).isSome = true) :
    (rowIds sel' rs').getD k 0 = selectedRow sel k
      ∧ 0 ≤ selectedRow sel k := by
  have hres' := hfit.isResult hres
  obtain ⟨shape, hc⟩ := Option.isSome_iff_exists.mp hcell
  have hrow : selectedRow sel' k = selectedRow sel k := by
    refine (hfit.rows k hk).resolve_right fun hmissing => ?_
    rw [hmissing.2] at hc
    cases hc
  rw [rowIds_getD (hfit.consistent hres)
    (by rw [hres'.nRows, ← hres.nRows]; exact hk), hrow]
  exact ⟨rfl, (cellOf_lt hc).1⟩

/-- Planned together, the rows that exist are those with a cell, if any of
them is read. -/
theorem IsFitted.cell_iff (hplain : rs'.IsPlain) {k k' : Nat}
    (hlive : RowLive sel' rs' k) (hk' : k' < rs.nRows) :
    0 ≤ (rowIds sel' rs').getD k' 0 ↔ (cellOf col sel k').isSome = true := by
  constructor
  · intro hnn
    obtain ⟨m, -, shape, hc, -⟩ := (hfit.rowLive_iff hres hm hover hk').mp
      (hlive.of_plain hplain hnn)
    rw [hc]
    rfl
  · intro hcell
    obtain ⟨hrow, hnn⟩ := hfit.row_of_cell hres hk' hcell
    rw [hrow]
    exact hnn

/-- They are read in the order of the rows asked for. -/
theorem IsFitted.readIds_eq (hplain : rs'.IsPlain) {k : Nat}
    (hlive : RowLive sel' rs' k) :
    readIds sel' rs' = cellRows col sel rs.nRows := by
  have hrs' := hfit.consistent hres
  have hnRows : rs'.nRows = rs.nRows :=
    (hfit.isResult hres).nRows.trans hres.nRows.symm
  have hrow : ∀ k' < rs.nRows, selectedRow sel' k'
      = (rowIds sel' rs').getD k' 0 :=
    fun k' hk' => (rowIds_getD hrs' (by omega)).symm
  have hcells : (List.range rs.nRows).filter
        ((fun i : Int => decide (0 ≤ i)) ∘ selectedRow sel')
      = (List.range rs.nRows).filter fun k' => (cellOf col sel k').isSome := by
    refine List.filter_congr fun k' hk' => ?_
    have hk' := List.mem_range.mp hk'
    rw [Function.comp_apply, hrow k' hk', Bool.eq_iff_iff, decide_eq_true_iff]
    exact hfit.cell_iff hres hm hover hplain hlive hk'
  rw [readIds, cellRows, rowIds_eq hrs' hm, hnRows, List.filter_map, hcells]
  refine congrArg (fun ids : Index => ids.mergeSort fun i j => decide (i ≤ j))
    (List.map_congr_left fun k' hk' => ?_)
  obtain ⟨hk', hcell⟩ := List.mem_filter.mp hk'
  rw [hrow k' (List.mem_range.mp hk')]
  exact (hfit.row_of_cell hres (List.mem_range.mp hk') hcell).1

-- ============================================================== the strides

/-- Strides fit where the dimensions that are selected are not cut, or
have small strides. -/
theorem IsFitted.stridesFit_iff :
    StridesFit sel' rs' ↔ ∀ k < rs.nRows, RowOverwritten col sel rs k →
      ∀ d < rs.rank - 1, ∀ ids, sel.maybeFSpan d rs.rank = some ids →
        (0 ≤ ids.headD 0 ∧ Gapless ids)
          ∨ ((rs.rowDims k).take d).prod < 2 ^ 31 := by
  have hres' := hfit.isResult hres
  have hnRows : rs'.nRows = rs.nRows := hres'.nRows.trans hres.nRows.symm
  have hrank : rs'.rank = rs.rank := hres'.rank.trans hres.rank.symm
  unfold StridesFit
  rw [hnRows, hrank]
  refine forall₂_congr fun k hk => ?_
  rw [hfit.rowLive_iff hres hm hover hk, hres'.rowDims, ← hres.rowDims k]
  refine forall_congr' fun hread => forall₂_congr fun d hd => ?_
  have hlive := ((hfit.rowLive_iff hres hm hover hk).mpr hread).2 d
    (by rw [hrank]; exact hd)
  -- a row that is read has a cell
  obtain ⟨m, -, shape, hc, -⟩ := hread
  have hids := hfit.dimIds_eq hres hm hk hc (d := d)
    (by rw [hres.rank] at hd; exact hd)
  rw [← hres.rank] at hids
  rw [hids] at hlive ⊢
  cases hsel : sel.maybeFSpan d rs.rank with
  | none =>
      exact iff_of_true (.inl (anchored_paddedIds _ _)) fun ids h => by cases h
  | some ids =>
      rw [hsel] at hlive
      dsimp only at hlive ⊢
      rw [anchored_iff hlive]
      refine ⟨fun h ids' heq => ?_, fun h => h ids rfl⟩
      cases heq
      exact h

-- ================================================================ the rows

/-- Large rows are in their places exactly if none is read but the first,
or they are planned together and read in one piece with it. -/
theorem IsFitted.rowsAnchored_iff
    (hpart : p.Partitions sel' rs' (readSplit nInstances unitStart))
    (hbig : 2 ^ 31 ≤ (rs.rowDims 0).prod) :
    p.RowsAnchored ↔ ∀ k < rs.nRows, RowOverwritten col sel rs k → k = 0
      ∨ (cellOf col sel 0).isSome = true
        ∧ ¬ ExtentsDiffer col sel (rs.rowDims 0) rs.nRows
        ∧ (cellPieceEnds nInstances unitStart col sel rs.nRows).length ≤ 1 := by
  have hrs' := hfit.consistent hres
  have hres' := hfit.isResult hres
  have hnRows : rs'.nRows = rs.nRows := hres'.nRows.trans hres.nRows.symm
  have hfixed : rs'.isFixed = true := by
    rw [ResultShapeData.isFixed, hres'.shape]
    rfl
  have hextents := hfit.cellExtents_iff
  rw [← hres.rowDims 0] at hextents
  by_cases hplain : rs'.IsPlain
  case neg =>
    have hdiffer : ExtentsDiffer col sel (rs.rowDims 0) rs.nRows := by
      by_contra hsame
      exact hplain ⟨hfixed, hextents.mpr hsame⟩
    rw [rowsAnchored_iff_alone hpart hplain, hnRows]
    refine forall₂_congr fun k hk => ?_
    rw [hfit.rowLive_iff hres hm hover hk]
    refine forall_congr' fun _ => ⟨.inl, fun h => h.resolve_right fun hx => ?_⟩
    exact hx.2.1 hdiffer
  have hsame := hextents.mp hplain.2
  have hbytes : 0 < minSplitBytes ∧ minSplitBytes ≤ 2 ^ 31 := by decide
  have hdims : rs'.rowDims 0 = rs.rowDims 0 :=
    (hres'.rowDims 0).trans (hres.rowDims 0).symm
  rw [rowsAnchored_iff_ends hrs' hm hpart hplain hbytes.1
    (by rw [hdims]; exact Nat.le_trans hbytes.2 hbig), hnRows]
  -- the pieces of the rows that have cells
  have hends : ∀ k < rs.nRows, RowLive sel' rs' k →
      ((pieceEnds (rowsRead sel' rs') (min nInstances (rowsRead sel' rs'))
        (fun position => (readIds sel' rs').getD position 0)
        (readSplit nInstances unitStart).unitStart).length ≤ 1
      ↔ (cellPieceEnds nInstances unitStart col sel rs.nRows).length ≤ 1) := by
    intro k _ hlive
    rw [one_end_iff, ← readIds_length,
      hfit.readIds_eq hres hm hover hplain hlive]
    rfl
  constructor
  · intro hanch k hk hread
    have hlive := (hfit.rowLive_iff hres hm hover hk).mpr hread
    obtain ⟨hhead, hlen⟩ := hanch k hk hlive
    rw [List.headD_eq_getD] at hhead
    exact .inr ⟨(hfit.cell_iff hres hm hover hplain hlive (by omega)).mp hhead,
      hsame, (hends k hk hlive).mp hlen⟩
  · intro hplace k hk hlive
    rw [List.headD_eq_getD]
    -- another row than the first is read, or no other
    by_cases hother : ∃ k' < rs.nRows, RowLive sel' rs' k' ∧ k' ≠ 0
    · obtain ⟨k', hk', hlive', hne⟩ := hother
      obtain ⟨hcell, -, hlen⟩ := (hplace k' hk'
        ((hfit.rowLive_iff hres hm hover hk').mp hlive')).resolve_left hne
      exact ⟨(hfit.cell_iff hres hm hover hplain hlive (by omega)).mpr hcell,
        (hends k hk hlive).mpr hlen⟩
    · have honly : ∀ k' < rs.nRows, RowLive sel' rs' k' → k' = 0 := by
        intro k' hk' hlive'
        by_contra hne
        exact hother ⟨k', hk', hlive', hne⟩
      obtain rfl := honly k hk hlive
      refine ⟨hlive.1, ?_⟩
      have hone : rowsRead sel' rs' ≤ 1 := by
        refine rowsRead_le_one fun k' hk' hnn => ?_
        rw [hm.rowIds_length, hnRows] at hk'
        exact honly k' hk' (hlive.of_plain hplain hnn)
      exact Nat.le_of_eq (pieceEnds_length_of_few
        (Nat.le_trans (Nat.min_le_right _ _) hone) _ _)

-- =============================================================== no slip

/-- No chunk slips exactly if what is read is put in its place. -/
theorem IsFitted.no_slip_iff
    (hpart : p.Partitions sel' rs' (readSplit nInstances unitStart)) :
    (∀ c ∈ p.dataChunks, ∀ t ∈ c.transfers, t.live = true → c.slip rs' = 0)
      ↔ ReadsInPlace nInstances unitStart col sel rs := by
  have hres' := hfit.isResult hres
  have hfixed : rs'.isFixed = true := by
    rw [ResultShapeData.isFixed, hres'.shape]
    rfl
  have hdims : rs'.rowDims 0 = rs.rowDims 0 :=
    (hres'.rowDims 0).trans (hres.rowDims 0).symm
  have hrows : (rs'.isFixed = true →
        p.RowsAnchored ∨ (rs'.rowDims 0).prod < 2 ^ 31)
      ↔ ((rs.rowDims 0).prod < 2 ^ 31
        ∨ ∀ k < rs.nRows, RowOverwritten col sel rs k → k = 0
          ∨ (cellOf col sel 0).isSome = true
            ∧ ¬ ExtentsDiffer col sel (rs.rowDims 0) rs.nRows
            ∧ (cellPieceEnds nInstances unitStart col sel rs.nRows).length
              ≤ 1) := by
    rw [hdims, imp_iff_right hfixed, or_comm]
    refine or_congr_right' fun hbig => ?_
    exact hfit.rowsAnchored_iff hres hm hover hpart (Nat.le_of_not_lt hbig)
  rw [Arcae.no_slip_iff (hfit.consistent hres) hpart,
    hfit.stridesFit_iff hres hm hover, hrows]
  exact ⟨fun h => ⟨h.1, h.2⟩, fun h => ⟨h.dims, h.rows⟩⟩

end Fitted

end Arcae
