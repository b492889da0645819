/-
`NegateMissingSelectedRows` on a variably shaped column, row by row.

What it returns is read by `Make` as a plan: the row index of each row of
the result (`rowIds`) and the disk indices of each of its dimensions
(`dimIds`), from the selection and from the extents of the rows, where
there are any. Read so, the fitted request (`IsFitted`) says of each row
no more and no less than its own cell does: it is read if it has one, an
unselected dimension as far as both cell and result reach
(`IsFitted.dimIds_eq`), whether the extent came from the padded selection
or from the row's own entry, and wherever in the rows the extents began
to differ.

The other half of the claim is that the selection comes back as it was
where there is nothing to say: as long as no row is undefined and no cell
falls short, the loop never leaves its initial state but for a common
extent, which is the result's (`Untouched`).
-/
import Arcae.Proofs.ReadInto
import Arcae.Proofs.RowScan

namespace Arcae

open FOrder Loops

variable {α : Type} {col : TableColumn α} {sel sel' : Selection}
  {rs rs' : ResultShapeData} {resultShape : IPosition} {n : Nat}

-- =================================================== statement vocabulary

/-- A cell that reaches as far as the result wherever nothing is
selected. -/
def ReachesCell (sel : Selection) (resultShape shape : IPosition) : Prop :=
  ∀ d < resultShape.length,
    sel.maybeFSpan d (resultShape.length + 1) = none →
      resultShape.getD d 0 ≤ shape.getD d 0

-- ====================================================== nothing to negate

/-- The extent of a cell that reaches is all of the result. -/
theorem ReachesCell.cellExtent_eq {shape : IPosition}
    (h : ReachesCell sel resultShape shape) :
    cellExtent shape resultShape sel = resultShape := by
  have hlen : (cellExtent shape resultShape sel).length = resultShape.length := by
    simp [cellExtent]
  refine List.ext_getElem hlen fun d h₁ h₂ => ?_
  have hextent := @cellExtent_getD sel shape resultShape d h₂
  rw [List.getD_eq_getElem _ _ h₁, List.getD_eq_getElem _ _ h₂] at hextent
  rw [hextent]
  cases hsel : sel.maybeFSpan d (resultShape.length + 1) with
  | some ids => rfl
  | none =>
      have hle := h d h₂ hsel
      rw [List.getD_eq_getElem _ _ h₂] at hle
      exact Nat.min_eq_right hle

/-- The state of a loop that has changed nothing: at most it knows the
common extent, and that is the result's. -/
structure Untouched (rows : Index) (resultShape : IPosition)
    (st : NegateState) : Prop where
  rows : st.rows = rows
  rowsModified : st.rowsModified = false
  commonExtent : ∀ extent, st.commonExtent = some extent → extent = resultShape
  cellExtents : st.cellExtents = none

/-- Appending an extent to no extents changes nothing. -/
theorem Untouched.emplace {rows : Index} {st : NegateState}
    (h : Untouched rows resultShape st) (extent : IPosition) :
    st.emplace extent = st := by
  obtain ⟨rows', rowsModified, commonExtent, cellExtents⟩ := st
  have hnone : cellExtents = none := h.cellExtents
  rw [hnone]
  rfl

/-- Taking the result's own extent keeps the state untouched. -/
theorem Untouched.takeExtent {rows : Index} {st : NegateState}
    (h : Untouched rows resultShape st) (i : Nat) :
    Untouched rows resultShape (st.takeExtent i resultShape) := by
  unfold NegateState.takeExtent
  cases hcommon : st.commonExtent with
  | none =>
      refine ⟨h.rows, h.rowsModified, fun extent heq => ?_, h.cellExtents⟩
      exact (Option.some.inj heq).symm
  | some common =>
      have hsame : (resultShape != common) = false := by
        rw [h.commonExtent common hcommon]
        simp
      dsimp only
      rw [hsame, Bool.and_false]
      exact h

/-- A turn on a row that is defined or not asked for, and whose cell
reaches, keeps the state untouched. -/
theorem negateStep_untouched {rows : Index} {st st' : NegateState} {i : Nat}
    (h : Untouched rows resultShape st)
    (hrow : rows.getD i 0 = selectedRow sel i)
    (hdefined : 0 ≤ selectedRow sel i → cellOf col sel i ≠ none)
    (hreach : ∀ shape, cellOf col sel i = some shape →
      ReachesCell sel resultShape shape)
    (hstep : negateStep col resultShape sel st i = .ok st') :
    Untouched rows resultShape st' := by
  unfold negateStep at hstep
  dsimp only at hstep
  rw [h.rows, hrow] at hstep
  split at hstep
  · cases hstep
  · split at hstep
    · cases hstep
      rw [h.emplace]
      exact h
    · rename_i hneg
      have hcell : cellOf col sel i = col.cellShape (selectedRow sel i).toNat := by
        rw [cellOf, if_neg hneg]
      split at hstep
      · rename_i shape hshape
        obtain ⟨u, -, hstep⟩ := Result.bind_eq_ok.mp hstep
        cases hstep
        rw [(hreach shape (hcell.trans hshape)).cellExtent_eq,
          (h.takeExtent i).emplace]
        exact h.takeExtent i
      · rename_i hshape
        exact absurd (hcell.trans hshape) (hdefined (Int.not_lt.mp hneg))

/-- Where no row is undefined and no cell falls short, the selection
comes back as it was, and so does the shape. -/
theorem negateVarying_untouched
    (hdefined : ∀ k < rs.nRows, 0 ≤ selectedRow sel k →
      cellOf col sel k ≠ none)
    (hreach : ∀ k < rs.nRows, ∀ shape, cellOf col sel k = some shape →
      ReachesCell sel resultShape shape)
    (h : rs.negateVarying col sel resultShape = .ok (rs', sel')) :
    rs' = rs ∧ sel' = sel := by
  obtain ⟨rows, st, extent, hlen, hrows, -, hloop, hextent, rfl, rfl⟩ :=
    negateVarying_ok h
  have hinit : Untouched rows resultShape ⟨rows, false, none, none⟩ :=
    ⟨rfl, rfl, fun _ he => (by cases he), rfl⟩
  have hst := foldlM_range'_ok (P := fun _ => Untouched rows resultShape)
    (fun i s s' _ hi hP hf => negateStep_untouched hP
      (hrows i (by omega)) (hdefined i (by omega))
      (hreach i (by omega)) hf) hinit hloop
  have hall : extent = resultShape := by
    rw [hextent, hst.cellExtents, Option.elim_none]
    cases hcommon : st.commonExtent with
    | none => rfl
    | some common => exact hst.commonExtent common hcommon
  constructor
  · rw [hst.cellExtents, Option.none_or]
  · rw [hst.rowsModified, hall, if_pos (by simp)]

-- ========================================================= what is planned

/-- A row of a fitted result has a row index to read exactly if it has a
cell, and then its own. -/
theorem IsFitted.rowIds_iff (hfit : IsFitted col sel rs resultShape rs' sel')
    (hres : IsResult rs resultShape n) (hvar : col.columnDesc.fixedShape = none)
    {k : Nat} (hk : k < n) :
    (0 ≤ (rowIds sel' rs').getD k 0
        ↔ ∃ shape, cellOf col sel k = some shape)
      ∧ (0 ≤ (rowIds sel' rs').getD k 0 →
        (rowIds sel' rs').getD k 0 = selectedRow sel k) := by
  have hres' := hfit.isResult hres
  have hk' : k < rs'.nRows := by
    rw [hres'.nRows]
    exact hk
  have hkr : k < rs.nRows := by
    rw [hres.nRows]
    exact hk
  rw [rowIds_getD (hfit.consistent hres) hk']
  obtain ⟨-, hcell⟩ := hfit.varying hvar k hkr
  have hrow := hfit.rows k hkr
  refine ⟨⟨hcell, fun hx => ?_⟩, fun hnn => ?_⟩
  · obtain ⟨shape, hc⟩ := hx
    rcases hrow with hsame | ⟨-, hnone⟩
    · rw [hsame]
      exact (cellOf_lt hc).1
    · rw [hc] at hnone
      cases hnone
  · rcases hrow with hsame | ⟨hneg, -⟩
    · exact hsame
    · omega

/-- A fitted result has as many row indices as rows. -/
theorem IsFitted.rowIds_length (hfit : IsFitted col sel rs resultShape rs' sel')
    (hres : IsResult rs resultShape n) :
    (rowIds sel' rs').length = rs'.nRows := by
  have hres' := hfit.isResult hres
  rw [rowIds, Selection.selected,
    Selection.maybeFSpan_row sel' (hfit.consistent hres).rank_pos]
  split
  · rename_i hspan
    rw [Option.getD_some, hfit.rows_count hspan, hres.nRows, hres'.nRows]
  · rw [Option.getD_none, monotonicIds_length]

/-- `NegateMissingSelectedRows` encodes the extents of the rows exactly:
in what it returns, read as `Make` reads it, a row has a row index if and
only if the row asked for exists and is defined, and then that one; in
each dimension that is not selected such a row reads the leading indices
that its own cell and the result both have; dimensions that are selected
keep their indices; and if no row is undefined and no cell falls short of
the result, the selection is returned as it was. -/
theorem negate_exact (hvar : col.columnDesc.fixedShape = none)
    (hres : IsResult rs resultShape n) (hext : rs.cellExtents = none)
    (h : rs.negateMissingSelectedRows col sel = .ok (rs', sel')) :
    (∀ k < n,
        (0 ≤ (rowIds sel' rs').getD k 0
          ↔ ∃ shape, cellOf col sel k = some shape)
        ∧ (0 ≤ (rowIds sel' rs').getD k 0 →
          (rowIds sel' rs').getD k 0 = selectedRow sel k)
        ∧ ∀ shape, cellOf col sel k = some shape →
          ∀ d < resultShape.length,
            dimIds sel' rs' k d
              = match sel.maybeFSpan d (resultShape.length + 1) with
                | some ids => ids
                | none => paddedIds (resultShape.getD d 0)
                    (min (shape.getD d 0) (resultShape.getD d 0)))
      ∧ (∀ d < resultShape.length, ∀ ids,
        sel.maybeFSpan d (resultShape.length + 1) = some ids →
          sel'.maybeFSpan d (resultShape.length + 1) = some ids)
      ∧ ((∀ k < n, 0 ≤ selectedRow sel k → cellOf col sel k ≠ none) →
        (∀ k < n, ∀ shape, cellOf col sel k = some shape →
          ReachesCell sel resultShape shape) →
        rs' = rs ∧ sel' = sel)
      ∧ ∀ srt opt p, DataPartition.make srt sel' rs' opt = .ok p →
        (p.dataChunks.flatMap DataChunk.transfers).Perm (plan sel' rs') := by
  have hvarying : rs.negateVarying col sel resultShape = .ok (rs', sel') := by
    unfold ResultShapeData.negateMissingSelectedRows at h
    rw [hres.shape] at h
    simp only [hvar, List.dropLast_concat] at h
    exact h
  have hfit := negateVarying_fitted hext hvarying
  have hres' := hfit.isResult hres
  refine ⟨fun k hk => ?_, fun d hd ids hids => ?_, fun hdefined hreach => ?_,
    fun srt opt p hp => ?_⟩
  · obtain ⟨hiff, hown⟩ := hfit.rowIds_iff hres hvar hk
    refine ⟨hiff, hown, fun shape hc d hd => ?_⟩
    have hkr : k < rs.nRows := by
      rw [hres.nRows]
      exact hk
    -- the cell of the row bears out the sizes of the selection
    have hm := hfit.isMatch hres (hfit.cells k hkr shape hc).sizes
    exact hfit.dimIds_eq hres hm hkr hc hd
  · have hselected := (hfit.selected hres hd).1 ids hids
    rw [Selection.selected, hres'.rank] at hselected
    exact hselected
  · rw [← hres.nRows] at hdefined hreach
    exact negateVarying_untouched hdefined hreach hvarying
  · exact (partitions_of_rows (hfit.consistent hres) (hfit.rowIds_length hres)
      hp).2.transfers

/-- Two result rows of four elements, more than the cells have. -/
def wideShape : ResultShapeData where
  columnName := "DATA"
  shape := some [4, 2]
  ndim := 2
  dtype := .tpInt
  rowShapes := none
  cellExtents := none

/-- A row of a cell of three elements, and a row without a cell. -/
def cellAndGap : Selection := ⟨[[1, 2]]⟩

theorem negate_exact_sample : ∃ rs' sel',
    wideShape.negateMissingSelectedRows gappyColumn cellAndGap
        = .ok (rs', sel')
      ∧ dimIds sel' rs' 0 0 = [0, 1, 2, -1]
      ∧ 0 ≤ (rowIds sel' rs').getD 0 0 ∧ ¬ 0 ≤ (rowIds sel' rs').getD 1 0 := by
  have hres : IsResult wideShape [4] 2 := ⟨rfl, rfl⟩
  obtain ⟨rs', sel', hneg⟩ : ∃ rs' sel',
      wideShape.negateMissingSelectedRows gappyColumn cellAndGap
        = .ok (rs', sel') := ⟨_, _, rfl⟩
  obtain ⟨hrows, -⟩ := @negate_exact Nat gappyColumn cellAndGap sel' wideShape
    rs' [4] 2 rfl hres rfl hneg
  have hcell : cellOf gappyColumn cellAndGap 0 = some [3] := by decide
  have hgap : cellOf gappyColumn cellAndGap 1 = none := by decide
  obtain ⟨hread, -, hdims⟩ := hrows 0 (by decide)
  obtain ⟨hunread, -⟩ := hrows 1 (by decide)
  refine ⟨rs', sel', hneg, hdims [3] hcell 0 (by decide),
    hread.mpr ⟨[3], hcell⟩, fun hnn => ?_⟩
  obtain ⟨shape, hc⟩ := hunread.mp hnn
  rw [hgap] at hc
  cases hc

end Arcae
