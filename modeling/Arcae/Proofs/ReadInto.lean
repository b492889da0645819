/-
`getcol` into a supplied result: what is overwritten, and with what.

A fitted request is one that `Make` accepts (`IsFitted.consistent`,
`IsFitted.matches`), and its plan has an element on disk exactly where
the caller would say so: in a row with a cell, at indices that are not
negative where they are selected and within the cell where they are not
(`Overwritten`). So the read writes those elements and keeps the others
(`getcol_into_result`), whichever way the request was fitted.
-/
import Arcae.Proofs.Fit
import Arcae.Proofs.Coverage
import Arcae.Proofs.Instances
import Arcae.Proofs.ArrowShape

namespace Arcae

open FOrder Loops

variable {α β : Type} {col : TableColumn α} {sel : Selection}

/-- A result element is read: its row has a cell, its index is not
negative in a dimension that is selected, and within the cell in one
that is not. -/
def Overwritten (col : TableColumn α) (sel : Selection) (k : Nat)
    (m : List Nat) : Prop :=
  ∃ shape, cellOf col sel k = some shape ∧ ∀ d < m.length,
    match sel.maybeFSpan d (m.length + 1) with
    | some ids => 0 ≤ ids.getD (m.getD d 0) 0
    | none => m.getD d 0 < shape.getD d 0

-- ==================================================== a fitted request

section Fitted

variable {rs rs' : ResultShapeData} {sel' : Selection} {resultShape : IPosition}
  {n : Nat}

/-- A fixed result: its sizes, rows last. -/
structure IsResult (rs : ResultShapeData) (resultShape : IPosition) (n : Nat) :
    Prop where
  shape : rs.shape = some (resultShape ++ [n])
  ndim : rs.ndim = resultShape.length + 1

namespace IsResult

variable (h : IsResult rs resultShape n)

include h

theorem rank : rs.rank = resultShape.length + 1 := by
  have := h.ndim
  unfold ResultShapeData.rank
  omega

theorem nRows : rs.nRows = n := by
  simp only [ResultShapeData.nRows, h.shape, List.getLastD_concat]

theorem rowDims (k : Nat) : rs.rowDims k = resultShape := by
  simp only [ResultShapeData.rowDims, h.shape, h.rank]
  rw [Nat.add_sub_cancel, List.take_left]

end IsResult

variable (hfit : IsFitted col sel rs resultShape rs' sel')
  (hres : IsResult rs resultShape n)

include hfit hres

/-- Fitting keeps the sizes. -/
theorem IsFitted.isResult : IsResult rs' resultShape n := by
  rw [hfit.eq]
  exact ⟨hres.shape, hres.ndim⟩

theorem IsFitted.consistent : rs'.Consistent := by
  have hres' := hfit.isResult hres
  refine ⟨?_, fun shape hs => ?_, fun hs => ?_, fun es hes => ?_⟩
  · rw [hres'.ndim]
    omega
  · rw [hres'.shape] at hs
    cases hs
    rw [hres'.rank, List.length_append, List.length_singleton]
  · rw [hres'.shape] at hs
    cases hs
  · obtain ⟨hlen, hall, -⟩ := hfit.extents es hes
    refine ⟨by simp [ResultShapeData.isFixed, hres'.shape], ?_, fun e he => ?_⟩
    · rw [hlen, hres.nRows, hres'.nRows]
    · rw [(hall e he).rank, hres'.rank, Nat.add_sub_cancel]

/-- A fitted selection in a dimension, from the one that was fitted. -/
theorem IsFitted.selected {d : Nat} (hd : d < resultShape.length) :
    (∀ ids, sel.maybeFSpan d (resultShape.length + 1) = some ids →
        sel'.selected rs' d = some ids)
      ∧ (sel.maybeFSpan d (resultShape.length + 1) = none →
        sel'.selected rs' d = none ∨ ∃ extent < resultShape.getD d 0,
          sel'.selected rs' d
            = some (paddedIds (resultShape.getD d 0) extent)) := by
  obtain ⟨extent, hdims, -⟩ := hfit.dims
  rw [Selection.selected, (hfit.isResult hres).rank, hdims d hd]
  refine ⟨fun ids hids => by rw [hids], fun hnone => ?_⟩
  rw [hnone]
  dsimp only
  by_cases hlt : extent.getD d 0 < resultShape.getD d 0
  · exact .inr ⟨_, hlt, if_pos hlt⟩
  · exact .inl (if_neg hlt)

theorem IsFitted.isMatch
    (hsizes : ∀ d < resultShape.length, ∀ ids,
      sel.maybeFSpan d (resultShape.length + 1) = some ids →
        ids.length = resultShape.getD d 0) : sel'.Matches rs' := by
  have hres' := hfit.isResult hres
  refine ⟨fun ids hids => ?_, fun row _ d hd ids hids => ?_,
    fun row d hpad => ?_⟩
  · rw [Selection.selected,
      Selection.maybeFSpan_row sel' (hfit.consistent hres).rank_pos] at hids
    split at hids
    · rename_i hspan
      cases hids
      rw [hfit.rows_count hspan, hres.nRows, hres'.nRows]
    · cases hids
  · rw [hres'.rank, Nat.add_sub_cancel] at hd
    obtain ⟨hsome, hnone⟩ := hfit.selected hres hd
    have hlen : ids.length = resultShape.getD d 0 := by
      cases hsel : sel.maybeFSpan d (resultShape.length + 1) with
      | some ids' =>
          have := hsome ids' hsel
          rw [hids] at this
          cases this
          exact hsizes d hd ids hsel
      | none =>
          rcases hnone hsel with h | ⟨extent, hlt, h⟩
          · rw [h] at hids
            cases hids
          · rw [h] at hids
            cases hids
            rw [paddedIds, List.length_append, monotonicIds_length,
              List.length_replicate]
            omega
    rw [hres'.rowDims, List.getElem?_eq_getElem hd, hlen,
      List.getD_eq_getElem _ _ hd]
  · -- only rows with extents are padded beside the selection
    obtain ⟨e, hext, hlt⟩ := hpad
    rw [hres'.rowDims] at hlt
    have hd : d < resultShape.length := by
      by_contra hge
      rw [List.getD_eq_default _ _ (by omega)] at hlt
      omega
    cases hes : rs'.cellExtents with
    | none =>
        rw [ResultShapeData.extent, hes] at hext
        cases hext
    | some es =>
        rw [ResultShapeData.extent, hes] at hext
        dsimp only at hext
        obtain ⟨-, hall, -⟩ := hfit.extents es hes
        have hmem : es.getD row [] ∈ es := by
          by_cases hrow : row < es.length
          · rw [List.getD_eq_getElem _ _ hrow]
            exact List.getElem_mem hrow
          · rw [List.getD_eq_default _ _ (by omega)] at hext
            cases hext
        have hget : (es.getD row []).getD d 0 = e := by
          rw [List.getD_eq_getElem?_getD, hext, Option.getD_some]
        obtain ⟨extent, hdims, hresult, -⟩ := hfit.dims
        rw [Selection.selected, hres'.rank, hdims d hd, hresult es hes]
        cases hsel : sel.maybeFSpan d (resultShape.length + 1) with
        | some ids =>
            have := (hall _ hmem).selected d hd ids hsel
            omega
        | none => simp

/-- The disk indices of a dimension of a row with a cell: the selected
ones, or those of the cell as far as it reaches. -/
theorem IsFitted.dimIds_eq
    (hm : sel'.Matches rs') {k : Nat} (hk : k < rs.nRows) {shape : IPosition}
    (hc : cellOf col sel k = some shape) {d : Nat}
    (hd : d < resultShape.length) :
    dimIds sel' rs' k d
      = match sel.maybeFSpan d (resultShape.length + 1) with
        | some ids => ids
        | none => paddedIds (resultShape.getD d 0)
            (min (shape.getD d 0) (resultShape.getD d 0)) := by
  have hres' := hfit.isResult hres
  cases hsel : sel.maybeFSpan d (resultShape.length + 1) with
  | some ids => exact dimIds_selected hm ((hfit.selected hres hd).1 ids hsel)
  | none =>
      obtain ⟨extent, hdims, hresult, hcommon⟩ := hfit.dims
      have hselected : sel'.selected rs' d
          = if extent.getD d 0 < resultShape.getD d 0 then
              some (paddedIds (resultShape.getD d 0) (extent.getD d 0))
            else none := by
        rw [Selection.selected, hres'.rank, hdims d hd, hsel]
      have hcell : (cellExtent shape resultShape sel).getD d 0
          = min (shape.getD d 0) (resultShape.getD d 0) := by
        rw [cellExtent_getD hd, hsel]
      -- an extent that is not less than the result pads nothing
      have hall : ∀ {m : Nat}, ¬ min m (resultShape.getD d 0)
            < resultShape.getD d 0 →
          monotonicIds (resultShape.getD d 0)
            = paddedIds (resultShape.getD d 0) (min m (resultShape.getD d 0)) :=
        fun hge => (paddedIds_of_le (by omega)).symm
      unfold dimIds
      rw [hres'.rowDims, hselected]
      dsimp only
      cases hes : rs'.cellExtents with
      | none =>
          have hext : rs'.extent k d = none := by
            rw [ResultShapeData.extent, hes]
          rw [hext, hcommon hes k hk shape hc, hcell]
          dsimp only
          split
          · rw [Option.getD_some]
          · rename_i hge
            rw [Option.getD_none]
            exact hall hge
      | some es =>
          obtain ⟨-, -, hcells⟩ := hfit.extents es hes
          have hget : es.getD k [] = cellExtent shape resultShape sel := by
            rw [List.getD_eq_getElem?_getD, hcells k hk shape hc,
              Option.getD_some]
          have hlt : d < (cellExtent shape resultShape sel).length := by
            simpa [cellExtent] using hd
          have hext : rs'.extent k d
              = some (min (shape.getD d 0) (resultShape.getD d 0)) := by
            rw [← hcell, ResultShapeData.extent, hes]
            dsimp only
            rw [hget, List.getElem?_eq_getElem hlt, List.getD_eq_getElem _ _ hlt]
          rw [hext, hresult es hes, if_neg (Nat.lt_irrefl _), Option.getD_none]
          dsimp only
          split
          · rfl
          · rename_i hge
            exact hall hge

/-- Where a row of the result has a cell, the element of the plan is on
disk exactly where it is to be overwritten, and at the index asked
for. -/
theorem IsFitted.elementLive_iff (hm : sel'.Matches rs') {k : Nat}
    (hk : k < rs.nRows) {shape : IPosition}
    (hc : cellOf col sel k = some shape) {m : List Nat}
    (hbox : InBox m resultShape) :
    (ElementLive sel' rs' k m ↔ Overwritten col sel k m)
      ∧ (Overwritten col sel k m → elementAddress sel' rs' k m
          = ((selectedRow sel k).toNat, sel.diskIndex m)) := by
  have hres' := hfit.isResult hres
  have hrs' := hfit.consistent hres
  have hk' : k < rs'.nRows := by
    rw [hres'.nRows, ← hres.nRows]
    exact hk
  have hmlen := hbox.length_eq
  have hrow : selectedRow sel' k = selectedRow sel k :=
    (hfit.rows k hk).resolve_right fun ⟨_, hnone⟩ => by
      rw [hc] at hnone
      cases hnone
  have hrowId := @rowIds_getD sel' _ hrs' _ hk'
  -- the disk index in a dimension
  have hindex : ∀ d < resultShape.length,
      (dimIds sel' rs' k d).getD (m.getD d 0) 0
        = match sel.maybeFSpan d (m.length + 1) with
          | some ids => ids.getD (m.getD d 0) 0
          | none => if m.getD d 0 < shape.getD d 0 then (m.getD d 0 : Int)
              else -1 := by
    intro d hd
    have hlt : m.getD d 0 < resultShape.getD d 0 := by
      rw [List.getD_eq_getElem _ _ (by omega), List.getD_eq_getElem _ _ hd]
      exact List.Forall₂.get hbox (by omega) hd
    rw [hfit.dimIds_eq hres hm hk hc hd, hmlen]
    cases sel.maybeFSpan d (resultShape.length + 1) with
    | some ids => rfl
    | none =>
        dsimp only
        rw [paddedIds_getD hlt]
        split
        · rw [if_pos (by omega)]
        · rw [if_neg (by omega)]
  constructor
  · rw [ElementLive, hrowId, hrow, hres'.rank, Nat.add_sub_cancel]
    constructor
    · intro hx
      obtain ⟨-, hdims⟩ := hx
      refine ⟨shape, hc, fun d hd => ?_⟩
      have hlive := hdims d (by omega)
      rw [hindex d (by omega)] at hlive
      cases hsel : sel.maybeFSpan d (m.length + 1) with
      | some ids =>
          rw [hsel] at hlive
          exact hlive
      | none =>
          rw [hsel] at hlive
          dsimp only at hlive ⊢
          split at hlive
          · assumption
          · omega
    · intro hx
      obtain ⟨shape', hc', hdims⟩ := hx
      rw [hc] at hc'
      cases hc'
      refine ⟨(cellOf_lt hc).1, fun d hd => ?_⟩
      have hover := hdims d (by omega)
      rw [hindex d hd]
      cases hsel : sel.maybeFSpan d (m.length + 1) with
      | some ids =>
          rw [hsel] at hover
          exact hover
      | none =>
          rw [hsel] at hover
          dsimp only at hover ⊢
          rw [if_pos hover]
          exact Int.natCast_nonneg _
  · intro hx
    obtain ⟨shape', hc', hdims⟩ := hx
    rw [hc] at hc'
    cases hc'
    rw [elementAddress, hrowId, hrow, hres'.rank, Nat.add_sub_cancel]
    refine congrArg _ (List.ext_getElem (by simp [Selection.diskIndex, hmlen])
      fun d h₁ h₂ => ?_)
    have hd : d < resultShape.length := by simpa using h₁
    have hover := hdims d (by omega)
    simp only [List.getElem_map, List.getElem_range, Selection.diskIndex,
      List.getElem_zipIdx, Nat.zero_add, hindex d hd]
    rw [List.getD_eq_getElem _ _ (by omega : d < m.length)] at hover ⊢
    cases hsel : sel.maybeFSpan d (m.length + 1) with
    | some ids => rfl
    | none =>
        rw [hsel] at hover
        dsimp only at hover ⊢
        rw [if_pos hover, Int.toNat_natCast]

/-- Where every planned element exists, those that are planned on disk are
the ones to be overwritten, each from the index asked for. -/
theorem IsFitted.overwritten_iff (hm : sel'.Matches rs')
    (hhas : ∀ move ∈ planMoves sel' rs', col.Has move.2) {k : Nat}
    (hk : k < rs.nRows) {m : List Nat} (hbox : InBox m resultShape) :
    (ElementLive sel' rs' k m ↔ Overwritten col sel k m)
      ∧ (Overwritten col sel k m → elementAddress sel' rs' k m
          = ((selectedRow sel k).toNat, sel.diskIndex m)) := by
  have hres' := hfit.isResult hres
  have hrs' := hfit.consistent hres
  have hk' : k < rs'.nRows := by
    rw [hres'.nRows, ← hres.nRows]
    exact hk
  have hover : Overwritten col sel k m →
      ∃ shape, cellOf col sel k = some shape := by
    intro h
    obtain ⟨shape, hc, -⟩ := h
    exact ⟨shape, hc⟩
  -- an element on disk is in a cell
  have hcell : ElementLive sel' rs' k m →
      ∃ shape, cellOf col sel k = some shape := by
    intro hl
    have hrow := hl.1
    rw [rowIds_getD hrs' hk'] at hrow
    rcases hfit.rows k hk with hsame | ⟨hneg', -⟩
    · obtain ⟨cell, hc, -⟩ := hhas _ (mem_planMoves hrs' hm hk'
        (by rw [hres'.rowDims]; exact hbox) hl)
      rw [elementAddress, rowIds_getD hrs' hk', hsame] at hc
      rw [hsame] at hrow
      exact ⟨cell, by rw [cellOf, if_neg (by omega)]; exact hc⟩
    · omega
  constructor
  · constructor
    · intro hl
      obtain ⟨shape, hc⟩ := hcell hl
      exact (hfit.elementLive_iff hres hm hk hc hbox).1.mp hl
    · intro ho
      obtain ⟨shape, hc⟩ := hover ho
      exact (hfit.elementLive_iff hres hm hk hc hbox).1.mpr ho
  · intro ho
    obtain ⟨shape, hc⟩ := hover ho
    exact (hfit.elementLive_iff hres hm hk hc hbox).2 ho

end Fitted

-- ========================================================== the overwrite

/-- A request of matching sizes that the partition accepts was fitted to a
result with rows. -/
theorem fitted_of_matching {srt : StdSort} {opt : RowSplitOptions}
    {array : ArrowArray β} {rs rs' : ResultShapeData} {sel' : Selection}
    {p : DataPartition} (hfrom : ResultShapeData.fromArray col array = .ok rs)
    (hfixed : rs.isFixed = true)
    (hrows : rs.nRows = selectedRows sel col.nrow)
    (hsizes : ∀ d < rs.rank - 1, ∀ ids, sel.selected rs d = some ids →
      (rs.rowDims 0)[d]? = some ids.length)
    (hneg : rs.negateMissingSelectedRows col sel = .ok (rs', sel'))
    (hmake : DataPartition.make srt sel' rs' opt = .ok p) :
    ∃ dims, IsResult rs dims array.data.length
      ∧ IsFitted col sel rs dims rs' sel' ∧ sel'.Matches rs' := by
  have hdata := getResultShapeData_ok array.wellFormed hfrom
  obtain ⟨shape, hshape⟩ := Option.isSome_iff_exists.mp hfixed
  obtain ⟨hndim, hdims⟩ := hdata.fixed shape hshape
  have hfit := negate_fitted hshape rfl hdata.cellExtents (fun hspan => by
    rw [hrows, selectedRows, if_pos hspan]) hneg
  have hshape' : rs'.shape = some shape := by
    rw [hfit.eq]
    exact hshape
  obtain ⟨dims, rfl, -⟩ := hdims.resolve_left fun hnil => by
    rw [hnil] at hshape'
    exact shape_ne_nil_of_make hmake hshape'
  rw [List.dropLast_concat] at hfit
  have hres : IsResult rs dims array.data.length := by
    refine ⟨hshape, ?_⟩
    rw [hndim, List.length_append]
    rfl
  refine ⟨dims, hres, hfit, hfit.isMatch hres fun d hd ids hids => ?_⟩
  have hsize := hsizes d (by rw [hres.rank]; exact hd) ids (by
    rw [Selection.selected, hres.rank]
    exact hids)
  rw [hres.rowDims, List.getElem?_eq_getElem hd] at hsize
  rw [List.getD_eq_getElem _ _ hd]
  exact (Option.some.inj hsize).symm

/-- Reading into a result overwrites the elements that are read, each
from the index it stands for, and nothing else. -/
theorem getcol_into_result (srt : StdSort) (opt : RowSplitOptions)
    {array : ArrowArray β} {rs rs' : ResultShapeData} {sel' : Selection}
    {p : DataPartition} {buffer b : Memory α}
    (hfrom : ResultShapeData.fromArray col array = .ok rs)
    (hfixed : rs.isFixed = true)
    (hrows : rs.nRows = selectedRows sel col.nrow)
    (hsizes : ∀ d < rs.rank - 1, ∀ ids, sel.selected rs d = some ids →
      (rs.rowDims 0)[d]? = some ids.length)
    (hsmall : rs.SmallRows)
    (hneg : rs.negateMissingSelectedRows col sel = .ok (rs', sel'))
    (hmake : DataPartition.make srt sel' rs' opt = .ok p)
    (hread : readChunks col p.casaDtype p.dataChunks buffer = .ok b) :
    (∀ k < rs.nRows, ∀ m, InBox m (rs.rowDims k) →
        (Overwritten col sel k m → b (rs.position k m)
          = col.value ((selectedRow sel k).toNat, sel.diskIndex m))
        ∧ (¬ Overwritten col sel k m →
          b (rs.position k m) = buffer (rs.position k m)))
      ∧ ∀ q : Int, q < 0 ∨ (rs.nElements : Int) ≤ q → b q = buffer q := by
  obtain ⟨dims, hres, hfit, hm⟩ :=
    fitted_of_matching hfrom hfixed hrows hsizes hneg hmake
  have hres' := hfit.isResult hres
  have hrs' := hfit.consistent hres
  have hposition : ∀ k m, rs'.position k m = rs.position k m := by
    intro k m
    rw [hfit.eq]
    rfl
  have hsmall' : rs'.SmallRows := by
    intro k hk
    rw [hres'.rowDims]
    have := hsmall k (by rw [hres.nRows, ← hres'.nRows]; exact hk)
    rwa [hres.rowDims] at this
  obtain ⟨-, hpart⟩ := partitions_of_make hrs' hm hmake
  obtain ⟨⟨-, hhas⟩, rfl⟩ := (readChunks_planned hrs' hm hpart.planned
    (hpart.movesOf_perm_of_small hrs' hm hsmall') col _ buffer b).mp hread
  obtain ⟨hinside, houtside⟩ := readPlan_at hrs' hm col buffer
  refine ⟨fun k hk m hbox => ?_, fun q hq => houtside q ?_⟩
  · rw [hres.rowDims] at hbox
    have hk' : k < rs'.nRows := by
      rw [hres'.nRows, ← hres.nRows]
      exact hk
    obtain ⟨hlive, hdead⟩ := hinside k hk' m (by rw [hres'.rowDims]; exact hbox)
    rw [hposition] at hlive hdead
    obtain ⟨hiff, haddress⟩ := hfit.overwritten_iff hres hm hhas hk hbox
    constructor
    · intro hover
      rw [hlive (hiff.mpr hover), haddress hover]
    · intro hover
      exact hdead fun hl => hover (hiff.mp hl)
  · have helements : rs'.nElements = rs.nElements := by
      rw [hfit.eq]
      rfl
    rw [helements]
    exact hq

/-- A result of two rows of seven elements, more than the cells have. -/
def wideArray : ArrowArray Nat where
  data := .list ⟨.fixedSizeList 7, 0, 2, none⟩
    (.leaf ⟨.int32, 0, 14, none, List.replicate 14 0⟩)
  wellFormed := ⟨by decide, by show 0 + 14 ≤ _; decide⟩

/-- The second row, and a row that is not to be read. -/
def wideSelection : Selection := ⟨[[1, -1]]⟩

/-- The second row of the sample column is read into the first row of
the result, and padded; the rest of the result is kept. -/
theorem getcol_into_result_sample : ∃ rs rs' sel' p b,
    ResultShapeData.fromArray sampleColumn wideArray = .ok rs
      ∧ rs.negateMissingSelectedRows sampleColumn wideSelection
        = .ok (rs', sel')
      ∧ DataPartition.make .insertion sel' rs' .default = .ok p
      ∧ readChunks sampleColumn p.casaDtype p.dataChunks blankBuffer = .ok b
      ∧ b (rs.position 0 [4]) = 14 ∧ b (rs.position 0 [5]) = 0
      ∧ b (rs.position 1 [4]) = 0 := by
  obtain ⟨rs, hfrom, hrank, hdims, hfixed, hrows, rs', sel', hneg, p, hmake, b,
      hread⟩ : ∃ rs, ResultShapeData.fromArray sampleColumn wideArray = .ok rs
      ∧ rs.rank = 2 ∧ (∀ k, rs.rowDims k = [7]) ∧ rs.isFixed = true
      ∧ rs.nRows = 2
      ∧ ∃ rs' sel', rs.negateMissingSelectedRows sampleColumn wideSelection
        = .ok (rs', sel')
      ∧ ∃ p, DataPartition.make .insertion sel' rs' .default = .ok p
      ∧ ∃ b, readChunks sampleColumn p.casaDtype p.dataChunks blankBuffer
        = .ok b :=
    ⟨_, rfl, rfl, fun _ => rfl, rfl, rfl, _, _, rfl, _, rfl, _, rfl⟩
  have hunselected : wideSelection.maybeFSpan 0 2 = none := by decide
  obtain ⟨hall, -⟩ := getcol_into_result .insertion .default hfrom hfixed
    (by rw [hrows]; rfl) (by
      intro d hd ids hids
      rw [Selection.selected, hrank] at hids
      have hzero : d = 0 := by omega
      subst hzero
      cases hunselected.symm.trans hids) (by
      intro row _
      rw [hdims]
      decide) hneg hmake hread
  have hbox : ∀ i < 7, ∀ k, InBox [i] (rs.rowDims k) := fun i hi k => by
    rw [hdims]
    exact .cons hi .nil
  have hcell : cellOf sampleColumn wideSelection 0 = some [5] := by decide
  have hcell' : cellOf sampleColumn wideSelection 1 = none := by decide
  refine ⟨rs, rs', sel', p, b, hfrom, hneg, hmake, hread, ?_, ?_, ?_⟩
  · rw [(hall 0 (by omega) [4] (hbox 4 (by decide) 0)).1
      ⟨[5], hcell, fun d hd => ?_⟩]
    · rfl
    · have hzero : d = 0 := by simpa using hd
      subst hzero
      show 4 < 5
      decide
  · refine (hall 0 (by omega) [5] (hbox 5 (by decide) 0)).2 ?_
    intro hx
    obtain ⟨shape, hc, hreach⟩ := hx
    cases hcell.symm.trans hc
    have hlt : 5 < 5 := hreach 0 (by decide)
    omega
  · refine (hall 1 (by omega) [4] (hbox 4 (by decide) 1)).2 ?_
    intro hx
    obtain ⟨shape, hc, -⟩ := hx
    cases hcell'.symm.trans hc

end Arcae
