/-
Which requests can be planned.

The shape of a request is made by `MakeRead` from a column or by
`MakeWrite` from data (`IsMade`), and its rows agree on a rank. A
selection that matches it and repeats no index gets through `Make`
except for three kinds of shape (`Plannable`): one without axes, which
has no row dimension; one of rows with shapes of their own, if there are
no rows or a row has no shape; and one of elements without a size, if
its rows are to be split (`make_ok_iff_plannable`).

No other error exit of `Make` is reached: outside these kinds the shape
is consistent (`IsMade.consistent`), and the partition of a consistent
shape fails on repeated indices only (`make_outcome`).
-/
import Arcae.Proofs.RowScan
import Arcae.Proofs.Put

namespace Arcae

open Loops

variable {α : Type}

-- ============================================================ the request

/-- A shape that a read or a write of some column is given. -/
inductive ResultShapeData.IsMade (rs : ResultShapeData) : Prop
  | read {α : Type} (col : TableColumn α) (sel : Selection)
      (allowMissingRows : Bool)
      (made : ResultShapeData.makeRead col sel allowMissingRows = .ok rs)
  | write {α β : Type} (col col' : TableColumn α) (data : ArrowArray β)
      (sel : Selection)
      (made : ResultShapeData.makeWrite col data sel = (.ok rs, col'))

/-- No dimension of the selection repeats a non-negative index. -/
def Selection.Distinct (sel : Selection) (rs : ResultShapeData) : Prop :=
  ∀ dim, ∀ ids, sel.selected rs dim = some ids → NoRepeat ids

/-- Shapes that `Make` plans: they have a row dimension, rows with
shapes of their own exist and have them, and elements have a size if
rows of a fixed shape may be split. -/
structure Plannable (rs : ResultShapeData) (opt : RowSplitOptions) : Prop where
  axes : rs.shape ≠ some []
  rows : rs.shape = none →
    0 < rs.nRows ∧ ∀ shape ∈ rs.getRowShapes, shape ≠ []
  sized : rs.isFixed = true → opt.maxSplits ≤ 1 ∨ rs.dtype.supported = true

-- ======================================================== what is made

section Read

variable {col : TableColumn α} {sel : Selection} {rs : ResultShapeData}

/-- A row that has a shape has a cell that the selection fits. -/
theorem rowFits_of_plainRowShape {i : Nat} {shape : IPosition}
    (h : plainRowShape col sel i = .ok shape) (hne : shape ≠ []) :
    RowFits col sel i ∧ shape = clippedCell col sel i := by
  have hfound := plainRowShape_ok h
  cases hc : cellOf col sel i with
  | none =>
      rw [hc] at hfound
      exact absurd hfound hne
  | some cell =>
      rw [hc] at hfound
      obtain ⟨hfits, hclipped⟩ := (clip_outcome col.columnDesc cell).of_ok hfound
      refine ⟨⟨cell, hc, hfits⟩, ?_⟩
      rw [clippedCell, hc, Option.getD_some]
      exact hclipped

/-- A shape read with missing rows allowed, whose rows all have shapes,
is the shape of a read without missing rows. -/
theorem isReadShape_of_rows
    (h : ResultShapeData.makeRead col sel true = .ok rs)
    (hs : rs.shape = none) (hne : ∀ shape ∈ rs.getRowShapes, shape ≠ []) :
    Readable col sel ∧ IsReadShape col sel rs := by
  unfold ResultShapeData.makeRead checkRowNumberLimit at h
  by_cases hlimit : col.nrow ≤ indexTypeMax
  · simp only [hlimit, if_true, Result.ok_bind] at h
    cases hfixed : col.columnDesc.fixedShape with
    | some cell =>
        rw [hfixed] at h
        obtain ⟨shape, -, h⟩ := Result.bind_eq_ok.mp h
        cases h
        cases hs
    | none =>
        rw [hfixed] at h
        obtain ⟨data, hdata, h⟩ := Result.bind_eq_ok.mp h
        rw [← rowScan_eq_makeRowData, rowScan_plain hfixed] at hdata
        obtain ⟨shapes, hshapes, hdata⟩ := Result.bind_eq_ok.mp hdata
        cases hdata
        simp only [Bool.not_true, Bool.false_and, Bool.false_eq_true, if_false]
          at h
        cases hcommon : (rowSummary shapes).commonShape with
        | some common =>
            rw [hcommon] at h
            cases h
            cases hs
        | none =>
            rw [hcommon] at h
            rw [rowSummary_shapes hcommon] at h
            cases h
            have hne : ∀ shape ∈ shapes, shape ≠ [] := hne
            have hrows := (mapM_eq_ok.mp hshapes).imp
              fun i shape hplain => @rowFits_of_plainRowShape _ col sel i shape hplain
            refine ⟨⟨hlimit, fun shape hs => ?_, fun _ i hi => ?_⟩,
              rfl, rfl, (fun shape hs => by cases hs),
              fun _ => ⟨hfixed, ?_, rfl⟩⟩
            · rw [hfixed] at hs
              cases hs
            · obtain ⟨shape, hmem, hrow⟩ := forall₂_mem_right hrows.flip
                (List.mem_range.mpr hi)
              exact (hrow (hne shape hmem)).1
            · show shapes = _
              refine List.ext_getElem (by simpa using hrows.length_eq.symm)
                fun i h₁ h₂ => ?_
              have hi : i < (List.range (selectedRows sel col.nrow)).length := by
                simpa using h₂
              have hrow := hrows.get hi h₁ (hne _ (List.getElem_mem h₁))
              simpa using hrow.2
  · simp only [hlimit, if_false, Result.error_bind] at h
    cases h

/-- A read has no extents, and the rank of its shape if it is fixed. -/
theorem makeRead_ndim {allowMissingRows : Bool}
    (h : ResultShapeData.makeRead col sel allowMissingRows = .ok rs) :
    rs.cellExtents = none ∧ ∀ shape, rs.shape = some shape →
      rs.ndim = shape.length := by
  unfold ResultShapeData.makeRead at h
  obtain ⟨_, -, h⟩ := Result.bind_eq_ok.mp h
  have hof : ∀ {name shape dtype}, ResultShapeData.ofShape name shape dtype = rs →
      rs.cellExtents = none ∧ ∀ shape, rs.shape = some shape →
        rs.ndim = shape.length := by
    intro name shape dtype heq
    subst heq
    exact ⟨rfl, fun shape' hs => by cases hs; rfl⟩
  cases hfixed : col.columnDesc.fixedShape with
  | some cell =>
      rw [hfixed] at h
      obtain ⟨shape, -, h⟩ := Result.bind_eq_ok.mp h
      exact hof (Except.ok.inj h)
  | none =>
      rw [hfixed] at h
      obtain ⟨data, -, h⟩ := Result.bind_eq_ok.mp h
      dsimp only at h
      split at h
      · cases h
      · split at h
        · exact hof (Except.ok.inj h)
        · cases h
          exact ⟨rfl, fun shape hs => by cases hs⟩

/-- A read whose rows all have shapes is consistent. -/
theorem makeRead_consistent {allowMissingRows : Bool}
    (h : ResultShapeData.makeRead col sel allowMissingRows = .ok rs)
    (hndim : 0 ≤ rs.ndim) (haxes : rs.shape ≠ some [])
    (hrows : rs.shape = none →
      0 < rs.nRows ∧ ∀ shape ∈ rs.getRowShapes, shape ≠ []) :
    rs.Consistent := by
  obtain ⟨hext, hfixed⟩ := makeRead_ndim h
  cases hs : rs.shape with
  | some shape =>
      have hrank := hfixed shape hs
      exact
        { ndim_pos := by
            have := List.length_pos_of_ne_nil fun hnil => haxes (hnil ▸ hs)
            omega
          fixed := fun shape' hs' => by
            rw [hs] at hs'
            cases hs'
            rw [ResultShapeData.rank, hrank]
            rfl
          varying := fun hs' => by
            rw [hs] at hs'
            cases hs'
          extents := fun es hes => by
            rw [hext] at hes
            cases hes }
  | none =>
      obtain ⟨hpos, hne⟩ := hrows hs
      obtain ⟨hreadable, hshape⟩ : Readable col sel ∧ IsReadShape col sel rs := by
        cases allowMissingRows with
        | true => exact isReadShape_of_rows h hs hne
        | false => exact (makeRead_outcome col sel).of_ok h
      have hcount : 0 < selectedRows sel col.nrow := by
        obtain ⟨-, hshapes, -⟩ := hshape.varying hs
        rw [ResultShapeData.nRows, hs] at hpos
        simpa [hshapes] using hpos
      obtain ⟨n, hfacts⟩ := hshape.facts hreadable hndim fun _ => hcount
      exact hfacts.consistent

end Read

/-- A shape that is made has no extents. -/
theorem ResultShapeData.IsMade.cellExtents {rs : ResultShapeData}
    (h : rs.IsMade) : rs.cellExtents = none := by
  cases h with
  | read col sel allowMissingRows made => exact (makeRead_ndim made).1
  | write col col' data sel made => exact (makeWrite_ok made).1.cellExtents

/-- A shape that is made is consistent, if its rows agree on a rank and
it has a row dimension, and rows with shapes if they have their own. -/
theorem ResultShapeData.IsMade.consistent {rs : ResultShapeData}
    (h : rs.IsMade) (hndim : 0 ≤ rs.ndim) (haxes : rs.shape ≠ some [])
    (hrows : rs.shape = none →
      0 < rs.nRows ∧ ∀ shape ∈ rs.getRowShapes, shape ≠ []) :
    rs.Consistent := by
  cases h with
  | read col sel allowMissingRows made =>
      exact makeRead_consistent made hndim haxes hrows
  | write col col' data sel made =>
      have hdata := (makeWrite_ok made).1
      refine hdata.consistent haxes fun hs => ?_
      obtain ⟨hpos, hne⟩ := hrows hs
      rw [ResultShapeData.nRows, hs] at hpos
      have hlen := ((hdata.varying hs).2 0 hpos).1
      have := List.length_pos_of_ne_nil (hne _ (List.getElem_mem hpos))
      rw [ResultShapeData.rank]
      omega

-- =============================================================== planning

section Make

variable {rs : ResultShapeData} {sel : Selection} {srt : StdSort}
  {opt : RowSplitOptions}

/-- A matching selection that repeats no index is one that can be cut. -/
theorem Selection.Distinct.selectable (h : sel.Distinct rs)
    (hm : sel.Matches rs) (hext : rs.cellExtents = none) :
    Selectable sel rs := by
  refine ⟨fun _ => ?_, fun row _ dim _ => ?_⟩
  · rw [rowIds]
    cases hsel : sel.selected rs (rs.rank - 1) with
    | none => exact noRepeat_monotonicIds _
    | some ids => exact h _ ids hsel
  · rw [dimIds_eq_span hm hext]
    cases hsel : sel.maybeFSpan dim rs.rank with
    | none => exact noRepeat_monotonicIds _
    | some ids => exact h dim ids hsel

/-- Of the requests that are made, `Make` plans those that can be
planned. -/
theorem make_ok_iff_plannable (hmade : rs.IsMade) (hndim : 0 ≤ rs.ndim)
    (hm : sel.Matches rs) (hdistinct : sel.Distinct rs) :
    (∃ p, DataPartition.make srt sel rs opt = .ok p) ↔ Plannable rs opt := by
  have hext := hmade.cellExtents
  constructor
  · intro hx
    obtain ⟨p, hp⟩ := hx
    have haxes := shape_ne_nil_of_make hp
    have hrows : rs.shape = none →
        0 < rs.nRows ∧ ∀ shape ∈ rs.getRowShapes, shape ≠ [] := fun hs =>
      ⟨nRows_pos_of_make hp hs, rowShapes_ne_nil_of_make hp hs⟩
    have hcons := hmade.consistent hndim haxes hrows
    exact ⟨haxes, hrows, fun hfixed => (make_ok_conditions hcons hp).1 ⟨hfixed, hext⟩⟩
  · intro hplan
    have hcons := hmade.consistent hndim hplan.axes hplan.rows
    have hpos : rs.IsPlain ∨ 0 < rs.nRows := by
      cases hs : rs.shape with
      | none => exact .inr (hplan.rows hs).1
      | some shape => exact .inl ⟨by simp [ResultShapeData.isFixed, hs], hext⟩
    have houtcome := @make_outcome sel rs srt opt hcons hm
      (fun hplain => hplan.sized hplain.1) hpos
    obtain ⟨p, hp, -⟩ := houtcome.of_good (hdistinct.selectable hm hext)
    exact ⟨p, hp⟩

end Make

/-- A column without rows whose cells have one axis. -/
def rowlessColumn : TableColumn Nat where
  columnDesc := .withoutShape "ROWLESS" .tpInt (some 1)
  nrow := 0
  cellShape _ := none
  value _ := 0
  cell_nrow := by intro r s h; cases h
  cell_fixed := by intro s r hs; cases hs
  cell_rank := by intro r s _ h; cases h
  cell_ndim := by intro r s _ h; cases h

/-- The shape of reading it. -/
def rowlessShape : ResultShapeData where
  columnName := "ROWLESS"
  shape := none
  ndim := 2
  dtype := .tpInt
  rowShapes := some []
  cellExtents := none

/-- The shape of reading no rows of a column of one cell shape. -/
def noRowsShape : ResultShapeData :=
  .ofShape "NO_ROWS" [3, 0] .tpInt

theorem rowlessShape_isMade : rowlessShape.IsMade :=
  .read rowlessColumn .empty false rfl

/-- An empty selection repeats nothing. -/
theorem empty_distinct (rs : ResultShapeData) : Selection.empty.Distinct rs := by
  intro dim ids hids
  rw [Selection.selected, Selection.maybeFSpan_empty] at hids
  cases hids

/-- No rows are planned where the cells have one shape. -/
theorem make_ok_noRows : ∃ p,
    DataPartition.make .insertion .empty noRowsShape .default = .ok p :=
  (make_ok_iff_plannable
    (.read (.ofShape "NO_ROWS" .tpInt [3] 0 fun _ => (0 : Nat)) .empty false rfl)
    (by decide) (empty_matches _) (empty_distinct _)).mpr
    ⟨by decide, (fun hs => by cases hs), fun _ => .inl (by decide)⟩

/-- They are not where cells have shapes of their own. -/
theorem make_error_rowless : ¬ ∀ (rs : ResultShapeData) (sel : Selection)
    (srt : StdSort) (opt : RowSplitOptions), rs.IsMade → 0 ≤ rs.ndim →
      sel.Matches rs → sel.Distinct rs →
      ∃ p, DataPartition.make srt sel rs opt = .ok p := by
  intro hall
  obtain ⟨p, hp⟩ := hall rowlessShape .empty .insertion .default
    rowlessShape_isMade (by decide) (empty_matches _) (empty_distinct _)
  cases hp

end Arcae
