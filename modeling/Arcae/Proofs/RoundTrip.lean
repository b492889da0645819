/-
The shape of what is read, inferred again.

`MakeArray` and the inference of `putcol` go opposite ways through the
levels of an array, and meet in the rows it spells out. They do so for
any shape of a read whose dimensions are all there (`NoneEmpty`): what
lies under an empty range leaves no trace in the array.
-/
import Arcae.Proofs.MakeArray
import Arcae.Proofs.Write

namespace Arcae

variable {α β : Type} {rs : ResultShapeData}

/-- What a read leaves in its shape data, whatever rows it selects. -/
theorem makeRead_form {col : TableColumn α} {sel : Selection}
    {allowMissingRows : Bool}
    (h : ResultShapeData.makeRead col sel allowMissingRows = .ok rs) :
    rs.columnName = col.columnDesc.name ∧ rs.dtype = col.columnDesc.dataType
      ∧ rs.cellExtents = none
      ∧ (∀ shape, rs.shape = some shape →
          shape ≠ [] ∧ rs.ndim = shape.length ∧ rs.rowShapes = none)
      ∧ (rs.shape = none → ∃ rows, rs.rowShapes = some rows
          ∧ (rowShapesNDim rows (-1) ≠ -1 →
              rs.ndim = rowShapesNDim rows (-1))) := by
  unfold ResultShapeData.makeRead at h
  obtain ⟨_, -, h⟩ := Result.bind_eq_ok.mp h
  -- a fixed shape ends in the number of rows
  have hofShape : ∀ shape : IPosition, rs = ResultShapeData.ofShape
        col.columnDesc.name (shape ++ [selectedRows sel col.nrow])
        col.columnDesc.dataType →
      rs.columnName = col.columnDesc.name ∧ rs.dtype = col.columnDesc.dataType
        ∧ rs.cellExtents = none
        ∧ (∀ shape, rs.shape = some shape →
            shape ≠ [] ∧ rs.ndim = shape.length ∧ rs.rowShapes = none)
        ∧ (rs.shape = none → ∃ rows, rs.rowShapes = some rows
            ∧ (rowShapesNDim rows (-1) ≠ -1 →
                rs.ndim = rowShapesNDim rows (-1))) := by
    intro shape heq
    subst heq
    refine ⟨rfl, rfl, rfl, fun shape' hs => ?_, fun hs => by cases hs⟩
    cases hs
    exact ⟨by simp, rfl, rfl⟩
  split at h
  · obtain ⟨shape, -, h⟩ := Result.bind_eq_ok.mp h
    cases h
    exact hofShape shape rfl
  · obtain ⟨rowData, -, h⟩ := Result.bind_eq_ok.mp h
    split at h
    · cases h
    · split at h
      · rename_i shape _
        cases h
        exact hofShape shape rfl
      · cases h
        refine ⟨rfl, rfl, rfl, (fun shape hs => by cases hs), fun _ =>
          ⟨_, rfl, fun hne => ?_⟩⟩
        exact if_neg hne

/-- A shape with rows and without an empty dimension. Rows of their own
shapes are of one rank, and differ. -/
structure ResultShapeData.NoneEmpty (rs : ResultShapeData) : Prop where
  rows : 0 < rs.nRows
  fixed : ∀ shape, rs.shape = some shape → ∀ n ∈ shape, 0 < n
  varying : rs.shape = none →
    (∀ dims ∈ rs.getRowShapes, ∀ n ∈ dims, 0 < n)
      ∧ (∃ rank, ∀ dims ∈ rs.getRowShapes, dims.length = rank)
      ∧ ∃ dims ∈ rs.getRowShapes, ∃ other ∈ rs.getRowShapes, dims ≠ other

/-- The rows of a shape that varies are the row shapes. -/
theorem ResultShapeData.allRows_varying (hs : rs.shape = none) :
    rs.allRows = rs.getRowShapes := by
  unfold allRows
  rw [nRows, hs]
  refine List.ext_getElem (by simp) fun row h₁ h₂ => ?_
  rw [List.getElem_map, List.getElem_range, rowDims, hs]
  exact List.getD_eq_getElem _ _ h₂

theorem ResultShapeData.NoneEmpty.consistent {col : TableColumn α}
    {sel : Selection} {allowMissingRows : Bool} (h : rs.NoneEmpty)
    (hread : makeRead col sel allowMissingRows = .ok rs) : rs.Consistent := by
  obtain ⟨-, -, hext, hfixed, hvarying⟩ := makeRead_form hread
  -- two rows of one rank that differ have a rank above zero
  have hrank : rs.shape = none → ∃ n : Nat, 0 < n ∧ rs.ndim = n + 1
      ∧ ∀ dims ∈ rs.getRowShapes, dims.length = n := by
    intro hs
    obtain ⟨-, ⟨n, hlen⟩, dims, hdims, other, hother, hdiff⟩ := h.varying hs
    obtain ⟨rows, hrows, hndim⟩ := hvarying hs
    have hget : rs.getRowShapes = rows := by rw [getRowShapes, hrows]; rfl
    have hn : 0 < n := by
      refine Nat.pos_of_ne_zero fun hzero => hdiff ?_
      rw [List.length_eq_zero_iff.mp ((hlen dims hdims).trans hzero),
        List.length_eq_zero_iff.mp ((hlen other hother).trans hzero)]
    rw [hget] at hlen hdims
    have hfound := rowShapesNDim_of_rank hn hlen
      (.inr ⟨rfl, List.ne_nil_of_mem hdims⟩)
    refine ⟨n, hn, ?_, hget ▸ hlen⟩
    rw [hndim (by rw [hfound]; omega), hfound]
  constructor
  case ndim_pos =>
    cases hs : rs.shape with
    | some shape =>
        obtain ⟨hne, hndim, -⟩ := hfixed shape hs
        have := List.length_pos_of_ne_nil hne
        omega
    | none =>
        obtain ⟨n, hn, hndim, -⟩ := hrank hs
        omega
  case fixed =>
    intro shape hs
    rw [rank, (hfixed shape hs).2.1]
    rfl
  case varying =>
    intro hs
    obtain ⟨n, hn, hndim, hlen⟩ := hrank hs
    unfold rank
    refine ⟨by omega, fun dims hmem => ?_⟩
    rw [hlen dims hmem]
    omega
  case extents =>
    intro es hes
    rw [hext] at hes
    cases hes

theorem ResultShapeData.NoneEmpty.positive (h : rs.NoneEmpty)
    (hrs : rs.Consistent) : Positive rs.allRows := by
  cases hs : rs.shape with
  | some shape =>
      intro dims hmem n hn
      obtain ⟨row, -, rfl⟩ := List.mem_map.mp hmem
      refine h.fixed shape hs n ?_
      rw [hrs.shape_eq hs row]
      exact List.mem_append_left _ hn
  | none =>
      rw [allRows_varying hs]
      exact (h.varying hs).1

/-- The array made of a read gives back the shape of the read. -/
theorem made_shape_inferred [LeafValue β] {col : TableColumn α}
    {sel : Selection} {allowMissingRows : Bool} {configured : Option String}
    {strat : ConvertStrategy} {arrowDtype : ArrowType} {values : List β}
    (hread : ResultShapeData.makeRead col sel allowMissingRows = .ok rs)
    (hfull : rs.NoneEmpty)
    (harrow : arrowDataType rs.dtype = .ok arrowDtype)
    (hstrat : getConvertStrategy configured = .ok strat)
    (hvalues : values.length = leafWidth rs.dtype * rs.nElements)
    (hsmall : values.length < 2 ^ 31)
    (htext : rs.dtype = .tpString → totalText values ≤ maxTextBytes) :
    ∃ array : ArrowArray β, makeArray configured rs values = .ok array.data
      ∧ array.data.leafArray = resultLeaf arrowDtype values
      ∧ ResultShapeData.fromArray col array = .ok rs := by
  obtain ⟨hname, hdtype, hext, hfixed, hvarying⟩ := makeRead_form hread
  have hrs := hfull.consistent hread
  have hpos := hfull.positive hrs
  obtain ⟨data, hdata, hspell⟩ := makeArray_spells hrs hfull.rows hpos harrow
    hstrat hvalues hsmall htext
  have hknown : data.leafArray.type.known = true := by
    rw [hspell.leafArray]
    cases hdt : rs.dtype <;> rw [hdt] at harrow <;> cases harrow <;> rfl
  have hencodes := hspell.encodes
  rw [hdtype] at hencodes
  have hlength : rs.allRows.length = rs.nRows := by
    rw [ResultShapeData.allRows, List.length_map, List.length_range]
  have hne : rs.allRows ≠ [] :=
    List.ne_nil_of_length_pos (by have := hfull.rows; omega)
  obtain ⟨hsame, hdiffer⟩ := getResultShapeData_encodes hencodes hpos hne hknown
    hrs.allRows_length
  have hndim : ((rs.rank - 1 : Nat) : Int) + 1 = rs.ndim := by
    have := hrs.ndim_pos
    unfold ResultShapeData.rank
    omega
  have hshape : getResultShapeData col.columnDesc data = .ok rs := by
    cases hs : rs.shape with
    | some shape =>
        have hdims : ∀ dims ∈ rs.allRows, dims = rs.rowDims 0 := by
          intro dims hmem
          obtain ⟨row, -, rfl⟩ := List.mem_map.mp hmem
          exact ResultShapeData.rowDims_fixed (by
            rw [ResultShapeData.isFixed, hs]; rfl) row 0
        rw [hsame _ hdims, hlength, ← hrs.shape_eq hs 0, hndim]
        show _ = Except.ok (ResultShapeData.mk rs.columnName rs.shape rs.ndim
          rs.dtype rs.rowShapes rs.cellExtents)
        rw [hname, hs, hdtype, (hfixed shape hs).2.2, hext]
    | none =>
        obtain ⟨-, -, dims, hmem, other, hmem', hdiff⟩ := hfull.varying hs
        obtain ⟨rows, hrows, -⟩ := hvarying hs
        rw [← ResultShapeData.allRows_varying hs] at hmem hmem'
        have hall : rs.rowShapes = some rs.allRows := by
          rw [ResultShapeData.allRows_varying hs, ResultShapeData.getRowShapes,
            hrows]
          rfl
        rw [hdiffer dims hmem other hmem' hdiff, hndim]
        show _ = Except.ok (ResultShapeData.mk rs.columnName rs.shape rs.ndim
          rs.dtype rs.rowShapes rs.cellExtents)
        rw [hname, hs, hdtype, hall, hext]
  exact ⟨⟨data, hspell.wellFormed⟩, hdata, hspell.leafArray, hshape⟩

end Arcae
