/-
`getcol` without a result array: what is gathered, and when.

For a request whose rows have cells of one rank and whose selected
indices are distinct and within the cells (`GatherRequest`), every step
succeeds: `MakeRead` gives each row the clipped shape of its cell,
`Make` plans one transfer for each element, and each transfer exists on
disk (`GatherRequest.reads`). So an element of the result is read from
the cell and index it stands for, wherever its chunk is put.

Whether each chunk is put where it belongs is another matter:
`FlatOffset` multiplies strides in an `int`, and a chunk that starts
beyond the first position of a dimension whose stride does not fit is
put at a lower offset, over the elements of another. The buffer is the
gather for whatever it held before exactly when that does not happen
(`getcol_gathers_iff`): if it does, some position is written twice and
another, by counting, not at all.
-/
import Arcae.Proofs.Coverage
import Arcae.Proofs.Tiling
import Arcae.Proofs.Instances
import Arcae.Proofs.ReadShape

namespace Arcae

open FOrder Scatter Loops

variable {α : Type} {col : TableColumn α} {sel : Selection}
  {rs : ResultShapeData} {n : Nat}

-- ==================================================== the plan of a read

namespace ReadFacts

/-- The plan reads the selected indices of a cell, or all of them. -/
theorem dimIds_eq (h : ReadFacts col sel rs n) {k : Nat} (hk : k < rs.nRows)
    {shape : IPosition} (hc : cellOf col sel k = some shape) {d : Nat}
    (hd : d < n) :
    dimIds sel rs k d = match sel.maybeFSpan d (n + 1) with
      | some ids => ids
      | none => monotonicIds (shape.getD d 0) := by
  obtain ⟨hlen, hdims⟩ := h.ofCell k hk shape hc
  rw [dimIds_eq_span h.isMatch h.cellExtents, h.rank]
  cases hsel : sel.maybeFSpan d (n + 1) with
  | some ids => rfl
  | none =>
      show monotonicIds _ = monotonicIds _
      rw [hdims, List.getD_eq_getElem?_getD, sel.clipped_getElem? (by omega),
        hlen, hsel, Option.getD_some]

theorem clipped_getD (h : ReadFacts col sel rs n) {k : Nat} (hk : k < rs.nRows)
    {shape : IPosition} (hc : cellOf col sel k = some shape) {d : Nat}
    (hd : d < n) :
    (sel.clipped shape).getD d 0 = (dimIds sel rs k d).length := by
  rw [← (h.ofCell k hk shape hc).2]
  exact (h.isMatch.dimIds_length (.inl hk) (by rw [h.rank]; exact hd)).symm

/-- An element of the result is read from the index it stands for. -/
theorem elementAddress_eq (h : ReadFacts col sel rs n) {k : Nat}
    (hk : k < rs.nRows) {shape : IPosition}
    (hc : cellOf col sel k = some shape) {m : List Nat}
    (hm : InBox m (sel.clipped shape)) :
    elementAddress sel rs k m
      = ((selectedRow sel k).toNat, sel.diskIndex m) := by
  rw [← (h.ofCell k hk shape hc).2] at hm
  exact Arcae.elementAddress_eq h.isMatch h.cellExtents h.consistent hk hm

end ReadFacts

-- ======================================================== every step gets
-- through

/-- A shape whose rows are of one rank has a rank. -/
theorem IsReadShape.ndim_nonneg (h : IsReadShape col sel rs)
    (hcells : ∀ k < selectedRows sel col.nrow, ∃ shape,
      cellOf col sel k = some shape ∧ shape.length = n)
    (hpos : 0 < selectedRows sel col.nrow) : 0 ≤ rs.ndim := by
  cases hs : rs.shape with
  | some shape =>
      rw [(h.fixed shape hs).1]
      exact Int.natCast_nonneg _
  | none =>
      obtain ⟨hvar, hshapes, hnd⟩ := h.varying hs
      have hlen : ∀ s ∈ rs.getRowShapes, s.length = n := by
        rw [hshapes]
        intro s hmem
        obtain ⟨k, hk, rfl⟩ := List.mem_map.mp hmem
        obtain ⟨shape, hc, hlen⟩ := hcells k (List.mem_range.mp hk)
        rw [clippedCell, hc, Option.getD_some, Selection.clipped_length, hlen]
      obtain ⟨shape, hc, hn⟩ := hcells 0 hpos
      have hne := List.length_pos_iff.mpr
        (col.cell_rank _ _ hvar (cellOf_lt hc).2.2)
      have hnil : rs.getRowShapes ≠ [] := by
        rw [hshapes]
        refine List.ne_nil_of_length_pos ?_
        rw [List.length_map, List.length_range]
        exact hpos
      have hrank := @rowShapesNDim_of_rank _ n (-1) (by omega) hlen
        (.inr ⟨rfl, hnil⟩)
      rw [hnd, hrank, if_neg (by omega)]
      omega

namespace GatherRequest

theorem readable (h : GatherRequest col sel n) : Readable col sel where
  limit := h.limit
  fixed := by
    intro shape hfixed
    obtain ⟨cell, hc, -⟩ := h.cells 0 h.rows_pos
    obtain ⟨-, -, hshape⟩ := cellOf_lt hc
    have := col.cell_fixed _ (selectedRow sel 0).toNat hfixed
      (col.cell_nrow _ _ hshape)
    rw [hshape] at this
    cases this
    exact h.dims_within 0 h.rows_pos _ hc
  varying := by
    intro _ k hk
    obtain ⟨shape, hc, -⟩ := h.cells k hk
    exact ⟨shape, hc, h.dims_within k hk shape hc⟩

/-- The shape of a gather. -/
theorem makeRead_ok (h : GatherRequest col sel n) :
    ∃ rs, ResultShapeData.makeRead col sel false = .ok rs
      ∧ ReadFacts col sel rs n := by
  obtain ⟨rs, hrs, hshape⟩ := (makeRead_outcome col sel).of_good h.readable
  obtain ⟨n', hfacts⟩ := hshape.facts h.readable
    (hshape.ndim_nonneg h.cells h.rows_pos) fun _ => h.rows_pos
  obtain ⟨shape, hc, hn⟩ := h.cells 0 h.rows_pos
  have hrows : 0 < rs.nRows := by
    rw [hfacts.nRows]
    exact h.rows_pos
  have hsame := (hfacts.ofCell 0 hrows shape hc).1
  have hn' : n' = n := by omega
  exact ⟨rs, hrs, hn' ▸ hfacts⟩

/-- Every element that is planned exists on disk. -/
theorem elementLive (h : GatherRequest col sel n)
    (hf : ReadFacts col sel rs n) {k : Nat} (hk : k < rs.nRows) {m : List Nat}
    (hm : InBox m (rs.rowDims k)) :
    ElementLive sel rs k m ∧ col.Has (elementAddress sel rs k m) := by
  obtain ⟨shape, hc, hn⟩ := h.cells k (hf.nRows ▸ hk)
  obtain ⟨-, hdims⟩ := hf.ofCell k hk shape hc
  rw [hdims] at hm
  have hmlen : m.length = n := by
    rw [hm.length_eq, Selection.clipped_length, hn]
  obtain ⟨hrow, -, hshape⟩ := cellOf_lt hc
  -- the index read in each dimension
  have hindex : ∀ d < n, 0 ≤ (dimIds sel rs k d).getD (m.getD d 0) 0
      ∧ (dimIds sel rs k d).getD (m.getD d 0) 0 < shape.getD d 0 := by
    intro d hd
    have hlt : m.getD d 0 < (dimIds sel rs k d).length := by
      rw [← hf.clipped_getD hk hc hd, List.getD_eq_getElem _ _ (by omega),
        List.getD_eq_getElem _ _ (by simp; omega)]
      exact List.Forall₂.get hm (by omega) (by simp; omega)
    rw [List.getD_eq_getElem _ _ hlt]
    have hmem := List.getElem_mem hlt
    revert hmem
    generalize (dimIds sel rs k d)[m.getD d 0] = i
    rw [hf.dimIds_eq hk hc hd]
    intro hmem
    cases hsel : sel.maybeFSpan d (n + 1) with
    | some ids =>
        rw [hsel] at hmem
        refine ⟨(h.dims_distinct d hd ids hsel).2 i hmem, ?_⟩
        exact h.dims_within k (hf.nRows ▸ hk) shape hc d (by omega) ids
          (by rw [hn]; exact hsel) i hmem
    | none =>
        rw [hsel] at hmem
        obtain ⟨j, hj, rfl⟩ := List.mem_map.mp hmem
        rw [List.mem_range] at hj
        exact ⟨Int.natCast_nonneg j, Int.ofNat_lt.mpr hj⟩
  refine ⟨⟨by rw [rowIds_getD hf.consistent hk]; exact hrow, fun d hd => ?_⟩,
    shape, ?_, ?_⟩
  · rw [hf.rank] at hd
    exact (hindex d hd).1
  · rw [elementAddress, rowIds_getD hf.consistent hk]
    exact hshape
  · rw [elementAddress, hf.rank, Nat.add_sub_cancel]
    refine List.forall₂_iff_get.mpr ⟨by simp [hn], fun d h₁ h₂ => ?_⟩
    have hd : d < n := by simpa using h₁
    have hi := hindex d hd
    simp only [List.get_eq_getElem, List.getElem_map, List.getElem_range]
    rw [List.getD_eq_getElem _ _ h₂] at hi
    omega

variable {srt : StdSort} {p : DataPartition}

/-- The shape and the partition of a gather; its plan is all on disk. -/
theorem partition_ok (h : GatherRequest col sel n) (srt : StdSort) :
    ∃ rs p, ResultShapeData.makeRead col sel false = .ok rs
      ∧ DataPartition.make srt sel rs .default = .ok p
      ∧ ReadFacts col sel rs n ∧ p.Partitions sel rs .default
      ∧ (∀ t ∈ plan sel rs, t.live = true)
      ∧ ∀ m ∈ planMoves sel rs, col.Has m.2 := by
  obtain ⟨rs, hread, hf⟩ := h.makeRead_ok
  have hrs := hf.consistent
  have hm := hf.isMatch
  have hsel : Selectable sel rs := by
    refine selectable_of_noRepeat hm (fun _ ids hids => ?_)
      fun dim hdim ids hids => ?_
    · rw [Selection.selected, Selection.maybeFSpan_row sel hrs.rank_pos] at hids
      split at hids
      · rename_i hspan
        cases hids
        exact (h.rows_distinct hspan).filter _
      · cases hids
    · rw [Selection.selected, hf.rank] at hids
      rw [hf.rank] at hdim
      exact (h.dims_distinct dim hdim ids hids).1.filter _
  obtain ⟨p, hp, hpart⟩ := (@make_outcome _ _ srt .default hrs hm
    (fun _ => .inl (Nat.le_refl 1))
    (.inr (hf.nRows ▸ h.rows_pos))).of_good hsel
  refine ⟨rs, p, hread, hp, hf, hpart, ?_, fun m hmem => ?_⟩
  · exact (plan_live_iff hrs hm).mpr fun row hrow m hbox =>
      (h.elementLive hf hrow hbox).1
  · obtain ⟨row, hrow, idx, hbox, -, rfl⟩ := planMoves_addresses hrs hm hmem
    exact (h.elementLive hf hrow hbox).2

/-- The chunks of a gather are put where they belong exactly when its
strides along dimensions with gaps are small. -/
theorem no_slip_iff (h : GatherRequest col sel n) (hf : ReadFacts col sel rs n)
    (hpart : p.Partitions sel rs .default) :
    (∀ c ∈ p.dataChunks, ∀ t ∈ c.transfers, t.live = true → c.slip rs = 0)
      ↔ StridesSmall col sel n := by
  have hrs := hf.consistent
  have hm := hf.isMatch
  have hrows : 0 < rs.nRows := hf.nRows ▸ h.rows_pos
  have hanch : rs.isFixed = true →
      p.RowsAnchored ∨ (rs.rowDims 0).prod < 2 ^ 31 := by
    intro hfixed
    refine .inl ((rowsAnchored_iff hpart ⟨hfixed, hf.cellExtents⟩
      (Nat.le_refl 1)).mpr (.inl ?_))
    obtain ⟨shape, hc, -⟩ := h.cells 0 h.rows_pos
    rw [List.headD_eq_getD, rowIds_getD hf.consistent hrows]
    exact (cellOf_lt hc).1
  rw [Arcae.no_slip_iff hrs hpart, and_iff_left hanch]
  constructor
  · intro hfit k hk shape hc
    have hk' : k < rs.nRows := hf.nRows ▸ hk
    obtain ⟨hlen, hdims⟩ := hf.ofCell k hk' shape hc
    by_cases hempty : 0 ∈ sel.clipped shape
    · exact .inl hempty
    · right
      -- the first element of the row
      have hbox : InBox (List.replicate n 0) (rs.rowDims k) := by
        rw [hdims]
        refine List.forall₂_iff_get.mpr ⟨by simp [hlen], fun d h₁ h₂ => ?_⟩
        have hne : (sel.clipped shape)[d] ≠ 0 := fun hzero =>
          hempty (hzero ▸ List.getElem_mem h₂)
        simp only [List.get_eq_getElem, List.getElem_replicate]
        omega
      obtain ⟨hrow, hdim⟩ := (h.elementLive hf hk' hbox).1
      have hpos : ∀ d < n, 0 ≤ (dimIds sel rs k d).getD 0 0
          ∧ 0 < (dimIds sel rs k d).length := by
        intro d hd
        have hnn := hdim d (by rw [hf.rank]; exact hd)
        rw [List.getD_replicate _ hd] at hnn
        refine ⟨hnn, ?_⟩
        have hcl : d < (sel.clipped shape).length := by simp; omega
        have hne : (sel.clipped shape)[d] ≠ 0 := fun hzero =>
          hempty (hzero ▸ List.getElem_mem hcl)
        rw [← hf.clipped_getD hk' hc hd, List.getD_eq_getElem _ _ hcl]
        omega
      have hlive : RowLive sel rs k := by
        refine ⟨hrow, fun d hd => ?_⟩
        rw [hf.rank] at hd
        obtain ⟨hnn, hlt⟩ := hpos d hd
        rw [List.getD_eq_getElem _ _ hlt] at hnn
        exact ⟨_, List.getElem_mem hlt, hnn⟩
      intro d hd ids hids
      have hanchored := hfit k hk' hlive d (by rw [hf.rank]; exact hd)
      obtain ⟨hnn, hlt⟩ := hpos d hd
      rw [hf.dimIds_eq hk' hc hd, hids] at hanchored hlt
      rw [hdims] at hanchored
      refine hanchored.imp (fun ha => ?_) id
      rcases ha with hneg | ⟨-, hg⟩
      · have hge := (h.dims_distinct d hd ids hids).2 _ (List.getElem_mem hlt)
        have := hneg _ (List.getElem_mem hlt)
        omega
      · exact hg
  · intro hsmall k hk hlive d hd
    rw [hf.rank] at hd
    obtain ⟨shape, hc, hlen⟩ := h.cells k (hf.nRows ▸ hk)
    have hdims := (hf.ofCell k hk shape hc).2
    rcases hsmall k (hf.nRows ▸ hk) shape hc with hempty | hall
    · -- no element, so not live
      obtain ⟨e, he, hzero⟩ := List.mem_iff_getElem.mp hempty
      have hen : e < n := by
        rw [Selection.clipped_length] at he
        omega
      obtain ⟨i, hi, -⟩ := hlive.2 e (by rw [hf.rank]; exact hen)
      have := List.length_pos_of_mem hi
      rw [← hf.clipped_getD hk hc hen, List.getD_eq_getElem _ _ he] at this
      omega
    · rw [hdims, hf.dimIds_eq hk hc hd]
      cases hsel : sel.maybeFSpan d (n + 1) with
      | none => exact .inl (anchored_monotonicIds _)
      | some ids =>
          refine (hall d hd ids hsel).imp (fun hg => .inr ⟨?_, hg⟩) id
          have hnn := (h.dims_distinct d hd ids hsel).2
          cases ids with
          | nil => exact Int.le_refl 0
          | cons i is => exact hnn i List.mem_cons_self

end GatherRequest

-- ========================================================= the gather

/-- The read succeeds on this buffer, and leaves the gather in it: the
element of each row at each multi-index is that of the row's cell at the
index it stands for. -/
def Gathers (srt : StdSort) (col : TableColumn α) (sel : Selection)
    (buffer : Memory α) : Prop :=
  ∃ rs p b, ResultShapeData.makeRead col sel false = .ok rs
    ∧ DataPartition.make srt sel rs .default = .ok p
    ∧ readChunks col p.casaDtype p.dataChunks buffer = .ok b
    ∧ p.nElements = rs.nElements
    ∧ ∀ k < selectedRows sel col.nrow, ∀ shape, cellOf col sel k = some shape →
        rs.rowDims k = sel.clipped shape
        ∧ ∀ m, InBox m (sel.clipped shape) →
            b (rs.position k m)
              = col.value ((selectedRow sel k).toNat, sel.diskIndex m)

/-- If no chunk slips, reading gathers. -/
theorem GatherRequest.gathers (h : GatherRequest col sel n) (srt : StdSort)
    (hsmall : StridesSmall col sel n) (buffer : Memory α) :
    Gathers srt col sel buffer := by
  obtain ⟨rs, p, hread, hp, hf, hpart, hlive, hhas⟩ := h.partition_ok srt
  have hrs := hf.consistent
  have hm := hf.isMatch
  have hperm := hpart.movesOf_perm ((h.no_slip_iff hf hpart).mpr hsmall)
  have hb := (readChunks_planned hrs hm hpart.planned hperm col p.casaDtype
    buffer _).mpr ⟨⟨by rw [hpart.dtype, hf.dtype]; exact h.supported, hhas⟩, rfl⟩
  refine ⟨rs, p, _, hread, hp, hb, hpart.nElements_eq hrs hm,
    fun k hk shape hc => ?_⟩
  have hk' : k < rs.nRows := hf.nRows ▸ hk
  have hdims := (hf.ofCell k hk' shape hc).2
  refine ⟨hdims, fun m hbox => ?_⟩
  rw [← hf.elementAddress_eq hk' hc hbox]
  rw [← hdims] at hbox
  exact ((readPlan_at hrs hm col buffer).1 k hk' m hbox).1
    ((plan_live_iff hrs hm).mp hlive k hk' m hbox)

/-- If reading gathers whatever the buffer held, no chunk slips: else
some position keeps what it held. -/
theorem GatherRequest.small_of_gathers [Nontrivial α]
    (h : GatherRequest col sel n) (srt : StdSort)
    (hall : ∀ buffer, Gathers srt col sel buffer) : StridesSmall col sel n := by
  obtain ⟨rs, p, hread, hp, hf, hpart, -, -⟩ := h.partition_ok srt
  have hrs := hf.consistent
  have hm := hf.isMatch
  refine (h.no_slip_iff hf hpart).mp ((covered_iff hrs hm hpart).mp ?_).2
  intro q hq
  by_contra hno
  obtain ⟨k, hk, m, hbox, rfl⟩ := exists_position hrs hm hq
  obtain ⟨shape, hc, -⟩ := h.cells k (hf.nRows ▸ hk)
  rw [(hf.ofCell k hk shape hc).2] at hbox
  -- a buffer that does not hold the element there
  obtain ⟨x, hx⟩ := exists_ne
    (col.value ((selectedRow sel k).toNat, sel.diskIndex m))
  obtain ⟨rs', p', b, hread', hp', hb, -, hgather⟩ := hall fun _ => x
  cases hread.symm.trans hread'
  cases hp.symm.trans hp'
  have hval := (hgather k (hf.nRows ▸ hk) shape hc).2 m hbox
  obtain ⟨-, rfl⟩ := (readChunks_outcome hrs hm hpart.planned col _ _).of_ok hb
  rw [read_uncovered col hno] at hval
  exact hx hval

/-- `getcol` gathers, whatever the buffer held, exactly when the strides
along dimensions with gaps are small. -/
theorem getcol_gathers_iff [Nontrivial α] (srt : StdSort)
    (h : GatherRequest col sel n) :
    (∀ buffer, Gathers srt col sel buffer) ↔ StridesSmall col sel n :=
  ⟨h.small_of_gathers srt, fun hsmall buffer => h.gathers srt hsmall buffer⟩

/-- A request for rows of a fixed-shape column. -/
theorem GatherRequest.ofFixed {cell : IPosition}
    (hfixed : col.columnDesc.fixedShape = some cell)
    (hlimit : col.nrow ≤ indexTypeMax)
    (hsupported : col.columnDesc.dataType.supported = true)
    (hpos : 0 < selectedRows sel col.nrow)
    (hdistinct : sel.hasRowSpan = true → sel.getRowSpan.Nodup)
    (hrows : ∀ k < selectedRows sel col.nrow,
      0 ≤ selectedRow sel k ∧ selectedRow sel k < col.nrow)
    (hdims : ∀ d < cell.length, ∀ ids,
      sel.maybeFSpan d (cell.length + 1) = some ids →
        ids.Nodup ∧ ∀ i ∈ ids, 0 ≤ i ∧ i < (cell.getD d 0 : Int)) :
    GatherRequest col sel cell.length where
  limit := hlimit
  supported := hsupported
  rows_pos := hpos
  rows_distinct := hdistinct
  cells := by
    intro k hk
    obtain ⟨hnn, hlt⟩ := hrows k hk
    refine ⟨cell, ?_, rfl⟩
    rw [cellOf, if_neg (by omega)]
    exact col.cell_fixed _ _ hfixed (by omega)
  dims_distinct := by
    intro d hd ids hids
    obtain ⟨hnodup, hall⟩ := hdims d hd ids hids
    exact ⟨hnodup, fun i hi => (hall i hi).1⟩
  dims_within := by
    intro k hk shape hc d hd ids hids i hi
    obtain ⟨-, -, hshape⟩ := cellOf_lt hc
    have := col.cell_fixed _ (selectedRow sel k).toNat hfixed
      (col.cell_nrow _ _ hshape)
    rw [hshape] at this
    cases this
    exact ((hdims d hd ids hids).2 i hi).2

/-- The sample request is gathered, if its strides are small. -/
theorem getcol_gathers_sample : (∀ buffer,
    Gathers .insertion sampleColumn sampleSelection buffer)
      ↔ StridesSmall sampleColumn sampleSelection 1 := by
  refine getcol_gathers_iff .insertion (@GatherRequest.ofFixed _ _ _ [5] rfl
    (by decide) (by decide) (by decide) (fun _ => by decide) (by decide) ?_)
  intro d hd ids hids
  have hzero : d = 0 := by
    have : d < 1 := hd
    omega
  subst hzero
  have hsel : sampleSelection.maybeFSpan 0 2 = some [4, 0] := by decide
  cases hsel.symm.trans hids
  decide

/-- One row, of three planes of 2^31 elements. -/
def planesColumn : TableColumn Nat where
  columnDesc := .ofShape "DATA" .tpInt [65536, 32768, 3]
  nrow := 1
  cellShape row := if row < 1 then some [65536, 32768, 3] else none
  value a := a.2.getD 2 0
  cell_nrow := by
    intro r s h
    split at h
    · assumption
    · cases h
  cell_fixed := by
    intro s r hof h
    cases hof
    exact if_pos h
  cell_rank := by rintro r s ⟨⟩
  cell_ndim := by
    intro r s _ h
    split at h
    · cases h
      rfl
    · cases h

/-- The first and the last plane. -/
def planesSelection : Selection := ⟨[[], [], [0, 2], []]⟩

/-- They are two runs. -/
theorem planes_gap : ¬ Gapless [0, 2] := by
  intro hg
  rcases hg 0 (by decide) (by decide) with hnext | hlast
  · revert hnext
    decide
  · have := hlast 2 (by decide)
    omega

/-- The two planes are a request, but they are not gathered: the second
is read over the first. -/
theorem planes_not_gathered : GatherRequest planesColumn planesSelection 3
    ∧ ¬ ∀ buffer, Gathers .insertion planesColumn planesSelection buffer := by
  have hspan : planesSelection.maybeFSpan 2 4 = some [0, 2] := by decide
  have hreq : GatherRequest planesColumn planesSelection 3 := by
    refine @GatherRequest.ofFixed _ _ _ [65536, 32768, 3] rfl (by decide)
      (by decide) (by decide) (fun h => absurd h (by decide)) (by decide) ?_
    intro d hd ids hids
    have hcases : d = 0 ∨ d = 1 ∨ d = 2 := by
      have : d < 3 := hd
      omega
    rcases hcases with rfl | rfl | rfl
    · have hnone : planesSelection.maybeFSpan 0 4 = none := by decide
      cases hnone.symm.trans hids
    · have hnone : planesSelection.maybeFSpan 1 4 = none := by decide
      cases hnone.symm.trans hids
    · cases hspan.symm.trans hids
      decide
  refine ⟨hreq, fun hall => ?_⟩
  have hsmall := hreq.small_of_gathers .insertion hall 0 (by decide)
    [65536, 32768, 3] rfl
  have hclipped : planesSelection.clipped [65536, 32768, 3]
      = [65536, 32768, 2] := by decide
  rw [hclipped] at hsmall
  rcases hsmall with hempty | hall
  · revert hempty
    decide
  · rcases hall 2 (by decide) [0, 2] hspan with hg | hlt
    · exact planes_gap hg
    · revert hlt
      decide

end Arcae
