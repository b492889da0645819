/-
What `getcol` returns.

The shape of a read, its partition, the buffer the chunks fill and the
array made of it have each been settled apart. Here they are put
together: a request whose array has no empty dimension, fewer than 2^31
leaf values and, for strings, room for their text (`TextFits`) gets one,
and the element of each row at each multi-index is that of the row's cell
(`Holds`). Neither the number of
instances nor the order their chunks are read in is seen in it, nor the
strategy by which the array is nested, nor the memory it was read into.

# Under the size

Offsets of a list array are 32-bit, and an array below 2^31 values has
none that wraps. The same bound keeps every stride of every chunk small,
so no chunk slips, split or not.

# Writing it back

The array spells out the rows of the read, and inference finds the shape
of the read in it again (`readShape_inferred`); so what was read can be
written.
-/
import Arcae.Proofs.Fill
import Arcae.Proofs.Instances
import Arcae.Proofs.RoundTrip

namespace Arcae

open FOrder Scatter Loops

variable {α β : Type} {col : TableColumn α} {sel : Selection}
  {rs : ResultShapeData} {n : Nat}

-- ============================================================ the request

/-- Number of elements a request asks for. -/
def requestedElements (col : TableColumn α) (sel : Selection) : Nat :=
  ((List.range (selectedRows sel col.nrow)).map fun k =>
    (sel.clipped ((cellOf col sel k).getD [])).prod).sum

/-- A request whose array has no empty dimension and fewer than 2^31 leaf
values. -/
structure ArrayRequest (col : TableColumn α) (sel : Selection) (n : Nat) :
    Prop where
  gather : GatherRequest col sel n
  full : ∀ k < selectedRows sel col.nrow, ∀ cell,
    cellOf col sel k = some cell → 0 ∉ sel.clipped cell
  small : leafWidth col.columnDesc.dataType * requestedElements col sel
    < 2 ^ 31

section Text

variable [LeafValue β] (layout : ElementLayout col.columnDesc.dataType α β)

/-- The text of an element. -/
def ElementLayout.textBytes {dtype : DataType} (layout : ElementLayout dtype α β)
    (x : α) : Nat :=
  totalText ((List.finRange (leafWidth dtype)).map (layout.parts x))

/-- The text of the elements a request asks for. -/
def requestedText (sel : Selection) : Nat :=
  ((List.range (selectedRows sel col.nrow)).map fun k =>
    ((box (sel.clipped ((cellOf col sel k).getD []))).map fun m =>
      layout.textBytes
        (col.value ((selectedRow sel k).toNat, sel.diskIndex m))).sum).sum

/-- If a request is for strings, an array has room for their text. -/
def TextFits (sel : Selection) : Prop :=
  col.columnDesc.dataType = .tpString → requestedText layout sel ≤ maxTextBytes

end Text

/-- An array has the elements of a request, each at its own index. -/
structure Holds (layout : ElementLayout col.columnDesc.dataType α β)
    (sel : Selection) (data : ArrayData β) : Prop where
  length : data.length = selectedRows sel col.nrow
  element : ∀ k < selectedRows sel col.nrow, ∀ cell,
    cellOf col sel k = some cell → ∀ m x,
      layout.ElementAt data k m x ↔ InBox m (sel.clipped cell)
        ∧ x = col.value ((selectedRow sel k).toNat, sel.diskIndex m)

/-- Where all elements are few, so are those of each row. -/
theorem ResultShapeData.Consistent.smallRows (hrs : rs.Consistent)
    (h : rs.nElements < 2 ^ 31) : rs.SmallRows := by
  intro k hk
  have hmem : (rs.rowDims k).prod ∈ rs.allRows.map List.prod :=
    List.mem_map_of_mem (List.mem_map_of_mem (List.mem_range.mpr hk))
  have hle := List.single_le_sum (fun _ _ => Nat.zero_le _) _ hmem
  rw [hrs.sum_prod] at hle
  exact Nat.lt_of_le_of_lt hle h

namespace ArrayRequest

variable (h : ArrayRequest col sel n) (hf : ReadFacts col sel rs n)

include h hf

/-- The rows of the read are the cells of the request, clipped. -/
theorem allRows_eq : rs.allRows
    = (List.range (selectedRows sel col.nrow)).map fun k =>
        sel.clipped ((cellOf col sel k).getD []) := by
  rw [ResultShapeData.allRows, hf.nRows]
  refine List.map_congr_left fun k hk => ?_
  have hk := List.mem_range.mp hk
  obtain ⟨cell, hcell, -⟩ := h.gather.cells k hk
  rw [(hf.ofCell k (hf.nRows ▸ hk) cell hcell).2, hcell, Option.getD_some]

theorem nElements_eq : rs.nElements = requestedElements col sel := by
  rw [← hf.consistent.sum_prod, h.allRows_eq hf, List.map_map]
  rfl

theorem positive : Positive rs.allRows := by
  rw [h.allRows_eq hf]
  intro dims hdims size hsize
  obtain ⟨k, hk, rfl⟩ := List.mem_map.mp hdims
  have hk := List.mem_range.mp hk
  obtain ⟨cell, hcell, -⟩ := h.gather.cells k hk
  rw [hcell, Option.getD_some] at hsize
  refine Nat.pos_of_ne_zero fun hzero => h.full k hk cell hcell ?_
  rwa [← hzero]

/-- No row has 2^31 elements. -/
theorem smallRows : rs.SmallRows := by
  refine hf.consistent.smallRows (Nat.lt_of_le_of_lt ?_ h.small)
  rw [h.nElements_eq hf]
  exact Nat.le_mul_of_pos_left _ (leafWidth_pos col.columnDesc.dataType)

end ArrayRequest

-- ========================================================= the shape again

/-- Inference gives back the shape of a read, from any array that spells
out its rows. -/
theorem readShape_inferred {data : ArrayData β}
    (hread : ResultShapeData.makeRead col sel false = .ok rs)
    (hf : ReadFacts col sel rs n) (hrows : 0 < rs.nRows)
    (hcells : ∀ k < selectedRows sel col.nrow, ∃ cell,
      cellOf col sel k = some cell)
    (hpos : Positive rs.allRows)
    (hencodes : data.Encodes
      (rs.allRows.map (nestSizes col.columnDesc.dataType)))
    (hknown : data.leafArray.type.known = true) :
    getResultShapeData col.columnDesc data = .ok rs := by
  have hrs := hf.consistent
  obtain ⟨hname, hdtype, hext, hfixed, hvarying⟩ := makeRead_form hread
  have hlength : rs.allRows.length = rs.nRows := by
    rw [ResultShapeData.allRows, List.length_map, List.length_range]
  obtain ⟨hsame, hdiffer⟩ := getResultShapeData_encodes hencodes hpos
    (List.ne_nil_of_length_pos (hlength ▸ hrows)) hknown hrs.allRows_length
  have hndim : ((rs.rank - 1 : Nat) : Int) + 1 = rs.ndim := by
    have := hrs.ndim_pos
    unfold ResultShapeData.rank
    omega
  cases hs : rs.shape with
  | some shape =>
      have hdims : ∀ dims ∈ rs.allRows, dims = rs.rowDims 0 := by
        intro dims hmem
        obtain ⟨row, -, rfl⟩ := List.mem_map.mp hmem
        exact ResultShapeData.rowDims_fixed (by
          rw [ResultShapeData.isFixed, hs]; rfl) row 0
      rw [hsame _ hdims, hlength, ← hrs.shape_eq hs 0, hndim]
      show _ = Except.ok (ResultShapeData.mk rs.columnName rs.shape rs.ndim
        rs.dtype rs.rowShapes rs.cellExtents)
      rw [hname, hs, hdtype, (hfixed shape hs).2.2, hext]
  | none =>
      -- rows of their own shapes are not all of one
      have hdiff : ∃ other ∈ rs.allRows, rs.rowDims 0 ≠ other := by
        by_contra hno
        push Not at hno
        refine @makeRead_varied _ _ _ _ hread hs (hf.nRows ▸ hrows)
          (rs.rowDims 0) fun k hk => ?_
        have hk' : k < rs.nRows := hf.nRows ▸ hk
        obtain ⟨cell, hcell⟩ := hcells k hk
        rw [clippedCell, hcell, Option.getD_some,
          ← (hf.ofCell k hk' cell hcell).2]
        exact (hno _ (List.mem_map_of_mem (List.mem_range.mpr hk'))).symm
      obtain ⟨other, hother, hne⟩ := hdiff
      have hfirst : rs.rowDims 0 ∈ rs.allRows :=
        List.mem_map_of_mem (List.mem_range.mpr hrows)
      obtain ⟨rows, hrowShapes, -⟩ := hvarying hs
      have hall : rs.rowShapes = some rs.allRows := by
        rw [ResultShapeData.allRows_varying hs, ResultShapeData.getRowShapes,
          hrowShapes]
        rfl
      rw [hdiffer _ hfirst other hother hne, hndim]
      show _ = Except.ok (ResultShapeData.mk rs.columnName rs.shape rs.ndim
        rs.dtype rs.rowShapes rs.cellExtents)
      rw [hname, hs, hdtype, hall, hext]

/-- Every type of leaf that columns have is known. -/
theorem known_of_arrowDataType {dtype : DataType} {arrowDtype : ArrowType}
    (h : arrowDataType dtype = .ok arrowDtype) : arrowDtype.known = true := by
  cases dtype <;> cases h <;> rfl

/-- There is such a type for every type that has traits. -/
theorem arrowDataType_of_supported {dtype : DataType}
    (h : dtype.supported = true) :
    ∃ arrowDtype, arrowDataType dtype = .ok arrowDtype := by
  cases dtype with
  | tpOther name => cases h
  | _ => exact ⟨_, rfl⟩

-- =============================================================== the array

theorem ElementLayout.values_length {dtype : DataType}
    (layout : ElementLayout dtype α β) (buffer : Memory α) (nelements : Nat) :
    (layout.values buffer nelements).length = leafWidth dtype * nelements := by
  rw [ElementLayout.values, List.length_flatMap]
  simp [Nat.mul_comm]

/-- The parts of an element lie one after the other. -/
theorem ElementLayout.values_getElem? {dtype : DataType}
    (layout : ElementLayout dtype α β) (buffer : Memory α) {nelements q : Nat}
    (hq : q < nelements) (i : Fin (leafWidth dtype)) :
    (layout.values buffer nelements)[leafWidth dtype * q + i]?
      = some (layout.parts (buffer q) i) := by
  induction nelements with
  | zero => exact absurd hq (Nat.not_lt_zero q)
  | succ nelements ih =>
      have hlen := layout.values_length buffer nelements
      have hsucc : layout.values buffer (nelements + 1)
          = layout.values buffer nelements
            ++ (List.finRange (leafWidth dtype)).map
                (layout.parts (buffer (nelements : Int))) := by
        unfold ElementLayout.values
        rw [List.range_succ, List.flatMap_append, List.flatMap_singleton]
      rw [hsucc]
      rcases Nat.lt_succ_iff_lt_or_eq.mp hq with hlt | rfl
      · have hpos : leafWidth dtype * q + i
            < (layout.values buffer nelements).length := by
          rw [hlen]
          calc leafWidth dtype * q + i
              < leafWidth dtype * q + leafWidth dtype :=
                Nat.add_lt_add_left i.isLt _
            _ = leafWidth dtype * (q + 1) := (Nat.mul_succ _ _).symm
            _ ≤ leafWidth dtype * nelements := Nat.mul_le_mul_left _ hlt
        rw [List.getElem?_append_left hpos]
        exact ih hlt
      · rw [List.getElem?_append_right (by omega), hlen,
          Nat.add_sub_cancel_left, List.getElem?_map,
          List.getElem?_eq_getElem (by simp), List.getElem_finRange]
        rfl

theorem position_lt_nElements (hrs : rs.Consistent) (hm : sel.Matches rs)
    {k : Nat} (hk : k < rs.nRows) {m : List Nat} (hbox : InBox m (rs.rowDims k)) :
    rs.position k m < rs.nElements := by
  obtain ⟨ht, hlen⟩ := transferOf_of_inBox hrs hm hk hbox
  have hlt := position_lt hrs hm ht
  rwa [transferOf_position hlen] at hlt

/-- The text of a buffer is that of its elements. -/
theorem ElementLayout.totalText_values [LeafValue β] {dtype : DataType}
    (layout : ElementLayout dtype α β) (buffer : Memory α) (nelements : Nat) :
    totalText (layout.values buffer nelements)
      = ((List.range nelements).map fun q : Nat =>
          layout.textBytes (buffer (q : Int))).sum := by
  rw [totalText, ElementLayout.values, List.map_flatMap, List.flatMap_def,
    List.sum_flatten, List.map_map]
  rfl

/-- A buffer that a request was read into has the text of the request. -/
theorem requestedText_eq [LeafValue β] (hf : ReadFacts col sel rs n)
    (hcells : ∀ k < selectedRows sel col.nrow, ∃ cell,
      cellOf col sel k = some cell)
    (layout : ElementLayout col.columnDesc.dataType α β) {buffer : Memory α}
    (hbuffer : ∀ k < selectedRows sel col.nrow, ∀ cell,
      cellOf col sel k = some cell → ∀ m, InBox m (sel.clipped cell) →
        buffer (rs.position k m)
          = col.value ((selectedRow sel k).toNat, sel.diskIndex m)) :
    totalText (layout.values buffer rs.nElements)
      = requestedText layout sel := by
  rw [layout.totalText_values, ← hf.consistent.boxes_tile, requestedText,
    ← hf.nRows, List.map_flatMap, List.flatMap_def, List.sum_flatten,
    List.map_map]
  refine congrArg List.sum (List.map_congr_left fun k hk => ?_)
  have hk := List.mem_range.mp hk
  obtain ⟨cell, hcell⟩ := hcells k (hf.nRows ▸ hk)
  rw [Function.comp_apply, List.map_map, (hf.ofCell k hk cell hcell).2, hcell,
    Option.getD_some]
  refine congrArg List.sum (List.map_congr_left fun m hm => ?_)
  rw [Function.comp_apply,
    hbuffer k (hf.nRows ▸ hk) cell hcell m (mem_box.mp hm)]

/-- The levels of a result are no slices. -/
theorem makeArray_unsliced [LeafValue β] {configured : Option String}
    {values : List β} {data : ArrayData β}
    (h : makeArray configured rs values = .ok data) : data.Unsliced := by
  have hfixed : ∀ {child array : ArrayData β} {size : Int}, child.Unsliced →
      fixedSizeListFromArrays child size = .ok array → array.Unsliced := by
    intro child array size hchild harray
    unfold fixedSizeListFromArrays at harray
    split at harray
    · cases harray
    · split at harray
      · cases harray
      · cases harray
        exact ⟨rfl, hchild⟩
  have hlist : ∀ {child array : ArrayData β} {offsets : List Int},
      child.Unsliced → listFromArrays child offsets = .ok array →
        array.Unsliced := by
    intro child array offsets hchild harray
    unfold listFromArrays at harray
    split at harray
    · cases harray
    · cases harray
      exact ⟨rfl, hchild⟩
  unfold makeArray at h
  obtain ⟨arrowDtype, -, h⟩ := Result.bind_eq_ok.mp h
  obtain ⟨strat, -, h⟩ := Result.bind_eq_ok.mp h
  obtain ⟨elements, helements, h⟩ := Result.bind_eq_ok.mp h
  have hleaf : elements.Unsliced := by
    unfold makeElements at helements
    dsimp only at helements
    split at helements
    · rw [(makeStrings_eq_ok.mp helements).2]
      rfl
    · split at helements
      · cases strat with
        | fixed =>
            refine hfixed ?_ helements
            exact rfl
        | list =>
            refine hlist ?_ helements
            exact rfl
      · cases helements
        rfl
  split at h
  · obtain ⟨ndim, -, h⟩ := Result.bind_eq_ok.mp h
    exact foldlM_preserves (fun _ _ _ hchild => hfixed hchild) hleaf h
  · obtain ⟨offsets, -, h⟩ := Result.bind_eq_ok.mp h
    exact foldlM_preserves (fun _ _ _ hchild => hlist hchild) hleaf h

/-- What there is to say of the array of a request: its shape, its leaf
and its elements. -/
structure IsArrayOf (layout : ElementLayout col.columnDesc.dataType α β)
    (sel : Selection) (rs : ResultShapeData) (array : ArrowArray β) : Prop where
  inferred : getResultShapeData col.columnDesc array.data = .ok rs
  ownType : arrowDataType col.columnDesc.dataType
    = .ok array.data.leafArray.type
  count : array.data.leafArray.length
    = leafWidth col.columnDesc.dataType * rs.nElements
  unsliced : array.data.Unsliced
  holds : Holds layout sel array.data

/-- The array made of a buffer that the request was read into. -/
theorem ArrayRequest.array [LeafValue β] (h : ArrayRequest col sel n)
    (hread : ResultShapeData.makeRead col sel false = .ok rs)
    (hf : ReadFacts col sel rs n) {configured : Option String}
    {strat : ConvertStrategy}
    (hstrat : getConvertStrategy configured = .ok strat)
    (layout : ElementLayout col.columnDesc.dataType α β)
    (htext : TextFits layout sel) (buffer : Memory α)
    (hbuffer : ∀ k < selectedRows sel col.nrow, ∀ cell,
      cellOf col sel k = some cell → ∀ m, InBox m (sel.clipped cell) →
        buffer (rs.position k m)
          = col.value ((selectedRow sel k).toNat, sel.diskIndex m)) :
    ∃ array : ArrowArray β,
      makeArray configured rs (layout.values buffer rs.nElements)
          = .ok array.data
        ∧ IsArrayOf layout sel rs array := by
  have hrs := hf.consistent
  have hrows : 0 < rs.nRows := hf.nRows ▸ h.gather.rows_pos
  have hpos := h.positive hf
  obtain ⟨arrowDtype, harrow⟩ := arrowDataType_of_supported h.gather.supported
  have hlen := layout.values_length buffer rs.nElements
  obtain ⟨data, hdata, hspell⟩ := @makeArray_spells _ rs
    (layout.values buffer rs.nElements) arrowDtype _ hrs hrows hpos
    (by rw [hf.dtype]; exact harrow) configured strat hstrat
    (by rw [hf.dtype]; exact hlen)
    (by rw [hlen, h.nElements_eq hf]; exact h.small)
    (fun hstring => by
      rw [requestedText_eq hf (fun k hk => (h.gather.cells k hk).imp
        fun _ hcell => hcell.1) layout hbuffer]
      exact htext (hf.dtype ▸ hstring))
  have hencodes := hspell.encodes
  rw [hf.dtype] at hencodes
  have hknown : data.leafArray.type.known = true := by
    rw [hspell.leafArray]
    exact known_of_arrowDataType harrow
  have hinfer := readShape_inferred hread hf hrows (fun k hk => by
    obtain ⟨cell, hcell, -⟩ := h.gather.cells k hk
    exact ⟨cell, hcell⟩) hpos hencodes hknown
  have hshape := getResultShapeData_ok hspell.wellFormed hinfer
  have hlength := hshape.length_eq hrs
  -- the leaf is the buffer, from its first value on
  have hcount : data.leafArray.length
      = leafWidth col.columnDesc.dataType * rs.nElements := by
    rw [hspell.leafArray]
    exact hlen
  have hslice : data.leafArray.slice = layout.values buffer rs.nElements := by
    rw [hspell.leafArray]
    exact List.take_length
  have hslot : data.slot 0 = 0 := by
    have hlast := hshape.slot_eq hspell.wellFormed hrs (Nat.le_refl _)
    have hle := ArrayData.slot_le hspell.wellFormed
      (Nat.le_of_eq hlength.symm)
    rw [hrs.rowStart_nRows, hf.dtype] at hlast
    omega
  have hown : arrowDataType col.columnDesc.dataType
      = .ok data.leafArray.type := by
    rw [hspell.leafArray]
    exact harrow
  refine ⟨⟨data, hspell.wellFormed⟩, hdata, hinfer, hown, hcount,
    makeArray_unsliced hdata, hlength.trans hf.nRows,
    fun k hk cell hcell m x => ?_⟩
  have hk' : k < rs.nRows := hf.nRows ▸ hk
  have hdims := (hf.ofCell k hk' cell hcell).2
  rw [elementAt_iff layout hshape hspell.wellFormed hrs hslot hk', hdims,
    hslice]
  refine and_congr_right fun hbox => ?_
  have hq : rs.position k m < rs.nElements :=
    position_lt_nElements hrs hf.isMatch hk' (by rw [hdims]; exact hbox)
  rw [← hbuffer k hk cell hcell m hbox]
  constructor
  · intro hall
    refine layout.parts.injective (funext fun i => ?_)
    have hpart := hall i
    rw [layout.values_getElem? buffer hq i] at hpart
    exact (Option.some.inj hpart).symm
  · intro hx i
    rw [hx]
    exact layout.values_getElem? buffer hq i

-- ================================================================ getcol

/-- Memory for the elements of any type that has traits. -/
theorem allocateBuffer_ok {dtype : DataType} (h : dtype.supported = true)
    (emptyString : α) (allocated : Memory α) :
    ∃ buffer, allocateBuffer dtype emptyString allocated = .ok buffer := by
  obtain ⟨size, hsize⟩ := (casaDataTypeSize_isOk dtype).mpr h
  unfold allocateBuffer
  rw [hsize, Result.ok_bind]
  split
  · exact ⟨_, rfl⟩
  · exact ⟨_, rfl⟩

/-- The plan of a request, whatever its rows are split into: its moves are
to elements that exist, and its chunks carry them. -/
structure CarriesPlan (col : TableColumn α) (sel : Selection)
    (rs : ResultShapeData) (opt : RowSplitOptions) (p : DataPartition) :
    Prop where
  partitions : DataPartition.Partitions sel rs opt p
  supported : p.casaDtype.supported = true
  live : ∀ t ∈ plan sel rs, t.live = true
  has : ∀ m ∈ planMoves sel rs, col.Has m.2
  moves : (movesOf p.dataChunks).Perm (planMoves sel rs)

/-- A request can be planned: its rows can be split, and no chunk of a
piece slips. -/
theorem ArrayRequest.plan_ok (h : ArrayRequest col sel n) (srt : StdSort)
    (opt : RowSplitOptions) : ∃ rs p,
      ResultShapeData.makeRead col sel false = .ok rs ∧ ReadFacts col sel rs n
      ∧ DataPartition.make srt sel rs opt = .ok p
      ∧ CarriesPlan col sel rs opt p := by
  obtain ⟨rs, unsplit, hread, hunsplit, hf, -, hlive, hhas⟩ :=
    h.gather.partition_ok srt
  have hrs := hf.consistent
  have hm := hf.isMatch
  obtain ⟨hsel, -⟩ := partitions_of_make hrs hm hunsplit
  obtain ⟨-, hpos⟩ := make_ok_conditions hrs hunsplit
  have hsupported : rs.dtype.supported = true := hf.dtype ▸ h.gather.supported
  obtain ⟨p, hp, hpart⟩ := (@make_outcome _ _ srt opt
    hrs hm (fun _ => .inr hsupported) hpos).of_good hsel
  exact ⟨rs, p, hread, hf, hp, hpart, hpart.dtype ▸ hsupported, hlive, hhas,
    hpart.movesOf_perm_of_small hrs hm (h.smallRows hf)⟩

/-- The array made of a buffer that was filled as planned. -/
theorem ArrayRequest.filled [LeafValue β] (h : ArrayRequest col sel n)
    (hread : ResultShapeData.makeRead col sel false = .ok rs)
    (hf : ReadFacts col sel rs n) (hlive : ∀ t ∈ plan sel rs, t.live = true)
    {configured : Option String} {strat : ConvertStrategy}
    (hstrat : getConvertStrategy configured = .ok strat)
    (layout : ElementLayout col.columnDesc.dataType α β)
    (htext : TextFits layout sel) (buffer : Memory α) :
    ∃ array : ArrowArray β,
      makeArray configured rs (layout.values
          (Moves.read col (planMoves sel rs) buffer) rs.nElements)
        = .ok array.data
      ∧ IsArrayOf layout sel rs array := by
  have hrs := hf.consistent
  have hm := hf.isMatch
  refine h.array hread hf hstrat layout htext _ fun k hk cell hcell m hbox => ?_
  have hk' : k < rs.nRows := hf.nRows ▸ hk
  rw [← hf.elementAddress_eq hk' hcell hbox]
  rw [← (hf.ofCell k hk' cell hcell).2] at hbox
  exact ((readPlan_at hrs hm col buffer).1 k hk' m hbox).1
    ((plan_live_iff hrs hm).mp hlive k hk' m hbox)

/-- A read of a request, from its shape to its array. -/
theorem ArrayRequest.read [LeafValue β] (h : ArrayRequest col sel n)
    (srt : StdSort)
    (nInstances : Nat) (unitStart : Option RowUnitStart)
    {configured : Option String} {strat : ConvertStrategy}
    (hstrat : getConvertStrategy configured = .ok strat)
    {schedule : List DataChunk → List DataChunk}
    (hschedule : ∀ chunks, (schedule chunks).Perm chunks)
    (layout : ElementLayout col.columnDesc.dataType α β)
    (htext : TextFits layout sel) (emptyString : α) (allocated : Memory α) :
    ∃ rs, ∃ array : ArrowArray β,
      ResultShapeData.makeRead col sel false = .ok rs ∧ ReadFacts col sel rs n
      ∧ readImpl srt nInstances unitStart configured schedule col layout
          emptyString sel allocated = .ok array.data
      ∧ IsArrayOf layout sel rs array
      ∧ ∃ buffer, makeArray configured rs (layout.values buffer rs.nElements)
          = .ok array.data := by
  obtain ⟨rs, p, hread, hf, hp, hplanned⟩ :=
    h.plan_ok srt (readSplit nInstances unitStart)
  have hrs := hf.consistent
  have hm := hf.isMatch
  obtain ⟨buffer, hbuffer⟩ := allocateBuffer_ok hplanned.supported emptyString
    allocated
  set chunks := if 1 < nInstances ∧ 1 < p.dataChunks.length
    then schedule p.dataChunks else p.dataChunks with hchunks
  have hperm : chunks.Perm p.dataChunks := scheduled_perm hschedule _
  have hfilled := (readChunks_planned hrs hm
    (fun c hc => hplanned.partitions.planned c (hperm.mem_iff.mp hc))
    ((hperm.flatMap_right _).trans hplanned.moves) col p.casaDtype buffer _).mpr
    ⟨⟨hplanned.supported, hplanned.has⟩, rfl⟩
  obtain ⟨array, harray, hof⟩ :=
    h.filled hread hf hplanned.live hstrat layout htext buffer
  refine ⟨rs, array, hread, hf, ?_, hof, _, harray⟩
  unfold readImpl
  rw [hread, Result.ok_bind, hp, Result.ok_bind, hbuffer, Result.ok_bind]
  dsimp only
  rw [← hchunks, hfilled, Result.ok_bind]
  exact harray

/-- Two elements of each of two rows, out of order. -/
theorem sampleRequest : ArrayRequest sampleColumn sampleSelection 1 where
  gather := by
    refine @GatherRequest.ofFixed _ _ _ [5] rfl (by decide) (by decide)
      (by decide) (fun _ => by decide) (by decide) fun d hd ids hids => ?_
    obtain rfl : d = 0 := Nat.lt_one_iff.mp hd
    have hsel : sampleSelection.maybeFSpan 0 2 = some [4, 0] := by decide
    cases hsel.symm.trans hids
    decide
  full := by
    intro k hk cell hcell
    have hall : ∀ k < 2, cellOf sampleColumn sampleSelection k = some [5] := by
      decide
    cases (hall k hk).symm.trans hcell
    decide
  small := by decide

end Arcae
