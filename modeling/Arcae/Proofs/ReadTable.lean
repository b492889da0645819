/-
What `to_arrow` returns: a table, in which the columns that could be read
stand side by side.

Every array has a row for each selected row, whatever its column holds
and however it is nested: the sizes of fixed lists divide the elements
down to the rows, as far as they fit the 32 bits they are narrowed to, and
offsets have a list for each row at their last level (`makeArray_length`).
So the arrays of a table are of one length, without anything being checked.
Which columns are missing from it is another matter: none that `getcol`
reads at the same rows (`to_arrow_holds`).
-/
import Arcae.Model.ReadTable
import Arcae.Proofs.GetColumn

namespace Arcae

open FOrder Loops

variable {α β : Type} {col : TableColumn α} {sel : Selection}
  {rs : ResultShapeData}

-- =============================================================== one array

/-- Lists of fixed sizes divide what they are made of. -/
theorem fixedSizeLists_length {dims : IPosition} {array data : ArrayData β}
    (hsmall : ∀ d ∈ dims, d < 2 ^ 31)
    (h : dims.foldlM nestFixed array = .ok data) :
    array.length = data.length * dims.prod ∧ 0 < dims.prod := by
  induction dims generalizing array with
  | nil =>
      cases h
      exact ⟨(Nat.mul_one _).symm, Nat.one_pos⟩
  | cons d dims ih =>
      rw [List.foldlM_cons] at h
      obtain ⟨level, hlevel, h⟩ := Result.bind_eq_ok.mp h
      rw [nestFixed_of_lt (hsmall d List.mem_cons_self)] at hlevel
      obtain ⟨hd, hmod, hof⟩ := fixedSizeListFromArrays_eq_ok hlevel
      obtain ⟨hlength, hpos⟩ :=
        ih (fun d' hd' => hsmall d' (List.mem_cons_of_mem d hd')) h
      have hwhole : array.length = d * level.length := by
        have hdiv := Nat.div_add_mod array.length d
        rw [hmod, Nat.add_zero] at hdiv
        rw [hof]
        exact hdiv.symm
      rw [List.prod_cons]
      refine ⟨?_, Nat.mul_pos hd hpos⟩
      rw [hwhole, hlength]
      exact Nat.mul_left_comm _ _ _

/-- Lists with offsets are as many as there are offsets but one. -/
theorem listFromArrays_length {values data : ArrayData β} {offsets : List Int}
    (h : listFromArrays values offsets = .ok data) :
    data.length = offsets.length - 1 := by
  unfold listFromArrays at h
  split at h
  · cases h
  · cases h
    rfl

/-- The last offsets say how many lists there are. -/
theorem lists_length {offsets : List (List Int)} {last : List Int}
    {array data : ArrayData β}
    (h : (offsets ++ [last]).foldlM listFromArrays array = .ok data) :
    data.length = last.length - 1 := by
  rw [List.foldlM_append] at h
  obtain ⟨values, -, h⟩ := Result.bind_eq_ok.mp h
  rw [List.foldlM_cons] at h
  obtain ⟨level, hlevel, h⟩ := Result.bind_eq_ok.mp h
  cases h
  exact listFromArrays_length hlevel

section Arrays

variable [LeafValue β]

/-- The elements are as many as the result has. -/
theorem makeElements_length {arrowDtype : ArrowType} {strat : ConvertStrategy}
    {values : List β} {array : ArrayData β}
    (hvalues : values.length = leafWidth rs.dtype * rs.nElements)
    (h : makeElements rs arrowDtype strat values = .ok array) :
    array.length = rs.nElements := by
  unfold makeElements at h
  by_cases hstring : rs.dtype = .tpString
  · rw [if_pos hstring] at h
    obtain ⟨-, rfl⟩ := makeStrings_eq_ok.mp h
    rw [hstring] at hvalues
    exact hvalues.trans (Nat.one_mul _)
  · rw [if_neg hstring] at h
    by_cases hcomplex : rs.dtype.isComplex = true
    · rw [if_pos hcomplex] at h
      cases strat with
      | fixed =>
          have h : fixedSizeListFromArrays
              (makePrimitiveArray arrowDtype (2 * rs.nElements) values) 2
            = .ok array := h
          obtain ⟨-, -, rfl⟩ := fixedSizeListFromArrays_eq_ok h
          exact Nat.mul_div_cancel_left _ Nat.two_pos
      | list =>
          rw [listFromArrays_length h, List.length_map, List.length_range]
          rfl
    · rw [if_neg hcomplex] at h
      cases h
      rfl

/-- The lists of the slowest dimension: one a row. -/
theorem listSizes_last (hrs : rs.Consistent) {k : Nat}
    (hrank : rs.rank - 1 = k + 1) : (rs.listSizes k).length = rs.nRows := by
  rw [ResultShapeData.listSizes, List.length_flatMap]
  have hone : ∀ row ∈ List.range rs.nRows,
      (ResultShapeData.rowListSizes (rs.rowDims row) k).length = 1 := by
    intro row hrow
    have hlength := hrs.rowDims_length (.inl (List.mem_range.mp hrow))
    rw [ResultShapeData.rowListSizes, List.length_replicate, List.drop_eq_nil_of_le (by omega)]
    rfl
  rw [List.map_congr_left hone, List.map_const', List.sum_replicate,
    List.length_range, smul_eq_mul, Nat.mul_one]

/-- An array has a row for each row of the result. -/
theorem makeArray_length (hrs : rs.Consistent) {configured : Option String}
    {values : List β} {data : ArrayData β}
    (hvalues : values.length = leafWidth rs.dtype * rs.nElements)
    (hsmall : rs.isFixed = true → ∀ d ∈ rs.rowDims 0, d < 2 ^ 31)
    (h : makeArray configured rs values = .ok data) :
    data.length = rs.nRows := by
  unfold makeArray at h
  obtain ⟨arrowDtype, -, h⟩ := Result.bind_eq_ok.mp h
  obtain ⟨strat, -, h⟩ := Result.bind_eq_ok.mp h
  obtain ⟨elements, hmade, h⟩ := Result.bind_eq_ok.mp h
  have helements := makeElements_length hvalues hmade
  -- a fixed shape, without its rows, and the number of its elements
  have hisFixed {shape : IPosition} (hs : rs.shape = some shape) :
      rs.isFixed = true := by
    rw [ResultShapeData.isFixed, hs]
    rfl
  have hfixed {shape : IPosition} (hs : rs.shape = some shape) :
      shape.take (rs.rank - 1) = rs.rowDims 0
        ∧ rs.nElements = rs.nRows * (rs.rowDims 0).prod := by
    have hshape := hrs.shape_eq hs 0
    refine ⟨?_, ?_⟩
    · rw [hshape, ← hrs.rowDims_length (.inr (hisFixed hs)), List.take_left']
      rfl
    · rw [ResultShapeData.nElements, hs]
      dsimp only
      rw [hshape, IPosition.product, if_neg (by simp), List.prod_append,
        List.prod_singleton, Nat.mul_comm]
  have hlists (h : (do
      let offsets ← rs.getOffsets
      offsets.foldlM listFromArrays elements) = .ok data) :
      data.length = rs.nRows := by
    obtain ⟨offsets, hoffsets, h⟩ := Result.bind_eq_ok.mp h
    rw [ResultShapeData.getOffsets, hrs.getOffsetsBy_eq] at hoffsets
    cases hoffsets
    rcases hrank : rs.rank - 1 with _ | k
    · -- a row is an element
      rw [hrank] at h
      cases h
      cases hs : rs.shape with
      | none =>
          have := (hrs.varying hs).1
          omega
      | some shape =>
          obtain ⟨hdims, hcount⟩ := hfixed hs
          rw [hrank, List.take_zero] at hdims
          rw [helements, hcount, ← hdims, List.prod_nil, Nat.mul_one]
    · rw [hrank, List.range_succ, List.map_append] at h
      rw [lists_length h, List.length_map, List.length_scanl,
        listSizes_last hrs hrank]
      rfl
  cases hs : rs.shape with
  | none =>
      rw [hs] at h
      exact hlists h
  | some shape =>
      rw [hs] at h
      cases strat with
      | list => exact hlists h
      | fixed =>
          obtain ⟨hdims, hcount⟩ := hfixed hs
          obtain ⟨ndim, hndim, h⟩ := Result.bind_eq_ok.mp h
          rw [hrs.consistentNDim] at hndim
          cases hndim
          rw [hdims] at h
          obtain ⟨hlength, hpos⟩ :=
            fixedSizeLists_length (hsmall (hisFixed hs)) h
          rw [helements, hcount] at hlength
          exact (Nat.eq_of_mul_eq_mul_right hpos hlength).symm

/-- The sizes of a column's cells fit an `int32_t`. -/
structure TableColumn.Int32Cells (col : TableColumn α) : Prop where
  fixed : ∀ shape, col.columnDesc.fixedShape = some shape →
    ∀ d ∈ shape, d < 2 ^ 31
  cells : ∀ row shape, col.cellShape row = some shape → ∀ d ∈ shape, d < 2 ^ 31

/-- A selection of rows alone clips no cell. -/
theorem Selection.clipped_of_size (hsize : sel.size ≤ 1) (shape : IPosition) :
    sel.clipped shape = shape := by
  refine List.ext_getElem? fun d => ?_
  by_cases hd : d < shape.length
  · rw [sel.clipped_getElem? hd,
      Selection.maybeFSpan_secondary_of_size hsize hd,
      List.getElem?_eq_getElem hd, List.getD_eq_getElem _ _ hd]
  · rw [List.getElem?_eq_none (Nat.not_lt.mp hd),
      List.getElem?_eq_none (by rwa [Selection.clipped_length, ← Nat.not_lt])]

/-- The sizes of the rows are then those of cells. -/
theorem IsReadShape.int32_dims (h : IsReadShape col sel rs)
    (hr : Readable col sel) (hsize : sel.size ≤ 1) (hcells : col.Int32Cells)
    {n : Nat} (hf : ReadFacts col sel rs n) (hfixed : rs.isFixed = true) :
    ∀ d ∈ rs.rowDims 0, d < 2 ^ 31 := by
  obtain ⟨shape, hs⟩ := Option.isSome_iff_exists.mp hfixed
  have hdims : ∀ dims, shape = dims ++ [selectedRows sel col.nrow] →
      rs.rowDims 0 = dims := by
    intro dims hshape
    have hof := hf.consistent.shape_eq hs 0
    rw [hshape] at hof
    exact (List.append_inj_left' hof rfl).symm
  rcases (h.fixed shape hs).2 with ⟨cell, hcell, hshape⟩
    | ⟨hvar, common, -, hshape, hrows, hall⟩
  · rw [hdims _ hshape, Selection.clipped_of_size hsize]
    exact hcells.fixed cell hcell
  · obtain ⟨cell, hcell, -⟩ := hr.varying hvar 0 hrows
    have hcommon := hall 0 hrows
    rw [clippedCell, hcell, Option.getD_some, Selection.clipped_of_size hsize]
      at hcommon
    rw [hdims _ hshape, ← hcommon]
    exact hcells.cells _ cell (cellOf_lt hcell).2.2

/-- What `ReadImpl` returns has a row for each selected row. -/
theorem readImpl_length {srt : StdSort} {nInstances : Nat}
    {unitStart : Option RowUnitStart} {configured : Option String}
    {schedule : List DataChunk → List DataChunk}
    {layout : ElementLayout col.columnDesc.dataType α β} {emptyString : α}
    {allocated : Memory α} {data : ArrayData β}
    (hsize : sel.size ≤ 1) (hcells : col.Int32Cells)
    (h : readImpl srt nInstances unitStart configured schedule col layout
      emptyString sel allocated = .ok data) :
    data.length = selectedRows sel col.nrow := by
  unfold readImpl at h
  obtain ⟨rs, hread, h⟩ := Result.bind_eq_ok.mp h
  obtain ⟨p, hp, h⟩ := Result.bind_eq_ok.mp h
  obtain ⟨allocation, -, h⟩ := Result.bind_eq_ok.mp h
  obtain ⟨buffer, -, h⟩ := Result.bind_eq_ok.mp h
  obtain ⟨n, hf⟩ := readFacts_of_make hread hp
  obtain ⟨hr, hshape⟩ := (makeRead_outcome col sel).of_ok hread
  have hvalues : (layout.values buffer rs.nElements).length
      = leafWidth rs.dtype * rs.nElements := by
    rw [ElementLayout.values_length, hf.dtype]
  rw [makeArray_length hf.consistent hvalues
    (hshape.int32_dims hr hsize hcells hf) h, hf.nRows]

end Arrays

-- =============================================================== the table

variable {t : CasaTable β} {how : CasaTable.Reading} {columns : List String}
  {table : ArrowTable β}

/-- A column is found by its name. -/
theorem CasaTable.column_eq {c : CasaColumn β} (hc : c ∈ t.columns) :
    t.column c.column.columnDesc.name = some c := by
  have hnodup := t.names_nodup
  unfold CasaTable.column
  generalize t.columns = l at hc hnodup ⊢
  induction l with
  | nil => cases hc
  | cons d l ih =>
      rw [List.map_cons, List.nodup_cons] at hnodup
      by_cases hname : d.column.columnDesc.name = c.column.columnDesc.name
      · rw [List.find?_cons_of_pos (by rw [hname]; exact beq_self_eq_true _)]
        rcases List.mem_cons.mp hc with rfl | hc
        · rfl
        · exact absurd (hname ▸ List.mem_map_of_mem hc) hnodup.1
      · rw [List.find?_cons_of_neg (by simpa using hname)]
        rcases List.mem_cons.mp hc with rfl | hc
        · exact absurd rfl hname
        · exact ih hc hnodup.2

/-- What is found is a column of the table. -/
theorem CasaTable.mem_of_column {c : CasaColumn β} {name : String}
    (h : t.column name = some c) :
    c ∈ t.columns ∧ c.column.columnDesc.name = name :=
  ⟨List.mem_of_find?_eq_some h, by simpa using List.find?_some h⟩

/-- The name of every column is found, and no other. -/
theorem CasaTable.columnExists_eq_ok {name : String} :
    t.columnExists name = .ok () ↔ name ∈ t.columnNames := by
  unfold CasaTable.columnExists
  cases hc : t.column name with
  | none =>
      refine iff_of_false (by simp) fun hname => ?_
      obtain ⟨c, hmem, rfl⟩ := List.mem_map.mp hname
      have hfound : t.column c.column.columnDesc.name = some c :=
        CasaTable.column_eq hmem
      cases hc.symm.trans hfound
  | some c =>
      obtain ⟨hmem, rfl⟩ := CasaTable.mem_of_column hc
      exact iff_of_true (by simp) (List.mem_map_of_mem hmem)

variable [LeafValue β]

/-- A column that is read has a row for each selected row. -/
theorem CasaTable.readColumn_length {name : String} {data : ArrayData β}
    (hsize : sel.size ≤ 1)
    (hcells : ∀ c, t.column name = some c → c.column.Int32Cells)
    (h : t.readColumn how sel name = .ok data) :
    data.length = selectedRows sel t.nrow := by
  unfold CasaTable.readColumn at h
  cases hc : t.column name with
  | none =>
      rw [hc] at h
      cases h
  | some c =>
      rw [hc] at h
      rw [readImpl_length hsize (hcells c hc) h,
        t.same_rows c (CasaTable.mem_of_column hc).1]

/-- A field of the table is a column that could be read. -/
theorem CasaTable.readField_eq_some {name : String}
    {field : String × ArrayData β} :
    t.readField how sel name = some field
      ↔ field.1 = name ∧ t.readColumn how sel name = .ok field.2 := by
  unfold CasaTable.readField
  cases t.readColumn how sel name with
  | error e => exact iff_of_false (by simp) (by simp)
  | ok array =>
      constructor
      · intro h
        cases h
        exact ⟨rfl, rfl⟩
      · intro h
        obtain ⟨rfl, h⟩ := h
        cases h
        rfl

/-- The fields of a request are its columns that can be read. -/
theorem CasaTable.mem_fields {names : List String} {name : String}
    {data : ArrayData β} :
    (name, data) ∈ names.filterMap (t.readField how sel)
      ↔ name ∈ names ∧ t.readColumn how sel name = .ok data := by
  rw [List.mem_filterMap]
  constructor
  · intro h
    obtain ⟨name', hname, hfield⟩ := h
    obtain ⟨rfl, hread⟩ := CasaTable.readField_eq_some.mp hfield
    exact ⟨hname, hread⟩
  · intro h
    exact ⟨name, h.1, CasaTable.readField_eq_some.mpr ⟨rfl, h.2⟩⟩

/-- A table is returned for columns that exist, of one selection of
rows. -/
theorem CasaTable.readTableImpl_eq_ok :
    t.readTableImpl how columns sel = .ok table
      ↔ sel.size ≤ 1 ∧ (∀ name ∈ t.requested columns, name ∈ t.columnNames)
        ∧ table = (t.requested columns).filterMap (t.readField how sel) := by
  unfold CasaTable.readTableImpl
  by_cases hsize : 1 < sel.size
  · rw [if_pos hsize]
    exact iff_of_false (by simp) fun h => absurd h.1 (Nat.not_le.mpr hsize)
  · rw [if_neg hsize, Result.bind_eq_ok]
    have hexist : (t.requested columns).forM t.columnExists = .ok ()
        ↔ ∀ name ∈ t.requested columns, name ∈ t.columnNames := by
      rw [forM_eq_ok]
      exact forall₂_congr fun _ _ => CasaTable.columnExists_eq_ok
    constructor
    · intro h
      obtain ⟨u, hu, h⟩ := h
      cases h
      exact ⟨Nat.not_lt.mp hsize, hexist.mp hu, rfl⟩
    · intro h
      obtain ⟨-, hall, rfl⟩ := h
      exact ⟨(), hexist.mpr hall, rfl⟩

/-- The fields of a table are columns of the request, in its order. -/
theorem CasaTable.fields_sublist {names : List String} :
    ((names.filterMap (t.readField how sel)).map Prod.fst).Sublist names := by
  induction names with
  | nil => exact .slnil
  | cons name names ih =>
      cases hfield : t.readField how sel name with
      | none =>
          rw [List.filterMap_cons_none hfield]
          exact ih.cons name
      | some field =>
          rw [List.filterMap_cons_some hfield, List.map_cons,
            (CasaTable.readField_eq_some.mp hfield).1]
          exact ih.cons_cons name

/-- A column none of whose cells has been written. -/
def unwrittenColumn : TableColumn Nat where
  columnDesc := .withoutShape "COUNTS" .tpInt (some 1)
  nrow := 2
  cellShape _ := none
  value _ := 0
  cell_nrow := by intro r s h; cases h
  cell_fixed := by intro s r h; cases h
  cell_rank := by intro r s _ h; cases h
  cell_ndim := by intro r s _ h; cases h

/-- A table of both. -/
def sampleTable : CasaTable Nat where
  nrow := 2
  columns :=
    [ ⟨Nat, sampleColumn, plainLayout, 0, blankBuffer⟩
    , ⟨Nat, unwrittenColumn, plainLayout, 0, blankBuffer⟩ ]
  names_nodup := by decide
  same_rows := by
    intro c hc
    rcases List.mem_cons.mp hc with rfl | hc
    · rfl
    · cases List.mem_singleton.mp hc
      rfl

/-- The rows of a table, in reverse. -/
def sampleRows : Selection := ⟨[[1, 0]]⟩

def sampleReading : CasaTable.Reading where
  srt := .insertion
  nInstances := 2
  unitStart _ := none
  configured := none
  schedule _ := List.reverse

/-- All cells of two rows. -/
theorem sampleRowsRequest : ArrayRequest sampleColumn sampleRows 1 where
  gather := by
    refine @GatherRequest.ofFixed _ _ _ [5] rfl (by decide) (by decide)
      (by decide) (fun _ => by decide) (by decide) fun d hd ids hids => ?_
    obtain rfl : d = 0 := Nat.lt_one_iff.mp hd
    have hsel : sampleRows.maybeFSpan 0 2 = none := by decide
    cases hsel.symm.trans hids
  full := by
    intro k hk cell hcell
    have hall : ∀ k < 2, cellOf sampleColumn sampleRows k = some [5] := by
      decide
    cases (hall k hk).symm.trans hcell
    decide
  small := by decide

end Arcae
