/-
What the shapes of the selected rows say.

`ReportsShapes` is the answer that is asked for: one entry a row, null
exactly where the row has no cell, and otherwise the cell's shape in C
order. Every path of `getShapeArray` gives the shapes of the rows that
have cells, in 32 bits (`HasShapes`); they differ in which rows they null:
one shape for all rows nulls none, shapes by row null the missing ones.

So the answer is right exactly if no row is missing where the column's
own shape is taken for all of them, the rank of the missing rows is known
somehow, and the sizes fit 32 bits (`getRowShapes_reports_iff`).
-/
import Arcae.Model.RowShapes
import Arcae.Proofs.RowScan
import Arcae.Proofs.WriteFailure
import Arcae.Proofs.OffsetWidth
import Arcae.Spec.Arrow

namespace Arcae

open Loops

variable {α : Type}

-- ============================================================ what is asked

/-- Entry `i` of an array is null. -/
def ArrayData.isNullAt : ArrayData Int → Nat → Bool
  | .leaf slots, i =>
      slots.validity.elim false fun valid => !valid.getD (slots.offset + i) true
  | .list level _, i =>
      level.validity.elim false fun valid => !valid.getD (level.offset + i) true

/-- One entry for each selected row: null if the row is missing, and the
shape of its cell in C order otherwise. -/
structure ReportsShapes (col : TableColumn α) (sel : Selection)
    (data : ArrayData Int) : Prop where
  length : data.length = selectedRows sel col.nrow
  isNull : ∀ i < selectedRows sel col.nrow,
    data.isNullAt i = true ↔ cellOf col sel i = none
  shape : ∀ i < selectedRows sel col.nrow, ∀ shape,
    cellOf col sel i = some shape →
      data.leavesOf i = shape.reverse.map Int.ofNat

/-- An array column whose cells have one rank. -/
structure OneRank (col : TableColumn α) : Prop where
  array : col.columnDesc.ndim ≠ 0
  rank : ∀ r r' s s', col.cellShape r = some s → col.cellShape r' = some s' →
    s.length = s'.length

/-- Rows are selected, and none of them lies beyond the table. -/
structure SelectsRows (col : TableColumn α) (sel : Selection) : Prop where
  size : sel.size ≤ 1
  inRange : ∀ i < selectedRows sel col.nrow, selectedRow sel i < col.nrow

/-- When the shapes can be reported: the rows can be counted, no row is
missing from a column of one shape, the rank of another column is fixed
or found in a selected cell, and the sizes fit 32 bits. -/
structure Reportable (col : TableColumn α) (sel : Selection) : Prop where
  limit : col.nrow ≤ indexTypeMax
  fixed : col.columnDesc.isFixedShape = true →
    ∀ i < selectedRows sel col.nrow, 0 ≤ selectedRow sel i
  varying : col.columnDesc.isFixedShape = false →
    0 ≤ col.columnDesc.ndim
      ∨ ∃ i < selectedRows sel col.nrow, cellOf col sel i ≠ none
  sizes : ∀ i < selectedRows sel col.nrow, ∀ shape,
    cellOf col sel i = some shape → ∀ n ∈ shape, n < 2 ^ 31

-- ============================================================== the entries

/-- A shape in C order, in 32 bits. -/
def narrowed (shape : IPosition) : List Int :=
  shape.reverse.map fun n : Nat => toInt32 n

theorem narrowed_eq_iff (shape : IPosition) :
    narrowed shape = shape.reverse.map Int.ofNat ↔ ∀ n ∈ shape, n < 2 ^ 31 := by
  rw [narrowed, List.map_inj_left]
  simp only [List.mem_reverse]
  exact forall₂_congr fun n _ => toInt32_eq_iff

/-- The shapes of the rows that have cells are in the array, in 32 bits,
and the rows that are null are these. -/
structure HasShapes (col : TableColumn α) (sel : Selection)
    (data : ArrayData Int) (nulls : Nat → Bool) : Prop where
  length : data.length = selectedRows sel col.nrow
  isNull : ∀ i < selectedRows sel col.nrow, data.isNullAt i = nulls i
  shape : ∀ i < selectedRows sel col.nrow, ∀ shape,
    cellOf col sel i = some shape → data.leavesOf i = narrowed shape

/-- Such an array is the answer if the missing rows are the null ones and
the sizes fit. -/
theorem HasShapes.reports_iff {col : TableColumn α} {sel : Selection}
    {data : ArrayData Int} {nulls : Nat → Bool}
    (h : HasShapes col sel data nulls) :
    ReportsShapes col sel data
      ↔ (∀ i < selectedRows sel col.nrow, nulls i = true ↔ cellOf col sel i = none)
        ∧ ∀ i < selectedRows sel col.nrow, ∀ shape,
          cellOf col sel i = some shape → ∀ n ∈ shape, n < 2 ^ 31 := by
  constructor
  · intro hr
    refine ⟨fun i hi => ?_, fun i hi shape hc => ?_⟩
    · rw [← h.isNull i hi]
      exact hr.isNull i hi
    · rw [← narrowed_eq_iff, ← h.shape i hi shape hc]
      exact hr.shape i hi shape hc
  · intro hx
    obtain ⟨hnulls, hsizes⟩ := hx
    refine ⟨h.length, fun i hi => ?_, fun i hi shape hc => ?_⟩
    · rw [h.isNull i hi]
      exact hnulls i hi
    · rw [h.shape i hi shape hc]
      exact (narrowed_eq_iff shape).mpr (hsizes i hi shape hc)

-- ============================================================ building lists

/-- The array whose entries are some rows of one size. -/
def listOfRows (rows : List (List Int)) (n : Nat) (nulls : Option (List Bool)) :
    ArrayData Int :=
  .list
    { layout := .fixedSizeList n
      offset := 0
      length := rows.flatten.length / n
      validity := nulls }
    (int32Array rows.flatten)

theorem flatten_length {rows : List (List Int)} {n : Nat}
    (hrows : ∀ row ∈ rows, row.length = n) :
    rows.flatten.length = rows.length * n := by
  rw [List.length_flatten, List.map_congr_left hrows, List.map_const',
    List.sum_replicate_nat]

/-- A multiple of a positive size makes an array. -/
theorem fixedSizeListFromArrays_rows {rows : List (List Int)} {n : Nat}
    (hn : 0 < n) (hrows : ∀ row ∈ rows, row.length = n) :
    fixedSizeListFromArrays (int32Array rows.flatten) n
      = .ok (listOfRows rows n none) := by
  have hmod : (int32Array rows.flatten).length % n = 0 := by
    show rows.flatten.length % n = 0
    rw [flatten_length hrows, Nat.mul_mod_left]
  exact fixedSizeListFromArrays_of_dvd hn hmod

/-- A list array made of rows of one size has these rows. -/
theorem fixedSizeList_rows {rows : List (List Int)} {n : Nat} (hn : 0 < n)
    (hrows : ∀ row ∈ rows, row.length = n) (nulls : Option (List Bool)) :
    (listOfRows rows n nulls).length = rows.length
      ∧ ∀ i (hi : i < rows.length),
        (listOfRows rows n nulls).leavesOf i = rows[i] := by
  have hlen := flatten_length hrows
  refine ⟨?_, fun i hi => ?_⟩
  · show rows.flatten.length / n = rows.length
    rw [hlen, Nat.mul_div_cancel _ hn]
  · have hrow : rows[i].length = n := hrows _ (List.getElem_mem hi)
    -- the values of entry `i` start after `i` rows
    have hsplit : rows.flatten.drop (i * n)
        = rows[i] ++ (rows.drop (i + 1)).flatten := by
      have hfront : (rows.take i).flatten.length = i * n := by
        rw [List.length_flatten, List.map_congr_left
          fun row hr => hrows row (List.mem_of_mem_take hr), List.map_const',
          List.sum_replicate_nat, List.length_take, Nat.min_eq_left (Nat.le_of_lt hi)]
      have hparts : rows.flatten
          = (rows.take i).flatten ++ (rows[i] ++ (rows.drop (i + 1)).flatten) := by
        rw [← List.flatten_cons, ← List.drop_eq_getElem_cons hi,
          ← List.flatten_append, List.take_append_drop]
      rw [hparts, List.drop_left' hfront]
    have hsize : ListArray.size
        { layout := .fixedSizeList n
          offset := 0
          length := rows.flatten.length / n
          validity := nulls } i = n := by
      simp only [ListArray.size, ListArray.start, Nat.add_zero, Nat.succ_mul,
        Nat.add_sub_cancel_left]
    have hleaf : ∀ j < n, rows.flatten[i * n + j]? = rows[i][j]? := by
      intro j hj
      rw [← List.getElem?_drop, hsplit, List.getElem?_append_left (by omega)]
    show (List.range (ListArray.size _ i)).flatMap _ = rows[i]
    rw [hsize]
    refine Eq.trans (b := (List.range n).flatMap fun j => (rows[i][j]?).toList) ?_ ?_
    · refine List.flatMap_congr fun j hj => ?_
      simp only [int32Array, ArrayData.leavesOf, ListArray.start, Nat.zero_add,
        Nat.add_zero]
      rw [hleaf j (List.mem_range.mp hj)]
    · rw [← hrow]
      clear hrow hsplit hsize hleaf
      induction rows[i] with
      | nil => rfl
      | cons v vs ih =>
          rw [List.length_cons, List.range_succ_eq_map, List.flatMap_cons,
            List.flatMap_map]
          simpa using ih

/-- The sizes of a shape of the right rank, or of one with more. -/
theorem appendSizes_ok {ndim : Nat} {shape : IPosition}
    (h : ndim ≤ shape.length) :
    ResultShapeData.appendSizes ndim shape = .ok (narrowed (shape.take ndim)) := by
  have hsizes : (List.range ndim).map (fun dim => shape.getD dim 0)
      = shape.take ndim := by
    refine List.ext_getElem (by simp [h]) fun d h₁ h₂ => ?_
    have hd : d < shape.length := by
      rw [List.length_map, List.length_range] at h₁
      omega
    rw [List.getElem_map, List.getElem_range, List.getElem_take,
      List.getD_eq_getElem _ _ hd]
  have hnarrowed : narrowed (shape.take ndim)
      = (List.range ndim).reverse.map fun dim : Nat =>
          toInt32 (shape.getD dim 0 : Nat) := by
    rw [narrowed, ← hsizes, ← List.map_reverse, List.map_map]
    simp only [Function.comp_def]
  rw [ResultShapeData.appendSizes, hnarrowed]
  refine mapM_ok_of_forall fun dim hdim => ?_
  have hlt := List.mem_range.mp (List.mem_reverse.mp hdim)
  rw [List.getElem?_eq_getElem (by omega),
    List.getD_eq_getElem _ _ (show dim < shape.length by omega)]

section Entries

variable {col : TableColumn α} {sel : Selection} {ndim : Nat}

theorem narrowed_length (shape : IPosition) :
    (narrowed shape).length = shape.length := by
  rw [narrowed, List.length_map, List.length_reverse]

/-- One shape for all rows is reported for each of them. -/
theorem getShapeArray_ofShape (name : String) (dtype : DataType)
    {shape : IPosition} (hne : shape ≠ [])
    (hcells : ∀ i < selectedRows sel col.nrow, ∀ cell,
      cellOf col sel i = some cell → cell = shape) :
    ∃ data, (ResultShapeData.ofShape name
        (shape ++ [selectedRows sel col.nrow]) dtype).getShapeArray = .ok data
      ∧ HasShapes col sel data fun _ => false := by
  obtain ⟨n, hn⟩ : ∃ n, shape.length = n + 1 :=
    ⟨shape.length - 1, by have := List.length_pos_iff.mpr hne; omega⟩
  have hsizes : (List.range (selectedRows sel col.nrow)).mapM
      (fun _ => ResultShapeData.appendSizes (n + 1)
        (shape ++ [selectedRows sel col.nrow]))
      = .ok ((List.range (selectedRows sel col.nrow)).map
          fun _ => narrowed shape) := by
    refine mapM_ok_of_forall fun i _ => ?_
    rw [appendSizes_ok (by rw [List.length_append]; omega), ← hn, List.take_left]
  have hlens : ∀ row ∈ (List.range (selectedRows sel col.nrow)).map
      (fun _ => narrowed shape), row.length = n + 1 := by
    intro row hrow
    obtain ⟨i, -, rfl⟩ := List.mem_map.mp hrow
    rw [narrowed_length, hn]
  obtain ⟨hlen, hleaves⟩ := fixedSizeList_rows (Nat.succ_pos n) hlens none
  refine ⟨listOfRows ((List.range (selectedRows sel col.nrow)).map
    fun _ => narrowed shape) (n + 1) none, ?_, ?_⟩
  · have hndim : (ResultShapeData.ofShape name
        (shape ++ [selectedRows sel col.nrow]) dtype).consistentNDim
        = .ok (n + 2) := by
      unfold ResultShapeData.consistentNDim ResultShapeData.ofShape
      dsimp only
      rw [if_pos (by omega), List.length_append, hn]
      rfl
    have hrows : (ResultShapeData.ofShape name
        (shape ++ [selectedRows sel col.nrow]) dtype).nRows
        = selectedRows sel col.nrow := by
      show (shape ++ [_]).getLastD 0 = _
      rw [List.getLastD_concat]
    unfold ResultShapeData.getShapeArray
    rw [hndim]
    simp only [Result.ok_bind, hrows]
    show (do
      let sizes ← (List.range (selectedRows sel col.nrow)).mapM
        (fun _ => ResultShapeData.appendSizes (n + 1)
          (shape ++ [selectedRows sel col.nrow]))
      fixedSizeListFromArrays (int32Array sizes.flatten) (n + 1 : Nat)) = _
    rw [hsizes, Result.ok_bind, fixedSizeListFromArrays_rows (Nat.succ_pos n) hlens]
  · refine ⟨?_, fun _ _ => rfl, fun i hi cell hc => ?_⟩
    · rw [hlen, List.length_map, List.length_range]
    · rw [hleaves i (by simpa using hi), List.getElem_map, hcells i hi cell hc]

/-- The bit and the sizes of a row, by its cell. -/
def reportedRow (ndim : Nat) : Option IPosition → Bool × List Int
  | none => (false, narrowed (List.replicate ndim 0))
  | some cell => (true, narrowed cell)

/-- Shapes that are kept row by row are reported with the missing rows
null, if they have one rank. -/
theorem getShapeArray_varying (name : String) (dtype : DataType)
    (hpos : 0 < ndim)
    (hcells : ∀ i < selectedRows sel col.nrow, ∀ cell,
      cellOf col sel i = some cell → cell.length = ndim) :
    ∃ data, ResultShapeData.getShapeArray
        { columnName := name
          shape := none
          ndim := ndim + 1
          dtype := dtype
          rowShapes := some ((List.range (selectedRows sel col.nrow)).map
            fun i => (cellOf col sel i).getD [])
          cellExtents := none } = .ok data
      ∧ HasShapes col sel data fun i => (cellOf col sel i).isNone := by
  set cells : List IPosition := (List.range (selectedRows sel col.nrow)).map
    fun i => (cellOf col sel i).getD [] with hcellsdef
  set n := selectedRows sel col.nrow with hn
  set rs : ResultShapeData :=
    { columnName := name
      shape := none
      ndim := ndim + 1
      dtype := dtype
      rowShapes := some cells
      cellExtents := none } with hrs
  -- the bit and the sizes of each row
  set row : Nat → Bool × List Int := fun i =>
    reportedRow ndim (cellOf col sel i) with hrow
  have hrows : (List.range n).mapM (rs.appendRowSizes ndim)
      = .ok ((List.range n).map row) := by
    refine mapM_ok_of_forall fun i hi => ?_
    have hlt := List.mem_range.mp hi
    have hget : rs.getRowShape i = .ok ((cellOf col sel i).getD []) := by
      have hat : cells[i]? = some ((cellOf col sel i).getD []) := by
        rw [hcellsdef, List.getElem?_map, List.getElem?_range hlt]
        rfl
      have hshapes : rs.getRowShapes = cells := rfl
      unfold ResultShapeData.getRowShape
      rw [hshapes, hat]
    unfold ResultShapeData.appendRowSizes
    rw [hget]
    simp only [Result.ok_bind, hrow]
    cases hc : cellOf col sel i with
    | none =>
        have hsizes := @appendSizes_ok ndim (List.replicate ndim 0) (by simp)
        rw [List.take_of_length_le (by simp)] at hsizes
        simp only [Option.getD_none, isDegenerateShape, List.isEmpty_nil, if_true,
          hsizes, Result.ok_bind]
        rfl
    | some cell =>
        have hlen := hcells i hlt cell hc
        have hne : isDegenerateShape cell = false := by
          have hnil : cell ≠ [] := List.ne_nil_of_length_pos (by omega)
          simpa [isDegenerateShape] using hnil
        have hsizes := @appendSizes_ok ndim cell (by omega)
        rw [List.take_of_length_le (by omega)] at hsizes
        simp only [Option.getD_some, hne, Bool.false_eq_true, if_false, hsizes,
          Result.ok_bind, Result.pure_eq, reportedRow]
        rw [decide_eq_true (by omega)]
  have hlens : ∀ sizes ∈ ((List.range n).map row).map Prod.snd,
      sizes.length = ndim := by
    intro sizes hs
    rw [List.map_map] at hs
    obtain ⟨i, hi, rfl⟩ := List.mem_map.mp hs
    simp only [Function.comp_apply, hrow]
    cases hc : cellOf col sel i with
    | none => rw [reportedRow, narrowed_length, List.length_replicate]
    | some cell =>
        rw [reportedRow, narrowed_length, hcells i (List.mem_range.mp hi) cell hc]
  obtain ⟨hlen, hleaves⟩ := fixedSizeList_rows hpos hlens
    (some (((List.range n).map row).map Prod.fst))
  refine ⟨_, ?_, ⟨hlen.trans (by simp [hn]), fun i hi => ?_, fun i hi cell hc => ?_⟩⟩
  · have hndim : rs.consistentNDim = .ok (ndim + 1) := by
      have hrank : rs.ndim = ((ndim + 1 : Nat) : Int) := rfl
      unfold ResultShapeData.consistentNDim
      rw [hrank, if_pos (Int.natCast_nonneg _), Int.toNat_natCast]
    have hnrows : rs.nRows = n := by
      show cells.length = n
      rw [hcellsdef, List.length_map, List.length_range]
    obtain ⟨m, rfl⟩ : ∃ m, ndim = m + 1 := ⟨ndim - 1, by omega⟩
    unfold ResultShapeData.getShapeArray
    rw [hndim]
    simp only [Result.ok_bind, hnrows]
    show (do
      let rows ← (List.range n).mapM (rs.appendRowSizes (m + 1))
      let array ← fixedSizeListFromArrays
        (int32Array (rows.map Prod.snd).flatten) (m + 1 : Nat)
      pure (array.withNulls (rows.map Prod.fst))) = _
    rw [hrows, Result.ok_bind, fixedSizeListFromArrays_rows hpos hlens]
    rfl
  · show (!((((List.range n).map row).map Prod.fst).getD (0 + i) true)) = _
    rw [Nat.zero_add, List.map_map, List.getD_eq_getElem _ _ (by simpa using hi),
      List.getElem_map, List.getElem_range]
    simp only [Function.comp_apply, hrow]
    cases cellOf col sel i <;> rfl
  · rw [hleaves i (by simpa using hi), List.getElem_map, List.getElem_map,
      List.getElem_range]
    simp only [hrow, hc, reportedRow]

/-- The rank of shapes of one rank, some of them missing: that of one that
is not, or none. -/
theorem rowShapesNDim_missing {l : List IPosition} {start : Int} {n : Nat}
    (hpos : 0 < n) (hl : ∀ s ∈ l, s = [] ∨ s.length = n)
    (hstart : start = -1 ∨ start = n + 1) :
    rowShapesNDim l start
      = if start = -1 ∧ ∀ s ∈ l, s = [] then -1 else (n : Int) + 1 := by
  induction l generalizing start with
  | nil =>
      rw [rowShapesNDim]
      rcases hstart with rfl | rfl
      · simp
      · rw [if_neg (by omega)]
  | cons s l ih =>
      obtain ⟨hs, hrest⟩ := List.forall_mem_cons.mp hl
      rw [rowShapesNDim]
      rcases hs with rfl | hs
      · have hmissing : isDegenerateShape [] = true := rfl
        rw [if_pos hmissing, ih hrest hstart]
        simp
      · have hne : s ≠ [] := List.ne_nil_of_length_pos (by omega)
        have hmissing : isDegenerateShape s = false := by
          simpa [isDegenerateShape] using hne
        have hfound := @ih (n + 1) hrest (.inr rfl)
        rw [if_neg (by omega)] at hfound
        rw [if_neg (by rw [hmissing]; exact Bool.false_ne_true), hs]
        rcases hstart with rfl | rfl
        · rw [if_pos rfl, hfound, if_neg fun h => hne (h.2 s List.mem_cons_self)]
        · rw [if_neg (by omega), if_pos rfl, hfound, if_neg (by omega)]

/-- The shapes of the selected rows of a varying column, if its rows can
be counted. -/
theorem makeRowData_rows (hvar : col.columnDesc.fixedShape = none)
    (hsel : SelectsRows col sel) :
    makeRowData col sel true = .ok (rowSummary
      ((List.range (selectedRows sel col.nrow)).map
        fun i => (cellOf col sel i).getD [])) := by
  rw [← rowScan_eq_makeRowData, rowScan_plain hvar, mapM_ok_of_forall]
  · rfl
  · intro i hi
    have hlt := hsel.inRange i (List.mem_range.mp hi)
    unfold plainRowShape
    dsimp only
    rw [if_neg (by omega)]
    cases cellOf col sel i with
    | none => rfl
    | some cell => exact if_pos hsel.size

end Entries

-- ============================================================== the answer

/-- An answer that is not given is not right. -/
theorem not_reports_of_error {col : TableColumn α} {sel : Selection}
    {e : Status} (h : NewTableProxy.getRowShapes col sel = .error e) :
    ¬ ∃ data, NewTableProxy.getRowShapes col sel = .ok data
      ∧ ReportsShapes col sel data := by
  intro hx
  obtain ⟨data, hdata, -⟩ := hx
  rw [h] at hdata
  cases hdata

/-- An answer that has the shapes is right if it nulls the missing rows
and the sizes fit. -/
theorem reports_iff_of_ok {col : TableColumn α} {sel : Selection}
    {data : ArrayData Int} {nulls : Nat → Bool}
    (h : NewTableProxy.getRowShapes col sel = .ok data)
    (hshapes : HasShapes col sel data nulls) :
    (∃ data, NewTableProxy.getRowShapes col sel = .ok data
        ∧ ReportsShapes col sel data)
      ↔ (∀ i < selectedRows sel col.nrow, nulls i = true ↔ cellOf col sel i = none)
        ∧ ∀ i < selectedRows sel col.nrow, ∀ shape,
          cellOf col sel i = some shape → ∀ n ∈ shape, n < 2 ^ 31 := by
  rw [← hshapes.reports_iff]
  constructor
  · intro hx
    obtain ⟨data', hdata, hr⟩ := hx
    rw [h, Except.ok.injEq] at hdata
    rwa [hdata]
  · intro hr
    exact ⟨data, h, hr⟩

section Paths

variable {col : TableColumn α} {sel : Selection}

theorem getRowShapes_eq (hsel : SelectsRows col sel) :
    NewTableProxy.getRowShapes col sel
      = ResultShapeData.makeRead col sel true >>= fun rs => rs.getShapeArray := by
  have hsize := hsel.size
  rw [NewTableProxy.getRowShapes, if_neg (by omega)]

/-- A column of one shape reports it for every row. -/
theorem getRowShapes_fixed (hcol : OneRank col) (hsel : SelectsRows col sel)
    (hlimit : col.nrow ≤ indexTypeMax) {shape : IPosition}
    (hfixed : col.columnDesc.fixedShape = some shape) :
    ∃ data, NewTableProxy.getRowShapes col sel = .ok data
      ∧ HasShapes col sel data fun _ => false := by
  have hne : shape ≠ [] := by
    intro hnil
    have hndim := col.columnDesc.ndim_fixed shape hfixed
    rw [hnil] at hndim
    exact hcol.array hndim
  obtain ⟨data, hdata, hhas⟩ := @getShapeArray_ofShape _ col sel
    col.columnDesc.name col.columnDesc.dataType shape hne (by
      intro i _ cell hc
      obtain ⟨-, -, hcell⟩ := cellOf_lt hc
      have hsame := col.cell_fixed shape _ hfixed (col.cell_nrow _ _ hcell)
      exact Option.some.inj (hcell.symm.trans hsame))
  refine ⟨data, ?_, hhas⟩
  rw [getRowShapes_eq hsel, ResultShapeData.makeRead, checkRowNumberLimit,
    if_pos hlimit, hfixed]
  simp only [Result.ok_bind]
  rw [clip, if_pos hsel.size]
  exact hdata

/-- Rows of one shape report it, and no row of theirs is missing. -/
theorem getRowShapes_common (hsel : SelectsRows col sel)
    (hlimit : col.nrow ≤ indexTypeMax)
    (hvar : col.columnDesc.fixedShape = none) {common : IPosition}
    (hcommon : (rowSummary ((List.range (selectedRows sel col.nrow)).map
      fun i => (cellOf col sel i).getD [])).commonShape = some common) :
    (∃ data, NewTableProxy.getRowShapes col sel = .ok data
        ∧ HasShapes col sel data fun _ => false)
      ∧ 0 < selectedRows sel col.nrow
      ∧ ∀ i < selectedRows sel col.nrow, cellOf col sel i = some common := by
  obtain ⟨hnil, hne, hall⟩ := rowSummary_common.mp hcommon
  have hpos : 0 < selectedRows sel col.nrow := by
    have := List.length_pos_iff.mpr hnil
    simpa using this
  have hcells : ∀ i < selectedRows sel col.nrow,
      cellOf col sel i = some common := by
    intro i hi
    have hsame := hall _ (List.mem_map.mpr ⟨i, List.mem_range.mpr hi, rfl⟩)
    cases hc : cellOf col sel i with
    | none =>
        rw [hc] at hsame
        exact absurd hsame.symm hne
    | some cell =>
        rw [hc] at hsame
        rw [← hsame]
        rfl
  obtain ⟨data, hdata, hhas⟩ := @getShapeArray_ofShape _ col sel
    col.columnDesc.name col.columnDesc.dataType common hne (by
      intro i hi cell hc
      rw [hcells i hi] at hc
      exact (Option.some.inj hc).symm)
  refine ⟨⟨data, ?_, hhas⟩, hpos, hcells⟩
  rw [getRowShapes_eq hsel, ResultShapeData.makeRead, checkRowNumberLimit,
    if_pos hlimit, hvar]
  simp only [Result.ok_bind, makeRowData_rows hvar hsel, Bool.not_true,
    Bool.false_and, Bool.false_eq_true, if_false, hcommon]
  exact hdata

/-- Rows without a cell say nothing about the rank, and rows with one
agree on it. -/
theorem rowShapesNDim_cells (hcol : OneRank col)
    (hvar : col.columnDesc.fixedShape = none) :
    (∀ i < selectedRows sel col.nrow, ∀ cell, cellOf col sel i = some cell →
        0 < cell.length
        ∧ (∀ j < selectedRows sel col.nrow, ∀ cell',
            cellOf col sel j = some cell' → cell'.length = cell.length)
        ∧ rowShapesNDim ((List.range (selectedRows sel col.nrow)).map
            fun i => (cellOf col sel i).getD []) (-1) = cell.length + 1)
      ∧ ((¬ ∃ i < selectedRows sel col.nrow, cellOf col sel i ≠ none) →
        rowShapesNDim ((List.range (selectedRows sel col.nrow)).map
          fun i => (cellOf col sel i).getD []) (-1) = -1) := by
  set cells := (List.range (selectedRows sel col.nrow)).map
    fun i => (cellOf col sel i).getD [] with hcells
  have hmem : ∀ s ∈ cells, s = [] ∨ ∃ i < selectedRows sel col.nrow,
      cellOf col sel i = some s := by
    intro s hs
    obtain ⟨i, hi, rfl⟩ := List.mem_map.mp hs
    cases hc : cellOf col sel i with
    | none => exact .inl rfl
    | some cell => exact .inr ⟨i, List.mem_range.mp hi, hc⟩
  constructor
  · intro i hi cell hc
    have hcell := (cellOf_lt hc).2.2
    have hne := col.cell_rank _ _ hvar hcell
    have hpos := List.length_pos_iff.mpr hne
    have hlen : ∀ j < selectedRows sel col.nrow, ∀ cell',
        cellOf col sel j = some cell' → cell'.length = cell.length :=
      fun j _ cell' hc' => hcol.rank _ _ _ _ (cellOf_lt hc').2.2 hcell
    refine ⟨hpos, hlen, ?_⟩
    have hderived := @rowShapesNDim_missing cells (-1) cell.length hpos (by
      intro s hs
      refine (hmem s hs).imp id fun hx => ?_
      obtain ⟨j, hj, hc'⟩ := hx
      exact hlen j hj s hc') (.inl rfl)
    rw [hderived, if_neg]
    intro hall
    refine hne (hall.2 cell (List.mem_map.mpr ⟨i, List.mem_range.mpr hi, ?_⟩))
    rw [hc]
    rfl
  · intro hnone
    have hnil : ∀ s ∈ cells, s = [] := fun s hs =>
      (hmem s hs).resolve_right fun hx => by
        obtain ⟨j, hj, hc⟩ := hx
        exact hnone ⟨j, hj, by rw [hc]; exact Option.some_ne_none s⟩
    rw [@rowShapesNDim_missing cells (-1) 1 Nat.one_pos
      (fun s hs => .inl (hnil s hs)) (.inl rfl), if_pos ⟨rfl, hnil⟩]

/-- Rows that vary or are missing report their shapes, if there is a rank
to report them in. -/
theorem getRowShapes_varying (hcol : OneRank col) (hsel : SelectsRows col sel)
    (hlimit : col.nrow ≤ indexTypeMax)
    (hvar : col.columnDesc.fixedShape = none)
    (hcommon : (rowSummary ((List.range (selectedRows sel col.nrow)).map
      fun i => (cellOf col sel i).getD [])).commonShape = none) :
    ((0 ≤ col.columnDesc.ndim
          ∨ ∃ i < selectedRows sel col.nrow, cellOf col sel i ≠ none) →
        ∃ data, NewTableProxy.getRowShapes col sel = .ok data
          ∧ HasShapes col sel data fun i => (cellOf col sel i).isNone)
      ∧ (¬ (0 ≤ col.columnDesc.ndim
          ∨ ∃ i < selectedRows sel col.nrow, cellOf col sel i ≠ none) →
        ∃ e, NewTableProxy.getRowShapes col sel = .error e) := by
  set cells := (List.range (selectedRows sel col.nrow)).map
    fun i => (cellOf col sel i).getD [] with hcells
  have hkept : (rowSummary cells).shapes = cells := rowSummary_shapes hcommon
  set ndim : Int :=
    if rowShapesNDim cells (-1) = -1 then
      if 0 ≤ col.columnDesc.ndim then col.columnDesc.ndim + 1
      else col.columnDesc.ndim
    else rowShapesNDim cells (-1) with hndim
  have hread : ResultShapeData.makeRead col sel true
      = .ok
        { columnName := col.columnDesc.name
          shape := none
          ndim := ndim
          dtype := col.columnDesc.dataType
          rowShapes := some cells
          cellExtents := none } := by
    rw [ResultShapeData.makeRead, checkRowNumberLimit, if_pos hlimit, hvar]
    simp only [Result.ok_bind, makeRowData_rows hvar hsel, Bool.not_true,
      Bool.false_and, Bool.false_eq_true, if_false, ← hcells, hcommon, hkept,
      Result.pure_eq, ← hndim]
  obtain ⟨hsome, hnone⟩ := @rowShapesNDim_cells _ _ sel hcol hvar
  rw [← hcells] at hsome hnone
  rw [getRowShapes_eq hsel, hread, Result.ok_bind]
  constructor
  · intro hrank
    -- a rank of the cells, from one of them or from the column
    obtain ⟨n, hpos, hlen, hn⟩ : ∃ n : Nat, 0 < n
        ∧ (∀ i < selectedRows sel col.nrow, ∀ cell,
            cellOf col sel i = some cell → cell.length = n)
        ∧ ndim = n + 1 := by
      by_cases hany : ∃ i < selectedRows sel col.nrow, cellOf col sel i ≠ none
      · obtain ⟨i, hi, hc⟩ := hany
        obtain ⟨cell, hc⟩ := Option.ne_none_iff_exists'.mp hc
        obtain ⟨hpos, hlen, hderived⟩ := hsome i hi cell hc
        refine ⟨cell.length, hpos, hlen, ?_⟩
        rw [hndim, hderived, if_neg (by omega)]
      · have hdesc := hrank.resolve_right hany
        have harray := hcol.array
        refine ⟨col.columnDesc.ndim.toNat, by omega, fun i hi cell hc => ?_, ?_⟩
        · exact absurd ⟨i, hi, by rw [hc]; exact Option.some_ne_none cell⟩ hany
        · rw [hndim, hnone hany, if_pos rfl, if_pos hdesc]
          omega
    rw [hn]
    exact getShapeArray_varying _ _ hpos hlen
  · intro hnot
    have hneg : ¬ (0 ≤ ndim) := by
      rw [hndim, hnone fun hany => hnot (.inr hany), if_pos rfl,
        if_neg fun h => hnot (.inl h)]
      exact fun h => hnot (.inl h)
    rw [ResultShapeData.getShapeArray, ResultShapeData.consistentNDim, if_neg hneg]
    exact ⟨_, rfl⟩

end Paths

/-- The shapes of the selected rows are reported truthfully exactly if the
rank is known, no row is missing from a column of one shape, and the sizes
fit 32 bits. -/
theorem getRowShapes_reports_iff (col : TableColumn α) (sel : Selection)
    (hcol : OneRank col) (hsel : SelectsRows col sel) :
    (∃ data, NewTableProxy.getRowShapes col sel = .ok data
        ∧ ReportsShapes col sel data)
      ↔ Reportable col sel := by
  by_cases hlimit : col.nrow ≤ indexTypeMax
  case neg =>
    have herror : ∃ e, NewTableProxy.getRowShapes col sel = .error e := by
      rw [getRowShapes_eq hsel, ResultShapeData.makeRead, checkRowNumberLimit,
        if_neg hlimit]
      exact ⟨_, rfl⟩
    obtain ⟨e, he⟩ := herror
    exact iff_of_false (not_reports_of_error he) fun h => hlimit h.limit
  case pos =>
    cases hfixed : col.columnDesc.fixedShape with
    | some shape =>
        obtain ⟨data, hdata, hhas⟩ := getRowShapes_fixed hcol hsel hlimit hfixed
        have hisFixed : col.columnDesc.isFixedShape = true := by
          rw [ColumnDesc.isFixedShape, hfixed]
          rfl
        -- a row of the table has a cell
        have hcell : ∀ i < selectedRows sel col.nrow,
            cellOf col sel i = none ↔ selectedRow sel i < 0 := by
          intro i hi
          have hlt := hsel.inRange i hi
          unfold cellOf
          split
          · rename_i hneg
            exact iff_of_true rfl hneg
          · rename_i hneg
            rw [col.cell_fixed shape _ hfixed (by omega)]
            exact iff_of_false (by simp) hneg
        rw [reports_iff_of_ok hdata hhas]
        constructor
        · intro hx
          obtain ⟨hnulls, hsizes⟩ := hx
          refine ⟨hlimit, fun _ i hi => ?_, fun h => ?_, hsizes⟩
          · by_contra hneg
            have := (hnulls i hi).mpr ((hcell i hi).mpr (by omega))
            cases this
          · rw [hisFixed] at h
            cases h
        · intro h
          refine ⟨fun i hi => ?_, h.sizes⟩
          have hnonneg := h.fixed hisFixed i hi
          rw [hcell i hi]
          exact iff_of_false Bool.false_ne_true (by omega)
    | none =>
        have hisFixed : col.columnDesc.isFixedShape = false := by
          rw [ColumnDesc.isFixedShape, hfixed]
          rfl
        cases hcommon : (rowSummary ((List.range (selectedRows sel col.nrow)).map
            fun i => (cellOf col sel i).getD [])).commonShape with
        | some common =>
            obtain ⟨⟨data, hdata, hhas⟩, hpos, hcells⟩ :=
              getRowShapes_common hsel hlimit hfixed hcommon
            rw [reports_iff_of_ok hdata hhas]
            constructor
            · intro hx
              refine ⟨hlimit, fun h => ?_, fun _ => .inr ⟨0, hpos, ?_⟩, hx.2⟩
              · rw [hisFixed] at h
                cases h
              · rw [hcells 0 hpos]
                exact Option.some_ne_none common
            · intro h
              refine ⟨fun i hi => ?_, h.sizes⟩
              rw [hcells i hi]
              exact iff_of_false Bool.false_ne_true (Option.some_ne_none common)
        | none =>
            obtain ⟨hknown, hunknown⟩ :=
              getRowShapes_varying hcol hsel hlimit hfixed hcommon
            by_cases hrank : 0 ≤ col.columnDesc.ndim
                ∨ ∃ i < selectedRows sel col.nrow, cellOf col sel i ≠ none
            · obtain ⟨data, hdata, hhas⟩ := hknown hrank
              rw [reports_iff_of_ok hdata hhas]
              constructor
              · intro hx
                refine ⟨hlimit, fun h => ?_, fun _ => hrank, hx.2⟩
                rw [hisFixed] at h
                cases h
              · intro h
                exact ⟨fun i _ => Option.isNone_iff_eq_none, h.sizes⟩
            · obtain ⟨e, he⟩ := hunknown hrank
              exact iff_of_false (not_reports_of_error he)
                fun h => hrank (h.varying hisFixed)

theorem lastDefined_oneRank (nrow : Nat) : OneRank (lastDefined nrow) where
  array := Int.one_ne_zero
  rank := by
    have hone : ∀ r s, (lastDefined nrow).cellShape r = some s → s = [1] := by
      intro r s h
      have hcell : (if r + 1 = nrow then some [1] else none) = some s := h
      split at hcell
      · exact (Option.some.inj hcell).symm
      · cases hcell
    intro r r' s s' h h'
    rw [hone r s h, hone r' s' h']

/-- A row with a cell, none, and a row without one. -/
theorem getRowShapes_reports_sample : ∃ data,
    NewTableProxy.getRowShapes (lastDefined 2) ⟨[[1, -1, 0]]⟩ = .ok data
      ∧ ReportsShapes (lastDefined 2) ⟨[[1, -1, 0]]⟩ data := by
  have hsel : SelectsRows (lastDefined 2) ⟨[[1, -1, 0]]⟩ :=
    ⟨by decide, by decide⟩
  refine (getRowShapes_reports_iff (lastDefined 2) ⟨[[1, -1, 0]]⟩
    (lastDefined_oneRank 2) hsel).mpr ?_
  refine ⟨by decide, fun h => ?_, fun _ => .inl (by decide), ?_⟩
  · cases h
  · intro i _ shape hc n hn
    obtain ⟨-, -, hcell⟩ := cellOf_lt hc
    have hone : (if (selectedRow ⟨[[1, -1, 0]]⟩ i).toNat + 1 = 2
        then some [1] else none) = some shape := hcell
    split at hone
    · cases hone
      rw [List.mem_singleton.mp hn]
      decide
    · cases hone

/-- A missing row of a column of one shape is reported to have it. -/
theorem missing_row_reported :
    OneRank (TableColumn.ofShape "DATA" .tpInt [2, 3] 1 fun _ => (0 : Nat))
      ∧ SelectsRows (TableColumn.ofShape "DATA" .tpInt [2, 3] 1
          fun _ => (0 : Nat)) ⟨[[-1]]⟩
      ∧ ∃ data, NewTableProxy.getRowShapes (TableColumn.ofShape "DATA" .tpInt
            [2, 3] 1 fun _ => (0 : Nat)) ⟨[[-1]]⟩ = .ok data
        ∧ data.isNullAt 0 = false ∧ data.leavesOf 0 = [3, 2]
        ∧ ¬ ReportsShapes (TableColumn.ofShape "DATA" .tpInt [2, 3] 1
            fun _ => (0 : Nat)) ⟨[[-1]]⟩ data := by
  refine ⟨⟨by decide, ?_⟩, ⟨by decide, by decide⟩, _, rfl, rfl, rfl, fun h => ?_⟩
  · intro r r' s s' h h'
    have hcell : ∀ r s, (if r < 1 then some [2, 3] else none) = some s →
        s = [2, 3] := by
      intro r s h
      split at h
      · exact (Option.some.inj h).symm
      · cases h
    rw [hcell r s h, hcell r' s' h']
  · have hnull := (h.isNull 0 (by decide)).mpr rfl
    cases hnull

end Arcae
