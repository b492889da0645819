/-
The array of a result, and its way back to a shape.

`MakeArray` wraps the elements once per dimension, innermost first. After
`dim` turns the array spells out every row cut down to its first `dim`
dimensions, each as often as the dimensions above have elements
(`rowNests`); one more level takes the next size off (`inner_rowNests`),
whether it is a list of fixed size or one with offsets. So in the end it
spells out the rows, and inference gives their shape back.

Offsets are 32 bits wide. With no dimension empty, none is larger than
the number of leaf values.
-/
import Arcae.Proofs.Nest
import Arcae.Proofs.ListOffsets
import Mathlib.Algebra.Order.BigOperators.Group.List
import Mathlib.Algebra.Order.BigOperators.GroupWithZero.List
import Mathlib.Algebra.Group.Action.Defs

namespace Arcae

open Loops

variable {α β : Type} {rs : ResultShapeData} {rows : List IPosition}
  {nests : List IPosition}

-- ================================================================ levels

/-- A well-formed array of these elements over a leaf. -/
structure Spells (leaf : LeafArray β) (nests : List IPosition)
    (array : ArrayData β) : Prop where
  wellFormed : array.WellFormed
  encodes : array.Encodes nests
  leafArray : array.leafArray = leaf

variable {leaf : LeafArray β} {array : ArrayData β}

/-- Lists between the running sums of the sizes of the elements. -/
theorem listFromArrays_spells (h : Spells leaf (inner nests) array)
    (hnil : [] ∉ nests) {offsets : List Int}
    (hoffsets : offsets.map Int.toNat
      = (nests.map fun nest => nest.headD 0).scanl (· + ·) 0) :
    ∃ array', listFromArrays array offsets = .ok array'
      ∧ Spells leaf nests array' := by
  have hlength : offsets.length = nests.length + 1 := by
    have := congrArg List.length hoffsets
    simpa using this
  have hne : offsets ≠ [] := List.ne_nil_of_length_pos (by omega)
  -- an offset is the number of elements below those before it
  have hget : ∀ i ≤ nests.length, (offsets.map Int.toNat)[i]?
      = some (inner (nests.take i)).length := by
    intro i hi
    rw [hoffsets, List.getElem?_scanl, if_pos (by simpa using hi), inner_length,
      List.map_take, List.sum_eq_foldl]
  have hlen : (inner nests).length = array.length := h.encodes.length_eq.symm
  refine ⟨_, if_neg hne, ⟨⟨?_, ?_, ?_⟩, h.wellFormed⟩, ?_, h.leafArray⟩
  · show 0 + (offsets.length - 1) < (offsets.map Int.toNat).length
    rw [List.length_map]
    omega
  · rw [hoffsets, List.pairwise_iff_getElem]
    intro i j hi hj hij
    rw [List.getElem_scanl, List.getElem_scanl, ← List.sum_eq_foldl,
      ← List.sum_eq_foldl]
    exact (List.take_sublist_take_left (Nat.le_of_lt hij)).sum_le_sum
      fun _ _ => Nat.zero_le _
  · intro o ho
    obtain ⟨i, hi, rfl⟩ := List.mem_iff_getElem.mp ho
    have hi' : i ≤ nests.length := by
      rw [List.length_map] at hi
      omega
    have := hget i hi'
    rw [List.getElem?_eq_getElem hi, Option.some.injEq] at this
    rw [this, ← hlen, inner_length, inner_length]
    exact ((List.take_sublist i nests).map _).sum_le_sum fun _ _ => Nat.zero_le _
  · refine ⟨rfl, by show offsets.length - 1 = _; omega, hnil, fun i hi => ?_,
      h.encodes⟩
    show ListArray.offsetAt _ (i + 0) = _
    rw [ListArray.offsetAt, Nat.add_zero, hget i hi]

/-- Lists of one size. -/
theorem fixedSizeListFromArrays_spells (h : Spells leaf (inner nests) array)
    {n : Nat} (hn : 0 < n) (hnests : ∀ nest ∈ nests, nest.head? = some n) :
    ∃ array', fixedSizeListFromArrays array n = .ok array'
      ∧ Spells leaf nests array' := by
  have hinner : ∀ l : List IPosition, (∀ nest ∈ l, nest.head? = some n) →
      (inner l).length = l.length * n := by
    intro l hl
    rw [inner_length, List.map_congr_left (g := fun _ => n), List.map_const',
      List.sum_replicate, smul_eq_mul]
    intro nest hmem
    rw [List.headD_eq_head?_getD, hl nest hmem]
    rfl
  have hlen : array.length = nests.length * n := by
    rw [h.encodes.length_eq, hinner nests hnests]
  have hdiv : nests.length * n / n = nests.length := Nat.mul_div_cancel _ hn
  have hmod : array.length % n = 0 := by rw [hlen, Nat.mul_mod_left]
  refine ⟨_, fixedSizeListFromArrays_of_dvd hn hmod, ⟨?_, h.wellFormed⟩, ?_,
    h.leafArray⟩
  · show (0 + array.length / n) * n ≤ array.length
    rw [hlen, hdiv, Nat.zero_add]
  · refine ⟨rfl, by show array.length / n = _; rw [hlen, hdiv], fun hmem => ?_,
      fun i hi => ?_, h.encodes⟩
    · cases hnests [] hmem
    · show Except.ok ((i + 0) * n) = _
      rw [hinner _ fun nest hmem => hnests nest (List.mem_of_mem_take hmem),
        List.length_take_of_le hi, Nat.add_zero]

-- ================================================================== rows

/-- The elements after `dim` turns: the rows cut down to their first
dimensions. -/
def rowNests (dtype : DataType) (rows : List IPosition) (dim : Nat) :
    List IPosition :=
  rows.flatMap fun dims =>
    List.replicate (dims.drop dim).prod (nestSizes dtype (dims.take dim))

theorem nestSizes_take_succ (dtype : DataType) {dims : IPosition} {dim : Nat}
    (hdim : dim < dims.length) :
    nestSizes dtype (dims.take (dim + 1))
      = dims.getD dim 0 :: nestSizes dtype (dims.take dim) := by
  rw [nestSizes, List.take_succ_eq_append_getElem hdim, List.reverse_append,
    List.getD_eq_getElem _ _ hdim]
  rfl

/-- One more level takes the next size off. -/
theorem inner_rowNests (dtype : DataType) {dim : Nat}
    (hrows : ∀ dims ∈ rows, dim < dims.length) :
    inner (rowNests dtype rows (dim + 1)) = rowNests dtype rows dim := by
  induction rows with
  | nil => rfl
  | cons dims rows ih =>
      obtain ⟨hdim, hrest⟩ := List.forall_mem_cons.mp hrows
      have hprod : (dims.drop (dim + 1)).prod * dims.getD dim 0
          = (dims.drop dim).prod := by
        rw [List.drop_eq_getElem_cons hdim, List.prod_cons, Nat.mul_comm,
          List.getD_eq_getElem _ _ hdim]
      have := ih hrest
      unfold rowNests at this ⊢
      rw [List.flatMap_cons, List.flatMap_cons, inner_append, this,
        nestSizes_take_succ dtype hdim, inner_replicate, hprod]

theorem rowNests_rank (dtype : DataType) {n : Nat}
    (hrows : ∀ dims ∈ rows, dims.length = n) :
    rowNests dtype rows n = rows.map (nestSizes dtype) := by
  unfold rowNests
  rw [List.map_eq_flatMap]
  refine List.flatMap_congr fun dims hmem => ?_
  rw [← hrows dims hmem, List.drop_length, List.take_length]
  rfl

theorem rowNests_zero (dtype : DataType) (rows : List IPosition) :
    rowNests dtype rows 0
      = List.replicate (rows.map List.prod).sum (nestSizes dtype []) := by
  unfold rowNests
  induction rows with
  | nil => rfl
  | cons dims rows ih =>
      rw [List.flatMap_cons, ih, List.map_cons, List.sum_cons,
        List.replicate_add]
      rfl

/-- No level has more elements than the innermost. -/
theorem rowNests_length_le (dtype : DataType) (hpos : Positive rows)
    (dim : Nat) :
    (rowNests dtype rows dim).length ≤ (rows.map List.prod).sum := by
  unfold rowNests
  rw [List.length_flatMap]
  refine List.sum_le_sum fun dims hmem => ?_
  rw [List.length_replicate]
  refine Nat.le_of_dvd (List.prod_pos fun n hn => hpos dims hmem n hn) ?_
  exact Dvd.intro_left _ (List.prod_take_mul_prod_drop dims dim)

-- =============================================================== results

namespace ResultShapeData

/-- The sizes of each row. -/
def allRows (rs : ResultShapeData) : List IPosition :=
  (List.range rs.nRows).map rs.rowDims

theorem listSizes_eq (hrs : rs.Consistent) {dim : Nat}
    (hdim : dim < rs.rank - 1) :
    rs.listSizes dim
      = (rowNests rs.dtype rs.allRows (dim + 1)).map fun nest => nest.headD 0 := by
  unfold listSizes rowNests allRows
  rw [List.map_flatMap, List.flatMap_map]
  refine List.flatMap_congr fun row hrow => ?_
  have hlen := hrs.rowDims_length (.inl (List.mem_range.mp hrow))
  rw [nestSizes_take_succ _ (by omega), List.map_replicate]
  rfl

theorem Consistent.sum_prod (hrs : rs.Consistent) :
    (rs.allRows.map List.prod).sum = rs.nElements := by
  rw [← hrs.rowStart_nRows]
  have key : ∀ n ≤ rs.nRows,
      (((List.range n).map rs.rowDims).map List.prod).sum = rs.rowStart n := by
    intro n
    induction n with
    | zero => exact fun _ => (rowStart_zero).symm
    | succ n ih =>
        intro hn
        rw [List.range_succ, List.map_append, List.map_append, List.sum_append,
          ih (by omega), rowStart_succ n hn, List.map_singleton,
          List.map_singleton, List.sum_singleton]
  exact key _ (Nat.le_refl _)

theorem Consistent.allRows_length (hrs : rs.Consistent) :
    ∀ dims ∈ rs.allRows, dims.length = rs.rank - 1 := by
  intro dims hmem
  obtain ⟨row, hrow, rfl⟩ := List.mem_map.mp hmem
  exact hrs.rowDims_length (.inl (List.mem_range.mp hrow))

end ResultShapeData

-- ================================================================= arrays

variable {values : List β} {arrowDtype : ArrowType}

/-- The leaf of a result. -/
def resultLeaf (arrowDtype : ArrowType) (values : List β) : LeafArray β :=
  ⟨arrowDtype, 0, values.length, none, values⟩

theorem resultLeaf_spells (arrowDtype : ArrowType) (values : List β) :
    Spells (resultLeaf arrowDtype values) (List.replicate values.length [])
      (.leaf (resultLeaf arrowDtype values)) where
  wellFormed := by
    show 0 + values.length ≤ values.length
    omega
  encodes := rfl
  leafArray := rfl

/-- Small offsets stay as they are. -/
theorem toNat_toInt32 {n : Nat} (h : n < 2 ^ 31) : (toInt32 n).toNat = n := by
  rw [toInt32_of_lt h, Int.toNat_natCast]

/-- The elements are nests without a dimension. -/
theorem makeElements_spells [LeafValue β]
    (harrow : arrowDataType rs.dtype = .ok arrowDtype)
    (strat : ConvertStrategy)
    (hvalues : values.length = leafWidth rs.dtype * rs.nElements)
    (hsmall : values.length < 2 ^ 31)
    (htext : rs.dtype = .tpString → totalText values ≤ maxTextBytes) :
    ∃ array, makeElements rs arrowDtype strat values = .ok array
      ∧ Spells (resultLeaf arrowDtype values)
          (List.replicate rs.nElements (nestSizes rs.dtype [])) array := by
  have hleaf := resultLeaf_spells arrowDtype values
  unfold makeElements
  by_cases hstring : rs.dtype = .tpString
  · -- strings
    rw [hstring] at harrow
    cases harrow
    have hcount : values.length = rs.nElements := by
      rw [hvalues, hstring]
      exact Nat.one_mul _
    have hnest : nestSizes rs.dtype [] = [] := by rw [hstring]; rfl
    rw [if_pos hstring, hnest, ← hcount]
    exact ⟨_, makeStrings_eq_ok.mpr ⟨htext hstring, rfl⟩, hleaf⟩
  · rw [if_neg hstring]
    by_cases hcomplex : rs.dtype.isComplex = true
    · -- pairs
      have hcount : values.length = rs.nElements * 2 := by
        rw [hvalues, leafWidth, if_pos hcomplex, Nat.mul_comm]
      have hnest : nestSizes rs.dtype [] = [2] := by
        rw [nestSizes, if_pos hcomplex]
        rfl
      have hbase : makePrimitiveArray arrowDtype (2 * rs.nElements) values
          = .leaf (resultLeaf arrowDtype values) := by
        rw [makePrimitiveArray, resultLeaf, hcount, Nat.mul_comm]
      rw [hcount, ← inner_replicate rs.nElements 2 []] at hleaf
      rw [if_pos hcomplex, hbase, hnest]
      cases strat with
      | fixed =>
          refine fixedSizeListFromArrays_spells hleaf Nat.two_pos ?_
          intro nest hmem
          rw [(List.mem_replicate.mp hmem).2]
          rfl
      | list =>
          refine listFromArrays_spells hleaf (fun hmem => ?_) ?_
          · cases (List.mem_replicate.mp hmem).2
          · refine List.ext_getElem (by simp) fun i h₁ h₂ => ?_
            have hi : i < rs.nElements + 1 := by simpa using h₁
            have hdouble : toInt32 (2 * (i : Int)) = toInt32 (2 * i : Nat) := rfl
            simp only [List.getElem_map, List.getElem_range, List.map_replicate,
              List.getElem_scanl, ← List.sum_eq_foldl, List.take_replicate,
              List.sum_replicate, List.headD_cons]
            rw [hdouble, toNat_toInt32 (by omega), Nat.min_eq_left (by omega),
              smul_eq_mul, Nat.mul_comm]
    · -- plain values
      have hplain : rs.dtype.isComplex = false := by simpa using hcomplex
      have hcount : values.length = rs.nElements := by
        rw [hvalues, leafWidth, if_neg hcomplex, Nat.one_mul]
      have hnest : nestSizes rs.dtype [] = [] := by
        rw [nestSizes, if_neg hcomplex]
        rfl
      have hbase : makePrimitiveArray arrowDtype rs.nElements values
          = .leaf (resultLeaf arrowDtype values) := by
        rw [makePrimitiveArray, resultLeaf, hcount]
      rw [if_neg hcomplex, hbase, hnest, ← hcount]
      exact ⟨_, rfl, hleaf⟩

/-- No offset is larger than the number of elements. -/
theorem ResultShapeData.listOffset_le (hrs : rs.Consistent)
    (hpos : Positive rs.allRows) {dim : Nat} (hdim : dim < rs.rank - 1) {o : Nat}
    (ho : o ∈ (rs.listSizes dim).scanl (· + ·) 0) : o ≤ rs.nElements := by
  obtain ⟨i, hi, rfl⟩ := List.mem_iff_getElem.mp ho
  rw [List.getElem_scanl, ← List.sum_eq_foldl]
  calc ((rs.listSizes dim).take i).sum
      ≤ (rs.listSizes dim).sum :=
        (List.take_sublist i _).sum_le_sum fun _ _ => Nat.zero_le _
    _ = (inner (rowNests rs.dtype rs.allRows (dim + 1))).length := by
        rw [inner_length, listSizes_eq hrs hdim]
    _ = (rowNests rs.dtype rs.allRows dim).length := by
        rw [inner_rowNests]
        intro dims hmem
        rw [hrs.allRows_length dims hmem]
        exact hdim
    _ ≤ rs.nElements := by
        rw [← hrs.sum_prod]
        exact rowNests_length_le _ hpos dim

/-- The rows cut down to one dimension more: each starts with the size of
that dimension. -/
theorem rowNests_succ_mem (hrs : rs.Consistent) {dim : Nat}
    (hdim : dim < rs.rank - 1) {nest : IPosition}
    (hnest : nest ∈ rowNests rs.dtype rs.allRows (dim + 1)) :
    ∃ dims ∈ rs.allRows,
      nest = dims.getD dim 0 :: nestSizes rs.dtype (dims.take dim) := by
  obtain ⟨dims, hdims, hrep⟩ := List.mem_flatMap.mp hnest
  refine ⟨dims, hdims, ?_⟩
  rw [(List.mem_replicate.mp hrep).2, nestSizes_take_succ]
  rw [hrs.allRows_length dims hdims]
  exact hdim

/-- Whatever a level is made by, a turn takes a size off every row; so
if each turn succeeds, the last array spells out the rows. -/
theorem levels_spell (hrs : rs.Consistent)
    {wrap : ArrayData β → Nat → Result (ArrayData β)} {elements : ArrayData β}
    (helements : Spells leaf (rowNests rs.dtype rs.allRows 0) elements)
    (hturn : ∀ dim < rs.rank - 1, ∀ array,
      Spells leaf (inner (rowNests rs.dtype rs.allRows (dim + 1))) array →
        ∃ array', wrap array dim = .ok array'
          ∧ Spells leaf (rowNests rs.dtype rs.allRows (dim + 1)) array') :
    ∃ array, (List.range (rs.rank - 1)).foldlM wrap elements = .ok array
      ∧ Spells leaf (rowNests rs.dtype rs.allRows (rs.rank - 1)) array := by
  refine (@Outcome.foldlM_range _ _ _ (fun _ => True)
    (fun dim array => Spells leaf (rowNests rs.dtype rs.allRows dim) array)
    (fun _ => True) _ _ ?_ helements).of_good fun _ _ => trivial
  intro dim array hdim h
  have hinner : inner (rowNests rs.dtype rs.allRows (dim + 1))
      = rowNests rs.dtype rs.allRows dim := by
    refine inner_rowNests rs.dtype fun dims hmem => ?_
    rw [hrs.allRows_length dims hmem]
    exact hdim
  rw [← hinner] at h
  exact .inl ⟨trivial, hturn dim hdim array h⟩

/-- Levels of lists between offsets. -/
theorem listLevels_spell (hrs : rs.Consistent) (hpos : Positive rs.allRows)
    (hsmall : rs.nElements < 2 ^ 31) {elements : ArrayData β}
    (helements : Spells leaf (rowNests rs.dtype rs.allRows 0) elements) :
    ∃ array,
      (rs.getOffsets >>= fun offsets => offsets.foldlM listFromArrays elements)
        = .ok array
      ∧ Spells leaf (rowNests rs.dtype rs.allRows (rs.rank - 1)) array := by
  rw [ResultShapeData.getOffsets, hrs.getOffsetsBy_eq _, Result.ok_bind,
    List.foldlM_map]
  refine levels_spell hrs helements fun dim hdim array h => ?_
  refine listFromArrays_spells h ?_ ?_
  · intro hnil
    obtain ⟨dims, -, hcons⟩ := rowNests_succ_mem hrs hdim hnil
    cases hcons
  · rw [← ResultShapeData.listSizes_eq hrs hdim, List.map_map]
    refine (List.map_congr_left fun o ho => ?_).trans (List.map_id _)
    have hle := ResultShapeData.listOffset_le hrs hpos hdim ho
    have hlt : o < 2 ^ 31 := by omega
    rw [Function.comp, toNat_toInt32 hlt, id]

/-- No size of a row is larger than the number of elements. -/
theorem ResultShapeData.rowDim_le (hrs : rs.Consistent)
    (hpos : Positive rs.allRows) {dims : IPosition} (hdims : dims ∈ rs.allRows)
    {d : Nat} (hd : d ∈ dims) : d ≤ rs.nElements := by
  calc d ≤ dims.prod :=
        List.single_le_prod (fun n hn => hpos dims hdims n hn) d hd
    _ ≤ (rs.allRows.map List.prod).sum :=
        List.single_le_sum (fun _ _ => Nat.zero_le _) _
          (List.mem_map_of_mem hdims)
    _ = rs.nElements := hrs.sum_prod

/-- Levels of lists of fixed size. -/
theorem fixedLevels_spell (hrs : rs.Consistent) (hrows : 0 < rs.nRows)
    (hpos : Positive rs.allRows) (hsmall : rs.nElements < 2 ^ 31)
    {shape : IPosition}
    (hshape : rs.shape = some shape) {elements : ArrayData β}
    (helements : Spells leaf (rowNests rs.dtype rs.allRows 0) elements) :
    ∃ array,
      (shape.take (rs.rank - 1)).foldlM nestFixed elements = .ok array
      ∧ Spells leaf (rowNests rs.dtype rs.allRows (rs.rank - 1)) array := by
  have hdims : ∀ dims ∈ rs.allRows, dims = shape.take (rs.rank - 1) := by
    intro dims hdims
    obtain ⟨row, -, rfl⟩ := List.mem_map.mp hdims
    rw [ResultShapeData.rowDims, hshape]
  have hlen : (shape.take (rs.rank - 1)).length = rs.rank - 1 := by
    have := hrs.fixed shape hshape
    rw [List.length_take]
    omega
  have hrange : shape.take (rs.rank - 1)
      = (List.range (rs.rank - 1)).map
          fun dim => (shape.take (rs.rank - 1)).getD dim 0 := by
    refine List.ext_getElem (by simpa using hlen) fun dim h₁ _ => ?_
    rw [List.getElem_map, List.getElem_range, List.getD_eq_getElem _ _ h₁]
  rw [hrange, List.foldlM_map]
  refine levels_spell hrs helements fun dim hdim array h => ?_
  have hrow : shape.take (rs.rank - 1) ∈ rs.allRows :=
    List.mem_map.mpr ⟨0, List.mem_range.mpr hrows, by
      rw [ResultShapeData.rowDims, hshape]⟩
  have hsize : (shape.take (rs.rank - 1)).getD dim 0
      ∈ shape.take (rs.rank - 1) := by
    rw [List.getD_eq_getElem _ _ (by omega)]
    exact List.getElem_mem _
  rw [nestFixed_of_lt
    (Nat.lt_of_le_of_lt (ResultShapeData.rowDim_le hrs hpos hrow hsize) hsmall)]
  refine fixedSizeListFromArrays_spells h ?_ ?_
  · exact hpos _ hrow _ hsize
  · intro nest hnest
    obtain ⟨dims, hd, rfl⟩ := rowNests_succ_mem hrs hdim hnest
    rw [hdims dims hd]
    rfl

/-- The array of a result spells out its rows. -/
theorem makeArray_spells [LeafValue β] (hrs : rs.Consistent) (hrows : 0 < rs.nRows)
    (hpos : Positive rs.allRows)
    (harrow : arrowDataType rs.dtype = .ok arrowDtype)
    {configured : Option String} {strat : ConvertStrategy}
    (hstrat : getConvertStrategy configured = .ok strat)
    (hvalues : values.length = leafWidth rs.dtype * rs.nElements)
    (hsmall : values.length < 2 ^ 31)
    (htext : rs.dtype = .tpString → totalText values ≤ maxTextBytes) :
    ∃ array, makeArray configured rs values = .ok array
      ∧ Spells (resultLeaf arrowDtype values)
          (rs.allRows.map (nestSizes rs.dtype)) array := by
  obtain ⟨elements, helements, hspell⟩ :=
    makeElements_spells harrow strat hvalues hsmall htext
  have hcount : rs.nElements ≤ values.length := by
    rw [hvalues]
    exact Nat.le_mul_of_pos_left _ (leafWidth_pos rs.dtype)
  rw [← hrs.sum_prod, ← rowNests_zero] at hspell
  rw [← rowNests_rank rs.dtype hrs.allRows_length]
  unfold makeArray
  rw [harrow, Result.ok_bind, hstrat, Result.ok_bind, helements, Result.ok_bind]
  split
  · rename_i shape hshape
    rw [hrs.consistentNDim, Result.ok_bind]
    exact fixedLevels_spell hrs hrows hpos (Nat.lt_of_le_of_lt hcount hsmall)
      hshape hspell
  · exact listLevels_spell hrs hpos (Nat.lt_of_le_of_lt hcount hsmall) hspell

end Arcae
