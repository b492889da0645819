/-
The offsets of `GetOffsets`, in closed form.

The loops append to all dimensions at once: a row of sizes `dims` adds
as many lists to a dimension as the dimensions above it have elements,
each of the size of the dimension. So the offsets of a dimension are the
running sums of the sizes of its lists, row after row
(`ResultShapeData.levelSizes`), whatever appending does to them.

The sizes of a row are those the loops look up (`rowSizes`): a missing
row has zeros. The loops get through exactly when every row has a size
for each dimension (`getOffsetsBy_eq`, `getOffsetsBy_eq_ok`), as the rows
of a consistent result do.
-/
import Arcae.Model.ReadImpl
import Arcae.Proofs.Positions

namespace Arcae

open Loops

/-- A size that an `int` holds is not changed on its way. -/
theorem nestFixed_of_lt {β : Type} {array : ArrayData β} {dim : Nat}
    (h : dim < 2 ^ 31) :
    nestFixed array dim = fixedSizeListFromArrays array dim := by
  rw [nestFixed, toInt32_of_lt h]

-- ============================================================== builders

namespace OffsetBuilder

variable (append : Nat → Int)

/-- A builder that was given lists of these sizes. -/
def ofSizes (sizes : List Nat) : OffsetBuilder :=
  ⟨sizes.sum, (sizes.scanl (· + ·) 0).map append⟩

theorem init_eq : init append = ofSizes append [] := rfl

theorem addList_ofSizes (n : Nat) (sizes : List Nat) :
    addList append n (ofSizes append sizes)
      = ofSizes append (sizes ++ [n]) := by
  rw [addList, ofSizes, ofSizes, List.sum_append, List.sum_singleton,
    List.scanl_append, List.scanl_singleton, List.map_append,
    ← List.sum_eq_foldl]
  rfl

theorem addLists_ofSizes (n count : Nat) (sizes : List Nat) :
    addLists append n count (ofSizes append sizes)
      = ofSizes append (sizes ++ List.replicate count n) := by
  induction count generalizing sizes with
  | zero => rw [addLists, List.replicate_zero, List.append_nil]
  | succ count ih =>
      rw [addLists, addList_ofSizes, ih, List.append_assoc,
        List.singleton_append, List.replicate_succ]

end OffsetBuilder

-- ======================================================== sizes of a row

namespace ResultShapeData

variable {rs : ResultShapeData} (append : Nat → Int)

/-- The sizes of a row that the loops look up, zeros for a missing
row. -/
def rowSizes (rs : ResultShapeData) (row : Nat) : IPosition :=
  match rs.shape with
  | some shape => shape.take (rs.rank - 1)
  | none =>
      if isDegenerateShape (rs.getRowShapes.getD row []) then
        List.replicate (rs.rank - 1) 0
      else (rs.getRowShapes.getD row []).take (rs.rank - 1)

/-- Every row has a size for each dimension. -/
def Sized (rs : ResultShapeData) : Prop :=
  ∀ row < rs.nRows, (rs.rowSizes row).length = rs.rank - 1

/-- The loops look up the sizes of the row. -/
theorem rowDimSize_eq {row dim : Nat} (hrow : row < rs.nRows)
    (hdim : dim < rs.rank - 1) :
    rs.rowDimSize row dim
      = (rs.rowSizes row)[dim]?.elim (.error .outOfBounds) .ok := by
  have htake : ∀ shape : IPosition,
      (shape.take (rs.rank - 1))[dim]? = shape[dim]? :=
    fun _ => List.getElem?_take_of_lt hdim
  unfold rowDimSize
  cases hs : rs.shape with
  | some shape =>
      have hfixed : rs.isFixed = true := by
        rw [isFixed, hs]
        rfl
      simp only [Result.ok_bind, hfixed, Bool.not_true, Bool.false_and,
        Bool.false_eq_true, if_false, rowSizes, hs, htake]
      cases shape[dim]? <;> rfl
  | none =>
      have hfixed : rs.isFixed = false := by
        rw [isFixed, hs]
        rfl
      have hrow' : row < rs.getRowShapes.length := by
        rwa [nRows, hs] at hrow
      have hshape : rs.getRowShape row = .ok (rs.getRowShapes.getD row []) := by
        rw [getRowShape, List.getElem?_eq_getElem hrow',
          List.getD_eq_getElem _ _ hrow']
      simp only [hshape, Result.ok_bind, hfixed, Bool.not_false, Bool.true_and,
        rowSizes, hs]
      by_cases hmissing : isDegenerateShape (rs.getRowShapes.getD row []) = true
      · rw [if_pos hmissing, if_pos hmissing, List.getElem?_replicate,
          if_pos hdim]
        rfl
      · rw [if_neg hmissing, if_neg hmissing, htake]
        cases (rs.getRowShapes.getD row [])[dim]? <;> rfl

/-- The rows of a consistent result have all their sizes. -/
theorem Consistent.rowSizes_eq (hrs : rs.Consistent) {row : Nat}
    (hrow : row < rs.nRows) : rs.rowSizes row = rs.rowDims row := by
  have hlen := hrs.rowDims_length (.inl hrow)
  cases hs : rs.shape with
  | some shape => simp only [rowSizes, rowDims, hs]
  | none =>
      have hpos := (hrs.varying hs).1
      simp only [rowDims, hs] at hlen
      have hne : isDegenerateShape (rs.getRowShapes.getD row []) = false := by
        rw [isDegenerateShape, List.isEmpty_eq_false_iff]
        exact List.ne_nil_of_length_pos (by omega)
      simp only [rowSizes, rowDims, hs, hne, Bool.false_eq_true, if_false]
      rw [← hlen, List.take_length]

theorem Consistent.sized (hrs : rs.Consistent) : rs.Sized := by
  intro row hrow
  rw [hrs.rowSizes_eq hrow]
  exact hrs.rowDims_length (.inl hrow)

-- ================================================================= loops

/-- The sizes of the lists a row adds to a dimension. -/
def rowListSizes (dims : IPosition) (dim : Nat) : List Nat :=
  List.replicate (dims.drop (dim + 1)).prod (dims.getD dim 0)

/-- The sizes of the lists of a dimension, row after row. -/
def levelSizes (rs : ResultShapeData) (dim : Nat) : List Nat :=
  (List.range rs.nRows).flatMap fun row => rowListSizes (rs.rowSizes row) dim

/-- The sizes of the lists of a dimension of a consistent result. -/
def listSizes (rs : ResultShapeData) (dim : Nat) : List Nat :=
  (List.range rs.nRows).flatMap fun row => rowListSizes (rs.rowDims row) dim

theorem Consistent.levelSizes_eq (hrs : rs.Consistent) (dim : Nat) :
    rs.levelSizes dim = rs.listSizes dim := by
  refine List.flatMap_congr fun row hrow => ?_
  rw [hrs.rowSizes_eq (List.mem_range.mp hrow)]

/-- A row adds its lists to the dimensions below `d`; those it adds
below the last are as many times more as there are lists already. -/
theorem buildRowOffsets_eq {row : Nat} (hrow : row < rs.nRows)
    (hlen : (rs.rowSizes row).length = rs.rank - 1) (d : Nat)
    (hd : d ≤ rs.rank - 1) (product : Nat) (sizes : Nat → List Nat) :
    rs.buildRowOffsets append row d product
        ((List.range (rs.rank - 1)).map fun dim =>
          OffsetBuilder.ofSizes append (sizes dim))
      = .ok ((List.range (rs.rank - 1)).map fun dim =>
          OffsetBuilder.ofSizes append (sizes dim
            ++ if dim < d then
                List.replicate
                  (product * (((rs.rowSizes row).take d).drop (dim + 1)).prod)
                  ((rs.rowSizes row).getD dim 0)
              else [])) := by
  induction d generalizing product sizes with
  | zero =>
      rw [buildRowOffsets]
      simp
  | succ d ih =>
      have hmodify : ((List.range (rs.rank - 1)).map fun dim =>
            OffsetBuilder.ofSizes append (sizes dim)).modify d
              (OffsetBuilder.addLists append ((rs.rowSizes row).getD d 0) product)
          = (List.range (rs.rank - 1)).map fun dim =>
            OffsetBuilder.ofSizes append (if dim = d
              then sizes dim
                ++ List.replicate product ((rs.rowSizes row).getD d 0)
              else sizes dim) := by
        refine List.ext_getElem (by simp) fun dim h₁ h₂ => ?_
        rw [List.getElem_modify, List.getElem_map, List.getElem_map,
          List.getElem_range]
        by_cases heq : d = dim
        · subst heq
          rw [if_pos rfl, if_pos rfl, OffsetBuilder.addLists_ofSizes]
        · rw [if_neg heq, if_neg (Ne.symm heq)]
      have hsize : rs.rowDimSize row d = .ok ((rs.rowSizes row).getD d 0) := by
        rw [rowDimSize_eq hrow (by omega),
          List.getElem?_eq_getElem (by omega), List.getD_eq_getElem _ _ (by omega)]
        rfl
      rw [buildRowOffsets, hsize, Result.ok_bind, hmodify, ih (by omega)]
      refine congrArg Except.ok (List.map_congr_left fun dim hdim => ?_)
      congr 1
      rcases Nat.lt_trichotomy dim d with hlt | rfl | hgt
      · have hprod : (((rs.rowSizes row).take (d + 1)).drop (dim + 1)).prod
            = (((rs.rowSizes row).take d).drop (dim + 1)).prod
              * (rs.rowSizes row).getD d 0 := by
          rw [List.take_succ_eq_append_getElem (by omega),
            List.drop_append_of_le_length (by rw [List.length_take]; omega),
            List.prod_append, List.prod_singleton,
            List.getD_eq_getElem _ _ (by omega)]
        rw [if_neg (by omega), if_pos hlt, if_pos (by omega), hprod,
          Nat.mul_assoc, Nat.mul_comm (List.getD _ _ _)]
      · have hnone : (((rs.rowSizes row).take (dim + 1)).drop (dim + 1)) = [] := by
          rw [List.drop_eq_nil_iff, List.length_take]
          omega
        rw [if_pos rfl, if_neg (Nat.lt_irrefl _), if_pos (Nat.lt_succ_self _),
          hnone, List.prod_nil, Nat.mul_one, List.append_nil]
      · rw [if_neg (by omega), if_neg (by omega), if_neg (by omega)]

/-- The offsets of each dimension: the running sums of the sizes of its
lists. -/
theorem getOffsetsBy_eq (hndim : 0 < rs.ndim) (hsized : rs.Sized) :
    rs.getOffsetsBy append
      = .ok ((List.range (rs.rank - 1)).map fun dim =>
          ((rs.levelSizes dim).scanl (· + ·) 0).map append) := by
  have hrows : ∀ n ≤ rs.nRows,
      (List.range n).foldlM
          (fun builders row =>
            rs.buildRowOffsets append row (rs.rank - 1) 1 builders)
          (List.replicate (rs.rank - 1) (OffsetBuilder.init append))
        = .ok ((List.range (rs.rank - 1)).map fun dim =>
            OffsetBuilder.ofSizes append ((List.range n).flatMap fun row =>
              rowListSizes (rs.rowSizes row) dim)) := by
    intro n
    induction n with
    | zero =>
        intro _
        rw [OffsetBuilder.init_eq]
        refine congrArg Except.ok ?_
        simp [List.map_const']
    | succ n ih =>
        intro hn
        have hlen := hsized n hn
        rw [List.range_succ, List.foldlM_append, ih (by omega), Result.ok_bind,
          List.foldlM_cons, buildRowOffsets_eq append hn hlen _ (Nat.le_refl _)]
        refine congrArg Except.ok (List.map_congr_left fun dim hdim => ?_)
        rw [if_pos (List.mem_range.mp hdim), Nat.one_mul, ← hlen,
          List.take_length, List.flatMap_append, List.flatMap_singleton]
        rfl
  have hcon : rs.consistentNDim = .ok rs.rank := by
    rw [consistentNDim, if_pos (by omega)]
    rfl
  have hrank : rs.rank ≠ 0 := by
    unfold rank
    omega
  unfold getOffsetsBy
  rw [hcon, Result.ok_bind, if_neg hrank, hrows _ (Nat.le_refl _),
    Result.ok_bind]
  refine congrArg Except.ok ?_
  rw [List.map_map]
  rfl

theorem Consistent.getOffsetsBy_eq (hrs : rs.Consistent) :
    rs.getOffsetsBy append
      = .ok ((List.range (rs.rank - 1)).map fun dim =>
          ((rs.listSizes dim).scanl (· + ·) 0).map append) := by
  rw [ResultShapeData.getOffsetsBy_eq append hrs.ndim_pos hrs.sized]
  simp only [hrs.levelSizes_eq]

/-- A row without a size for the slowest dimension ends the loops. -/
theorem length_of_buildRowOffsets {row : Nat} (hrow : row < rs.nRows)
    {builders builders' : List OffsetBuilder}
    (h : rs.buildRowOffsets append row (rs.rank - 1) 1 builders
      = .ok builders') : (rs.rowSizes row).length = rs.rank - 1 := by
  have hle : (rs.rowSizes row).length ≤ rs.rank - 1 := by
    unfold rowSizes
    split
    · rw [List.length_take]
      omega
    · split
      · rw [List.length_replicate]
      · rw [List.length_take]
        omega
  cases hdim : rs.rank - 1 with
  | zero => omega
  | succ dim =>
      rw [hdim, buildRowOffsets, rowDimSize_eq hrow (by omega)] at h
      by_contra hne
      rw [List.getElem?_eq_none (by omega)] at h
      cases h

/-- The loops get through only when each row has its sizes. -/
theorem getOffsetsBy_eq_ok {offsets : List (List Int)}
    (h : rs.getOffsetsBy append = .ok offsets) : 0 < rs.ndim ∧ rs.Sized := by
  unfold getOffsetsBy at h
  obtain ⟨ndim, hndim, h⟩ := Result.bind_eq_ok.mp h
  have hrank : ndim = rs.rank ∧ 0 ≤ rs.ndim := by
    unfold consistentNDim at hndim
    split at hndim
    · cases hndim
      exact ⟨rfl, ‹_›⟩
    · cases hndim
  obtain ⟨rfl, hnn⟩ := hrank
  split at h
  · cases h
  rename_i hne
  obtain ⟨builders, hbuild, -⟩ := Result.bind_eq_ok.mp h
  refine ⟨by unfold rank at hne; omega, fun row hrow => ?_⟩
  have hsplit : List.range rs.nRows
      = List.range row ++ row :: List.range' (row + 1) (rs.nRows - (row + 1)) := by
    have hlen : rs.nRows = row + (1 + (rs.nRows - (row + 1))) := by omega
    conv_lhs => rw [hlen, List.range_eq_range', ← List.range'_append_1]
    rw [Nat.add_comm 1, List.range'_succ, Nat.zero_add, List.range_eq_range']
  rw [hsplit, List.foldlM_append] at hbuild
  obtain ⟨before, -, hbuild⟩ := Result.bind_eq_ok.mp hbuild
  rw [List.foldlM_cons] at hbuild
  obtain ⟨after, hafter, -⟩ := Result.bind_eq_ok.mp hbuild
  exact length_of_buildRowOffsets append hrow hafter

end ResultShapeData

end Arcae
