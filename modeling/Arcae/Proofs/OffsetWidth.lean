/-
The width of list offsets.

`GetOffsets` counts in a `std::size_t` and appends to an `Int32Builder`,
whose `Append` takes an `int`; so do the pair offsets of a complex
result. Appending narrows without a word: a count beyond 2^31 - 1 is
neither kept nor rejected. The offsets of a level only ascend, so all of
them are the true counts exactly when the last is below 2^31, and the
last is the number of items under the level (`levelCount`).
-/
import Arcae.Proofs.ListOffsets
import Mathlib.Algebra.Order.BigOperators.Group.List

namespace Arcae

variable {β : Type} {rs : ResultShapeData}

/-- An `int` holds a count exactly when it is below 2^31. -/
theorem toInt32_eq_iff {n : Nat} : toInt32 n = n ↔ n < 2 ^ 31 := by
  constructor
  · intro h
    by_contra hge
    have := toInt32_lt (Nat.le_of_not_lt hge)
    omega
  · exact toInt32_of_lt

-- ============================================================ the counts

namespace ResultShapeData

/-- How many items lie under a dimension: those that its lists hold, row
after row. -/
def levelCount (rs : ResultShapeData) (dim : Nat) : Nat :=
  ((List.range rs.nRows).map fun row => ((rs.rowSizes row).drop dim).prod).sum

theorem rowListSizes_sum {dims : IPosition} {dim : Nat}
    (hdim : dim < dims.length) :
    (rowListSizes dims dim).sum = (dims.drop dim).prod := by
  rw [rowListSizes, List.sum_replicate_nat, List.drop_eq_getElem_cons hdim,
    List.prod_cons, Nat.mul_comm, List.getD_eq_getElem _ _ hdim]

/-- The lists of a dimension hold the items under it. -/
theorem levelSizes_sum (hsized : rs.Sized) {dim : Nat}
    (hdim : dim < rs.rank - 1) :
    (rs.levelSizes dim).sum = rs.levelCount dim := by
  rw [levelSizes, List.flatMap_def, List.sum_flatten, List.map_map, levelCount]
  refine congrArg List.sum (List.map_congr_left fun row hrow => ?_)
  have hlen := hsized row (List.mem_range.mp hrow)
  exact rowListSizes_sum (by omega)

end ResultShapeData

/-- Running counts are kept by a 32-bit builder exactly when the last
is. -/
theorem scanl_toInt32_iff (sizes : List Nat) :
    ((sizes.scanl (· + ·) 0).map fun n : Nat => toInt32 n)
        = (sizes.scanl (· + ·) 0).map (fun n : Nat => (n : Int))
      ↔ sizes.sum < 2 ^ 31 := by
  rw [List.map_inj_left]
  constructor
  · intro h
    have hlast : sizes.sum ∈ sizes.scanl (· + ·) 0 := by
      refine List.mem_iff_getElem?.mpr ⟨sizes.length, ?_⟩
      rw [List.getElem?_scanl, if_pos (Nat.le_refl _), List.take_length,
        List.sum_eq_foldl]
    exact toInt32_eq_iff.mp (h _ hlast)
  · intro h o ho
    obtain ⟨i, hi, rfl⟩ := List.mem_iff_getElem.mp ho
    have hle : (sizes.scanl (· + ·) 0)[i] ≤ sizes.sum := by
      rw [List.getElem_scanl, ← List.sum_eq_foldl]
      exact (List.take_sublist i _).sum_le_sum fun _ _ => Nat.zero_le _
    exact toInt32_of_lt (Nat.lt_of_le_of_lt hle h)

/-- Pair offsets are kept by a 32-bit builder exactly when the last
is. -/
theorem pairs_toInt32_iff (n : Nat) :
    ((List.range (n + 1)).map fun i => toInt32 (2 * (i : Nat)))
        = (List.range (n + 1)).map (fun i : Nat => 2 * (i : Int))
      ↔ 2 * n < 2 ^ 31 := by
  rw [List.map_inj_left]
  constructor
  · intro h
    have hlast := h n (List.mem_range.mpr (Nat.lt_succ_self n))
    exact toInt32_eq_iff.mp (by push_cast; exact hlast)
  · intro h i hi
    rw [List.mem_range] at hi
    have hsmall : 2 * i < 2 ^ 31 := by omega
    have := toInt32_of_lt hsmall
    push_cast at this
    exact this

-- ============================================================ the offsets

/-- The offsets of `GetOffsets`, where it succeeds, are the running
counts exactly when no level has 2^31 items under it; the pair offsets of
a complex result exactly when it has fewer than 2^31 leaf values. -/
theorem offsets_exact_iff [LeafValue β] (rs : ResultShapeData) :
    (∀ offsets, rs.getOffsets = .ok offsets →
      ∃ counts, rs.getOffsetsBy (fun n : Nat => (n : Int)) = .ok counts
        ∧ (offsets = counts ↔ ∀ dim < rs.rank - 1, rs.levelCount dim < 2 ^ 31))
    ∧ ∀ (arrowDtype : ArrowType) (values : List β), rs.dtype.isComplex = true →
      makeElements rs arrowDtype .list values
          = listFromArrays
              (makePrimitiveArray arrowDtype (2 * rs.nElements) values)
              ((List.range (rs.nElements + 1)).map fun i =>
                toInt32 (2 * (i : Nat)))
        ∧ (((List.range (rs.nElements + 1)).map fun i =>
                toInt32 (2 * (i : Nat)))
              = (List.range (rs.nElements + 1)).map (fun i : Nat => 2 * (i : Int))
          ↔ 2 * rs.nElements < 2 ^ 31) := by
  constructor
  · intro offsets hoffsets
    obtain ⟨hndim, hsized⟩ := ResultShapeData.getOffsetsBy_eq_ok _ hoffsets
    rw [ResultShapeData.getOffsets,
      ResultShapeData.getOffsetsBy_eq _ hndim hsized] at hoffsets
    cases hoffsets
    refine ⟨_, ResultShapeData.getOffsetsBy_eq _ hndim hsized, ?_⟩
    rw [List.map_inj_left]
    simp only [List.mem_range]
    refine forall₂_congr fun dim hdim => ?_
    rw [scanl_toInt32_iff, ResultShapeData.levelSizes_sum hsized hdim]
  · intro arrowDtype values hcomplex
    have hstring : rs.dtype ≠ .tpString := by
      intro h
      rw [h] at hcomplex
      cases hcomplex
    refine ⟨?_, pairs_toInt32_iff rs.nElements⟩
    unfold makeElements
    rw [if_neg hstring, if_pos hcomplex]

/-- One row of 2^31 flags. -/
def longRow : ResultShapeData where
  columnName := "FLAG"
  shape := some [2147483648, 1]
  ndim := 2
  dtype := .tpBool
  rowShapes := none
  cellExtents := none

/-- The one list of a long row ends below zero. -/
theorem long_row_wraps :
    ¬ ∀ (rs : ResultShapeData) (offsets : List (List Int)),
      rs.getOffsets = .ok offsets →
      rs.getOffsetsBy (fun n : Nat => (n : Int)) = .ok offsets := by
  intro hall
  have hwrapped : longRow.getOffsets = .ok [[0, -2147483648]] := by decide +kernel
  have hcounts : longRow.getOffsetsBy (fun n : Nat => (n : Int))
      = .ok [[0, 2147483648]] := rfl
  have h := hall longRow _ hwrapped
  rw [hcounts] at h
  cases h

/-- Two rows of differing shapes, and a missing one between them. -/
def gappyRows : ResultShapeData where
  columnName := "DATA"
  shape := none
  ndim := 3
  dtype := .tpComplex
  rowShapes := some [[2, 3], [], [1, 2]]
  cellExtents := none

theorem offsets_exact_sample :
    (∃ counts, gappyRows.getOffsetsBy (fun n : Nat => (n : Int)) = .ok counts
        ∧ gappyRows.getOffsets = .ok counts
        ∧ counts = [[0, 2, 4, 6, 7, 8], [0, 3, 3, 5]])
      ∧ makeElements gappyRows .float .list (List.replicate 16 0)
        = listFromArrays (makePrimitiveArray .float 16 (List.replicate 16 0))
            [0, 2, 4, 6, 8, 10, 12, 14, 16] := by
  obtain ⟨hrows, hpairs⟩ := @offsets_exact_iff Nat _ gappyRows
  constructor
  · have hoffsets : gappyRows.getOffsets
        = .ok [[0, 2, 4, 6, 7, 8], [0, 3, 3, 5]] := by decide +kernel
    obtain ⟨counts, hcounts, hiff⟩ := hrows _ hoffsets
    have heq := hiff.mpr (by decide)
    exact ⟨counts, hcounts, heq ▸ hoffsets, heq.symm⟩
  · obtain ⟨helements, hiff⟩ := hpairs .float (List.replicate 16 0) rfl
    have heq := hiff.mpr (by decide)
    rw [helements, heq]
    rfl

end Arcae
