/-
What the offsets of `GetOffsets` describe.

A result is of one rank if each row has a size for every dimension but
the rows', or is missing (`OneRank`). Its elements lie row after row,
and a missing row has none. Put into lists by the offsets, innermost
dimension first, they become the rows (`getOffsets_nests`): after `d`
turns each row is an array wrapped once for each of its `d` innermost
sizes (`Nested.cells`), and the offsets of the next dimension wrap it
once more. Offsets are unbounded integers throughout; what an `int`
keeps of them is a matter of its own.
-/
import Arcae.Lib.Nested
import Arcae.Proofs.OffsetWidth

namespace Arcae

open Nested FOrder

variable {β : Type} {rs : ResultShapeData}

-- =================================================== statement vocabulary

namespace ResultShapeData

/-- The rank is the same for all rows that are not missing. A result of
scalars is fixed, so that a missing row is a list. -/
structure OneRank (rs : ResultShapeData) : Prop where
  ndim_pos : 0 < rs.ndim
  fixed : ∀ shape, rs.shape = some shape → shape.length = rs.rank
  varying : rs.shape = none →
    2 ≤ rs.rank ∧ ∀ s ∈ rs.getRowShapes, s = [] ∨ s.length = rs.rank - 1

/-- A row as a nested list in C order: its cell's values from where the
row starts, an empty list if it is missing. -/
def rowNest (rs : ResultShapeData) (value : Nat → Nested β) (row : Nat) :
    Nested β :=
  match rs.shape with
  | some shape =>
      block value (shape.take (rs.rank - 1))
        (row * (shape.take (rs.rank - 1)).prod)
  | none =>
      if isDegenerateShape (rs.getRowShapes.getD row []) then .list []
      else block value (rs.getRowShapes.getD row [])
        ((rs.getRowShapes.take row).map IPosition.product).sum

/-- Where the elements of a row start. -/
def rowBase (rs : ResultShapeData) (row : Nat) : Nat :=
  ((List.range row).map fun r => (rs.rowSizes r).prod).sum

-- =================================================================== rows

theorem OneRank.rank_pos (h : rs.OneRank) : 0 < rs.rank := by
  have := h.ndim_pos
  unfold rank
  omega

/-- A row of a varying result of one rank. -/
theorem OneRank.rowShape (h : rs.OneRank) (hs : rs.shape = none) {row : Nat}
    (hrow : row < rs.nRows) :
    (rs.getRowShapes.getD row [] = []
        ∧ rs.rowSizes row = List.replicate (rs.rank - 1) 0)
      ∨ (rs.getRowShapes.getD row [] ≠ []
        ∧ rs.rowSizes row = rs.getRowShapes.getD row []
        ∧ (rs.getRowShapes.getD row []).length = rs.rank - 1) := by
  have hrow' : row < rs.getRowShapes.length := by
    rwa [nRows, hs] at hrow
  have hmem : rs.getRowShapes.getD row [] ∈ rs.getRowShapes := by
    rw [List.getD_eq_getElem _ _ hrow']
    exact List.getElem_mem hrow'
  by_cases hnil : rs.getRowShapes.getD row [] = []
  · left
    have hmissing : isDegenerateShape (rs.getRowShapes.getD row []) = true := by
      rw [hnil]
      rfl
    refine ⟨hnil, ?_⟩
    simp only [rowSizes, hs, if_pos hmissing]
  · right
    have hlen := ((h.varying hs).2 _ hmem).resolve_left hnil
    have hdefined : isDegenerateShape (rs.getRowShapes.getD row []) = false :=
      List.isEmpty_eq_false_iff.mpr hnil
    refine ⟨hnil, ?_, hlen⟩
    simp only [rowSizes, hs, hdefined, Bool.false_eq_true, if_false]
    rw [← hlen, List.take_length]

theorem OneRank.sized (h : rs.OneRank) : rs.Sized := by
  intro row hrow
  cases hs : rs.shape with
  | some shape =>
      have hlen := h.fixed shape hs
      simp only [rowSizes, hs, List.length_take]
      omega
  | none =>
      obtain ⟨-, hsizes⟩ | ⟨-, hsizes, hlen⟩ := h.rowShape hs hrow
      · rw [hsizes, List.length_replicate]
      · rw [hsizes, hlen]

/-- A row has the elements that its shape counts. -/
theorem OneRank.rowSizes_prod (h : rs.OneRank) (hs : rs.shape = none)
    {row : Nat} (hrow : row < rs.nRows) :
    (rs.rowSizes row).prod
      = IPosition.product (rs.getRowShapes.getD row []) := by
  obtain ⟨hnil, hsizes⟩ | ⟨hne, hsizes, -⟩ := h.rowShape hs hrow
  · have hrank := (h.varying hs).1
    rw [hnil, hsizes, IPosition.product, if_pos rfl, List.prod_replicate]
    exact Nat.zero_pow (by omega)
  · rw [hsizes, IPosition.product, if_neg hne]

theorem rowBase_succ (rs : ResultShapeData) (row : Nat) :
    rs.rowBase (row + 1) = rs.rowBase row + (rs.rowSizes row).prod := by
  rw [rowBase, List.range_succ, List.map_append, List.sum_append,
    List.map_singleton, List.sum_singleton, rowBase]

/-- Rows of a fixed result start at multiples of the cell size. -/
theorem rowBase_fixed {shape : IPosition} (hs : rs.shape = some shape)
    (row : Nat) :
    rs.rowBase row = row * (shape.take (rs.rank - 1)).prod := by
  simp only [rowBase, rowSizes, hs, List.map_const', List.length_range,
    List.sum_replicate_nat]

/-- Rows of a varying result start after the elements of those
before. -/
theorem OneRank.rowBase_varying (h : rs.OneRank) (hs : rs.shape = none)
    {row : Nat} (hrow : row ≤ rs.nRows) :
    rs.rowBase row
      = ((rs.getRowShapes.take row).map IPosition.product).sum := by
  induction row with
  | zero => rfl
  | succ row ih =>
      have hlt : row < rs.getRowShapes.length := by
        rw [nRows, hs] at hrow
        exact hrow
      rw [rowBase_succ, ih (by omega), h.rowSizes_prod hs hrow,
        List.take_succ_eq_append_getElem hlt, List.map_append, List.sum_append,
        List.map_singleton, List.sum_singleton, List.getD_eq_getElem _ _ hlt]

theorem OneRank.rowBase_nRows (h : rs.OneRank) :
    rs.rowBase rs.nRows = rs.nElements := by
  cases hs : rs.shape with
  | some shape =>
      have hlen := h.fixed shape hs
      have hpos := h.rank_pos
      have hne : shape ≠ [] := List.ne_nil_of_length_pos (by omega)
      have hsplit : shape.take (rs.rank - 1) ++ [shape.getLastD 0] = shape := by
        rw [← hlen, ← List.dropLast_eq_take, List.getLastD_eq_getLast?,
          List.getLast?_eq_some_getLast hne, Option.getD_some,
          List.dropLast_append_getLast]
      rw [rowBase_fixed hs]
      simp only [nElements, nRows, hs, IPosition.product, if_neg hne]
      conv_rhs => rw [← hsplit]
      rw [List.prod_append, List.prod_singleton, Nat.mul_comm]
  | none =>
      rw [h.rowBase_varying hs (Nat.le_refl _)]
      simp only [nRows, nElements, hs, List.take_length]

/-- A row is its array, wrapped once for each dimension. -/
theorem OneRank.rowNest_eq (h : rs.OneRank) (value : Nat → Nested β)
    {row : Nat} (hrow : row < rs.nRows) :
    rs.rowNest value row
      = block value (rs.rowSizes row) (rs.rowBase row) := by
  cases hs : rs.shape with
  | some shape =>
      rw [rowBase_fixed hs]
      simp only [rowNest, rowSizes, hs]
  | none =>
      rw [h.rowBase_varying hs (Nat.le_of_lt hrow)]
      obtain ⟨hnil, hsizes⟩ | ⟨hne, hsizes, -⟩ := h.rowShape hs hrow
      · -- zeros in every dimension, the slowest first
        obtain ⟨n, hn⟩ : ∃ n, rs.rank - 1 = n + 1 :=
          ⟨rs.rank - 2, by have := (h.varying hs).1; omega⟩
        rw [hsizes, hn, List.replicate_succ', block_concat]
        simp only [rowNest, hs, hnil, isDegenerateShape, List.isEmpty_nil,
          if_true, List.range_zero, List.map_nil]
      · have hdefined :
            isDegenerateShape (rs.getRowShapes.getD row []) = false :=
          List.isEmpty_eq_false_iff.mpr hne
        rw [hsizes]
        simp only [rowNest, hs, hdefined, Bool.false_eq_true, if_false]

-- ================================================================ nesting

/-- The rows after `d` turns. -/
def rowCells (rs : ResultShapeData) (value : Nat → Nested β) (d : Nat) :
    List (Nested β) :=
  (List.range rs.nRows).flatMap fun row =>
    cells value (rs.rowSizes row) (rs.rowBase row) d

theorem rowCells_zero (rs : ResultShapeData) (value : Nat → Nested β) :
    rs.rowCells value 0 = (List.range (rs.rowBase rs.nRows)).map value := by
  have key : ∀ n, (List.range n).flatMap
        (fun row => cells value (rs.rowSizes row) (rs.rowBase row) 0)
      = (List.range (rs.rowBase n)).map value := by
    intro n
    induction n with
    | zero => rfl
    | succ n ih =>
        rw [List.range_succ, List.flatMap_append, ih, List.flatMap_singleton,
          rowBase_succ, List.range_add, List.map_append, List.map_map,
          cells_zero]
        rfl
  exact key rs.nRows

/-- The lists of a dimension wrap the rows once more. -/
theorem wrap_rowCells (hsized : rs.Sized) (value : Nat → Nested β) {d : Nat}
    (hd : d < rs.rank - 1) :
    wrap (rs.levelSizes d) (rs.rowCells value d) = rs.rowCells value (d + 1) := by
  have hlen : ∀ row ∈ List.range rs.nRows, d < (rs.rowSizes row).length := by
    intro row hrow
    rw [hsized row (List.mem_range.mp hrow)]
    exact hd
  rw [levelSizes, rowCells, wrap_flatMap, rowCells]
  · refine List.flatMap_congr fun row hrow => ?_
    exact wrap_cells value (rs.rowBase row) (hlen row hrow)
  · intro row hrow
    rw [rowListSizes_sum (hlen row hrow), cells_length]

/-- Wrapped in every dimension, the elements are the rows. -/
theorem OneRank.rowCells_rank (h : rs.OneRank) (value : Nat → Nested β) :
    rs.rowCells value (rs.rank - 1)
      = (List.range rs.nRows).map (rs.rowNest value) := by
  rw [rowCells, List.map_eq_flatMap]
  refine List.flatMap_congr fun row hrow => ?_
  rw [List.mem_range] at hrow
  rw [h.rowNest_eq value hrow, ← h.sized row hrow, cells_rank]

/-- A level has as many items as the dimensions above it have
elements. -/
theorem levelSizes_length (hsized : rs.Sized) {d : Nat}
    (hd : d + 1 < rs.rank - 1) :
    (rs.levelSizes d).length = (rs.levelSizes (d + 1)).sum := by
  rw [levelSizes_sum hsized hd, levelSizes, List.length_flatMap, levelCount]
  refine congrArg List.sum (List.map_congr_left fun row _ => ?_)
  rw [rowListSizes, List.length_replicate]

end ResultShapeData

-- ============================================================ the offsets

/-- The offsets of `GetOffsets` describe exactly the shapes of the
rows. -/
theorem getOffsets_nests (h : rs.OneRank) :
    ∃ offsets : List (List Nat),
      rs.getOffsetsBy (fun n : Nat => (n : Int))
        = .ok (offsets.map fun os => os.map fun n : Nat => (n : Int))
      ∧ offsets.length = rs.rank - 1
      ∧ (∀ os ∈ offsets, os.head? = some 0 ∧ os.Pairwise (· ≤ ·))
      ∧ (∀ innermost, offsets.head? = some innermost →
          innermost.getLast? = some rs.nElements)
      ∧ (∀ d inner outer, offsets[d]? = some inner →
          offsets[d + 1]? = some outer →
          outer.getLast? = some (inner.length - 1))
      ∧ ∀ value : Nat → Nested β,
          offsets.foldl (fun items os => wrapAt os items)
              ((List.range rs.nElements).map value)
            = (List.range rs.nRows).map (rs.rowNest value) := by
  have hsized := h.sized
  have hget : ∀ (d : Nat) (os : List Nat),
      ((List.range (rs.rank - 1)).map fun dim =>
          (rs.levelSizes dim).scanl (· + ·) 0)[d]? = some os →
      d < rs.rank - 1 ∧ os = (rs.levelSizes d).scanl (· + ·) 0 := by
    intro d os hos
    obtain ⟨hd, hos⟩ := List.getElem?_eq_some_iff.mp hos
    rw [List.getElem_map, List.getElem_range] at hos
    exact ⟨by simpa using hd, hos.symm⟩
  have hlast : ∀ sizes : List Nat,
      (sizes.scanl (· + ·) 0).getLast? = some sizes.sum := by
    intro sizes
    rw [List.getLast?_eq_getElem?, List.length_scanl, Nat.add_sub_cancel,
      List.getElem?_scanl, if_pos (Nat.le_refl _), List.take_length,
      List.sum_eq_foldl]
  refine ⟨(List.range (rs.rank - 1)).map fun dim =>
    (rs.levelSizes dim).scanl (· + ·) 0, ?_, by simp, ?_, ?_, ?_, ?_⟩
  · rw [ResultShapeData.getOffsetsBy_eq _ h.ndim_pos hsized, List.map_map]
    rfl
  · intro os hos
    obtain ⟨dim, -, rfl⟩ := List.mem_map.mp hos
    refine ⟨?_, List.pairwise_iff_getElem.mpr fun i j hi hj hij => ?_⟩
    · cases rs.levelSizes dim <;> simp
    · rw [List.getElem_scanl, List.getElem_scanl, ← List.sum_eq_foldl,
        ← List.sum_eq_foldl]
      have hsub : ((rs.levelSizes dim).take i).Sublist
          ((rs.levelSizes dim).take j) :=
        List.take_sublist_take_left (Nat.le_of_lt hij)
      exact hsub.sum_le_sum fun _ _ => Nat.zero_le _
  · intro innermost hhead
    rw [List.head?_eq_getElem?] at hhead
    obtain ⟨hd, rfl⟩ := hget 0 innermost hhead
    rw [hlast, ResultShapeData.levelSizes_sum hsized hd, ← h.rowBase_nRows]
    rfl
  · intro d inner outer hinner houter
    obtain ⟨-, rfl⟩ := hget d inner hinner
    obtain ⟨hd, rfl⟩ := hget (d + 1) outer houter
    rw [hlast, List.length_scanl, Nat.add_sub_cancel,
      ResultShapeData.levelSizes_length hsized hd]
  · intro value
    have key : ∀ d ≤ rs.rank - 1,
        ((List.range d).map fun dim =>
            (rs.levelSizes dim).scanl (· + ·) 0).foldl
              (fun items os => wrapAt os items) (rs.rowCells value 0)
          = rs.rowCells value d := by
      intro d
      induction d with
      | zero => exact fun _ => rfl
      | succ d ih =>
          intro hd
          rw [List.range_succ, List.map_append, List.foldl_append,
            ih (by omega), List.map_singleton, List.foldl_cons, List.foldl_nil,
            wrapAt_scanl, ResultShapeData.wrap_rowCells hsized value hd]
    rw [← h.rowBase_nRows, ← ResultShapeData.rowCells_zero, key _ (Nat.le_refl _),
      h.rowCells_rank value]

theorem gappyRows_oneRank : gappyRows.OneRank where
  ndim_pos := by decide
  fixed := by
    intro shape hs
    cases hs
  varying := fun _ => ⟨by decide, by decide⟩

/-- Two matrices of one and the other shape, and a missing row between
them. -/
theorem getOffsets_nests_sample :
    ∃ offsets : List (List Nat),
      gappyRows.getOffsetsBy (fun n : Nat => (n : Int))
        = .ok (offsets.map fun os => os.map fun n : Nat => (n : Int))
      ∧ offsets.foldl (fun items os => wrapAt os items)
          ((List.range 8).map Nested.value)
        = [.list [.list [.value 0, .value 1], .list [.value 2, .value 3],
              .list [.value 4, .value 5]],
            .list [],
            .list [.list [.value 6], .list [.value 7]]] := by
  obtain ⟨offsets, hoffsets, -, -, -, -, hnest⟩ :=
    @getOffsets_nests Nat gappyRows gappyRows_oneRank
  exact ⟨offsets, hoffsets, hnest Nested.value⟩

end Arcae
