/-
The row offsets of a per-row result, kept and recomputed.

`MakeDataChunks` takes `RowOffsets` once and hands them to every
`FlatOffset`; without them `FlatOffset` sums the products of the rows
before each time. The two agree on every index, those of rows that have
no shape included, for a row's entry is that sum
(`rowOffsets_getElem?`).

The offsets never descend, so the elements of a row lie between its own
entry and the next row's (`InRow.flatOffset_eq`), and two rows never
overlap. That takes rows of fewer than 2^31 elements: beyond, the
`int product` may put an index short of its place (`slipFrom`).
-/
import Arcae.Proofs.FlatOffset

namespace Arcae

open FOrder

variable {rs : ResultShapeData}

-- =================================================== statement vocabulary

/-- An index of an element of row `row` of a per-row result: its place
in the row, then the row. A row without a shape has no element. -/
structure ResultShapeData.InRow (rs : ResultShapeData) (row : Nat)
    (index : List Nat) : Prop where
  ndim : rs.ndim = index.length
  inBox : ∃ idx dims, index = idx ++ [row]
    ∧ rs.getRowShapes[row]? = some dims ∧ dims ≠ [] ∧ InBox idx dims

namespace ResultShapeData

-- ============================================================ the offsets

theorem rowOffsets_length :
    rs.rowOffsets.length = rs.getRowShapes.length + 1 := by
  rw [rowOffsets, List.length_scanl, List.length_map]

/-- The sums over more rows are no less. -/
theorem sum_take_le {row row' : Nat} (h : row ≤ row') :
    ((rs.getRowShapes.take row).map IPosition.product).sum
      ≤ ((rs.getRowShapes.take row').map IPosition.product).sum := by
  have hsplit : rs.getRowShapes.take row'
      = rs.getRowShapes.take row
        ++ (rs.getRowShapes.drop row).take (row' - row) := by
    rw [← List.take_add, Nat.add_sub_cancel' h]
  rw [hsplit, List.map_append, List.sum_append]
  exact Nat.le_add_right _ _

/-- The row offsets never descend. -/
theorem rowOffsets_pairwise : rs.rowOffsets.Pairwise (· ≤ ·) := by
  rw [List.pairwise_iff_getElem]
  intro i j hi hj hij
  have hi' := hi
  have hj' := hj
  rw [rowOffsets_length] at hi' hj'
  have hget : ∀ {k : Nat} (hk : k < rs.rowOffsets.length),
      rs.rowOffsets[k]
        = ((rs.getRowShapes.take k).map IPosition.product).sum := by
    intro k hk
    have hk' := hk
    rw [rowOffsets_length] at hk'
    have hsome := @rowOffsets_getElem? rs k (Nat.le_of_lt_succ hk')
    rw [List.getElem?_eq_getElem hk] at hsome
    exact Option.some.inj hsome
  rw [hget hi, hget hj]
  exact sum_take_le (Nat.le_of_lt hij)

/-- The last row offset is the number of elements. -/
theorem rowOffsets_getLast? (hs : rs.shape = none) :
    rs.rowOffsets.getLast? = some rs.nElements := by
  rw [List.getLast?_eq_getElem?, rowOffsets_length, Nat.add_sub_cancel,
    rowOffsets_getElem? (Nat.le_refl _), List.take_length]
  simp only [nElements, hs]

-- ===================================================== with and without

/-- With the row offsets `FlatOffset` returns what it returns without,
whatever the index. -/
theorem flatOffset_rowOffsets (hs : rs.shape = none) (index : List Nat) :
    rs.flatOffset index (some rs.rowOffsets) = rs.flatOffset index none := by
  unfold flatOffset
  cases hn : rs.consistentNDim with
  | error e => rfl
  | ok ndim =>
      simp only [hs, Result.ok_bind]
      cases hi : index[ndim - 1]? with
      | none => rfl
      | some row =>
          dsimp only
          cases hrow : rs.getRowShapes[row]? with
          | none => simp only [getRowShape, hrow, Result.error_bind]
          | some dims =>
              obtain ⟨hlt, -⟩ := List.getElem?_eq_some_iff.mp hrow
              have hstart := rowOffsets_getElem? (Nat.le_of_lt hlt)
              simp only [getRowShape, hrow, Result.ok_bind, hstart]

-- ============================================================ whole rows

/-- The offset of an element of a row of fewer than 2^31: it lies between
the row's own offset and the next row's. -/
theorem InRow.flatOffset_eq {row : Nat} {index : List Nat}
    (h : rs.InRow row index) (hs : rs.shape = none)
    (hsmall : ∀ dims ∈ rs.getRowShapes, IPosition.product dims < 2 ^ 31) :
    row < rs.getRowShapes.length ∧ ∃ x : Nat,
      rs.flatOffset index none = .ok (x : Int)
      ∧ ((rs.getRowShapes.take row).map IPosition.product).sum ≤ x
      ∧ x < ((rs.getRowShapes.take (row + 1)).map IPosition.product).sum := by
  obtain ⟨hndim, idx, dims, rfl, hrow, hne, hbox⟩ := h
  obtain ⟨hlt, hget⟩ := List.getElem?_eq_some_iff.mp hrow
  have hprod : IPosition.product dims = dims.prod := by
    rw [IPosition.product, if_neg hne]
  have hsize : dims.prod < 2 ^ 31 := by
    rw [← hprod]
    exact hsmall dims (hget ▸ List.getElem_mem hlt)
  -- no stride of the row outgrows an `int`
  have hslip : slipFrom 1 idx dims = 0 := by
    rw [slipFrom_eq_zero]
    intro d _
    rw [Nat.one_mul]
    exact .inr (Nat.lt_of_le_of_lt (prod_take_le hbox d) hsize)
  have hoffset := Arcae.flatOffset_eq hndim
    (ResultShapeData.Addresses.varying hs hrow hbox) (.inl rfl)
  rw [exactOffset_append hbox.length_eq, exactOffset_eq_flat hbox.length_eq,
    ← hbox.length_eq, List.take_left, hslip, Int.sub_zero] at hoffset
  have hnext : ((rs.getRowShapes.take (row + 1)).map IPosition.product).sum
      = ((rs.getRowShapes.take row).map IPosition.product).sum + dims.prod := by
    rw [List.take_add_one, hrow, List.map_append, List.sum_append, ← hprod]
    simp
  have hflat := flat_lt_prod hbox
  exact ⟨hlt, _, hoffset, Nat.le_add_right _ _, by omega⟩

end ResultShapeData

/-- The row offsets are the number of elements in rows before, for any
shapes of the rows, none included; and with rows of fewer than 2^31
elements, the elements of a row come before those of later rows. -/
theorem cachedOffsets_agree (hs : rs.shape = none)
    (hsmall : ∀ dims ∈ rs.getRowShapes, IPosition.product dims < 2 ^ 31) :
    (∀ index, rs.flatOffset index (some rs.rowOffsets)
        = rs.flatOffset index none)
      ∧ rs.rowOffsets.length = rs.nRows + 1
      ∧ rs.rowOffsets.Pairwise (· ≤ ·)
      ∧ rs.rowOffsets.getLast? = some rs.nElements
      ∧ ∀ row index, rs.InRow row index →
        ∃ x : Nat, rs.flatOffset index (some rs.rowOffsets) = .ok (x : Int)
          ∧ x < rs.nElements
          ∧ ∀ row' index', row < row' → rs.InRow row' index' →
            ∃ y : Nat,
              rs.flatOffset index' (some rs.rowOffsets) = .ok (y : Int)
              ∧ x < y := by
  have hagree := ResultShapeData.flatOffset_rowOffsets hs
  have hrows : rs.nRows = rs.getRowShapes.length := by
    simp only [ResultShapeData.nRows, hs]
  have htotal : rs.nElements = ((rs.getRowShapes.take
      rs.getRowShapes.length).map IPosition.product).sum := by
    simp only [ResultShapeData.nElements, hs, List.take_length]
  refine ⟨hagree, by rw [hrows, ResultShapeData.rowOffsets_length],
    ResultShapeData.rowOffsets_pairwise,
    ResultShapeData.rowOffsets_getLast? hs, fun row index h => ?_⟩
  obtain ⟨hlt, x, hx, -, hx'⟩ := h.flatOffset_eq hs hsmall
  refine ⟨x, (hagree index).trans hx, ?_, fun row' index' hrow h' => ?_⟩
  · rw [htotal]
    exact Nat.lt_of_lt_of_le hx' (ResultShapeData.sum_take_le hlt)
  · obtain ⟨-, y, hy, hy', -⟩ := h'.flatOffset_eq hs hsmall
    exact ⟨y, (hagree index').trans hy, Nat.lt_of_lt_of_le hx'
      (Nat.le_trans (ResultShapeData.sum_take_le hrow) hy')⟩

/-- Two rows, and a missing one between them. -/
def gappedRows : ResultShapeData where
  columnName := "DATA"
  shape := none
  ndim := 3
  dtype := .tpFloat
  rowShapes := some [[2, 3], [], [4, 5]]
  cellExtents := none

theorem cachedOffsets_agree_sample :
    (∀ index, gappedRows.flatOffset index (some [0, 6, 6, 26])
        = gappedRows.flatOffset index none)
      ∧ ∃ y : Nat,
        gappedRows.flatOffset [0, 0, 2] (some gappedRows.rowOffsets)
          = .ok (y : Int)
        ∧ 5 < y := by
  obtain ⟨hagree, -, -, -, hlt⟩ := @cachedOffsets_agree gappedRows rfl (by decide)
  refine ⟨hagree, ?_⟩
  obtain ⟨x, hx, -, hrest⟩ := hlt 0 [1, 2, 0] ⟨rfl, [1, 2], [2, 3], rfl, rfl,
    by decide, .cons (by decide) (.cons (by decide) .nil)⟩
  have hfive : gappedRows.flatOffset [1, 2, 0] (some gappedRows.rowOffsets)
      = .ok 5 := by decide
  have hx5 : x = 5 := by
    rw [hfive] at hx
    exact (Int.natCast_inj.mp (Except.ok.inj hx)).symm
  obtain ⟨y, hy, hxy⟩ := hrest 2 [0, 0, 2] (by decide) ⟨rfl, [0, 0], [4, 5],
    rfl, rfl, by decide, .cons (by decide) (.cons (by decide) .nil)⟩
  exact ⟨y, hy, hx5 ▸ hxy⟩

end Arcae
