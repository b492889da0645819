/-
Where a chunk's elements go in memory.

# The slip

`MakeDataChunks` places an element at the chunk's flat offset plus a
stride for each step from the chunk's least memory index. The strides
are `std::size_t` and exact. The flat offset is computed with a 32-bit
product (`flatOffsetLoop`), so it falls short of the exact offset of the
least index by its `slip`: for each dimension the least index times what
the truncation took from the stride (`flatOffsetLoop_eq`). The slip is
never negative, and it is zero exactly when every dimension whose least
index is not zero has a stride below 2^31 (`slip_eq_zero`).

# The position

A chunk made from spans therefore puts each of its transfers at its own
position in the result, less the chunk's slip
(`makeDataChunk_bufferIndex`).
-/
import Arcae.Proofs.RowSplit

namespace Arcae

open FOrder

-- ======================================================== the truncation

@[simp] theorem toInt32_one : toInt32 1 = 1 := by decide

/-- Truncating a factor first does not change the truncated product. -/
theorem toInt32_mul (a b : Int) : toInt32 (toInt32 a * b) = toInt32 (a * b) :=
  Int.bmod_mul_bmod

/-- Truncation keeps what an `int` can hold. -/
theorem toInt32_of_lt {p : Nat} (h : p < 2 ^ 31) : toInt32 p = p := by
  unfold toInt32
  refine Int.bmod_eq_of_le ?_ ?_ <;> omega

/-- Truncation loses something of every larger product. -/
theorem toInt32_lt {p : Nat} (h : 2 ^ 31 ≤ p) : toInt32 p < p := by
  have hlt : toInt32 p < (2 ^ 32 + 1) / 2 := Int.bmod_lt (by decide)
  omega

theorem toInt32_le (p : Nat) : toInt32 p ≤ p := by
  rcases Nat.lt_or_ge p (2 ^ 31) with h | h
  · exact Int.le_of_eq (toInt32_of_lt h)
  · exact Int.le_of_lt (toInt32_lt h)

-- ============================================================== the slip

/-- How far the 32-bit offset of an index falls short, from the stride
`p` on. -/
def slipFrom : Nat → List Nat → List Nat → Int
  | p, i :: idx, n :: shape => i * (p - toInt32 p) + slipFrom (p * n) idx shape
  | _, _, _ => 0

/-- The loop of `FlatOffset` computes the exact offset, less the
slip. -/
theorem flatOffsetLoop_eq (p : Nat) (idx shape : List Nat) :
    ResultShapeData.flatOffsetLoop (toInt32 p) idx shape
      = (p * flat shape idx : Nat) - slipFrom p idx shape := by
  induction idx generalizing p shape with
  | nil => simp [ResultShapeData.flatOffsetLoop, slipFrom]
  | cons i idx ih =>
      cases shape with
      | nil => simp [ResultShapeData.flatOffsetLoop, slipFrom]
      | cons n shape =>
          have hstep : toInt32 (toInt32 p * n) = toInt32 (p * n : Nat) := by
            rw [toInt32_mul, Nat.cast_mul]
          rw [ResultShapeData.flatOffsetLoop, hstep, ih, slipFrom, flat_cons]
          push_cast
          ring

theorem slipFrom_nonneg (p : Nat) (idx shape : List Nat) :
    0 ≤ slipFrom p idx shape := by
  induction idx generalizing p shape with
  | nil => simp [slipFrom]
  | cons i idx ih =>
      cases shape with
      | nil => simp [slipFrom]
      | cons n shape =>
          have hterm : 0 ≤ (i : Int) * (p - toInt32 p) :=
            Int.mul_nonneg (Int.natCast_nonneg i) (by have := toInt32_le p; omega)
          have hrest := ih (p * n) shape
          rw [slipFrom]
          omega

/-- There is no slip exactly when every dimension starts at zero or has
a stride an `int` can hold. -/
theorem slipFrom_eq_zero (p : Nat) (idx shape : List Nat) :
    slipFrom p idx shape = 0
      ↔ ∀ d < shape.length,
          idx.getD d 0 = 0 ∨ p * (shape.take d).prod < 2 ^ 31 := by
  induction idx generalizing p shape with
  | nil => simp [slipFrom]
  | cons i idx ih =>
      cases shape with
      | nil => simp [slipFrom]
      | cons n shape =>
          have hle := toInt32_le p
          have hterm : 0 ≤ (i : Int) * (p - toInt32 p) :=
            Int.mul_nonneg (Int.natCast_nonneg i) (by omega)
          have hrest := slipFrom_nonneg (p * n) idx shape
          have hhead : (i : Int) * (p - toInt32 p) = 0 ↔ i = 0 ∨ p < 2 ^ 31 := by
            rw [mul_eq_zero, Int.natCast_eq_zero]
            refine or_congr_right ⟨fun h => ?_, fun h => ?_⟩
            · by_contra hge
              have := toInt32_lt (Nat.le_of_not_lt hge)
              omega
            · have := toInt32_of_lt h
              omega
          have hsplit : slipFrom p (i :: idx) (n :: shape) = 0
              ↔ (i : Int) * (p - toInt32 p) = 0
                ∧ slipFrom (p * n) idx shape = 0 := by
            rw [slipFrom]
            omega
          rw [hsplit, hhead, ih]
          constructor
          · intro hx d hd
            obtain ⟨h0, hs⟩ := hx
            cases d with
            | zero => simpa using h0
            | succ d =>
                have := hs d (by simpa using hd)
                rw [List.take_succ_cons, List.prod_cons, ← Nat.mul_assoc,
                  List.getD_cons_succ]
                exact this
          · intro h
            refine ⟨by simpa using h 0 (by simp), fun d hd => ?_⟩
            have := h (d + 1) (by simpa using hd)
            rwa [List.take_succ_cons, List.prod_cons, ← Nat.mul_assoc,
              List.getD_cons_succ] at this

-- ====================================================== the least index

/-- The least memory index of a span is one of them. -/
theorem minMem_spec {span : SpanPair} (h : span.mem ≠ []) :
    minMem span ∈ span.mem ∧ ∀ i ∈ span.mem, minMem span ≤ i := by
  obtain ⟨disk, mem⟩ := span
  cases mem with
  | nil => exact absurd rfl h
  | cons i is =>
      have key : ∀ (is : List Nat) (i : Nat), is.foldl min i ∈ i :: is
          ∧ is.foldl min i ≤ i ∧ ∀ j ∈ is, is.foldl min i ≤ j := by
        intro is
        induction is with
        | nil => intro i; simp
        | cons j is ih =>
            intro i
            obtain ⟨hmem, hle, hall⟩ := ih (min i j)
            rw [List.foldl_cons]
            refine ⟨?_, le_trans hle (Nat.min_le_left i j), ?_⟩
            · rcases List.mem_cons.mp hmem with hm | hm
              · rw [hm]
                rcases Nat.le_total i j with hij | hij
                · rw [Nat.min_eq_left hij]
                  exact List.mem_cons_self
                · rw [Nat.min_eq_right hij]
                  exact List.mem_cons_of_mem _ List.mem_cons_self
              · exact List.mem_cons_of_mem _ (List.mem_cons_of_mem _ hm)
            · intro k hk
              rcases List.mem_cons.mp hk with rfl | hk
              · exact le_trans hle (Nat.min_le_right i k)
              · exact hall k hk
      obtain ⟨hmem, hle, hall⟩ := key is i
      refine ⟨hmem, fun j hj => ?_⟩
      rcases List.mem_cons.mp hj with rfl | hj
      · exact hle
      · exact hall j hj

-- ================================================= transfers of a chunk

/-- A transfer of some spans has one index pair from each. -/
theorem mem_transfers {spans : SpanPairs} {t : Transfer} :
    t ∈ spans.transfers ↔ List.Forall₂ (fun p s => p ∈ s.pairs) t spans := by
  rw [SpanPairs.transfers, List.mem_sections, List.forall₂_map_right_iff]

/-- The least memory indices of some spans bound those of their
transfers. -/
theorem minMem_le_mem {spans : SpanPairs} {t : Transfer}
    (h : t ∈ spans.transfers) :
    List.Forall₂ (· ≤ ·) (spans.map minMem) t.mem := by
  rw [Transfer.mem, List.forall₂_map_left_iff, List.forall₂_map_right_iff]
  refine (mem_transfers.mp h).flip.imp fun s p hp => ?_
  have hm : p.2 ∈ s.mem := (List.of_mem_zip hp).2
  exact (minMem_spec (List.ne_nil_of_mem hm)).2 p.2 hm

theorem transfers_length {spans : SpanPairs} {t : Transfer}
    (h : t ∈ spans.transfers) : t.length = spans.length :=
  (mem_transfers.mp h).length_eq

/-- The transfers of some spans and a slowest one. -/
theorem mem_transfers_concat {spans : SpanPairs} {s : SpanPair} {t : Transfer} :
    t ∈ SpanPairs.transfers (spans ++ [s])
      ↔ ∃ t' p, t = t' ++ [p] ∧ t' ∈ spans.transfers ∧ p ∈ s.pairs := by
  rw [SpanPairs.transfers, List.map_append, List.map_singleton,
    Sections.sections_append_singleton, List.mem_flatMap]
  simp only [List.mem_map]
  constructor
  · intro hx
    obtain ⟨p, hp, t', ht', rfl⟩ := hx
    exact ⟨t', p, rfl, ht', hp⟩
  · intro hx
    obtain ⟨t', p, rfl, ht', hp⟩ := hx
    exact ⟨p, hp, t', ht', rfl⟩

@[simp] theorem Transfer.row_concat (t : Transfer) (p : Int × Nat) :
    Transfer.row (t ++ [p]) = p.2 := by
  simp [Transfer.row, Transfer.mem]

@[simp] theorem Transfer.index_concat (t : Transfer) (p : Int × Nat) :
    Transfer.index (t ++ [p]) = t.mem := by
  simp [Transfer.index, Transfer.mem]

/-- A transfer is its index in the row, and the row. -/
theorem Transfer.mem_eq {t : Transfer} (h : t ≠ []) :
    t.mem = t.index ++ [t.row] := by
  have hne : t.mem ≠ [] := by simpa [Transfer.mem] using h
  rw [Transfer.index, Transfer.row, List.getLastD_eq_getLast?,
    List.getLast?_eq_some_getLast hne, Option.getD_some,
    List.dropLast_append_getLast]

-- ========================================================= built chunks

section Built

variable {rs : ResultShapeData}

/-- A consistent fixed shape is the sizes of a row, and the number of
rows. -/
theorem ResultShapeData.Consistent.shape_eq (h : rs.Consistent)
    {shape : IPosition} (hs : rs.shape = some shape) (row : Nat) :
    shape = rs.rowDims row ++ [rs.nRows] := by
  have hlen := h.fixed shape hs
  have hpos : 0 < rs.rank := by
    have := h.ndim_pos
    unfold ResultShapeData.rank
    omega
  have hne : shape ≠ [] := List.ne_nil_of_length_pos (by omega)
  simp only [ResultShapeData.rowDims, ResultShapeData.nRows, hs]
  rw [← hlen, ← List.dropLast_eq_take, List.getLastD_eq_getLast?,
    List.getLast?_eq_some_getLast hne, Option.getD_some,
    List.dropLast_append_getLast]

theorem ResultShapeData.Consistent.rank_pos (h : rs.Consistent) :
    0 < rs.rank := by
  have := h.ndim_pos
  unfold ResultShapeData.rank
  omega

theorem ResultShapeData.Consistent.consistentNDim (h : rs.Consistent) :
    rs.consistentNDim = .ok rs.rank := by
  unfold ResultShapeData.consistentNDim
  rw [if_pos (by have := h.ndim_pos; omega)]
  rfl

/-- The shape of a row, as the source looks it up. -/
theorem ResultShapeData.getRowShape_eq (hs : rs.shape = none) {row : Nat}
    (hrow : row < rs.nRows) : rs.getRowShape row = .ok (rs.rowDims row) := by
  simp only [ResultShapeData.nRows, hs] at hrow
  simp only [ResultShapeData.getRowShape, ResultShapeData.rowDims, hs,
    List.getElem?_eq_getElem hrow, List.getD_eq_getElem?_getD,
    Option.getD_some]

/-- A row has one size for each secondary dimension. -/
theorem ResultShapeData.Consistent.rowDims_length (h : rs.Consistent)
    {row : Nat} (hrow : row < rs.nRows ∨ rs.isFixed = true) :
    (rs.rowDims row).length = rs.rank - 1 := by
  cases hs : rs.shape with
  | some shape =>
      have hlen := h.fixed shape hs
      simp only [ResultShapeData.rowDims, hs, List.length_take]
      omega
  | none =>
      have hrow' : row < rs.getRowShapes.length := by
        rcases hrow with hrow | hrow
        · simpa only [ResultShapeData.nRows, hs] using hrow
        · simp [ResultShapeData.isFixed, hs] at hrow
      simp only [ResultShapeData.rowDims, hs]
      refine (h.varying hs).2 _ ?_
      rw [List.getD_eq_getElem?_getD, List.getElem?_eq_getElem hrow']
      exact List.getElem_mem hrow'

/-- The row offsets are the sums of the products of the rows before. -/
theorem ResultShapeData.rowOffsets_getElem? {row : Nat}
    (hrow : row ≤ rs.getRowShapes.length) :
    rs.rowOffsets[row]?
      = some ((rs.getRowShapes.take row).map IPosition.product).sum := by
  have hlen : row < (List.scanl (· + ·) 0
      (rs.getRowShapes.map IPosition.product)).length := by
    rw [List.length_scanl, List.length_map]
    omega
  rw [ResultShapeData.rowOffsets, List.getElem?_eq_getElem hlen,
    List.getElem_scanl, List.map_take, List.sum_eq_foldl]

/-- The row offsets of the source are where the rows start. -/
theorem ResultShapeData.Consistent.rowOffsets_getElem? (h : rs.Consistent)
    (hs : rs.shape = none) {row : Nat} (hrow : row ≤ rs.nRows) :
    rs.rowOffsets[row]? = some (rs.rowStart row) := by
  simp only [ResultShapeData.nRows, hs] at hrow
  obtain ⟨hrank, hall⟩ := h.varying hs
  have hprod : (rs.getRowShapes.take row).map IPosition.product
      = (rs.getRowShapes.take row).map List.prod := by
    refine List.map_congr_left fun s hmem => ?_
    have hlen := hall s (List.mem_of_mem_take hmem)
    have hne : s ≠ [] := List.ne_nil_of_length_pos (by omega)
    rw [IPosition.product, if_neg hne]
  rw [ResultShapeData.rowOffsets_getElem? hrow, hprod]
  simp only [ResultShapeData.rowStart, hs]

/-- How far the flat offset of a chunk falls short of the exact one. -/
def DataChunk.slip (rs : ResultShapeData) (c : DataChunk) : Int :=
  match rs.shape with
  | some shape => slipFrom 1 c.minMemIndex shape
  | none => slipFrom 1 c.minMemIndex.dropLast
      (rs.rowDims (c.minMemIndex.getLastD 0))

/-- A chunk with its place in the result: what `MakeDataChunks` computes
from the spans. -/
structure DataChunk.Built (rs : ResultShapeData) (c : DataChunk) : Prop where
  rank : c.dimSpans.length = rs.rank
  minMem_eq : c.minMemIndex = c.dimSpans.map minMem
  chunkStrides_eq : c.chunkStrides
    = strides (c.dimSpans.map fun span => span.mem.length)
  bufferStrides_eq : ∀ t ∈ c.transfers,
    c.bufferStrides = strides (rs.rowDims t.row ++ [1])
  row_eq : rs.shape = none →
    ∀ t ∈ c.transfers, t.row = c.minMemIndex.getLastD 0
  bufferIndex_eq : ∀ t ∈ c.transfers,
    c.bufferIndex t.mem = t.position rs - c.slip rs

/-- The position of an element of a fixed result, in one go. -/
theorem ResultShapeData.Consistent.position_fixed (h : rs.Consistent)
    {shape : IPosition} (hs : rs.shape = some shape) {row : Nat}
    {idx : List Nat} (hidx : idx.length = rs.rank - 1) :
    rs.position row idx = flat shape (idx ++ [row]) := by
  have hdims : rs.rowDims row = shape.take (rs.rank - 1) := by
    simp only [ResultShapeData.rowDims, hs]
  have hlen := h.fixed shape hs
  conv_rhs => rw [h.shape_eq hs row]
  rw [flat_append_singleton _ _ (by rw [hidx, hdims, List.length_take]; omega),
    ResultShapeData.position, hdims]
  simp only [ResultShapeData.rowStart, hs]
  omega

/-- A chunk of a fixed result is built. -/
theorem makeDataChunk_fixed (h : rs.Consistent) {shape : IPosition}
    (hs : rs.shape = some shape) {spans : SpanPairs}
    (hspans : spans.length = rs.rank) (contiguous : Bool) :
    ∃ c, makeDataChunk rs none spans contiguous = .ok c
      ∧ c.dimSpans = spans ∧ c.contiguous = contiguous ∧ c.Built rs := by
  have hpos := h.rank_pos
  refine ⟨
    { dimSpans := spans
      minMemIndex := spans.map minMem
      flatOffset := ResultShapeData.flatOffsetLoop 1 (spans.map minMem) shape
      bufferStrides := strides (shape.take (spans.length - 1) ++ [1])
      chunkStrides := strides (spans.map fun span => span.mem.length)
      contiguous := contiguous }, ?_, rfl, rfl, hspans, rfl, rfl,
    fun t _ => ?_, (by rw [hs]; exact fun hn => nomatch hn), ?_⟩
  · simp only [makeDataChunk, strideShape, hs, ResultShapeData.flatOffset,
      h.consistentNDim, Result.ok_bind, Result.pure_eq]
  · simp only [ResultShapeData.rowDims, hs, hspans]
  · intro t (ht : t ∈ spans.transfers)
    have hlen : t.length = rs.rank := (transfers_length ht).trans hspans
    have hne : t ≠ [] := List.ne_nil_of_length_pos (by omega)
    have hidx : t.index.length = rs.rank - 1 := by
      simp [Transfer.index, Transfer.mem, hlen]
    have hstrides : strides (shape.take (spans.length - 1) ++ [1])
        = strides shape := by
      conv_rhs => rw [h.shape_eq hs 0]
      simp only [ResultShapeData.rowDims, hs, hspans]
      exact strides_append_singleton _ _ _
    have hoffset := flatOffsetLoop_eq 1 (spans.map minMem) shape
    rw [Nat.cast_one, toInt32_one, Nat.one_mul] at hoffset
    have hlegs := dot_sub_add (minMem_le_mem ht) (strides shape)
    simp only [dot_strides] at hlegs
    rw [Transfer.position, h.position_fixed hs hidx, ← Transfer.mem_eq hne]
    simp only [DataChunk.bufferIndex, DataChunk.slip, hs, hstrides, hoffset,
      dot_strides]
    omega

/-- A chunk of one row of a varying result is built. -/
theorem makeDataChunk_varying (h : rs.Consistent) (hs : rs.shape = none)
    {secondary : SpanPairs} {disk : List Int} {row : Nat}
    (hspans : secondary.length = rs.rank - 1) (hrow : row < rs.nRows)
    (contiguous : Bool) :
    ∃ c, makeDataChunk rs (some rs.rowOffsets)
        (secondary ++ [SpanPair.mk disk [row]]) contiguous = .ok c
      ∧ c.dimSpans = secondary ++ [SpanPair.mk disk [row]]
      ∧ c.contiguous = contiguous ∧ c.Built rs := by
  have hpos := h.rank_pos
  have hlen : (secondary ++ [SpanPair.mk disk [row]]).length = rs.rank := by
    rw [List.length_append, hspans, List.length_singleton]
    omega
  have hmin : (secondary ++ [SpanPair.mk disk [row]]).map minMem
      = secondary.map minMem ++ [row] := by
    rw [List.map_append]
    rfl
  have hminlen : (secondary.map minMem).length = rs.rank - 1 := by
    rw [List.length_map, hspans]
  have hget : (secondary.map minMem ++ [row])[rs.rank - 1]? = some row := by
    rw [← hminlen, List.getElem?_concat_length]
  have htake : (secondary.map minMem ++ [row]).take (rs.rank - 1)
      = secondary.map minMem := by
    rw [← hminlen, List.take_left]
  have hdims := h.rowDims_length (.inl hrow)
  have hdimtake : (rs.rowDims row).take (rs.rank - 1) = rs.rowDims row := by
    rw [← hdims, List.take_length]
  have hrow' : ∀ t ∈ SpanPairs.transfers (secondary ++ [SpanPair.mk disk [row]]),
      t.row = row := by
    intro t ht
    obtain ⟨t', p, rfl, -, hp⟩ := mem_transfers_concat.mp ht
    have hmem : p.2 ∈ [row] := (List.of_mem_zip hp).2
    rw [Transfer.row_concat, List.mem_singleton.mp hmem]
  refine ⟨
    { dimSpans := secondary ++ [SpanPair.mk disk [row]]
      minMemIndex := secondary.map minMem ++ [row]
      flatOffset := ResultShapeData.flatOffsetLoop 1 (secondary.map minMem)
        (rs.rowDims row) + rs.rowStart row
      bufferStrides := strides (rs.rowDims row ++ [1])
      chunkStrides := strides
        ((secondary ++ [SpanPair.mk disk [row]]).map fun span =>
          span.mem.length)
      contiguous := contiguous }, ?_, rfl, rfl, hlen, hmin.symm, rfl,
    (fun t ht => by rw [hrow' t ht]), ?_, ?_⟩
  · simp only [makeDataChunk, strideShape, hs, List.getLast?_concat,
      rs.getRowShape_eq hs hrow, ResultShapeData.flatOffset,
      h.consistentNDim, Result.ok_bind, Result.pure_eq, hmin, hget, htake,
      h.rowOffsets_getElem? hs (Nat.le_of_lt hrow), hlen, hdimtake]
  · intro _ t (ht : t ∈ SpanPairs.transfers (secondary ++ [SpanPair.mk disk [row]]))
    rw [hrow' t ht]
    simp
  · intro t (ht : t ∈ SpanPairs.transfers (secondary ++ [SpanPair.mk disk [row]]))
    have htlen : t.length = rs.rank := (transfers_length ht).trans hlen
    have hne : t ≠ [] := List.ne_nil_of_length_pos (by omega)
    have hidx : t.index.length = rs.rank - 1 := by
      simp [Transfer.index, Transfer.mem, htlen]
    have hrow' := hrow' t ht
    have hlegs := dot_sub_add (minMem_le_mem ht) (strides (rs.rowDims row ++ [1]))
    have hleg₀ := flat_append_singleton 1 row (hminlen.trans hdims.symm)
    have hleg₁ := flat_append_singleton 1 row (hidx.trans hdims.symm)
    simp only [dot_strides] at hlegs
    rw [hmin, hleg₀, Transfer.mem_eq hne, hrow', hleg₁] at hlegs
    have hoffset := flatOffsetLoop_eq 1 (secondary.map minMem) (rs.rowDims row)
    rw [Nat.cast_one, toInt32_one, Nat.one_mul] at hoffset
    rw [Transfer.position, hrow', ResultShapeData.position]
    simp only [DataChunk.bufferIndex, DataChunk.slip, hs, hoffset,
      List.dropLast_concat, List.getLastD_concat, dot_strides,
      Transfer.mem_eq hne, hrow']
    omega

end Built

end Arcae
