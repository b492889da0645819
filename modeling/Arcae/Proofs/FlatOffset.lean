/-
`FlatOffset` against the offset it is to return.

An index `Addresses` an element by its place in every dimension of a
fixed result, or by its place in a row of a varying one and the row. The
element lies at the sum, over the dimensions, of the index times the
product of the sizes below (`exactOffset`), after the elements of the
rows before; and this sum is the one over the `std::size_t` strides that
`MakeDataChunks` computes next to it (`dot_bufferStrides`).

`FlatOffset` holds the product in an `int` and adds into a
`std::size_t`, so that it returns the exact offset less the slip, modulo
2^64. A result of less than 2^63 elements leaves the slip no room to
come round to zero (`slipFrom_le`), so the returned offset is exact only
where the slip is zero: where every dimension in which the index is not
zero has a stride below 2^31.
-/
import Arcae.Proofs.Positions

namespace Arcae

open FOrder

-- =================================================== statement vocabulary

/-- The offset of an index among the elements of a shape: each
coordinate times the product of the sizes below. -/
def exactOffset (dims : IPosition) (index : List Nat) : Nat :=
  ((List.range dims.length).map fun d =>
    index.getD d 0 * (dims.take d).prod).sum

/-- An index in range, the sizes it runs over and the number of elements
in preceding rows. -/
inductive ResultShapeData.Addresses (rs : ResultShapeData) :
    List Nat → IPosition → Nat → Prop
  | fixed {shape : IPosition} {index : List Nat} (hs : rs.shape = some shape)
      (hbox : InBox index shape) : rs.Addresses index shape 0
  | varying {dims : IPosition} {idx : List Nat} {row : Nat}
      (hs : rs.shape = none) (hrow : rs.getRowShapes[row]? = some dims)
      (hbox : InBox idx dims) :
      rs.Addresses (idx ++ [row]) dims
        ((rs.getRowShapes.take row).map IPosition.product).sum

variable {rs : ResultShapeData}

-- ======================================================= the exact offset

/-- The offset of an index does not depend on what follows its
coordinates. -/
theorem exactOffset_append {dims : IPosition} {idx : List Nat}
    (hlen : idx.length = dims.length) (rest : List Nat) :
    exactOffset dims (idx ++ rest) = exactOffset dims idx := by
  unfold exactOffset
  refine congrArg List.sum (List.map_congr_left fun d hd => ?_)
  rw [List.getD_append _ _ _ _ (by rw [hlen]; exact List.mem_range.mp hd)]

/-- The product sum is the FORTRAN-order offset. -/
theorem exactOffset_eq_flat {dims : IPosition} {idx : List Nat}
    (hlen : idx.length = dims.length) : exactOffset dims idx = flat dims idx := by
  induction dims generalizing idx with
  | nil => simp [exactOffset]
  | cons n ns ih =>
      cases idx with
      | nil => simp at hlen
      | cons i is =>
          have hrest : is.length = ns.length := by simpa using hlen
          have hscale : ∀ d, (i :: is).getD (d + 1) 0 * ((n :: ns).take (d + 1)).prod
              = n * (is.getD d 0 * (ns.take d).prod) := by
            intro d
            rw [List.getD_cons_succ, List.take_succ_cons, List.prod_cons]
            ring
          rw [flat_cons, ← ih hrest, exactOffset, List.length_cons,
            List.range_succ_eq_map, List.map_cons, List.map_map, List.sum_cons]
          simp only [Function.comp_def, Nat.succ_eq_add_one, hscale,
            List.sum_map_mul_left, exactOffset, List.getD_cons_zero,
            List.take_zero, List.prod_nil, Nat.mul_one]

/-- An element of a result lies within it. -/
theorem ResultShapeData.Addresses.le_nElements {index : List Nat}
    {dims : IPosition} {before : Nat} (h : rs.Addresses index dims before) :
    before + exactOffset dims index ≤ rs.nElements := by
  cases h with
  | fixed hs hbox =>
      rw [exactOffset_eq_flat hbox.length_eq, Nat.zero_add]
      simp only [nElements, hs, IPosition.product]
      by_cases hnil : dims = []
      · subst hnil
        simp
      · rw [if_neg hnil]
        exact Nat.le_of_lt (flat_lt_prod hbox)
  | @varying _ idx row hs hrow hbox =>
      rw [exactOffset_append hbox.length_eq, exactOffset_eq_flat hbox.length_eq]
      have hflat : flat dims idx ≤ IPosition.product dims := by
        by_cases hnil : dims = []
        · subst hnil
          simp
        · rw [IPosition.product, if_neg hnil]
          exact Nat.le_of_lt (flat_lt_prod hbox)
      obtain ⟨hlt, hget⟩ := List.getElem?_eq_some_iff.mp hrow
      have hsplit : rs.getRowShapes
          = rs.getRowShapes.take row ++ dims :: rs.getRowShapes.drop (row + 1) := by
        rw [← hget, List.cons_getElem_drop_succ, List.take_append_drop]
      simp only [nElements, hs]
      conv_rhs => rw [hsplit]
      rw [List.map_append, List.map_cons, List.sum_append, List.sum_cons]
      omega

-- ============================================================== the slip

/-- Truncation takes no more than twice the product. -/
theorem neg_le_toInt32 (p : Nat) : -(p : Int) ≤ toInt32 p := by
  rcases Nat.lt_or_ge p (2 ^ 31) with h | h
  · rw [toInt32_of_lt h]
    omega
  · have hle : -((2 ^ 32 : Nat) / 2 : Int) ≤ toInt32 p := Int.le_bmod (by decide)
    omega

/-- The slip is no more than twice the offset. -/
theorem slipFrom_le (p : Nat) (idx shape : List Nat) :
    slipFrom p idx shape ≤ 2 * (p * flat shape idx : Nat) := by
  induction idx generalizing p shape with
  | nil => simp [slipFrom]
  | cons i idx ih =>
      cases shape with
      | nil => simp [slipFrom]
      | cons n shape =>
          have hterm : (i : Int) * (p - toInt32 p) ≤ i * (2 * p) :=
            Int.mul_le_mul_of_nonneg_left (by have := neg_le_toInt32 p; omega)
              (Int.natCast_nonneg i)
          calc slipFrom p (i :: idx) (n :: shape)
              = i * (p - toInt32 p) + slipFrom (p * n) idx shape := rfl
            _ ≤ i * (2 * p) + 2 * (p * n * flat shape idx : Nat) :=
                Int.add_le_add hterm (ih (p * n) shape)
            _ = 2 * (p * flat (n :: shape) (i :: idx) : Nat) := by
                rw [flat_cons]
                push_cast
                ring

-- ============================================================ FlatOffset

/-- `FlatOffset` returns the exact offset, less the slip. -/
theorem flatOffset_eq {index : List Nat} {dims : IPosition} {before : Nat}
    (hndim : rs.ndim = index.length) (h : rs.Addresses index dims before)
    {offsets : Option (List Nat)}
    (hoff : offsets = none ∨ offsets = some rs.rowOffsets) :
    rs.flatOffset index offsets
      = .ok ((before + exactOffset dims index : Nat)
          - slipFrom 1 (index.take dims.length) dims) := by
  have hcon : rs.consistentNDim = .ok index.length := by
    rw [ResultShapeData.consistentNDim, hndim, if_pos (Int.natCast_nonneg _)]
    rfl
  cases h with
  | fixed hs hbox =>
      have hloop := flatOffsetLoop_eq 1 index dims
      rw [Nat.cast_one, toInt32_one, Nat.one_mul] at hloop
      rw [exactOffset_eq_flat hbox.length_eq, Nat.zero_add, ← hbox.length_eq,
        List.take_length]
      simp only [ResultShapeData.flatOffset, hcon, hs, Result.ok_bind,
        Result.pure_eq, hloop]
  | @varying _ idx row hs hrow hbox =>
      have hlen := hbox.length_eq
      have hloop := flatOffsetLoop_eq 1 idx dims
      rw [Nat.cast_one, toInt32_one, Nat.one_mul] at hloop
      have hget : (idx ++ [row])[(idx ++ [row]).length - 1]? = some row := by simp
      have htake : (idx ++ [row]).take ((idx ++ [row]).length - 1) = idx := by
        simp
      have hshape : rs.getRowShape row = .ok dims := by
        simp only [ResultShapeData.getRowShape, hrow]
      rw [exactOffset_append hlen, exactOffset_eq_flat hlen, ← hlen,
        List.take_left]
      simp only [ResultShapeData.flatOffset, hcon, hs, Result.ok_bind,
        Result.pure_eq, hget, hshape, htake, hloop]
      -- the row offsets hold the sum that is otherwise taken
      rcases hoff with rfl | rfl
      · dsimp only
        congr 1
        push_cast
        ring
      · obtain ⟨hlt, -⟩ := List.getElem?_eq_some_iff.mp hrow
        have hstart := ResultShapeData.rowOffsets_getElem? (Nat.le_of_lt hlt)
        simp only [hstart]
        congr 1
        push_cast
        ring

/-- The buffer strides of a chunk that starts at an index give the exact
offset of the index in its row. -/
theorem dot_bufferStrides {index : List Nat} {dims : IPosition} {before : Nat}
    (h : rs.Addresses index dims before) {offsets : Option (List Nat)}
    {spans : SpanPairs} {contiguous : Bool} {c : DataChunk}
    (hc : makeDataChunk rs offsets spans contiguous = .ok c)
    (hmin : c.minMemIndex = index) :
    rs.flatOffset index offsets = .ok c.flatOffset
      ∧ dot (index.take dims.length) c.bufferStrides = exactOffset dims index := by
  obtain ⟨shape, hshape, hc⟩ := Result.bind_eq_ok.mp hc
  obtain ⟨x, hx, hc⟩ := Result.bind_eq_ok.mp hc
  cases hc
  dsimp only at hmin ⊢
  have hlen : spans.length = index.length := by rw [← hmin, List.length_map]
  refine ⟨hmin ▸ hx, ?_⟩
  rw [hlen]
  cases h with
  | fixed hs hbox =>
      rw [strideShape, hs] at hshape
      cases hshape
      rw [exactOffset_eq_flat hbox.length_eq, ← hbox.length_eq, List.take_length,
        ← dot_strides]
      rcases List.eq_nil_or_concat' dims with rfl | ⟨front, n, rfl⟩
      · cases hbox
        rfl
      · have hfront : (front ++ [n]).take (index.length - 1) = front := by
          rw [hbox.length_eq]
          simp
        rw [hfront, strides_append_singleton front 1 n]
  | @varying _ idx row hs hrow hbox =>
      have hrowShape : shape = dims := by
        rcases List.eq_nil_or_concat' spans with rfl | ⟨secondary, last, rfl⟩
        · simp at hlen
        rw [List.map_append, List.map_singleton] at hmin
        obtain ⟨-, hlast⟩ := List.append_inj' hmin rfl
        simp only [strideShape, hs, List.getLast?_concat] at hshape
        split at hshape
        · rename_i disk row' heq
          cases heq
          have hsame : row' = row := List.singleton_inj.mp hlast
          rw [hsame, ResultShapeData.getRowShape, hrow] at hshape
          exact (Except.ok.inj hshape).symm
        · cases hshape
      subst hrowShape
      have hlen' := hbox.length_eq
      have htake : shape.take ((idx ++ [row]).length - 1) = shape := by
        rw [List.length_append, List.length_singleton, Nat.add_sub_cancel, hlen',
          List.take_length]
      rw [exactOffset_append hlen', exactOffset_eq_flat hlen', ← hlen',
        List.take_left, htake, dot_strides, flat_append_sizes [1] hlen']

/-- The offset that `FlatOffset` returns, a `std::size_t`, is exact
exactly when every dimension in which the index is not zero has a stride
below 2^31. -/
theorem flatOffset_exact_iff (hsize : rs.nElements < 2 ^ 63)
    {index : List Nat} {dims : IPosition} {before : Nat}
    (hndim : rs.ndim = index.length) (h : rs.Addresses index dims before)
    {offsets : Option (List Nat)}
    (hoff : offsets = none ∨ offsets = some rs.rowOffsets) :
    ∃ x, rs.flatOffset index offsets = .ok x
      ∧ (x % 2 ^ 64 = (before + exactOffset dims index : Nat)
        ↔ ∀ d < dims.length,
            index.getD d 0 = 0 ∨ (dims.take d).prod < 2 ^ 31)
      ∧ ∀ spans contiguous c,
          makeDataChunk rs offsets spans contiguous = .ok c →
          c.minMemIndex = index →
          c.flatOffset = x
            ∧ dot (index.take dims.length) c.bufferStrides
              = exactOffset dims index := by
  have hx := flatOffset_eq hndim h hoff
  refine ⟨_, hx, ?_, fun spans contiguous c hc hmin => ?_⟩
  · have hle := h.le_nElements
    have hlen : (index.take dims.length).length = dims.length := by
      cases h with
      | fixed _ hbox => rw [← hbox.length_eq, List.take_length]
      | varying _ _ hbox => rw [← hbox.length_eq, List.take_left]
    have hexact : exactOffset dims index = flat dims (index.take dims.length) := by
      rw [← exactOffset_eq_flat hlen]
      conv_lhs => rw [← List.take_append_drop dims.length index]
      exact exactOffset_append hlen _
    have hslip := slipFrom_le 1 (index.take dims.length) dims
    have hnonneg := slipFrom_nonneg 1 (index.take dims.length) dims
    rw [Nat.one_mul, ← hexact] at hslip
    -- nothing short of 2^64 is lost without a trace
    have hzero : ((before + exactOffset dims index : Nat)
          - slipFrom 1 (index.take dims.length) dims) % 2 ^ 64
            = (before + exactOffset dims index : Nat)
        ↔ slipFrom 1 (index.take dims.length) dims = 0 := by
      omega
    rw [hzero, slipFrom_eq_zero]
    simp only [Nat.one_mul]
    refine forall₂_congr fun d hd => ?_
    rw [List.getD_eq_getElem?_getD, List.getElem?_take_of_lt hd,
      ← List.getD_eq_getElem?_getD]
  · obtain ⟨hflat, hdot⟩ := dot_bufferStrides h hc hmin
    exact ⟨Except.ok.inj (hflat.symm.trans hx), hdot⟩

/-- Two planes of 2^32 elements, one row. -/
def widePlanes : ResultShapeData where
  columnName := "DATA"
  shape := some [65536, 65536, 2, 1]
  ndim := 4
  dtype := .tpFloat
  rowShapes := none
  cellExtents := none

/-- The second plane is put over the first. -/
theorem second_plane_offset :
    ¬ ∀ (rs : ResultShapeData), rs.nElements < 2 ^ 63 →
      ∀ (index : List Nat) (dims : IPosition) (before : Nat),
        rs.ndim = index.length → rs.Addresses index dims before →
        ∃ x, rs.flatOffset index none = .ok x
          ∧ x % 2 ^ 64 = (before + exactOffset dims index : Nat) := by
  intro hall
  obtain ⟨x, hx, hexact⟩ := hall widePlanes (by decide) [0, 0, 1, 0] _ 0 rfl
    (.fixed rfl (.cons (by decide) (.cons (by decide)
      (.cons (by decide) (.cons (by decide) .nil)))))
  have hzero : widePlanes.flatOffset [0, 0, 1, 0] none = .ok 0 := by decide
  rw [hzero] at hx
  cases hx
  exact absurd hexact (by decide)

/-- Two rows of differing shapes: the last element of the second. -/
def unevenRows : ResultShapeData where
  columnName := "DATA"
  shape := none
  ndim := 3
  dtype := .tpFloat
  rowShapes := some [[2, 3], [4, 5]]
  cellExtents := none

theorem flatOffset_exact_sample :
    ∃ x, unevenRows.flatOffset [3, 4, 1] (some unevenRows.rowOffsets) = .ok x
      ∧ x % 2 ^ 64 = (6 + exactOffset [4, 5] [3, 4, 1] : Nat) := by
  obtain ⟨x, hx, hexact, -⟩ := @flatOffset_exact_iff unevenRows (by decide)
    [3, 4, 1] [4, 5] _ rfl
    (@ResultShapeData.Addresses.varying unevenRows [4, 5] [3, 4] 1 rfl rfl
      (.cons (by decide) (.cons (by decide) .nil)))
    _ (.inr rfl)
  refine ⟨x, hx, hexact.mpr ?_⟩
  decide

end Arcae
