/-
The two strategies of `MakeArray`.

Under "fixed" a fixed result is nested in lists of fixed size, under
"list" in lists with the offsets of `GetOffsets`. A level of either kind
puts the items below into lists of the same sizes (`nested_list`,
`ResultShapeData.levelSizes`), and the offsets keep within an `int`
because no level has more items than the result has elements. So the two
arrays differ only as their elements do (`nested_inj`), and they are the
rows where the elements are right.

The elements differ for complex results only, whose pairs are one more
level. Its offsets count leaf values, twice as many as there are
elements, and wrap from 2^30 elements on: the last pair then ends below
zero and is cut down to nothing (`makeElements_list`). Strings of too
much text make no elements under either strategy.
-/
import Arcae.Spec.Arrow
import Arcae.Proofs.GetOffsets
import Mathlib.Algebra.Order.BigOperators.GroupWithZero.List

namespace Arcae

open Nested FOrder

variable {β : Type} {rs : ResultShapeData} {arrowDtype : ArrowType}

-- =================================================== statement vocabulary

/-- An element of a buffer of leaf values: a pair of them if it is
complex. -/
def elementNest (dtype : DataType) (buffer : Nat → β) (q : Nat) : Nested β :=
  if dtype.isComplex then
    .list [.value (buffer (2 * q)), .value (buffer (2 * q + 1))]
  else .value (buffer q)

/-- The leaf values of a result. -/
def leafValues (rs : ResultShapeData) (buffer : Nat → β) : List β :=
  (List.range (leafWidth rs.dtype * rs.nElements)).map buffer

-- ================================================================= levels

/-- A level whose lists start at the running sums of some sizes puts the
items below into lists of these sizes. -/
theorem nested_list {level : ListArray} {child : ArrayData β}
    {sizes : List Nat} (hlen : level.length = sizes.length)
    (hstart : ∀ i ≤ sizes.length, level.start i = (sizes.take i).sum) :
    (ArrayData.list level child).nested = wrap sizes child.nested := by
  have hget : ∀ i ≤ sizes.length,
      (sizes.scanl (· + ·) 0).getD i 0 = level.start i := by
    intro i hi
    rw [List.getD_eq_getElem?_getD, List.getElem?_scanl, if_pos hi,
      Option.getD_some, hstart i hi, List.sum_eq_foldl]
  rw [← wrapAt_scanl, wrapAt, List.length_scanl, Nat.add_sub_cancel,
    ArrayData.nested, hlen]
  refine List.map_congr_left fun i hi => ?_
  rw [List.mem_range] at hi
  rw [hget i (Nat.le_of_lt hi), hget (i + 1) hi, ListArray.size]

/-- Lists of one size, over items that fill them. -/
theorem fixedSizeListFromArrays_nested {array : ArrayData β} {m n : Nat}
    (hn : 0 < n) (hlen : array.length = m * n) :
    ∃ array', fixedSizeListFromArrays array n = .ok array'
      ∧ array'.length = m
      ∧ array'.nested = wrap (List.replicate m n) array.nested := by
  have hmod : array.length % n = 0 := by rw [hlen, Nat.mul_mod_left]
  have hdiv : array.length / n = m := by rw [hlen, Nat.mul_div_cancel _ hn]
  rw [fixedSizeListFromArrays_of_dvd hn hmod, hdiv]
  refine ⟨_, rfl, rfl, nested_list (by simp) fun i hi => ?_⟩
  rw [List.length_replicate] at hi
  rw [List.take_replicate, List.sum_replicate_nat, Nat.min_eq_left hi]
  rfl

/-- Lists between offsets that an `int` keeps. -/
theorem listFromArrays_nested {array : ArrayData β} {sizes : List Nat}
    (hsum : sizes.sum < 2 ^ 31) :
    ∃ array', listFromArrays array
          ((sizes.scanl (· + ·) 0).map fun n : Nat => toInt32 n) = .ok array'
      ∧ array'.length = sizes.length
      ∧ array'.nested = wrap sizes array.nested := by
  rw [(scanl_toInt32_iff sizes).mpr hsum]
  have hne : (sizes.scanl (· + ·) 0).map (fun n : Nat => (n : Int)) ≠ [] := by
    rw [ne_eq, List.map_eq_nil_iff]
    exact List.ne_nil_of_length_pos (by rw [List.length_scanl]; omega)
  have hlen : ((sizes.scanl (· + ·) 0).map fun n : Nat => (n : Int)).length - 1
      = sizes.length := by
    rw [List.length_map, List.length_scanl, Nat.add_sub_cancel]
  refine ⟨_, if_neg hne, hlen, nested_list hlen fun i hi => ?_⟩
  show (((sizes.scanl (· + ·) 0).map fun n : Nat => (n : Int)).map
    Int.toNat).getD (i + 0) 0 = (sizes.take i).sum
  rw [List.map_map, Nat.add_zero]
  simp only [Function.comp_def, Int.toNat_natCast, List.map_id']
  rw [List.getD_eq_getElem?_getD, List.getElem?_scanl, if_pos hi,
    Option.getD_some, List.sum_eq_foldl]

-- ============================================================ fixed shapes

namespace ResultShapeData

variable {shape : IPosition}

/-- The lists of a dimension of a fixed result are of one size. -/
theorem levelSizes_fixed (hs : rs.shape = some shape) (d : Nat) :
    rs.levelSizes d
      = List.replicate
          (rs.nRows * ((shape.take (rs.rank - 1)).drop (d + 1)).prod)
          ((shape.take (rs.rank - 1)).getD d 0) := by
  have key : ∀ n : Nat, (List.range n).flatMap (fun row =>
        rowListSizes (rs.rowSizes row) d)
      = List.replicate (n * ((shape.take (rs.rank - 1)).drop (d + 1)).prod)
          ((shape.take (rs.rank - 1)).getD d 0) := by
    intro n
    induction n with
    | zero => simp
    | succ n ih =>
        rw [List.range_succ, List.flatMap_append, ih, List.flatMap_singleton,
          Nat.succ_mul, List.replicate_add]
        simp only [rowListSizes, rowSizes, hs]
  exact key rs.nRows

/-- No level has more items than there are elements. -/
theorem OneRank.levelSizes_sum_le (h : rs.OneRank) (hs : rs.shape = some shape)
    (hpos : ∀ n ∈ shape, 0 < n) {d : Nat} (hd : d < rs.rank - 1) :
    (rs.levelSizes d).sum ≤ rs.nElements := by
  have hlen := h.fixed shape hs
  have hdims : d < (shape.take (rs.rank - 1)).length := by
    rw [List.length_take]
    omega
  have hlower : 0 < ((shape.take (rs.rank - 1)).take d).prod :=
    List.prod_pos fun n hn =>
      hpos n (List.mem_of_mem_take (List.mem_of_mem_take hn))
  rw [levelSizes_sum h.sized hd, ← h.rowBase_nRows, rowBase_fixed hs]
  simp only [levelCount, rowSizes, hs, List.map_const', List.length_range,
    List.sum_replicate_nat]
  refine Nat.mul_le_mul_left _ ?_
  calc ((shape.take (rs.rank - 1)).drop d).prod
      ≤ ((shape.take (rs.rank - 1)).take d).prod
          * ((shape.take (rs.rank - 1)).drop d).prod :=
        Nat.le_mul_of_pos_left _ hlower
    _ = (shape.take (rs.rank - 1)).prod := List.prod_take_mul_prod_drop _ d

/-- The items of a level are the lists of the level below. -/
theorem OneRank.levelSizes_sum_zero (h : rs.OneRank) (hrank : 0 < rs.rank - 1) :
    (rs.levelSizes 0).sum = rs.nElements := by
  rw [levelSizes_sum h.sized hrank, ← h.rowBase_nRows]
  rfl

/-- The elements of a result, wrapped in its `d` innermost dimensions. -/
def wrapLevels (rs : ResultShapeData) (items : List (Nested β)) (d : Nat) :
    List (Nested β) :=
  (List.range d).foldl (fun items dim => wrap (rs.levelSizes dim) items) items

theorem wrapLevels_succ (rs : ResultShapeData) (items : List (Nested β))
    (d : Nat) :
    rs.wrapLevels items (d + 1)
      = wrap (rs.levelSizes d) (rs.wrapLevels items d) := by
  rw [wrapLevels, List.range_succ, List.foldl_append]
  rfl

/-- There are as many items as the next lists hold. -/
theorem OneRank.wrapLevels_length (h : rs.OneRank) {items : List (Nested β)}
    (hitems : items.length = rs.nElements) {d : Nat} (hd : d < rs.rank - 1) :
    (rs.wrapLevels items d).length = (rs.levelSizes d).sum := by
  cases d with
  | zero => rw [h.levelSizes_sum_zero hd, ← hitems]; rfl
  | succ d => rw [wrapLevels_succ, wrap_length, levelSizes_length h.sized hd]

/-- Wrapping loses nothing of the elements. -/
theorem OneRank.nested_inj (h : rs.OneRank) {items items' : List (Nested β)}
    (hitems : items.length = rs.nElements)
    (hitems' : items'.length = rs.nElements) {d : Nat} (hd : d ≤ rs.rank - 1)
    (heq : rs.wrapLevels items d = rs.wrapLevels items' d) : items = items' := by
  induction d with
  | zero => exact heq
  | succ d ih =>
      rw [wrapLevels_succ, wrapLevels_succ] at heq
      apply ih (by omega)
      rw [← flatMap_items_wrap (Nat.le_of_eq (h.wrapLevels_length hitems hd)),
        heq,
        flatMap_items_wrap (Nat.le_of_eq (h.wrapLevels_length hitems' hd))]

/-- Wrapped in every dimension, the elements are the rows. -/
theorem OneRank.wrapLevels_rank (h : rs.OneRank) (value : Nat → Nested β) :
    rs.wrapLevels ((List.range rs.nElements).map value) (rs.rank - 1)
      = (List.range rs.nRows).map (rs.rowNest value) := by
  have key : ∀ d ≤ rs.rank - 1,
      rs.wrapLevels ((List.range rs.nElements).map value) d
        = rs.rowCells value d := by
    intro d
    induction d with
    | zero =>
        intro _
        rw [rowCells_zero, h.rowBase_nRows]
        rfl
    | succ d ih =>
        intro hd
        rw [wrapLevels_succ, ih (by omega), wrap_rowCells h.sized value hd]
  rw [key _ (Nat.le_refl _), h.rowCells_rank value]

/-- The rows of a fixed result, index by index. -/
theorem OneRank.rowNest_fixed (h : rs.OneRank) (hs : rs.shape = some shape)
    (value : Nat → Nested β) (row : Nat) :
    rs.rowNest value row
      = rectangle (fun idx => value (flat shape (idx.reverse ++ [row])))
          (shape.take (rs.rank - 1)).reverse := by
  have hlen := h.fixed shape hs
  have hpos := h.rank_pos
  have hne : shape ≠ [] := List.ne_nil_of_length_pos (by omega)
  have hsplit : shape.take (rs.rank - 1) ++ [shape.getLast hne] = shape := by
    rw [← hlen, ← List.dropLast_eq_take, List.dropLast_append_getLast]
  simp only [rowNest, hs, block]
  refine rectangle_congr fun idx hidx => ?_
  have hidxlen : idx.reverse.length = (shape.take (rs.rank - 1)).length := by
    rw [List.length_reverse, hidx.length_eq, List.length_reverse]
  conv_rhs => rw [← hsplit]
  rw [flat_append_singleton _ row hidxlen]
  congr 1
  ring

end ResultShapeData

-- =============================================================== elements

/-- A leaf without an offset is its values. -/
theorem leaf_nested (type : ArrowType) (values : List β) :
    (ArrayData.leaf ⟨type, 0, values.length, none, values⟩).nested
      = values.map .value := by
  show ((values.drop 0).take values.length).map Nested.value = _
  rw [List.drop_zero, List.take_length]

theorem makePrimitiveArray_nested (buffer : Nat → β) (n : Nat) :
    (makePrimitiveArray arrowDtype n ((List.range n).map buffer)).nested
      = (List.range n).map fun q => .value (buffer q) := by
  have h := leaf_nested arrowDtype ((List.range n).map buffer)
  rw [List.length_map, List.length_range, List.map_map] at h
  exact h

/-- Strings of more text than an array holds. -/
def TextTooLong [LeafValue β] (rs : ResultShapeData) (values : List β) : Prop :=
  rs.dtype = .tpString ∧ maxTextBytes < totalText values

/-- Too much text is refused, whatever the strategy. -/
theorem makeElements_too_long [LeafValue β] {values : List β}
    (hlong : TextTooLong rs values) :
    ∃ e, ∀ strat, makeElements rs arrowDtype strat values = .error e := by
  obtain ⟨hstring, hover⟩ := hlong
  cases hmake : makeStrings values with
  | error e =>
      refine ⟨e, fun strat => ?_⟩
      unfold makeElements
      rw [if_pos hstring, hmake]
  | ok data =>
      have hfits := (makeStrings_eq_ok.mp hmake).1
      exact absurd hover (Nat.not_lt.mpr hfits)

/-- Elements that are no pairs do not depend on the strategy. -/
theorem makeElements_plain [LeafValue β] (hplain : rs.dtype.isComplex = false)
    (strat : ConvertStrategy) (buffer : Nat → β)
    (htext : ¬ TextTooLong rs (leafValues rs buffer)) :
    ∃ elements, makeElements rs arrowDtype strat (leafValues rs buffer)
        = .ok elements
      ∧ elements.length = rs.nElements
      ∧ elements.nested
        = (List.range rs.nElements).map (elementNest rs.dtype buffer) := by
  have hvalues : leafValues rs buffer = (List.range rs.nElements).map buffer := by
    rw [leafValues, leafWidth, hplain, if_neg Bool.false_ne_true, Nat.one_mul]
  have helement : elementNest rs.dtype buffer = fun q => .value (buffer q) := by
    funext q
    rw [elementNest, hplain, if_neg Bool.false_ne_true]
  unfold makeElements
  rw [hvalues] at htext ⊢
  rw [helement]
  by_cases hstring : rs.dtype = .tpString
  · rw [if_pos hstring]
    have hfits := Nat.le_of_not_lt fun hover => htext ⟨hstring, hover⟩
    refine ⟨_, makeStrings_eq_ok.mpr ⟨hfits, rfl⟩, ?_, ?_⟩
    · show ((List.range rs.nElements).map buffer).length = rs.nElements
      rw [List.length_map, List.length_range]
    · rw [leaf_nested, List.map_map]
      rfl
  · rw [if_neg hstring, if_neg (by rw [hplain]; exact Bool.false_ne_true)]
    exact ⟨_, rfl, rfl, makePrimitiveArray_nested buffer rs.nElements⟩

-- ================================================================== pairs

/-- The leaf values of a complex result, two by two. -/
theorem wrap_pairs (hcomplex : rs.dtype.isComplex = true) (buffer : Nat → β) :
    wrap (List.replicate rs.nElements 2)
        (makePrimitiveArray arrowDtype (2 * rs.nElements)
          (leafValues rs buffer)).nested
      = (List.range rs.nElements).map (elementNest rs.dtype buffer) := by
  rw [leafValues, leafWidth, if_pos hcomplex, makePrimitiveArray_nested,
    wrap_replicate]
  refine List.map_congr_left fun q _ => ?_
  rw [elementNest, if_pos hcomplex]
  rfl

/-- Pairs of fixed size. -/
theorem makeElements_fixed [LeafValue β] (hcomplex : rs.dtype.isComplex = true)
    (buffer : Nat → β) :
    ∃ elements, makeElements rs arrowDtype .fixed (leafValues rs buffer)
        = .ok elements
      ∧ elements.length = rs.nElements
      ∧ elements.nested
        = (List.range rs.nElements).map (elementNest rs.dtype buffer) := by
  have hstring : rs.dtype ≠ .tpString := by
    intro h
    rw [h] at hcomplex
    cases hcomplex
  unfold makeElements
  rw [if_neg hstring, if_pos hcomplex, ← wrap_pairs hcomplex]
  exact fixedSizeListFromArrays_nested Nat.two_pos (Nat.mul_comm 2 _)

/-- The pair offsets are the running sums of twos. -/
theorem pairOffsets_eq (n : Nat) :
    ((List.range (n + 1)).map fun i => toInt32 (2 * (i : Nat)))
      = ((List.replicate n 2).scanl (· + ·) 0).map fun k : Nat => toInt32 k := by
  refine List.ext_getElem (by simp) fun i h₁ h₂ => ?_
  have hi : i ≤ n := by
    rw [List.length_map, List.length_range] at h₁
    omega
  rw [List.getElem_map, List.getElem_map, List.getElem_range,
    List.getElem_scanl, ← List.sum_eq_foldl, List.take_replicate,
    List.sum_replicate_nat, Nat.min_eq_left hi, Nat.mul_comm i 2]
  rfl

/-- An offset just beyond the range of an `int` is cut off at zero. -/
theorem toNat_toInt32_of_le {n : Nat} (h : 2 ^ 31 ≤ n) (hlt : n < 2 ^ 32) :
    (toInt32 n).toNat = 0 := by
  rw [toInt32, Int.bmod_def]
  split <;> omega

/-- Pairs between offsets are right unless an offset wraps. -/
theorem makeElements_list [LeafValue β] (hcomplex : rs.dtype.isComplex = true)
    (hsize : rs.nElements < 2 ^ 31) (buffer : Nat → β) :
    ∃ elements, makeElements rs arrowDtype .list (leafValues rs buffer)
        = .ok elements
      ∧ elements.nested.length = rs.nElements
      ∧ (elements.nested
          = (List.range rs.nElements).map (elementNest rs.dtype buffer)
        ↔ 2 * rs.nElements < 2 ^ 31) := by
  have hstring : rs.dtype ≠ .tpString := by
    intro h
    rw [h] at hcomplex
    cases hcomplex
  have hsum : (List.replicate rs.nElements 2).sum = 2 * rs.nElements := by
    rw [List.sum_replicate_nat, Nat.mul_comm]
  unfold makeElements
  rw [if_neg hstring, if_pos hcomplex]
  dsimp only
  by_cases hsmall : 2 * rs.nElements < 2 ^ 31
  · rw [pairOffsets_eq]
    obtain ⟨elements, helements, -, hnested⟩ := @listFromArrays_nested _
      (makePrimitiveArray arrowDtype (2 * rs.nElements) (leafValues rs buffer))
      _ (hsum ▸ hsmall)
    rw [wrap_pairs hcomplex] at hnested
    refine ⟨elements, helements, ?_, fun _ => hsmall, fun _ => hnested⟩
    rw [hnested, List.length_map, List.length_range]
  · -- the last pair ends below zero
    have hne : (List.range (rs.nElements + 1)).map
        (fun i => toInt32 (2 * (i : Nat))) ≠ [] := by
      rw [ne_eq, List.map_eq_nil_iff]
      exact List.ne_nil_of_length_pos (by rw [List.length_range]; omega)
    refine ⟨_, if_neg hne, ?_, fun heq => absurd heq ?_, fun h => absurd h hsmall⟩
    · simp [ArrayData.nested]
    · obtain ⟨q, hq⟩ : ∃ q, rs.nElements = q + 1 :=
        ⟨rs.nElements - 1, by omega⟩
      have hlast : (((List.range (rs.nElements + 1)).map
            fun i => toInt32 (2 * (i : Nat))).map Int.toNat).getD (q + 1) 0
          = 0 := by
        rw [List.map_map, List.getD_eq_getElem?_getD, List.getElem?_map,
          List.getElem?_range (by omega), Option.map_some, Option.getD_some]
        have hwrap := toNat_toInt32_of_le (Nat.le_of_not_lt hsmall) (by omega)
        rw [hq, Nat.cast_mul, Nat.cast_ofNat] at hwrap
        rw [Function.comp_apply, hwrap]
      intro heq
      have hget := congrArg (fun l => l[q]?) heq
      simp only [ArrayData.nested, List.getElem?_map, List.length_map,
        List.length_range, Nat.add_sub_cancel, List.getElem?_range
          (show q < rs.nElements by omega), Option.map_some, Option.some.injEq,
        ListArray.size, ListArray.start, Nat.add_zero, hlast, Nat.zero_sub,
        List.take_zero, elementNest, if_pos hcomplex] at hget
      cases hget

-- ================================================================= arrays

variable {shape : IPosition}

/-- Under the strategy of fixed sizes, the array is the elements in the
lists of the shape. -/
theorem fixedLevels_nested (h : rs.OneRank) (hs : rs.shape = some shape)
    (hpos : ∀ n ∈ shape, 0 < n) (hsize : rs.nElements < 2 ^ 31)
    {elements : ArrayData β} (hlen : elements.length = rs.nElements) :
    ∃ array, (shape.take (rs.rank - 1)).foldlM nestFixed elements = .ok array
      ∧ array.nested = rs.wrapLevels elements.nested (rs.rank - 1) := by
  have hshape := h.fixed shape hs
  have hdims : (shape.take (rs.rank - 1)).length = rs.rank - 1 := by
    rw [List.length_take]
    omega
  have hsmall : ∀ n ∈ shape, n < 2 ^ 31 := by
    intro n hn
    have hle : n ≤ shape.prod := List.single_le_prod (fun m hm => hpos m hm) n hn
    have hcount : rs.nElements = shape.prod := by
      simp only [ResultShapeData.nElements, hs, IPosition.product,
        if_neg (List.ne_nil_of_mem hn)]
    omega
  have key : ∀ d ≤ rs.rank - 1, ∃ array,
      ((shape.take (rs.rank - 1)).take d).foldlM nestFixed elements = .ok array
      ∧ array.length = rs.nRows * ((shape.take (rs.rank - 1)).drop d).prod
      ∧ array.nested = rs.wrapLevels elements.nested d := by
    intro d
    induction d with
    | zero =>
        intro _
        refine ⟨elements, rfl, ?_, rfl⟩
        rw [hlen, ← h.rowBase_nRows, ResultShapeData.rowBase_fixed hs,
          List.drop_zero]
    | succ d ih =>
        intro hd
        have hd' : d < (shape.take (rs.rank - 1)).length := by omega
        obtain ⟨array, harray, hlength, hnested⟩ := ih (by omega)
        have hmem : (shape.take (rs.rank - 1)).getD d 0 ∈ shape := by
          rw [List.getD_eq_getElem _ _ hd']
          exact List.mem_of_mem_take (List.getElem_mem hd')
        have hcount : array.length
            = rs.nRows * ((shape.take (rs.rank - 1)).drop (d + 1)).prod
              * (shape.take (rs.rank - 1)).getD d 0 := by
          rw [hlength, List.drop_eq_getElem_cons hd', List.prod_cons,
            List.getD_eq_getElem _ _ hd']
          ring
        obtain ⟨array', harray', hlength', hnested'⟩ :=
          fixedSizeListFromArrays_nested (hpos _ hmem) hcount
        refine ⟨array', ?_, hlength', ?_⟩
        · rw [List.take_succ_eq_append_getElem hd', List.foldlM_append, harray,
            Result.ok_bind, List.foldlM_cons, ← List.getD_eq_getElem _ 0 hd',
            nestFixed_of_lt (hsmall _ hmem), harray']
          rfl
        · rw [hnested', hnested, ResultShapeData.wrapLevels_succ,
            ResultShapeData.levelSizes_fixed hs]
  obtain ⟨array, harray, -, hnested⟩ := key _ (Nat.le_refl _)
  rw [List.take_of_length_le (Nat.le_of_eq hdims)] at harray
  exact ⟨array, harray, hnested⟩

/-- Under the strategy of lists, too. -/
theorem nestLists (h : rs.OneRank) (hs : rs.shape = some shape)
    (hpos : ∀ n ∈ shape, 0 < n) (hsize : rs.nElements < 2 ^ 31)
    (elements : ArrayData β) :
    ∃ array, (rs.getOffsets >>= fun offsets =>
          offsets.foldlM listFromArrays elements) = .ok array
      ∧ array.nested = rs.wrapLevels elements.nested (rs.rank - 1) := by
  have key : ∀ d ≤ rs.rank - 1, ∃ array,
      (List.range d).foldlM (fun array dim => listFromArrays array
          (((rs.levelSizes dim).scanl (· + ·) 0).map fun n : Nat => toInt32 n))
          elements = .ok array
      ∧ array.nested = rs.wrapLevels elements.nested d := by
    intro d
    induction d with
    | zero => exact fun _ => ⟨elements, rfl, rfl⟩
    | succ d ih =>
        intro hd
        obtain ⟨array, harray, hnested⟩ := ih (by omega)
        have hsum := h.levelSizes_sum_le hs hpos hd
        obtain ⟨array', harray', -, hnested'⟩ :=
          listFromArrays_nested (Nat.lt_of_le_of_lt hsum hsize)
        refine ⟨array', ?_, ?_⟩
        · rw [List.range_succ, List.foldlM_append, harray, Result.ok_bind,
            List.foldlM_cons, harray']
          rfl
        · rw [hnested', hnested, ResultShapeData.wrapLevels_succ]
  rw [ResultShapeData.getOffsets,
    ResultShapeData.getOffsetsBy_eq _ h.ndim_pos h.sized, Result.ok_bind,
    List.foldlM_map]
  exact key _ (Nat.le_refl _)

/-- The array of the strategy of fixed sizes is the rows. -/
theorem makeArray_fixed [LeafValue β] (h : rs.OneRank)
    (hs : rs.shape = some shape) (hpos : ∀ n ∈ shape, 0 < n)
    (hsize : rs.nElements < 2 ^ 31)
    (harrow : arrowDataType rs.dtype = .ok arrowDtype)
    {configured : Option String}
    (hstrat : getConvertStrategy configured = .ok .fixed)
    (buffer : Nat → β) (htext : ¬ TextTooLong rs (leafValues rs buffer)) :
    ∃ array, makeArray configured rs (leafValues rs buffer) = .ok array
      ∧ array.nested = (List.range rs.nRows).map
          (rs.rowNest (elementNest rs.dtype buffer)) := by
  obtain ⟨elements, helements, hlen, hnested⟩ :
      ∃ elements, makeElements rs arrowDtype .fixed (leafValues rs buffer)
          = .ok elements
        ∧ elements.length = rs.nElements
        ∧ elements.nested
          = (List.range rs.nElements).map (elementNest rs.dtype buffer) := by
    by_cases hcomplex : rs.dtype.isComplex = true
    · exact makeElements_fixed hcomplex buffer
    · exact makeElements_plain (by simpa using hcomplex) .fixed buffer htext
  obtain ⟨array, harray, hwrap⟩ := fixedLevels_nested h hs hpos hsize hlen
  have hcon : rs.consistentNDim = .ok rs.rank := by
    rw [ResultShapeData.consistentNDim,
      if_pos (Int.le_of_lt h.ndim_pos)]
    rfl
  refine ⟨array, ?_, ?_⟩
  · unfold makeArray
    simp only [harrow, hstrat, helements, Result.ok_bind, hs, hcon, harray]
  · rw [hwrap, hnested, h.wrapLevels_rank]

/-- The array of the strategy of lists is the rows unless pair offsets
wrap. -/
theorem makeArray_list [LeafValue β] (h : rs.OneRank)
    (hs : rs.shape = some shape) (hpos : ∀ n ∈ shape, 0 < n)
    (hsize : rs.nElements < 2 ^ 31)
    (harrow : arrowDataType rs.dtype = .ok arrowDtype)
    {configured : Option String}
    (hstrat : getConvertStrategy configured = .ok .list)
    (buffer : Nat → β) (htext : ¬ TextTooLong rs (leafValues rs buffer)) :
    ∃ array, makeArray configured rs (leafValues rs buffer) = .ok array
      ∧ (array.nested = (List.range rs.nRows).map
            (rs.rowNest (elementNest rs.dtype buffer))
        ↔ rs.dtype.isComplex = false ∨ 2 * rs.nElements < 2 ^ 31) := by
  obtain ⟨elements, helements, hcount, hiff⟩ :
      ∃ elements, makeElements rs arrowDtype .list (leafValues rs buffer)
          = .ok elements
        ∧ elements.nested.length = rs.nElements
        ∧ (elements.nested
            = (List.range rs.nElements).map (elementNest rs.dtype buffer)
          ↔ rs.dtype.isComplex = false ∨ 2 * rs.nElements < 2 ^ 31) := by
    by_cases hcomplex : rs.dtype.isComplex = true
    · obtain ⟨elements, helements, hcount, hiff⟩ :=
        makeElements_list hcomplex hsize buffer
      refine ⟨elements, helements, hcount, hiff.trans ?_⟩
      rw [hcomplex]
      simp
    · have hplain : rs.dtype.isComplex = false := by simpa using hcomplex
      obtain ⟨elements, helements, -, hnested⟩ :=
        makeElements_plain hplain .list buffer htext
      refine ⟨elements, helements, ?_, fun _ => .inl hplain, fun _ => hnested⟩
      rw [hnested, List.length_map, List.length_range]
  obtain ⟨array, harray, hwrap⟩ := nestLists h hs hpos hsize elements
  refine ⟨array, ?_, ?_⟩
  · unfold makeArray
    simp only [harrow, hstrat, helements, Result.ok_bind, hs]
    exact harray
  · rw [hwrap, ← h.wrapLevels_rank, ← hiff]
    constructor
    · intro heq
      exact h.nested_inj hcount (by simp) (Nat.le_refl _) heq
    · intro heq
      rw [heq]

/-- One row of 2^30 complex values. -/
def longComplexRow : ResultShapeData where
  columnName := "DATA"
  shape := some [1073741824, 1]
  ndim := 2
  dtype := .tpComplex
  rowShapes := none
  cellExtents := none

theorem longComplexRow_oneRank : longComplexRow.OneRank where
  ndim_pos := by decide
  fixed := by
    intro shape hof
    cases hof
    rfl
  varying := by
    intro hs
    cases hs

/-- Two rows of two by three complex values. -/
def smallComplexRows : ResultShapeData where
  columnName := "DATA"
  shape := some [2, 3, 2]
  ndim := 3
  dtype := .tpComplex
  rowShapes := none
  cellExtents := none

end Arcae
