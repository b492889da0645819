/-
The shape inferred from an array whose elements are listed.

An array spells out a list of nests, one for each element: the sizes of
its ranges level by level, outermost first (`Encodes`). Under a level
lie the ranges of all its elements, one after the other, so the array
below spells out each nest without its outermost size, as often as that
size says (`inner`).

Given sizes of at least one, inference is total: the walk down the
levels stays fixed exactly when all nests are equal, and a row's own
ranges give back its nest. With an empty range somewhere, neither is
true, since what lies below it is lost.
-/
import Arcae.Proofs.ArrowShape

namespace Arcae

open Loops

variable {β : Type} {data child : ArrayData β} {level : ListArray}
  {nests : List IPosition} {nest : IPosition}

-- ================================================================= nests

/-- What lies under the elements of a level, in order. -/
def inner (nests : List IPosition) : List IPosition :=
  nests.flatMap fun nest => List.replicate (nest.headD 0) nest.tail

@[simp] theorem inner_append (nests nests' : List IPosition) :
    inner (nests ++ nests') = inner nests ++ inner nests' :=
  List.flatMap_append

@[simp] theorem inner_replicate (count n : Nat) (rest : IPosition) :
    inner (List.replicate count (n :: rest))
      = List.replicate (count * n) rest := by
  induction count with
  | zero => simp [inner]
  | succ count ih =>
      rw [List.replicate_succ, ← List.singleton_append, inner_append, ih, inner,
        List.flatMap_singleton, Nat.succ_mul, Nat.add_comm, List.replicate_add]
      rfl

theorem inner_length (nests : List IPosition) :
    (inner nests).length = (nests.map fun nest => nest.headD 0).sum := by
  rw [inner, List.length_flatMap]
  simp

theorem mem_inner {rest : IPosition} :
    rest ∈ inner nests ↔ ∃ nest ∈ nests, 0 < nest.headD 0 ∧ nest.tail = rest := by
  simp only [inner, List.mem_flatMap, List.mem_replicate, Nat.pos_iff_ne_zero,
    ne_eq, eq_comm]

/-- All sizes of a list of nests are at least one. -/
def Positive (nests : List IPosition) : Prop :=
  ∀ nest ∈ nests, ∀ n ∈ nest, 0 < n

theorem Positive.inner (h : Positive nests) : Positive (inner nests) := by
  intro rest hrest n hn
  obtain ⟨nest, hmem, -, rfl⟩ := mem_inner.mp hrest
  exact h nest hmem n (List.mem_of_mem_tail hn)

-- ============================================================== encoding

namespace ArrayData

/-- The elements of an array, in order, are these nests; no level has a
null. -/
def Encodes : ArrayData β → List IPosition → Prop
  | .leaf slots, nests => nests = List.replicate slots.length []
  | .list level child, nests =>
      level.nullCount = 0 ∧ level.length = nests.length ∧ [] ∉ nests
        ∧ (∀ i ≤ nests.length,
            level.valueOffset i = .ok (inner (nests.take i)).length)
        ∧ child.Encodes (inner nests)

theorem Encodes.length_eq (h : data.Encodes nests) :
    data.length = nests.length := by
  cases data with
  | leaf slots => rw [h, List.length_replicate, length]
  | list level child => exact h.2.1

theorem Encodes.listsNullFree (h : data.Encodes nests) : data.ListsNullFree := by
  induction data generalizing nests with
  | leaf slots => trivial
  | list level child ih => exact ⟨h.1, ih h.2.2.2.2⟩

/-- Nests without empty ranges are as deep as the array. -/
theorem Encodes.depth_eq (h : data.Encodes nests) (hpos : Positive nests)
    (hmem : nest ∈ nests) : nest.length = data.depth := by
  induction data generalizing nests nest with
  | leaf slots =>
      rw [h] at hmem
      rw [(List.mem_replicate.mp hmem).2]
      rfl
  | list level child ih =>
      cases nest with
      | nil => exact absurd hmem h.2.2.1
      | cons n rest =>
          have hn := hpos _ hmem n List.mem_cons_self
          have hrest := ih h.2.2.2.2 hpos.inner
            (mem_inner.mpr ⟨_, hmem, hn, rfl⟩)
          rw [List.length_cons, List.tail_cons] at *
          rw [hrest, depth]

end ArrayData

/-- The size of a range is between its two offsets. -/
theorem ListArray.valueLength_of_offsets {i start stop : Nat}
    (hstart : level.valueOffset i = .ok start)
    (hstop : level.valueOffset (i + 1) = .ok stop) :
    level.valueLength i = .ok (stop - start) := by
  unfold valueOffset at hstart hstop
  unfold valueLength
  cases hlayout : level.layout with
  | list offsets | largeList offsets =>
      simp only [hlayout] at hstart hstop ⊢
      rw [Nat.add_right_comm] at hstop
      rw [hstart, hstop]
      rfl
  | fixedSizeList size =>
      simp only [hlayout] at hstart hstop ⊢
      cases hstart
      cases hstop
      congr 1
      rw [Nat.add_right_comm, Nat.succ_mul, Nat.add_sub_cancel_left]

/-- A range is as long as the nest of its element says. -/
theorem ArrayData.Encodes.valueLength
    (h : (ArrayData.list level child).Encodes nests) {i : Nat}
    (hi : i < nests.length) :
    level.valueLength i = .ok (nests[i].headD 0) := by
  have hoffsets := h.2.2.2.1
  have hlen := ListArray.valueLength_of_offsets (hoffsets i (by omega))
    (hoffsets (i + 1) hi)
  rw [hlen, List.take_succ_eq_append_getElem hi, inner_append,
    List.length_append, Nat.add_sub_cancel_left, inner_length]
  simp

-- ============================================================== decoding

/-- The shape of a run of equal elements is their nest. -/
theorem rowShapeFrom_encodes (h : data.Encodes nests) (hpos : Positive nests)
    (hknown : data.leafArray.type.known = true) (r : Nat)
    {before after : List IPosition} {count : Nat} (hcount : 0 < count)
    (hnests : nests = before ++ List.replicate count nest ++ after) :
    rowShapeFrom r data before.length (before.length + count) = .ok nest := by
  induction data generalizing nests nest before after count with
  | leaf slots =>
      have hmem : nest ∈ nests := by
        rw [hnests]
        simp [hcount.ne']
      rw [h] at hmem
      have hknown : slots.type.known = true := hknown
      rw [(List.mem_replicate.mp hmem).2, rowShapeFrom, if_pos hknown]
  | list level child ih =>
      obtain ⟨hnull, hlen, hnil, hoffsets, hchild⟩ := id h
      have hmem : nest ∈ nests := by
        rw [hnests]
        simp [hcount.ne']
      have htotal : before.length + count ≤ nests.length := by
        rw [hnests, List.length_append, List.length_append,
          List.length_replicate]
        omega
      have hget : ∀ i, before.length ≤ i → i < before.length + count →
          level.valueLength i = .ok (nest.headD 0) := by
        intro i hi hi'
        have hlt : i < nests.length := by omega
        have hnest : nests[i] = nest := by
          simp only [hnests]
          rw [List.getElem_append_left (by simp; omega),
            List.getElem_append_right hi, List.getElem_replicate]
        rw [h.valueLength (by omega), hnest]
      -- the ranges of the run
      cases nest with
      | nil => exact absurd hmem hnil
      | cons n rest =>
          have hn := hpos _ hmem n List.mem_cons_self
          have hstart : level.valueOffset before.length
              = .ok (inner before).length := by
            rw [hoffsets _ (by omega), hnests, List.append_assoc, List.take_left]
          have hstop : level.valueOffset (before.length + count)
              = .ok ((inner before).length + count * n) := by
            rw [hoffsets _ htotal, hnests, List.take_left' (by simp),
              inner_append, inner_replicate, List.length_append,
              List.length_replicate]
          have hinner : inner nests = inner before
              ++ List.replicate (count * n) rest ++ inner after := by
            rw [hnests, inner_append, inner_append, inner_replicate]
          have hrest := ih hchild hpos.inner hknown (Nat.mul_pos hcount hn)
            hinner
          rw [rowShapeFrom, if_neg (by omega),
            hget _ (Nat.le_refl _) (by omega)]
          simp only [Result.ok_bind, hstart, hstop, hrest, List.headD_cons]
          split
          · have hsame : (List.range' (before.length + 1)
                (before.length + count - (before.length + 1))).forM (fun i => do
                  let size ← level.valueLength i
                  if n ≠ size then
                    .error (.invalid
                      ("Offsets in row " ++ toString r ++ " don't match"))
                  else .ok ()) = (.ok () : Result Unit) := by
              refine forM_eq_ok.mpr fun i hi => ?_
              rw [List.mem_range'_1] at hi
              rw [hget i (by omega) (by omega), Result.ok_bind, List.headD_cons,
                if_neg (by simp)]
            rw [hsame]
            rfl
          · rfl

/-- Each row gives back its nest. -/
theorem getRowShapes_encodes (h : data.Encodes nests) (hpos : Positive nests)
    (hknown : data.leafArray.type.known = true) :
    getRowShapes data = .ok nests := by
  unfold getRowShapes
  rw [mapM_eq_ok, h.length_eq]
  refine List.forall₂_iff_get.mpr ⟨List.length_range, fun i hi _ => ?_⟩
  have hi : i < nests.length := by simpa using hi
  have hsplit : nests = nests.take i ++ List.replicate 1 nests[i]
      ++ nests.drop (i + 1) := by
    rw [List.replicate_one, List.append_assoc, List.singleton_append,
      List.cons_getElem_drop_succ, List.take_append_drop]
  have hrow := rowShapeFrom_encodes h hpos hknown i Nat.one_pos hsplit
  rw [List.length_take_of_le (Nat.le_of_lt hi)] at hrow
  simp only [List.get_eq_getElem, List.getElem_range]
  exact hrow

/-- Once the shape varies, the walk only counts levels. -/
theorem walkShape_varying (hnull : data.ListsNullFree)
    (hknown : data.leafArray.type.known = true) (shape : IPosition)
    (ndim : Nat) :
    walkShape data ⟨false, shape, ndim⟩
      = .ok ⟨false, shape, ndim + data.depth⟩ := by
  induction data generalizing ndim with
  | leaf slots =>
      have hknown : slots.type.known = true := hknown
      rw [walkShape, if_pos hknown]
      rfl
  | list level child ih =>
      have hstep : maybeUpdateShapeAndNdim level ⟨false, shape, ndim⟩
          = .ok ⟨false, shape, ndim + 1⟩ := by
        have hzero := hnull.1
        rw [maybeUpdateShapeAndNdim, if_neg (by omega)]
        rfl
      rw [walkShape, hstep, Result.ok_bind, ih hnull.2 hknown, ArrayData.depth,
        Nat.add_assoc, Nat.add_comm 1]

/-- What the walk finds: the common nest of all elements, or that there
are two different ones. -/
theorem walkShape_encodes (h : data.Encodes nests) (hpos : Positive nests)
    (hne : nests ≠ []) (hknown : data.leafArray.type.known = true)
    (shape : IPosition) (ndim : Nat) :
    ∃ walk, walkShape data ⟨true, shape, ndim⟩ = .ok walk
      ∧ walk.ndim = ndim + data.depth
      ∧ ((walk.fixedShape = true ∧ ∃ nest, (∀ other ∈ nests, other = nest)
            ∧ walk.shape = shape ++ nest)
        ∨ (walk.fixedShape = false
            ∧ ∃ nest ∈ nests, ∃ other ∈ nests, nest ≠ other)) := by
  induction data generalizing nests shape ndim with
  | leaf slots =>
      have hknown : slots.type.known = true := hknown
      refine ⟨⟨true, shape, ndim⟩, by rw [walkShape, if_pos hknown], rfl,
        .inl ⟨rfl, [], fun other hmem => ?_, by simp⟩⟩
      rw [h] at hmem
      exact (List.mem_replicate.mp hmem).2
  | list level child ih =>
      obtain ⟨hnull, hlen, hnil, hoffsets, hchild⟩ := id h
      have hlength := List.length_pos_of_ne_nil hne
      have hfirst := h.valueLength hlength
      have hall : (List.range level.length).mapM level.valueLength
          = .ok (nests.map fun nest => nest.headD 0) := by
        rw [mapM_eq_ok, hlen]
        refine List.forall₂_iff_get.mpr ⟨by simp, fun i hi _ => ?_⟩
        have hi : i < nests.length := by simpa using hi
        simp only [List.get_eq_getElem, List.getElem_range, List.getElem_map]
        exact h.valueLength hi
      -- without an offset buffer all ranges have one size anyway
      obtain ⟨sizes, hsizes, hany⟩ : ∃ sizes, comparedLengths level = .ok sizes
          ∧ ((sizes.any fun size => (nests[0].headD 0 != size)) = false
            ↔ ∀ nest ∈ nests, nest.headD 0 = nests[0].headD 0) := by
        unfold comparedLengths
        split
        · rename_i hfs
          refine ⟨[], rfl, ⟨fun _ nest hmem => ?_, fun _ => rfl⟩⟩
          obtain ⟨i, hi, rfl⟩ := List.mem_iff_getElem.mp hmem
          rw [ListArray.valueLength_ok (h.valueLength hi),
            ListArray.valueLength_ok hfirst]
          exact ListArray.size_of_isFixedSize hfs i 0
        · refine ⟨_, hall, ?_⟩
          rw [List.any_eq_false, List.forall_mem_map]
          refine forall₂_congr fun nest _ => ?_
          rw [bne_iff_ne, not_not, eq_comm]
      have hstep : maybeUpdateShapeAndNdim level ⟨true, shape, ndim⟩
          = .ok (if sizes.any fun size => nests[0].headD 0 != size
              then ⟨false, shape, ndim + 1⟩
              else ⟨true, shape ++ [nests[0].headD 0], ndim + 1⟩) := by
        rw [maybeUpdateShapeAndNdim, if_neg (by omega)]
        simp only [Bool.not_true, Bool.false_eq_true, if_false, hfirst, hsizes,
          Result.ok_bind]
        split <;> rfl
      rw [walkShape, hstep, Result.ok_bind]
      have hdepth : ndim + 1 + child.depth
          = ndim + (ArrayData.list level child).depth := by
        rw [ArrayData.depth]
        omega
      by_cases hsame : ∀ nest ∈ nests, nest.headD 0 = nests[0].headD 0
      · rw [if_neg (by rw [hany.mpr hsame]; simp)]
        have hcons : ∀ nest ∈ nests,
            nest = nests[0].headD 0 :: nest.tail := by
          intro nest hmem
          cases nest with
          | nil => exact absurd hmem hnil
          | cons n rest => rw [← hsame _ hmem]; rfl
        have hunder : ∀ nest ∈ nests, nest.tail ∈ inner nests := by
          intro nest hmem
          refine mem_inner.mpr ⟨nest, hmem, ?_, rfl⟩
          have hhead := hcons nest hmem
          exact hpos nest hmem _ (by rw [hhead]; exact List.mem_cons_self)
        have hne' : inner nests ≠ [] :=
          List.ne_nil_of_mem (hunder _ (List.getElem_mem hlength))
        obtain ⟨walk, hwalk, hndim, hcases⟩ := ih hchild hpos.inner hne' hknown
          (shape ++ [nests[0].headD 0]) (ndim + 1)
        refine ⟨walk, hwalk, by rw [hndim, hdepth], ?_⟩
        rcases hcases with ⟨hfixed, rest, hrest, hshape⟩
          | ⟨hvar, rest, hrest, other, hother, hdiff⟩
        · refine .inl ⟨hfixed, nests[0].headD 0 :: rest, fun nest hmem => ?_, ?_⟩
          · rw [hcons nest hmem, hrest _ (hunder nest hmem)]
          · rw [hshape, List.append_assoc]
            rfl
        · obtain ⟨nest, hmem, -, rfl⟩ := mem_inner.mp hrest
          obtain ⟨nest', hmem', -, rfl⟩ := mem_inner.mp hother
          exact .inr ⟨hvar, nest, hmem, nest', hmem',
            fun heq => hdiff (heq ▸ rfl)⟩
      · have hdiff : (sizes.any fun size => nests[0].headD 0 != size) = true := by
          rw [← Bool.not_eq_false]
          exact fun hf => hsame (hany.mp hf)
        rw [if_pos hdiff,
          walkShape_varying hchild.listsNullFree hknown shape (ndim + 1)]
        refine ⟨_, rfl, hdepth, .inr ⟨rfl, ?_⟩⟩
        push Not at hsame
        obtain ⟨nest, hmem, hhead⟩ := hsame
        exact ⟨nest, hmem, nests[0], List.getElem_mem hlength,
          fun heq => hhead (heq ▸ rfl)⟩

-- ========================================================== result shapes

variable {columnDesc : ColumnDesc} {rows : List IPosition}

theorem nestSizes_injective (dtype : DataType) :
    Function.Injective (nestSizes dtype) := by
  intro dims dims' h
  exact List.reverse_injective (List.append_cancel_right h)

theorem Positive.nestSizes (h : Positive rows) (dtype : DataType) :
    Positive (rows.map (nestSizes dtype)) := by
  intro nest hmem n hn
  obtain ⟨dims, hdims, rfl⟩ := List.mem_map.mp hmem
  rw [Arcae.nestSizes, List.mem_append, List.mem_reverse] at hn
  rcases hn with hn | hn
  · exact h dims hdims n hn
  · split at hn
    · rw [List.mem_singleton.mp hn]
      exact Nat.two_pos
    · cases hn

/-- The shape given back, pairs included. -/
theorem getArrowResultShapeData_encodes (h : data.Encodes nests)
    (hpos : Positive nests) (hne : nests ≠ [])
    (hknown : data.leafArray.type.known = true) :
    (∀ nest, (∀ other ∈ nests, other = nest) →
      getArrowResultShapeData columnDesc data = .ok
        { columnName := columnDesc.name
          shape := some (nest.reverse ++ [nests.length])
          ndim := data.depth + 1
          dtype := columnDesc.dataType
          rowShapes := none
          cellExtents := none })
    ∧ (∀ nest ∈ nests, ∀ other ∈ nests, nest ≠ other →
      getArrowResultShapeData columnDesc data = .ok
        { columnName := columnDesc.name
          shape := none
          ndim := data.depth + 1
          dtype := columnDesc.dataType
          rowShapes := some (nests.map List.reverse)
          cellExtents := none }) := by
  obtain ⟨walk, hwalk, hndim, hcases⟩ :=
    walkShape_encodes h hpos hne hknown [data.length] 1
  have hrank : (walk.ndim : Int) = data.depth + 1 := by omega
  refine ⟨fun nest hsame => ?_, fun nest hmem other hmem' hdiff => ?_⟩
  · rcases hcases with ⟨hfixed, nest', hsame', hshape⟩
      | ⟨-, a, ha, b, hb, hab⟩
    · obtain ⟨other, hother⟩ := List.exists_mem_of_ne_nil _ hne
      have heq : nest' = nest := by rw [← hsame' _ hother, hsame _ hother]
      unfold getArrowResultShapeData
      rw [hwalk, Result.ok_bind, if_pos hfixed, hshape, heq, hrank, h.length_eq,
        List.singleton_append, List.reverse_cons]
      rfl
    · exact absurd ((hsame a ha).trans (hsame b hb).symm) hab
  · rcases hcases with ⟨-, nest', hsame', -⟩ | ⟨hvar, -⟩
    · exact absurd ((hsame' nest hmem).trans (hsame' other hmem').symm) hdiff
    · unfold getArrowResultShapeData
      rw [hwalk, Result.ok_bind, if_neg (by simp [hvar]),
        getRowShapes_encodes h hpos hknown, hrank]
      rfl

/-- A fixed shape of nests is that of the rows, without the pairs. -/
theorem getResultShapeData_of_fixed {dims : IPosition} {nrow : Nat}
    (harrow : getArrowResultShapeData columnDesc data = .ok
      { columnName := columnDesc.name
        shape := some ((nestSizes columnDesc.dataType dims).reverse ++ [nrow])
        ndim := (nestSizes columnDesc.dataType dims).length + 1
        dtype := columnDesc.dataType
        rowShapes := none
        cellExtents := none }) :
    getResultShapeData columnDesc data = .ok
      { columnName := columnDesc.name
        shape := some (dims ++ [nrow])
        ndim := dims.length + 1
        dtype := columnDesc.dataType
        rowShapes := none
        cellExtents := none } := by
  rw [nestSizes_reverse] at harrow
  unfold getResultShapeData
  rw [harrow, Result.ok_bind]
  cases hcomplex : columnDesc.dataType.isComplex with
  | false => simp [nestSizes, hcomplex]
  | true => simp [dropPair]

/-- So are the shapes of nests of one depth. -/
theorem getResultShapeData_of_varying {n depth : Nat}
    (hdepth : depth = n + if columnDesc.dataType.isComplex then 1 else 0)
    (harrow : getArrowResultShapeData columnDesc data = .ok
      { columnName := columnDesc.name
        shape := none
        ndim := depth + 1
        dtype := columnDesc.dataType
        rowShapes := some ((rows.map
          (nestSizes columnDesc.dataType)).map List.reverse)
        cellExtents := none }) :
    getResultShapeData columnDesc data = .ok
      { columnName := columnDesc.name
        shape := none
        ndim := n + 1
        dtype := columnDesc.dataType
        rowShapes := some rows
        cellExtents := none } := by
  rw [List.map_map] at harrow
  unfold getResultShapeData
  rw [harrow, Result.ok_bind]
  cases hcomplex : columnDesc.dataType.isComplex with
  | false =>
      have hrows : rows.map (List.reverse ∘ nestSizes columnDesc.dataType)
          = rows := by
        refine List.map_id'' (fun dims => ?_) rows
        rw [Function.comp, nestSizes_reverse, hcomplex]
        rfl
      rw [hcomplex] at hdepth
      simp [hrows, hdepth]
  | true =>
      have hpairs : (rows.map
          (List.reverse ∘ nestSizes columnDesc.dataType)).mapM
            (dropPair columnDesc.name) = .ok rows := by
        rw [mapM_eq_ok, List.forall₂_map_left_iff, List.forall₂_same]
        intro dims _
        rw [Function.comp, nestSizes_reverse, hcomplex]
        rfl
      have hdepth : depth = n + 1 := by rw [hdepth, hcomplex]; rfl
      have hlevels : ((depth : Int) + 1).toNat = n + 2 := by omega
      have hnonneg : 0 ≤ (depth : Int) + 1 := by omega
      have hless : ((n + 2 : Nat) : Int) - 1 = n + 1 := by omega
      simp only [Bool.not_true, Bool.false_eq_true, if_false,
        ResultShapeData.getRowShapes, Option.getD_some, hpairs, Result.ok_bind,
        ResultShapeData.consistentNDim, if_pos hnonneg, hlevels, hless]
      rfl

theorem nestSizes_length (dtype : DataType) (dims : IPosition) :
    (nestSizes dtype dims).length
      = dims.length + if dtype.isComplex then 1 else 0 := by
  rw [nestSizes, List.length_append, List.length_reverse]
  split <;> rfl

/-- The shape given back: the common shape of the rows, or the shape of
each. -/
theorem getResultShapeData_encodes {n : Nat}
    (h : data.Encodes (rows.map (nestSizes columnDesc.dataType)))
    (hpos : Positive rows) (hne : rows ≠ [])
    (hknown : data.leafArray.type.known = true)
    (hrank : ∀ dims ∈ rows, dims.length = n) :
    (∀ dims, (∀ other ∈ rows, other = dims) →
      getResultShapeData columnDesc data = .ok
        { columnName := columnDesc.name
          shape := some (dims ++ [rows.length])
          ndim := n + 1
          dtype := columnDesc.dataType
          rowShapes := none
          cellExtents := none })
    ∧ (∀ dims ∈ rows, ∀ other ∈ rows, dims ≠ other →
      getResultShapeData columnDesc data = .ok
        { columnName := columnDesc.name
          shape := none
          ndim := n + 1
          dtype := columnDesc.dataType
          rowShapes := some rows
          cellExtents := none }) := by
  obtain ⟨hfixed, hvarying⟩ := @getArrowResultShapeData_encodes _ _ _ columnDesc
    h (hpos.nestSizes _) (by simpa using hne) hknown
  -- the array is one deeper for pairs
  obtain ⟨row, hrow⟩ := List.exists_mem_of_ne_nil _ hne
  have hdepth := h.depth_eq (hpos.nestSizes _) (List.mem_map_of_mem hrow)
  have hlen := hrank row hrow
  refine ⟨fun dims hsame => ?_, fun dims hdims other hother hdiff => ?_⟩
  · have harrow := hfixed (nestSizes columnDesc.dataType dims) (by
      intro other hmem
      obtain ⟨dims', hmem', rfl⟩ := List.mem_map.mp hmem
      rw [hsame dims' hmem'])
    rw [hsame row hrow] at hdepth hlen
    rw [List.length_map, ← hdepth] at harrow
    rw [getResultShapeData_of_fixed harrow, hlen]
  · rw [nestSizes_length, hlen] at hdepth
    exact getResultShapeData_of_varying hdepth.symm
      (hvarying _ (List.mem_map_of_mem hdims) _ (List.mem_map_of_mem hother)
        ((nestSizes_injective _).ne hdiff))

end Arcae
