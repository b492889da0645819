/-
The shape inferred from an array, in full.

Where no level has a null or an empty list, the walk down the levels
stays fixed exactly when all lists of each level have one length
(`walkShape_iff`), and the descent of a row succeeds exactly when the
row is rectangular (`rowShapeFrom_iff`). Inference then fails on rows
that are not, and for a complex column on innermost lists that are not
pairs, and on nothing else.
-/
import Arcae.Proofs.Nest
import Mathlib.Data.Set.List

namespace Arcae

open Loops

variable {β : Type} {data child : ArrayData β} {level : ListArray}

-- =============================================================== accesses

namespace ListArray

/-- The offsets of a well-formed level are there. -/
theorem offsetAt_of_le {offsets : List Nat} {i : Nat}
    (hi : i < offsets.length) : offsetAt offsets i = .ok (offsets.getD i 0) := by
  rw [offsetAt, List.getElem?_eq_getElem hi, List.getD_eq_getElem _ _ hi]

theorem valueOffset_of_le (h : (ArrayData.list level child).WellFormed)
    {i : Nat} (hi : i ≤ level.length) :
    level.valueOffset i = .ok (level.start i) := by
  unfold valueOffset start
  cases hlayout : level.layout with
  | list offsets | largeList offsets =>
      simp only [ArrayData.WellFormed, hlayout] at h
      exact offsetAt_of_le (by omega)
  | fixedSizeList size => rfl

theorem valueLength_of_lt (h : (ArrayData.list level child).WellFormed)
    {i : Nat} (hi : i < level.length) :
    level.valueLength i = .ok (level.size i) :=
  valueLength_of_offsets (valueOffset_of_le h (Nat.le_of_lt hi))
    (valueOffset_of_le h hi)

end ListArray

-- =============================================================== the walk

/-- The lengths that are compared differ exactly if two lists do. -/
theorem comparedLengths_any (h : (ArrayData.list level child).WellFormed) :
    ∃ sizes, comparedLengths level = .ok sizes
      ∧ ((sizes.any fun size => level.size 0 != size) = false
        ↔ ∀ i < level.length, level.size i = level.size 0) := by
  unfold comparedLengths
  by_cases hfs : level.isFixedSize = true
  · rw [if_pos hfs]
    refine ⟨[], rfl, ⟨fun _ i _ => ListArray.size_of_isFixedSize hfs i 0, ?_⟩⟩
    exact fun _ => rfl
  · rw [if_neg hfs]
    refine ⟨_, mapM_ok_of_forall fun i hi =>
      ListArray.valueLength_of_lt h (List.mem_range.mp hi), ?_⟩
    rw [List.any_eq_false, List.forall_mem_map]
    simp only [List.mem_range, bne_iff_ne, ne_eq, not_not]
    exact forall₂_congr fun i _ => eq_comm

/-- The walk stays fixed exactly when all lists of each level have one
length, and then collects these lengths. -/
theorem walkShape_iff (h : data.WellFormed) (hnull : data.ListsNullFree)
    (hknown : data.leafArray.type.known = true) (hne : data.NoEmptyList)
    (hpos : 0 < data.length) (shape : IPosition) (ndim : Nat) :
    ∃ walk, walkShape data ⟨true, shape, ndim⟩ = .ok walk
      ∧ walk.ndim = ndim + data.depth
      ∧ ∀ lengths, data.CommonLengths lengths
        ↔ walk.fixedShape = true ∧ walk.shape = shape ++ lengths := by
  induction data generalizing shape ndim with
  | leaf slots =>
      have hknown : slots.type.known = true := hknown
      refine ⟨⟨true, shape, ndim⟩, by rw [walkShape, if_pos hknown], rfl,
        fun lengths => ?_⟩
      show lengths = [] ↔ true = true ∧ shape = shape ++ lengths
      simp
  | list level child ih =>
      have hlength : 0 < level.length := hpos
      obtain ⟨sizes, hsizes, hany⟩ := comparedLengths_any h
      have hzero := hnull.1
      have hstep : maybeUpdateShapeAndNdim level ⟨true, shape, ndim⟩
          = .ok (if sizes.any fun size => level.size 0 != size
              then ⟨false, shape, ndim + 1⟩
              else ⟨true, shape ++ [level.size 0], ndim + 1⟩) := by
        rw [maybeUpdateShapeAndNdim, if_neg (by omega)]
        simp only [Bool.not_true, Bool.false_eq_true, if_false, hsizes,
          ListArray.valueLength_of_lt h hlength, Result.ok_bind]
        split <;> rfl
      have hdepth : ndim + 1 + child.depth
          = ndim + (ArrayData.list level child).depth := by
        rw [ArrayData.depth]
        omega
      rw [walkShape, hstep, Result.ok_bind]
      by_cases hsame : ∀ i < level.length, level.size i = level.size 0
      · rw [if_neg (by rw [hany.mpr hsame]; simp)]
        -- the first list has an element, so there is a level below
        have hchild : 0 < child.length := by
          have hfirst := hne.1 0 hlength
          have hstart := ListArray.start_add_size h hlength
          have hle := ListArray.start_le h (i := 0 + 1) hlength
          omega
        obtain ⟨walk, hwalk, hndim, hiff⟩ := ih h.2 hnull.2 hknown hne.2 hchild
          (shape ++ [level.size 0]) (ndim + 1)
        refine ⟨walk, hwalk, by rw [hndim, hdepth], fun lengths => ?_⟩
        constructor
        · intro hx
          obtain ⟨n, rest, rfl, hall, hrest⟩ := hx
          obtain ⟨hfixed, hshape⟩ := (hiff rest).mp hrest
          refine ⟨hfixed, ?_⟩
          rw [hshape, ← hall 0 hlength, List.append_assoc]
          rfl
        · intro hx
          obtain ⟨hfixed, hshape⟩ := hx
          have hprefix := walkShape_ok h.2 hwalk
          obtain ⟨-, rest, hrest, -⟩ := hprefix.2.2.2 hfixed
          rw [hrest, List.append_assoc] at hshape
          obtain rfl := List.append_cancel_left hshape
          exact ⟨level.size 0, rest, rfl, hsame,
            (hiff rest).mpr ⟨hfixed, hrest⟩⟩
      · have hdiff : (sizes.any fun size => level.size 0 != size) = true := by
          rw [← Bool.not_eq_false]
          exact fun hf => hsame (hany.mp hf)
        rw [if_pos hdiff, walkShape_varying hnull.2 hknown shape (ndim + 1)]
        refine ⟨_, rfl, hdepth, fun lengths => ⟨?_, fun hf => by cases hf.1⟩⟩
        intro hx
        obtain ⟨n, rest, rfl, hall, -⟩ := hx
        exact absurd (fun i hi => (hall i hi).trans (hall 0 hlength).symm) hsame

-- =============================================================== the rows

/-- A range of elements has the shape that is found exactly if all of
them are nests of it. -/
theorem rowShapeFrom_iff (h : data.WellFormed) (hnull : data.ListsNullFree)
    (hknown : data.leafArray.type.known = true) (hne : data.NoEmptyList)
    {r start stop : Nat} (hlt : start < stop) (hstop : stop ≤ data.length)
    {sizes : IPosition} :
    rowShapeFrom r data start stop = .ok sizes
      ↔ data.Uniform start stop sizes := by
  refine ⟨rowShapeFrom_ok h (Nat.le_of_lt hlt) hstop, fun hu => ?_⟩
  induction data generalizing start stop sizes with
  | leaf slots =>
      have hknown : slots.type.known = true := hknown
      rw [rowShapeFrom, if_pos hknown, show sizes = [] from hu]
  | list level child ih =>
      obtain ⟨n, rest, rfl, hall, hrest⟩ := hu
      have hstop : stop ≤ level.length := hstop
      have hzero := hnull.1
      have hfirst := hall start (Nat.le_refl _) hlt
      -- the range of the first list is not empty, nor is that of all
      have hbelow : level.start start < level.start stop := by
        have hsize := hne.1 start (by omega)
        have hadd := ListArray.start_add_size h (i := start) (by omega)
        have hmono := ListArray.start_mono h (i := start + 1) hlt hstop
        omega
      have hrow := ih h.2 hnull.2 hknown hne.2 hbelow
        (ListArray.start_le h hstop) hrest
      have hsame : (List.range' (start + 1) (stop - (start + 1))).forM
          (fun i => do
            let size ← level.valueLength i
            if n ≠ size then
              .error (.invalid
                ("Offsets in row " ++ toString r ++ " don't match"))
            else .ok ()) = (.ok () : Result Unit) := by
        refine forM_eq_ok.mpr fun i hi => ?_
        rw [List.mem_range'_1] at hi
        rw [ListArray.valueLength_of_lt h (by omega), Result.ok_bind,
          hall i (by omega) (by omega), if_neg (by simp)]
      rw [rowShapeFrom, if_neg (by omega),
        ListArray.valueLength_of_lt h (by omega), hfirst]
      simp only [Result.ok_bind, hrow,
        ListArray.valueOffset_of_le h (i := start) (by omega),
        ListArray.valueOffset_of_le h hstop]
      by_cases hfs : (!level.isFixedSize) = true
      · rw [if_pos hfs, hsame]
        rfl
      · rw [if_neg hfs]
        rfl

/-- The shapes of the rows are found exactly if all are rectangular. -/
theorem getRowShapes_iff (h : data.WellFormed) (hnull : data.ListsNullFree)
    (hknown : data.leafArray.type.known = true) (hne : data.NoEmptyList)
    {nests : List IPosition} :
    getRowShapes data = .ok nests
      ↔ List.Forall₂ (fun r sizes => data.Uniform r (r + 1) sizes)
          (List.range data.length) nests := by
  unfold getRowShapes
  rw [mapM_eq_ok, List.forall₂_iff_get, List.forall₂_iff_get]
  refine and_congr_right fun hlen => ?_
  refine forall_congr' fun i => forall_congr' fun hi => forall_congr' fun hi' => ?_
  simp only [List.get_eq_getElem, List.getElem_range]
  rw [List.length_range] at hi
  exact rowShapeFrom_iff h hnull hknown hne (Nat.lt_succ_self i) hi

-- ======================================================== innermost lists

namespace ArrayData

/-- Lists of one length for each level make all elements nests of those
lengths. -/
theorem CommonLengths.uniform {lengths : List Nat} (h : data.WellFormed)
    (hc : data.CommonLengths lengths) {start stop : Nat}
    (hstop : stop ≤ data.length) : data.Uniform start stop lengths := by
  induction data generalizing start stop lengths with
  | leaf slots => exact hc
  | list level child ih =>
      obtain ⟨n, rest, rfl, hall, hrest⟩ := hc
      have hstop : stop ≤ level.length := hstop
      exact ⟨n, rest, rfl, fun i _ hi => hall i (by omega),
        ih h.2 hrest (ListArray.start_le h hstop)⟩

/-- The innermost lists of a range are those of its parts. -/
theorem innermostLengths_append (h : data.WellFormed) {a b c : Nat}
    (hab : a ≤ b) (hbc : b ≤ c) (hc : c ≤ data.length) :
    data.innermostLengths a c
      = data.innermostLengths a b ++ data.innermostLengths b c := by
  induction data generalizing a b c with
  | leaf slots => rfl
  | list level child ih =>
      have hb := ListArray.start_mono h hab (Nat.le_trans hbc hc)
      have hc' := ListArray.start_mono h hbc hc
      have hle := ListArray.start_le h hc
      cases child with
      | leaf slots =>
          simp only [innermostLengths]
          rw [← List.map_append]
          congr 1
          obtain ⟨m, rfl⟩ := Nat.exists_eq_add_of_le hab
          obtain ⟨n, rfl⟩ := Nat.exists_eq_add_of_le hbc
          rw [Nat.add_sub_cancel_left, Nat.add_sub_cancel_left, Nat.add_assoc,
            Nat.add_sub_cancel_left, List.range'_append_1]
      | list below child' =>
          simp only [innermostLengths]
          exact ih h.2 hb hc' hle

/-- The innermost lists of all rows are those of each. -/
theorem mem_innermostLengths (h : data.WellFormed) {n stop : Nat}
    (hstop : stop ≤ data.length) :
    n ∈ data.innermostLengths 0 stop
      ↔ ∃ r < stop, n ∈ data.innermostLengths r (r + 1) := by
  induction stop with
  | zero =>
      have hnil : data.innermostLengths 0 0 = [] := by
        have := innermostLengths_append h (Nat.le_refl 0) (Nat.le_refl 0) hstop
        simpa using this
      rw [hnil]
      simp
  | succ stop ih =>
      rw [innermostLengths_append h (Nat.zero_le stop) (Nat.le_succ stop) hstop,
        List.mem_append, ih (by omega)]
      constructor
      · intro hx
        obtain (⟨r, hr, hn⟩ | hn) := hx
        · exact ⟨r, by omega, hn⟩
        · exact ⟨stop, Nat.lt_succ_self _, hn⟩
      · intro hx
        obtain ⟨r, hr, hn⟩ := hx
        rcases Nat.lt_or_eq_of_le (Nat.lt_succ_iff.mp hr) with hlt | rfl
        · exact .inl ⟨r, hlt, hn⟩
        · exact .inr hn

/-- In a nest of one shape the innermost lists have its last size. -/
theorem Uniform.innermost (h : data.WellFormed) (hne : data.NoEmptyList)
    {start stop : Nat} (hlt : start < stop) (hstop : stop ≤ data.length)
    {sizes : IPosition} (hu : data.Uniform start stop sizes)
    (hdepth : 1 ≤ data.depth) {P : Nat → Prop} :
    (∀ n ∈ data.innermostLengths start stop, P n) ↔ P (sizes.getLastD 0) := by
  induction data generalizing start stop sizes with
  | leaf slots => exact absurd hdepth (by rw [depth]; omega)
  | list level child ih =>
      obtain ⟨n, rest, rfl, hall, hrest⟩ := hu
      have hstop : stop ≤ level.length := hstop
      have hbelow : level.start start < level.start stop := by
        have hsize := hne.1 start (by omega)
        have hadd := ListArray.start_add_size h (i := start) (by omega)
        have hmono := ListArray.start_mono h (i := start + 1) hlt hstop
        omega
      cases child with
      | leaf slots =>
          rw [show rest = [] from hrest]
          show (∀ m ∈ (List.range' start (stop - start)).map level.size, P m)
            ↔ P n
          rw [List.forall_mem_map]
          constructor
          · intro hp
            have := hp start (List.mem_range'_1.mpr ⟨Nat.le_refl _, by omega⟩)
            rwa [hall start (Nat.le_refl _) hlt] at this
          · intro hp i hi
            rw [List.mem_range'_1] at hi
            rwa [hall i hi.1 (by omega)]
      | list below child' =>
          obtain ⟨m, rest', rfl, -, -⟩ := id hrest
          have := ih h.2 hne.2 hbelow (ListArray.start_le h hstop) hrest
            (by rw [depth]; omega)
          rw [List.getLastD_cons] at this
          rw [List.getLastD_cons, List.getLastD_cons]
          exact this

end ArrayData

-- ========================================================== result shapes

variable {desc : ColumnDesc}

/-- A nest is that of an element of a column if, for complex values, its
innermost size is two. -/
theorem exists_nestSizes {dtype : DataType} {sizes : IPosition}
    (hne : dtype.isComplex = true → sizes ≠ []) :
    (∃ dims, sizes = nestSizes dtype dims)
      ↔ (dtype.isComplex = true → sizes.getLastD 0 = 2) := by
  unfold nestSizes
  cases hcomplex : dtype.isComplex with
  | false => simpa using ⟨sizes.reverse, (List.reverse_reverse sizes).symm⟩
  | true =>
      rcases List.eq_nil_or_concat sizes with rfl | ⟨front, last, rfl⟩
      · exact absurd rfl (hne hcomplex)
      · rw [List.concat_eq_append, List.getLastD_concat]
        constructor
        · intro hx _
          obtain ⟨dims, hdims⟩ := hx
          exact List.singleton_inj.mp (List.append_inj' hdims rfl).2
        · intro hlast
          refine ⟨front.reverse, ?_⟩
          rw [hlast rfl, List.reverse_reverse]
          rfl

/-- No other shape passes. -/
theorem dropPair_fails {dtype : DataType} (hcomplex : dtype.isComplex = true)
    {name : String} {sizes tail : IPosition} (hne : sizes ≠ [])
    (hno : ∀ dims, sizes ≠ nestSizes dtype dims) :
    ∃ e, dropPair name (sizes.reverse ++ tail) = .error e := by
  cases hdrop : dropPair name (sizes.reverse ++ tail) with
  | error e => exact ⟨e, rfl⟩
  | ok rest =>
      have hpair := dropPair_ok hdrop
      rcases List.eq_nil_or_concat sizes with rfl | ⟨front, last, rfl⟩
      · exact absurd rfl hne
      · rw [List.concat_eq_append, List.reverse_append, List.reverse_singleton,
          List.singleton_append, List.cons_append, List.cons.injEq] at hpair
        refine absurd ?_ (hno front.reverse)
        rw [nestSizes, if_pos hcomplex, List.reverse_reverse, ← hpair.1]
        exact List.concat_eq_append

/-- The values are pairs when those of each row are. -/
theorem pairs_iff_rows (h : data.WellFormed) {dtype : DataType} :
    (dtype.isComplex = true → ∀ n ∈ data.innermostLengths 0 data.length, n = 2)
      ↔ ∀ r < data.length, dtype.isComplex = true →
        ∀ n ∈ data.innermostLengths r (r + 1), n = 2 := by
  constructor
  · intro hp r hr hcomplex n hn
    exact hp hcomplex n ((ArrayData.mem_innermostLengths h
      (Nat.le_refl _)).mpr ⟨r, hr, hn⟩)
  · intro hp hcomplex n hn
    obtain ⟨r, hr, hn⟩ := (ArrayData.mem_innermostLengths h
      (Nat.le_refl _)).mp hn
    exact hp r hr hcomplex n hn

/-- The values of a rectangular row are pairs when its sizes are those of
the nest of an element. -/
theorem row_pairs_iff (h : data.WellFormed) (hne : data.NoEmptyList)
    {dtype : DataType} (hpair : dtype.isComplex = true → 1 ≤ data.depth)
    {r : Nat} (hr : r < data.length) {sizes : List Nat}
    (hu : data.Uniform r (r + 1) sizes) :
    (dtype.isComplex = true →
        ∀ n ∈ data.innermostLengths r (r + 1), n = 2)
      ↔ ∃ dims, sizes = nestSizes dtype dims := by
  have hlen := hu.length_eq
  rw [exists_nestSizes fun hcomplex => by
    have := hpair hcomplex
    exact List.ne_nil_of_length_pos (by omega)]
  refine forall_congr' fun hcomplex => ?_
  exact hu.innermost h hne (Nat.lt_succ_self r) hr (hpair hcomplex)

section Inferred

variable (h : data.WellFormed) (hnull : data.ListsNullFree)
  (hknown : data.leafArray.type.known = true) (hne : data.NoEmptyList)
  (hpos : 0 < data.length)
  (hpair : desc.dataType.isComplex = true → 1 ≤ data.depth)

include h hnull hknown hne hpos hpair

/-- Where all lists of each level have one length, that is the shape,
unless pairs are missing. -/
theorem inferred_fixed {lengths : List Nat} (hc : data.CommonLengths lengths) :
    (∀ dims, lengths = nestSizes desc.dataType dims →
      getResultShapeData desc data = .ok
        { columnName := desc.name
          shape := some (dims ++ [data.length])
          ndim := dims.length + 1
          dtype := desc.dataType
          rowShapes := none
          cellExtents := none })
    ∧ ((∀ dims, lengths ≠ nestSizes desc.dataType dims) →
      ∃ e, getResultShapeData desc data = .error e) := by
  obtain ⟨walk, hwalk, hndim, hiff⟩ :=
    walkShape_iff h hnull hknown hne hpos [data.length] 1
  obtain ⟨hfixed, hshape⟩ := (hiff lengths).mp hc
  have hwhole : data.Uniform 0 data.length lengths :=
    hc.uniform h (Nat.le_refl _)
  have hlen := hwhole.length_eq
  have harrow : getArrowResultShapeData desc data = .ok
      { columnName := desc.name
        shape := some (lengths.reverse ++ [data.length])
        ndim := lengths.length + 1
        dtype := desc.dataType
        rowShapes := none
        cellExtents := none } := by
    unfold getArrowResultShapeData
    have hrank : (walk.ndim : Int) = lengths.length + 1 := by omega
    rw [hwalk, Result.ok_bind, if_pos hfixed, hshape, hrank,
      List.singleton_append, List.reverse_cons]
    rfl
  refine ⟨fun dims hdims => ?_, fun hno => ?_⟩
  · rw [hdims] at harrow
    exact getResultShapeData_of_fixed harrow
  · cases hcomplex : desc.dataType.isComplex with
    | false =>
        refine absurd ?_ (hno lengths.reverse)
        rw [nestSizes, hcomplex, List.reverse_reverse]
        exact (List.append_nil lengths).symm
    | true =>
        have hne' : lengths ≠ [] := by
          have := hpair hcomplex
          exact List.ne_nil_of_length_pos (by omega)
        obtain ⟨e, he⟩ := @dropPair_fails _ hcomplex desc.name _ [data.length]
          hne' hno
        refine ⟨e, ?_⟩
        unfold getResultShapeData
        rw [harrow, Result.ok_bind]
        simp [hcomplex, he]

/-- Where two lists of one level differ in length, each row has its own
shape, unless one is not rectangular or pairs are missing. -/
theorem inferred_varying (hc : ¬ ∃ lengths, data.CommonLengths lengths) :
    (∀ rows, List.Forall₂ (fun r dims =>
          data.Uniform r (r + 1) (nestSizes desc.dataType dims))
        (List.range data.length) rows →
      ∃ n, (∀ dims ∈ rows, dims.length = n)
        ∧ getResultShapeData desc data = .ok
          { columnName := desc.name
            shape := none
            ndim := n + 1
            dtype := desc.dataType
            rowShapes := some rows
            cellExtents := none })
    ∧ ((¬ ∃ rows, List.Forall₂ (fun r dims =>
          data.Uniform r (r + 1) (nestSizes desc.dataType dims))
        (List.range data.length) rows) →
      ∃ e, getResultShapeData desc data = .error e) := by
  obtain ⟨walk, hwalk, hndim, hiff⟩ :=
    walkShape_iff h hnull hknown hne hpos [data.length] 1
  have hvar : ¬ walk.fixedShape = true := by
    intro hfixed
    obtain ⟨-, -, -, hshape⟩ := walkShape_ok h hwalk
    obtain ⟨-, rest, hrest, -⟩ := hshape hfixed
    exact hc ⟨rest, (hiff rest).mpr ⟨hfixed, hrest⟩⟩
  have hrank : (walk.ndim : Int) = data.depth + 1 := by omega
  -- what is inferred once the shapes of the rows are known
  have harrow : ∀ nests, getRowShapes data = .ok nests →
      getArrowResultShapeData desc data = .ok
        { columnName := desc.name
          shape := none
          ndim := data.depth + 1
          dtype := desc.dataType
          rowShapes := some (nests.map List.reverse)
          cellExtents := none } := by
    intro nests hnests
    unfold getArrowResultShapeData
    rw [hwalk, Result.ok_bind, if_neg hvar, hnests, hrank]
    rfl
  refine ⟨fun rows hrows => ?_, fun hno => ?_⟩
  · have hnests : getRowShapes data
        = .ok (rows.map (nestSizes desc.dataType)) := by
      rw [getRowShapes_iff h hnull hknown hne, List.forall₂_map_right_iff]
      exact hrows
    have hlen : ∀ dims ∈ rows, dims.length
        + (if desc.dataType.isComplex then 1 else 0) = data.depth := by
      intro dims hdims
      obtain ⟨r, -, hu⟩ := forall₂_mem_right hrows hdims
      rw [← nestSizes_length, hu.length_eq]
    refine ⟨data.depth - if desc.dataType.isComplex then 1 else 0, ?_, ?_⟩
    · intro dims hdims
      have := hlen dims hdims
      omega
    · refine getResultShapeData_of_varying ?_ (harrow _ hnests)
      split
      · have := hpair (by assumption)
        omega
      · omega
  · cases hnests : getRowShapes data with
    | error e =>
        refine ⟨e, ?_⟩
        unfold getResultShapeData getArrowResultShapeData
        rw [hwalk, Result.ok_bind, if_neg hvar, hnests]
        rfl
    | ok nests =>
        have hall := (getRowShapes_iff h hnull hknown hne).mp hnests
        -- some row has no pairs
        obtain ⟨nest, hmem, hpairs⟩ : ∃ nest ∈ nests,
            ∀ dims, nest ≠ nestSizes desc.dataType dims := by
          by_contra hcon
          push Not at hcon
          have hrange : nests
              ∈ Set.range (List.map (nestSizes desc.dataType)) := by
            rw [Set.range_list_map]
            intro nest hmem
            obtain ⟨dims, hdims⟩ := hcon nest hmem
            exact ⟨dims, hdims.symm⟩
          obtain ⟨rows, rfl⟩ := hrange
          exact hno ⟨rows, List.forall₂_map_right_iff.mp hall⟩
        have hcomplex : desc.dataType.isComplex = true := by
          by_contra hplain
          refine hpairs nest.reverse ?_
          rw [nestSizes, if_neg hplain, List.reverse_reverse, List.append_nil]
        have hne' : nest ≠ [] := by
          obtain ⟨r, -, hu⟩ := forall₂_mem_right hall hmem
          have hlen := hu.length_eq
          have := hpair hcomplex
          exact List.ne_nil_of_length_pos (by omega)
        obtain ⟨e, he⟩ := @dropPair_fails _ hcomplex desc.name _ [] hne' hpairs
        rw [List.append_nil] at he
        obtain ⟨e', he'⟩ := @mapM_isError _ _ _ (dropPair desc.name)
          (nests.map List.reverse) _ (List.mem_map_of_mem hmem) ⟨e, he⟩
        refine ⟨e', ?_⟩
        unfold getResultShapeData
        rw [harrow nests hnests, Result.ok_bind]
        simp [hcomplex, ResultShapeData.getRowShapes, he']

/-- The shape inferred is exact. It is fixed exactly when all lists of
each level have one length, and is then those lengths; otherwise each
row has its own. A row that is not rectangular is an error, and so are
complex values that are not pairs. -/
theorem inferred_shape_exact :
    ((∃ lengths, data.CommonLengths lengths) →
      (desc.dataType.isComplex = true →
        ∀ n ∈ data.innermostLengths 0 data.length, n = 2) →
      ∃ dims, data.CommonLengths (nestSizes desc.dataType dims)
        ∧ getResultShapeData desc data = .ok
          { columnName := desc.name
            shape := some (dims ++ [data.length])
            ndim := dims.length + 1
            dtype := desc.dataType
            rowShapes := none
            cellExtents := none })
    ∧ ((¬ ∃ lengths, data.CommonLengths lengths) →
      (∀ r < data.length, ∃ sizes, data.Uniform r (r + 1) sizes) →
      (desc.dataType.isComplex = true →
        ∀ n ∈ data.innermostLengths 0 data.length, n = 2) →
      ∃ (rows : List IPosition) (n : Nat), rows.length = data.length
        ∧ (∀ r (hr : r < rows.length), rows[r].length = n ∧ ∀ dims,
            data.Uniform r (r + 1) (nestSizes desc.dataType dims)
              ↔ dims = rows[r])
        ∧ getResultShapeData desc data = .ok
          { columnName := desc.name
            shape := none
            ndim := n + 1
            dtype := desc.dataType
            rowShapes := some rows
            cellExtents := none })
    ∧ (((∃ r < data.length, ¬ ∃ sizes, data.Uniform r (r + 1) sizes)
        ∨ desc.dataType.isComplex = true
          ∧ ∃ n ∈ data.innermostLengths 0 data.length, n ≠ 2) →
      ∃ e, getResultShapeData desc data = .error e) := by
  have hrows := @pairs_iff_rows _ _ h desc.dataType
  refine ⟨fun ⟨lengths, hc⟩ hp => ?_, fun hc hrect hp => ?_, fun hfail => ?_⟩
  · obtain ⟨hok, -⟩ := inferred_fixed h hnull hknown hne hpos hpair hc
    obtain ⟨dims, rfl⟩ := (row_pairs_iff h hne hpair hpos
      (hc.uniform h hpos)).mp
      (hrows.mp hp 0 hpos)
    exact ⟨dims, hc, hok dims rfl⟩
  · obtain ⟨hok, -⟩ := inferred_varying h hnull hknown hne hpos hpair hc
    obtain ⟨rows, hall⟩ : ∃ rows, List.Forall₂ (fun r dims =>
        data.Uniform r (r + 1) (nestSizes desc.dataType dims))
        (List.range data.length) rows := by
      have hex : ∀ r < data.length, ∃ dims,
          data.Uniform r (r + 1) (nestSizes desc.dataType dims) := by
        intro r hr
        obtain ⟨sizes, hu⟩ := hrect r hr
        obtain ⟨dims, rfl⟩ := (row_pairs_iff h hne hpair hr hu).mp
          (hrows.mp hp r hr)
        exact ⟨dims, hu⟩
      choose! dims hdims using hex
      refine ⟨(List.range data.length).map dims, ?_⟩
      rw [List.forall₂_map_right_iff, List.forall₂_same]
      exact fun r hr => hdims r (List.mem_range.mp hr)
    obtain ⟨n, hn, hres⟩ := hok rows hall
    have hlen := hall.length_eq
    rw [List.length_range] at hlen
    refine ⟨rows, n, hlen.symm, fun r hr => ⟨hn _ (List.getElem_mem hr), ?_⟩,
      hres⟩
    have hget := List.Forall₂.get hall (by simpa [hlen] using hr) hr
    simp only [List.get_eq_getElem, List.getElem_range] at hget
    refine fun dims => ⟨fun hu =>
      nestSizes_injective desc.dataType ?_, fun hd => ?_⟩
    · have h₁ := (rowShapeFrom_iff h hnull hknown hne (r := r)
        (Nat.lt_succ_self r) (by omega)).mpr hu
      have h₂ := (rowShapeFrom_iff h hnull hknown hne (r := r)
        (Nat.lt_succ_self r) (by omega)).mpr hget
      exact Except.ok.inj (h₁.symm.trans h₂)
    · rw [hd]
      exact hget
  · by_cases hc : ∃ lengths, data.CommonLengths lengths
    · obtain ⟨lengths, hc⟩ := hc
      obtain ⟨-, herr⟩ := inferred_fixed h hnull hknown hne hpos hpair hc
      refine herr fun dims hdims => ?_
      rcases hfail with ⟨r, hr, hno⟩ | ⟨hcomplex, n, hn, hne2⟩
      · exact hno ⟨lengths, hc.uniform h hr⟩
      · refine hne2 (hrows.mpr (fun r hr => ?_) hcomplex n hn)
        exact (row_pairs_iff h hne hpair hr (hc.uniform h hr)).mpr ⟨dims, hdims⟩
    · obtain ⟨-, herr⟩ := inferred_varying h hnull hknown hne hpos hpair hc
      refine herr fun ⟨rows, hall⟩ => ?_
      have hex : ∀ r < data.length, ∃ dims,
          data.Uniform r (r + 1) (nestSizes desc.dataType dims) := by
        intro r hr
        obtain ⟨dims, -, hu⟩ := forall₂_mem_right hall.flip
          (List.mem_range.mpr hr)
        exact ⟨dims, hu⟩
      rcases hfail with ⟨r, hr, hno⟩ | ⟨hcomplex, n, hn, hne2⟩
      · obtain ⟨dims, hu⟩ := hex r hr
        exact hno ⟨_, hu⟩
      · refine hne2 (hrows.mpr (fun r hr => ?_) hcomplex n hn)
        obtain ⟨dims, hu⟩ := hex r hr
        exact (row_pairs_iff h hne hpair hr hu).mpr ⟨dims, rfl⟩

end Inferred

/-- A row of two pairs, and a row of one. -/
def raggedPairs : ArrayData Nat :=
  .list ⟨.list [0, 2, 3], 0, 2, none⟩
    (.list ⟨.fixedSizeList 2, 0, 3, none⟩
      (.leaf ⟨.float, 0, 6, none, [0, 1, 2, 3, 4, 5]⟩))

/-- The rows of two and one pairs have shapes of their own. -/
theorem inferred_shape_exact_sample : ∃ rows n, rows.length = 2
    ∧ getResultShapeData (.withoutShape "RAGGED" .tpComplex (some 1))
        raggedPairs
      = .ok
        { columnName := "RAGGED"
          shape := none
          ndim := n + 1
          dtype := .tpComplex
          rowShapes := some rows
          cellExtents := none } := by
  have hwf : raggedPairs.WellFormed := by
    refine ⟨⟨by decide, by decide, by decide⟩, ?_⟩
    exact ⟨by decide, Nat.le_refl 6⟩
  obtain ⟨-, hvarying, -⟩ := @inferred_shape_exact _ _
    (.withoutShape "RAGGED" .tpComplex (some 1)) hwf ⟨rfl, rfl, trivial⟩ rfl
    ⟨by decide, by decide, trivial⟩ (by decide) (fun _ => by decide)
  obtain ⟨rows, n, hlen, -, hres⟩ := hvarying
    (by
      intro hx
      obtain ⟨lengths, n, rest, -, hall, -⟩ := hx
      have h₀ := hall 0 (by decide)
      have h₁ := hall 1 (by decide)
      rw [← h₁] at h₀
      exact absurd h₀ (by decide))
    (by
      intro r hr
      match r, hr with
      | 0, _ =>
          exact ⟨[2, 2], 2, [2], rfl, by decide, 2, [], rfl, by decide, rfl⟩
      | 1, _ =>
          exact ⟨[1, 2], 1, [2], rfl, by decide, 2, [], rfl, by decide, rfl⟩)
    (fun _ => by decide)
  exact ⟨rows, n, hlen, hres⟩

end Arcae
