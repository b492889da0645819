/-
Arrays of numpy, on their way to a column and back.

A numpy array is converted exactly where its values are one Arrow array
(`NdArray.Converts`) and no secondary dimension is empty or wider than 31
bits, and becomes a fixed nest (`numpyToArrow_eq_ok`). A fixed nest is
turned back into the array it came from (`arrowToNumpy_fixedNest`), with
bools as the bytes they are stored as and strings as objects; but an array
of no objects has become one of nulls, which is nothing to numpy.

What `getcol` reads of a column whose cells have one shape is such a
nest as well. So a numpy array written to a column and read back is
compared element by element, and the elements are those of the column.
-/
import Arcae.Model.Numpy
import Arcae.Proofs.FixedNest
import Arcae.Proofs.NewCells

namespace Arcae

open FOrder Loops

variable {α β : Type} {leaf : LeafArray β} {n : Nat} {dims sizes : List Nat}

-- =============================================================== to Arrow

theorem nestLevel_eq_ok {values array : ArrowArray β} {d : Nat} :
    nestLevel values d = .ok array
      ↔ d < 2 ^ 31 ∧ fixedSizeListFromArrays values.data d = .ok array.data := by
  unfold nestLevel
  by_cases hwide : 2 ^ 31 ≤ d
  · rw [if_pos hwide]
    exact ⟨fun h => (by cases h), fun h => absurd h.1 (Nat.not_lt.mpr hwide)⟩
  · rw [if_neg hwide]
    constructor
    · intro h
      split at h
      · cases h
      · rename_i data hdata
        cases h
        exact ⟨Nat.lt_of_not_le hwide, hdata⟩
    · intro h
      split
      · rename_i status hstatus
        cases hstatus.symm.trans h.2
      · rename_i data hdata
        cases array
        cases hdata.symm.trans h.2
        rfl

/-- Sizes that a list of fixed size can have. -/
def ListSizes (dims : List Nat) : Prop := ∀ d ∈ dims, 0 < d ∧ d < 2 ^ 31

/-- Nesting gets through all levels exactly where each of them can be
made. -/
theorem foldlM_nestLevel {array₀ array : ArrowArray β}
    (h₀ : array₀.data = fixedNest leaf (n * dims.prod) sizes)
    (h : leaf.length = n * (dims ++ sizes).prod) :
    dims.reverse.foldlM nestLevel array₀ = .ok array
      ↔ ListSizes dims ∧ array.data = fixedNest leaf n (dims ++ sizes) := by
  induction dims generalizing n array with
  | nil =>
      rw [List.prod_nil, Nat.mul_one] at h₀
      rw [List.nil_append, ← h₀]
      constructor
      · intro hok
        cases hok
        exact ⟨fun d hd => (by cases hd), rfl⟩
      · intro hdata
        cases array₀
        cases array
        cases hdata.2
        rfl
  | cons d dims ih =>
      have hinner : leaf.length = n * d * (dims ++ sizes).prod := by
        rw [h, List.cons_append, List.prod_cons, Nat.mul_assoc]
      rw [List.prod_cons, ← Nat.mul_assoc] at h₀
      rw [List.reverse_cons, List.foldlM_append, bind_eq_ok]
      constructor
      · intro hok
        obtain ⟨child, hchild, hlast⟩ := hok
        obtain ⟨level, hlevel, hnil⟩ := foldlM_cons_ok.mp hlast
        cases hnil
        obtain ⟨hsizes, hdata⟩ := (ih h₀ hinner).mp hchild
        obtain ⟨hwide, hlevel⟩ := nestLevel_eq_ok.mp hlevel
        have hd := (fixedSizeListFromArrays_eq_ok hlevel).1
        rw [hdata] at hlevel
        refine ⟨List.forall_mem_cons.mpr ⟨⟨hd, hwide⟩, hsizes⟩, ?_⟩
        exact Except.ok.inj
          (hlevel.symm.trans (fixedSizeListFromArrays_fixedNest hd h))
      · intro hall
        obtain ⟨⟨hd, hwide⟩, hsizes⟩ := List.forall_mem_cons.mp hall.1
        have hlevel := fixedSizeListFromArrays_fixedNest hd h
        by_cases hleaf : (fixedNest leaf (n * d) (dims ++ sizes)).WellFormed
        · refine ⟨⟨_, hleaf⟩, (ih h₀ hinner).mpr ⟨hsizes, rfl⟩, ?_⟩
          rw [List.foldlM_cons, bind_eq_ok]
          exact ⟨array, nestLevel_eq_ok.mpr ⟨hwide, hall.2 ▸ hlevel⟩, rfl⟩
        · have hwf := array.wellFormed
          rw [hall.2] at hwf
          exact absurd hwf.2 hleaf

/-- The data type as it comes back: bools are the bytes they are stored
as, and strings are objects. -/
def ArrayDtype.stored : ArrayDtype → ArrayDtype
  | .bool => .uint8
  | .unicode => .object
  | dtype => dtype

@[simp] theorem ArrayDtype.stored_width (dtype : ArrayDtype) :
    dtype.stored.width = dtype.width := by
  cases dtype <;> rfl

/-- The values of a column's own type come back in their own, parts of
complex values by way of that of the parts. -/
theorem ArrayDtype.flatType_npDtype (dtype : ArrayDtype) :
    ∃ part, dtype.flatType.npDtype = some part ∧ part.width = 1
      ∧ (dtype.isComplex = true → complexDtype part = .ok dtype.stored)
      ∧ (dtype.isComplex = false → part = dtype.stored) := by
  cases dtype with
  | complex64 | complex128 =>
      exact ⟨_, rfl, rfl, fun _ => rfl, fun h => (by cases h)⟩
  | _ => exact ⟨_, rfl, rfl, fun h => (by cases h), fun _ => rfl⟩

namespace NdArray

/-- The sizes of the lists that a numpy array is nested in: its secondary
dimensions, and the pair of a complex value. -/
def nestSizes (data : NdArray β) : List Nat :=
  data.shape.tail ++ if data.dtype.isComplex then [2] else []

/-- The array as it comes back. -/
def stored (data : NdArray β) : NdArray β where
  dtype := data.dtype.stored
  shape := data.shape
  values := data.values
  size_eq := by rw [ArrayDtype.stored_width, data.size_eq]
  native := true

/-- The values are one Arrow array: numbers in the machine's byte order,
or strings of no more text than one array can hold. -/
structure Converts [LeafValue β] (data : NdArray β) : Prop where
  native : data.dtype.isNumber = true → data.isnative = true
  text : data.dtype.isNumber = false → totalText data.values ≤ maxTextBytes

/-- The values have a type: an array of objects is not empty. -/
def Typed (data : NdArray β) : Prop := data.dtype = .object → data.values ≠ []

variable {data : NdArray β}

theorem nestSizes_of_complex (h : data.dtype.isComplex = true) :
    data.nestSizes = data.shape.tail ++ [2] := by
  rw [nestSizes, if_pos h]

theorem nestSizes_of_plain (h : data.dtype.isComplex = false) :
    data.nestSizes = data.shape.tail := by
  rw [nestSizes, h, if_neg Bool.false_ne_true, List.append_nil]

theorem nestSizes_prod : data.nestSizes.prod
    = data.dtype.width * data.shape.tail.prod := by
  unfold nestSizes ArrayDtype.width
  split
  · rw [List.prod_append, List.prod_singleton, Nat.mul_comm]
  · rw [List.append_nil, Nat.one_mul]

theorem flatLeaf_length (hshape : data.shape = n :: dims) :
    data.flatLeaf.length = n * data.nestSizes.prod := by
  show data.values.length = _
  rw [data.size_eq, nestSizes_prod, hshape, List.prod_cons, List.tail_cons]
  ring

theorem leafType_of_typed (h : data.Typed) :
    data.leafType = data.dtype.flatType := by
  refine if_neg fun hempty => h hempty.1 ?_
  exact List.length_eq_zero_iff.mp hempty.2

theorem leafType_of_not_typed (h : ¬ data.Typed) :
    data.leafType = .other "null" := by
  rw [Typed, Classical.not_imp, not_not] at h
  exact if_pos ⟨h.1, List.length_eq_zero_iff.mpr h.2⟩

/-- There is such an array exactly where the values are one. -/
theorem flatArray_eq_ok [LeafValue β] {array : ArrowArray β} :
    data.flatArray = .ok array ↔ data.Converts ∧ array = data.flat := by
  unfold flatArray
  cases hnumber : data.dtype.isNumber with
  | true =>
      have hconverts : data.Converts ↔ data.isnative = true :=
        ⟨fun h => h.native hnumber, fun h => ⟨fun _ => h,
          fun hno => absurd hnumber (by rw [hno]; exact Bool.false_ne_true)⟩⟩
      rw [if_pos rfl, hconverts]
      by_cases hnative : data.isnative = true
      · rw [if_pos hnative]
        exact ⟨fun h => ⟨hnative, (Except.ok.inj h).symm⟩,
          fun h => congrArg _ h.2.symm⟩
      · rw [if_neg hnative]
        exact ⟨fun h => (by cases h), fun h => absurd h.1 hnative⟩
  | false =>
      have hconverts : data.Converts ↔ totalText data.values ≤ maxTextBytes :=
        ⟨fun h => h.text hnumber, fun h => ⟨
          fun hyes => absurd hnumber (by rw [hyes]; exact Bool.false_ne_true.symm),
          fun _ => h⟩⟩
      rw [if_neg Bool.false_ne_true, hconverts]
      by_cases htext : totalText data.values ≤ maxTextBytes
      · rw [if_pos htext]
        exact ⟨fun h => ⟨htext, (Except.ok.inj h).symm⟩,
          fun h => congrArg _ h.2.symm⟩
      · rw [if_neg htext]
        exact ⟨fun h => (by cases h), fun h => absurd h.1 htext⟩

end NdArray

/-- An array is converted exactly where its values are one Arrow array and
its secondary dimensions are sizes of lists, and is nested by them. -/
theorem numpyToArrow_eq_ok [LeafValue β] {data : NdArray β}
    {array : ArrowArray β} (hshape : data.shape = n :: dims) :
    numpyToArrow data = .ok array
      ↔ data.Converts ∧ ListSizes dims
        ∧ array.data = fixedNest data.flatLeaf n data.nestSizes := by
  have hflat : data.flatShape.tail = data.nestSizes := by
    unfold NdArray.flatShape NdArray.nestSizes
    rw [hshape]
    split
    · rfl
    · exact (List.append_nil dims).symm
  have hsizes : ListSizes data.nestSizes ↔ ListSizes dims := by
    unfold NdArray.nestSizes ListSizes
    rw [hshape, List.tail_cons, List.forall_mem_append]
    refine and_iff_left fun d hd => ?_
    split at hd
    · cases List.mem_singleton.mp hd
      decide
    · cases hd
  have hlength := data.flatLeaf_length hshape
  have hfold := @foldlM_nestLevel _ data.flatLeaf n data.nestSizes [] data.flat
    array (by
      show ArrayData.leaf _ = fixedNest data.flatLeaf _ []
      rfl) (by rw [List.append_nil]; exact hlength)
  rw [List.append_nil, hsizes] at hfold
  unfold numpyToArrow
  rw [hflat, bind_eq_ok, ← hfold]
  constructor
  · intro h
    obtain ⟨flat, hflat, hnested⟩ := h
    obtain ⟨hconverts, rfl⟩ := NdArray.flatArray_eq_ok.mp hflat
    exact ⟨hconverts, hnested⟩
  · intro h
    exact ⟨data.flat, NdArray.flatArray_eq_ok.mpr ⟨h.1, rfl⟩, h.2⟩

-- ============================================================= from Arrow

/-- Taking the levels off a nest gives its sizes, and the values of its
leaf. -/
theorem flattenNested_fixedNest (column : String)
    (hknown : leaf.type.known = true) (start stop : Nat) (shape : List Nat) :
    flattenNested column (fixedNest leaf n dims) start stop shape
      = (leafToNumpy leaf (start * dims.prod) (stop * dims.prod)).map
          fun values => (shape ++ dims, values) := by
  induction dims generalizing n start stop shape with
  | nil =>
      rw [fixedNest, flattenNested, if_pos hknown, List.prod_nil, Nat.mul_one,
        Nat.mul_one, List.append_nil]
      rfl
  | cons d dims ih =>
      rw [fixedNest, flattenNested]
      dsimp only
      rw [if_neg (by simp [ListArray.nullCount, nullCountOf]), ih,
        Nat.add_zero, Nat.add_zero, Nat.mul_assoc, Nat.mul_assoc,
        ← List.prod_cons, List.append_assoc]
      rfl

/-- Blocks of one size, one after the other, are all of a list. -/
theorem flatMap_blocks {values : List β} {width count : Nat}
    (h : values.length = width * count) :
    ((List.range count).flatMap fun i => (values.drop (i * width)).take width)
      = values := by
  induction count generalizing values with
  | zero =>
      rw [List.range_zero, List.flatMap_nil]
      exact (List.eq_nil_of_length_eq_zero h).symm
  | succ count ih =>
      have hrest := @ih (values.drop width) (by
        rw [List.length_drop, h, Nat.mul_succ, Nat.add_sub_cancel])
      rw [List.range_succ_eq_map, List.flatMap_cons, Nat.zero_mul,
        List.drop_zero, List.flatMap_map]
      have hdrop : ∀ i : Nat, ((values.drop (Nat.succ i * width)).take width)
          = ((values.drop width).drop (i * width)).take width := by
        intro i
        rw [List.drop_drop, Nat.succ_mul, Nat.add_comm]
      rw [List.flatMap_congr fun i _ => hdrop i, hrest, List.take_append_drop]

theorem reshapeValues_ok {shape : List Nat} {dtype : ArrayDtype} {values : List β}
    (h : values.length = dtype.width * shape.prod) :
    reshapeValues shape dtype values = .ok ⟨dtype, shape, values, h, true⟩ :=
  dif_pos h

/-- Pairs viewed as complex values. -/
theorem viewComplex_pairs {array : NdArray β} {rows : List Nat}
    {dtype : ArrayDtype} (hshape : array.shape = rows ++ [2])
    (hdtype : complexDtype array.dtype = .ok dtype)
    (h : array.values.length = 2 * rows.prod) :
    viewComplex array = reshapeValues rows dtype array.values := by
  have hlast : array.shape.getLast?.getD 0 = 2 := by
    rw [hshape, List.getLast?_append]
    rfl
  have hrows : array.shape.dropLast = rows := by
    rw [hshape, List.dropLast_concat]
  unfold viewComplex
  rw [hdtype, hlast, hrows]
  show reshapeValues rows dtype _ = _
  rw [flatMap_blocks h]

/-- A leaf of its own is an array of one dimension. -/
theorem arrowToNumpy_leaf {desc : ColumnDesc} {part : ArrayDtype}
    (hpart : leaf.type.npDtype = some part) :
    arrowToNumpy desc (.leaf leaf)
      = (leafToNumpy leaf 0 leaf.length >>= fun values =>
          reshapeValues [leaf.length] values.1 values.2) := by
  unfold arrowToNumpy
  simp only [hpart]

/-- A nest is reshaped by its sizes, and in a complex column viewed as
complex values. -/
theorem arrowToNumpy_nest {desc : ColumnDesc} {part : ArrayDtype} {values : List β}
    (hpart : leaf.type.npDtype = some part)
    (hknown : leaf.type.known = true)
    (hvalues : leafToNumpy leaf 0 leaf.length = .ok (part, values))
    (hlength : leaf.length = n * sizes.prod)
    (hsize : values.length = part.width * (n :: sizes).prod)
    (hpairs : desc.dataType.isComplex = true → sizes ≠ []) :
    arrowToNumpy desc (fixedNest leaf n sizes)
      = if desc.dataType.isComplex then
          viewComplex ⟨part, n :: sizes, values, hsize, true⟩
        else .ok ⟨part, n :: sizes, values, hsize, true⟩ := by
  cases sizes with
  | nil =>
      have hone : leaf.length = n := hlength.trans (Nat.mul_one n)
      rw [fixedNest, arrowToNumpy_leaf hpart, hvalues, hone,
        if_neg fun h => hpairs h rfl]
      exact reshapeValues_ok hsize
  | cons d rest =>
      have hlevels : arrowToNumpy desc (fixedNest leaf n (d :: rest))
          = (flattenNested desc.name (fixedNest leaf n (d :: rest)) 0 n [n]
              >>= fun flat =>
            reshapeValues flat.1 flat.2.1 flat.2.2 >>= fun array =>
              if desc.dataType.isComplex then viewComplex array
              else pure array) := rfl
      rw [hlevels, flattenNested_fixedNest desc.name hknown, Nat.zero_mul,
        ← hlength, hvalues]
      show (reshapeValues (n :: d :: rest) part values >>= _) = _
      rw [reshapeValues_ok hsize]
      rfl

/-- A nest of values that numpy has no type for stays one. -/
theorem arrowToNumpy_unknown {desc : ColumnDesc} {name : String}
    (htype : leaf.type = .other name) (array : NdArray β) :
    arrowToNumpy desc (fixedNest leaf n sizes) ≠ .ok array := by
  have hlevels : ∀ (dims : List Nat) (n start stop : Nat) (shape : List Nat)
      (flat : List Nat × ArrayDtype × List β),
      flattenNested desc.name (fixedNest leaf n dims) start stop shape
        ≠ .ok flat := by
    intro dims
    induction dims with
    | nil =>
        intro n start stop shape flat h
        rw [fixedNest, flattenNested, htype] at h
        cases h
    | cons d dims ih =>
        intro n start stop shape flat h
        rw [fixedNest, flattenNested] at h
        dsimp only at h
        rw [if_neg (by simp [ListArray.nullCount, nullCountOf])] at h
        exact ih _ _ _ _ _ h
  intro h
  cases sizes with
  | nil =>
      rw [fixedNest, arrowToNumpy, htype] at h
      cases h
  | cons d rest =>
      obtain ⟨flat, hflat, -⟩ := bind_eq_ok.mp h
      exact hlevels (d :: rest) _ _ _ _ _ hflat

/-- The array comes back from its nest. -/
theorem arrowToNumpy_fixedNest {desc : ColumnDesc} {data : NdArray β}
    (hshape : data.shape = n :: dims) (htyped : data.Typed)
    (hdesc : desc.dataType.isComplex = data.dtype.isComplex) :
    arrowToNumpy desc (fixedNest data.flatLeaf n data.nestSizes)
      = .ok data.stored := by
  obtain ⟨part, hpart, hwidth, hcomplex, hplain⟩ := data.dtype.flatType_npDtype
  have htype : data.flatLeaf.type = data.dtype.flatType :=
    NdArray.leafType_of_typed htyped
  have hknown : data.flatLeaf.type.known = true := by
    rw [htype]
    cases data.dtype <;> rfl
  rw [← htype] at hpart
  have hlength := data.flatLeaf_length hshape
  have hvalues : leafToNumpy data.flatLeaf 0 data.flatLeaf.length
      = .ok (part, data.values) := by
    have hnull : data.flatLeaf.nullCount = 0 := rfl
    unfold leafToNumpy
    rw [hpart]
    dsimp only
    rw [hnull, if_neg (Nat.lt_irrefl 0)]
    show Except.ok (part, (data.values.drop (0 + 0)).take
      (data.values.length - 0)) = _
    rw [List.drop_zero, Nat.sub_zero, List.take_length]
  have hsize : data.values.length = part.width * (n :: data.nestSizes).prod := by
    rw [hwidth, List.prod_cons, Nat.one_mul, ← hlength]
    rfl
  have hstored : reshapeValues (n :: dims) data.dtype.stored data.values
      = .ok data.stored := by
    rw [← hshape]
    exact reshapeValues_ok data.stored.size_eq
  rw [arrowToNumpy_nest hpart hknown hvalues hlength hsize fun hc hnil => by
    rw [NdArray.nestSizes_of_complex (hdesc ▸ hc)] at hnil
    cases (List.append_eq_nil_iff.mp hnil).2]
  rw [hdesc]
  cases hc : data.dtype.isComplex with
  | true =>
      have hsizes : n :: data.nestSizes = n :: dims ++ [2] := by
        rw [NdArray.nestSizes_of_complex hc, hshape]
        rfl
      rw [if_pos rfl, viewComplex_pairs hsizes (hcomplex hc) ?_]
      · exact hstored
      · rw [data.size_eq, ArrayDtype.width, if_pos hc, hshape]
  | false =>
      have hsizes : n :: data.nestSizes = n :: dims := by
        rw [NdArray.nestSizes_of_plain hc, hshape]
        rfl
      rw [← hstored, ← hplain hc, ← hsizes, if_neg Bool.false_ne_true]
      exact (reshapeValues_ok hsize).symm

/-- Two rows of three complex values. -/
def complexRows : NdArray Nat where
  dtype := .complex64
  shape := [2, 3]
  values := List.range 12
  size_eq := rfl
  native := true

/-- The walk down a fixed nest finds its sizes. -/
theorem walkShape_fixedNest (hknown : leaf.type.known = true)
    (shape : IPosition) (ndim : Nat) :
    walkShape (fixedNest leaf n dims) ⟨true, shape, ndim⟩
      = .ok ⟨true, shape ++ dims, ndim + dims.length⟩ := by
  induction dims generalizing n shape ndim with
  | nil =>
      rw [fixedNest, walkShape, if_pos hknown, List.append_nil]
      rfl
  | cons d dims ih =>
      have hstep : maybeUpdateShapeAndNdim ⟨.fixedSizeList d, 0, n, none⟩
          ⟨true, shape, ndim⟩ = .ok ⟨true, shape ++ [d], ndim + 1⟩ := rfl
      rw [fixedNest, walkShape, hstep, Result.ok_bind, ih, List.append_assoc,
        Nat.add_right_comm, Nat.add_assoc, List.length_cons]
      rfl

/-- The shape inferred from a numpy array is its own, in FORTRAN order. -/
theorem getResultShapeData_fixedNest {desc : ColumnDesc} {data : NdArray β}
    (hshape : data.shape = n :: dims) (htyped : data.Typed)
    (hdesc : desc.dataType.isComplex = data.dtype.isComplex) :
    getResultShapeData desc (fixedNest data.flatLeaf n data.nestSizes)
      = .ok
        { columnName := desc.name
          shape := some (dims.reverse ++ [n])
          ndim := dims.length + 1
          dtype := desc.dataType
          rowShapes := none
          cellExtents := none } := by
  have hknown : data.flatLeaf.type.known = true := by
    show data.leafType.known = true
    rw [NdArray.leafType_of_typed htyped]
    cases data.dtype <;> rfl
  have hlength : (fixedNest data.flatLeaf n data.nestSizes).length = n :=
    fixedNest_length (data.flatLeaf_length hshape)
  have harrow : getArrowResultShapeData desc
      (fixedNest data.flatLeaf n data.nestSizes) = .ok
        { columnName := desc.name
          shape := some (n :: data.nestSizes).reverse
          ndim := ((1 + data.nestSizes.length : Nat) : Int)
          dtype := desc.dataType
          rowShapes := none
          cellExtents := none } := by
    unfold getArrowResultShapeData
    rw [hlength, walkShape_fixedNest hknown]
    rfl
  unfold getResultShapeData
  rw [harrow, Result.ok_bind]
  dsimp only
  rw [hdesc]
  cases hc : data.dtype.isComplex with
  | true =>
      have hsizes : (n :: data.nestSizes).reverse = 2 :: (dims.reverse ++ [n]) := by
        rw [NdArray.nestSizes_of_complex hc, hshape]
        simp
      simp only [hsizes, Bool.not_true, Bool.false_eq_true, if_false, dropPair,
        Result.ok_bind, List.length_append, List.length_reverse,
        List.length_singleton]
      rfl
  | false =>
      rw [NdArray.nestSizes_of_plain hc, hshape]
      simp [Nat.add_comm]

-- ======================================================== putcol and getcol

/-- Values of a column's own type. -/
structure NdArray.OwnType (data : NdArray β) (dtype : DataType) : Prop where
  leafType : arrowDataType dtype = .ok data.leafType
  isComplex : dtype.isComplex = data.dtype.isComplex

/-- `n` rows of data that fill the cells they go to: a row for each row of
the selection, of the size of the part of its cell that is selected, and
of values that the column keeps. -/
structure FillsCells [LeafValue β] (col : TableColumn α) (sel : Selection)
    (data : NdArray β) (n : Nat) (dims : List Nat) : Prop where
  shape : data.shape = n :: dims
  rows_pos : 0 < n
  ownType : data.OwnType col.columnDesc.dataType
  kept : Keeps col.columnDesc.dataType data.values
  small : data.values.length < 2 ^ 31
  distinct : ∀ span ∈ sel.spans, span.Nodup
  nonneg : ∀ span ∈ sel.spans, ∀ i ∈ span, 0 ≤ i
  rows : sel.hasRowSpan = false → n = col.nrow
  fill : ∀ k < n, ∀ cell, cellOf col sel k = some cell →
    sel.clipped cell = dims.reverse

/-- The nest that `data` is converted to. -/
structure IsNestOf (data : NdArray β) (n : Nat) (dims : List Nat)
    (array : ArrowArray β) : Prop where
  sizes : ListSizes dims
  data_eq : array.data = fixedNest data.flatLeaf n data.nestSizes

section PutThenGet

variable {col col' : TableColumn α} {sel : Selection} {rs : ResultShapeData}
  {srt : StdSort} {cast : LeafArray β → ArrowType → Result (LeafArray β)}
  {around : Memory β} {layout : ElementLayout col.columnDesc.dataType α β}
  {data : NdArray β} {array : ArrowArray β} {p : DataPartition}
  {buffer : Memory β} {col₁ : TableColumn α} {index : FullIndex}
  {nWriters : Nat}

/-- A `putcol` that got through is a write of the nest of its data. -/
theorem putcol_ok [LeafValue β] (hindex : buildSelection index = .ok sel)
    (hshape : data.shape = n :: dims)
    (h : putcol nWriters srt cast around col layout data index
      = (.ok (), col')) :
    ∃ array, data.Converts ∧ IsNestOf data n dims array
      ∧ writeImpl srt cast around col layout array sel = (.ok (), col') := by
  unfold putcol at h
  rw [hindex] at h
  dsimp only at h
  cases harray : numpyToArrow data with
  | error e =>
      rw [harray] at h
      cases h
  | ok array =>
      obtain ⟨hconverts, hsizes, hdata⟩ := (numpyToArrow_eq_ok hshape).mp harray
      refine ⟨array, hconverts, ⟨hsizes, hdata⟩, ?_⟩
      rw [harray] at h
      dsimp only at h
      unfold putColumn at h
      by_cases hone : nWriters = 1
      · rw [if_pos hone] at h
        obtain ⟨hresult, hcol⟩ := Prod.mk.inj h
        refine Prod.ext ?_ hcol
        cases hw : (writeImpl srt cast around col layout array sel).1 with
        | ok u => rfl
        | error e =>
            rw [hw] at hresult
            cases hresult
      · rw [if_neg hone] at h
        cases h

namespace FillsCells

variable [LeafValue β] (h : FillsCells col sel data n dims) (hnest : IsNestOf data n dims array)

include h

/-- The lists that the data are nested in are the elements of rows. -/
theorem nestSizes_eq :
    data.nestSizes = nestSizes col.columnDesc.dataType dims.reverse := by
  rw [NdArray.nestSizes, nestSizes, h.ownType.isComplex, h.shape,
    List.reverse_reverse]
  rfl

theorem flatLeaf_length : data.flatLeaf.length = n * data.nestSizes.prod :=
  NdArray.flatLeaf_length h.shape

include hnest

/-- There are values, and so they have a type. -/
theorem typed : data.Typed := by
  intro _ hempty
  have hprod : 0 < data.shape.prod := by
    rw [h.shape, List.prod_cons]
    exact Nat.mul_pos h.rows_pos
      (List.prod_pos fun d hd => (hnest.sizes d hd).1)
  have hwidth : 0 < data.dtype.width := by
    unfold ArrayDtype.width
    split <;> decide
  have hsize := data.size_eq
  rw [hempty, List.length_nil] at hsize
  exact absurd hsize.symm (Nat.mul_pos hwidth hprod).ne'

theorem length_eq : array.data.length = n := by
  rw [hnest.data_eq]
  exact fixedNest_length h.flatLeaf_length

theorem fullData : FullData col array sel := by
  refine ⟨h.length_eq hnest ▸ h.rows_pos,
    fun hspan => (h.length_eq hnest).trans (h.rows hspan), ?_, h.nonneg, ?_⟩
  · rw [hnest.data_eq]
    refine fixedNest_noEmptyList fun d hd => ?_
    rw [NdArray.nestSizes, h.shape] at hd
    rcases List.mem_append.mp hd with hd | hd
    · exact (hnest.sizes d hd).1
    · split at hd
      · cases List.mem_singleton.mp hd
        exact Nat.two_pos
      · cases hd
  · rw [hnest.data_eq, fixedNest_leafArray]
    intro hbool v hv
    exact h.kept hbool v (List.mem_of_mem_drop (List.mem_of_mem_take hv))

theorem putRequest : PutRequest col array sel := by
  refine ⟨?_, ?_, fun span hspan => (h.distinct span hspan).filter _⟩
  · rw [hnest.data_eq]
    exact fixedNest_unsliced rfl
  · rw [hnest.data_eq, fixedNest_leafArray]
    exact h.ownType.leafType

variable (hput : IsPut srt cast around col layout array sel rs p buffer col₁ col')

include hput

/-- The write works with the shape of the data. -/
theorem shapeData_eq : rs.shape = some (dims.reverse ++ [n])
    ∧ rs.rank = dims.length + 1 := by
  have hinfer := makeWrite_shape hput.planned.makeWrite
  rw [hnest.data_eq,
    getResultShapeData_fixedNest h.shape (h.typed hnest)
      h.ownType.isComplex] at hinfer
  cases hinfer
  exact ⟨rfl, by simp [ResultShapeData.rank]⟩

theorem nRows_eq : rs.nRows = n :=
  hput.length_eq.symm.trans (h.length_eq hnest)

theorem rowDims_eq (k : Nat) : rs.rowDims k = dims.reverse := by
  obtain ⟨hshape, hrank⟩ := h.shapeData_eq hnest hput
  have hlen : rs.rank - 1 = dims.reverse.length := by
    rw [hrank, List.length_reverse]
    rfl
  rw [ResultShapeData.rowDims, hshape, hlen]
  exact List.take_left

/-- After the write each selected row has a cell that the data fill. -/
theorem cell {k : Nat} (hk : k < n) : ∃ cell, cellOf col' sel k = some cell
    ∧ sel.clipped cell = dims.reverse := by
  have hrows := h.nRows_eq hnest hput
  obtain ⟨cell, hcell, -⟩ := hput.cell (h.fullData hnest) (hrows.symm ▸ hk)
  exact ⟨cell, hcell, hput.clipped_eq (fun k _ => h.rowDims_eq hnest hput k)
    (fun k hk => h.fill k (hrows ▸ hk)) (hrows.symm ▸ hk) hcell⟩

theorem selectedRows_eq : selectedRows sel col'.nrow = n :=
  (hput.selectedRows_eq (h.fullData hnest)).trans (h.nRows_eq hnest hput)

/-- As many elements are asked for as were written. -/
theorem requested_small :
    leafWidth col.columnDesc.dataType * requestedElements col' sel < 2 ^ 31 := by
  have hrequested : requestedElements col' sel = n * dims.prod := by
    unfold requestedElements
    rw [h.selectedRows_eq hnest hput,
      List.map_congr_left (g := fun _ => dims.prod), List.map_const',
      List.length_range, List.sum_replicate, smul_eq_mul]
    intro k hk
    obtain ⟨cell, hcell, hclip⟩ := h.cell hnest hput (List.mem_range.mp hk)
    rw [hcell, Option.getD_some, hclip, List.prod_reverse]
  have hwidth : leafWidth col.columnDesc.dataType = data.dtype.width := by
    rw [leafWidth, h.ownType.isComplex]
    rfl
  rw [hrequested, hwidth, ← List.prod_cons, ← h.shape, ← data.size_eq]
  exact h.small

end FillsCells

/-- An index of an element's leaf values is one of the element, and one of
its parts. -/
theorem exists_of_inBox_nestSizes {dtype : DataType} {dims : IPosition}
    {idx : List Nat} (h : InBox idx (nestSizes dtype dims)) :
    ∃ m, ∃ j : Fin (leafWidth dtype), InBox m dims
      ∧ idx = m.reverse ++ if dtype.isComplex then [(j : Nat)] else [] := by
  have hrev := List.forall₂_reverse_iff.mpr h
  rw [nestSizes_reverse] at hrev
  by_cases hc : dtype.isComplex = true
  · rw [if_pos hc] at hrev
    cases hidx : idx.reverse with
    | nil =>
        rw [hidx] at hrev
        cases hrev
    | cons last m =>
        rw [hidx] at hrev
        obtain ⟨hlast, hm⟩ := List.forall₂_cons.mp hrev
        have hwidth : leafWidth dtype = 2 := if_pos hc
        refine ⟨m, ⟨last, hwidth.symm ▸ hlast⟩, hm, ?_⟩
        rw [if_pos hc, ← List.reverse_cons, ← hidx, List.reverse_reverse]
  · rw [if_neg hc] at hrev
    refine ⟨idx.reverse, ⟨0, leafWidth_pos dtype⟩, hrev, ?_⟩
    rw [if_neg hc, List.reverse_reverse, List.append_nil]

/-- The text of values that come in blocks. -/
theorem totalText_blocks [LeafValue β] {values : List β} {width count : Nat}
    (h : values.length = width * count) :
    totalText values = ((List.range count).map fun i =>
      totalText ((values.drop (i * width)).take width)).sum := by
  conv_lhs => rw [← flatMap_blocks h]
  rw [totalText, List.map_flatMap, List.flatMap_def, List.sum_flatten,
    List.map_map]
  rfl

theorem ElementLayout.cast_textBytes [LeafValue β] {dtype dtype' : DataType}
    (h : dtype' = dtype) (layout : ElementLayout dtype α β) (x : α) :
    (layout.cast h).textBytes x = layout.textBytes x := by
  cases h
  rfl

/-- Where the data fill the cells they were written to, the text to read
back is theirs. -/
theorem IsPut.requestedText_eq [LeafValue β]
    (h : IsPut srt cast around col layout array sel rs p buffer col₁ col')
    (hdata : FullData col array sel) (hreq : PutRequest col array sel)
    (hsmall : rs.SmallRows)
    (hfill : ∀ k < rs.nRows, ∀ cell, cellOf col' sel k = some cell →
      sel.clipped cell = rs.rowDims k)
    (hdtype : col'.columnDesc.dataType = col.columnDesc.dataType) :
    requestedText (layout.cast hdtype) sel
      = totalText array.data.leafArray.slice := by
  have hrs := h.planned.consistent
  have hlength : array.data.leafArray.slice.length
      = leafWidth col.columnDesc.dataType * rs.nElements := by
    rw [← h.planned.leaves.1, h.planned.shape.leaves_length array.wellFormed hrs,
      h.planned.shape.dtype]
  have hscatters := h.scatters hreq hsmall.writeStrides
  rw [totalText_blocks hlength, ← hrs.boxes_tile, requestedText,
    h.selectedRows_eq hdata, List.map_flatMap, List.flatMap_def,
    List.sum_flatten, List.map_map]
  refine congrArg List.sum (List.map_congr_left fun k hk => ?_)
  have hk := List.mem_range.mp hk
  obtain ⟨cell, hcell, -⟩ := h.cell hdata hk
  rw [Function.comp_apply, List.map_map, hcell, Option.getD_some,
    hfill k hk cell hcell]
  refine congrArg List.sum (List.map_congr_left fun m hm => ?_)
  obtain ⟨x, hx⟩ := h.exists_elementAt hk (mem_box.mp hm)
  have hvalue := (hscatters.written k (by rw [h.length_eq]; exact hk)
    (hdata.row_nonneg k) m x hx (hdata.picks m)).2
  rw [hvalue, layout.cast_textBytes, ElementLayout.textBytes,
    Function.comp_apply]
  -- the parts of the element are its block
  refine congrArg totalText (List.ext_getElem? fun i => ?_)
  by_cases hi : i < leafWidth col.columnDesc.dataType
  · have hpart := ((h.elementAt_iff hk).mp hx).2 ⟨i, hi⟩
    rw [List.getElem?_map, List.getElem?_eq_getElem (by simpa using hi),
      List.getElem?_take_of_lt hi, List.getElem?_drop, Nat.mul_comm, hpart]
    simp
  · rw [List.getElem?_eq_none (by simpa using hi),
      List.getElem?_eq_none (by rw [List.length_take]; omega)]

/-- What is read back is the nest that was written. -/
theorem FillsCells.read_nest [LeafValue β] (h : FillsCells col sel data n dims)
    (hnest : IsNestOf data n dims array)
    (hput : IsPut srt cast around col layout array sel rs p buffer col₁ col')
    {hdtype : col'.columnDesc.dataType = col.columnDesc.dataType}
    {rs' : ResultShapeData} {rank : Nat} {back : ArrowArray β}
    {configured : Option String} {memory : Memory α}
    (hread : ResultShapeData.makeRead col' sel false = .ok rs')
    (hf : ReadFacts col' sel rs' rank)
    (hstrat : getConvertStrategy configured = .ok .fixed)
    (hmade : makeArray configured rs'
      ((layout.cast hdtype).values memory rs'.nElements) = .ok back.data)
    (helements : ∀ k < array.data.length, ∀ m x,
      layout.ElementAt array.data k m x → layout.ElementAt back.data k m x) :
    back.data = fixedNest data.flatLeaf n data.nestSizes := by
  have hrows : rs'.nRows = n := hf.nRows.trans (h.selectedRows_eq hnest hput)
  have hdims : rs'.rowDims 0 = dims.reverse := by
    obtain ⟨cell, hcell, hclip⟩ := h.cell hnest hput h.rows_pos
    rw [(hf.ofCell 0 (hrows.symm ▸ h.rows_pos) cell hcell).2, hclip]
  -- all rows are of one shape
  obtain ⟨shape, hfixed⟩ : ∃ shape, rs'.shape = some shape := by
    cases hs : rs'.shape with
    | some shape => exact ⟨shape, rfl⟩
    | none =>
        have hselected := h.selectedRows_eq hnest hput
        refine (@makeRead_varied _ _ _ _ hread hs
          (hselected.symm ▸ h.rows_pos) dims.reverse fun k hk => ?_).elim
        obtain ⟨cell, hcell, hclip⟩ := h.cell hnest hput (hselected ▸ hk)
        rw [clippedCell, hcell, Option.getD_some, hclip]
  have hvalues := (layout.cast hdtype).values_length memory rs'.nElements
  generalize (layout.cast hdtype).values memory rs'.nElements = values at *
  obtain ⟨arrowDtype, harrow, hback, hlength⟩ := makeArray_fixedNest
    hf.consistent hfixed hstrat (by rw [hvalues, hf.dtype])
    (fun d hd => (hnest.sizes d (by rwa [hdims, List.mem_reverse] at hd)).2) hmade
  rw [hf.dtype, hdtype, h.ownType.leafType] at harrow
  cases harrow
  rw [hf.dtype, hdtype, hdims, hrows, ← h.nestSizes_eq] at hback hlength
  -- so are its elements
  have hslice := @fixedNest_slice_eq _ data.flatLeaf
    (resultLeaf data.leafType values) n data.nestSizes h.flatLeaf_length
    (Nat.le_of_eq (Nat.zero_add _)) hlength (Nat.le_of_eq (Nat.zero_add _))
    fun i hi idx hidx => by
      rw [h.nestSizes_eq] at hidx
      obtain ⟨m, j, hbox, rfl⟩ := exists_of_inBox_nestSizes hidx
      have hi' : i < rs.nRows := (h.nRows_eq hnest hput).symm ▸ hi
      rw [← h.rowDims_eq hnest hput i] at hbox
      obtain ⟨x, hx⟩ := hput.exists_elementAt hi' hbox
      have hx' := helements i (by rw [h.length_eq hnest]; exact hi) m x hx
      rw [← hnest.data_eq, ← hback]
      exact (hx j).trans (hx' j).symm
  have heq : data.values = values := by
    have hall : data.flatLeaf.slice = data.values := List.take_length
    have hall' : (resultLeaf data.leafType values).slice = values :=
      List.take_length
    rw [← hall, hslice, hall']
  rw [hback, NdArray.flatLeaf, heq]
  rfl

end PutThenGet

/-- Two rows of two, put into an array of ints. -/
def intRows : NdArray Nat where
  dtype := .int32
  shape := [2, 2]
  values := [1, 2, 3, 4]
  size_eq := rfl
  native := true

end Arcae
