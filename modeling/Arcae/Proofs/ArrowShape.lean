/-
The shape inferred from an array, specified.

Whichever way a shape is found, it is the shape of the rows: row `k` of
the array is a nest of the sizes of row `k` of the shape, with one more
level of pairs under it for a complex column (`IsDataShape`). A fixed
shape is found by comparing all elements of each level, inside the rows
or not, and a shape that varies row by row inside the rows only; both
leave no null in any level.
-/
import Arcae.Proofs.Arrow
import Arcae.Proofs.Partition
import Arcae.Lib.Loops
import Mathlib.Algebra.Order.Group.Int

namespace Arcae

open Loops

variable {β : Type} {data : ArrayData β}

-- ============================================================== the walk

/-- Without an offset buffer all lists have one length. -/
theorem ListArray.size_of_isFixedSize {level : ListArray}
    (h : level.isFixedSize = true) (i j : Nat) : level.size i = level.size j := by
  unfold isFixedSize at h
  unfold size start
  split at h
  · rename_i size hlayout
    simp only [hlayout, ← Nat.sub_mul]
    congr 1
    omega
  · cases h

/-- All elements of a level have the size of its first. -/
theorem maybeUpdateShapeAndNdim_ok {level : ListArray} {walk walk' : ShapeWalk}
    (h : maybeUpdateShapeAndNdim level walk = .ok walk') :
    level.nullCount = 0 ∧ walk'.ndim = walk.ndim + 1
      ∧ (walk'.fixedShape = true → walk.fixedShape = true
        ∧ ∃ n, walk'.shape = walk.shape ++ [n]
          ∧ ∀ i < level.length, level.size i = n) := by
  unfold maybeUpdateShapeAndNdim at h
  split at h
  · cases h
  · rename_i hnull
    refine ⟨by omega, ?_⟩
    split at h
    · rename_i hvar
      cases h
      refine ⟨rfl, fun hfixed => ?_⟩
      simp [show walk.fixedShape = true from hfixed] at hvar
    · rename_i hfixed
      obtain ⟨dimSize, hdim, h⟩ := Result.bind_eq_ok.mp h
      obtain ⟨sizes, hsizes, h⟩ := Result.bind_eq_ok.mp h
      split at h
      · cases h
        exact ⟨rfl, fun hf => by cases hf⟩
      · rename_i hsame
        cases h
        refine ⟨rfl, fun _ => ⟨by simpa using hfixed, dimSize, rfl, ?_⟩⟩
        intro i hi
        have hdim' := ListArray.valueLength_ok hdim
        unfold comparedLengths at hsizes
        split at hsizes
        · -- no offsets to compare
          rename_i hfs
          rw [hdim']
          exact ListArray.size_of_isFixedSize hfs i 0
        · have hall := mapM_eq_ok.mp hsizes
          have hlen := hall.length_eq
          rw [List.length_range] at hlen
          have hread := List.Forall₂.get hall (i := i) (by simpa using hi)
            (by omega)
          simp only [List.get_eq_getElem, List.getElem_range] at hread
          rw [← ListArray.valueLength_ok hread]
          simp only [List.any_eq_true, not_exists, not_and, Bool.not_eq_true,
            bne_eq_false_iff_eq] at hsame
          exact (hsame _ (List.getElem_mem _)).symm

/-- The walk passes levels without nulls, and as long as the shape is
fixed its sizes are those of all elements. -/
theorem walkShape_ok (h : data.WellFormed) {walk walk' : ShapeWalk}
    (hwalk : walkShape data walk = .ok walk') :
    data.ListsNullFree ∧ data.leafArray.type.known = true
      ∧ walk'.ndim = walk.ndim + data.depth
      ∧ (walk'.fixedShape = true → walk.fixedShape = true
        ∧ ∃ sizes, walk'.shape = walk.shape ++ sizes
          ∧ data.Uniform 0 data.length sizes) := by
  induction data generalizing walk walk' with
  | leaf slots =>
      unfold walkShape at hwalk
      split at hwalk
      · rename_i hknown
        cases hwalk
        exact ⟨trivial, hknown, rfl, fun hf => ⟨hf, [], by simp, rfl⟩⟩
      · cases hwalk
  | list level child ih =>
      unfold walkShape at hwalk
      obtain ⟨walk₁, hstep, hwalk⟩ := Result.bind_eq_ok.mp hwalk
      obtain ⟨hnull, hndim, hfixed⟩ := maybeUpdateShapeAndNdim_ok hstep
      obtain ⟨hnf, hknown, hndim', hfixed'⟩ := ih h.2 hwalk
      refine ⟨⟨hnull, hnf⟩, hknown, ?_, fun hf => ?_⟩
      · rw [hndim', hndim, ArrayData.depth]
        omega
      · obtain ⟨hf₁, sizes, hshape', hu⟩ := hfixed' hf
        obtain ⟨hf₀, n, hshape, hall⟩ := hfixed hf₁
        refine ⟨hf₀, n :: sizes, ?_, n, sizes, rfl, fun i _ hi => hall i hi, ?_⟩
        · rw [hshape', hshape, List.append_assoc]
          rfl
        · exact hu.mono h.2 (Nat.zero_le _)
            (ListArray.start_mono h (Nat.zero_le _) (Nat.le_refl _))
            (ListArray.start_le h (Nat.le_refl _)) (Nat.le_refl _)

/-- The shape of a row is that of its ranges. -/
theorem rowShapeFrom_ok (h : data.WellFormed) {r start stop : Nat}
    {sizes : IPosition} (hlt : start ≤ stop) (hstop : stop ≤ data.length)
    (hrow : rowShapeFrom r data start stop = .ok sizes) :
    data.Uniform start stop sizes := by
  induction data generalizing start stop sizes with
  | leaf slots =>
      unfold rowShapeFrom at hrow
      split at hrow
      · exact (Except.ok.inj hrow).symm
      · cases hrow
  | list level child ih =>
      unfold rowShapeFrom at hrow
      split at hrow
      · cases hrow
      · obtain ⟨dimSize, hdim, hrow⟩ := Result.bind_eq_ok.mp hrow
        have hdim' := ListArray.valueLength_ok hdim
        obtain ⟨hall, first, hfirst, last, hlast, rest, hrest, heq⟩ :
            (∀ i, start ≤ i → i < stop → level.size i = dimSize)
            ∧ ∃ first, level.valueOffset start = .ok first
            ∧ ∃ last, level.valueOffset stop = .ok last
            ∧ ∃ rest, rowShapeFrom r child first last = .ok rest
              ∧ sizes = dimSize :: rest := by
          have htail : ∀ {x : Result IPosition}, x = .ok sizes →
              x = (level.valueOffset start >>= fun first =>
                level.valueOffset stop >>= fun last =>
                  rowShapeFrom r child first last >>= fun rest =>
                    pure (dimSize :: rest)) →
              ∃ first, level.valueOffset start = .ok first
                ∧ ∃ last, level.valueOffset stop = .ok last
                ∧ ∃ rest, rowShapeFrom r child first last = .ok rest
                  ∧ sizes = dimSize :: rest := by
            intro x hx hdef
            rw [hdef] at hx
            obtain ⟨first, hfirst, hx⟩ := Result.bind_eq_ok.mp hx
            obtain ⟨last, hlast, hx⟩ := Result.bind_eq_ok.mp hx
            obtain ⟨rest, hrest, hx⟩ := Result.bind_eq_ok.mp hx
            exact ⟨first, hfirst, last, hlast, rest, hrest,
              (Except.ok.inj hx).symm⟩
          split at hrow
          · obtain ⟨u, hsame, hrow⟩ := Result.bind_eq_ok.mp hrow
            refine ⟨fun i hi hi' => ?_, htail hrow rfl⟩
            rcases Nat.eq_or_lt_of_le hi with rfl | hi
            · exact hdim'.symm
            · have hcheck := forM_eq_ok.mp hsame i
                (List.mem_range'_1.mpr ⟨hi, by omega⟩)
              obtain ⟨size, hsize, hcheck⟩ := Result.bind_eq_ok.mp hcheck
              split at hcheck
              · cases hcheck
              · rename_i hne
                rw [← ListArray.valueLength_ok hsize]
                simpa using Eq.symm (Decidable.not_not.mp hne)
          · rename_i hfs
            rw [Bool.not_eq_true', Bool.not_eq_false] at hfs
            refine ⟨fun i _ _ => ?_, htail hrow rfl⟩
            rw [hdim']
            exact ListArray.size_of_isFixedSize hfs i start
        rw [ListArray.valueOffset_ok hfirst, ListArray.valueOffset_ok hlast]
          at hrest
        refine ⟨dimSize, rest, heq, hall, ih h.2
          (ListArray.start_mono h hlt hstop) (ListArray.start_le h hstop) hrest⟩

theorem ArrayData.Uniform.length_eq {start stop : Nat} {sizes : IPosition}
    (h : data.Uniform start stop sizes) : sizes.length = data.depth := by
  induction data generalizing start stop sizes with
  | leaf slots => rw [h]; rfl
  | list level child ih =>
      obtain ⟨n, rest, rfl, -, hrest⟩ := h
      rw [List.length_cons, ih hrest, ArrayData.depth]

-- ============================================================= the shape

/-- The sizes of the nest an element of a column's data is, outermost
first: those of its shape, and the pair of a complex value. -/
def nestSizes (dtype : DataType) (dims : IPosition) : IPosition :=
  dims.reverse ++ if dtype.isComplex then [2] else []

/-- The sizes of a nest in FORTRAN order: the pair comes first. -/
theorem nestSizes_reverse (dtype : DataType) (dims : IPosition) :
    (nestSizes dtype dims).reverse
      = (if dtype.isComplex then [2] else []) ++ dims := by
  rw [nestSizes, List.reverse_append, List.reverse_reverse]
  split <;> rfl

theorem nestSizes_prod (dtype : DataType) (dims : IPosition) :
    (nestSizes dtype dims).prod = leafWidth dtype * dims.prod := by
  unfold nestSizes leafWidth
  split
  · rw [List.prod_append, List.prod_reverse, List.prod_singleton, Nat.mul_comm]
  · rw [List.append_nil, List.prod_reverse, Nat.one_mul]

/-- The shape inferred from data: each row of the data is a nest of the
sizes of that row of the shape. -/
structure IsDataShape (columnDesc : ColumnDesc) (data : ArrayData β)
    (rs : ResultShapeData) : Prop where
  columnName : rs.columnName = columnDesc.name
  dtype : rs.dtype = columnDesc.dataType
  cellExtents : rs.cellExtents = none
  nullFree : data.ListsNullFree
  known : data.leafArray.type.known = true
  /-- A pair alone has no rows. -/
  fixed : ∀ shape, rs.shape = some shape → rs.ndim = shape.length
    ∧ (shape = [] ∨ ∃ dims, shape = dims ++ [data.length]
      ∧ data.Uniform 0 data.length (nestSizes rs.dtype dims))
  varying : rs.shape = none → rs.getRowShapes.length = data.length
    ∧ ∀ k (hk : k < rs.getRowShapes.length),
        rs.ndim = rs.getRowShapes[k].length + 1
        ∧ data.Uniform k (k + 1) (nestSizes rs.dtype rs.getRowShapes[k])

theorem dropPair_ok {name : String} {shape rest : IPosition}
    (h : dropPair name shape = .ok rest) : shape = 2 :: rest := by
  unfold dropPair at h
  split at h
  · cases h
    rfl
  · cases h

/-- What is inferred before pairs are dropped. -/
theorem getArrowResultShapeData_ok (h : data.WellFormed)
    {columnDesc : ColumnDesc} {rs : ResultShapeData}
    (hrs : getArrowResultShapeData columnDesc data = .ok rs) :
    rs.columnName = columnDesc.name ∧ rs.dtype = columnDesc.dataType
      ∧ rs.cellExtents = none ∧ data.ListsNullFree
      ∧ data.leafArray.type.known = true ∧ rs.ndim = data.depth + 1
      ∧ (∀ shape, rs.shape = some shape → ∃ sizes,
          shape = sizes.reverse ++ [data.length]
            ∧ data.Uniform 0 data.length sizes)
      ∧ (rs.shape = none → List.Forall₂
          (fun k shape => data.Uniform k (k + 1) shape.reverse)
          (List.range data.length) rs.getRowShapes) := by
  unfold getArrowResultShapeData at hrs
  obtain ⟨walk, hwalk, hrs⟩ := Result.bind_eq_ok.mp hrs
  obtain ⟨hnull, hknown, hndim, hfixed⟩ := walkShape_ok h hwalk
  split at hrs
  · rename_i hf
    cases hrs
    refine ⟨rfl, rfl, rfl, hnull, hknown, by dsimp only at hndim ⊢; omega, ?_,
      (fun hs => by cases hs)⟩
    intro shape hof
    cases hof
    obtain ⟨-, sizes, hshape, hu⟩ := hfixed hf
    refine ⟨sizes, ?_, hu⟩
    rw [hshape, List.reverse_append]
    rfl
  · obtain ⟨shapes, hshapes, hrs⟩ := Result.bind_eq_ok.mp hrs
    cases hrs
    refine ⟨rfl, rfl, rfl, hnull, hknown, by dsimp only at hndim ⊢; omega,
      (fun shape hs => by cases hs), fun _ => ?_⟩
    have hall := mapM_eq_ok.mp hshapes
    show List.Forall₂ _ _ (shapes.map List.reverse)
    rw [List.forall₂_map_right_iff]
    refine List.forall₂_iff_get.mpr ⟨hall.length_eq, fun i h₁ h₂ => ?_⟩
    have hi : i < data.length := by simpa using h₁
    have hget := List.Forall₂.get hall h₁ h₂
    simp only [List.get_eq_getElem, List.getElem_range] at hget ⊢
    rw [List.reverse_reverse]
    exact rowShapeFrom_ok h (Nat.le_add_right i 1) hi hget

/-- The inferred shape is the shape of the data. -/
theorem getResultShapeData_ok (h : data.WellFormed) {columnDesc : ColumnDesc}
    {rs : ResultShapeData} (hrs : getResultShapeData columnDesc data = .ok rs) :
    IsDataShape columnDesc data rs := by
  unfold getResultShapeData at hrs
  obtain ⟨rs₀, hrs₀, hrs⟩ := Result.bind_eq_ok.mp hrs
  obtain ⟨hname, hdtype, hext, hnull, hknown, hndim, hfixed, hvarying⟩ :=
    getArrowResultShapeData_ok h hrs₀
  split at hrs
  · -- plain values
    rename_i hplain
    have hplain : rs₀.dtype.isComplex = false := by simpa using hplain
    cases hrs
    refine ⟨hname, hdtype, hext, hnull, hknown, fun shape hs => ?_,
      fun hs => ?_⟩
    · obtain ⟨sizes, hshape, hu⟩ := hfixed shape hs
      refine ⟨?_, .inr ⟨sizes.reverse, hshape, ?_⟩⟩
      · rw [hndim, hshape, List.length_append, List.length_reverse, hu.length_eq]
        rfl
      · simpa [nestSizes, hplain] using hu
    · have hall := hvarying hs
      refine ⟨by simpa using hall.length_eq.symm, fun k hk => ?_⟩
      have hk' : k < data.length := by
        have := hall.length_eq
        rw [List.length_range] at this
        omega
      have hget := List.Forall₂.get hall (by simpa using hk') hk
      simp only [List.get_eq_getElem, List.getElem_range] at hget
      refine ⟨?_, by simpa [nestSizes, hplain] using hget⟩
      rw [hndim, ← hget.length_eq, List.length_reverse]
  · -- pairs
    rename_i hcomplex
    have hcomplex : rs₀.dtype.isComplex = true := by simpa using hcomplex
    have hnest : ∀ dims : IPosition,
        nestSizes rs₀.dtype dims = (2 :: dims).reverse := by
      intro dims
      rw [nestSizes, hcomplex, if_pos rfl, List.reverse_cons]
    split at hrs
    · rename_i shape hs
      obtain ⟨rest, hrest, hrs⟩ := Result.bind_eq_ok.mp hrs
      cases hrs
      have hpair := dropPair_ok hrest
      obtain ⟨sizes, hshape, hu⟩ := hfixed shape hs
      refine ⟨hname, hdtype, hext, hnull, hknown, fun shape' hs' => ?_,
        fun hs' => by cases hs'⟩
      cases hs'
      refine ⟨rfl, ?_⟩
      rw [hpair] at hshape
      cases hsizes : sizes.reverse with
      | nil =>
          rw [hsizes, List.nil_append] at hshape
          exact .inl (List.cons.inj hshape).2
      | cons n dims =>
          rw [hsizes, List.cons_append] at hshape
          obtain ⟨rfl, hrest'⟩ := List.cons.inj hshape
          refine .inr ⟨dims, hrest', ?_⟩
          show data.Uniform 0 data.length (nestSizes rs₀.dtype dims)
          rw [hnest, ← hsizes, List.reverse_reverse]
          exact hu
    · rename_i hs
      obtain ⟨shapes, hshapes, hrs⟩ := Result.bind_eq_ok.mp hrs
      obtain ⟨ndim, hn, hrs⟩ := Result.bind_eq_ok.mp hrs
      cases hrs
      have hn' : (ndim : Int) = rs₀.ndim := by
        unfold ResultShapeData.consistentNDim at hn
        split at hn
        · cases hn
          omega
        · cases hn
      have hall := hvarying hs
      have hpairs := mapM_eq_ok.mp hshapes
      have hlen₁ := hall.length_eq
      have hlen₂ := hpairs.length_eq
      rw [List.length_range] at hlen₁
      refine ⟨hname, hdtype, hext, hnull, hknown, fun shape' hs' => ?_,
        fun _ => ⟨by show shapes.length = _; omega, fun k hk => ?_⟩⟩
      · exact absurd (hs.symm.trans hs') (by simp)
      · have hk : k < shapes.length := hk
        have hget := List.Forall₂.get hall (by simp; omega)
          (by omega : k < rs₀.getRowShapes.length)
        have hpair := dropPair_ok (List.Forall₂.get hpairs
          (by omega : k < rs₀.getRowShapes.length) hk)
        simp only [List.get_eq_getElem, List.getElem_range] at hget hpair
        rw [hpair] at hget
        have hlen := hget.length_eq
        rw [List.length_reverse, List.length_cons] at hlen
        show ndim - (1 : Int) = shapes[k].length + 1 ∧ _
        refine ⟨by omega, ?_⟩
        show data.Uniform k (k + 1) (nestSizes rs₀.dtype shapes[k])
        rw [hnest]
        exact hget

-- ============================================================= as a plan

variable {desc : ColumnDesc} {sel : Selection} {rs : ResultShapeData}

/-- Data of rank two or more has one rank, and so does data of rows
alone. -/
theorem IsDataShape.consistent {data : ArrayData β}
    (h : IsDataShape desc data rs) (hne : rs.shape ≠ some [])
    (hrank : rs.shape = none → 2 ≤ rs.rank) : rs.Consistent where
  ndim_pos := by
    cases hs : rs.shape with
    | some shape =>
        have hpos : 0 < shape.length :=
          List.length_pos_of_ne_nil fun hnil => hne (hnil ▸ hs)
        have := (h.fixed shape hs).1
        omega
    | none =>
        have := hrank hs
        unfold ResultShapeData.rank at this
        omega
  fixed := by
    intro shape hs
    rw [ResultShapeData.rank, (h.fixed shape hs).1]
    rfl
  varying := by
    intro hs
    refine ⟨hrank hs, fun s hmem => ?_⟩
    obtain ⟨k, hk, rfl⟩ := List.mem_iff_getElem.mp hmem
    have := ((h.varying hs).2 k hk).1
    rw [ResultShapeData.rank]
    omega
  extents := by
    intro es hes
    rw [h.cellExtents] at hes
    cases hes

theorem IsDataShape.consistent_of_rank {data : ArrayData β}
    (h : IsDataShape desc data rs) (hrank : 2 ≤ rs.rank) : rs.Consistent := by
  refine h.consistent (fun hs => ?_) fun _ => hrank
  have hndim := (h.fixed [] hs).1
  rw [ResultShapeData.rank, hndim] at hrank
  exact absurd hrank (by decide)

theorem IsDataShape.consistent_of_make {data : ArrayData β} {srt : StdSort}
    {opt : RowSplitOptions} {p : DataPartition} (h : IsDataShape desc data rs)
    (hp : DataPartition.make srt sel rs opt = .ok p) : rs.Consistent := by
  refine h.consistent (shape_ne_nil_of_make hp) fun hs => ?_
  obtain ⟨hlen, hrows⟩ := h.varying hs
  have hne := rowShapes_ne_nil_of_make hp hs
  have hpos : 0 < rs.getRowShapes.length := by
    have := nRows_pos_of_make hp hs
    rwa [ResultShapeData.nRows, hs] at this
  have hndim := (hrows 0 hpos).1
  have := List.length_pos_of_ne_nil (hne _ (List.getElem_mem hpos))
  rw [ResultShapeData.rank]
  omega

end Arcae
