/-
Lists of fixed size over one leaf.

A result of a fixed shape and a numpy array become the same form of
Arrow array: one leaf, nested by some sizes in lists of fixed size
(`fixedNest`). `MakeArray` makes it of what was read, unless it is asked
for lists with offsets (`makeArray_fixedNest`).

The form is settled by its sizes and its elements: two such arrays that
agree element by element are over the same values
(`fixedNest_slice_eq`).
-/
import Arcae.Proofs.MakeArray
import Arcae.Proofs.Put

namespace Arcae

open FOrder Loops

variable {α β : Type} {leaf leaf' : LeafArray β} {n : Nat} {dims sizes : List Nat}

-- ============================================================ fixed nests

/-- `n` lists of fixed size over a leaf, nested by these sizes, outermost
first. -/
def fixedNest (leaf : LeafArray β) : Nat → List Nat → ArrayData β
  | _, [] => .leaf leaf
  | n, d :: dims =>
      .list ⟨.fixedSizeList d, 0, n, none⟩ (fixedNest leaf (n * d) dims)

theorem fixedNest_length (h : leaf.length = n * dims.prod) :
    (fixedNest leaf n dims).length = n := by
  cases dims with
  | nil =>
      show leaf.length = n
      rw [h]
      exact Nat.mul_one n
  | cons d dims => rfl

@[simp] theorem fixedNest_leafArray (leaf : LeafArray β) (n : Nat)
    (dims : List Nat) : (fixedNest leaf n dims).leafArray = leaf := by
  induction dims generalizing n with
  | nil => rfl
  | cons d dims ih => exact ih (n * d)

theorem fixedNest_wellFormed (h : leaf.length = n * dims.prod)
    (hleaf : leaf.offset + leaf.length ≤ leaf.values.length) :
    (fixedNest leaf n dims).WellFormed := by
  induction dims generalizing n with
  | nil => exact hleaf
  | cons d dims ih =>
      have hchild : leaf.length = n * d * dims.prod := by
        rw [h, List.prod_cons, Nat.mul_assoc]
      refine ⟨?_, ih hchild⟩
      show (0 + n) * d ≤ _
      rw [fixedNest_length hchild, Nat.zero_add]

theorem fixedNest_unsliced (h : leaf.offset = 0) :
    (fixedNest leaf n dims).Unsliced := by
  induction dims generalizing n with
  | nil => exact h
  | cons d dims ih => exact ⟨rfl, ih⟩

theorem fixedNest_noEmptyList (h : ∀ d ∈ dims, 0 < d) :
    (fixedNest leaf n dims).NoEmptyList := by
  induction dims generalizing n with
  | nil => trivial
  | cons d dims ih =>
      obtain ⟨hd, hdims⟩ := List.forall_mem_cons.mp h
      refine ⟨fun i _ => ?_, ih hdims⟩
      show 0 < (i + 1) * d - i * d
      rw [Nat.succ_mul, Nat.add_sub_cancel_left]
      exact hd

/-- All elements of a fixed nest are of the sizes of its lists. -/
theorem fixedNest_uniform (a b : Nat) :
    (fixedNest leaf n dims).Uniform a b dims := by
  induction dims generalizing n a b with
  | nil => rfl
  | cons d dims ih =>
      refine ⟨d, dims, rfl, fun i _ _ => ?_, ih _ _⟩
      show (i + 1) * d - i * d = d
      rw [Nat.succ_mul, Nat.add_sub_cancel_left]

theorem fixedNest_slot (i : Nat) :
    (fixedNest leaf n dims).slot i = i * dims.prod := by
  induction dims generalizing n i with
  | nil => exact (Nat.mul_one i).symm
  | cons d dims ih =>
      show (fixedNest leaf (n * d) dims).slot ((i + 0) * d) = _
      rw [ih, Nat.add_zero, List.prod_cons, Nat.mul_assoc]

/-- Nests of the same sizes with the same elements are over the same
values. -/
theorem fixedNest_slice_eq (h : leaf.length = n * dims.prod)
    (hleaf : leaf.offset + leaf.length ≤ leaf.values.length)
    (h' : leaf'.length = n * dims.prod)
    (hleaf' : leaf'.offset + leaf'.length ≤ leaf'.values.length)
    (heq : ∀ i < n, ∀ idx, InBox idx dims →
      (fixedNest leaf n dims).element i idx
        = (fixedNest leaf' n dims).element i idx) :
    leaf.slice = leaf'.slice := by
  -- a value is the element at the index of its position
  have hindex : ∀ q < n * dims.prod, q / dims.prod < n
      ∧ q % dims.prod < dims.reverse.prod
      ∧ InBox (unflat dims.reverse (q % dims.prod)).reverse dims := by
    intro q hq
    have hpos : 0 < dims.prod := Nat.pos_of_mul_pos_left (Nat.zero_lt_of_lt hq)
    have hmod : q % dims.prod < dims.reverse.prod := by
      rw [List.prod_reverse]
      exact Nat.mod_lt q hpos
    have hbox := List.forall₂_reverse_iff.mpr (unflat_inBox hmod)
    rw [List.reverse_reverse] at hbox
    exact ⟨Nat.div_lt_of_lt_mul (by rwa [Nat.mul_comm]), hmod, hbox⟩
  have hget : ∀ {leaf : LeafArray β}, leaf.length = n * dims.prod →
      leaf.offset + leaf.length ≤ leaf.values.length → ∀ q < n * dims.prod,
        leaf.slice[q]? = (fixedNest leaf n dims).element (q / dims.prod)
          (unflat dims.reverse (q % dims.prod)).reverse := by
    intro leaf h hleaf q hq
    obtain ⟨hi, hmod, hbox⟩ := hindex q hq
    rw [(fixedNest_uniform 0 n).element_eq (fixedNest_wellFormed h hleaf)
      (Nat.le_of_eq (fixedNest_length h).symm) (Nat.zero_le _) hi hbox,
      fixedNest_leafArray, fixedNest_slot, List.reverse_reverse,
      flat_unflat hmod, Nat.mul_comm, Nat.div_add_mod]
  have hlength : ∀ {leaf : LeafArray β}, leaf.length = n * dims.prod →
      leaf.offset + leaf.length ≤ leaf.values.length →
        leaf.slice.length = n * dims.prod := by
    intro leaf h hleaf
    have := ArrayData.slice_length (fixedNest_wellFormed h hleaf)
    rwa [fixedNest_leafArray, h] at this
  refine List.ext_getElem? fun q => ?_
  by_cases hq : q < n * dims.prod
  · obtain ⟨hi, -, hbox⟩ := hindex q hq
    rw [hget h hleaf q hq, hget h' hleaf' q hq]
    exact heq _ hi _ hbox
  · rw [List.getElem?_eq_none (by rw [hlength h hleaf]; omega),
      List.getElem?_eq_none (by rw [hlength h' hleaf']; omega)]

-- ================================================================= making

/-- One more level around a nest. -/
theorem fixedSizeListFromArrays_fixedNest {d : Nat} (hd : 0 < d)
    (h : leaf.length = n * (d :: dims).prod) :
    fixedSizeListFromArrays (fixedNest leaf (n * d) dims) d
      = .ok (fixedNest leaf n (d :: dims)) := by
  have hlen : (fixedNest leaf (n * d) dims).length = n * d :=
    fixedNest_length (by rw [h, List.prod_cons, Nat.mul_assoc])
  rw [fixedSizeListFromArrays_of_dvd hd (by rw [hlen, Nat.mul_mod_left]), hlen,
    Nat.mul_div_cancel _ hd]
  rfl

/-- Levels around a nest, from the inside. -/
theorem foldlM_fixedNest (hdims : ∀ d ∈ dims, 0 < d ∧ d < 2 ^ 31)
    (h : leaf.length = n * (dims ++ sizes).prod) :
    dims.reverse.foldlM nestFixed (fixedNest leaf (n * dims.prod) sizes)
      = .ok (fixedNest leaf n (dims ++ sizes)) := by
  induction dims generalizing n with
  | nil =>
      rw [List.prod_nil, Nat.mul_one]
      rfl
  | cons d dims ih =>
      obtain ⟨hd, hrest⟩ := List.forall_mem_cons.mp hdims
      have hinner : leaf.length = n * d * (dims ++ sizes).prod := by
        rw [h, List.cons_append, List.prod_cons, Nat.mul_assoc]
      rw [List.reverse_cons, List.foldlM_append, List.prod_cons,
        ← Nat.mul_assoc, ih hrest hinner, Result.ok_bind, List.foldlM_cons,
        nestFixed_of_lt hd.2]
      have hlevel := fixedSizeListFromArrays_fixedNest hd.1 h
      rw [List.append_eq] at hlevel
      rw [hlevel]
      rfl

/-- A size of zero is refused. -/
theorem pos_of_foldlM {elements data : ArrayData β} {dims : List Nat}
    (hsmall : ∀ d ∈ dims, d < 2 ^ 31)
    (h : dims.foldlM nestFixed elements = .ok data) : ∀ d ∈ dims, 0 < d := by
  induction dims generalizing elements with
  | nil =>
      intro d hd
      cases hd
  | cons d dims ih =>
      obtain ⟨hd, hdims⟩ := List.forall_mem_cons.mp hsmall
      obtain ⟨level, hlevel, hrest⟩ := foldlM_cons_ok.mp h
      rw [nestFixed_of_lt hd] at hlevel
      exact List.forall_mem_cons.mpr
        ⟨(fixedSizeListFromArrays_eq_ok hlevel).1, ih hdims hrest⟩

/-- The array made of a result of a fixed shape, unless lists are asked
for: all its rows, nested by the dimensions of a row. -/
theorem makeArray_fixedNest [LeafValue β] {rs : ResultShapeData}
    {shape : IPosition} {configured : Option String} {values : List β} {data : ArrayData β}
    (hrs : rs.Consistent) (hshape : rs.shape = some shape)
    (hstrat : getConvertStrategy configured = .ok .fixed)
    (hvalues : values.length = leafWidth rs.dtype * rs.nElements)
    (hsmall : ∀ d ∈ rs.rowDims 0, d < 2 ^ 31)
    (h : makeArray configured rs values = .ok data) :
    ∃ arrowDtype, arrowDataType rs.dtype = .ok arrowDtype
      ∧ data = fixedNest (resultLeaf arrowDtype values) rs.nRows
          (nestSizes rs.dtype (rs.rowDims 0))
      ∧ values.length
          = rs.nRows * (nestSizes rs.dtype (rs.rowDims 0)).prod := by
  unfold makeArray at h
  obtain ⟨arrowDtype, harrow, h⟩ := Result.bind_eq_ok.mp h
  obtain ⟨strat, hstrat', h⟩ := Result.bind_eq_ok.mp h
  cases hstrat.symm.trans hstrat'
  obtain ⟨elements, helements, h⟩ := Result.bind_eq_ok.mp h
  rw [hshape] at h
  dsimp only at h
  obtain ⟨ndim, hndim, h⟩ := Result.bind_eq_ok.mp h
  rw [hrs.consistentNDim] at hndim
  cases hndim
  have hdims : shape.take (rs.rank - 1) = rs.rowDims 0 := by
    rw [ResultShapeData.rowDims, hshape]
  rw [hdims] at h
  have hpos := pos_of_foldlM hsmall h
  have hcount : rs.nElements = rs.nRows * (rs.rowDims 0).prod := by
    have hall : rs.allRows = List.replicate rs.nRows (rs.rowDims 0) := by
      refine List.eq_replicate_iff.mpr ⟨by
        rw [ResultShapeData.allRows, List.length_map, List.length_range],
        fun dims hmem => ?_⟩
      obtain ⟨row, -, rfl⟩ := List.mem_map.mp hmem
      exact ResultShapeData.rowDims_fixed (by
        rw [ResultShapeData.isFixed, hshape]; rfl) row 0
    rw [← hrs.sum_prod, hall, List.map_replicate, List.sum_replicate, smul_eq_mul]
  have hleaf : (resultLeaf arrowDtype values).length
      = rs.nRows * (nestSizes rs.dtype (rs.rowDims 0)).prod := by
    show values.length = _
    rw [hvalues, hcount, nestSizes_prod]
    ring
  have hinner : elements = fixedNest (resultLeaf arrowDtype values) rs.nElements
      (nestSizes rs.dtype []) := by
    unfold makeElements at helements
    dsimp only at helements
    by_cases hstring : rs.dtype = .tpString
    · rw [if_pos hstring] at helements
      rw [hstring] at harrow ⊢
      cases harrow
      exact (makeStrings_eq_ok.mp helements).2
    · rw [if_neg hstring] at helements
      by_cases hcomplex : rs.dtype.isComplex = true
      · rw [if_pos hcomplex] at helements
        have hlen : values.length = 2 * rs.nElements := by
          rw [hvalues, leafWidth, if_pos hcomplex]
        rw [makePrimitiveArray, ← hlen] at helements
        have hnest : fixedNest (resultLeaf arrowDtype values)
            (rs.nElements * 2) [] = .leaf (resultLeaf arrowDtype values) := rfl
        have hlevel := @fixedSizeListFromArrays_fixedNest _
          (resultLeaf arrowDtype values) rs.nElements [] 2 Nat.two_pos (by
            show values.length = rs.nElements * (2 * 1)
            omega)
        rw [hnest] at hlevel
        rw [nestSizes, if_pos hcomplex]
        exact Except.ok.inj (helements.symm.trans hlevel)
      · rw [if_neg hcomplex] at helements
        have hlen : values.length = rs.nElements := by
          rw [hvalues, leafWidth, if_neg hcomplex, Nat.one_mul]
        rw [makePrimitiveArray, ← hlen] at helements
        rw [nestSizes, if_neg hcomplex]
        exact (Except.ok.inj helements).symm
  have hsizes : nestSizes rs.dtype (rs.rowDims 0)
      = (rs.rowDims 0).reverse ++ nestSizes rs.dtype [] := rfl
  have hfold := @foldlM_fixedNest _ (resultLeaf arrowDtype values) rs.nRows
    (rs.rowDims 0).reverse (nestSizes rs.dtype [])
    (fun d hd => ⟨hpos d (List.mem_reverse.mp hd),
      hsmall d (List.mem_reverse.mp hd)⟩) (by rw [← hsizes, hleaf])
  rw [List.reverse_reverse, List.prod_reverse, ← hcount, ← hinner, h] at hfold
  exact ⟨arrowDtype, harrow, hsizes ▸ Except.ok.inj hfold, hleaf⟩

end Arcae
