/-
Where the elements of a plan go: every position of the result, once.

`rowPlan` lists the elements of a row first dimension fastest, which is
how they lie in memory, and the rows follow each other; so the positions
of the plan count up from zero to the number of elements
(`plan_positions`).

A chunk puts its transfers at these positions, less its slip. The slip
of a chunk that has any transfer is zero exactly when each dimension in
which the chunk starts beyond zero has a stride below 2^31
(`DataChunk.Planned.slip_eq_zero`), as it always has where rows are
small (`DataChunk.Planned.slip_of_small`).
-/
import Arcae.Proofs.Partition
import Mathlib.Data.List.GetD

namespace Arcae

open FOrder

variable {sel : Selection} {rs : ResultShapeData}

-- ================================================= positions of the plan

/-- The memory indices of a product of indexed dimensions are the
box. -/
theorem indexed_sections_mem (idss : List Index) :
    (idss.map indexed).sections.map Transfer.mem
      = box (idss.map List.length) := by
  have hmap : (idss.map indexed).map (List.map Prod.snd)
      = (idss.map List.length).map List.range := by
    rw [List.map_map, List.map_map]
    exact List.map_congr_left fun ids _ => indexed_map_snd ids
  rw [box, ← hmap]
  exact (Sections.sections_map Prod.snd (idss.map indexed)).symm

/-- The rows of a plan, spelled out. -/
theorem rowPlan_eq (row : Nat) :
    rowPlan sel rs row = ((secondaryIds sel rs row).map indexed).sections.map
      fun t => t ++ [((rowIds sel rs).getD row 0, row)] := by
  rw [rowPlan, Sections.sections_append_singleton, List.flatMap_singleton]

/-- The elements of a row lie one after the other from its start. -/
theorem rowPlan_positions (hm : sel.Matches rs) (hrs : rs.Consistent)
    {row : Nat} (hrow : row < rs.nRows) :
    (rowPlan sel rs row).map (Transfer.position rs)
      = List.range' (rs.rowStart row) (rs.rowDims row).prod := by
  have hlens := hm.secondaryIds_length hrs (.inl hrow)
  rw [rowPlan_eq, List.map_map]
  calc ((secondaryIds sel rs row).map indexed).sections.map
          (Transfer.position rs ∘ fun t =>
            t ++ [((rowIds sel rs).getD row 0, row)])
      = (((secondaryIds sel rs row).map indexed).sections.map Transfer.mem).map
          (rs.position row) := by
        rw [List.map_map]
        refine List.map_congr_left fun t _ => ?_
        simp [Transfer.position]
    _ = ((box (rs.rowDims row)).map (flat (rs.rowDims row))).map
          (rs.rowStart row + ·) := by
        rw [indexed_sections_mem, hlens, List.map_map]
        rfl
    _ = List.range' (rs.rowStart row) (rs.rowDims row).prod := by
        rw [box_map_flat, List.range'_eq_map_range]

/-- A row starts where the one before ends. -/
theorem rowStart_succ (row : Nat) (hrow : row < rs.nRows) :
    rs.rowStart (row + 1) = rs.rowStart row + (rs.rowDims row).prod := by
  cases hs : rs.shape with
  | some shape =>
      simp only [ResultShapeData.rowStart, ResultShapeData.rowDims, hs]
      ring
  | none =>
      simp only [ResultShapeData.nRows, hs] at hrow
      simp only [ResultShapeData.rowStart, ResultShapeData.rowDims, hs,
        List.take_add_one, List.getElem?_eq_getElem hrow, Option.toList_some,
        List.map_append, List.map_singleton, List.sum_append,
        List.sum_singleton, List.getD_eq_getElem?_getD, Option.getD_some]

theorem rowStart_zero : rs.rowStart 0 = 0 := by
  cases hs : rs.shape <;> simp [ResultShapeData.rowStart, hs]

/-- The number of elements is where the row after the last would
start. -/
theorem ResultShapeData.Consistent.rowStart_nRows (h : rs.Consistent) :
    rs.rowStart rs.nRows = rs.nElements := by
  cases hs : rs.shape with
  | some shape =>
      have hshape := h.shape_eq hs 0
      have hne : shape ≠ [] := by
        rw [hshape]
        simp
      simp only [rowStart, nElements, hs, IPosition.product, if_neg hne]
      conv_rhs => rw [hshape, List.prod_append, List.prod_singleton]
      simp only [rowDims, hs]
  | none =>
      obtain ⟨hrank, hall⟩ := h.varying hs
      simp only [rowStart, nElements, nRows, hs, List.take_length]
      refine congrArg List.sum (List.map_congr_left fun s hmem => ?_)
      have hne : s ≠ [] :=
        List.ne_nil_of_length_pos (by have := hall s hmem; omega)
      rw [IPosition.product, if_neg hne]

/-- The rows lie one after the other. -/
theorem ResultShapeData.Consistent.rows_tile (h : rs.Consistent) :
    ((List.range rs.nRows).flatMap fun row =>
        List.range' (rs.rowStart row) (rs.rowDims row).prod)
      = List.range rs.nElements := by
  have key : ∀ n ≤ rs.nRows, ((List.range n).flatMap fun row =>
        List.range' (rs.rowStart row) (rs.rowDims row).prod)
      = List.range (rs.rowStart n) := by
    intro n
    induction n with
    | zero =>
        intro _
        rw [rowStart_zero]
        rfl
    | succ n ih =>
        intro hn
        rw [List.range_succ, List.flatMap_append, List.flatMap_singleton,
          ih (by omega), rowStart_succ n hn, List.range_eq_range',
          List.range_eq_range', ← List.range'_append]
        simp
  rw [key rs.nRows (Nat.le_refl _), h.rowStart_nRows]

/-- So do the multi-indices of the rows, each row in storage order. -/
theorem ResultShapeData.Consistent.boxes_tile (h : rs.Consistent) :
    ((List.range rs.nRows).flatMap fun row =>
        (box (rs.rowDims row)).map (rs.position row))
      = List.range rs.nElements := by
  rw [← h.rows_tile]
  refine List.flatMap_congr fun row _ => ?_
  have hposition : rs.position row
      = (rs.rowStart row + ·) ∘ flat (rs.rowDims row) := rfl
  rw [hposition, ← List.map_map, box_map_flat, List.range'_eq_map_range]

/-- The positions of the plan count up from zero to the number of
elements. -/
theorem plan_positions (hm : sel.Matches rs) (hrs : rs.Consistent) :
    (plan sel rs).map (Transfer.position rs) = List.range rs.nElements := by
  rw [plan, List.map_flatMap, ← hrs.rows_tile]
  refine List.flatMap_congr fun row hrow => ?_
  exact rowPlan_positions hm hrs (List.mem_range.mp hrow)

-- ================================================== transfers of the plan

/-- A transfer of the plan: its row, and a disk index for each of its
positions. -/
theorem mem_plan {t : Transfer} :
    t ∈ plan sel rs ↔ ∃ row < rs.nRows, ∃ t' : Transfer,
      t = t' ++ [((rowIds sel rs).getD row 0, row)]
        ∧ List.Forall₂ (fun p ids => p ∈ indexed ids) t'
            (secondaryIds sel rs row) := by
  simp only [plan, List.mem_flatMap, List.mem_range, rowPlan_eq,
    List.mem_map, List.mem_sections, List.forall₂_map_right_iff]
  constructor
  · intro hx
    obtain ⟨row, hrow, t', ht', rfl⟩ := hx
    exact ⟨row, hrow, t', rfl, ht'⟩
  · intro hx
    obtain ⟨row, hrow, t', rfl, ht'⟩ := hx
    exact ⟨row, hrow, t', ht', rfl⟩

/-- An indexed dimension, pair by pair. -/
theorem mem_indexed {ids : Index} {p : Int × Nat} :
    p ∈ indexed ids ↔ p.2 < ids.length ∧ p.1 = ids.getD p.2 0 := by
  rw [indexed_eq_map, List.mem_map]
  constructor
  · intro hx
    obtain ⟨i, hi, rfl⟩ := hx
    exact ⟨List.mem_range.mp hi, rfl⟩
  · intro hx
    obtain ⟨hlt, heq⟩ := hx
    exact ⟨p.2, List.mem_range.mpr hlt, by rw [← heq]⟩

/-- The index of a transfer of the plan lies in its row. -/
theorem mem_plan_inBox (hm : sel.Matches rs) (hrs : rs.Consistent)
    {t : Transfer} (ht : t ∈ plan sel rs) :
    t.row < rs.nRows ∧ InBox t.index (rs.rowDims t.row) := by
  obtain ⟨row, hrow, t', rfl, ht'⟩ := mem_plan.mp ht
  rw [Transfer.row_concat, Transfer.index_concat]
  refine ⟨hrow, ?_⟩
  rw [← hm.secondaryIds_length hrs (.inl hrow), Transfer.mem, InBox,
    List.forall₂_map_left_iff, List.forall₂_map_right_iff]
  exact ht'.imp fun p ids hp => (mem_indexed.mp hp).1

-- ============================================================== the slip

/-- Leading sizes of a row with an element multiply to no more than all
of them. -/
theorem prod_take_le {dims idx : List Nat} (h : InBox idx dims) (d : Nat) :
    (dims.take d).prod ≤ dims.prod := by
  have hpos : 0 < (dims.drop d).prod := by
    refine Nat.pos_of_ne_zero fun hzero => ?_
    have hmem := List.mem_of_mem_drop (List.prod_eq_zero_iff.mp hzero)
    have hlt : flat dims idx < dims.prod := flat_lt_prod h
    rw [List.prod_eq_zero hmem] at hlt
    exact Nat.not_lt_zero _ hlt
  calc (dims.take d).prod
      ≤ (dims.take d).prod * (dims.drop d).prod := Nat.le_mul_of_pos_right _ hpos
    _ = dims.prod := by rw [← List.prod_append, List.take_append_drop]

namespace DataChunk.Planned

variable {c : DataChunk}

/-- The spans of a planned chunk that has a transfer in a row. -/
theorem row_mem {t : Transfer} (ht : t ∈ c.transfers) {picks : SpanPairs}
    {row : SpanPair} (hspans : c.dimSpans = picks ++ [row]) :
    t.row ∈ row.mem := by
  rw [DataChunk.transfers, hspans] at ht
  obtain ⟨t', p, rfl, -, hp⟩ := mem_transfers_concat.mp ht
  rw [Transfer.row_concat]
  exact (List.of_mem_zip hp).2

theorem row_lt (h : c.Planned sel rs) {t : Transfer} (ht : t ∈ c.transfers) :
    t.row < rs.nRows := by
  obtain ⟨picks, row, hspans, -, -, hrows, -⟩ := h.spans
  exact hrows _ (row_mem ht hspans)

/-- A chunk with an element puts all of them right exactly when each
dimension that it starts beyond zero has a stride below 2^31; the rows
of a fixed result are such a dimension too. -/
theorem slip_eq_zero (h : c.Planned sel rs) (hrs : rs.Consistent)
    {t : Transfer} (ht : t ∈ c.transfers) {picks : SpanPairs} {row : SpanPair}
    (hspans : c.dimSpans = picks ++ [row]) :
    c.slip rs = 0
      ↔ (∀ d < rs.rank - 1, (picks.map minMem).getD d 0 = 0
            ∨ ((rs.rowDims t.row).take d).prod < 2 ^ 31)
        ∧ (rs.isFixed = true → minMem row = 0
            ∨ (rs.rowDims t.row).prod < 2 ^ 31) := by
  have hrank := hrs.rank_pos
  have hrow := row_lt h ht
  have hdims := hrs.rowDims_length (.inl hrow)
  have hmin : c.minMemIndex = picks.map minMem ++ [minMem row] := by
    rw [h.minMem_eq, hspans, List.map_append, List.map_singleton]
  have hpicks : (picks.map minMem).length = rs.rank - 1 := by
    have := h.rank
    rw [hspans, List.length_append, List.length_singleton] at this
    rw [List.length_map]
    omega
  unfold DataChunk.slip
  cases hs : rs.shape with
  | some shape =>
      have hfixed : rs.isFixed = true := by simp [ResultShapeData.isFixed, hs]
      have hsec : ∀ d < rs.rank - 1,
          ((picks.map minMem ++ [minMem row]).getD d 0 = 0
            ∨ ((rs.rowDims t.row ++ [rs.nRows]).take d).prod < 2 ^ 31)
          ↔ ((picks.map minMem).getD d 0 = 0
            ∨ ((rs.rowDims t.row).take d).prod < 2 ^ 31) := by
        intro d hd
        rw [List.getD_append _ _ _ _ (by omega),
          List.take_append_of_le_length (by omega)]
      have hlast : ((picks.map minMem ++ [minMem row]).getD (rs.rank - 1) 0 = 0
            ∨ ((rs.rowDims t.row ++ [rs.nRows]).take (rs.rank - 1)).prod < 2 ^ 31)
          ↔ (minMem row = 0 ∨ (rs.rowDims t.row).prod < 2 ^ 31) := by
        rw [List.getD_append_right _ _ _ _ (by omega), hpicks, Nat.sub_self,
          ← hdims, List.take_left, List.getD_cons_zero]
      simp only
      rw [slipFrom_eq_zero, hmin, hrs.shape_eq hs t.row, List.length_append,
        List.length_singleton, hdims]
      simp only [Nat.one_mul]
      constructor
      · intro hall
        exact ⟨fun d hd => (hsec d hd).mp (hall d (by omega)),
          fun _ => hlast.mp (hall _ (by omega))⟩
      · intro hx d hd
        obtain ⟨hall, hrow'⟩ := hx
        rcases Nat.lt_or_ge d (rs.rank - 1) with hlt | hge
        · exact (hsec d hlt).mpr (hall d hlt)
        · have hd' : d = rs.rank - 1 := by omega
          rw [hd']
          exact hlast.mpr (hrow' hfixed)
  | none =>
      have hfixed : rs.isFixed = false := by simp [ResultShapeData.isFixed, hs]
      -- the chunk has the one row of the transfer
      have hlast : t.row = (picks.map minMem ++ [minMem row]).getLastD 0 := by
        rw [← hmin]
        exact h.row_eq hs t ht
      simp only
      rw [hmin, List.dropLast_concat, ← hlast, slipFrom_eq_zero, hdims]
      simp only [Nat.one_mul, hfixed, Bool.false_eq_true, false_implies,
        and_true]

/-- Where rows are small, a chunk with an element puts all of them
right. -/
theorem slip_of_small (h : c.Planned sel rs) (hrs : rs.Consistent)
    (hm : sel.Matches rs) (hsmall : rs.SmallRows) {t : Transfer}
    (ht : t ∈ c.transfers) (hplan : t ∈ plan sel rs) : c.slip rs = 0 := by
  obtain ⟨picks, row, hspans, -⟩ := h.spans
  obtain ⟨hrow, hbox⟩ := mem_plan_inBox hm hrs hplan
  have hlt := hsmall t.row hrow
  refine (h.slip_eq_zero hrs ht hspans).mpr ⟨fun d _ => .inr ?_, fun _ => .inr hlt⟩
  exact Nat.lt_of_le_of_lt (prod_take_le hbox d) hlt

end DataChunk.Planned

end Arcae
