/-
`MakeRead`, specified.

Clipping a cell succeeds exactly when the selection fits it, and gives
the clipped shape (`clip_outcome`). The loop over the rows of a variably
shaped column keeps a summary of the clipped shapes so far: one shape as
long as they agree, all of them once they do not (`summary`); the cache
of the last shape only saves work. So `MakeRead` succeeds exactly when
every row has a cell and the selection fits them all, and then the shape
of each row of the result is that of its cell, clipped
(`makeRead_outcome`).
-/
import Arcae.Spec.Request
import Arcae.Proofs.Partition

namespace Arcae

open FOrder Loops

variable {α : Type} {sel : Selection}

-- =============================================================== clipping

/-- The largest index of a span bounds the others, and is one of
them. -/
theorem maxIndex_spec {ids : Index} (h : ids ≠ []) :
    maxIndex ids ∈ ids ∧ ∀ i ∈ ids, i ≤ maxIndex ids := by
  cases ids with
  | nil => exact absurd rfl h
  | cons i is =>
      have key : ∀ (is : Index) (i : Int), is.foldl max i ∈ i :: is
          ∧ ∀ j ∈ i :: is, j ≤ is.foldl max i := by
        intro is
        induction is with
        | nil => intro i; simp
        | cons j is ih =>
            intro i
            obtain ⟨hmem, hall⟩ := ih (max i j)
            rw [List.foldl_cons]
            refine ⟨?_, fun k hk => ?_⟩
            · rcases List.mem_cons.mp hmem with hm | hm
              · rw [hm]
                rcases Int.le_total i j with hij | hij
                · rw [Int.max_eq_right hij]
                  exact List.mem_cons_of_mem _ List.mem_cons_self
                · rw [Int.max_eq_left hij]
                  exact List.mem_cons_self
              · exact List.mem_cons_of_mem _ (List.mem_cons_of_mem _ hm)
            · have hmax := hall (max i j) List.mem_cons_self
              rcases List.mem_cons.mp hk with rfl | hk
              · exact Int.le_trans (Int.le_max_left k j) hmax
              · rcases List.mem_cons.mp hk with rfl | hk
                · exact Int.le_trans (Int.le_max_right i k) hmax
                · exact hall k (List.mem_cons_of_mem _ hk)
      exact key is i

/-- The largest index lies within a bound exactly when they all do. -/
theorem maxIndex_lt {ids : Index} (h : ids ≠ []) {n : Int} :
    maxIndex ids < n ↔ ∀ i ∈ ids, i < n := by
  obtain ⟨hmem, hall⟩ := maxIndex_spec h
  exact ⟨fun hlt i hi => Int.lt_of_le_of_lt (hall i hi) hlt,
    fun hlt => hlt _ hmem⟩

/-- The cell with its first `d` dimensions clipped. -/
def clippedTo (sel : Selection) (shape : IPosition) (d : Nat) : IPosition :=
  (sel.clipped shape).take d ++ shape.drop d

theorem clippedTo_getD {shape : IPosition} {d : Nat} (hd : d < shape.length) :
    (clippedTo sel shape d).getD d 0 = shape.getD d 0 := by
  have hlen : ((sel.clipped shape).take d).length = d := by
    rw [List.length_take, Selection.clipped_length]
    omega
  rw [clippedTo, List.getD_append_right _ _ _ _ (by omega), hlen,
    Nat.sub_self, List.drop_eq_getElem_cons hd, List.getD_cons_zero,
    List.getD_eq_getElem _ _ hd]

/-- Clipping one more dimension sets its size. -/
theorem clippedTo_succ {shape : IPosition} {d : Nat} (hd : d < shape.length) :
    clippedTo sel shape (d + 1) = (clippedTo sel shape d).set d
      (match sel.maybeFSpan d (shape.length + 1) with
        | some ids => ids.length
        | none => shape.getD d 0) := by
  have hlen : ((sel.clipped shape).take d).length = d := by
    rw [List.length_take, Selection.clipped_length]
    omega
  rw [clippedTo, clippedTo, List.take_add_one, sel.clipped_getElem? hd,
    List.set_append_right _ _ (by omega), hlen, Nat.sub_self,
    List.drop_eq_getElem_cons hd, List.set_cons_zero, List.append_assoc]
  rfl

theorem clipStep_outcome (desc : ColumnDesc) {shape : IPosition} {d : Nat}
    (hd : d < shape.length) :
    Outcome (clipStep desc sel shape.length (clippedTo sel shape d) d)
      (∀ ids, sel.maybeFSpan d (shape.length + 1) = some ids →
        ∀ i ∈ ids, i < (shape.getD d 0 : Int))
      (fun s => s = clippedTo sel shape (d + 1))
      (fun e => ∃ msg, e = .indexError msg) := by
  have hget := @clippedTo_getD sel _ _ hd
  rw [clippedTo_succ hd]
  unfold clipStep selectedDim
  cases hsel : sel.maybeFSpan d (shape.length + 1) with
  | none =>
      refine .inl ⟨by simp, _, rfl, ?_⟩
      have hdlt : d < (clippedTo sel shape d).length := by
        rw [clippedTo, List.length_append, List.length_take, List.length_drop,
          Selection.clipped_length]
        omega
      dsimp only
      rw [← hget, List.getD_eq_getElem _ _ hdlt, List.set_getElem_self]
  | some ids =>
      have hne := Selection.maybeFSpan_ne_nil hsel
      simp only [Option.map_some]
      rw [hget]
      split
      · rename_i hle
        refine .inr ⟨fun hall => ?_, _, rfl, _, rfl⟩
        have := (maxIndex_lt hne).mpr (hall ids rfl)
        omega
      · refine .inl ⟨fun ids' hids' => ?_, _, rfl, rfl⟩
        cases hids'
        exact (maxIndex_lt hne).mp (by omega)

/-- Clipping succeeds exactly when the selection fits the cell. -/
theorem clip_outcome (desc : ColumnDesc) (shape : IPosition) :
    Outcome (clip desc sel shape) (sel.Fits shape)
      (fun clipped => clipped = sel.clipped shape)
      (fun e => ∃ msg, e = .indexError msg) := by
  unfold clip
  split
  · -- no secondary dimension is selected
    rename_i hsize
    have hnone : ∀ d < shape.length,
        sel.maybeFSpan d (shape.length + 1) = none :=
      fun d hd => Selection.maybeFSpan_secondary_of_size hsize hd
    refine .inl ⟨fun d hd ids hids => ?_, shape, rfl, ?_⟩
    · rw [hnone d hd] at hids
      cases hids
    · refine List.ext_getElem? fun d => ?_
      rcases Nat.lt_or_ge d shape.length with hd | hd
      · rw [sel.clipped_getElem? hd, hnone d hd, List.getElem?_eq_getElem hd,
          List.getD_eq_getElem _ _ hd]
      · rw [List.getElem?_eq_none hd, List.getElem?_eq_none (by simpa using hd)]
  · have hloop := Outcome.foldlM_range (n := shape.length)
      (P := fun d s => s = clippedTo sel shape d) (s := shape)
      (fun d s hd hs => hs ▸ clipStep_outcome desc hd)
      (by simp [clippedTo])
    refine hloop.imp Iff.rfl (fun s hs => ?_) fun _ he => he
    rw [hs, clippedTo, List.drop_length, List.append_nil,
      List.take_of_length_le (by simp)]

-- ======================================================= rows of a column

/-- What is recorded of the shapes of the rows so far, none of them
missing. -/
def summary : List IPosition → RowShapeData
  | [] => ⟨none, [], 0⟩
  | shape :: shapes =>
      if ∀ s ∈ shapes, s = shape then ⟨some shape, [], 0⟩
      else ⟨none, shape :: shapes, 0⟩

theorem summary_missingRows (l : List IPosition) : (summary l).missingRows = 0 := by
  cases l with
  | nil => rfl
  | cons shape shapes =>
      rw [summary]
      split <;> rfl

/-- A common shape is the shape of every row, of which there is one. -/
theorem summary_common {l : List IPosition} {common : IPosition}
    (h : (summary l).commonShape = some common) :
    l ≠ [] ∧ ∀ s ∈ l, s = common := by
  cases l with
  | nil => cases h
  | cons first shapes =>
      rw [summary] at h
      split at h
      · rename_i hall
        cases h
        exact ⟨List.cons_ne_nil _ _,
          fun s hs => (List.mem_cons.mp hs).elim id (hall s)⟩
      · cases h

/-- Without a common shape, all shapes are kept. -/
theorem summary_shapes {l : List IPosition}
    (h : (summary l).commonShape = none) : (summary l).shapes = l := by
  cases l with
  | nil => rfl
  | cons first shapes =>
      rw [summary] at h ⊢
      split at h
      · cases h
      · rename_i hall
        rw [if_neg hall]

/-- Recording a shape adds it to the summary. -/
theorem addShape_summary {l : List IPosition} {shape : IPosition}
    (hne : shape ≠ []) :
    addShape l.length shape (summary l) = summary (l ++ [shape]) := by
  have hmissing : isDegenerateShape shape = false := by
    simpa [isDegenerateShape] using hne
  cases l with
  | nil => simp [addShape, summary, hmissing]
  | cons first shapes =>
      unfold addShape
      simp only [hmissing, summary_missingRows]
      by_cases hall : ∀ s ∈ shapes, s = first
      · -- one shape so far
        have hrep : List.replicate (first :: shapes).length first
            = first :: shapes := by
          refine (List.eq_replicate_iff.mpr ⟨rfl, ?_⟩).symm
          exact fun s hs => (List.mem_cons.mp hs).elim id (hall s)
        have hsum : summary (first :: shapes) = ⟨some first, [], 0⟩ := if_pos hall
        by_cases hsame : shape = first
        · have hall' : ∀ s ∈ shapes ++ [shape], s = first := by
            intro s hs
            rcases List.mem_append.mp hs with hs | hs
            · exact hall s hs
            · rw [List.mem_singleton.mp hs, hsame]
          rw [hsum, List.cons_append, summary, if_pos hall']
          simp [hsame]
        · have hall' : ¬ ∀ s ∈ shapes ++ [shape], s = first := by
            intro h
            exact hsame (h shape (by simp))
          have hsame' : ¬ first = shape := fun h => hsame h.symm
          rw [hsum, List.cons_append, summary, if_neg hall']
          simp only [List.isEmpty_nil, if_true, Bool.not_false, Bool.true_and,
            Option.isNone_some, Bool.false_eq_true, if_false, Option.getD_some,
            hrep, List.cons_append, Nat.add_zero]
          simp [hsame']
      · have hall' : ¬ ∀ s ∈ shapes ++ [shape], s = first := by
          intro h
          exact hall fun s hs => h s (List.mem_append_left _ hs)
        have hsum : summary (first :: shapes) = ⟨none, first :: shapes, 0⟩ :=
          if_neg hall
        rw [hsum, List.cons_append, summary, if_neg hall']
        rfl

/-- Recording the shape of the last row once more. -/
theorem summary_again {l : List IPosition} {shape : IPosition}
    (hlast : l.getLast? = some shape) :
    (if (summary l).shapes.isEmpty then summary l
      else { summary l with shapes := (summary l).shapes ++ [shape] })
      = summary (l ++ [shape]) := by
  cases l with
  | nil => cases hlast
  | cons first shapes =>
      by_cases hall : ∀ s ∈ shapes, s = first
      · have hsame : shape = first := by
          have hmem := List.mem_of_getLast? hlast
          exact (List.mem_cons.mp hmem).elim id (hall shape)
        have hall' : ∀ s ∈ shapes ++ [shape], s = first := by
          intro s hs
          rcases List.mem_append.mp hs with hs | hs
          · exact hall s hs
          · rw [List.mem_singleton.mp hs, hsame]
        rw [List.cons_append, summary, summary, if_pos hall, if_pos hall']
        rfl
      · have hall' : ¬ ∀ s ∈ shapes ++ [shape], s = first := by
          intro h
          exact hall fun s hs => h s (List.mem_append_left _ hs)
        rw [List.cons_append, summary, summary, if_neg hall, if_neg hall']
        rfl

section Rows

variable (col : TableColumn α) (sel : Selection)

/-- A row of the result has a cell, and the selection fits it. -/
def RowFits (i : Nat) : Prop :=
  ∃ shape, cellOf col sel i = some shape ∧ sel.Fits shape

/-- The shape of a row of the result. -/
def clippedCell (i : Nat) : IPosition :=
  sel.clipped ((cellOf col sel i).getD [])

variable {col sel} in
/-- A cell of a variably shaped column has an axis, clipped or not. -/
theorem RowFits.clippedCell_ne_nil {i : Nat} (h : RowFits col sel i)
    (hvar : col.columnDesc.fixedShape = none) : clippedCell col sel i ≠ [] := by
  obtain ⟨shape, hc, -⟩ := h
  have hne := col.cell_rank _ _ hvar (cellOf_lt hc).2.2
  rw [clippedCell, hc, Option.getD_some]
  refine List.ne_nil_of_length_pos ?_
  rw [Selection.clipped_length]
  exact List.length_pos_iff.mpr hne

/-- Before turn `i` of the loop of `MakeRowData`: the shapes of the rows
so far are summarised, and the cached shape is the last row's. -/
structure RowDataInv (i : Nat) (st : RowDataState) : Prop where
  result : st.result = summary ((List.range i).map (clippedCell col sel))
  cached : ∀ shape, st.lastShape = some shape → sel.Fits shape
    ∧ st.lastClipped = sel.clipped shape
    ∧ ((List.range i).map (clippedCell col sel)).getLast?
      = some st.lastClipped

end Rows

/-- A turn of the loop keeps the invariant if the row has a cell that
the selection fits, and fails otherwise. -/
theorem makeRowDataStep_outcome {col : TableColumn α}
    (hvar : col.columnDesc.fixedShape = none) {i : Nat} {st : RowDataState}
    (h : RowDataInv col sel i st) :
    Outcome (makeRowDataStep col sel false st i) (RowFits col sel i)
      (RowDataInv col sel (i + 1)) (fun _ => True) := by
  have hcell : (if selectedRow sel i < 0 then none
      else col.cellShape (selectedRow sel i).toNat) = cellOf col sel i := rfl
  unfold makeRowDataStep
  simp only [hcell, Bool.false_eq_true, if_false]
  split
  · rename_i hge
    refine .inr ⟨?_, _, rfl, trivial⟩
    intro hx
    obtain ⟨shape, hshape, -⟩ := hx
    have := (cellOf_lt hshape).2.1
    omega
  · cases hc : cellOf col sel i with
    | none =>
        have hbad : ¬ RowFits col sel i := by
          intro hx
          obtain ⟨shape, hshape, -⟩ := hx
          rw [hc] at hshape
          cases hshape
        dsimp only
        split
        · exact .inr ⟨hbad, _, rfl, trivial⟩
        · exact .inr ⟨hbad, _, rfl, trivial⟩
    | some shape =>
        have hclipped : clippedCell col sel i = sel.clipped shape := by
          rw [clippedCell, hc, Option.getD_some]
        have hnext : (List.range (i + 1)).map (clippedCell col sel)
            = (List.range i).map (clippedCell col sel)
              ++ [sel.clipped shape] := by
          rw [List.range_succ, List.map_append, List.map_singleton, hclipped]
        have hfits : RowFits col sel i ↔ sel.Fits shape :=
          ⟨fun ⟨s, hs, hf⟩ => by rw [hc] at hs; exact Option.some.inj hs ▸ hf,
            fun hf => ⟨shape, hc, hf⟩⟩
        dsimp only
        by_cases hlast : st.lastShape = some shape
        · -- the cached shape: nothing is clipped
          rw [if_pos hlast]
          obtain ⟨hf, hcl, hgl⟩ := h.cached shape hlast
          have hagain := summary_again hgl
          rw [← h.result, hcl, ← hnext] at hagain
          have hlast' : ∀ st' : RowDataState, st'.lastShape = st.lastShape →
              st'.lastClipped = st.lastClipped → ∀ s, st'.lastShape = some s →
              sel.Fits s ∧ st'.lastClipped = sel.clipped s
                ∧ ((List.range (i + 1)).map (clippedCell col sel)).getLast?
                  = some st'.lastClipped := by
            intro st' h₁ h₂ s hs
            rw [h₁, hlast] at hs
            cases hs
            rw [h₂, hnext, List.getLast?_concat]
            exact ⟨hf, hcl, by rw [hcl]⟩
          split
          · rename_i hempty
            rw [if_pos hempty] at hagain
            exact .inl ⟨hfits.mpr hf, st, rfl, hagain, hlast' st rfl rfl⟩
          · rename_i hempty
            rw [if_neg hempty] at hagain
            exact .inl ⟨hfits.mpr hf, _, rfl, by rw [hcl]; exact hagain,
              hlast' _ rfl rfl⟩
        · rw [if_neg hlast]
          rcases @clip_outcome sel col.columnDesc shape with
            ⟨hf, _, hclip, rfl⟩ | ⟨hbad, e, he, -⟩
          · rw [hclip]
            have hne := (hfits.mpr hf).clippedCell_ne_nil hvar
            rw [hclipped] at hne
            refine .inl ⟨hfits.mpr hf, _, rfl, ?_, fun s hs => ?_⟩
            · have hadd := addShape_summary
                (l := (List.range i).map (clippedCell col sel)) hne
              rw [List.length_map, List.length_range] at hadd
              rw [hnext, ← hadd, ← h.result]
            · cases hs
              refine ⟨hf, rfl, ?_⟩
              rw [hnext, List.getLast?_concat]
          · rw [he]
            exact .inr ⟨fun hr => hbad (hfits.mp hr), e, rfl, trivial⟩

/-- The rows of a variably shaped column are summarised if all of them
have a cell that the selection fits. -/
theorem makeRowData_outcome {col : TableColumn α}
    (hvar : col.columnDesc.fixedShape = none) :
    Outcome (makeRowData col sel false)
      (∀ i < selectedRows sel col.nrow, RowFits col sel i)
      (fun data => data = summary
        ((List.range (selectedRows sel col.nrow)).map (clippedCell col sel)))
      (fun _ => True) := by
  unfold makeRowData
  refine (Outcome.foldlM_range (P := RowDataInv col sel)
    (fun i st _ hP => makeRowDataStep_outcome hvar hP) ⟨rfl, ?_⟩).bind ?_
  · intro shape hs
    cases hs
  · intro st hst
    exact ⟨_, rfl, hst.result⟩

-- ============================================================== MakeRead

/-- The rows of the result can all be read. -/
structure Readable (col : TableColumn α) (sel : Selection) : Prop where
  limit : col.nrow ≤ indexTypeMax
  fixed : ∀ shape, col.columnDesc.fixedShape = some shape → sel.Fits shape
  varying : col.columnDesc.fixedShape = none →
    ∀ i < selectedRows sel col.nrow, RowFits col sel i

/-- The shape of a read: that of the cells, clipped. -/
structure IsReadShape (col : TableColumn α) (sel : Selection)
    (rs : ResultShapeData) : Prop where
  dtype : rs.dtype = col.columnDesc.dataType
  cellExtents : rs.cellExtents = none
  fixed : ∀ shape, rs.shape = some shape →
    rs.ndim = shape.length
    ∧ ((∃ cell, col.columnDesc.fixedShape = some cell
        ∧ shape = sel.clipped cell ++ [selectedRows sel col.nrow])
      ∨ (col.columnDesc.fixedShape = none ∧ ∃ common ≠ [],
        shape = common ++ [selectedRows sel col.nrow]
        ∧ 0 < selectedRows sel col.nrow
        ∧ ∀ i < selectedRows sel col.nrow, clippedCell col sel i = common))
  varying : rs.shape = none → col.columnDesc.fixedShape = none
    ∧ rs.getRowShapes
      = (List.range (selectedRows sel col.nrow)).map (clippedCell col sel)
    ∧ rs.ndim
      = if rowShapesNDim rs.getRowShapes (-1) = -1 then
          if 0 ≤ col.columnDesc.ndim then col.columnDesc.ndim + 1
          else col.columnDesc.ndim
        else rowShapesNDim rs.getRowShapes (-1)

/-- `MakeRead` succeeds exactly when the rows can be read, and then has
the clipped shapes of their cells. -/
theorem makeRead_outcome (col : TableColumn α) (sel : Selection) :
    Outcome (ResultShapeData.makeRead col sel false) (Readable col sel)
      (IsReadShape col sel) (fun _ => True) := by
  unfold ResultShapeData.makeRead checkRowNumberLimit
  by_cases hlimit : col.nrow ≤ indexTypeMax
  · simp only [hlimit, if_true, Result.ok_bind]
    cases hfixed : col.columnDesc.fixedShape with
    | some cell =>
        refine ((clip_outcome col.columnDesc cell).imp ?_ (fun _ hP => hP)
          fun _ _ => trivial).bind ?_
        · constructor
          · intro hf
            refine ⟨hlimit, fun shape hs => ?_, fun hv => ?_⟩
            · rw [hfixed] at hs
              exact Option.some.inj hs ▸ hf
            · rw [hfixed] at hv
              cases hv
          · intro hr
            exact hr.fixed cell hfixed
        · intro _ heq
          subst heq
          refine ⟨_, rfl, rfl, rfl, fun shape hs => ?_, fun hs => by cases hs⟩
          cases hs
          exact ⟨rfl, .inl ⟨cell, hfixed, rfl⟩⟩
    | none =>
        refine ((makeRowData_outcome hfixed).and_good.imp ?_ (fun _ hP => hP)
          fun _ _ => trivial).bind ?_
        · constructor
          · intro hall
            refine ⟨hlimit, fun shape hs => ?_, fun _ => hall⟩
            rw [hfixed] at hs
            cases hs
          · intro hr
            exact hr.varying hfixed
        · intro _ hx
          obtain ⟨hall, rfl⟩ := hx
          simp only [summary_missingRows, Nat.lt_irrefl, decide_false,
            Bool.and_false, Bool.false_eq_true, if_false]
          cases hcommon : (summary ((List.range (selectedRows sel col.nrow)).map
              (clippedCell col sel))).commonShape with
          | some common =>
              obtain ⟨hne, hsame⟩ := summary_common hcommon
              have hpos : 0 < selectedRows sel col.nrow := by
                have := List.length_pos_iff.mpr hne
                simpa using this
              have hcommon' : ∀ i < selectedRows sel col.nrow,
                  clippedCell col sel i = common := fun i hi =>
                hsame _ (List.mem_map.mpr ⟨i, List.mem_range.mpr hi, rfl⟩)
              refine ⟨_, rfl, rfl, rfl, fun shape hs => ?_,
                (fun hs => by cases hs)⟩
              cases hs
              refine ⟨rfl, .inr ⟨hfixed, common, ?_, rfl, hpos, hcommon'⟩⟩
              rw [← hcommon' 0 hpos]
              exact (hall 0 hpos).clippedCell_ne_nil hfixed
          | none =>
              refine ⟨_, rfl, rfl, rfl, (fun shape hs => by cases hs), fun _ => ?_⟩
              exact ⟨hfixed, summary_shapes hcommon, rfl⟩
  · simp only [hlimit, if_false, Result.error_bind]
    exact .inr ⟨fun hr => hlimit hr.limit, _, rfl, trivial⟩

-- ========================================================= as a request

/-- Shapes that are found to agree on a rank agree on it. -/
theorem rowShapesNDim_agree {l : List IPosition} {ndim : Int}
    (hne : ∀ s ∈ l, s ≠ []) (hfound : rowShapesNDim l ndim ≠ -1) :
    (ndim ≠ -1 → rowShapesNDim l ndim = ndim)
      ∧ ∀ s ∈ l, (s.length : Int) + 1 = rowShapesNDim l ndim := by
  induction l generalizing ndim with
  | nil => exact ⟨fun _ => rfl, by simp⟩
  | cons s l ih =>
      have hs : isDegenerateShape s = false := by
        simpa [isDegenerateShape] using hne s List.mem_cons_self
      have hl : ∀ s' ∈ l, s' ≠ [] := fun s' hs' =>
        hne s' (List.mem_cons_of_mem _ hs')
      rw [rowShapesNDim, hs] at hfound ⊢
      simp only [Bool.false_eq_true, if_false] at hfound ⊢
      by_cases hstart : ndim = -1
      · simp only [if_pos hstart] at hfound ⊢
        obtain ⟨hsame, hall⟩ := ih hl hfound
        have hrank := hsame (by omega)
        exact ⟨fun h => absurd hstart h,
          List.forall_mem_cons.mpr ⟨hrank.symm, hall⟩⟩
      · simp only [if_neg hstart] at hfound ⊢
        by_cases hsame : ndim = s.length + 1
        · simp only [if_pos hsame] at hfound ⊢
          obtain ⟨heq, hall⟩ := ih hl hfound
          have hrank := heq hstart
          exact ⟨fun _ => hrank,
            List.forall_mem_cons.mpr ⟨by omega, hall⟩⟩
        · simp [if_neg hsame] at hfound

/-- Shapes of one rank are found to agree on it. -/
theorem rowShapesNDim_of_rank {l : List IPosition} {n : Nat} {ndim : Int}
    (hn : 0 < n) (hl : ∀ s ∈ l, s.length = n)
    (hndim : ndim = n + 1 ∨ (ndim = -1 ∧ l ≠ [])) :
    rowShapesNDim l ndim = n + 1 := by
  induction l generalizing ndim with
  | nil => exact hndim.resolve_right fun h => h.2 rfl
  | cons s l ih =>
      have hlen := hl s List.mem_cons_self
      have hs : isDegenerateShape s = false := by
        have hne : s ≠ [] := List.ne_nil_of_length_pos (by omega)
        simpa [isDegenerateShape] using hne
      have hrest := @ih (n + 1)
        (fun s' hs' => hl s' (List.mem_cons_of_mem _ hs')) (.inl rfl)
      rw [rowShapesNDim, hs]
      simp only [Bool.false_eq_true, if_false]
      rcases hndim with h | ⟨h, -⟩
      · rw [if_neg (by omega), if_pos (by omega), h]
        exact hrest
      · rw [if_pos h, hlen]
        exact hrest

/-- What a read asks of its shape: a consistent shape of rank `n + 1`
that the selection matches, each row of it the clipped shape of its
cell. -/
structure ReadFacts (col : TableColumn α) (sel : Selection)
    (rs : ResultShapeData) (n : Nat) : Prop where
  rank : rs.rank = n + 1
  dtype : rs.dtype = col.columnDesc.dataType
  cellExtents : rs.cellExtents = none
  nRows : rs.nRows = selectedRows sel col.nrow
  consistent : rs.Consistent
  rowDims : ∀ k, k < rs.nRows ∨ rs.isFixed = true →
    ∃ shape, shape.length = n ∧ rs.rowDims k = sel.clipped shape
  ofCell : ∀ k < rs.nRows, ∀ shape, cellOf col sel k = some shape →
    shape.length = n ∧ rs.rowDims k = sel.clipped shape

/-- The selection matches the shape of its read. -/
theorem ReadFacts.isMatch {col : TableColumn α} {rs : ResultShapeData} {n : Nat}
    (h : ReadFacts col sel rs n) : sel.Matches rs where
  rows := by
    intro ids hids
    rw [Selection.selected, Selection.maybeFSpan_row sel h.consistent.rank_pos]
      at hids
    split at hids
    · rename_i hspan
      cases hids
      rw [h.nRows, selectedRows, if_pos hspan]
    · cases hids
  secondary := by
    intro row hrow dim hdim ids hids
    obtain ⟨shape, hlen, hdims⟩ := h.rowDims row hrow
    rw [h.rank] at hdim
    rw [Selection.selected, h.rank, ← hlen] at hids
    rw [hdims, sel.clipped_getElem? (by omega), hids]
  unpadded := by
    intro row dim hx
    obtain ⟨extent, hext, -⟩ := hx
    rw [ResultShapeData.extent, h.cellExtents] at hext
    cases hext

section Facts

variable {col : TableColumn α} {rs : ResultShapeData} (h : IsReadShape col sel rs)
  (hr : Readable col sel)

include h hr

/-- The rows of a fixed shape are the clipped shape of every cell. -/
theorem IsReadShape.fixed_dims {shape : IPosition} (hs : rs.shape = some shape) :
    ∃ n dims, shape = dims ++ [selectedRows sel col.nrow] ∧ dims.length = n
      ∧ (∃ cell, cell.length = n ∧ dims = sel.clipped cell)
      ∧ ∀ k < selectedRows sel col.nrow, ∀ cell, cellOf col sel k = some cell →
          cell.length = n ∧ dims = sel.clipped cell := by
  obtain ⟨-, hcases⟩ := h.fixed shape hs
  rcases hcases with ⟨cell, hfixed, hshape⟩
    | ⟨hvar, common, -, hshape, hrows, hall⟩
  · -- the shape of the column
    refine ⟨cell.length, _, hshape, by simp, ⟨cell, rfl, rfl⟩, ?_⟩
    intro k _ cell' hc
    obtain ⟨-, hlt, hshape'⟩ := cellOf_lt hc
    have hcell' := col.cell_fixed _ (selectedRow sel k).toNat hfixed
      (col.cell_nrow _ _ hshape')
    rw [hcell'] at hshape'
    cases hshape'
    exact ⟨rfl, rfl⟩
  · -- the shape that all rows have in common
    have hclip : ∀ k < selectedRows sel col.nrow, ∀ cell,
        cellOf col sel k = some cell →
        cell.length = common.length ∧ common = sel.clipped cell := by
      intro k hk cell hc
      have := hall k hk
      rw [clippedCell, hc, Option.getD_some] at this
      rw [← this]
      exact ⟨by simp, rfl⟩
    obtain ⟨cell, hc, -⟩ := hr.varying hvar 0 hrows
    exact ⟨common.length, common, hshape, rfl, ⟨cell, hclip 0 hrows cell hc⟩,
      hclip⟩

theorem IsReadShape.facts_fixed {shape : IPosition}
    (hs : rs.shape = some shape) : ∃ n, ReadFacts col sel rs n := by
  obtain ⟨hnd, -⟩ := h.fixed shape hs
  obtain ⟨n, dims, hdims, hn, hsome, hcell⟩ := h.fixed_dims hr hs
  have hrank : rs.rank = n + 1 := by
    rw [ResultShapeData.rank, hnd, hdims, List.length_append, hn]
    rfl
  have hrowDims : ∀ k, rs.rowDims k = dims := by
    intro k
    simp only [ResultShapeData.rowDims, hs, hrank, hdims]
    rw [Nat.add_sub_cancel, ← hn, List.take_left]
  have hrows : rs.nRows = selectedRows sel col.nrow := by
    simp only [ResultShapeData.nRows, hs, hdims, List.getLastD_concat]
  exact ⟨n,
    { rank := hrank
      dtype := h.dtype
      cellExtents := h.cellExtents
      nRows := hrows
      consistent :=
        { ndim_pos := by
            rw [hnd, hdims, List.length_append, List.length_singleton]
            omega
          fixed := fun shape' hs' => by
            rw [hs] at hs'
            cases hs'
            rw [hrank, hdims, List.length_append, hn]
            rfl
          varying := fun hs' => by
            rw [hs] at hs'
            cases hs'
          extents := fun es hes => by
            rw [h.cellExtents] at hes
            cases hes }
      rowDims := fun k _ => by
        rw [hrowDims k]
        exact hsome
      ofCell := fun k hk cell hc => by
        rw [hrowDims k]
        exact hcell k (by omega) cell hc }⟩

/-- Rows of a varying shape that has a rank are of one length, one less
than the rank: they agree on it, or the column knows one for them. -/
theorem IsReadShape.varying_length (hs : rs.shape = none)
    (hndim : 0 ≤ rs.ndim) (hpos : 0 < selectedRows sel col.nrow) :
    ∃ n : Nat, 0 < n ∧ rs.ndim = n + 1
      ∧ ∀ s ∈ rs.getRowShapes, s.length = n := by
  obtain ⟨hvar, hshapes, hnd⟩ := h.varying hs
  have hne : ∀ s ∈ rs.getRowShapes, s ≠ [] := by
    rw [hshapes]
    intro s hmem
    obtain ⟨i, hi, rfl⟩ := List.mem_map.mp hmem
    exact (hr.varying hvar i (List.mem_range.mp hi)).clippedCell_ne_nil hvar
  have hnil : rs.getRowShapes ≠ [] := by
    rw [hshapes]
    refine List.ne_nil_of_length_pos ?_
    rw [List.length_map, List.length_range]
    exact hpos
  have hfound : rowShapesNDim rs.getRowShapes (-1) ≠ -1 := by
    intro hlost
    rw [if_pos hlost] at hnd
    have hdesc : 0 ≤ col.columnDesc.ndim := by
      by_contra hneg
      rw [if_neg hneg] at hnd
      omega
    have hall : ∀ s ∈ rs.getRowShapes,
        s.length = col.columnDesc.ndim.toNat := by
      rw [hshapes]
      intro s hmem
      obtain ⟨i, hi, rfl⟩ := List.mem_map.mp hmem
      obtain ⟨shape, hc, -⟩ := hr.varying hvar i (List.mem_range.mp hi)
      have hlen := col.cell_ndim _ _ hdesc (cellOf_lt hc).2.2
      rw [clippedCell, hc, Option.getD_some, Selection.clipped_length]
      omega
    obtain ⟨s, hmem⟩ := List.exists_mem_of_ne_nil _ hnil
    have hpos' := List.length_pos_iff.mpr (hne s hmem)
    have := @rowShapesNDim_of_rank _ _ (-1)
      (by rw [← hall s hmem]; exact hpos') hall (.inr ⟨rfl, hnil⟩)
    omega
  rw [if_neg hfound] at hnd
  obtain ⟨-, hall⟩ := rowShapesNDim_agree hne hfound
  obtain ⟨s₀, hmem₀⟩ := List.exists_mem_of_ne_nil _ hnil
  have hpos₀ := List.length_pos_iff.mpr (hne s₀ hmem₀)
  have h₀ := hall s₀ hmem₀
  refine ⟨s₀.length, hpos₀, by omega, fun s hmem => ?_⟩
  have hlen := hall s hmem
  omega

theorem IsReadShape.facts_varying (hs : rs.shape = none) (hndim : 0 ≤ rs.ndim)
    (hpos : 0 < selectedRows sel col.nrow) : ∃ n, ReadFacts col sel rs n := by
  obtain ⟨hvar, hshapes, -⟩ := h.varying hs
  obtain ⟨n, hn, hnd, hlens⟩ := h.varying_length hr hs hndim hpos
  have hrows : rs.nRows = selectedRows sel col.nrow := by
    simp only [ResultShapeData.nRows, hs, hshapes, List.length_map,
      List.length_range]
  have hrank : rs.rank = n + 1 := by
    rw [ResultShapeData.rank, hnd]
    omega
  have hrowDims : ∀ k < rs.nRows, rs.rowDims k = clippedCell col sel k := by
    intro k hk
    simp only [ResultShapeData.rowDims, hs, hshapes]
    rw [List.getD_eq_getElem _ _ (by simp; omega)]
    simp
  have hcell : ∀ k < rs.nRows, ∀ shape, cellOf col sel k = some shape →
      shape.length = n ∧ rs.rowDims k = sel.clipped shape := by
    intro k hk shape hc
    have heq : clippedCell col sel k = sel.clipped shape := by
      rw [clippedCell, hc, Option.getD_some]
    have hmem : clippedCell col sel k ∈ rs.getRowShapes := by
      rw [hshapes]
      exact List.mem_map.mpr ⟨k, List.mem_range.mpr (by omega), rfl⟩
    have hlen := hlens _ hmem
    rw [heq, Selection.clipped_length] at hlen
    exact ⟨hlen, by rw [hrowDims k hk, heq]⟩
  refine ⟨n,
    { rank := hrank
      dtype := h.dtype
      cellExtents := h.cellExtents
      nRows := hrows
      consistent :=
        { ndim_pos := by omega
          fixed := fun shape hs' => by
            rw [hs] at hs'
            cases hs'
          varying := fun _ => ⟨by omega, fun s hmem => by
            rw [hlens s hmem, hrank]
            rfl⟩
          extents := fun es hes => by
            rw [h.cellExtents] at hes
            cases hes }
      rowDims := fun k hk => ?_
      ofCell := hcell }⟩
  have hk' : k < rs.nRows := by
    rcases hk with hk | hfixed
    · exact hk
    · simp [ResultShapeData.isFixed, hs] at hfixed
  obtain ⟨shape, hc, -⟩ := hr.varying hvar k (by omega)
  exact ⟨shape, hcell k hk' shape hc⟩

/-- The shape of a read whose rows agree on a rank, if it has rows. -/
theorem IsReadShape.facts (hndim : 0 ≤ rs.ndim)
    (hpos : rs.shape = none → 0 < selectedRows sel col.nrow) :
    ∃ n, ReadFacts col sel rs n := by
  cases hs : rs.shape with
  | some shape => exact h.facts_fixed hr hs
  | none => exact h.facts_varying hr hs hndim (hpos hs)

end Facts

end Arcae
