/-
The compressed scan of the rows, against the plain one.

The plain scan clips every row's cell on its own (`plainRowShape`). The
compressed one skips a row whose cell is shaped as the last defined
one's, keeps a single shape as long as it can, and clips with
dimensions that were collected for another cell. None of this shows: the
clipper's dimensions are those of the rank it holds (`Ready`), what is
recorded is a function of the plain shapes so far (`rowSummary`), and
the last clipped shape is among them.
-/
import Arcae.Model.RowScan
import Arcae.Proofs.ReadShape

namespace Arcae

open Loops

variable {α : Type} {sel : Selection}

-- ============================================================= the clipper

namespace CellShapeClipper

/-- The dimensions are those of the cells the clipper is ready for. -/
def Ready (sel : Selection) (clipper : CellShapeClipper) : Prop :=
  ∀ ndim, clipper.ndim = some ndim →
    clipper.dims = (List.range ndim).map (selectedDim sel ndim)

theorem ready_init : Ready sel init := fun _ h => by cases h

theorem ready_cache (ndim : Nat) : Ready sel (cache sel ndim) := by
  intro n hn
  cases hn
  rfl

/-- Clipping with dimensions that were collected for the rank of the
cell is clipping with the selection. -/
theorem clipDim_eq (desc : ColumnDesc) {ndim dim : Nat} (hdim : dim < ndim)
    (cellShape : IPosition) :
    clipDim desc ((List.range ndim).map (selectedDim sel ndim)) cellShape dim
      = clipStep desc sel ndim cellShape dim := by
  unfold clipDim clipStep
  rw [List.getElem?_map, List.getElem?_range hdim, Option.map_some]
  cases selectedDim sel ndim dim <;> rfl

theorem foldlM_clipDim_eq (desc : ColumnDesc) (ndim : Nat) {dims : List Nat}
    (hdims : ∀ d ∈ dims, d < ndim) (cellShape : IPosition) :
    dims.foldlM (clipDim desc ((List.range ndim).map (selectedDim sel ndim)))
        cellShape
      = dims.foldlM (clipStep desc sel ndim) cellShape := by
  induction dims generalizing cellShape with
  | nil => rfl
  | cons d dims ih =>
      rw [List.foldlM_cons, List.foldlM_cons,
        clipDim_eq desc (hdims d List.mem_cons_self)]
      congr 1
      funext shape
      exact ih (fun d' hd' => hdims d' (List.mem_cons_of_mem _ hd')) shape

/-- A clipper clips as the selection does, and stays ready. -/
theorem clip_eq (desc : ColumnDesc) {clipper : CellShapeClipper}
    (hready : clipper.Ready sel) (cellShape : IPosition) :
    ∃ clipper', Ready sel clipper'
      ∧ clipper.clip desc sel cellShape
        = Arcae.clip desc sel cellShape >>= fun s => .ok (s, clipper') := by
  unfold clip Arcae.clip
  by_cases hsize : sel.size ≤ 1
  · rw [if_pos hsize, if_pos hsize]
    exact ⟨clipper, hready, rfl⟩
  · rw [if_neg hsize, if_neg hsize]
    by_cases hrank : clipper.ndim = some cellShape.length
    · refine ⟨clipper, hready, ?_⟩
      rw [if_pos hrank]
      dsimp only
      rw [hready _ hrank, foldlM_clipDim_eq desc _ fun d hd =>
        List.mem_range.mp hd]
      rfl
    · refine ⟨cache sel cellShape.length, ready_cache _, ?_⟩
      rw [if_neg hrank]
      dsimp only
      rw [ready_cache cellShape.length _ rfl, foldlM_clipDim_eq desc _
        fun d hd => List.mem_range.mp hd]
      rfl

end CellShapeClipper

-- ========================================================== the plain scan

/-- The shape of row `i` of the result, clipped on its own; empty if the
row is missing. -/
def plainRowShape (col : TableColumn α) (sel : Selection) (i : Nat) :
    Result IPosition :=
  let r := selectedRow sel i
  if (col.nrow : Int) ≤ r then
    .error (.indexError ("Requested row " ++ toString r ++ " in column "
      ++ col.columnDesc.name ++ " >= column.nrow() " ++ toString col.nrow))
  else
    match cellOf col sel i with
    | none => .ok []
    | some shape => clip col.columnDesc sel shape

/-- What is recorded of the shapes of the rows so far. -/
def rowSummary : List IPosition → RowShapeData
  | [] => ⟨none, [], 0⟩
  | shape :: shapes =>
      if shape ≠ [] ∧ ∀ s ∈ shapes, s = shape then ⟨some shape, [], 0⟩
      else ⟨none, shape :: shapes, (shape :: shapes).count []⟩

theorem rowSummary_of_common {shape : IPosition} {shapes : List IPosition}
    (hne : shape ≠ []) (hnil : shapes ≠ []) (hall : ∀ s ∈ shapes, s = shape) :
    rowSummary shapes = ⟨some shape, [], 0⟩ := by
  cases shapes with
  | nil => exact absurd rfl hnil
  | cons first shapes =>
      obtain rfl := hall first List.mem_cons_self
      exact if_pos ⟨hne, fun s hs => hall s (List.mem_cons_of_mem _ hs)⟩

/-- Either nothing is recorded yet, or one shape, or all of them. -/
theorem rowSummary_cases (shapes : List IPosition) :
    shapes = [] ∧ rowSummary shapes = ⟨none, [], 0⟩
      ∨ (∃ shape ≠ [], shapes ≠ [] ∧ (∀ s ∈ shapes, s = shape)
        ∧ rowSummary shapes = ⟨some shape, [], 0⟩)
      ∨ shapes ≠ [] ∧ (∀ shape ≠ [], ¬ ∀ s ∈ shapes, s = shape)
        ∧ rowSummary shapes = ⟨none, shapes, shapes.count []⟩ := by
  cases shapes with
  | nil => exact .inl ⟨rfl, rfl⟩
  | cons first shapes =>
      by_cases hall : first ≠ [] ∧ ∀ s ∈ shapes, s = first
      · refine .inr (.inl ⟨first, hall.1, List.cons_ne_nil _ _, ?_, if_pos hall⟩)
        exact fun s hs => (List.mem_cons.mp hs).elim id (hall.2 s)
      · refine .inr (.inr ⟨List.cons_ne_nil _ _, ?_, if_neg hall⟩)
        intro shape hne hsame
        obtain rfl := hsame first List.mem_cons_self
        exact hall ⟨hne, fun s hs => hsame s (List.mem_cons_of_mem _ hs)⟩

/-- All shapes are recorded once two of them differ, or one is missing. -/
theorem rowSummary_of_varied {shapes : List IPosition} (hne : shapes ≠ [])
    (hvar : ∀ shape ≠ [], ¬ ∀ s ∈ shapes, s = shape) :
    rowSummary shapes = ⟨none, shapes, shapes.count []⟩ := by
  rcases rowSummary_cases shapes with ⟨rfl, -⟩ | ⟨shape, hs, -, hall, -⟩
    | ⟨-, -, h⟩
  · exact absurd rfl hne
  · exact absurd hall (hvar shape hs)
  · exact h

/-- `AddShape` records a shape. -/
theorem addShape_rowSummary (shapes : List IPosition) (shape : IPosition) :
    addShape shapes.length shape (rowSummary shapes)
      = rowSummary (shapes ++ [shape]) := by
  have hlast : shape ∈ shapes ++ [shape] := by simp
  by_cases hmissing : shape = []
  · -- a missing row
    subst hmissing
    have hvaried := @rowSummary_of_varied (shapes ++ [[]]) (by simp)
      (fun shape hne hall => hne (hall [] hlast).symm)
    rw [hvaried]
    rcases rowSummary_cases shapes with ⟨rfl, h⟩ | ⟨common, hne, -, hall, h⟩
      | ⟨hne, -, h⟩
    · rw [h]
      rfl
    · have hrep : List.replicate shapes.length common = shapes :=
        (List.eq_replicate_iff.mpr ⟨rfl, hall⟩).symm
      have hcount : shapes.count [] = 0 :=
        List.count_eq_zero.mpr fun hmem => hne (hall [] hmem).symm
      rw [h]
      simp [addShape, isDegenerateShape, hrep, hcount]
    · rw [h]
      simp [addShape, isDegenerateShape, hne]
  · have hflag : isDegenerateShape shape = false := by
      simpa [isDegenerateShape] using hmissing
    have hcount : (shapes ++ [shape]).count [] = shapes.count [] := by
      simp [hmissing]
    rcases rowSummary_cases shapes with ⟨rfl, h⟩ | ⟨common, hne, hnil, hall, h⟩
      | ⟨hne, hvar, h⟩
    · rw [h]
      simp [addShape, hflag, rowSummary, hmissing]
    · rw [h]
      by_cases hsame : shape = common
      · -- the common shape once more
        rw [rowSummary_of_common hne (by simp) fun s hs => by
          rcases List.mem_append.mp hs with hs | hs
          · exact hall s hs
          · rw [List.mem_singleton.mp hs, hsame]]
        subst hsame
        simp [addShape, hflag]
      · have hrep : List.replicate shapes.length common = shapes :=
          (List.eq_replicate_iff.mpr ⟨rfl, hall⟩).symm
        have hzero : shapes.count [] = 0 :=
          List.count_eq_zero.mpr fun hmem => hne (hall [] hmem).symm
        obtain ⟨first, hfirst⟩ := List.exists_mem_of_ne_nil _ hnil
        rw [rowSummary_of_varied (by simp) fun s hs hall' => hsame ?_]
        · have hsame' : ¬ common = shape := fun heq => hsame heq.symm
          simp [addShape, hflag, hrep, hcount, hzero, hsame']
        · rw [hall' shape hlast, ← hall' first (List.mem_append_left _ hfirst),
            hall first hfirst]
    · rw [h, rowSummary_of_varied (by simp) fun s hs hall' => hvar s hs
        fun s' hs' => hall' s' (List.mem_append_left _ hs'), hcount]
      simp [addShape, hflag, hne]

/-- A shape that has been recorded is recorded once more, without being
looked at. -/
theorem rowSummary_again {shapes : List IPosition} {shape : IPosition}
    (hmem : shape ∈ shapes) (hne : shape ≠ []) :
    (if (rowSummary shapes).shapes.isEmpty then rowSummary shapes
      else { rowSummary shapes with
        shapes := (rowSummary shapes).shapes ++ [shape] })
      = rowSummary (shapes ++ [shape]) := by
  rw [← addShape_rowSummary]
  have hflag : isDegenerateShape shape = false := by
    simpa [isDegenerateShape] using hne
  rcases rowSummary_cases shapes with ⟨rfl, -⟩ | ⟨common, -, -, hall, h⟩
    | ⟨hnil, -, h⟩
  · cases hmem
  · rw [h, hall shape hmem]
    rw [hall shape hmem] at hflag
    simp [addShape, hflag]
  · rw [h]
    simp [addShape, hflag, hnil]

/-- A common shape is that of all rows, of which there is one. -/
theorem rowSummary_common {shapes : List IPosition} {common : IPosition} :
    (rowSummary shapes).commonShape = some common
      ↔ shapes ≠ [] ∧ common ≠ [] ∧ ∀ s ∈ shapes, s = common := by
  constructor
  · intro h
    rcases rowSummary_cases shapes with ⟨-, h'⟩ | ⟨shape, hne, hnil, hall, h'⟩
      | ⟨-, -, h'⟩
    · rw [h'] at h
      cases h
    · rw [h'] at h
      cases h
      exact ⟨hnil, hne, hall⟩
    · rw [h'] at h
      cases h
  · intro hx
    obtain ⟨hnil, hne, hall⟩ := hx
    rw [rowSummary_of_common hne hnil hall]

/-- Without a common shape, the shapes are kept as they are. -/
theorem rowSummary_shapes {shapes : List IPosition}
    (h : (rowSummary shapes).commonShape = none) :
    (rowSummary shapes).shapes = shapes := by
  rcases rowSummary_cases shapes with ⟨rfl, h'⟩ | ⟨_, -, -, -, h'⟩ | ⟨-, -, h'⟩
  · rw [h']
  · rw [h'] at h
    cases h
  · rw [h']

theorem rowSummary_missingRows (shapes : List IPosition) :
    (rowSummary shapes).missingRows = shapes.count [] := by
  rcases rowSummary_cases shapes with ⟨rfl, h⟩ | ⟨common, hne, -, hall, h⟩
    | ⟨-, -, h⟩
  · rw [h]
    rfl
  · rw [h]
    exact (List.count_eq_zero.mpr fun hmem => hne (hall [] hmem).symm).symm
  · rw [h]

-- ================================================================ the loop

/-- Before turn `i`: what is recorded is a summary of the plain shapes,
the cached shape is among them, and the clipper is ready. -/
structure RowScanInv (col : TableColumn α) (sel : Selection)
    (shapes : List IPosition) (st : RowScanState) : Prop where
  result : st.result = rowSummary shapes
  cached : ∀ shape, st.lastShape = some shape →
    clip col.columnDesc sel shape = .ok st.lastClipped
      ∧ st.lastClipped ∈ shapes ∧ st.lastClipped ≠ []
  ready : st.clipper.Ready sel

/-- A cell with an axis is clipped to one with an axis. -/
theorem clip_ne_nil {desc : ColumnDesc} {shape clipped : IPosition}
    (hne : shape ≠ []) (h : clip desc sel shape = .ok clipped) :
    clipped ≠ [] := by
  rcases @clip_outcome sel desc shape with ⟨-, s, hs, rfl⟩ | ⟨-, e, he, -⟩
  · rw [hs, Except.ok.injEq] at h
    refine List.ne_nil_of_length_pos ?_
    rw [← h, Selection.clipped_length]
    exact List.length_pos_of_ne_nil hne
  · rw [he] at h
    cases h

variable {col : TableColumn α}

/-- A turn fails as the plain scan of the row does, or records its
shape. -/
theorem rowScanStep_plain (hvar : col.columnDesc.fixedShape = none)
    {shapes : List IPosition} {st : RowScanState}
    (h : RowScanInv col sel shapes st) :
    (∃ e, rowScanStep col sel true st shapes.length = .error e
        ∧ plainRowShape col sel shapes.length = .error e)
      ∨ ∃ st' shape, rowScanStep col sel true st shapes.length = .ok st'
        ∧ plainRowShape col sel shapes.length = .ok shape
        ∧ RowScanInv col sel (shapes ++ [shape]) st' := by
  have hcell : (if selectedRow sel shapes.length < 0 then none
      else col.cellShape (selectedRow sel shapes.length).toNat)
      = cellOf col sel shapes.length := rfl
  unfold rowScanStep plainRowShape
  simp only [hcell, if_true]
  by_cases hge : (col.nrow : Int) ≤ selectedRow sel shapes.length
  · rw [if_pos hge, if_pos hge]
    exact .inl ⟨_, rfl, rfl⟩
  · rw [if_neg hge, if_neg hge]
    cases hc : cellOf col sel shapes.length with
    | none =>
        refine .inr ⟨_, [], rfl, rfl, ?_, fun shape hs => ?_, h.ready⟩
        · show addShape shapes.length [] st.result = _
          rw [h.result, addShape_rowSummary]
        · obtain ⟨hclip, hmem, hne⟩ := h.cached shape hs
          exact ⟨hclip, List.mem_append_left _ hmem, hne⟩
    | some shape =>
        dsimp only
        by_cases hlast : st.lastShape = some shape
        · -- the cell of the last defined row: nothing is clipped
          rw [if_pos hlast]
          obtain ⟨hclip, hmem, hne⟩ := h.cached shape hlast
          have hagain := rowSummary_again hmem hne
          rw [← h.result] at hagain
          have hcached : ∀ s, st.lastShape = some s →
              clip col.columnDesc sel s = .ok st.lastClipped
                ∧ st.lastClipped ∈ shapes ++ [st.lastClipped]
                ∧ st.lastClipped ≠ [] := by
            intro s hs
            exact ⟨(h.cached s hs).1, by simp, hne⟩
          by_cases hempty : st.result.shapes.isEmpty = true
          · rw [if_pos hempty] at hagain ⊢
            exact .inr ⟨st, _, rfl, hclip, hagain, hcached, h.ready⟩
          · rw [if_neg hempty] at hagain ⊢
            exact .inr ⟨_, _, rfl, hclip, hagain, hcached, h.ready⟩
        · rw [if_neg hlast]
          obtain ⟨clipper, hready, heq⟩ :=
            CellShapeClipper.clip_eq col.columnDesc h.ready shape
          rw [heq]
          cases hclip : clip col.columnDesc sel shape with
          | error e => exact .inl ⟨e, rfl, rfl⟩
          | ok clipped =>
              have hne := clip_ne_nil
                (col.cell_rank _ _ hvar (cellOf_lt hc).2.2) hclip
              refine .inr ⟨_, clipped, rfl, rfl, ?_, fun s hs => ?_, hready⟩
              · show addShape shapes.length clipped st.result = _
                rw [h.result, addShape_rowSummary]
              · cases hs
                exact ⟨hclip, by simp, hne⟩

/-- The loop fails as the plain scan does, or records its shapes. -/
theorem rowScan_run (hvar : col.columnDesc.fixedShape = none) (n : Nat)
    {shapes : List IPosition} {st : RowScanState}
    (h : RowScanInv col sel shapes st) :
    (∃ e, (List.range' shapes.length n).foldlM (rowScanStep col sel true) st
          = .error e
        ∧ (List.range' shapes.length n).mapM (plainRowShape col sel) = .error e)
      ∨ ∃ st' rest, (List.range' shapes.length n).foldlM
            (rowScanStep col sel true) st = .ok st'
        ∧ (List.range' shapes.length n).mapM (plainRowShape col sel) = .ok rest
        ∧ RowScanInv col sel (shapes ++ rest) st' := by
  induction n generalizing shapes st with
  | zero => exact .inr ⟨st, [], rfl, rfl, by rwa [List.append_nil]⟩
  | succ n ih =>
      rw [List.range'_succ, List.foldlM_cons, List.mapM_cons]
      rcases rowScanStep_plain hvar h with ⟨e, hstep, hplain⟩
        | ⟨st', shape, hstep, hplain, h'⟩
      · rw [hstep, hplain]
        exact .inl ⟨e, rfl, rfl⟩
      · rw [hstep, hplain, Result.ok_bind, Result.ok_bind]
        have hnext := ih h'
        rw [List.length_append, List.length_singleton] at hnext
        rcases hnext with ⟨e, hfold, hmap⟩ | ⟨st'', rest, hfold, hmap, h''⟩
        · rw [hfold, hmap]
          exact .inl ⟨e, rfl, rfl⟩
        · rw [hfold, hmap]
          refine .inr ⟨st'', shape :: rest, rfl, rfl, ?_⟩
          rwa [List.append_assoc, List.singleton_append] at h''

/-- The compressed scan summarises the plain one. -/
theorem rowScan_plain (hvar : col.columnDesc.fixedShape = none) :
    rowScan col sel true
      = (List.range (selectedRows sel col.nrow)).mapM (plainRowShape col sel)
        >>= fun shapes => .ok (rowSummary shapes) := by
  have hinit : RowScanInv col sel []
      { result := ⟨none, [], 0⟩
        lastShape := none
        lastClipped := []
        clipper := .init } :=
    ⟨rfl, (fun shape hs => by cases hs), CellShapeClipper.ready_init⟩
  unfold rowScan
  rw [List.range_eq_range']
  rcases rowScan_run hvar (selectedRows sel col.nrow) hinit with
    ⟨e, hfold, hmap⟩ | ⟨st, rest, hfold, hmap, h⟩
  · rw [List.length_nil] at hfold hmap
    rw [hfold, hmap]
    rfl
  · rw [List.length_nil] at hfold hmap
    rw [hfold, hmap, Result.ok_bind, Result.ok_bind, h.result]
    rfl

/-- The clipper makes no difference to a turn. -/
theorem rowScanStep_erase (allowMissingRows : Bool) {st : RowScanState}
    (hready : st.clipper.Ready sel) (i : Nat) :
    (∃ e, rowScanStep col sel allowMissingRows st i = .error e
        ∧ makeRowDataStep col sel allowMissingRows st.toRowDataState i
          = .error e)
      ∨ ∃ st', rowScanStep col sel allowMissingRows st i = .ok st'
        ∧ makeRowDataStep col sel allowMissingRows st.toRowDataState i
          = .ok st'.toRowDataState
        ∧ st'.clipper.Ready sel := by
  unfold rowScanStep makeRowDataStep
  dsimp only
  split
  · exact .inl ⟨_, rfl, rfl⟩
  · generalize (if selectedRow sel i < 0 then none
      else col.cellShape (selectedRow sel i).toNat) = cell
    cases cell with
    | none =>
        cases allowMissingRows with
        | true => exact .inr ⟨_, rfl, rfl, hready⟩
        | false =>
            simp only [Bool.false_eq_true, if_false]
            split
            · exact .inl ⟨_, rfl, rfl⟩
            · exact .inl ⟨_, rfl, rfl⟩
    | some shape =>
        dsimp only
        split
        · split
          · exact .inr ⟨st, rfl, rfl, hready⟩
          · exact .inr ⟨_, rfl, rfl, hready⟩
        · obtain ⟨clipper, hready', heq⟩ :=
            CellShapeClipper.clip_eq col.columnDesc hready shape
          rw [heq]
          cases clip col.columnDesc sel shape with
          | error e => exact .inl ⟨e, rfl, rfl⟩
          | ok clipped => exact .inr ⟨_, rfl, rfl, hready'⟩

/-- Nor to the scan: the clipper may be left out. -/
theorem rowScan_eq_makeRowData (allowMissingRows : Bool) :
    rowScan col sel allowMissingRows = makeRowData col sel allowMissingRows := by
  have hrun : ∀ (is : List Nat) (st : RowScanState), st.clipper.Ready sel →
      is.foldlM (makeRowDataStep col sel allowMissingRows) st.toRowDataState
        = is.foldlM (rowScanStep col sel allowMissingRows) st
          >>= fun st' => .ok st'.toRowDataState := by
    intro is
    induction is with
    | nil => intro st _; rfl
    | cons i is ih =>
        intro st hready
        rw [List.foldlM_cons, List.foldlM_cons]
        rcases @rowScanStep_erase _ _ col allowMissingRows st hready i with
          ⟨e, hscan, hplain⟩ | ⟨st', hscan, hplain, hready'⟩
        · rw [hscan, hplain]
          rfl
        · rw [hscan, hplain, Result.ok_bind, Result.ok_bind, ih st' hready']
  unfold rowScan makeRowData
  have h := hrun (List.range (selectedRows sel col.nrow))
    { result := ⟨none, [], 0⟩
      lastShape := none
      lastClipped := []
      clipper := .init } CellShapeClipper.ready_init
  rw [h]
  cases (List.range (selectedRows sel col.nrow)).foldlM
    (rowScanStep col sel allowMissingRows) _ <;> rfl

-- ================================================================ one row

/-- When the plain scan of a row fails. -/
theorem plainRowShape_error_iff {i : Nat} :
    (∃ e, plainRowShape col sel i = .error e)
      ↔ (col.nrow : Int) ≤ selectedRow sel i
        ∨ ∃ shape, cellOf col sel i = some shape
          ∧ ∃ e, clip col.columnDesc sel shape = .error e := by
  unfold plainRowShape
  dsimp only
  by_cases hge : (col.nrow : Int) ≤ selectedRow sel i
  · rw [if_pos hge]
    exact iff_of_true ⟨_, rfl⟩ (.inl hge)
  · rw [if_neg hge]
    cases hc : cellOf col sel i with
    | none => simp [hge]
    | some shape => simp [hge]

/-- What it finds: the clipped shape of the cell, or no axes. -/
theorem plainRowShape_ok {i : Nat} {clipped : IPosition}
    (h : plainRowShape col sel i = .ok clipped) :
    match cellOf col sel i with
    | none => clipped = []
    | some shape => clip col.columnDesc sel shape = .ok clipped := by
  unfold plainRowShape at h
  dsimp only at h
  split at h
  · cases h
  · cases hc : cellOf col sel i with
    | none =>
        rw [hc] at h
        exact (Except.ok.inj h).symm
    | some shape =>
        rw [hc] at h
        exact h

/-- It finds no axes exactly for a row without a cell. -/
theorem plainRowShape_missing (hvar : col.columnDesc.fixedShape = none)
    {i : Nat} {clipped : IPosition}
    (h : plainRowShape col sel i = .ok clipped) :
    clipped = [] ↔ (cellOf col sel i).isNone = true := by
  have hfound := plainRowShape_ok h
  cases hc : cellOf col sel i with
  | none =>
      rw [hc] at hfound
      exact iff_of_true hfound rfl
  | some shape =>
      rw [hc] at hfound
      have hne := clip_ne_nil (col.cell_rank _ _ hvar (cellOf_lt hc).2.2) hfound
      exact iff_of_false hne Bool.false_ne_true

-- =============================================================== the claim

/-- With missing rows allowed, the compressed scan fails exactly when a
row lies beyond the table or the selection does not fit its cell.
Otherwise there is a common shape exactly if there are rows, none is
missing and all are clipped to it; without one, the shapes are those of
the rows, empty for a missing one. -/
theorem rowScan_exact (col : TableColumn α) (sel : Selection)
    (hvar : col.columnDesc.fixedShape = none) :
    ((∃ e, rowScan col sel true = .error e)
      ↔ ∃ i < selectedRows sel col.nrow, (col.nrow : Int) ≤ selectedRow sel i
        ∨ ∃ shape, cellOf col sel i = some shape
          ∧ ∃ e, clip col.columnDesc sel shape = .error e)
    ∧ ∀ data, rowScan col sel true = .ok data →
      (∀ common, data.commonShape = some common
        ↔ 0 < selectedRows sel col.nrow
          ∧ ∀ i < selectedRows sel col.nrow, ∃ shape,
            cellOf col sel i = some shape
              ∧ clip col.columnDesc sel shape = .ok common)
      ∧ (data.commonShape = none → List.Forall₂ (fun i clipped =>
          match cellOf col sel i with
          | none => clipped = []
          | some shape => clip col.columnDesc sel shape = .ok clipped)
          (List.range (selectedRows sel col.nrow)) data.shapes)
      ∧ data.missingRows = (List.range (selectedRows sel col.nrow)).countP
          fun i => (cellOf col sel i).isNone := by
  have hscan := @rowScan_plain _ sel col hvar
  constructor
  · simp only [← plainRowShape_error_iff]
    cases hmap : (List.range (selectedRows sel col.nrow)).mapM
        (plainRowShape col sel) with
    | error e =>
        rw [hmap] at hscan
        obtain ⟨i, hi, he⟩ := mapM_error hmap
        exact iff_of_true ⟨e, hscan⟩ ⟨i, List.mem_range.mp hi, e, he⟩
    | ok shapes =>
        rw [hmap] at hscan
        refine iff_of_false ?_ ?_
        · intro hx
          obtain ⟨e, he⟩ := hx
          rw [hscan] at he
          cases he
        · intro hx
          obtain ⟨i, hi, he⟩ := hx
          obtain ⟨e', he'⟩ := mapM_isError (List.mem_range.mpr hi) he
          rw [hmap] at he'
          cases he'
  · intro data hdata
    obtain ⟨shapes, hmap, heq⟩ := Result.bind_eq_ok.mp (hscan.symm.trans hdata)
    cases heq
    have hall := mapM_eq_ok.mp hmap
    have hlen := hall.length_eq
    rw [List.length_range] at hlen
    refine ⟨fun common => ?_, fun hnone => ?_, ?_⟩
    · rw [rowSummary_common]
      constructor
      · intro hx
        obtain ⟨hnil, hne, hsame⟩ := hx
        refine ⟨by have := List.length_pos_of_ne_nil hnil; omega,
          fun i hi => ?_⟩
        obtain ⟨clipped, hmem, hplain⟩ := forall₂_mem_right hall.flip
          (List.mem_range.mpr hi)
        obtain rfl := hsame clipped hmem
        have hcell := plainRowShape_ok hplain
        have hmissing := plainRowShape_missing hvar hplain
        cases hc : cellOf col sel i with
        | none => exact absurd (hmissing.mpr (by rw [hc]; rfl)) hne
        | some shape =>
            rw [hc] at hcell
            exact ⟨shape, rfl, hcell⟩
      · intro hx
        obtain ⟨hpos, hsame⟩ := hx
        obtain ⟨shape, hc, hclip⟩ := hsame 0 hpos
        refine ⟨List.ne_nil_of_length_pos (by omega), clip_ne_nil
          (col.cell_rank _ _ hvar (cellOf_lt hc).2.2) hclip, fun s hs => ?_⟩
        obtain ⟨i, hi, hplain⟩ := forall₂_mem_right hall hs
        obtain ⟨shape', hc', hclip'⟩ := hsame i (List.mem_range.mp hi)
        have hcell := plainRowShape_ok hplain
        rw [hc'] at hcell
        exact Except.ok.inj (hcell.symm.trans hclip')
    · rw [rowSummary_shapes hnone]
      exact hall.imp fun i clipped hi => plainRowShape_ok hi
    · rw [rowSummary_missingRows, List.count]
      refine (forall₂_countP (fun i clipped hi => ?_) hall).symm
      refine Bool.eq_iff_iff.mpr ?_
      rw [← plainRowShape_missing hvar hi, beq_iff_eq]

/-- Two rows of one shape, a gap, the same shape again, and a cell of
another rank. -/
def gappyColumn : TableColumn Nat where
  columnDesc := .withoutShape "GAPPY" .tpInt none
  nrow := 5
  cellShape row := [some [3], some [3], none, some [3], some [2, 3]].getD row none
  value _ := 0
  cell_nrow := by
    intro r s h
    by_contra hge
    rw [List.getD_eq_default _ _ (Nat.le_of_not_lt hge)] at h
    cases h
  cell_fixed := by intro s r hs; cases hs
  cell_rank := by
    intro r s _ h
    match r, h with
    | 0, h | 1, h | 3, h | 4, h =>
        cases h
        exact List.cons_ne_nil _ _
  cell_ndim := by intro r s h; exact absurd h (by decide)

/-- Two indices of the last axis of a cell; of the rows, a cell of another
rank between cells of one shape, the gap and a missing row. -/
def clippedRows : Selection := ⟨[[2, 0], [0, 4, 3, 2, 1, -1]]⟩

/-- Each cell is clipped in the axis it has last, whatever the rank of the
one before it. -/
theorem rowScan_exact_sample : ∃ data,
    rowScan gappyColumn clippedRows true = .ok data
      ∧ data.commonShape ≠ some [2]
      ∧ data.shapes = [[2], [2, 2], [2], [], [2], []]
      ∧ data.missingRows = 2 := by
  obtain ⟨hcommon, -, hmissing⟩ := (rowScan_exact gappyColumn clippedRows rfl).2
    ⟨none, [[2], [2, 2], [2], [], [2], []], 2⟩ rfl
  refine ⟨⟨none, [[2], [2, 2], [2], [], [2], []], 2⟩, rfl, fun h => ?_, rfl,
    hmissing.trans (by decide)⟩
  obtain ⟨shape, hcell, -⟩ := ((hcommon [2]).mp h).2 3 (by decide)
  cases hcell

end Arcae
