/-
What a write that passes `MakeWrite` may rely on.

The rows of a variably shaped column are visited one after the other,
and each visit leaves the row with a cell that has room for its data
(`HasRoom`): an existing cell was checked, a fresh one was made large
enough. Later visits only give cells to rows that have none, so what a
visit leaves behind stays (`Grows`), and the loop ends with room in
every row it visited. The check that is skipped when a row repeats the
shapes of the one before was passed then (`LastChecked`).

Rows of a fixed column all have the column's own cell, which is checked
once. Row numbers are checked only against a row selection: without
one, the loop stops at the end of the column, and the rows of data
beyond it go unseen.
-/
import Arcae.Model.Write
import Arcae.Proofs.ArrowShape
import Arcae.Proofs.ReadShape
import Arcae.Proofs.Slips

namespace Arcae

open Loops

variable {α β : Type} {col col' : TableColumn α} {sel : Selection}
  {rs : ResultShapeData} {desc : ColumnDesc}

-- ================================================================== room

/-- A cell has room for a row of data: for the selected indices, and for
all of each unselected dimension. -/
def HasRoom (sel : Selection) (ndim : Nat) (cell data : IPosition) : Prop :=
  ∀ dim < ndim - 1, ∃ size, cell[dim]? = some size
    ∧ (∀ ids, sel.maybeFSpan dim ndim = some ids → ∀ i ∈ ids, i < (size : Int))
    ∧ (sel.maybeFSpan dim ndim = none → data.getD dim 0 ≤ size)

/-- A cell that passes the checks has room. -/
theorem checkAgainstCell_ok {ndim : Nat} {cell data : IPosition} {u : Unit}
    (h : checkAgainstCell desc sel ndim cell data = .ok u) :
    HasRoom sel ndim cell data := by
  intro dim hdim
  have hcheck := forM_eq_ok.mp h dim (List.mem_range.mpr hdim)
  unfold checkDimAgainstCell at hcheck
  split at hcheck
  · cases hcheck
  · rename_i size hsize
    refine ⟨size, hsize, ?_⟩
    cases hspan : sel.maybeFSpan dim ndim with
    | some ids =>
        simp only [dimSelection, hspan, Option.map_some] at hcheck
        split at hcheck
        · cases hcheck
        · split at hcheck
          · cases hcheck
          · rename_i hmax
            refine ⟨fun ids' hsome => ?_, (fun hnone => by cases hnone)⟩
            cases hsome
            exact (maxIndex_lt (Selection.maybeFSpan_ne_nil hspan)).mp
              (Int.not_le.mp hmax)
    | none =>
        simp only [dimSelection, hspan, Option.map_none] at hcheck
        split at hcheck
        · cases hcheck
        · rename_i dataSize hdata
          split at hcheck
          · cases hcheck
          · rename_i hle
            refine ⟨(fun _ hsome => by cases hsome), fun _ => ?_⟩
            rw [List.getD_eq_getElem?_getD, hdata]
            exact Nat.not_lt.mp hle

@[simp] theorem newCellShape_length (ndim : Nat) (data : IPosition) :
    (newCellShape sel ndim data).length = data.length := by
  simp [newCellShape]

/-- A fresh cell goes as far as the data, and beyond the selected
indices. -/
theorem newCellShape_at {ndim dim : Nat} {data : IPosition}
    (hdim : dim < data.length) :
    ∃ size, (newCellShape sel ndim data)[dim]? = some size
      ∧ data.getD dim 0 ≤ size
      ∧ ∀ ids, sel.maybeFSpan dim ndim = some ids →
          maxIndex ids + 1 ≤ (size : Int) := by
  have hlt : dim < (newCellShape sel ndim data).length := by simpa using hdim
  refine ⟨_, List.getElem?_eq_getElem hlt, ?_⟩
  simp only [newCellShape, List.getElem_map, List.getElem_zipIdx, Nat.zero_add,
    List.getD_eq_getElem _ _ hdim, dimSelection]
  cases hspan : sel.maybeFSpan dim ndim with
  | none =>
      exact ⟨Nat.le_refl _, (fun _ hsome => by cases hsome)⟩
  | some ids =>
      simp only [Option.map_some]
      have hleft := Int.le_max_left (maxIndex ids + 1) (data[dim] : Int)
      have hright := Int.le_max_right (maxIndex ids + 1) (data[dim] : Int)
      have hself := Int.self_le_toNat (max (maxIndex ids + 1) (data[dim] : Int))
      refine ⟨by omega, fun ids' hsome => ?_⟩
      cases hsome
      exact Int.le_trans hleft hself

/-- A fresh cell has room. -/
theorem newCellShape_hasRoom {ndim : Nat} {data : IPosition}
    (hlen : data.length = ndim - 1) :
    HasRoom sel ndim (newCellShape sel ndim data) data := by
  intro dim hdim
  obtain ⟨size, hat, hdata, hmax⟩ :=
    @newCellShape_at sel ndim dim data (hlen ▸ hdim)
  refine ⟨size, hat, fun ids hids i hi => ?_, fun _ => hdata⟩
  have hle := (maxIndex_spec (Selection.maybeFSpan_ne_nil hids)).2 i hi
  have := hmax ids hids
  omega

-- =============================================================== growing

/-- A column in which some rows without a cell may have been given one;
nothing else differs. -/
structure Grows (rows : Int → Prop) (col col' : TableColumn α) : Prop where
  columnDesc : col'.columnDesc = col.columnDesc
  nrow : col'.nrow = col.nrow
  value : col'.value = col.value
  defined : ∀ r s, col.cellShape r = some s → col'.cellShape r = some s
  others : ∀ r : Nat, ¬ rows r → col'.cellShape r = col.cellShape r

theorem Grows.refl (rows : Int → Prop) (col : TableColumn α) :
    Grows rows col col :=
  ⟨rfl, rfl, rfl, fun _ _ h => h, fun _ _ => rfl⟩

theorem Grows.trans {rows : Int → Prop} {col₁ col₂ col₃ : TableColumn α}
    (h : Grows rows col₁ col₂) (h' : Grows rows col₂ col₃) :
    Grows rows col₁ col₃ where
  columnDesc := h'.columnDesc.trans h.columnDesc
  nrow := h'.nrow.trans h.nrow
  value := h'.value.trans h.value
  defined r s hs := h'.defined r s (h.defined r s hs)
  others r hr := (h'.others r hr).trans (h.others r hr)

theorem Grows.mono {rows rows' : Int → Prop} (h : Grows rows col col')
    (hrows : ∀ r, rows r → rows' r) : Grows rows' col col' where
  columnDesc := h.columnDesc
  nrow := h.nrow
  value := h.value
  defined := h.defined
  others r hr := h.others r fun hr' => hr (hrows r hr')

/-- Giving a row a cell changes nothing else. -/
theorem setShape_ok {row : Nat} {shape : IPosition}
    (hnone : col.cellShape row = none) (h : col.setShape row shape = .ok col') :
    Grows (· = (row : Int)) col col' ∧ col'.cellShape row = some shape := by
  unfold TableColumn.setShape at h
  split at h
  · cases h
    refine ⟨⟨rfl, rfl, rfl, fun r s hs => ?_, fun r hr => ?_⟩, ?_⟩
    · have hne : r ≠ row := by
        intro heq
        subst heq
        rw [hnone] at hs
        cases hs
      exact (Function.update_of_ne hne _ _).trans hs
    · exact Function.update_of_ne (fun heq => hr (congrArg Int.ofNat heq)) _ _
    · exact Function.update_self _ _ _
  · cases h

-- ================================================================== rows

/-- The cell of a row of the data has room for it. -/
def RowHasRoom (col : TableColumn α) (sel : Selection) (rs : ResultShapeData)
    (k : Nat) : Prop :=
  ∃ cell, col.cellShape (selectedRow sel k).toNat = some cell
    ∧ HasRoom sel rs.rank cell (rs.rowDims k)

theorem RowHasRoom.grows {rows : Int → Prop} {k : Nat}
    (h : RowHasRoom col sel rs k) (hg : Grows rows col col') :
    RowHasRoom col' sel rs k := by
  obtain ⟨cell, hcell, hroom⟩ := h
  exact ⟨cell, hg.defined _ _ hcell, hroom⟩

/-- The shapes that passed the checks last have room. -/
def LastChecked (sel : Selection) (ndim : Nat) (st : WriteState α) : Prop :=
  ∀ cell data, st.last = some (cell, data) → HasRoom sel ndim cell data

/-- The shape of a row of the data, as the checks read it. -/
theorem dataRowShape_eq {k : Nat} (hk : k < rs.nRows ∨ rs.isFixed = true) :
    rs.dataRowShape rs.rank k = .ok (rs.rowDims k) := by
  unfold ResultShapeData.dataRowShape ResultShapeData.rowDims
  cases hs : rs.shape with
  | some shape => rfl
  | none =>
      have hlt : k < rs.getRowShapes.length := by
        rcases hk with hk | hk
        · rwa [ResultShapeData.nRows, hs] at hk
        · rw [ResultShapeData.isFixed, hs] at hk
          cases hk
      rw [ResultShapeData.getRowShape, List.getElem?_eq_getElem hlt,
        List.getD_eq_getElem _ _ hlt]

section Visits

variable {ndim k : Nat} {st : WriteState α} {dataShape : IPosition}

/-- A negative row is passed over. -/
theorem makeWriteRow_negative (hneg : selectedRow sel k < 0) :
    makeWriteRow rs sel ndim st k = .ok st := by
  unfold makeWriteRow
  dsimp only
  rw [if_pos hneg]

/-- A defined row is checked, unless both shapes are those that passed
last. -/
theorem makeWriteRow_defined {cell : IPosition}
    (hneg : ¬ selectedRow sel k < 0)
    (hshape : rs.dataRowShape ndim k = .ok dataShape)
    (hcell : st.col.cellShape (selectedRow sel k).toNat = some cell) :
    makeWriteRow rs sel ndim st k
      = if st.last = some (cell, dataShape) then .ok st
        else checkAgainstCell st.col.columnDesc sel ndim cell dataShape >>=
          fun _ => .ok { st with last := some (cell, dataShape) } := by
  unfold makeWriteRow
  dsimp only
  rw [if_neg hneg, hshape, Result.ok_bind, hcell]
  rfl

/-- An undefined row is given a cell. -/
theorem makeWriteRow_undefined (hneg : ¬ selectedRow sel k < 0)
    (hshape : rs.dataRowShape ndim k = .ok dataShape)
    (hcell : st.col.cellShape (selectedRow sel k).toNat = none) :
    makeWriteRow rs sel ndim st k
      = st.col.setShape (selectedRow sel k).toNat
          (newCellShape sel ndim dataShape) >>=
          fun col => .ok { st with col := col } := by
  unfold makeWriteRow
  dsimp only
  rw [if_neg hneg, hshape, Result.ok_bind, hcell]
  rfl

end Visits

/-- One visit: the row, if it is not skipped, has room afterwards. -/
theorem makeWriteRow_ok (hrs : rs.Consistent) {st st' : WriteState α} {k : Nat}
    (hk : k < rs.nRows) (hlast : LastChecked sel rs.rank st)
    (h : makeWriteRow rs sel rs.rank st k = .ok st') :
    Grows (fun r => r = selectedRow sel k) st.col st'.col
      ∧ LastChecked sel rs.rank st'
      ∧ (0 ≤ selectedRow sel k → RowHasRoom st'.col sel rs k) := by
  have hshape := dataRowShape_eq (.inl hk)
  by_cases hneg : selectedRow sel k < 0
  · rw [makeWriteRow_negative hneg] at h
    cases h
    exact ⟨Grows.refl _ _, hlast, fun hnn => by omega⟩
  · cases hcell : st.col.cellShape (selectedRow sel k).toNat with
    | some cell =>
        rw [makeWriteRow_defined hneg hshape hcell] at h
        split at h
        · -- checked for the row before
          rename_i hsame
          cases h
          exact ⟨Grows.refl _ _, hlast, fun _ => ⟨cell, hcell, hlast _ _ hsame⟩⟩
        · obtain ⟨_, hcheck, hst⟩ := Result.bind_eq_ok.mp h
          cases hst
          have hroom := checkAgainstCell_ok hcheck
          refine ⟨Grows.refl _ _, ?_, fun _ => ⟨cell, hcell, hroom⟩⟩
          intro _ _ hof
          cases hof
          exact hroom
    | none =>
        rw [makeWriteRow_undefined hneg hshape hcell] at h
        obtain ⟨col', hset, hst⟩ := Result.bind_eq_ok.mp h
        cases hst
        obtain ⟨hgrows, hnew⟩ := setShape_ok hcell hset
        refine ⟨hgrows.mono fun r hr => by omega, hlast, fun _ => ⟨_, hnew, ?_⟩⟩
        exact newCellShape_hasRoom (hrs.rowDims_length (.inl hk))

/-- A failed visit leaves the column as it is; so whatever the loop does,
it only gives cells to rows it visits. -/
theorem makeWriteRows_grows (hrs : rs.Consistent) :
    ∀ (rows : List Nat) (st : WriteState α), (∀ k ∈ rows, k < rs.nRows) →
      LastChecked sel rs.rank st →
      ∀ result col', makeWriteRows rs sel rs.rank rows st = (result, col') →
        Grows (fun r => ∃ k ∈ rows, r = selectedRow sel k) st.col col'
        ∧ (result = .ok () → ∀ k ∈ rows, 0 ≤ selectedRow sel k →
            RowHasRoom col' sel rs k) := by
  intro rows
  induction rows with
  | nil =>
      intro st _ _ result col' h
      cases h
      exact ⟨Grows.refl _ _, fun _ k hk => by cases hk⟩
  | cons k rows ih =>
      intro st hrows hlast result col' h
      obtain ⟨hk, hrest⟩ := List.forall_mem_cons.mp hrows
      rw [makeWriteRows] at h
      cases hstep : makeWriteRow rs sel rs.rank st k with
      | error e =>
          simp only [hstep] at h
          cases h
          exact ⟨Grows.refl _ _, fun hok => by cases hok⟩
      | ok st₁ =>
          simp only [hstep] at h
          obtain ⟨hgrows, hlast₁, hroom⟩ := makeWriteRow_ok hrs hk hlast hstep
          obtain ⟨hgrows', hroom'⟩ := ih st₁ hrest hlast₁ result col' h
          have hhead : ∀ r, r = selectedRow sel k →
              ∃ j ∈ k :: rows, r = selectedRow sel j :=
            fun r hr => ⟨k, List.mem_cons_self, hr⟩
          have htail : ∀ r, (∃ j ∈ rows, r = selectedRow sel j) →
              ∃ j ∈ k :: rows, r = selectedRow sel j := by
            intro r hr
            obtain ⟨j, hj, hr⟩ := hr
            exact ⟨j, List.mem_cons_of_mem _ hj, hr⟩
          refine ⟨(hgrows.mono hhead).trans (hgrows'.mono htail), ?_⟩
          intro hok j hj hnn
          rcases List.mem_cons.mp hj with rfl | hj
          · exact (hroom hnn).grows hgrows'
          · exact hroom' hok j hj hnn

-- ============================================================= MakeWrite

/-- What a write that passes the checks may rely on. -/
structure IsWrite (sel : Selection) (rs : ResultShapeData)
    (col col' : TableColumn α) : Prop where
  grows : Grows (fun r => ∃ k < nWrittenRows col rs sel, r = selectedRow sel k)
    col col'
  rowSpan : sel.hasRowSpan = true → sel.getRowSpan.length = rs.nRows
    ∧ ∀ r ∈ sel.getRowSpan, r < (col.nrow : Int)
  dims : 2 ≤ rs.rank → ∀ k, k < rs.nRows ∨ rs.isFixed = true →
    ∀ dim < rs.rank - 1, ∀ ids, sel.maybeFSpan dim rs.rank = some ids →
      (rs.rowDims k)[dim]? = some ids.length
  room : 2 ≤ rs.rank → ∀ k < rs.nRows,
    sel.hasRowSpan = true ∨ k < col.nrow → 0 ≤ selectedRow sel k →
      RowHasRoom col' sel rs k

theorem checkRowSelection_ok {nrow : Nat} {u : Unit}
    (h : checkRowSelection desc nrow rs sel = .ok u) :
    sel.hasRowSpan = true → sel.getRowSpan.length = rs.nRows
      ∧ ∀ r ∈ sel.getRowSpan, r < (nrow : Int) := by
  intro hspan
  unfold checkRowSelection at h
  rw [if_pos hspan] at h
  dsimp only at h
  split at h
  · cases h
  · split at h
    · cases h
    · rename_i hlen
      split at h
      · cases h
      · split at h
        · cases h
        · rename_i hfind
          refine ⟨Decidable.not_not.mp hlen, fun r hr => ?_⟩
          have := List.find?_eq_none.mp hfind r hr
          simpa using this

/-- The checks before the cells. -/
theorem checkWrite_ok {data : ArrowArray β} {ndim : Nat}
    (h : checkWrite col data sel = .ok (rs, ndim)) :
    IsDataShape col.columnDesc data.data rs ∧ ndim = rs.rank
      ∧ (col.columnDesc.ndim = -1 ∨ (rs.rank : Int) = col.columnDesc.ndim + 1)
      ∧ (sel.hasRowSpan = true → sel.getRowSpan.length = rs.nRows
          ∧ ∀ r ∈ sel.getRowSpan, r < (col.nrow : Int)) := by
  unfold checkWrite at h
  obtain ⟨_, -, h⟩ := Result.bind_eq_ok.mp h
  obtain ⟨rs', hshape, h⟩ := Result.bind_eq_ok.mp h
  obtain ⟨ndim', hndim, h⟩ := Result.bind_eq_ok.mp h
  split at h
  · cases h
  · rename_i hrank
    obtain ⟨_, hrows, h⟩ := Result.bind_eq_ok.mp h
    cases h
    have heq : ndim = rs.rank := by
      unfold ResultShapeData.consistentNDim at hndim
      split at hndim
      · exact (Except.ok.inj hndim).symm
      · cases hndim
    refine ⟨getResultShapeData_ok data.wellFormed hshape, heq, ?_,
      checkRowSelection_ok hrows⟩
    rw [← heq]
    by_cases hfree : col.columnDesc.ndim = -1
    · exact .inl hfree
    · exact .inr (Decidable.not_not.mp fun hne => hrank ⟨hfree, hne⟩)

/-- The shape a write works with is the one inferred from its data. -/
theorem makeWrite_shape {data : ArrowArray β}
    (h : ResultShapeData.makeWrite col data sel = (.ok rs, col')) :
    getResultShapeData col.columnDesc data.data = .ok rs := by
  unfold ResultShapeData.makeWrite at h
  cases hcheck : checkWrite col data sel with
  | error e =>
      simp only [hcheck] at h
      cases h
  | ok checked =>
      obtain ⟨rs₀, ndim⟩ := checked
      have hinferred : getResultShapeData col.columnDesc data.data = .ok rs₀ := by
        unfold checkWrite at hcheck
        obtain ⟨_, -, hcheck⟩ := Result.bind_eq_ok.mp hcheck
        obtain ⟨rs', hshape, hcheck⟩ := Result.bind_eq_ok.mp hcheck
        obtain ⟨ndim', -, hcheck⟩ := Result.bind_eq_ok.mp hcheck
        split at hcheck
        · cases hcheck
        · obtain ⟨_, -, hcheck⟩ := Result.bind_eq_ok.mp hcheck
          cases hcheck
          exact hshape
      -- no check changes it
      have hmap : ∀ {u : Result Unit}, (u.map fun _ => rs₀) = .ok rs →
          rs₀ = rs := by
        intro u hu
        cases u with
        | error e => cases hu
        | ok _ => exact Except.ok.inj hu
      have heq : rs₀ = rs := by
        simp only [hcheck] at h
        split at h
        · exact Except.ok.inj (Prod.mk.inj h).1
        · split at h
          · cases h
          · split at h
            · exact hmap (Prod.mk.inj h).1
            · exact hmap (Prod.mk.inj h).1
      rw [hinferred, heq]

/-- Checking each shape of the data is checking each row of it. -/
theorem forall_nDataRows {P : Nat → IPosition → Prop}
    (h : ∀ r < rs.nDataRows, P r (rs.rowDims r)) {k : Nat}
    (hk : k < rs.nRows ∨ rs.isFixed = true) :
    ∃ r, (r < rs.nRows ∨ rs.isFixed = true) ∧ P r (rs.rowDims k) := by
  unfold ResultShapeData.nDataRows at h
  by_cases hfixed : rs.isFixed = true
  · rw [if_pos hfixed] at h
    refine ⟨0, .inr hfixed, ?_⟩
    rw [ResultShapeData.rowDims_fixed hfixed k 0]
    exact h 0 Nat.one_pos
  · rw [if_neg hfixed] at h
    have hlt := hk.resolve_right hfixed
    exact ⟨k, .inl hlt, h k hlt⟩

/-- Shapes that are checked are shapes of rows. -/
theorem lt_nDataRows {r : Nat} (hr : r < rs.nDataRows) :
    r < rs.nRows ∨ rs.isFixed = true := by
  unfold ResultShapeData.nDataRows at hr
  by_cases hfixed : rs.isFixed = true
  · exact .inr hfixed
  · rw [if_neg hfixed] at hr
    exact .inl hr

theorem dataRowShape_of_lt {r : Nat} (hr : r < rs.nDataRows) :
    rs.dataRowShape rs.rank r = .ok (rs.rowDims r) :=
  dataRowShape_eq (lt_nDataRows hr)

/-- Selections match the data. -/
theorem checkData_ok {u : Unit} (h : checkData desc rs sel rs.rank = .ok u)
    {k : Nat} (hk : k < rs.nRows ∨ rs.isFixed = true) {dim : Nat}
    (hdim : dim < rs.rank - 1) {ids : Index}
    (hids : sel.maybeFSpan dim rs.rank = some ids) :
    (rs.rowDims k)[dim]? = some ids.length := by
  have hall : ∀ r < rs.nDataRows, (rs.rowDims r)[dim]? = some ids.length := by
    intro r hr
    have hrow := forM_eq_ok.mp h r (List.mem_range.mpr hr)
    rw [dataRowShape_of_lt hr, Result.ok_bind] at hrow
    have hcheck := forM_eq_ok.mp hrow dim (List.mem_range.mpr hdim)
    unfold checkDimAgainstData at hcheck
    simp only [dimSelection, hids, Option.map_some] at hcheck
    split at hcheck
    · cases hcheck
    · rename_i size hsize
      split at hcheck
      · cases hcheck
      · rename_i hlen
        rw [hsize, Decidable.not_not.mp hlen]
  obtain ⟨-, -, hat⟩ := forall_nDataRows (P := fun _ dims =>
    dims[dim]? = some ids.length) hall hk
  exact hat

/-- The one cell of a fixed column has room for every row. -/
theorem checkFixedCells_ok {cell : IPosition} {u : Unit}
    (h : checkFixedCells desc rs sel rs.rank cell = .ok u) {k : Nat}
    (hk : k < rs.nRows ∨ rs.isFixed = true) :
    HasRoom sel rs.rank cell (rs.rowDims k) := by
  have hall : ∀ r < rs.nDataRows, HasRoom sel rs.rank cell (rs.rowDims r) := by
    intro r hr
    have hrow := forM_eq_ok.mp h r (List.mem_range.mpr hr)
    rw [dataRowShape_of_lt hr, Result.ok_bind] at hrow
    exact checkAgainstCell_ok hrow
  obtain ⟨-, -, hroom⟩ := forall_nDataRows (P := fun _ dims =>
    HasRoom sel rs.rank cell dims) hall hk
  exact hroom

/-- Rows that are visited are rows of the data. -/
theorem lt_nRows_of_lt_nWrittenRows
    (hrows : sel.hasRowSpan = true → sel.getRowSpan.length = rs.nRows) {k : Nat}
    (hk : k < nWrittenRows col rs sel) : k < rs.nRows := by
  unfold nWrittenRows at hk
  by_cases hspan : sel.hasRowSpan = true
  · rw [if_pos hspan, hrows hspan] at hk
    exact hk
  · rw [if_neg hspan] at hk
    omega

/-- A row of the data lands within the column if it was selected, or lies
within the column itself. -/
theorem selectedRow_lt {nrow nDataRows : Nat}
    (hrows : sel.hasRowSpan = true → sel.getRowSpan.length = nDataRows
      ∧ ∀ r ∈ sel.getRowSpan, r < (nrow : Int))
    {k : Nat} (hk : k < nDataRows) (hin : sel.hasRowSpan = true ∨ k < nrow) :
    selectedRow sel k < (nrow : Int) := by
  unfold selectedRow
  by_cases hspan : sel.hasRowSpan = true
  · obtain ⟨hlen, hall⟩ := hrows hspan
    rw [if_pos hspan, List.getD_eq_getElem _ _ (by omega)]
    exact hall _ (List.getElem_mem _)
  · rw [if_neg hspan]
    exact Int.ofNat_lt.mpr (hin.resolve_left hspan)

/-- Rows that are visited are rows of the data, and land within the
column. -/
theorem nWrittenRows_lt
    (hrows : sel.hasRowSpan = true → sel.getRowSpan.length = rs.nRows
      ∧ ∀ r ∈ sel.getRowSpan, r < (col.nrow : Int))
    {k : Nat} (hk : k < nWrittenRows col rs sel) :
    k < rs.nRows ∧ selectedRow sel k < (col.nrow : Int) := by
  have hlt := lt_nRows_of_lt_nWrittenRows (fun hs => (hrows hs).1) hk
  refine ⟨hlt, selectedRow_lt hrows hlt ?_⟩
  unfold nWrittenRows at hk
  by_cases hspan : sel.hasRowSpan = true
  · exact .inl hspan
  · rw [if_neg hspan] at hk
    exact .inr (by omega)

/-- A write that passes. -/
theorem makeWrite_ok {data : ArrowArray β}
    (h : ResultShapeData.makeWrite col data sel = (.ok rs, col')) :
    IsDataShape col.columnDesc data.data rs ∧ IsWrite sel rs col col' := by
  unfold ResultShapeData.makeWrite at h
  split at h
  · cases h
  · rename_i rs₀ ndim hcheck
    obtain ⟨hshape, rfl, -, hspan⟩ := checkWrite_ok hcheck
    by_cases hrank : rs₀.rank ≤ 1
    · rw [if_pos hrank] at h
      cases h
      refine ⟨hshape, Grows.refl _ _, hspan, ?_, ?_⟩
      · intro htwo
        omega
      · intro htwo
        omega
    · rw [if_neg hrank] at h
      split at h
      · cases h
      · rename_i hdata
        split at h
        · -- every row has the column's own cell
          rename_i cell hfixed
          obtain ⟨hres, rfl⟩ := Prod.mk.inj h
          cases hcells : checkFixedCells col.columnDesc rs₀ sel rs₀.rank cell with
          | error e =>
              rw [hcells] at hres
              cases hres
          | ok u =>
              obtain rfl : rs₀ = rs := by simpa [hcells, Except.map] using hres
              refine ⟨hshape, Grows.refl _ _, hspan,
                fun _ k hk dim hdim ids hids => checkData_ok hdata hk hdim hids, ?_⟩
              intro _ k hk hin hnn
              have hlt := selectedRow_lt hspan hk hin
              have hlt : (selectedRow sel k).toNat < col.nrow := by omega
              exact ⟨cell, col.cell_fixed _ _ hfixed hlt,
                checkFixedCells_ok hcells (.inl hk)⟩
        · -- each row that is visited is left with a cell
          rename_i hvar
          split at h
          rename_i result col₁ hloop
          obtain ⟨hres, rfl⟩ := Prod.mk.inj h
          cases result with
          | error e => cases hres
          | ok u =>
              obtain rfl : rs₀ = rs := by simpa [Except.map] using hres
              have hrs := hshape.consistent_of_rank (by omega)
              have hlast : LastChecked sel rs₀.rank ⟨col, none⟩ := by
                intro cell data hnone
                cases hnone
              obtain ⟨hgrows, hroom⟩ := makeWriteRows_grows hrs _ _
                (fun k hk => lt_nRows_of_lt_nWrittenRows (fun h => (hspan h).1)
                  (List.mem_range.mp hk)) hlast _ _ hloop
              refine ⟨hshape, hgrows.mono ?_, hspan,
                fun _ k hk dim hdim ids hids => checkData_ok hdata hk hdim hids, ?_⟩
              · intro r hr
                obtain ⟨k, hk, hr⟩ := hr
                exact ⟨k, List.mem_range.mp hk, hr⟩
              · intro _ k hk hin hnn
                refine hroom rfl k (List.mem_range.mpr ?_) hnn
                unfold nWrittenRows
                by_cases hspan' : sel.hasRowSpan = true
                · rw [if_pos hspan', (hspan hspan').1]
                  exact hk
                · rw [if_neg hspan']
                  have := hin.resolve_left hspan'
                  omega

end Arcae
