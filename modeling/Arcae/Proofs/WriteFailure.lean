/-
What a failed write leaves behind.

Everything that fails before the chunks fails after `MakeWrite` has
visited rows, or while it does, and a visit may have given a row a cell
by then. Values are never touched (`Grows`), so the column is as it was
unless some row was given a cell. The first row that is given one is
the first row without one that the loop gets to: it is reached when the
checks before the loop pass, and so do those of the defined rows before
it (`ReachesUndefined`).
-/
import Arcae.Proofs.WriteBounds

namespace Arcae

open Loops

variable {α β : Type} {col col' : TableColumn α} {sel : Selection}
  {rs : ResultShapeData}

-- =========================================================== fresh cells

/-- A row of the data that is written to a row without a cell. -/
def RowFresh (col : TableColumn α) (sel : Selection) (k : Nat) : Prop :=
  0 ≤ selectedRow sel k ∧ col.cellShape (selectedRow sel k).toNat = none

/-- A row of the data that the checks against its cell let pass. -/
def RowPasses (col : TableColumn α) (sel : Selection) (rs : ResultShapeData)
    (k : Nat) : Prop :=
  0 ≤ selectedRow sel k → ∀ cell,
    col.cellShape (selectedRow sel k).toNat = some cell →
      checkAgainstCell col.columnDesc sel rs.rank cell (rs.rowDims k) = .ok ()

/-- Some row is written to a row without a cell, and every row before it
passes. -/
def FreshRowReached (col : TableColumn α) (sel : Selection)
    (rs : ResultShapeData) (rows : List Nat) : Prop :=
  ∃ before k after, rows = before ++ k :: after ∧ RowFresh col sel k
    ∧ ∀ j ∈ before, RowPasses col sel rs j

theorem freshRowReached_cons {k : Nat} {rows : List Nat}
    (hfresh : ¬ RowFresh col sel k) :
    FreshRowReached col sel rs (k :: rows)
      ↔ RowPasses col sel rs k ∧ FreshRowReached col sel rs rows := by
  constructor
  · intro h
    obtain ⟨before, j, after, heq, hj, hpass⟩ := h
    cases before with
    | nil =>
        cases heq
        exact absurd hj hfresh
    | cons k' before =>
        cases heq
        obtain ⟨hk, hrest⟩ := List.forall_mem_cons.mp hpass
        exact ⟨hk, before, j, after, rfl, hj, hrest⟩
  · intro h
    obtain ⟨hk, before, j, after, rfl, hj, hpass⟩ := h
    exact ⟨k :: before, j, after, rfl, hj, List.forall_mem_cons.mpr ⟨hk, hpass⟩⟩

/-- A row in range can be given a cell of the data's rank. -/
theorem setShape_isOk {row : Nat} {shape : IPosition}
    (hvar : col.columnDesc.fixedShape = none) (hrow : row < col.nrow)
    (hne : shape ≠ [])
    (hndim : 0 ≤ col.columnDesc.ndim → col.columnDesc.ndim = shape.length) :
    ∃ col', col.setShape row shape = .ok col' := by
  unfold TableColumn.setShape
  rw [dif_pos ⟨hvar, hrow, hne, hndim⟩]
  exact ⟨_, rfl⟩

-- =============================================================== the loop

/-- What the rows of a loop are promised: rows of the data, written to
rows of a column whose cells vary, of the rank of its cells. -/
structure RowsVisited (col : TableColumn α) (sel : Selection)
    (rs : ResultShapeData) (rows : List Nat) : Prop where
  varying : col.columnDesc.fixedShape = none
  rank : 2 ≤ rs.rank
  ndim : 0 ≤ col.columnDesc.ndim → (rs.rank : Int) = col.columnDesc.ndim + 1
  rows : ∀ k ∈ rows, k < rs.nRows ∧ selectedRow sel k < (col.nrow : Int)

/-- The shapes of the last check passed it. -/
def LastPassed (sel : Selection) (rs : ResultShapeData)
    (st : WriteState α) : Prop :=
  ∀ cell data, st.last = some (cell, data) →
    checkAgainstCell st.col.columnDesc sel rs.rank cell data = .ok ()

/-- A defined row ends with the result of the check of its cell, whether
the check is made or skipped; and what is remembered passed. -/
theorem makeWriteRow_checked {st : WriteState α} {k : Nat}
    {cell dataShape : IPosition} (hlast : LastPassed sel rs st)
    (hneg : ¬ selectedRow sel k < 0)
    (hshape : rs.dataRowShape rs.rank k = .ok dataShape)
    (hcell : st.col.cellShape (selectedRow sel k).toNat = some cell) :
    ∃ st', makeWriteRow rs sel rs.rank st k
          = (checkAgainstCell st.col.columnDesc sel rs.rank cell dataShape >>=
              fun _ => .ok st')
      ∧ st'.col = st.col
      ∧ (checkAgainstCell st.col.columnDesc sel rs.rank cell dataShape = .ok () →
          LastPassed sel rs st') := by
  have hturn := @makeWriteRow_defined _ sel rs rs.rank k st _ _ hneg hshape hcell
  by_cases hsame : st.last = some (cell, dataShape)
  · -- the shapes passed for the row before
    refine ⟨st, ?_, rfl, fun _ => hlast⟩
    rw [hturn, if_pos hsame, hlast _ _ hsame, Result.ok_bind]
  · refine ⟨{ st with last := some (cell, dataShape) }, ?_, rfl,
      fun hpassed cell' data' heq => ?_⟩
    · rw [hturn, if_neg hsame]
    · cases heq
      exact hpassed

/-- A row that is not fresh leaves the column; it passes exactly if the
loop goes on. The check that is skipped was passed by the row before. -/
theorem makeWriteRow_notFresh {st : WriteState α} {k : Nat}
    (hk : k < rs.nRows) (hlast : LastPassed sel rs st)
    (hfresh : ¬ RowFresh st.col sel k) :
    (RowPasses st.col sel rs k ∧
      ∃ st', makeWriteRow rs sel rs.rank st k = .ok st' ∧
        st'.col = st.col ∧ LastPassed sel rs st') ∨
    (¬ RowPasses st.col sel rs k ∧
      ∃ e, makeWriteRow rs sel rs.rank st k = .error e) := by
  by_cases hneg : selectedRow sel k < 0
  · -- not written
    exact .inl ⟨fun hnn => by omega, st, makeWriteRow_negative hneg, rfl, hlast⟩
  · cases hcell : st.col.cellShape (selectedRow sel k).toNat with
    | none => exact absurd ⟨by omega, hcell⟩ hfresh
    | some cell =>
        have hpassIff : RowPasses st.col sel rs k
            ↔ checkAgainstCell st.col.columnDesc sel rs.rank cell
                (rs.rowDims k) = .ok () := by
          constructor
          · intro hp
            exact hp (by omega) cell hcell
          · intro hc _ cell' hcell'
            rw [hcell] at hcell'
            cases hcell'
            exact hc
        rw [hpassIff]
        obtain ⟨st', hturn, hcol, hlast'⟩ :=
          makeWriteRow_checked hlast hneg (dataRowShape_eq (.inl hk)) hcell
        rw [hturn]
        cases hcheck : checkAgainstCell st.col.columnDesc sel rs.rank cell
            (rs.rowDims k) with
        | error e =>
            refine .inr ⟨fun hok => ?_, e, rfl⟩
            cases hok
        | ok => exact .inl ⟨rfl, st', rfl, hcol, hlast' hcheck⟩

/-- A fresh row is given a cell. -/
theorem makeWriteRow_fresh (hrs : rs.Consistent) {st : WriteState α} {k : Nat}
    {rows : List Nat} (hvis : RowsVisited st.col sel rs (k :: rows))
    (hlast : LastPassed sel rs st) (hfresh : RowFresh st.col sel k) :
    ∃ col₁, makeWriteRow rs sel rs.rank st k = .ok { st with col := col₁ } ∧
      LastChecked sel rs.rank { st with col := col₁ } ∧
      col₁.cellShape (selectedRow sel k).toNat
        = some (newCellShape sel rs.rank (rs.rowDims k)) := by
  obtain ⟨hnn, hcell⟩ := hfresh
  obtain ⟨⟨hk, hlt⟩, -⟩ := List.forall_mem_cons.mp hvis.rows
  have hshape := dataRowShape_eq (.inl hk)
  have hlen := hrs.rowDims_length (.inl hk)
  have hrank := hvis.rank
  obtain ⟨col₁, hset⟩ := @setShape_isOk _ st.col
    (selectedRow sel k).toNat (newCellShape sel rs.rank (rs.rowDims k))
    hvis.varying (by omega) (by
      refine List.ne_nil_of_length_pos ?_
      rw [newCellShape_length]
      omega) (by
      intro hnonneg
      have := hvis.ndim hnonneg
      rw [newCellShape_length, hlen]
      omega)
  obtain ⟨hgrows, hnew⟩ := setShape_ok hcell hset
  refine ⟨col₁, ?_, fun cell data heq => checkAgainstCell_ok (hlast cell data heq),
    hnew⟩
  rw [makeWriteRow_undefined (Int.not_lt.mpr hnn) hshape hcell, hset,
    Result.ok_bind]

/-- The loop gives some row a cell exactly when it reaches one without. -/
theorem makeWriteRows_cells (hrs : rs.Consistent) :
    ∀ (rows : List Nat) (st : WriteState α),
      RowsVisited st.col sel rs rows →
      LastPassed sel rs st →
      ∀ result col', makeWriteRows rs sel rs.rank rows st = (result, col') →
        (col'.cellShape ≠ st.col.cellShape
          ↔ FreshRowReached st.col sel rs rows) := by
  intro rows
  induction rows with
  | nil =>
      intro st _ _ result col' h
      cases h
      refine ⟨fun hne => absurd rfl hne, fun hreach => ?_⟩
      obtain ⟨before, k, after, heq, -⟩ := hreach
      cases before <;> cases heq
  | cons k rows ih =>
      intro st hvis hlast result col' h
      obtain ⟨⟨hk, hlt⟩, hrest⟩ := List.forall_mem_cons.mp hvis.rows
      rw [makeWriteRows] at h
      by_cases hfresh : RowFresh st.col sel k
      · -- the row is given a cell, and keeps it
        obtain ⟨col₁, hstep, hlast', hnew⟩ :=
          makeWriteRow_fresh hrs hvis hlast hfresh
        simp only [hstep] at h
        obtain ⟨hgrows', -⟩ := makeWriteRows_grows hrs rows
          { st with col := col₁ } (fun j hj => (hrest j hj).1) hlast' result
          col' h
        constructor
        · intro _
          exact ⟨[], k, rows, rfl, hfresh, fun j hj => by cases hj⟩
        · intro _ heq
          have hdef := hgrows'.defined _ _ hnew
          rw [heq, hfresh.2] at hdef
          cases hdef
      · -- the column stays, whatever becomes of the check
        rw [freshRowReached_cons hfresh]
        rcases makeWriteRow_notFresh hk hlast hfresh with
          ⟨hpass, st', hstep, hcol, hlast'⟩ | ⟨hpass, e, hstep⟩
        · have hvis' : RowsVisited st'.col sel rs rows :=
            ⟨hcol ▸ hvis.varying, hvis.rank, hcol ▸ hvis.ndim, hcol ▸ hrest⟩
          simp only [hstep] at h
          have hloop := ih st' hvis' hlast' result col' h
          rw [hcol] at hloop
          rw [hloop]
          exact ⟨fun hreach => ⟨hpass, hreach⟩, fun hboth => hboth.2⟩
        · simp only [hstep] at h
          cases h
          exact ⟨fun hne => absurd rfl hne, fun hboth => absurd hboth.1 hpass⟩

-- ======================================================= the whole write

/-- `MakeWrite` reaches a row without a cell: the checks before the rows
pass, and so do all rows before it. -/
def ReachesUndefined (col : TableColumn α) (data : ArrowArray β)
    (sel : Selection) : Prop :=
  ∃ rs ndim, checkWrite col data sel = .ok (rs, ndim) ∧ 1 < ndim
    ∧ checkData col.columnDesc rs sel ndim = .ok ()
    ∧ col.columnDesc.fixedShape = none
    ∧ FreshRowReached col sel rs (List.range (nWrittenRows col rs sel))

/-- `MakeWrite` changes cells exactly when it reaches a row without one,
and never changes a value. -/
theorem makeWrite_cells {data : ArrowArray β} {result : Result ResultShapeData}
    (h : ResultShapeData.makeWrite col data sel = (result, col')) :
    col'.value = col.value
      ∧ (col'.cellShape ≠ col.cellShape ↔ ReachesUndefined col data sel) := by
  -- no way that leaves the column as it is gets to the rows
  have hkept : col' = col → ¬ ReachesUndefined col data sel →
      col'.value = col.value
        ∧ (col'.cellShape ≠ col.cellShape ↔ ReachesUndefined col data sel) := by
    intro heq hno
    subst heq
    exact ⟨rfl, ⟨fun hne => absurd rfl hne, fun hr => absurd hr hno⟩⟩
  unfold ResultShapeData.makeWrite at h
  cases hcheck : checkWrite col data sel with
  | error e =>
      simp only [hcheck] at h
      refine hkept (Prod.mk.inj h).2.symm fun hr => ?_
      obtain ⟨_, _, hok, -⟩ := hr
      rw [hcheck] at hok
      cases hok
  | ok checked =>
      obtain ⟨rs, ndim⟩ := checked
      obtain ⟨hshape, rfl, hndim, hspan⟩ := checkWrite_ok hcheck
      -- what reaching an undefined row says of this shape
      have hreach : ReachesUndefined col data sel
          ↔ 1 < rs.rank ∧ checkData col.columnDesc rs sel rs.rank = .ok ()
            ∧ col.columnDesc.fixedShape = none
            ∧ FreshRowReached col sel rs
                (List.range (nWrittenRows col rs sel)) := by
        constructor
        · intro hr
          obtain ⟨rs', ndim', hok, hrest⟩ := hr
          rw [hcheck] at hok
          cases hok
          exact hrest
        · intro hr
          exact ⟨rs, rs.rank, hcheck, hr⟩
      simp only [hcheck] at h
      by_cases hrank : rs.rank ≤ 1
      · rw [if_pos hrank] at h
        refine hkept (Prod.mk.inj h).2.symm fun hr => ?_
        have := (hreach.mp hr).1
        omega
      · rw [if_neg hrank] at h
        cases hdata : checkData col.columnDesc rs sel rs.rank with
        | error e =>
            simp only [hdata] at h
            refine hkept (Prod.mk.inj h).2.symm fun hr => ?_
            have hok := (hreach.mp hr).2.1
            rw [hdata] at hok
            cases hok
        | ok u =>
            simp only [hdata] at h
            cases hfixed : col.columnDesc.fixedShape with
            | some cell =>
                simp only [hfixed] at h
                refine hkept (Prod.mk.inj h).2.symm fun hr => ?_
                have hvar := (hreach.mp hr).2.2.1
                rw [hfixed] at hvar
                cases hvar
            | none =>
                simp only [hfixed] at h
                obtain ⟨-, rfl⟩ := Prod.mk.inj h
                have hrs := hshape.consistent_of_rank (by omega)
                have hrows : ∀ k ∈ List.range (nWrittenRows col rs sel),
                    k < rs.nRows ∧ selectedRow sel k < (col.nrow : Int) :=
                  fun k hk => nWrittenRows_lt hspan (List.mem_range.mp hk)
                have hvis : RowsVisited col sel rs
                    (List.range (nWrittenRows col rs sel)) := by
                  refine ⟨hfixed, by omega, fun hnn => ?_, hrows⟩
                  rcases hndim with hneg | heq
                  · omega
                  · exact heq
                have hloop := makeWriteRows_cells hrs _ ⟨col, none⟩ hvis
                  (fun _ _ hnone => by cases hnone) _ _ rfl
                have hlast : LastChecked sel rs.rank ⟨col, none⟩ := by
                  intro cell data hnone
                  cases hnone
                have hgrows := (makeWriteRows_grows hrs _ ⟨col, none⟩
                  (fun k hk => (hrows k hk).1) hlast _ _ rfl).1
                refine ⟨hgrows.value, hloop.trans ?_⟩
                rw [hreach]
                exact ⟨fun hf => ⟨by omega, hdata, hfixed, hf⟩, fun hr => hr.2.2.2⟩

/-- A write that fails before the chunks leaves every cell and every
value as it was, exactly when it does not reach a row without a
cell. -/
theorem failed_write_unchanged_iff (srt : StdSort)
    (cast : LeafArray β → ArrowType → Result (LeafArray β)) (around : Memory β)
    {data : ArrowArray β} {e : Status}
    (h : planWrite srt cast around col data sel = (.error e, col')) :
    (col'.cellShape = col.cellShape ∧ col'.value = col.value)
      ↔ ¬ ReachesUndefined col data sel := by
  have hcol : ∃ result,
      ResultShapeData.makeWrite col data sel = (result, col') := by
    unfold planWrite at h
    cases hw : ResultShapeData.makeWrite col data sel with
    | mk result col₁ =>
        cases result with
        | error e' =>
            simp only [hw] at h
            exact ⟨_, by rw [(Prod.mk.inj h).2]⟩
        | ok rs =>
            simp only [hw] at h
            exact ⟨_, by rw [(Prod.mk.inj h).2]⟩
  obtain ⟨result, hw⟩ := hcol
  obtain ⟨hvalue, hcells⟩ := makeWrite_cells hw
  rw [← hcells]
  exact ⟨fun hkept hne => hne hkept.1,
    fun hno => ⟨not_not.mp hno, hvalue⟩⟩

/-- A column of `nrow` rows of vectors, of which only the last has a
cell, of one element. -/
def lastDefined (nrow : Nat) : TableColumn Nat where
  columnDesc := .withoutShape "RAGGED" .tpInt (some 1)
  nrow := nrow
  cellShape row := if row + 1 = nrow then some [1] else none
  value _ := 0
  cell_nrow := by
    intro r s h
    split at h
    · rename_i hlast
      exact Nat.lt_of_succ_le (Nat.le_of_eq hlast)
    · cases h
  cell_fixed := by intro s r hs; cases hs
  cell_rank := by
    intro r s _ h
    split at h
    · cases h
      exact List.cons_ne_nil _ _
    · cases h
  cell_ndim := by
    intro r s _ h
    split at h
    · cases h
      rfl
    · cases h

/-- Where the row that fails is the first, nothing has changed by then. -/
theorem failed_write_unchanged_sample : ∃ e col',
    planWrite .insertion (fun leaf _ => .ok leaf) (fun _ => 0) (lastDefined 1)
        (pairRows 1) .empty = (.error e, col')
      ∧ col'.cellShape = (lastDefined 1).cellShape
      ∧ col'.value = (lastDefined 1).value := by
  refine ⟨_, _, rfl, ?_⟩
  refine (@failed_write_unchanged_iff _ _ (lastDefined 1) _ .empty .insertion
    (fun leaf _ => .ok leaf) (fun _ => 0) (pairRows 1) _ rfl).mpr ?_
  intro hreach
  obtain ⟨rs, ndim, hcheck, -, -, -, before, k, after, heq, hfresh, -⟩ := hreach
  cases hcheck
  have hk : k ∈ List.range 1 := heq ▸ List.mem_append_cons_self
  obtain rfl : k = 0 := by simpa using hk
  cases hfresh.2

/-- Two elements for each of two rows: the first row is given a cell, and
the second turns out too small. -/
theorem failed_write_defines_cell : ∃ e col',
    planWrite .insertion (fun leaf _ => .ok leaf) (fun _ => 0) (lastDefined 2)
        (pairRows 2) .empty = (.error e, col')
      ∧ (lastDefined 2).cellShape 0 = none
      ∧ col'.cellShape 0 = some [2] :=
  ⟨_, _, rfl, rfl, rfl⟩

end Arcae
