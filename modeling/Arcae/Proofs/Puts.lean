/-
Several `putcol`s on one column.

Calls from different threads reach the column one after the other, in
an order nobody chose. A call that gives no row a cell only changes
values, and neither its checks nor its plan read one; so it gets through
after any of the others exactly as it does alone
(`PlainPut.step`). What the column holds at the end is settled
element by element: by the call that places one there, or by nobody.
Calls that agree wherever their places meet therefore leave the same
column in every order (`putcols_any_order`).
-/
import Arcae.Proofs.PutGet
import Arcae.Proofs.ReadBack
import Arcae.Lib.Lts

namespace Arcae

open FOrder Scatter Loops

variable {α β : Type} {col col' : TableColumn α} {sel : Selection}
  {rs : ResultShapeData}

-- ======================================================== checks and values

section Holding

variable (value : CellIndex → α)

/-- The values of a column are of no account to its cells. -/
theorem setShape_holding (col : TableColumn α) (row : Nat) (shape : IPosition) :
    (col.holding value).setShape row shape
      = (col.setShape row shape).map fun col => col.holding value := by
  unfold TableColumn.setShape
  by_cases h : col.columnDesc.fixedShape = none ∧ row < col.nrow ∧ shape ≠ []
      ∧ (0 ≤ col.columnDesc.ndim → col.columnDesc.ndim = shape.length)
  · rw [dif_pos h]
    exact dif_pos h
  · rw [dif_neg h]
    exact dif_neg h

/-- The state of the write loop over a column with other values. -/
def WriteState.holding (st : WriteState α) : WriteState α :=
  { st with col := st.col.holding value }

theorem makeWriteRow_holding (ndim : Nat) (st : WriteState α) (r : Nat) :
    makeWriteRow rs sel ndim (st.holding value) r
      = (makeWriteRow rs sel ndim st r).map fun st => st.holding value := by
  unfold makeWriteRow
  dsimp only
  by_cases hneg : selectedRow sel r < 0
  · rw [if_pos hneg, if_pos hneg]
    rfl
  · rw [if_neg hneg, if_neg hneg]
    cases rs.dataRowShape ndim r with
    | error e => rfl
    | ok dataShape =>
        rw [Result.ok_bind, Result.ok_bind]
        have hcell : (st.holding value).col.cellShape (selectedRow sel r).toNat
            = st.col.cellShape (selectedRow sel r).toNat := rfl
        rw [hcell]
        cases st.col.cellShape (selectedRow sel r).toNat with
        | some cell =>
            dsimp only
            by_cases hlast : st.last = some (cell, dataShape)
            · rw [if_pos hlast]
              exact if_pos hlast
            · rw [if_neg hlast]
              refine (if_neg hlast).trans ?_
              show (checkAgainstCell st.col.columnDesc sel ndim cell dataShape
                >>= _) = _
              cases checkAgainstCell st.col.columnDesc sel ndim cell dataShape
              · rfl
              · rfl
        | none =>
            dsimp only
            have hset := setShape_holding value st.col
              (selectedRow sel r).toNat (newCellShape sel ndim dataShape)
            show ((st.col.holding value).setShape _ _ >>= _) = _
            rw [hset]
            cases st.col.setShape (selectedRow sel r).toNat
              (newCellShape sel ndim dataShape)
            · rfl
            · rfl

theorem makeWriteRows_holding (ndim : Nat) :
    ∀ (rows : List Nat) (st : WriteState α),
      makeWriteRows rs sel ndim rows (st.holding value)
        = ((makeWriteRows rs sel ndim rows st).1,
            (makeWriteRows rs sel ndim rows st).2.holding value) := by
  intro rows
  induction rows with
  | nil => exact fun _ => rfl
  | cons r rows ih =>
      intro st
      have hrow := @makeWriteRow_holding _ sel rs value ndim st r
      unfold makeWriteRows
      cases hst : makeWriteRow rs sel ndim st r with
      | error e =>
          rw [hst] at hrow
          simp only [hrow]
          rfl
      | ok st' =>
          rw [hst] at hrow
          simp only [hrow]
          exact ih st'

/-- `MakeWrite` does to a column what it does to one with other
values. -/
theorem makeWrite_holding (data : ArrowArray β) :
    ResultShapeData.makeWrite (col.holding value) data sel
      = ((ResultShapeData.makeWrite col data sel).1,
          (ResultShapeData.makeWrite col data sel).2.holding value) := by
  have hcheck : checkWrite (col.holding value) data sel
      = checkWrite col data sel := rfl
  have hdesc : (col.holding value).columnDesc = col.columnDesc := rfl
  have hrows : ∀ rs, nWrittenRows (col.holding value) rs sel
      = nWrittenRows col rs sel := fun _ => rfl
  unfold ResultShapeData.makeWrite
  rw [hcheck, hdesc]
  cases checkWrite col data sel with
  | error e => rfl
  | ok checked =>
      obtain ⟨rs, ndim⟩ := checked
      dsimp only
      rw [hrows]
      by_cases hrank : ndim ≤ 1
      · rw [if_pos hrank, if_pos hrank]
      · rw [if_neg hrank, if_neg hrank]
        cases checkData col.columnDesc rs sel ndim with
        | error e => rfl
        | ok u =>
            cases col.columnDesc.fixedShape with
            | some shape => rfl
            | none =>
                have hloop := @makeWriteRows_holding _ sel rs value ndim
                  (List.range (nWrittenRows col rs sel)) ⟨col, none⟩
                have hstate : WriteState.holding value ⟨col, none⟩
                    = ⟨col.holding value, none⟩ := rfl
                rw [hstate] at hloop
                dsimp only
                rw [hloop]

end Holding

-- ================================================================== calls

/-- The arguments of a `putcol`. -/
structure PutCall (β : Type) where
  data : ArrowArray β
  sel : Selection

/-- The call places this element at this address. -/
def PutCall.Places {dtype : DataType} (layout : ElementLayout dtype α β)
    (call : PutCall β) (a : CellIndex) (x : α) : Prop :=
  ∃ k < call.data.data.length, 0 ≤ selectedRow call.sel k ∧
    ∃ m, layout.ElementAt call.data.data k m x ∧ call.sel.Picks m
      ∧ a = ((selectedRow call.sel k).toNat, call.sel.diskIndex m)

section Calls

variable (srt : StdSort)
  (cast : LeafArray β → ArrowType → Result (LeafArray β)) (around : Memory β)
  {dtype : DataType} (layout : ElementLayout dtype α β)

/-- A call that gets through, from the column before to the column
after. -/
def PutStep (col : TableColumn α) (call : PutCall β) (col' : TableColumn α) :
    Prop :=
  ∃ hdtype : col.columnDesc.dataType = dtype,
    writeImpl srt cast around col (layout.cast hdtype) call.data call.sel
      = (.ok (), col')

/-- A call that gets through on its own, without giving a row a cell. Its
data are few enough for small strides, and values that the column keeps. -/
structure PlainPut [LeafValue β] (col : TableColumn α) (call : PutCall β) :
    Prop where
  request : PutRequest col call.data call.sel
  small : call.data.data.leafArray.length < 2 ^ 31
  kept : Keeps dtype call.data.data.leafArray.slice
  alone : ∃ col', PutStep srt cast around layout col call col'
    ∧ col'.cellShape = col.cellShape

variable {srt cast around layout} {call : PutCall β}

theorem PutStep.det {col₁ col₂ : TableColumn α}
    (h₁ : PutStep srt cast around layout col call col₁)
    (h₂ : PutStep srt cast around layout col call col₂) : col₁ = col₂ := by
  obtain ⟨_, hw₁⟩ := h₁
  obtain ⟨_, hw₂⟩ := h₂
  exact (Prod.mk.inj (hw₁.symm.trans hw₂)).2

/-- The leaf of a write that got through has a value for each part of each
element. -/
theorem IsPut.leaf_length {layout : ElementLayout col.columnDesc.dataType α β}
    {array : ArrowArray β} {p : DataPartition} {buffer : Memory β}
    {col₁ : TableColumn α}
    (h : IsPut srt cast around col layout array sel rs p buffer col₁ col') :
    leafWidth col.columnDesc.dataType * rs.nElements
      = array.data.leafArray.length := by
  rw [← ArrayData.slice_length array.wellFormed, ← h.planned.leaves.1,
    h.planned.shape.leaves_length array.wellFormed h.planned.consistent,
    h.planned.shape.dtype]

/-- Such a call does to the column with other values what it does to it
alone: its elements are placed, and the rest is as it was. -/
theorem PlainPut.step [LeafValue β] (h : PlainPut srt cast around layout col call)
    (value : CellIndex → α) :
    ∃ value', PutStep srt cast around layout (col.holding value) call
        (col.holding value')
      ∧ (∀ a x, call.Places layout a x → value' a = x)
      ∧ ∀ a, (∀ x, ¬ call.Places layout a x) → value' a = value a := by
  obtain ⟨col₁, ⟨hdtype, hwrite⟩, hcells⟩ := h.alone
  obtain ⟨rs, p, buffer, col₀, hput⟩ := writeImpl_ok hwrite
  have hpart := hput.planned.partition.2
  have hgrows := hput.planned.write.grows
  obtain rfl : col₀ = col := TableColumn.eq_of_fields hgrows.columnDesc
    hgrows.nrow (hput.cellShape_eq.symm.trans hcells) hgrows.value
  -- the same write, on the column with other values
  obtain ⟨buffer', col₂, hput', hwrite'⟩ := @isPut_of _ _ (col₀.holding value)
    call.sel rs srt cast (layout.cast hdtype) call.data p (col₀.holding value)
    (by rw [makeWrite_holding, hput.planned.makeWrite]) hput.planned.make
    h.request.ownType (by
      rw [hpart.nElements_eq hput.planned.consistent hput.planned.isMatch,
        hpart.dtype, hput.planned.shape.dtype]
      exact hput.leaf_length.symm)
    hput.supported hput.has around
  have hsmall : rs.SmallRows := by
    refine hput.planned.consistent.smallRows (Nat.lt_of_le_of_lt ?_ h.small)
    rw [← hput.leaf_length]
    exact Nat.le_mul_of_pos_left _ (leafWidth_pos _)
  have hscatters := hput'.scatters ⟨h.request.unsliced, h.request.ownType,
    h.request.distinct⟩ hsmall.writeStrides
  have hcol₂ : col₂ = col₀.holding col₂.value := by
    rw [hput'.result]
    rfl
  refine ⟨col₂.value, ⟨hdtype, ?_⟩, fun a x hplaces => ?_, fun a hno => ?_⟩
  · rw [← hcol₂]
    exact hwrite'
  · obtain ⟨k, hk, hnn, m, hx, hpicks, rfl⟩ := hplaces
    exact (hscatters.written k hk hnn m x
      ((layout.cast_elementAt hdtype).mpr hx) hpicks).2
  · obtain ⟨row, idx⟩ := a
    refine hput'.frame row idx fun k hk hrow m hbox hpicks heq => ?_
    obtain ⟨x, hx⟩ := hput'.exists_elementAt hk hbox
    refine hno x ⟨k, by rw [hput'.length_eq]; exact hk, by omega, m,
      (layout.cast_elementAt hdtype).mp hx, hpicks, ?_⟩
    rw [hrow, Int.toNat_natCast, heq]

-- ================================================================== runs

/-- The values a column is left with by some calls, in whatever order: each
element they place, and its own elsewhere. -/
structure Settles (layout : ElementLayout dtype α β) (col : TableColumn α)
    (calls : List (PutCall β)) (value : CellIndex → α) : Prop where
  placed : ∀ call ∈ calls, ∀ a x, call.Places layout a x → value a = x
  rest : ∀ a, (∀ call ∈ calls, ∀ x, ¬ call.Places layout a x) →
    value a = col.value a

/-- Two calls place one and the same element wherever both place one. -/
def Agree (layout : ElementLayout dtype α β) (call call' : PutCall β) : Prop :=
  ∀ a x y, call.Places layout a x → call'.Places layout a y → x = y

/-- The order of the calls leaves no trace in what settles. -/
theorem Settles.unique {calls calls' : List (PutCall β)}
    {value value' : CellIndex → α} (h : Settles layout col calls value)
    (h' : Settles layout col calls' value') (hperm : calls'.Perm calls) :
    value' = value := by
  funext a
  by_cases hplaced : ∃ call ∈ calls, ∃ x, call.Places layout a x
  · obtain ⟨call, hcall, x, hx⟩ := hplaced
    rw [h.placed call hcall a x hx,
      h'.placed call (hperm.mem_iff.mpr hcall) a x hx]
  · push Not at hplaced
    rw [h.rest a hplaced,
      h'.rest a fun call hcall => hplaced call (hperm.mem_iff.mp hcall)]

/-- Calls that agree get through one after the other, and what they leave
settles. -/
theorem exists_run [LeafValue β] {calls : List (PutCall β)}
    (hplain : ∀ call ∈ calls, PlainPut srt cast around layout col call)
    (hagree : ∀ call ∈ calls, ∀ call' ∈ calls, Agree layout call call') :
    ∃ value, Lts.Run (PutStep srt cast around layout) col calls
        (col.holding value) ∧ Settles layout col calls value := by
  induction calls using List.reverseRecOn with
  | nil =>
      exact ⟨col.value, .refl, fun _ hcall => (by cases hcall), fun _ _ => rfl⟩
  | append_singleton calls call ih =>
      have hmem : ∀ call' ∈ calls, call' ∈ calls ++ [call] :=
        fun call' h => List.mem_append_left _ h
      have hlast : call ∈ calls ++ [call] :=
        List.mem_append_right _ List.mem_cons_self
      obtain ⟨value, hrun, hsettles⟩ := ih
        (fun call' h => hplain call' (hmem call' h))
        fun c h c' h' => hagree c (hmem c h) c' (hmem c' h')
      obtain ⟨value', hstep, hplaced, hrest⟩ := (hplain call hlast).step value
      refine ⟨value', hrun.tail hstep, fun call' hcall' a x hx => ?_,
        fun a hno => ?_⟩
      · rcases List.mem_append.mp hcall' with hcall' | hcall'
        · -- an element placed before stays, or is placed again
          by_cases hagain : ∃ y, call.Places layout a y
          · obtain ⟨y, hy⟩ := hagain
            rw [hplaced a y hy]
            exact hagree call hlast call' (hmem call' hcall') a y x hy hx
          · push Not at hagain
            rw [hrest a hagain]
            exact hsettles.placed call' hcall' a x hx
        · cases List.mem_singleton.mp hcall'
          exact hplaced a x hx
      · rw [hrest a (hno call hlast)]
        exact hsettles.rest a fun call' hcall' => hno call' (hmem call' hcall')

variable (srt cast around layout) in
/-- `putcol`s that agree wherever their places meet leave one column,
whichever is run first: all of them get through in every order, each
element that one of them places is there, and the others are as they
were. -/
theorem putcols_any_order [LeafValue β] {calls : List (PutCall β)}
    (hplain : ∀ call ∈ calls, PlainPut srt cast around layout col call)
    (hagree : ∀ call ∈ calls, ∀ call' ∈ calls, Agree layout call call') :
    ∃ col', (∀ order : List (PutCall β), order.Perm calls → ∀ last,
        Lts.Run (PutStep srt cast around layout) col order last ↔ last = col')
      ∧ col'.cellShape = col.cellShape
      ∧ Settles layout col calls col'.value := by
  obtain ⟨value, -, hsettles⟩ := exists_run hplain hagree
  refine ⟨col.holding value, fun order hperm last => ?_, rfl, hsettles⟩
  obtain ⟨value', hrun, hsettles'⟩ := exists_run
    (fun call hcall => hplain call (hperm.mem_iff.mp hcall))
    fun call hcall call' hcall' => hagree call (hperm.mem_iff.mp hcall) call'
      (hperm.mem_iff.mp hcall')
  rw [← hsettles.unique hsettles' hperm]
  constructor
  · intro hlast
    exact Lts.Run.det (fun _ _ _ _ h h' => h.det h') hlast hrun
  · intro heq
    rw [heq]
    exact hrun

end Calls

-- ============================================================== two threads

/-- Put one value into both elements of a row. -/
def fillRow (row value : Nat) : PutCall Nat where
  data := (pairRows 1).withValues [value, value] rfl
  sel := ⟨[[(row : Int)]]⟩

/-- An element of an array is one of its leaf values. -/
theorem ArrayData.element_mem {data : ArrayData β} {i : Nat} {idx : List Nat}
    {v : β} (h : data.element i idx = some v) : v ∈ data.leafArray.values := by
  induction data generalizing i idx with
  | leaf slots =>
      cases idx with
      | nil =>
          rw [element] at h
          split at h
          · exact List.mem_of_getElem? h
          · cases h
      | cons j idx => cases h
  | list level child ih =>
      cases idx with
      | nil => cases h
      | cons j idx =>
          rw [element] at h
          split at h
          · exact ih h
          · cases h

/-- All that it places is that value, in that row. -/
theorem fillRow_places {row value x : Nat} {a : CellIndex}
    (h : (fillRow row value).Places plainLayout a x) :
    a.1 = row ∧ x = value := by
  obtain ⟨k, hk, -, m, hx, -, rfl⟩ := h
  obtain rfl : k = 0 := Nat.lt_one_iff.mp hk
  refine ⟨Int.toNat_natCast row, ?_⟩
  have hmem := ArrayData.element_mem (hx ⟨0, by decide⟩)
  have hvalues : x ∈ [value, value] := hmem
  simpa using hvalues

/-- Two threads fill a row each, and it does not matter which comes
first. -/
theorem putcols_any_order_sample : ∃ col',
    (∀ order : List (PutCall Nat), order.Perm [fillRow 0 1, fillRow 1 2] →
        ∀ last, Lts.Run (PutStep .insertion (fun leaf _ => .ok leaf) blankBuffer
          plainLayout) twoRows order last ↔ last = col')
      ∧ col'.cellShape = twoRows.cellShape
      ∧ Settles plainLayout twoRows [fillRow 0 1, fillRow 1 2] col'.value := by
  have hplain : ∀ row value, row < 2 → PlainPut .insertion
      (fun leaf _ => .ok leaf) blankBuffer plainLayout twoRows
      (fillRow row value) := by
    intro row value hrow
    have hrequest : PutRequest twoRows (fillRow row value).data
        (fillRow row value).sel := by
      refine ⟨⟨rfl, rfl⟩, rfl, fun span hspan => ?_⟩
      cases List.mem_singleton.mp hspan
      exact (List.nodup_singleton (row : Int)).filter _
    have hsmall : (fillRow row value).data.data.leafArray.length < 2 ^ 31 := by
      show 1 * 2 < 2 ^ 31
      decide
    obtain rfl | rfl : row = 0 ∨ row = 1 := by omega
    · exact ⟨hrequest, hsmall, (fun hbool => by cases hbool), _, ⟨rfl, rfl⟩, rfl⟩
    · exact ⟨hrequest, hsmall, (fun hbool => by cases hbool), _, ⟨rfl, rfl⟩, rfl⟩
  refine putcols_any_order .insertion _ _ plainLayout (fun call hcall => ?_)
    fun call hcall call' hcall' a x y hx hy => ?_
  · simp only [List.mem_cons, List.not_mem_nil, or_false] at hcall
    rcases hcall with rfl | rfl
    · exact hplain 0 1 (by decide)
    · exact hplain 1 2 (by decide)
  · simp only [List.mem_cons, List.not_mem_nil, or_false] at hcall hcall'
    rcases hcall with rfl | rfl
    · obtain ⟨hrow, rfl⟩ := fillRow_places hx
      rcases hcall' with rfl | rfl
      · exact (fillRow_places hy).2.symm
      · have := (fillRow_places hy).1
        omega
    · obtain ⟨hrow, rfl⟩ := fillRow_places hx
      rcases hcall' with rfl | rfl
      · have := (fillRow_places hy).1
        omega
      · exact (fillRow_places hy).2.symm

end Arcae
