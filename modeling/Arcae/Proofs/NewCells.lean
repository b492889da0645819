/-
The cells that a write leaves behind.

A row has the cell it had before, or the one its data ask for
(`makeWrite_given`). That one goes past the data where a selected index
does, and clipped to the selection it is the row of the data again
(`newCellShape_clipped`). So data that fill the cells that are there fill
all the cells they are written to, new ones included
(`IsPut.clipped_eq`).
-/
import Arcae.Proofs.PutGet

namespace Arcae

open FOrder Loops

variable {α β : Type} {col col' : TableColumn α} {sel : Selection}
  {rs : ResultShapeData}

/-- A new cell, clipped, is the row of the data it was made for. -/
theorem newCellShape_clipped {dims : IPosition}
    (hmatch : ∀ d < dims.length, ∀ ids,
      sel.maybeFSpan d (dims.length + 1) = some ids →
        dims[d]? = some ids.length) :
    sel.clipped (newCellShape sel (dims.length + 1) dims) = dims := by
  refine List.ext_getElem? fun d => ?_
  by_cases hd : d < dims.length
  · have hlt : d < (newCellShape sel (dims.length + 1) dims).length := by
      rwa [newCellShape_length]
    have hclip := sel.clipped_getElem? hlt
    rw [newCellShape_length] at hclip
    rw [hclip]
    cases hspan : sel.maybeFSpan d (dims.length + 1) with
    | some ids =>
        exact (hmatch d hd ids hspan).symm
    | none =>
        dsimp only
        simp only [newCellShape, dimSelection, Nat.zero_add,
          List.getD_eq_getElem?_getD, List.getElem?_map, List.getElem?_zipIdx,
          List.getElem?_eq_getElem hd, Option.map_some, hspan, Option.map_none,
          Option.getD_some]
  · rw [List.getElem?_eq_none, List.getElem?_eq_none]
    · omega
    · rw [Selection.clipped_length, newCellShape_length]
      omega

/-- The loop over the rows gives a row no other cell than its data ask
for. -/
theorem makeWriteRows_given :
    ∀ (rows : List Nat) (st : WriteState α), (∀ k ∈ rows, k < rs.nRows) →
      ∀ result col', makeWriteRows rs sel rs.rank rows st = (result, col') →
        ∀ row cell, col'.cellShape row = some cell →
          st.col.cellShape row = some cell
            ∨ ∃ k ∈ rows, cell = newCellShape sel rs.rank (rs.rowDims k) := by
  intro rows
  induction rows with
  | nil =>
      intro st _ result col' h row cell hcell
      cases h
      exact .inl hcell
  | cons k rows ih =>
      intro st hrows result col' h row cell hcell
      obtain ⟨hk, hrest⟩ := List.forall_mem_cons.mp hrows
      have hshape := dataRowShape_eq (.inl hk)
      rw [makeWriteRows] at h
      cases hstep : makeWriteRow rs sel rs.rank st k with
      | error e =>
          simp only [hstep] at h
          cases h
          exact .inl hcell
      | ok st₁ =>
          simp only [hstep] at h
          rcases ih st₁ hrest result col' h row cell hcell with hmid | hnew
          · -- the cell after this turn
            by_cases hneg : selectedRow sel k < 0
            · rw [makeWriteRow_negative hneg] at hstep
              cases hstep
              exact .inl hmid
            · cases hown : st.col.cellShape (selectedRow sel k).toNat with
              | some own =>
                  rw [makeWriteRow_defined hneg hshape hown] at hstep
                  split at hstep
                  · cases hstep
                    exact .inl hmid
                  · obtain ⟨_, -, hst⟩ := Result.bind_eq_ok.mp hstep
                    cases hst
                    exact .inl hmid
              | none =>
                  rw [makeWriteRow_undefined hneg hshape hown] at hstep
                  obtain ⟨col₁, hset, hst⟩ := Result.bind_eq_ok.mp hstep
                  cases hst
                  obtain ⟨hgrows, hnew⟩ := setShape_ok hown hset
                  by_cases hrow : row = (selectedRow sel k).toNat
                  · rw [hrow] at hmid
                    refine .inr ⟨k, List.mem_cons_self, ?_⟩
                    exact Option.some.inj (hmid.symm.trans hnew)
                  · refine .inl ((hgrows.others row fun heq => ?_).symm.trans hmid)
                    omega
          · obtain ⟨j, hj, hcellj⟩ := hnew
            exact .inr ⟨j, List.mem_cons_of_mem _ hj, hcellj⟩

/-- A cell of the column after a write was there before, or is the one its
data ask for. -/
theorem makeWrite_given {data : ArrowArray β}
    (h : ResultShapeData.makeWrite col data sel = (.ok rs, col')) {row : Nat}
    {cell : IPosition} (hcell : col'.cellShape row = some cell) :
    col.cellShape row = some cell
      ∨ ∃ k < rs.nRows, cell = newCellShape sel rs.rank (rs.rowDims k) := by
  unfold ResultShapeData.makeWrite at h
  split at h
  · cases h
  · rename_i rs₀ ndim hcheck
    obtain ⟨-, rfl, -, hspan⟩ := checkWrite_ok hcheck
    by_cases hrank : rs₀.rank ≤ 1
    · rw [if_pos hrank] at h
      cases h
      exact .inl hcell
    · rw [if_neg hrank] at h
      split at h
      · cases h
      · split at h
        · obtain ⟨-, rfl⟩ := Prod.mk.inj h
          exact .inl hcell
        · split at h
          rename_i result col₁ hloop
          obtain ⟨hres, rfl⟩ := Prod.mk.inj h
          cases result with
          | error e => cases hres
          | ok u =>
              obtain rfl : rs₀ = rs := by simpa [Except.map] using hres
              have hle : ∀ k ∈ List.range (nWrittenRows col rs₀ sel),
                  k < rs₀.nRows := fun k hk =>
                lt_nRows_of_lt_nWrittenRows (fun h => (hspan h).1)
                  (List.mem_range.mp hk)
              rcases makeWriteRows_given _ _ hle _ _ hloop row cell hcell with
                hown | ⟨k, hk, hnew⟩
              · exact .inl hown
              · exact .inr ⟨k, hle k hk, hnew⟩

/-- Data that fill the cells there are fill all of them after the
write. -/
theorem IsPut.clipped_eq {srt : StdSort}
    {cast : LeafArray β → ArrowType → Result (LeafArray β)} {around : Memory β}
    {layout : ElementLayout col.columnDesc.dataType α β} {array : ArrowArray β}
    {p : DataPartition} {buffer : Memory β} {col₁ : TableColumn α}
    (h : IsPut srt cast around col layout array sel rs p buffer col₁ col')
    {dims : IPosition} (hsame : ∀ k < rs.nRows, rs.rowDims k = dims)
    (hfill : ∀ k < rs.nRows, ∀ cell, cellOf col sel k = some cell →
      sel.clipped cell = dims)
    {k : Nat} (hk : k < rs.nRows) {cell : IPosition}
    (hcell : cellOf col' sel k = some cell) : sel.clipped cell = dims := by
  obtain ⟨hnn, -, hshape⟩ := cellOf_lt hcell
  rw [h.cellShape_eq] at hshape
  rcases makeWrite_given h.planned.makeWrite hshape with hown | hnew
  · refine hfill k hk cell ?_
    rw [cellOf, if_neg (by omega)]
    exact hown
  · obtain ⟨j, hj, rfl⟩ := hnew
    have hlen := h.planned.consistent.rowDims_length (.inl hj)
    have hrank := h.planned.consistent.rank_pos
    rw [hsame j hj] at hlen ⊢
    have hsucc : rs.rank = dims.length + 1 := by omega
    rw [hsucc]
    refine newCellShape_clipped fun d hd ids hids => ?_
    rw [← hsame j hj]
    exact h.planned.isMatch.secondary j (.inl hj) d (by omega) ids
      (by
      rw [Selection.selected, hsucc]
      exact hids)

end Arcae
