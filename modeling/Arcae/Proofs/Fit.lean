/-
`NegateMissingSelectedRows`, specified.

A supplied result keeps its shape; what changes is how much of each cell
is read into it. Three encodings say so: the selection as it was, the
selection with unselected dimensions padded to a common extent, or the
extent of each row beside the shape. Whichever is chosen, the result is
fitted (`IsFitted`): rows that have a cell are read as before, rows
without one not at all, selected dimensions stay, and an unselected
dimension of a row reads the cell's indices as far as there are any and
pads the rest (`negate_fitted`).

The loop over the rows of a variably shaped column keeps one extent as
long as all agree and one for each row afterwards (`NegateInv`); rows
that are not read have whichever extent is at hand.
-/
import Arcae.Proofs.Tiling
import Arcae.Spec.Request

namespace Arcae

open FOrder Loops

variable {α : Type} {col : TableColumn α} {sel : Selection}

-- ====================================================== cells and extents

/-- A cell that the result can be read from: of its rank, of the
selected sizes, the selected indices within it. -/
structure FitsCell (sel : Selection) (resultShape cellShape : IPosition) :
    Prop where
  rank : cellShape.length = resultShape.length
  sizes : ∀ d < resultShape.length, ∀ ids,
    sel.maybeFSpan d (resultShape.length + 1) = some ids →
      ids.length = resultShape.getD d 0
  within : ∀ d < resultShape.length, ∀ ids,
    sel.maybeFSpan d (resultShape.length + 1) = some ids →
      ∀ i ∈ ids, i < (cellShape.getD d 0 : Int)

theorem validateCellShape_ok {desc : ColumnDesc}
    {cellShape resultShape : IPosition} {u : Unit}
    (h : validateCellShape desc cellShape resultShape sel = .ok u) :
    FitsCell sel resultShape cellShape := by
  unfold validateCellShape at h
  split at h
  · cases h
  · rename_i hrank
    have hrank : cellShape.length = resultShape.length := by
      have := Decidable.not_not.mp hrank
      exact this.symm
    have hdim : ∀ d < resultShape.length, ∀ ids,
        sel.maybeFSpan d (resultShape.length + 1) = some ids →
          ids.length = resultShape.getD d 0
            ∧ ∀ i ∈ ids, i < (cellShape.getD d 0 : Int) := by
      intro d hd ids hids
      have hcheck := forM_eq_ok.mp h d (List.mem_range.mpr (by omega))
      unfold validateCellDim at hcheck
      rw [hrank, hids] at hcheck
      dsimp only at hcheck
      split at hcheck
      · cases hcheck
      · rename_i hsize
        split at hcheck
        · cases hcheck
        · rename_i hfind
          refine ⟨Decidable.not_not.mp hsize, fun i hi => ?_⟩
          simpa using List.find?_eq_none.mp hfind i hi
    exact ⟨hrank, fun d hd ids hids => (hdim d hd ids hids).1,
      fun d hd ids hids => (hdim d hd ids hids).2⟩

/-- An extent: the result's own size wherever a dimension is selected. -/
structure IsExtent (sel : Selection) (resultShape extent : IPosition) :
    Prop where
  rank : extent.length = resultShape.length
  selected : ∀ d < resultShape.length, ∀ ids,
    sel.maybeFSpan d (resultShape.length + 1) = some ids →
      extent.getD d 0 = resultShape.getD d 0

theorem isExtent_self (resultShape : IPosition) :
    IsExtent sel resultShape resultShape :=
  ⟨rfl, fun _ _ _ _ => rfl⟩

theorem cellExtent_getD {cellShape resultShape : IPosition} {d : Nat}
    (hd : d < resultShape.length) :
    (cellExtent cellShape resultShape sel).getD d 0
      = match sel.maybeFSpan d (resultShape.length + 1) with
        | some _ => resultShape.getD d 0
        | none => min (cellShape.getD d 0) (resultShape.getD d 0) := by
  have hlen : d < (cellExtent cellShape resultShape sel).length := by
    simpa [cellExtent] using hd
  rw [List.getD_eq_getElem _ _ hlen, List.getD_eq_getElem _ _ hd]
  cases hids : sel.maybeFSpan d (resultShape.length + 1) with
  | none => simp [cellExtent, hids]
  | some ids => simp [cellExtent, hids]

theorem isExtent_cellExtent (cellShape resultShape : IPosition) :
    IsExtent sel resultShape (cellExtent cellShape resultShape sel) := by
  refine ⟨by simp [cellExtent], fun d hd ids hids => ?_⟩
  rw [cellExtent_getD hd, hids]

-- ============================================================== rebuilding

/-- A dimension of a selection with one span for each. -/
theorem maybeFSpan_concat {spans : List Index} {rows : Index} {d : Nat}
    (hd : d < spans.length) :
    (Selection.mk (spans ++ [rows])).maybeFSpan d (spans.length + 1)
      = if spans.getD d [] = [] then none else some (spans.getD d []) := by
  have hsize : (Selection.mk (spans ++ [rows])).size = spans.length + 1 := by
    simp [Selection.size]
  have hpos : (0 : Int) ≤ (d : Int) - ((spans.length + 1 : Nat) : Int)
        + ((spans.length + 1 : Nat) : Int)
      ∧ (d : Int) - ((spans.length + 1 : Nat) : Int)
        + ((spans.length + 1 : Nat) : Int) < ((spans.length + 1 : Nat) : Int) := by
    omega
  have hidx : ((d : Int) - ((spans.length + 1 : Nat) : Int)
      + ((spans.length + 1 : Nat) : Int)).toNat = d := by omega
  unfold Selection.maybeFSpan
  simp only [hsize, if_pos hpos, hidx]
  rw [List.getElem?_append_left hd, List.getElem?_eq_getElem hd,
    List.getD_eq_getElem _ _ hd]
  cases spans[d] with
  | nil => rfl
  | cons i is => rfl

theorem hasRowSpan_concat (spans : List Index) (rows : Index) :
    (Selection.mk (spans ++ [rows])).hasRowSpan = !rows.isEmpty := by
  simp [Selection.hasRowSpan]

theorem getRowSpan_concat (spans : List Index) (rows : Index) :
    (Selection.mk (spans ++ [rows])).getRowSpan = rows := by
  simp [Selection.getRowSpan]

/-- The rows of a rebuilt selection. -/
def rebuiltRows (sel : Selection) (rows : Option Index) : Index :=
  rows.getD (if sel.hasRowSpan then sel.getRowSpan else [])

theorem rebuildSelection_eq (resultShape extent : IPosition)
    (rows : Option Index) :
    rebuildSelection sel resultShape extent rows
      = ⟨(List.range resultShape.length).map (rebuildDim sel resultShape extent)
          ++ [rebuiltRows sel rows]⟩ := by
  have hfold : ∀ (l : List Nat) (b : SelectionBuilder),
      l.foldl (fun b dim => b.add (rebuildDim sel resultShape extent dim)) b
        = ⟨b.spans ++ l.map (rebuildDim sel resultShape extent), b.order⟩ := by
    intro l
    induction l with
    | nil => intro b; simp
    | cons d l ih =>
        intro b
        rw [List.foldl_cons, ih]
        simp
  unfold rebuildSelection
  rw [hfold]
  cases rows with
  | some rows => rfl
  | none =>
      unfold rebuiltRows
      cases sel.hasRowSpan <;> rfl

/-- A dimension of a rebuilt selection: as it was if it is selected,
padded if the extent is less than the result, and else unselected. -/
theorem rebuildSelection_dim {resultShape extent : IPosition}
    (rows : Option Index) {d : Nat} (hd : d < resultShape.length) :
    (rebuildSelection sel resultShape extent rows).maybeFSpan d
        (resultShape.length + 1)
      = match sel.maybeFSpan d (resultShape.length + 1) with
        | some ids => some ids
        | none =>
            if extent.getD d 0 < resultShape.getD d 0 then
              some (paddedIds (resultShape.getD d 0) (extent.getD d 0))
            else none := by
  have hlen : ((List.range resultShape.length).map
      (rebuildDim sel resultShape extent)).length = resultShape.length := by simp
  have hconcat := @maybeFSpan_concat ((List.range resultShape.length).map
      (rebuildDim sel resultShape extent)) (rebuiltRows sel rows) d (by omega)
  rw [List.getD_eq_getElem _ _ (by omega), List.getElem_map,
    List.getElem_range, hlen] at hconcat
  rw [rebuildSelection_eq, hconcat, rebuildDim]
  cases hsel : sel.maybeFSpan d (resultShape.length + 1) with
  | some ids =>
      dsimp only
      rw [if_neg (Selection.maybeFSpan_ne_nil hsel)]
  | none =>
      dsimp only
      by_cases hlt : extent.getD d 0 < resultShape.getD d 0
      · rw [if_pos hlt, if_pos hlt, if_neg]
        · rfl
        · refine List.ne_nil_of_length_pos ?_
          rw [List.length_append, List.length_map, List.length_range,
            List.length_replicate]
          omega
      · rw [if_neg hlt, if_neg hlt, if_pos rfl]

/-- A dimension whose extent is not less than the result reads all of
it, padded or not. -/
theorem paddedIds_of_le {n extent : Nat} (h : n ≤ extent) :
    paddedIds n (min extent n) = monotonicIds n := by
  rw [paddedIds, Nat.min_eq_right h, Nat.sub_self, List.replicate_zero,
    List.append_nil]

theorem paddedIds_getD {n extent m : Nat} (hm : m < n) :
    (paddedIds n extent).getD m 0 = if m < extent then (m : Int) else -1 := by
  rw [paddedIds, List.getD_eq_getElem?_getD]
  by_cases hlt : m < extent
  · rw [List.getElem?_append_left (by simpa using hlt),
      monotonicIds_getElem? hlt, if_pos hlt]
    rfl
  · rw [List.getElem?_append_right (by simpa using hlt), monotonicIds_length,
      List.getElem?_replicate, if_pos (by omega), if_neg hlt]
    rfl

-- ================================================================ the loop

section Loop

variable (col sel)

/-- Two of the first `n` rows are read as far as different extents. -/
def ExtentsDiffer (resultShape : IPosition) (n : Nat) : Prop :=
  ∃ k < n, ∃ k' < n, ∃ shape shape', cellOf col sel k = some shape
    ∧ cellOf col sel k' = some shape'
    ∧ cellExtent shape resultShape sel ≠ cellExtent shape' resultShape sel

/-- Before turn `i` of the loop: the rows of undefined cells are
negated, and an extent is known for each row that is read. -/
structure NegateInv (resultShape : IPosition) (nrows i : Nat)
    (st : NegateState) : Prop where
  rows_length : st.rows.length = nrows
  /-- Rows to come are as they were, and so are those with a cell. -/
  rows : ∀ k < nrows, st.rows.getD k 0 = selectedRow sel k
    ∨ (k < i ∧ st.rows.getD k 0 < 0 ∧ cellOf col sel k = none)
  unmodified : st.rowsModified = false →
    ∀ k < nrows, st.rows.getD k 0 = selectedRow sel k
  /-- Rows behind are in the column, and have a cell if they are not
  negated. -/
  seen : ∀ k < i, k < nrows → selectedRow sel k < (col.nrow : Int)
    ∧ (0 ≤ st.rows.getD k 0 → ∃ shape, cellOf col sel k = some shape)
  cells : ∀ k < i, ∀ shape, cellOf col sel k = some shape →
    FitsCell sel resultShape shape
  extents : ∀ es, st.cellExtents = some es → es.length = i
    ∧ (∀ e ∈ es, IsExtent sel resultShape e)
    ∧ ∀ k < i, ∀ shape, cellOf col sel k = some shape →
        es[k]? = some (cellExtent shape resultShape sel)
  common : st.cellExtents = none → ∀ k < i, ∀ shape,
    cellOf col sel k = some shape →
      st.commonExtent = some (cellExtent shape resultShape sel)
  /-- The common extent is that of a row. -/
  taken : ∀ e, st.commonExtent = some e → ∃ k < i, ∃ shape,
    cellOf col sel k = some shape ∧ e = cellExtent shape resultShape sel
  differ : st.cellExtents ≠ none → ExtentsDiffer col sel resultShape i

end Loop

/-- Rows that differ do so among more rows. -/
theorem ExtentsDiffer.mono {resultShape : IPosition} {n n' : Nat}
    (h : ExtentsDiffer col sel resultShape n) (hle : n ≤ n') :
    ExtentsDiffer col sel resultShape n' := by
  obtain ⟨k, hk, k', hk', hdiffer⟩ := h
  exact ⟨k, Nat.lt_of_lt_of_le hk hle, k', Nat.lt_of_lt_of_le hk' hle, hdiffer⟩

/-- A row that is not read keeps the invariant, whatever becomes of its
index. -/
theorem NegateInv.skip {resultShape : IPosition} {nrows i : Nat}
    {st : NegateState} (h : NegateInv col sel resultShape nrows i st)
    (hnone : cellOf col sel i = none) {rows : Index} {rowsModified : Bool}
    (hlen : rows.length = nrows) (hin : selectedRow sel i < (col.nrow : Int))
    (hneg : rows.getD i 0 < 0)
    (hrows : ∀ k < nrows, rows.getD k 0 = st.rows.getD k 0
      ∨ (k = i ∧ rows.getD k 0 < 0))
    (hmod : rowsModified = false → st.rowsModified = false ∧ rows = st.rows) :
    NegateInv col sel resultShape nrows (i + 1)
      (NegateState.emplace { st with rows := rows, rowsModified := rowsModified }
        resultShape) where
  rows_length := hlen
  rows := by
    intro k hk
    rcases hrows k hk with hsame | ⟨rfl, hneg⟩
    · show rows.getD k 0 = _ ∨ _ ∧ rows.getD k 0 < 0 ∧ _
      rw [hsame]
      rcases h.rows k hk with h' | ⟨hlt, hneg, hcell⟩
      · exact .inl h'
      · exact .inr ⟨by omega, hneg, hcell⟩
    · exact .inr ⟨by omega, hneg, hnone⟩
  unmodified := by
    intro hm k hk
    obtain ⟨hm', rfl⟩ := hmod hm
    exact h.unmodified hm' k hk
  seen := by
    intro k hk hkn
    rcases Nat.lt_succ_iff_lt_or_eq.mp hk with hlt | rfl
    · obtain ⟨hlt', hcell⟩ := h.seen k hlt hkn
      refine ⟨hlt', fun hnn => ?_⟩
      rcases hrows k hkn with hsame | ⟨rfl, -⟩
      · exact hcell (hsame ▸ hnn)
      · omega
    · refine ⟨hin, fun hnn => ?_⟩
      have hnn : 0 ≤ rows.getD k 0 := hnn
      omega
  cells := by
    intro k hk shape hc
    rcases Nat.lt_succ_iff_lt_or_eq.mp hk with hlt | rfl
    · exact h.cells k hlt shape hc
    · rw [hnone] at hc
      cases hc
  extents := by
    intro es hes
    obtain ⟨es₀, hes₀, rfl⟩ := Option.map_eq_some_iff.mp hes
    obtain ⟨hlen₀, hall, hcells⟩ := h.extents es₀ hes₀
    refine ⟨by simp [hlen₀], fun e he => ?_, fun k hk shape hc => ?_⟩
    · rcases List.mem_append.mp he with he | he
      · exact hall e he
      · rw [List.mem_singleton.mp he]
        exact isExtent_self _
    · rcases Nat.lt_succ_iff_lt_or_eq.mp hk with hlt | rfl
      · rw [List.getElem?_append_left (by omega)]
        exact hcells k hlt shape hc
      · rw [hnone] at hc
        cases hc
  common := by
    intro hes k hk shape hc
    rcases Nat.lt_succ_iff_lt_or_eq.mp hk with hlt | rfl
    · exact h.common (Option.map_eq_none_iff.mp hes) k hlt shape hc
    · rw [hnone] at hc
      cases hc
  taken := by
    intro e he
    obtain ⟨k, hk, htaken⟩ := h.taken e he
    exact ⟨k, Nat.lt_succ_of_lt hk, htaken⟩
  differ := by
    intro hes
    refine (h.differ fun hnone => hes ?_).mono (Nat.le_succ i)
    rw [NegateState.emplace]
    dsimp only
    rw [hnone, Option.map_none]

/-- Taking an extent leaves the rows, and has the extents of the rows
before it, as one extent or as a list. -/
theorem NegateInv.takeExtent {resultShape extent : IPosition} {nrows i : Nat}
    {st : NegateState} (h : NegateInv col sel resultShape nrows i st) :
    (st.takeExtent i extent).rows = st.rows
      ∧ (st.takeExtent i extent).rowsModified = st.rowsModified
      ∧ (∀ e, (st.takeExtent i extent).commonExtent = some e →
          e = extent ∨ st.commonExtent = some e)
      ∧ ((st.takeExtent i extent).cellExtents ≠ none → st.cellExtents ≠ none
          ∨ ∃ e, st.commonExtent = some e ∧ e ≠ extent)
      ∧ (∀ es, (st.takeExtent i extent).cellExtents = some es → es.length = i
          ∧ (∀ e ∈ es, IsExtent sel resultShape e)
          ∧ ∀ k < i, ∀ shape, cellOf col sel k = some shape →
              es[k]? = some (cellExtent shape resultShape sel))
      ∧ ((st.takeExtent i extent).cellExtents = none →
          (st.takeExtent i extent).commonExtent = some extent
          ∧ ∀ k < i, ∀ shape, cellOf col sel k = some shape →
              extent = cellExtent shape resultShape sel) := by
  unfold NegateState.takeExtent
  cases hcommon : st.commonExtent with
  | none =>
      refine ⟨rfl, rfl, fun e he => ?_, .inl, h.extents, fun hes => ⟨rfl, ?_⟩⟩
      · cases he
        exact .inl rfl
      · intro k hk shape' hc
        have := h.common hes k hk shape' hc
        rw [hcommon] at this
        cases this
  | some common =>
      dsimp only
      split
      · rename_i hdiffer
        rw [Bool.and_eq_true, Option.isNone_iff_eq_none, bne_iff_ne] at hdiffer
        refine ⟨rfl, rfl, fun e he => .inr he,
          fun _ => .inr ⟨common, rfl, hdiffer.2.symm⟩, fun es hes => ?_,
          fun hes => by cases hes⟩
        cases hes
        refine ⟨List.length_replicate, fun e he => ?_, fun k hk shape' hc => ?_⟩
        · obtain ⟨k, -, shape, -, hshape⟩ := h.taken common hcommon
          rw [List.eq_of_mem_replicate he, hshape]
          exact isExtent_cellExtent _ _
        · rw [List.getElem?_replicate, if_pos hk, ← hcommon]
          exact h.common hdiffer.1 k hk shape' hc
      · rename_i hsame
        refine ⟨rfl, rfl, fun e he => .inr (hcommon.symm.trans he), .inl,
          h.extents, fun hes => ?_⟩
        have heq : extent = common := by
          rw [hes] at hsame
          simpa using hsame
        refine ⟨by rw [hcommon, heq], fun k hk shape' hc => ?_⟩
        have := h.common hes k hk shape' hc
        rw [hcommon] at this
        rw [heq]
        exact Option.some.inj this

/-- A row that is read keeps the invariant. -/
theorem NegateInv.take {resultShape : IPosition} {nrows i : Nat}
    {st : NegateState} (h : NegateInv col sel resultShape nrows i st)
    {shape : IPosition} (hcell : cellOf col sel i = some shape)
    (hfits : FitsCell sel resultShape shape) :
    NegateInv col sel resultShape nrows (i + 1)
      ((st.takeExtent i (cellExtent shape resultShape sel)).emplace
        (cellExtent shape resultShape sel)) := by
  set extent := cellExtent shape resultShape sel with hextent
  have hisExtent : IsExtent sel resultShape extent := isExtent_cellExtent _ _
  obtain ⟨hrows, hmod, htaken, hdiffer, hextents, hcommon⟩ :=
    @NegateInv.takeExtent _ _ _ _ extent _ _ _ h
  refine ⟨?_, ?_, ?_, ?_, ?_, ?_, ?_, ?_, ?_⟩
  · rw [NegateState.emplace, hrows]
    exact h.rows_length
  · intro k hk
    rw [NegateState.emplace, hrows]
    exact (h.rows k hk).imp id fun ⟨hlt, hrest⟩ => ⟨by omega, hrest⟩
  · intro hm k hk
    rw [NegateState.emplace, hrows]
    rw [NegateState.emplace, hmod] at hm
    exact h.unmodified hm k hk
  · intro k hk hkn
    rw [NegateState.emplace, hrows]
    rcases Nat.lt_succ_iff_lt_or_eq.mp hk with hlt | rfl
    · exact h.seen k hlt hkn
    · exact ⟨(cellOf_lt hcell).2.1, fun _ => ⟨shape, hcell⟩⟩
  · intro k hk shape' hc
    rcases Nat.lt_succ_iff_lt_or_eq.mp hk with hlt | rfl
    · exact h.cells k hlt shape' hc
    · rw [hcell] at hc
      cases hc
      exact hfits
  · intro es hes
    obtain ⟨es₀, hes₀, rfl⟩ := Option.map_eq_some_iff.mp hes
    obtain ⟨hlen₀, hall, hcells⟩ := hextents es₀ hes₀
    refine ⟨by simp [hlen₀], fun e he => ?_, fun k hk shape' hc => ?_⟩
    · rcases List.mem_append.mp he with he | he
      · exact hall e he
      · rw [List.mem_singleton.mp he]
        exact hisExtent
    · rcases Nat.lt_succ_iff_lt_or_eq.mp hk with hlt | rfl
      · rw [List.getElem?_append_left (by omega)]
        exact hcells k hlt shape' hc
      · rw [hcell] at hc
        cases hc
        rw [← hlen₀, List.getElem?_concat_length]
  · intro hes k hk shape' hc
    obtain ⟨hext, hall⟩ := hcommon (Option.map_eq_none_iff.mp hes)
    rw [NegateState.emplace, hext]
    rcases Nat.lt_succ_iff_lt_or_eq.mp hk with hlt | rfl
    · rw [hall k hlt shape' hc]
    · rw [hcell] at hc
      cases hc
      rfl
  · intro e he
    rcases htaken e he with rfl | he
    · exact ⟨i, Nat.lt_succ_self i, shape, hcell, hextent⟩
    · obtain ⟨k, hk, hrow⟩ := h.taken e he
      exact ⟨k, Nat.lt_succ_of_lt hk, hrow⟩
  · intro hes
    rcases hdiffer fun hnone => hes (Option.map_eq_none_iff.mpr hnone) with
      hes | ⟨e, he, hne⟩
    · exact (h.differ hes).mono (Nat.le_succ i)
    · obtain ⟨k, hk, shape', hc, rfl⟩ := h.taken e he
      exact ⟨k, Nat.lt_succ_of_lt hk, i, Nat.lt_succ_self i, shape', shape, hc,
        hcell, hne⟩

/-- A turn of the loop that does not fail keeps the invariant. -/
theorem negateStep_ok {resultShape : IPosition} {nrows i : Nat}
    {st st' : NegateState} (hi : i < nrows)
    (h : NegateInv col sel resultShape nrows i st)
    (hstep : negateStep col resultShape sel st i = .ok st') :
    NegateInv col sel resultShape nrows (i + 1) st' := by
  have hrow : st.rows.getD i 0 = selectedRow sel i :=
    (h.rows i hi).resolve_right fun hlt => by omega
  unfold negateStep at hstep
  dsimp only at hstep
  rw [hrow] at hstep
  split at hstep
  · cases hstep
  · rename_i hin
    have hin : selectedRow sel i < (col.nrow : Int) := Int.not_le.mp hin
    split at hstep
    · -- explicitly not read
      rename_i hneg
      cases hstep
      refine h.skip (by rw [cellOf, if_pos hneg]) h.rows_length hin
        (by rw [hrow]; exact hneg) (fun k _ => .inl rfl) fun hm => ⟨hm, rfl⟩
    · rename_i hnn
      have hcell : cellOf col sel i = col.cellShape (selectedRow sel i).toNat := by
        rw [cellOf, if_neg hnn]
      split at hstep
      · rename_i shape hshape
        obtain ⟨u, hvalid, hstep⟩ := Result.bind_eq_ok.mp hstep
        cases hstep
        exact h.take (hcell.trans hshape) (validateCellShape_ok hvalid)
      · -- undefined, so negated
        rename_i hshape
        cases hstep
        have hset : (st.rows.set i (-1)).getD i 0 = -1 := by
          have hlt : i < (st.rows.set i (-1)).length := by
            rw [List.length_set, h.rows_length]
            exact hi
          rw [List.getD_eq_getElem _ _ hlt, List.getElem_set_self]
        refine h.skip (hcell.trans hshape) ?_ hin (by omega) (fun k hk => ?_)
          fun hm => by cases hm
        · rw [List.length_set, h.rows_length]
        · by_cases hki : k = i
          · right
            subst hki
            exact ⟨rfl, by omega⟩
          · left
            rw [List.getD_eq_getElem?_getD, List.getD_eq_getElem?_getD,
              List.getElem?_set_ne (fun h => hki h.symm)]

-- ============================================================== the fit

/-- A fitted request: the shape with extents, and the selection it is
read with. -/
structure IsFitted (col : TableColumn α) (sel : Selection)
    (rs : ResultShapeData) (resultShape : IPosition) (rs' : ResultShapeData)
    (sel' : Selection) : Prop where
  eq : rs' = { rs with cellExtents := rs'.cellExtents }
  rows_count : sel'.hasRowSpan = true → sel'.getRowSpan.length = rs.nRows
  rows : ∀ k < rs.nRows, selectedRow sel' k = selectedRow sel k
    ∨ (selectedRow sel' k < 0 ∧ cellOf col sel k = none)
  /-- Rows of a column whose cells vary are in the column, and have a
  cell if they are read. -/
  varying : col.columnDesc.fixedShape = none → ∀ k < rs.nRows,
    selectedRow sel k < (col.nrow : Int)
      ∧ (0 ≤ selectedRow sel' k → ∃ shape, cellOf col sel k = some shape)
  cells : ∀ k < rs.nRows, ∀ shape, cellOf col sel k = some shape →
    FitsCell sel resultShape shape
  extents : ∀ es, rs'.cellExtents = some es → es.length = rs.nRows
    ∧ (∀ e ∈ es, IsExtent sel resultShape e)
    ∧ ∀ k < rs.nRows, ∀ shape, cellOf col sel k = some shape →
        es[k]? = some (cellExtent shape resultShape sel)
  differ : rs'.cellExtents ≠ none →
    ExtentsDiffer col sel resultShape rs.nRows
  /-- The selection is padded to a common extent, which is all of the
  result if rows have extents of their own. -/
  dims : ∃ extent, (∀ d < resultShape.length,
      sel'.maybeFSpan d (resultShape.length + 1)
        = match sel.maybeFSpan d (resultShape.length + 1) with
          | some ids => some ids
          | none =>
              if extent.getD d 0 < resultShape.getD d 0 then
                some (paddedIds (resultShape.getD d 0) (extent.getD d 0))
              else none)
    ∧ (∀ es, rs'.cellExtents = some es → extent = resultShape)
    ∧ (rs'.cellExtents = none → ∀ k < rs.nRows, ∀ shape,
        cellOf col sel k = some shape →
          extent = cellExtent shape resultShape sel)

/-- Rows have extents of their own exactly if two differ. -/
theorem IsFitted.cellExtents_iff {rs rs' : ResultShapeData}
    {resultShape : IPosition} {sel' : Selection}
    (h : IsFitted col sel rs resultShape rs' sel') :
    rs'.cellExtents = none ↔ ¬ ExtentsDiffer col sel resultShape rs.nRows := by
  constructor
  · intro hnone hdiffer
    obtain ⟨k, hk, k', hk', shape, shape', hc, hc', hne⟩ := hdiffer
    obtain ⟨extent, -, -, hcommon⟩ := h.dims
    exact hne ((hcommon hnone k hk shape hc).symm.trans
      (hcommon hnone k' hk' shape' hc'))
  · intro hsame
    by_contra hes
    exact hsame (h.differ hes)

section Rebuilt

variable (resultShape extent : IPosition)

/-- The rows of a rebuilt selection, if they were substituted. -/
theorem selectedRow_rebuilt_some {rows : Index} {k : Nat}
    (hk : k < rows.length) :
    (rebuildSelection sel resultShape extent (some rows)).hasRowSpan = true
      ∧ (rebuildSelection sel resultShape extent (some rows)).getRowSpan = rows
      ∧ selectedRow (rebuildSelection sel resultShape extent (some rows)) k
        = rows.getD k 0 := by
  have hne : rows ≠ [] := List.ne_nil_of_length_pos (by omega)
  have hspan : (rebuildSelection sel resultShape extent (some rows)).hasRowSpan
      = true := by
    rw [rebuildSelection_eq, hasRowSpan_concat, rebuiltRows, Option.getD_some]
    simpa using hne
  have hget : (rebuildSelection sel resultShape extent (some rows)).getRowSpan
      = rows := by
    rw [rebuildSelection_eq, getRowSpan_concat, rebuiltRows, Option.getD_some]
  exact ⟨hspan, hget, by rw [selectedRow, if_pos hspan, hget]⟩

/-- The rows of a rebuilt selection, if they were kept. -/
theorem selectedRow_rebuilt_none :
    (rebuildSelection sel resultShape extent none).hasRowSpan = sel.hasRowSpan
      ∧ (sel.hasRowSpan = true →
        (rebuildSelection sel resultShape extent none).getRowSpan
          = sel.getRowSpan)
      ∧ ∀ k, selectedRow (rebuildSelection sel resultShape extent none) k
        = selectedRow sel k := by
  have hget : (rebuildSelection sel resultShape extent none).getRowSpan
      = if sel.hasRowSpan then sel.getRowSpan else [] := by
    rw [rebuildSelection_eq, getRowSpan_concat, rebuiltRows, Option.getD_none]
  have hspan : (rebuildSelection sel resultShape extent none).hasRowSpan
      = sel.hasRowSpan := by
    rw [rebuildSelection_eq, hasRowSpan_concat, rebuiltRows, Option.getD_none]
    cases h : sel.hasRowSpan with
    | false => rfl
    | true =>
        unfold Selection.hasRowSpan at h
        unfold Selection.getRowSpan
        rw [List.getLastD_eq_getLast?]
        cases hlast : sel.spans.getLast? with
        | none => rw [hlast] at h; cases h
        | some span =>
            rw [hlast] at h
            exact h
  refine ⟨hspan, fun h => by rw [hget, if_pos h], fun k => ?_⟩
  unfold selectedRow
  rw [hspan, hget]
  cases sel.hasRowSpan <;> rfl

end Rebuilt

section Negate

variable {rs rs' : ResultShapeData} {sel' : Selection} {resultShape : IPosition}

theorem checkNrOfRows_ok {hasSpan : Bool} {r : Nat} {u : Unit}
    (h : rs.checkNrOfRows hasSpan r = .ok u) : r = rs.nRows := by
  unfold ResultShapeData.checkNrOfRows at h
  split at h
  · assumption
  · cases h

/-- A result read from a column of one cell shape is fitted. -/
theorem negateFixed_fitted {cell : IPosition}
    (hfixed : col.columnDesc.fixedShape = some cell)
    (hcells : FitsCell sel resultShape cell) (hext : rs.cellExtents = none)
    (hcount : sel.hasRowSpan = true → sel.getRowSpan.length = rs.nRows)
    (h : sel' = if cellExtent cell resultShape sel = resultShape then sel
      else rebuildSelection sel resultShape (cellExtent cell resultShape sel)
        none) : IsFitted col sel rs resultShape rs sel' := by
  have hcellOf : ∀ k shape, cellOf col sel k = some shape → shape = cell := by
    intro k shape hc
    obtain ⟨-, -, hshape⟩ := cellOf_lt hc
    have := col.cell_fixed _ _ hfixed (col.cell_nrow _ _ hshape)
    rw [hshape] at this
    exact Option.some.inj this
  have hrows : sel'.hasRowSpan = sel.hasRowSpan
      ∧ (sel.hasRowSpan = true → sel'.getRowSpan = sel.getRowSpan)
      ∧ ∀ k, selectedRow sel' k = selectedRow sel k := by
    rw [h]
    split
    · exact ⟨rfl, fun _ => rfl, fun _ => rfl⟩
    · exact selectedRow_rebuilt_none _ _
  refine ⟨rfl, fun hspan => ?_, fun k _ => .inl (hrows.2.2 k),
    fun hvar => ?_, fun k _ shape hc => hcellOf k shape hc ▸ hcells,
    fun es hes => ?_, fun hes => absurd hext hes,
    cellExtent cell resultShape sel, fun d hd => ?_, fun es hes => ?_,
    fun _ k _ shape hc => ?_⟩
  · rw [hrows.1] at hspan
    rw [hrows.2.1 hspan]
    exact hcount hspan
  · rw [hfixed] at hvar
    cases hvar
  · rw [hext] at hes
    cases hes
  · rw [h]
    split
    · rename_i hsame
      rw [hsame, if_neg (Nat.lt_irrefl _)]
      cases sel.maybeFSpan d (resultShape.length + 1) <;> rfl
    · exact rebuildSelection_dim none hd
  · rw [hext] at hes
    cases hes
  · rw [hcellOf k shape hc]

/-- The rows that the loop starts with. -/
theorem initialRows_getD {k : Nat} (hk : k < (if sel.hasRowSpan then sel.getRowSpan
      else (List.range col.nrow).map Int.ofNat).length) :
    (if sel.hasRowSpan then sel.getRowSpan
      else (List.range col.nrow).map Int.ofNat).getD k 0 = selectedRow sel k := by
  unfold selectedRow
  cases hspan : sel.hasRowSpan with
  | true => rfl
  | false =>
      rw [hspan] at hk
      have hk' : k < col.nrow := by simpa using hk
      simp only [Bool.false_eq_true, if_false]
      rw [List.getD_eq_getElem?_getD, List.getElem?_map, List.getElem?_range hk']
      rfl

/-- The new selection selects the rows that the loop has left, as many as
before. -/
theorem NegateInv.rowsOf {resultShape extent : IPosition} {nrows : Nat}
    {st : NegateState} (hinv : NegateInv col sel resultShape nrows nrows st)
    (hkept : sel.hasRowSpan = true → sel.getRowSpan.length = nrows)
    (hsel' : sel' = if !st.rowsModified && extent == resultShape then sel
      else rebuildSelection sel resultShape extent
        (if st.rowsModified then some st.rows else none)) :
    (sel'.hasRowSpan = true → sel'.getRowSpan.length = nrows)
      ∧ ∀ k < nrows, selectedRow sel' k = st.rows.getD k 0 := by
  rw [hsel']
  split
  · rename_i hsame
    rw [Bool.and_eq_true, Bool.not_eq_true'] at hsame
    exact ⟨hkept, fun k hk => (hinv.unmodified hsame.1 k hk).symm⟩
  · cases hmod : st.rowsModified with
    | false =>
        obtain ⟨hspan, hget, hrow⟩ := @selectedRow_rebuilt_none sel resultShape extent
        simp only [Bool.false_eq_true, if_false]
        refine ⟨fun hs => ?_, fun k hk =>
          (hrow k).trans (hinv.unmodified hmod k hk).symm⟩
        rw [hspan] at hs
        rw [hget hs]
        exact hkept hs
    | true =>
        simp only [if_true]
        refine ⟨fun hs => ?_, fun k hk => ?_⟩
        · rw [rebuildSelection_eq, getRowSpan_concat, rebuiltRows,
            Option.getD_some, hinv.rows_length]
        · obtain ⟨-, -, hrow⟩ := @selectedRow_rebuilt_some sel resultShape extent
            _ _ (hinv.rows_length.symm ▸ hk)
          exact hrow

/-- What a fit to cells that vary comes from: the selected rows, as many
as the result has; the state the loop leaves them in; and the common
extent, if the rows do not have extents of their own. -/
theorem negateVarying_ok
    (h : rs.negateVarying col sel resultShape = .ok (rs', sel')) :
    ∃ (rows : Index) (st : NegateState) (extent : IPosition),
      rows.length = rs.nRows
      ∧ (∀ k < rows.length, rows.getD k 0 = selectedRow sel k)
      ∧ (sel.hasRowSpan = true → sel.getRowSpan = rows)
      ∧ (List.range' 0 rows.length).foldlM (negateStep col resultShape sel)
          ⟨rows, false, none, none⟩ = .ok st
      ∧ extent = (st.cellExtents.elim (st.commonExtent.getD resultShape)
          fun _ => resultShape)
      ∧ rs' = { rs with cellExtents := st.cellExtents.or rs.cellExtents }
      ∧ sel' = if !st.rowsModified && extent == resultShape then sel
          else rebuildSelection sel resultShape extent
            (if st.rowsModified then some st.rows else none) := by
  unfold ResultShapeData.negateVarying at h
  dsimp only at h
  obtain ⟨u, hcheck, h₁⟩ := Result.bind_eq_ok.mp h
  obtain ⟨st, hloop, h₂⟩ := Result.bind_eq_ok.mp h₁
  clear h h₁
  have hn := checkNrOfRows_ok hcheck
  set rows : Index := if sel.hasRowSpan then sel.getRowSpan
    else (List.range col.nrow).map Int.ofNat with hrowsdef
  rw [List.range_eq_range'] at hloop
  refine ⟨rows, st, _, ?_, fun _ hk => initialRows_getD hk, fun hspan => ?_,
    hloop, rfl, ?_⟩
  · rw [← hn, hrowsdef, selectedRows]
    cases sel.hasRowSpan <;> simp
  · rw [hrowsdef, if_pos hspan]
  · cases hes : st.cellExtents with
    | some es =>
        simp only [hes] at h₂
        rw [Option.elim_some, Option.some_or]
        split at h₂
        · rename_i hsame
          cases h₂
          exact ⟨rfl, (if_pos hsame).symm⟩
        · rename_i hsame
          cases h₂
          exact ⟨rfl, (if_neg hsame).symm⟩
    | none =>
        simp only [hes] at h₂
        rw [Option.elim_none, Option.none_or]
        split at h₂
        · rename_i hsame
          cases h₂
          exact ⟨rfl, (if_pos hsame).symm⟩
        · rename_i hsame
          cases h₂
          exact ⟨rfl, (if_neg hsame).symm⟩

/-- A result read from a column whose cells vary is fitted. -/
theorem negateVarying_fitted (hext : rs.cellExtents = none)
    (h : rs.negateVarying col sel resultShape = .ok (rs', sel')) :
    IsFitted col sel rs resultShape rs' sel' := by
  obtain ⟨rows, st, extent, hlen, hrowsD, hspan, hloop, hextent, hrs', hsel'⟩ :=
    negateVarying_ok h
  have hinit : NegateInv col sel resultShape rows.length 0
      ⟨rows, false, none, none⟩ :=
    { rows_length := rfl
      rows := fun k hk => .inl (hrowsD k hk)
      unmodified := fun _ k hk => hrowsD k hk
      seen := fun k hk => absurd hk (Nat.not_lt_zero k)
      cells := fun k hk => absurd hk (Nat.not_lt_zero k)
      extents := fun es hes => by cases hes
      common := fun _ k hk => absurd hk (Nat.not_lt_zero k)
      taken := fun e he => by cases he
      differ := fun hes => absurd rfl hes }
  have hinv := foldlM_range'_ok (P := NegateInv col sel resultShape rows.length)
    (fun i s s' _ hi hP hf => negateStep_ok (by omega) hP hf) hinit hloop
  rw [Nat.zero_add, hlen] at hinv
  have hextents : rs'.cellExtents = st.cellExtents := by
    rw [hrs', hext]
    exact Option.or_none
  -- the common extent, where the rows have no extents of their own
  have hcells : (∀ es, rs'.cellExtents = some es → extent = resultShape)
      ∧ (rs'.cellExtents = none → ∀ k < rs.nRows, ∀ shape,
          cellOf col sel k = some shape →
            extent = cellExtent shape resultShape sel) := by
    rw [hextents, hextent]
    constructor
    · intro es hes
      rw [hes, Option.elim_some]
    · intro hes k hk shape hc
      rw [hes, Option.elim_none, hinv.common hes k hk shape hc, Option.getD_some]
  have hrows := hinv.rowsOf (fun hs => by rw [hspan hs, hlen]) hsel'
  refine ⟨by rw [hrs'], hrows.1, fun k hk => ?_, fun _ k hk => ?_,
    fun k hk => hinv.cells k hk,
    fun es hes => hinv.extents es (hextents ▸ hes),
    fun hes => hinv.differ (hextents ▸ hes), extent, fun d hd => ?_, hcells⟩
  · rw [hrows.2 k hk]
    exact (hinv.rows k hk).imp id fun ⟨_, hrest⟩ => hrest
  · rw [hrows.2 k hk]
    exact hinv.seen k hk hk
  · rw [hsel']
    split
    · rename_i hsame
      rw [Bool.and_eq_true, beq_iff_eq] at hsame
      rw [hsame.2, if_neg (Nat.lt_irrefl _)]
      cases sel.maybeFSpan d (resultShape.length + 1) <;> rfl
    · exact rebuildSelection_dim _ hd

/-- `NegateMissingSelectedRows` fits the request to the cells. -/
theorem negate_fitted {shape : IPosition} (hshape : rs.shape = some shape)
    (hdims : shape.dropLast = resultShape) (hext : rs.cellExtents = none)
    (hcount : sel.hasRowSpan = true → sel.getRowSpan.length = rs.nRows)
    (h : rs.negateMissingSelectedRows col sel = .ok (rs', sel')) :
    IsFitted col sel rs resultShape rs' sel' := by
  unfold ResultShapeData.negateMissingSelectedRows at h
  rw [hshape] at h
  simp only [hdims] at h
  cases hfixed : col.columnDesc.fixedShape with
  | none =>
      rw [hfixed] at h
      exact negateVarying_fitted hext h
  | some cell =>
      rw [hfixed] at h
      obtain ⟨u, hvalid, h⟩ := Result.bind_eq_ok.mp h
      have hcells := validateCellShape_ok hvalid
      have hboth : rs' = rs
          ∧ sel' = if cellExtent cell resultShape sel = resultShape then sel
            else rebuildSelection sel resultShape
              (cellExtent cell resultShape sel) none := by
        split at h
        · rename_i hsame
          cases h
          exact ⟨rfl, by rw [if_pos hsame]⟩
        · rename_i hsame
          cases h
          exact ⟨rfl, by rw [if_neg hsame]⟩
      obtain ⟨rfl, hsel'⟩ := hboth
      exact negateFixed_fitted hfixed hcells hext hcount hsel'

end Negate

end Arcae
