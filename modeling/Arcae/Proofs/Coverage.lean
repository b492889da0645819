/-
What a read leaves in the buffer, element by element.

Carrying the plan's moves writes the element at a row and a multi-index
from its own address if it exists on disk, and leaves it as it was
otherwise (`readPlan_at`). Whether a partition writes every element is
a matter of counting (`covered_iff`): it has one transfer for each, none
of which writes beyond its position, so all positions are written only
if every transfer exists on disk and no chunk slips.
-/
import Arcae.Proofs.Slips
import Arcae.Spec.Request

namespace Arcae

open FOrder Scatter Loops

variable {α : Type} {sel : Selection} {rs : ResultShapeData}

-- ===================================================== element by element

/-- The element of a row at a multi-index exists on disk. -/
def ElementLive (sel : Selection) (rs : ResultShapeData) (row : Nat)
    (m : List Nat) : Prop :=
  0 ≤ (rowIds sel rs).getD row 0
    ∧ ∀ d < rs.rank - 1, 0 ≤ (dimIds sel rs row d).getD (m.getD d 0) 0

/-- Where the element of a row at a multi-index is on disk. -/
def elementAddress (sel : Selection) (rs : ResultShapeData) (row : Nat)
    (m : List Nat) : CellIndex :=
  (((rowIds sel rs).getD row 0).toNat,
    (List.range (rs.rank - 1)).map fun d =>
      ((dimIds sel rs row d).getD (m.getD d 0) 0).toNat)

theorem transferOf_address (row : Nat) (m : List Nat) :
    (transferOf sel rs row fun d => m.getD d 0).address
      = elementAddress sel rs row m := by
  unfold Transfer.address transferOf elementAddress Transfer.disk
  rw [List.map_append, List.map_singleton, List.getLastD_concat,
    List.dropLast_concat, List.map_map, List.map_map]
  rfl

theorem transferOf_live_iff (row : Nat) (m : List Nat) :
    (transferOf sel rs row fun d => m.getD d 0).live = true
      ↔ ElementLive sel rs row m := by
  constructor
  · intro h
    rw [Transfer.live, transferOf, List.all_append, Bool.and_eq_true] at h
    refine ⟨by simpa using h.2, fun d hd => ?_⟩
    exact of_decide_eq_true (List.all_eq_true.mp h.1 _
      (List.mem_map.mpr ⟨d, List.mem_range.mpr hd, rfl⟩))
  · exact fun h => transferOf_live h.1 h.2

/-- The transfer of a row at a multi-index is at its position. -/
theorem transferOf_position {row : Nat} {m : List Nat}
    (hlen : m.length = rs.rank - 1) :
    (transferOf sel rs row fun d => m.getD d 0).position rs
      = rs.position row m := by
  have hindex : (transferOf sel rs row fun d => m.getD d 0).index = m := by
    rw [transferOf, Transfer.index_concat, Transfer.mem, List.map_map]
    refine List.ext_getElem (by simp [hlen]) fun i h₁ h₂ => ?_
    simp [List.getElem?_eq_getElem h₂]
  rw [Transfer.position, transferOf_row, hindex]

section Plan

variable (hrs : rs.Consistent) (hm : sel.Matches rs)

include hrs hm

/-- A multi-index of a row has a transfer in the plan. -/
theorem transferOf_of_inBox {row : Nat} (hrow : row < rs.nRows) {m : List Nat}
    (hbox : InBox m (rs.rowDims row)) :
    transferOf sel rs row (fun d => m.getD d 0) ∈ plan sel rs
      ∧ m.length = rs.rank - 1 := by
  have hdims := hrs.rowDims_length (.inl hrow)
  have hlen : m.length = rs.rank - 1 := hbox.length_eq.trans hdims
  refine ⟨transferOf_mem_plan hrow fun d hd => ?_, hlen⟩
  rw [hm.dimIds_length (.inl hrow) hd, List.getD_eq_getElem _ _ (by omega),
    List.getD_eq_getElem _ _ (by omega)]
  exact List.Forall₂.get hbox (by omega) (by omega)

/-- A row is live if it has an element that is. -/
theorem rowLive_iff_element {row : Nat} (hrow : row < rs.nRows) :
    RowLive sel rs row
      ↔ ∃ m, InBox m (rs.rowDims row) ∧ ElementLive sel rs row m := by
  constructor
  · intro hlive
    obtain ⟨pos, hpos⟩ := hlive.exists_pos
    have hdims := hrs.rowDims_length (.inl hrow)
    refine ⟨(List.range (rs.rank - 1)).map pos, ?_, hlive.1, fun d hd => ?_⟩
    · refine List.forall₂_iff_get.mpr ⟨by simp [hdims], fun d h₁ h₂ => ?_⟩
      have hd : d < rs.rank - 1 := by simpa using h₁
      have hlt := (hpos d hd).1
      rw [hm.dimIds_length (.inl hrow) hd, List.getD_eq_getElem _ _ h₂] at hlt
      simpa using hlt
    · have hget : ((List.range (rs.rank - 1)).map pos).getD d 0 = pos d := by
        rw [List.getD_eq_getElem?_getD, List.getElem?_map, List.getElem?_range hd]
        rfl
      rw [hget]
      exact (hpos d hd).2
  · intro h
    obtain ⟨m, hbox, helement⟩ := h
    have hlive := rowLive_of_mem_plan (transferOf_of_inBox hrs hm hrow hbox).1
      ((transferOf_live_iff row m).mpr helement)
    rwa [transferOf_row] at hlive

/-- Transfers of the plan at one position are one transfer. -/
theorem plan_position_inj {t t' : Transfer} (ht : t ∈ plan sel rs)
    (ht' : t' ∈ plan sel rs) (h : t.position rs = t'.position rs) : t = t' := by
  have hnodup : ((plan sel rs).map (Transfer.position rs)).Nodup := by
    rw [plan_positions hm hrs]
    exact List.nodup_range
  exact List.inj_on_of_nodup_map hnodup ht ht' h

/-- A planned transfer is that of its row at its index. -/
theorem transferOf_eq {t : Transfer} (ht : t ∈ plan sel rs) :
    transferOf sel rs t.row (fun d => t.index.getD d 0) = t := by
  obtain ⟨hrow, hbox⟩ := mem_plan_inBox hm hrs ht
  obtain ⟨hmem, hlen⟩ := transferOf_of_inBox hrs hm hrow hbox
  exact plan_position_inj hrs hm hmem ht (transferOf_position hlen)

/-- Every position is that of an element. -/
theorem exists_position {q : Nat} (hq : q < rs.nElements) :
    ∃ row < rs.nRows, ∃ m, InBox m (rs.rowDims row)
      ∧ rs.position row m = q := by
  have hmem : q ∈ (plan sel rs).map (Transfer.position rs) := by
    rw [plan_positions hm hrs]
    exact List.mem_range.mpr hq
  obtain ⟨t, ht, rfl⟩ := List.mem_map.mp hmem
  obtain ⟨hrow, hbox⟩ := mem_plan_inBox hm hrs ht
  exact ⟨t.row, hrow, t.index, hbox, rfl⟩

/-- What holds of the elements holds of the plan: they are on disk, if
there they are. -/
theorem plan_live_iff :
    (∀ t ∈ plan sel rs, t.live = true)
      ↔ ∀ row < rs.nRows, ∀ m, InBox m (rs.rowDims row) →
          ElementLive sel rs row m := by
  constructor
  · intro hall row hrow m hbox
    exact (transferOf_live_iff row m).mp
      (hall _ (transferOf_of_inBox hrs hm hrow hbox).1)
  · intro hall t ht
    obtain ⟨hrow, hbox⟩ := mem_plan_inBox hm hrs ht
    rw [← transferOf_eq hrs hm ht]
    exact (transferOf_live_iff _ _).mpr (hall _ hrow _ hbox)

/-- The plan moves each element that is on disk, from its address. -/
theorem planMoves_addresses {m : Move} (h : m ∈ planMoves sel rs) :
    ∃ row < rs.nRows, ∃ idx, InBox idx (rs.rowDims row)
      ∧ ElementLive sel rs row idx
      ∧ m = ((rs.position row idx : Int), elementAddress sel rs row idx) := by
  obtain ⟨t, ht, rfl⟩ := List.mem_map.mp h
  obtain ⟨ht, hlive⟩ := List.mem_filter.mp ht
  obtain ⟨hrow, hbox⟩ := mem_plan_inBox hm hrs ht
  rw [← transferOf_eq hrs hm ht] at hlive
  refine ⟨t.row, hrow, t.index, hbox, (transferOf_live_iff _ _).mp hlive, ?_⟩
  rw [← transferOf_address, transferOf_eq hrs hm ht]
  rfl

theorem position_lt {t : Transfer} (ht : t ∈ plan sel rs) :
    t.position rs < rs.nElements := by
  have hmem := List.mem_map_of_mem (f := Transfer.position rs) ht
  rw [plan_positions hm hrs] at hmem
  exact List.mem_range.mp hmem

/-- Carrying the plan's moves, element by element. -/
theorem readPlan_at (col : TableColumn α) (buffer : Memory α) :
    (∀ row < rs.nRows, ∀ m, InBox m (rs.rowDims row) →
        (ElementLive sel rs row m →
          Moves.read col (planMoves sel rs) buffer (rs.position row m)
            = col.value (elementAddress sel rs row m))
        ∧ (¬ ElementLive sel rs row m →
          Moves.read col (planMoves sel rs) buffer (rs.position row m)
            = buffer (rs.position row m)))
      ∧ ∀ q : Int, q < 0 ∨ (rs.nElements : Int) ≤ q →
        Moves.read col (planMoves sel rs) buffer q = buffer q := by
  have hkeys : ((Moves.values col (planMoves sel rs)).map Prod.fst)
      = (planMoves sel rs).map Prod.fst := by
    rw [Moves.values, List.map_map]
    rfl
  have hmem : ∀ q : Int, q ∈ (planMoves sel rs).map Prod.fst →
      ∃ t ∈ plan sel rs, t.live = true ∧ (t.position rs : Int) = q := by
    intro q hq
    rw [planMoves, Transfer.moves, List.map_map] at hq
    obtain ⟨t, ht, rfl⟩ := List.mem_map.mp hq
    exact ⟨t, (List.mem_filter.mp ht).1, (List.mem_filter.mp ht).2, rfl⟩
  constructor
  · intro row hrow m hbox
    obtain ⟨ht, hlen⟩ := transferOf_of_inBox hrs hm hrow hbox
    have hpos := @transferOf_position sel _ row _ hlen
    constructor
    · intro hlive
      refine scatter_of_mem ?_ ?_
      · rw [hkeys]
        exact planMoves_offsets_nodup hrs hm
      · rw [← hpos, ← transferOf_address]
        refine List.mem_map.mpr ⟨_, List.mem_map.mpr ⟨_, List.mem_filter.mpr
          ⟨ht, (transferOf_live_iff row m).mpr hlive⟩, rfl⟩, rfl⟩
    · intro hdead
      refine scatter_of_not_mem ?_
      rw [hkeys]
      intro hin
      obtain ⟨t', ht', hlive', hpos'⟩ := hmem _ hin
      have heq := plan_position_inj hrs hm ht' ht (by omega)
      rw [heq] at hlive'
      exact hdead ((transferOf_live_iff row m).mp hlive')
  · intro q hq
    refine scatter_of_not_mem ?_
    rw [hkeys]
    intro hin
    obtain ⟨t, ht, -, hpos⟩ := hmem q hin
    have := position_lt hrs hm ht
    omega

end Plan

-- ============================================================== addresses

section Addresses

variable (hm : sel.Matches rs) (hext : rs.cellExtents = none)

include hm hext

/-- Without extents of its own, a row has the selected indices in a
dimension, or all of them. -/
theorem dimIds_eq_span {k d : Nat} :
    dimIds sel rs k d = match sel.maybeFSpan d rs.rank with
      | some ids => ids
      | none => monotonicIds ((rs.rowDims k).getD d 0) := by
  cases hsel : sel.maybeFSpan d rs.rank with
  | some ids => exact dimIds_selected hm (by rw [Selection.selected, hsel])
  | none =>
      have hunpadded : ¬ rs.IsPadded k d := by
        intro hpad
        obtain ⟨extent, hextent, -⟩ := hpad
        rw [ResultShapeData.extent, hext] at hextent
        cases hextent
      exact dimIds_unselected (by rw [Selection.selected, hsel]) hunpadded

variable (hrs : rs.Consistent)

include hrs

/-- The index of a dimension that a multi-index stands for. -/
theorem dimIds_getD {k : Nat} (hk : k < rs.nRows) {m : List Nat}
    (hbox : InBox m (rs.rowDims k)) {d : Nat} (hd : d < m.length) :
    (dimIds sel rs k d).getD (m.getD d 0) 0
      = match sel.maybeFSpan d (m.length + 1) with
        | some ids => ids.getD (m.getD d 0) 0
        | none => (m.getD d 0 : Int) := by
  have hdims := hrs.rowDims_length (.inl hk)
  have hrank : rs.rank = m.length + 1 := by
    have := hbox.length_eq
    have := hrs.rank_pos
    omega
  rw [dimIds_eq_span hm hext, hrank]
  cases hsel : sel.maybeFSpan d (m.length + 1) with
  | some ids => rfl
  | none =>
      have hlt : m.getD d 0 < (rs.rowDims k).getD d 0 := by
        rw [List.getD_eq_getElem _ _ hd, List.getD_eq_getElem _ _ (by omega)]
        exact List.Forall₂.get hbox hd (by omega)
      show (monotonicIds _).getD _ 0 = _
      rw [List.getD_eq_getElem?_getD, monotonicIds_getElem? hlt]
      rfl

/-- An element is at the index it stands for, in the row that is
selected. -/
theorem elementAddress_eq {k : Nat} (hk : k < rs.nRows) {m : List Nat}
    (hbox : InBox m (rs.rowDims k)) :
    elementAddress sel rs k m
      = ((selectedRow sel k).toNat, sel.diskIndex m) := by
  have hlen : m.length = rs.rank - 1 :=
    hbox.length_eq.trans (hrs.rowDims_length (.inl hk))
  rw [elementAddress, rowIds_getD hrs hk]
  refine congrArg _ (List.ext_getElem (by simp [Selection.diskIndex, hlen])
    fun d h₁ h₂ => ?_)
  have hd : d < m.length := by
    rw [hlen]
    simpa using h₁
  simp only [List.getElem_map, List.getElem_range, Selection.diskIndex,
    List.getElem_zipIdx, Nat.zero_add, dimIds_getD hm hext hrs hk hbox hd]
  rw [List.getD_eq_getElem _ _ hd]
  cases sel.maybeFSpan d (m.length + 1) with
  | some ids => rfl
  | none => rfl

/-- An element exists if its row does and no index it stands for is
negative. -/
theorem elementLive_iff {k : Nat} (hk : k < rs.nRows) {m : List Nat}
    (hbox : InBox m (rs.rowDims k)) :
    ElementLive sel rs k m ↔ 0 ≤ selectedRow sel k ∧ sel.Picks m := by
  have hlen : m.length = rs.rank - 1 :=
    hbox.length_eq.trans (hrs.rowDims_length (.inl hk))
  rw [ElementLive, rowIds_getD hrs hk, ← hlen]
  refine and_congr_right fun _ => forall₂_congr fun d hd => ?_
  rw [dimIds_getD hm hext hrs hk hbox hd]
  cases sel.maybeFSpan d (m.length + 1) with
  | some ids =>
      constructor
      · intro h ids' hsome
        cases hsome
        exact h
      · exact fun h => h ids rfl
  | none =>
      refine ⟨fun _ ids hnone => ?_, fun _ => Int.natCast_nonneg _⟩
      cases hnone

end Addresses

/-- An element that exists is moved. -/
theorem mem_planMoves (hrs : rs.Consistent) (hm : sel.Matches rs) {k : Nat}
    (hk : k < rs.nRows) {m : List Nat} (hbox : InBox m (rs.rowDims k))
    (hlive : ElementLive sel rs k m) :
    ((rs.position k m : Int), elementAddress sel rs k m)
      ∈ planMoves sel rs := by
  obtain ⟨ht, hlen⟩ := transferOf_of_inBox hrs hm hk hbox
  rw [← transferOf_address, ← @transferOf_position sel rs k m hlen]
  exact List.mem_map.mpr ⟨_, List.mem_filter.mpr
    ⟨ht, (transferOf_live_iff k m).mpr hlive⟩, rfl⟩

/-- Non-negative indices without repeats are at one position each. -/
theorem NoRepeat.getD_inj {ids : Index} (h : NoRepeat ids) {i j : Nat}
    (hi : i < ids.length) (hj : j < ids.length) (hnn : 0 ≤ ids.getD i 0)
    (heq : ids.getD i 0 = ids.getD j 0) : i = j := by
  have hlt : ∀ {i j : Nat}, i < j → j < ids.length → 0 ≤ ids.getD i 0 →
      ids.getD i 0 = ids.getD j 0 → False := by
    intro i j hij hj hnn heq
    rw [List.getD_eq_getElem _ _ (by omega)] at hnn heq
    rw [List.getD_eq_getElem _ _ hj] at heq
    -- one of them before the other
    have hsub : ([ids[i], ids[j]] : List Int).Sublist ids := by
      have hdrop := List.drop_eq_getElem_cons (Nat.lt_trans hij hj)
      have hin : ids[j] ∈ ids.drop (i + 1) :=
        List.mem_drop_iff_getElem.mpr ⟨j - (i + 1), by omega, by
          congr 1
          omega⟩
      have hcons := (List.singleton_sublist.mpr hin).cons_cons ids[i]
      rw [← hdrop] at hcons
      exact hcons.trans (List.drop_sublist i ids)
    have hfilter := hsub.filter fun i => decide (0 ≤ i)
    have hboth : ([ids[i], ids[j]] : List Int).filter
        (fun i => decide (0 ≤ i)) = [ids[i], ids[j]] := by
      rw [List.filter_eq_self]
      intro x hx
      rcases List.mem_pair.mp hx with rfl | rfl
      · exact decide_eq_true hnn
      · exact decide_eq_true (heq ▸ hnn)
    rw [hboth] at hfilter
    have hnodup := h.sublist hfilter
    rw [List.nodup_cons, List.mem_singleton] at hnodup
    exact hnodup.1 heq
  rcases Nat.lt_trichotomy i j with hij | hij | hij
  · exact (hlt hij hj hnn heq).elim
  · exact hij
  · exact (hlt hij hi (heq ▸ hnn) heq.symm).elim

/-- Elements at one address are one element, if no dimension repeats an
index. -/
theorem elementAddress_inj (hrs : rs.Consistent) (hm : sel.Matches rs)
    (hrows : NoRepeat (rowIds sel rs))
    (hdims : ∀ k < rs.nRows, ∀ d < rs.rank - 1, NoRepeat (dimIds sel rs k d))
    {k k' : Nat} (hk : k < rs.nRows) (hk' : k' < rs.nRows) {m m' : List Nat}
    (hbox : InBox m (rs.rowDims k)) (hbox' : InBox m' (rs.rowDims k'))
    (hlive : ElementLive sel rs k m) (hlive' : ElementLive sel rs k' m')
    (h : elementAddress sel rs k m = elementAddress sel rs k' m') :
    k = k' ∧ m = m' := by
  obtain ⟨hrow, hidx⟩ := Prod.mk.inj h
  have hlen := hm.rowIds_length
  obtain rfl : k = k' := by
    refine hrows.getD_inj (by omega) (by omega) hlive.1 ?_
    have := hlive.1
    have := hlive'.1
    omega
  have hdim := hrs.rowDims_length (.inl hk)
  have hlm := hbox.length_eq
  have hlm' := hbox'.length_eq
  refine ⟨rfl, List.ext_getElem (hlm.trans hlm'.symm) fun d h₁ h₂ => ?_⟩
  have hd : d < rs.rank - 1 := by omega
  have hcount := hm.dimIds_length (.inl hk) hd
  have hat : ∀ {m : List Nat} (_ : InBox m (rs.rowDims k)) (_ : d < m.length),
      m.getD d 0 < (dimIds sel rs k d).length := by
    intro m hbox hd'
    rw [hcount, List.getD_eq_getElem _ _ hd', List.getD_eq_getElem _ _ (by omega)]
    exact List.Forall₂.get hbox hd' (by omega)
  have hsame := List.map_inj_left.mp hidx d (List.mem_range.mpr hd)
  have hpos : m.getD d 0 = m'.getD d 0 := by
    refine (hdims k hk d hd).getD_inj (hat hbox h₁) (hat hbox' h₂)
      (hlive.2 d hd) ?_
    have := hlive.2 d hd
    have := hlive'.2 d hd
    omega
  rwa [List.getD_eq_getElem _ _ h₁, List.getD_eq_getElem _ _ h₂] at hpos

-- =============================================================== coverage

variable {opt : RowSplitOptions} {p : DataPartition}

/-- If the position of every element on disk is written, no chunk
slips. -/
theorem no_slip_of_covered (hrs : rs.Consistent) (hm : sel.Matches rs)
    (hpart : p.Partitions sel rs opt)
    (hcov : ∀ t ∈ plan sel rs, t.live = true →
      (t.position rs : Int) ∈ (movesOf p.dataChunks).map Prod.fst) :
    ∀ c ∈ p.dataChunks, ∀ t ∈ c.transfers, t.live = true → c.slip rs = 0 := by
  -- each transfer on disk, with its chunk, is a writer
  set writers := p.dataChunks.flatMap fun c =>
    (c.transfers.filter Transfer.live).map fun t => (c, t) with hwriters
  have hmem : ∀ {x : DataChunk × Transfer}, x ∈ writers ↔
      x.1 ∈ p.dataChunks ∧ x.2 ∈ x.1.transfers ∧ x.2.live = true := by
    intro x
    obtain ⟨c, t⟩ := x
    rw [hwriters, List.mem_flatMap]
    constructor
    · intro h
      obtain ⟨c', hc', h⟩ := h
      obtain ⟨t', ht', heq⟩ := List.mem_map.mp h
      cases heq
      exact ⟨hc', List.mem_filter.mp ht'⟩
    · intro h
      exact ⟨c, h.1, List.mem_map.mpr ⟨t, List.mem_filter.mpr h.2, rfl⟩⟩
  have hnodup : (writers.map fun x => (x.2.position rs : Int)).Nodup := by
    have hmap : writers.map (fun x => (x.2.position rs : Int))
        = ((p.dataChunks.flatMap DataChunk.transfers).filter
            Transfer.live).map (Int.ofNat ∘ Transfer.position rs) := by
      rw [hwriters, List.map_flatMap, List.filter_flatMap, List.map_flatMap]
      refine List.flatMap_congr fun c _ => ?_
      rw [List.map_map]
      rfl
    have hplan : ((plan sel rs).map (Int.ofNat ∘ Transfer.position rs)).Nodup := by
      rw [← List.map_map, plan_positions hm hrs]
      exact List.nodup_range.map fun a b hab => Int.ofNat.inj hab
    rw [hmap]
    exact ((hpart.transfers.map _).nodup_iff.mpr hplan).sublist
      (List.filter_sublist.map _)
  have hall := eq_of_all_covered (v := fun x => x.1.bufferIndex x.2.mem) hnodup
    (by
      intro x hx
      obtain ⟨hc, ht, -⟩ := hmem.mp hx
      have hslip : 0 ≤ x.1.slip rs := by
        unfold DataChunk.slip
        split <;> exact slipFrom_nonneg _ _ _
      rw [(hpart.planned x.1 hc).bufferIndex_eq x.2 ht]
      omega)
    (by
      intro x hx
      obtain ⟨hc, ht, hlive⟩ := hmem.mp hx
      have hplan := hpart.transfers.mem_iff.mp
        (List.mem_flatMap.mpr ⟨x.1, hc, ht⟩)
      obtain ⟨move, hmove, heq⟩ := List.mem_map.mp (hcov x.2 hplan hlive)
      obtain ⟨c, hc', hmove⟩ := List.mem_flatMap.mp hmove
      obtain ⟨t, ht', rfl⟩ := List.mem_map.mp hmove
      exact ⟨(c, t), hmem.mpr ⟨hc', List.mem_filter.mp ht'⟩, heq⟩)
  intro c hc t ht hlive
  have h := hall (c, t) (hmem.mpr ⟨hc, ht, hlive⟩)
  dsimp only at h
  rw [(hpart.planned c hc).bufferIndex_eq t ht] at h
  omega

/-- A partition writes every position exactly when every transfer of the
plan exists on disk and no chunk slips. -/
theorem covered_iff (hrs : rs.Consistent) (hm : sel.Matches rs)
    (hpart : p.Partitions sel rs opt) :
    (∀ q < rs.nElements, (q : Int) ∈ (movesOf p.dataChunks).map Prod.fst)
      ↔ (∀ t ∈ plan sel rs, t.live = true)
        ∧ ∀ c ∈ p.dataChunks, ∀ t ∈ c.transfers, t.live = true →
          c.slip rs = 0 := by
  constructor
  · intro hcov
    have hslip := no_slip_of_covered hrs hm hpart fun t ht _ =>
      hcov _ (position_lt hrs hm ht)
    refine ⟨fun t ht => ?_, hslip⟩
    -- what is written at the position of a transfer is the transfer
    have hmem := ((hpart.movesOf_perm hslip).map Prod.fst).mem_iff.mp
      (hcov _ (position_lt hrs hm ht))
    obtain ⟨move, hmove, hposition⟩ := List.mem_map.mp hmem
    obtain ⟨t', ht', rfl⟩ := List.mem_map.mp hmove
    obtain ⟨ht', hlive⟩ := List.mem_filter.mp ht'
    have hnodup : ((plan sel rs).map (Transfer.position rs)).Nodup := by
      rw [plan_positions hm hrs]
      exact List.nodup_range
    have heq : t' = t :=
      List.inj_on_of_nodup_map hnodup ht' ht (Int.ofNat.inj hposition)
    exact heq ▸ hlive
  · intro hx q hq
    obtain ⟨hlive, hslip⟩ := hx
    have hperm := hpart.movesOf_perm hslip
    rw [(hperm.map Prod.fst).mem_iff, planMoves, Transfer.moves, List.map_map,
      List.filter_eq_self.mpr fun t ht => hlive t ht]
    have hmemq : q ∈ (plan sel rs).map (Transfer.position rs) := by
      rw [plan_positions hm hrs]
      exact List.mem_range.mpr hq
    obtain ⟨t, ht, rfl⟩ := List.mem_map.mp hmemq
    exact List.mem_map.mpr ⟨t, ht, rfl⟩

/-- A position that no move fills keeps what the buffer held. -/
theorem read_uncovered (col : TableColumn α) {moves : List Move} {q : Int}
    (h : q ∉ moves.map Prod.fst) (buffer : Memory α) :
    Moves.read col moves buffer q = buffer q := by
  refine scatter_of_not_mem ?_
  rw [Moves.values, List.map_map]
  exact h

end Arcae
