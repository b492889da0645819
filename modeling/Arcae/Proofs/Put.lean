/-
What `putcol` leaves behind.

A write that gets through had each element of its plan to write to, and
its addresses are those of the plan, whatever the chunks: so it touches
nothing else, and every row that is selected has a cell at the end. It
writes the right values if each chunk is taken from its place in the
buffer (`IsPut.scatters`).
-/
import Arcae.Spec.Put
import Arcae.Proofs.Flatten
import Arcae.Proofs.Coverage

namespace Arcae

open FOrder Scatter Loops

variable {α β : Type} {col col' : TableColumn α} {sel : Selection}
  {rs : ResultShapeData} {desc : ColumnDesc} {data : ArrayData β}

-- ========================================================= other values

section Values

variable (values : List β)

/-- The shape of data is a matter of its levels. -/
theorem walkShape_withValues (walk : ShapeWalk) :
    walkShape (data.withValues values) walk = walkShape data walk := by
  induction data generalizing walk with
  | leaf slots => rfl
  | list level child ih =>
      rw [ArrayData.withValues, walkShape, walkShape]
      exact congrArg _ (funext fun walk' => ih walk')

theorem rowShapeFrom_withValues (r start stop : Nat) :
    rowShapeFrom r (data.withValues values) start stop
      = rowShapeFrom r data start stop := by
  induction data generalizing start stop with
  | leaf slots => rfl
  | list level child ih =>
      rw [ArrayData.withValues, rowShapeFrom, rowShapeFrom]
      simp only [ih]

theorem getResultShapeData_withValues :
    getResultShapeData desc (data.withValues values)
      = getResultShapeData desc data := by
  have harrow : getArrowResultShapeData desc (data.withValues values)
      = getArrowResultShapeData desc data := by
    unfold getArrowResultShapeData getRowShapes
    simp only [walkShape_withValues, rowShapeFrom_withValues,
      ArrayData.withValues_length]
  unfold getResultShapeData
  rw [harrow]

theorem makeWrite_withValues (array : ArrowArray β)
    (h : values.length = array.data.leafArray.values.length) :
    ResultShapeData.makeWrite col (array.withValues values h) sel
      = ResultShapeData.makeWrite col array sel := by
  unfold ResultShapeData.makeWrite checkWrite ArrowArray.withValues
  simp only [getResultShapeData_withValues]

end Values

-- ============================================================ the buffer

/-- The buffer of data of the column's own type: the values of the leaf,
or those of its slots. -/
theorem extract_own {cast : LeafArray β → ArrowType → Result (LeafArray β)}
    {around : Memory β} {leaf : LeafArray β} {casaDtype : DataType}
    {buffer : Memory β} (hown : arrowDataType casaDtype = .ok leaf.type)
    (h : extractBufferOrCopyValues cast around leaf casaDtype = .ok buffer) :
    ∃ values, (values = leaf.values ∨ values = leaf.slice)
      ∧ buffer = { leaf with values := values }.buffer around := by
  unfold extractBufferOrCopyValues at h
  split at h
  · rw [hown, Result.ok_bind, if_pos rfl] at h
    cases h
    exact ⟨_, .inl rfl, rfl⟩
  · split at h
    · split at h
      · cases h
        exact ⟨_, .inr rfl, rfl⟩
      · cases h
    · split at h <;> cases h

/-- Other values of the same type get through as well. -/
theorem extract_own_ok {cast : LeafArray β → ArrowType → Result (LeafArray β)}
    {around : Memory β} {leaf : LeafArray β} {casaDtype : DataType}
    (hown : arrowDataType casaDtype = .ok leaf.type) :
    ∃ buffer, extractBufferOrCopyValues cast around leaf casaDtype
      = .ok buffer := by
  unfold extractBufferOrCopyValues
  by_cases hprimitive : casaDtype.isPrimitive = true
  · rw [if_pos hprimitive, hown, Result.ok_bind, if_pos rfl]
    exact ⟨_, rfl⟩
  · rw [if_neg hprimitive]
    cases casaDtype with
    | tpString =>
        have hutf8 : leaf.type = .utf8 := (Except.ok.inj hown).symm
        rw [if_pos rfl, if_pos hutf8]
        exact ⟨_, rfl⟩
    | tpOther name => cases hown
    | _ => exact absurd rfl hprimitive

-- ============================================================== elements

theorem ArrayData.Unsliced.leafArray_offset (h : data.Unsliced) :
    data.leafArray.offset = 0 := by
  induction data with
  | leaf slots => exact h
  | list level child ih => exact ih h.2

/-- An element of a nest is at an index of its sizes. -/
theorem ArrayData.Uniform.inBox_of_element (hwf : data.WellFormed)
    {a b : Nat} {sizes : IPosition} (hu : data.Uniform a b sizes)
    (hb : b ≤ data.length) {i : Nat} (hai : a ≤ i) (hib : i < b)
    {idx : List Nat} {v : β} (h : data.element i idx = some v) :
    InBox idx sizes := by
  induction data generalizing a b sizes i idx with
  | leaf slots =>
      rw [hu]
      cases idx with
      | nil => exact .nil
      | cons j idx => cases h
  | list level child ih =>
      obtain ⟨n, rest, rfl, hall, hrest⟩ := hu
      cases idx with
      | nil => cases h
      | cons j idx =>
          have hb' : b ≤ level.length := hb
          rw [element] at h
          split at h
          · rename_i hin
            obtain ⟨-, hj⟩ := hin
            have hsize := hall i hai hib
            have hstep := ListArray.start_add_size hwf (i := i) (by omega)
            have hfirst := ListArray.start_mono hwf hai (by omega)
            have hlast := ListArray.start_mono hwf (show i + 1 ≤ b from hib) hb'
            refine .cons (by omega) (ih hwf.2 hrest
              (ListArray.start_le hwf hb') (by omega) ?_ h)
            omega
          · cases h

/-- The index of a part is that of its element, and of the part in it. -/
theorem inBox_nestSizes_iff {dtype : DataType} {m dims : List Nat} {j : Nat}
    (hj : j < leafWidth dtype) :
    InBox (m.reverse ++ if dtype.isComplex then [j] else [])
        (nestSizes dtype dims) ↔ InBox m dims := by
  unfold InBox
  rw [← List.forall₂_reverse_iff, nestSizes_reverse, List.reverse_append,
    List.reverse_reverse]
  unfold leafWidth at hj
  split
  · rename_i hcomplex
    rw [if_pos hcomplex] at hj
    show List.Forall₂ _ (j :: m) (2 :: dims) ↔ _
    rw [List.forall₂_cons]
    exact and_iff_right hj
  · rfl

/-- The parts of the element at a multi-index are found at its position
in the leaf, counted from the first element. -/
theorem IsDataShape.element_eq (h : IsDataShape desc data rs)
    (hwf : data.WellFormed) (hrs : rs.Consistent) {k : Nat} (hk : k < rs.nRows)
    {m : List Nat} (hm : InBox m (rs.rowDims k)) {j : Nat}
    (hj : j < leafWidth desc.dataType) :
    data.element k (m.reverse ++ if desc.dataType.isComplex then [j] else [])
      = data.leafArray.slice[data.slot 0
          + leafWidth desc.dataType * rs.position k m + j]? := by
  have hu := h.uniform hwf hrs hk
  have hlen := h.length_eq hrs
  have hslot := h.slot_eq hwf hrs (Nat.le_of_lt hk)
  rw [h.dtype] at hu hslot
  have hflat : flat (nestSizes desc.dataType (rs.rowDims k)).reverse
        (m.reverse ++ if desc.dataType.isComplex then [j] else []).reverse
      = leafWidth desc.dataType * flat (rs.rowDims k) m + j := by
    rw [nestSizes_reverse, List.reverse_append, List.reverse_reverse]
    unfold leafWidth at hj ⊢
    split
    · show flat (2 :: rs.rowDims k) (j :: m) = _
      rw [flat_cons, Nat.add_comm]
    · rename_i hplain
      rw [if_neg hplain] at hj
      show flat (rs.rowDims k) m = _
      omega
  rw [hu.element_eq hwf (by omega) (Nat.le_refl k) (Nat.lt_succ_self k)
    ((inBox_nestSizes_iff hj).mpr hm), hflat, hslot, ResultShapeData.position]
  congr 1
  ring

/-- The element at a multi-index is found at its position in the
leaf. -/
theorem elementAt_iff (layout : ElementLayout desc.dataType α β)
    (h : IsDataShape desc data rs) (hwf : data.WellFormed)
    (hrs : rs.Consistent) (hzero : data.slot 0 = 0) {k : Nat}
    (hk : k < rs.nRows) {m : List Nat} {x : α} :
    layout.ElementAt data k m x ↔ InBox m (rs.rowDims k)
      ∧ ∀ i : Fin (leafWidth desc.dataType),
          data.leafArray.slice[leafWidth desc.dataType * rs.position k m + i]?
            = some (layout.parts x i) := by
  have hat : InBox m (rs.rowDims k) → ∀ j < leafWidth desc.dataType,
      data.element k (m.reverse ++ if desc.dataType.isComplex then [j] else [])
        = data.leafArray.slice[leafWidth desc.dataType * rs.position k m + j]? := by
    intro hm j hj
    rw [h.element_eq hwf hrs hk hm hj, hzero, Nat.zero_add]
  unfold ElementLayout.ElementAt
  constructor
  · intro hall
    have hu := h.uniform hwf hrs hk
    have hlen := h.length_eq hrs
    rw [h.dtype] at hu
    have hpos := leafWidth_pos desc.dataType
    have hm : InBox m (rs.rowDims k) :=
      (inBox_nestSizes_iff hpos).mp (hu.inBox_of_element hwf (by omega)
        (Nat.le_refl k) (Nat.lt_succ_self k) (hall ⟨0, hpos⟩))
    exact ⟨hm, fun i => (hat hm i i.isLt).symm.trans (hall i)⟩
  · intro hboth i
    exact (hat hboth.1 i i.isLt).trans (hboth.2 i)

-- ============================================================== strides

section Strides

variable (hrs : rs.Consistent) (hm : sel.Matches rs)
  (hext : rs.cellExtents = none)

include hrs hm hext

/-- A row is live if it has an element to write. -/
theorem rowLive_iff {k : Nat} (hk : k < rs.nRows) :
    RowLive sel rs k ↔ 0 ≤ selectedRow sel k
      ∧ ∃ m, InBox m (rs.rowDims k) ∧ sel.Picks m := by
  rw [rowLive_iff_element hrs hm hk, ← exists_and_left]
  refine exists_congr fun m => ?_
  rw [and_left_comm]
  exact and_congr_right fun hbox => elementLive_iff hm hext hrs hk hbox

/-- The chunks of a write are taken from their places exactly when its
strides are small. -/
theorem no_slip_iff_small {p : DataPartition}
    (hpart : p.Partitions sel rs .default) :
    (∀ c ∈ p.dataChunks, ∀ t ∈ c.transfers, t.live = true → c.slip rs = 0)
      ↔ WriteStridesSmall sel rs := by
  rw [no_slip_iff hrs hpart]
  have hfixedRows : rs.isFixed = true → 0 < rs.nRows →
      (p.RowsAnchored ↔ 0 ≤ selectedRow sel 0
        ∨ ∀ k < rs.nRows, ¬ RowLive sel rs k) := by
    intro hfixed hpos
    have hhead : (rowIds sel rs).headD 0 = selectedRow sel 0 := by
      rw [← rowIds_getD hrs hpos]
      cases rowIds sel rs <;> rfl
    rw [rowsAnchored_iff hpart ⟨hfixed, hext⟩ (Nat.le_refl 1), hhead]
    refine or_congr_right ⟨fun hdead k hk hlive => ?_, fun hdead t ht => ?_⟩
    · obtain ⟨hnn, m, hbox, hpicks⟩ := (rowLive_iff hrs hm hext hk).mp hlive
      have helement := (elementLive_iff hm hext hrs hk hbox).mpr ⟨hnn, hpicks⟩
      have hdead' := hdead _ (transferOf_of_inBox hrs hm hk hbox).1
      rw [(transferOf_live_iff k m).mpr helement] at hdead'
      cases hdead'
    · by_contra hlive
      exact hdead t.row (mem_plan_inBox hm hrs ht).1
        (rowLive_of_mem_plan ht (by simpa using hlive))
  constructor
  · intro h k hk hnn hsome
    obtain ⟨hfit, hrows⟩ := h
    have hlive := (rowLive_iff hrs hm hext hk).mpr ⟨hnn, hsome⟩
    refine ⟨fun d hd ids hids => ?_, fun hfixed => ?_⟩
    · have hd' := hfit k hk hlive d hd
      have hi := hlive.2 d hd
      rw [dimIds_eq_span hm hext, hids] at hd' hi
      exact hd'.imp_left (anchored_iff hi).mp
    · refine (hrows hfixed).imp (fun hanch => ?_) fun hsmall => ?_
      · rcases (hfixedRows hfixed (by omega)).mp hanch with hfirst | hdead
        · exact hfirst
        · exact absurd hlive (hdead k hk)
      · rwa [ResultShapeData.rowDims_fixed hfixed k 0]
  · intro h
    refine ⟨fun k hk hlive d hd => ?_, fun hfixed => ?_⟩
    · obtain ⟨hnn, hsome⟩ := (rowLive_iff hrs hm hext hk).mp hlive
      have hi := hlive.2 d hd
      rw [dimIds_eq_span hm hext] at hi ⊢
      cases hids : sel.maybeFSpan d rs.rank with
      | none => exact .inl (anchored_monotonicIds _)
      | some ids =>
          rw [hids] at hi
          exact ((h k hk hnn hsome).1 d hd ids hids).imp_left (anchored_iff hi).mpr
    · by_cases hdead : ∀ k < rs.nRows, ¬ RowLive sel rs k
      · rcases Nat.eq_zero_or_pos rs.nRows with hzero | hpos
        · refine .inl fun c hc hlive => ?_
          obtain ⟨t, ht, -⟩ := hlive
          have := (mem_plan_inBox hm hrs (hpart.mem_plan hc ht)).1
          omega
        · exact .inl ((hfixedRows hfixed hpos).mpr (.inr hdead))
      · push Not at hdead
        obtain ⟨k, hk, hlive⟩ := hdead
        obtain ⟨hnn, hsome⟩ := (rowLive_iff hrs hm hext hk).mp hlive
        refine ((h k hk hnn hsome).2 hfixed).imp (fun hfirst => ?_) fun hsmall => ?_
        · exact (hfixedRows hfixed (by omega)).mpr (.inl hfirst)
        · rwa [ResultShapeData.rowDims_fixed hfixed 0 k]

end Strides

-- ============================================================ addresses

section Partition

variable {p : DataPartition} {opt : RowSplitOptions}

/-- Whatever the chunks, a partition moves to the addresses of the
plan. -/
theorem movesOf_addresses_perm (hpart : p.Partitions sel rs opt) :
    ((movesOf p.dataChunks).map Prod.snd).Perm
      ((planMoves sel rs).map Prod.snd) := by
  have haddresses : ∀ (offset : Transfer → Int) (ts : List Transfer),
      (Transfer.moves offset ts).map Prod.snd
        = (ts.filter Transfer.live).map Transfer.address := by
    intro offset ts
    rw [Transfer.moves, List.map_map]
    rfl
  have hmoves : (movesOf p.dataChunks).map Prod.snd
      = ((p.dataChunks.flatMap DataChunk.transfers).filter Transfer.live).map
          Transfer.address := by
    rw [movesOf, List.map_flatMap, List.filter_flatMap, List.map_flatMap]
    exact List.flatMap_congr fun c _ => haddresses _ _
  rw [hmoves, planMoves, haddresses]
  exact (hpart.transfers.filter _).map _

/-- The plan of a selection without repeats moves to each address at most
once. -/
theorem planMoves_addresses_nodup (hrs : rs.Consistent) (hm : sel.Matches rs)
    (hrows : NoRepeat (rowIds sel rs))
    (hdims : ∀ k < rs.nRows, ∀ d < rs.rank - 1, NoRepeat (dimIds sel rs k d)) :
    ((planMoves sel rs).map Prod.snd).Nodup := by
  refine List.Nodup.map_on ?_ (planMoves_offsets_nodup hrs hm).of_map
  intro a ha b hb hab
  obtain ⟨k, hk, m, hbox, hlive, rfl⟩ := planMoves_addresses hrs hm ha
  obtain ⟨k', hk', m', hbox', hlive', rfl⟩ := planMoves_addresses hrs hm hb
  obtain ⟨rfl, rfl⟩ := elementAddress_inj hrs hm hrows hdims hk hk' hbox hbox'
    hlive hlive' hab
  rfl

end Partition

theorem Selection.maybeFSpan_mem {d n : Nat} {ids : Index}
    (h : sel.maybeFSpan d n = some ids) : ids ∈ sel.spans := by
  unfold maybeFSpan at h
  dsimp only at h
  split at h
  · split at h
    · rename_i hspan
      cases h
      exact List.mem_of_getElem? hspan
    · cases h
  · cases h

/-- Rows and dimensions repeat no index if no selection does. -/
theorem noRepeat_of_distinct (hm : sel.Matches rs) (hext : rs.cellExtents = none)
    (hdistinct : ∀ span ∈ sel.spans, NoRepeat span) :
    NoRepeat (rowIds sel rs) ∧ ∀ k d, NoRepeat (dimIds sel rs k d) := by
  constructor
  · rw [rowIds]
    cases hsel : sel.selected rs (rs.rank - 1) with
    | none => exact noRepeat_monotonicIds _
    | some ids => exact hdistinct ids (Selection.maybeFSpan_mem hsel)
  · intro k d
    rw [dimIds_eq_span hm hext]
    cases hsel : sel.maybeFSpan d rs.rank with
    | none => exact noRepeat_monotonicIds _
    | some ids => exact hdistinct ids (Selection.maybeFSpan_mem hsel)

-- ============================================================== a write

variable {srt : StdSort}
  {cast : LeafArray β → ArrowType → Result (LeafArray β)} {around : Memory β}
  {layout : ElementLayout col.columnDesc.dataType α β} {array : ArrowArray β}

/-- A write that got through. -/
structure IsPut (srt : StdSort)
    (cast : LeafArray β → ArrowType → Result (LeafArray β)) (around : Memory β)
    (col : TableColumn α) (layout : ElementLayout col.columnDesc.dataType α β)
    (array : ArrowArray β) (sel : Selection) (rs : ResultShapeData)
    (p : DataPartition) (buffer : Memory β) (col₁ col' : TableColumn α) :
    Prop where
  planned : IsPlanned srt cast around col array sel rs p buffer col₁
  supported : p.casaDtype.supported = true
  has : ∀ m ∈ movesOf p.dataChunks, col₁.Has m.2
  result : col' = Moves.write (layout.dataAs buffer) (movesOf p.dataChunks) col₁

theorem writeImpl_ok
    (h : writeImpl srt cast around col layout array sel = (.ok (), col')) :
    ∃ rs p buffer col₁,
      IsPut srt cast around col layout array sel rs p buffer col₁ col' := by
  unfold writeImpl at h
  cases hplan : planWrite srt cast around col array sel with
  | mk result col₁ =>
      cases result with
      | error e =>
          simp only [hplan] at h
          cases h
      | ok planned =>
          obtain ⟨p, buffer⟩ := planned
          simp only [hplan] at h
          obtain ⟨rs, hplanned⟩ := planWrite_ok hplan
          have hpart := hplanned.partition.2
          obtain ⟨hsupported, hhas⟩ := has_of_writeChunks hplanned.consistent
            hplanned.isMatch hpart.planned h
          have hok := writeChunks_ok hplanned.consistent hplanned.isMatch
            hpart.planned col₁ hsupported (layout.dataAs buffer) hhas
          rw [h] at hok
          exact ⟨rs, p, buffer, col₁, hplanned, hsupported, hhas,
            (Prod.mk.inj hok).2⟩

/-- The flat array of data without nulls is the leaf. -/
theorem getFlatArray_of (hnull : data.ListsNullFree)
    (hknown : data.leafArray.type.known = true) :
    getFlatArray data = .ok data.leafArray := by
  unfold getFlatArray
  generalize data.typeName = typeName
  induction data with
  | leaf slots => exact if_pos hknown
  | list level child ih =>
      have hzero := hnull.1
      rw [flatArrayFrom, if_neg (by omega)]
      exact ih hnull.2 hknown

/-- A write of the column's own type gets through if its checks do, its
partition has an element for each value, and the column has an element
for each move. -/
theorem isPut_of {p : DataPartition} {col₁ : TableColumn α}
    (hmakeWrite : ResultShapeData.makeWrite col array sel = (.ok rs, col₁))
    (hmake : DataPartition.make srt sel rs .default = .ok p)
    (hown : arrowDataType col.columnDesc.dataType
      = .ok array.data.leafArray.type)
    (hcount : array.data.leafArray.length
      = leafWidth p.casaDtype * p.nElements)
    (hsupported : p.casaDtype.supported = true)
    (hhas : ∀ m ∈ movesOf p.dataChunks, col₁.Has m.2) (around : Memory β) :
    ∃ buffer col', IsPut srt cast around col layout array sel rs p buffer col₁
        col'
      ∧ writeImpl srt cast around col layout array sel = (.ok (), col') := by
  obtain ⟨hshape, hwrite⟩ := makeWrite_ok hmakeWrite
  have hrs := hshape.consistent_of_make hmake
  have hm := hwrite.isMatch hrs hshape.cellExtents
  obtain ⟨-, hpart⟩ := partitions_of_make hrs hm hmake
  obtain ⟨buffer, hbuffer⟩ := @extract_own_ok _ cast around _ _ hown
  have hplan : planWrite srt cast around col array sel
      = (.ok (p, buffer), col₁) := by
    have hprepare : prepareWrite srt cast around rs array sel
        = .ok (p, buffer) := by
      unfold prepareWrite
      rw [hmake, Result.ok_bind, getFlatArray_of hshape.nullFree hshape.known,
        Result.ok_bind, if_neg (not_not.mpr hcount), hpart.dtype, hshape.dtype,
        hbuffer]
      rfl
    unfold planWrite
    simp only [hmakeWrite, hprepare]
  obtain ⟨rs', hplanned⟩ := planWrite_ok hplan
  obtain rfl : rs' = rs := by
    have heq := hplanned.makeWrite.symm.trans hmakeWrite
    exact Except.ok.inj (Prod.mk.inj heq).1
  refine ⟨buffer, _, ⟨hplanned, hsupported, hhas, rfl⟩, ?_⟩
  unfold writeImpl
  simp only [hplan, writeChunks_ok hrs hm hpart.planned col₁ hsupported
    (layout.dataAs buffer) hhas]

/-- With other values the same write gets through. -/
theorem IsPut.withValues {p : DataPartition} {buffer : Memory β}
    {col₁ : TableColumn α}
    (h : IsPut srt cast around col layout array sel rs p buffer col₁ col')
    (hown : arrowDataType col.columnDesc.dataType
      = .ok array.data.leafArray.type) (values : List β)
    (hlen : values.length = array.data.leafArray.values.length)
    (around' : Memory β) :
    ∃ buffer' col'', IsPut srt cast around' col layout
        (array.withValues values hlen) sel rs p buffer' col₁ col''
      ∧ writeImpl srt cast around' col layout (array.withValues values hlen) sel
        = (.ok (), col'') := by
  have hplanned := h.planned
  have hpart := hplanned.partition.2
  have hleaf : (array.withValues values hlen).data.leafArray
      = { array.data.leafArray with values := values } :=
    ArrayData.withValues_leafArray values array.data
  refine isPut_of ?_ hplanned.make ?_ ?_ h.supported h.has around'
  · rw [makeWrite_withValues]
    exact hplanned.makeWrite
  · rw [hleaf]
    exact hown
  · rw [hleaf]
    show array.data.leafArray.length = _
    rw [← ArrayData.slice_length array.wellFormed, ← hplanned.leaves.1,
      hplanned.shape.leaves_length array.wellFormed hplanned.consistent,
      hpart.nElements_eq hplanned.consistent hplanned.isMatch, hpart.dtype]

-- ============================================== what a write leaves behind

namespace IsPut

variable {p : DataPartition} {buffer : Memory β} {col₁ : TableColumn α}

section Facts

variable (h : IsPut srt cast around col layout array sel rs p buffer col₁ col')

include h

/-- The rows of the data and of its shape. -/
theorem length_eq : array.data.length = rs.nRows :=
  h.planned.shape.length_eq h.planned.consistent

theorem elementAt_iff {k : Nat} (hk : k < rs.nRows) {m : List Nat} {x : α} :
    layout.ElementAt array.data k m x ↔ InBox m (rs.rowDims k)
      ∧ ∀ i : Fin (leafWidth col.columnDesc.dataType),
          array.data.leafArray.slice[
              leafWidth col.columnDesc.dataType * rs.position k m + i]?
            = some (layout.parts x i) :=
  Arcae.elementAt_iff layout h.planned.shape array.wellFormed
    h.planned.consistent h.planned.leaves.2 hk

/-- The leaf has a value for each part of each element. -/
theorem position_lt {k : Nat} (hk : k < rs.nRows) {m : List Nat}
    (hbox : InBox m (rs.rowDims k)) :
    leafWidth col.columnDesc.dataType * rs.position k m
        + leafWidth col.columnDesc.dataType
      ≤ array.data.leafArray.slice.length := by
  have hrs := h.planned.consistent
  have hm := h.planned.isMatch
  obtain ⟨ht, hlen⟩ := transferOf_of_inBox hrs hm hk hbox
  have hlt := Arcae.position_lt hrs hm ht
  rw [transferOf_position hlen] at hlt
  rw [← h.planned.leaves.1,
    h.planned.shape.leaves_length array.wellFormed hrs, h.planned.shape.dtype,
    ← Nat.mul_succ]
  exact Nat.mul_le_mul_left _ hlt

/-- Each multi-index of a row of the data has an element. -/
theorem exists_elementAt {k : Nat} (hk : k < rs.nRows) {m : List Nat}
    (hbox : InBox m (rs.rowDims k)) :
    ∃ x, layout.ElementAt array.data k m x := by
  have hlt := h.position_lt hk hbox
  refine ⟨layout.parts.symm fun i => array.data.leafArray.slice.get
    ⟨leafWidth col.columnDesc.dataType * rs.position k m + i, by omega⟩,
    (h.elementAt_iff hk).mpr ⟨hbox, fun i => ?_⟩⟩
  rw [Equiv.apply_symm_apply, List.get_eq_getElem]
  exact List.getElem?_eq_getElem _

/-- An element whose place exists is in the plan, and its place in the
column. -/
theorem placed {k : Nat} (hk : k < rs.nRows) {m : List Nat}
    (hbox : InBox m (rs.rowDims k)) (hnn : 0 ≤ selectedRow sel k)
    (hpicks : sel.Picks m) :
    ((rs.position k m : Int), ((selectedRow sel k).toNat, sel.diskIndex m))
        ∈ planMoves sel rs
      ∧ col'.Has ((selectedRow sel k).toNat, sel.diskIndex m) := by
  have hrs := h.planned.consistent
  have hm := h.planned.isMatch
  have hext := h.planned.shape.cellExtents
  have hlive := (elementLive_iff hm hext hrs hk hbox).mpr ⟨hnn, hpicks⟩
  have hmove := mem_planMoves hrs hm hk hbox hlive
  rw [elementAddress_eq hm hext hrs hk hbox] at hmove
  refine ⟨hmove, ?_⟩
  have haddress := (movesOf_addresses_perm h.planned.partition.2).mem_iff.mpr
    (List.mem_map_of_mem hmove)
  obtain ⟨move, hmem, heq⟩ := List.mem_map.mp haddress
  have hhas := h.has move hmem
  rw [heq] at hhas
  rw [h.result]
  exact hhas

/-- Elements that no element of the data belongs to stay. -/
theorem frame (row : Nat) (idx : List Nat)
    (hno : ∀ k < rs.nRows, selectedRow sel k = row → ∀ m,
      InBox m (rs.rowDims k) → sel.Picks m → sel.diskIndex m ≠ idx) :
    col'.value (row, idx) = col.value (row, idx) := by
  have hrs := h.planned.consistent
  have hm := h.planned.isMatch
  have hext := h.planned.shape.cellExtents
  rw [h.result]
  show scatter col₁.value _ (row, idx) = _
  rw [scatter_of_not_mem, h.planned.write.grows.value]
  intro hmem
  have hmem : (row, idx) ∈ (movesOf p.dataChunks).map Prod.snd := by
    rwa [List.map_map] at hmem
  have hmem := (movesOf_addresses_perm h.planned.partition.2).mem_iff.mp hmem
  obtain ⟨move, hmove, heq⟩ := List.mem_map.mp hmem
  obtain ⟨k, hk, m, hbox, hlive, rfl⟩ := planMoves_addresses hrs hm hmove
  obtain ⟨hnn, hpicks⟩ := (elementLive_iff hm hext hrs hk hbox).mp hlive
  rw [elementAddress_eq hm hext hrs hk hbox] at heq
  obtain ⟨hrow, hidx⟩ := Prod.mk.inj heq
  exact hno k hk (by omega) m hbox hpicks hidx

theorem cellShape_eq : col'.cellShape = col₁.cellShape := by
  rw [h.result]
  rfl

/-- Rows that are not selected have the cell they had, or none. -/
theorem unselected (row : Nat) (hno : ∀ k < rs.nRows, selectedRow sel k ≠ row) :
    col'.cellShape row = col.cellShape row := by
  rw [h.cellShape_eq]
  refine h.planned.write.grows.others row fun hrow => ?_
  obtain ⟨k, hk, heq⟩ := hrow
  exact hno k (lt_nRows_of_lt_nWrittenRows
    (fun hs => (h.planned.write.rowSpan hs).1) hk) heq.symm

/-- Selected rows have a cell at the end. -/
theorem defined {k : Nat} (hk : k < rs.nRows) (hnn : 0 ≤ selectedRow sel k)
    (hlt : selectedRow sel k < (col.nrow : Int)) :
    ∃ shape, col'.cellShape (selectedRow sel k).toNat = some shape := by
  have hrs := h.planned.consistent
  by_cases hrank : 2 ≤ rs.rank
  · have hin : sel.hasRowSpan = true ∨ k < col.nrow := by
      by_cases hspan : sel.hasRowSpan = true
      · exact .inl hspan
      · rw [selectedRow, if_neg hspan] at hlt
        exact .inr (by omega)
    obtain ⟨shape, hshape, -⟩ := h.planned.write.room hrank k hk hin hnn
    exact ⟨shape, by rw [h.cellShape_eq]; exact hshape⟩
  · -- a row without dimensions is an element
    have hdims : rs.rowDims k = [] := by
      refine List.length_eq_zero_iff.mp ?_
      have := hrs.rowDims_length (.inl hk)
      omega
    have hpicks : sel.Picks [] := by
      intro d hd
      exact absurd hd (Nat.not_lt_zero d)
    obtain ⟨-, shape, hshape, -⟩ := h.placed hk (m := []) (by
      rw [hdims]
      exact .nil) hnn hpicks
    exact ⟨shape, hshape⟩

/-- The addresses of a write are distinct. -/
theorem addresses_nodup (hreq : PutRequest col array sel) :
    ((movesOf p.dataChunks).map Prod.snd).Nodup := by
  have hm := h.planned.isMatch
  obtain ⟨hrows, hdims⟩ :=
    noRepeat_of_distinct hm h.planned.shape.cellExtents hreq.distinct
  refine (movesOf_addresses_perm h.planned.partition.2).nodup_iff.mpr ?_
  exact planMoves_addresses_nodup h.planned.consistent hm hrows
    fun k _ d _ => hdims k d

/-- What a move writes is there afterwards. -/
theorem value_of_move (hreq : PutRequest col array sel) {q : Int}
    {a : CellIndex} (hmove : (q, a) ∈ movesOf p.dataChunks) :
    col'.value a = layout.dataAs buffer q := by
  rw [h.result]
  refine scatter_of_mem ?_ (List.mem_map.mpr ⟨(q, a), hmove, rfl⟩)
  rw [List.map_map]
  exact h.addresses_nodup hreq

/-- A place in the buffer holds the element that belongs there. -/
theorem dataAs_eq (hreq : PutRequest col array sel) {k : Nat}
    (hk : k < rs.nRows) {m : List Nat} {x : α}
    (hx : layout.ElementAt array.data k m x) :
    layout.dataAs buffer (rs.position k m) = x := by
  obtain ⟨values, hvalues, rfl⟩ := extract_own hreq.ownType h.planned.buffer
  have hoffset := hreq.unsliced.leafArray_offset
  obtain ⟨-, hparts⟩ := (h.elementAt_iff hk).mp hx
  refine layout.parts.symm_apply_eq.mpr (funext fun i => ?_)
  have hpart := hparts i
  refine LeafArray.buffer_of_values ?_
  rcases hvalues with rfl | rfl
  · rw [LeafArray.slice_get] at hpart
    split at hpart
    · rwa [hoffset, Nat.zero_add] at hpart
    · cases hpart
  · exact hpart

end Facts

/-- With small strides, a write is a scatter. -/
theorem scatters
    (h : IsPut srt cast around col layout array sel rs p buffer col₁ col')
    (hreq : PutRequest col array sel) (hsmall : WriteStridesSmall sel rs) :
    Scatters layout array.data sel col' := by
  have hrs := h.planned.consistent
  have hm := h.planned.isMatch
  have hext := h.planned.shape.cellExtents
  have hperm := h.planned.partition.2.movesOf_perm
    ((no_slip_iff_small hrs hm hext h.planned.partition.2).mpr hsmall)
  constructor
  case written =>
    intro k hk hnn m x hx hpicks
    rw [h.length_eq] at hk
    obtain ⟨hbox, -⟩ := (h.elementAt_iff hk).mp hx
    obtain ⟨hmove, hhas⟩ := h.placed hk hbox hnn hpicks
    refine ⟨hhas, ?_⟩
    rw [h.value_of_move hreq (hperm.mem_iff.mpr hmove), h.dataAs_eq hreq hk hx]
  case frame =>
    intro row idx _ hno
    refine h.frame row idx fun k hk hrow m hbox hpicks => ?_
    obtain ⟨x, hx⟩ := h.exists_elementAt hk hbox
    exact hno k (by rw [h.length_eq]; exact hk) hrow m x hx hpicks
  case shapes =>
    intro row shape hshape
    rw [h.cellShape_eq]
    exact h.planned.write.grows.defined row shape hshape
  case unselected =>
    intro row hno
    refine h.unselected row fun k hk => hno k ?_
    rw [h.length_eq]
    exact hk
  case defined =>
    intro _ k hk hnn hlt
    rw [h.length_eq] at hk
    obtain ⟨shape, hshape⟩ := h.defined hk hnn hlt
    refine ⟨shape, hshape, fun m x hx hpicks => ?_⟩
    obtain ⟨hbox, -⟩ := (h.elementAt_iff hk).mp hx
    obtain ⟨-, shape', hshape', hin⟩ := h.placed hk hbox hnn hpicks
    rw [hshape] at hshape'
    cases hshape'
    exact hin

end IsPut

end Arcae
