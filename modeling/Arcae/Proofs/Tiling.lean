/-
The chunks of a partition tile the buffer, and repeated indices are
rejected where dimensions are cut.

# The tiling

A position of a partition is a chunk and a multi-index in it
(`DataPartition.positions`). Its place in memory is the chunk's
`bufferIndex` at the memory indices found there. The chunks' transfers
are the plan's (`make_outcome`), the plan's positions count up from zero
(`plan_positions`), and small rows leave no slip, so the places are the
buffer's, each once: `chunks_tile_buffer`.

# The duplicates

Only the loop that cuts a dimension into sub-spans looks for repeated
indices. A plain result cuts every dimension, rows included. A result
planned row by row takes its rows one at a time and never cuts the row
dimension, so a row selected twice passes there unnoticed:
`repeat_rejected_iff`, and `ragged_repeat_accepted` for such a request.
-/
import Arcae.Proofs.Positions
import Arcae.Model.ReadShape
import Mathlib.Data.Int.ConditionallyCompleteOrder
import Mathlib.Order.ConditionallyCompleteLattice.Basic

namespace Arcae

open FOrder

variable {sel : Selection} {rs : ResultShapeData}

-- ================================================= inside a chunk

namespace DataChunk

variable (c : DataChunk)

/-- The disk indices at a position of a chunk. -/
def diskAt (pos : List Nat) : List Int :=
  List.zipWith (fun span i => span.disk.getD i 0) c.dimSpans pos

/-- The transfer at a position of a chunk. -/
def transferAt (pos : List Nat) : Transfer :=
  List.zipWith (fun span i => (span.disk.getD i 0, span.mem.getD i 0))
    c.dimSpans pos

@[simp] theorem transferAt_mem (pos : List Nat) :
    (c.transferAt pos).mem = c.memAt pos := by
  rw [Transfer.mem, transferAt, memAt, List.map_zipWith]

@[simp] theorem transferAt_disk (pos : List Nat) :
    (c.transferAt pos).disk = c.diskAt pos := by
  rw [Transfer.disk, transferAt, diskAt, List.map_zipWith]

end DataChunk

/-- A span is read off position by position. -/
theorem pairs_eq_map {s : SpanPair} (h : s.disk.length = s.mem.length) :
    s.pairs = (List.range s.disk.length).map
      fun i => (s.disk.getD i 0, s.mem.getD i 0) := by
  refine List.ext_getElem (by simp [SpanPair.pairs, h]) fun i h₁ h₂ => ?_
  have hd : i < s.disk.length := by simpa using h₂
  have hm : i < s.mem.length := by omega
  simp [SpanPair.pairs, List.getD_eq_getElem?_getD,
    List.getElem?_eq_getElem hd, List.getElem?_eq_getElem hm]

theorem DataChunk.Planned.aligned {c : DataChunk} (h : c.Planned sel rs) :
    ∀ s ∈ c.dimSpans, s.disk.length = s.mem.length := by
  obtain ⟨picks, row, hspans, hrow, -, -, -, hpicks, -⟩ := h.spans
  rw [hspans]
  intro s hs
  rcases List.mem_append.mp hs with hs | hs
  · exact (hpicks s hs).1
  · rw [List.mem_singleton.mp hs]
    exact hrow

/-- The transfers of a chunk are those at its positions, in FORTRAN
order. -/
theorem DataChunk.Planned.transfers_eq {c : DataChunk} (h : c.Planned sel rs) :
    c.transfers = (box c.getShape).map c.transferAt := by
  have hpairs : c.dimSpans.map SpanPair.pairs = c.dimSpans.map fun s =>
      (List.range s.disk.length).map
        fun i => (s.disk.getD i 0, s.mem.getD i 0) :=
    List.map_congr_left fun s hs => pairs_eq_map (h.aligned s hs)
  rw [DataChunk.transfers, SpanPairs.transfers, hpairs,
    Sections.sections_zipWith, box, DataChunk.getShape, List.map_map]
  rfl

theorem DataChunk.Planned.transferAt_mem {c : DataChunk}
    (h : c.Planned sel rs) {pos : List Nat} (hpos : InBox pos c.getShape) :
    c.transferAt pos ∈ c.transfers := by
  rw [h.transfers_eq]
  exact List.mem_map_of_mem (mem_box.mpr hpos)

theorem DataChunk.Planned.nElements_eq {c : DataChunk} (h : c.Planned sel rs) :
    c.nElements = c.transfers.length := by
  rw [h.transfers_eq, List.length_map, box_length]
  rfl

-- ================================================ indices of a dimension

/-- A selected dimension reads the selected indices. -/
theorem dimIds_selected (hm : sel.Matches rs) {row dim : Nat} {ids : Index}
    (hsel : sel.selected rs dim = some ids) : dimIds sel rs row dim = ids := by
  unfold dimIds
  dsimp only
  cases hext : rs.extent row dim with
  | none => rw [hsel, Option.getD_some]
  | some extent =>
      by_cases hlt : extent < (rs.rowDims row).getD dim 0
      · have := hm.unpadded row dim ⟨extent, hext, hlt⟩
        rw [hsel] at this
        cases this
      · simp only [hlt, if_false, hsel, Option.getD_some]

/-- An unselected dimension that is not padded reads its positions. -/
theorem dimIds_unselected {row dim : Nat} (hsel : sel.selected rs dim = none)
    (hpad : ¬ rs.IsPadded row dim) :
    dimIds sel rs row dim = monotonicIds ((rs.rowDims row).getD dim 0) := by
  unfold dimIds
  dsimp only
  cases hext : rs.extent row dim with
  | none => rw [hsel, Option.getD_none]
  | some extent =>
      have hlt : ¬ extent < (rs.rowDims row).getD dim 0 :=
        fun hlt => hpad ⟨extent, hext, hlt⟩
      simp only [hlt, if_false, hsel, Option.getD_none]

theorem monotonicIds_getElem? {n m : Nat} (h : m < n) :
    (monotonicIds n)[m]? = some (m : Int) := by
  rw [monotonicIds, List.getElem?_map, List.getElem?_range h]
  rfl

theorem noRepeat_monotonicIds (n : Nat) : NoRepeat (monotonicIds n) := by
  refine List.Nodup.filter _ (List.Nodup.map ?_ List.nodup_range)
  intro a b hab
  exact Int.ofNat.inj hab

theorem noRepeat_paddedIds (n extent : Nat) : NoRepeat (paddedIds n extent) := by
  have hpad : (List.replicate (n - extent) (-1 : Int)).filter
      (fun i => decide (0 ≤ i)) = [] := by
    refine List.filter_eq_nil_iff.mpr fun i hi => ?_
    rw [List.eq_of_mem_replicate hi]
    decide
  rw [NoRepeat, paddedIds, List.filter_append, hpad, List.append_nil]
  exact noRepeat_monotonicIds extent

/-- The row plan reads the selected rows. -/
theorem rowIds_getD (hrs : rs.Consistent) {k : Nat} (hk : k < rs.nRows) :
    (rowIds sel rs).getD k 0 = selectedRow sel k := by
  rw [rowIds, Selection.selected, Selection.maybeFSpan_row sel hrs.rank_pos,
    selectedRow]
  split
  · rw [Option.getD_some]
  · rw [Option.getD_none, List.getD_eq_getElem?_getD, monotonicIds_getElem? hk]
    rfl

/-- These are the rows, in the order of the request. -/
theorem rowIds_eq (hrs : rs.Consistent) (hm : sel.Matches rs) :
    rowIds sel rs = (List.range rs.nRows).map (selectedRow sel) := by
  have hlen := hm.rowIds_length
  refine List.ext_getElem (by simp [hlen]) fun k h₁ h₂ => ?_
  rw [← List.getD_eq_getElem _ 0 h₁, rowIds_getD hrs (by omega),
    List.getElem_map, List.getElem_range]

/-- If no selected dimension repeats an index, every dimension can be
cut. -/
theorem selectable_of_noRepeat (hm : sel.Matches rs)
    (hrows : rs.IsPlain → ∀ ids, sel.selected rs (rs.rank - 1) = some ids →
      NoRepeat ids)
    (hdims : ∀ dim < rs.rank - 1, ∀ ids, sel.selected rs dim = some ids →
      NoRepeat ids) : Selectable sel rs := by
  refine ⟨fun hplain => ?_, fun row _ dim hdim => ?_⟩
  · unfold rowIds
    cases hsel : sel.selected rs (rs.rank - 1) with
    | none => exact noRepeat_monotonicIds _
    | some ids => exact hrows hplain ids hsel
  · cases hsel : sel.selected rs dim with
    | some ids =>
        rw [dimIds_selected hm hsel]
        exact hdims dim hdim ids hsel
    | none =>
        by_cases hpad : rs.IsPadded row dim
        · obtain ⟨extent, hext, hlt⟩ := hpad
          simp only [dimIds, hext, hlt, if_true]
          exact noRepeat_paddedIds _ _
        · rw [dimIds_unselected hsel hpad]
          exact noRepeat_monotonicIds _

/-- The disk index of a planned transfer in a dimension: the selected
one, or the position itself where nothing is selected or padded. -/
theorem plan_index (hm : sel.Matches rs) {t : Transfer} (ht : t ∈ plan sel rs)
    {d : Nat} (hd : d < rs.rank) :
    ∃ m i, t.mem[d]? = some m ∧ t.disk[d]? = some i
      ∧ (∀ ids, sel.selected rs d = some ids → ids[m]? = some i)
      ∧ (sel.selected rs d = none → ¬ rs.IsPadded t.row d → i = m) := by
  obtain ⟨row, hrow, t', rfl, hall⟩ := mem_plan.mp ht
  have hlen : t'.length = rs.rank - 1 := by
    rw [hall.length_eq, secondaryIds, List.length_map, List.length_range]
  -- the pair of the dimension, and the disk indices it is from
  obtain ⟨p, ids, hp, hmem, hids⟩ : ∃ (p : Int × Nat) (ids : Index),
      (t' ++ [((rowIds sel rs).getD row 0, row)])[d]? = some p
        ∧ p ∈ indexed ids
        ∧ (∀ ids', sel.selected rs d = some ids' → ids = ids')
          ∧ (sel.selected rs d = none → ¬ rs.IsPadded row d →
              ∃ n, ids = monotonicIds n) := by
    rcases Nat.lt_or_ge d (rs.rank - 1) with hlt | hge
    · have hdl : d < t'.length := by omega
      have hdr : d < (secondaryIds sel rs row).length := by
        rw [← hall.length_eq]
        exact hdl
      have hget := hall.get hdl hdr
      have hids : (secondaryIds sel rs row)[d] = dimIds sel rs row d := by
        simp [secondaryIds]
      simp only [List.get_eq_getElem, hids] at hget
      refine ⟨t'[d], dimIds sel rs row d, ?_, hget, ?_, ?_⟩
      · rw [List.getElem?_append_left hdl, List.getElem?_eq_getElem hdl]
      · exact fun ids' hsel => dimIds_selected hm hsel
      · exact fun hsel hpad => ⟨_, dimIds_unselected hsel hpad⟩
    · have hd' : d = t'.length := by omega
      have hrank : rs.rank - 1 = d := by omega
      refine ⟨((rowIds sel rs).getD row 0, row), rowIds sel rs, ?_, ?_, ?_, ?_⟩
      · rw [hd', List.getElem?_concat_length]
      · exact mem_indexed.mpr ⟨by rw [hm.rowIds_length]; exact hrow, rfl⟩
      · intro ids' hsel
        rw [rowIds, hrank, hsel, Option.getD_some]
      · intro hsel _
        exact ⟨_, by rw [rowIds, hrank, hsel, Option.getD_none]⟩
  obtain ⟨hlt, hi⟩ := mem_indexed.mp hmem
  refine ⟨p.2, p.1, ?_, ?_, ?_, ?_⟩
  · rw [Transfer.mem, List.getElem?_map, hp]
    rfl
  · rw [Transfer.disk, List.getElem?_map, hp]
    rfl
  · intro ids' hsel
    rw [← hids.1 ids' hsel, hi, List.getD_eq_getElem?_getD,
      List.getElem?_eq_getElem hlt, Option.getD_some]
  · intro hsel hpad
    rw [Transfer.row_concat] at hpad
    obtain ⟨n, rfl⟩ := hids.2 hsel hpad
    rw [monotonicIds_length] at hlt
    rw [hi, List.getD_eq_getElem?_getD, monotonicIds_getElem? hlt,
      Option.getD_some]

-- ============================================================ the tiling

namespace DataPartition

variable (p : DataPartition)

/-- The positions of a partition: a chunk, and a multi-index in it. -/
def positions : Set (Nat × List Nat) :=
  {x | ∃ c, p.dataChunks[x.1]? = some c ∧ InBox x.2 c.getShape}

/-- The place in memory of a position. -/
def bufferPosition (x : Nat × List Nat) : Int :=
  match p.dataChunks[x.1]? with
  | some c => c.bufferIndex (c.memAt x.2)
  | none => 0

/-- The positions, listed chunk by chunk. -/
def positionList : List (Nat × List Nat) :=
  p.dataChunks.zipIdx.flatMap fun ci =>
    (box ci.1.getShape).map fun pos => (ci.2, pos)

theorem mem_positionList {x : Nat × List Nat} :
    x ∈ p.positionList ↔ x ∈ p.positions := by
  obtain ⟨i, pos⟩ := x
  simp only [positionList, List.mem_flatMap, List.mem_map, mem_box,
    Prod.mk.injEq, positions, Set.mem_ofPred_eq]
  constructor
  · intro hx
    obtain ⟨⟨c, j⟩, hc, pos', hpos, rfl, rfl⟩ := hx
    exact ⟨c, List.mem_zipIdx_iff_getElem?.mp hc, hpos⟩
  · intro hx
    obtain ⟨c, hc, hpos⟩ := hx
    exact ⟨(c, i), List.mk_mem_zipIdx_iff_getElem?.mpr hc, pos, hpos, rfl, rfl⟩

/-- The places of the listed positions are those of the transfers. -/
theorem positionList_map (hplanned : ∀ c ∈ p.dataChunks, c.Planned sel rs) :
    p.positionList.map p.bufferPosition
      = p.dataChunks.flatMap fun c =>
          c.transfers.map fun t => c.bufferIndex t.mem := by
  have hchunk : ∀ ci ∈ p.dataChunks.zipIdx,
      ((box ci.1.getShape).map fun pos => (ci.2, pos)).map p.bufferPosition
        = ci.1.transfers.map fun t => ci.1.bufferIndex t.mem := by
    intro hx hci
    obtain ⟨c, i⟩ := hx
    have hget := List.mk_mem_zipIdx_iff_getElem?.mp hci
    have hc := List.mem_of_getElem? hget
    rw [(hplanned c hc).transfers_eq, List.map_map, List.map_map]
    refine List.map_congr_left fun pos _ => ?_
    simp [bufferPosition, hget]
  rw [positionList, List.map_flatMap, List.flatMap_congr hchunk]
  conv_rhs => rw [← List.zipIdx_map_fst 0 p.dataChunks, List.flatMap_map]

end DataPartition

section Tiling

variable {srt : StdSort} {opt : RowSplitOptions} {p : DataPartition}

/-- The chunks put their transfers at every place of the buffer, each
once, if no chunk slips. -/
theorem bufferIndices_perm (h : rs.Consistent) (hm : sel.Matches rs)
    (hpart : p.Partitions sel rs opt)
    (hslip : ∀ c ∈ p.dataChunks, ∀ t ∈ c.transfers, c.slip rs = 0) :
    (p.dataChunks.flatMap fun c =>
        c.transfers.map fun t => c.bufferIndex t.mem).Perm
      ((List.range rs.nElements).map Int.ofNat) := by
  have hplace : ∀ c ∈ p.dataChunks,
      (c.transfers.map fun t => c.bufferIndex t.mem)
        = c.transfers.map (Int.ofNat ∘ Transfer.position rs) := by
    intro c hc
    refine List.map_congr_left fun t ht => ?_
    rw [(hpart.planned c hc).bufferIndex_eq t ht, hslip c hc t ht]
    simp
  rw [List.flatMap_congr hplace, ← List.map_flatMap, ← plan_positions hm h,
    List.map_map]
  exact hpart.transfers.map _

/-- A partition has the elements of its result. -/
theorem DataPartition.Partitions.nElements_eq (h : rs.Consistent)
    (hm : sel.Matches rs) (hpart : p.Partitions sel rs opt) :
    p.nElements = rs.nElements := by
  have hcount : p.nElements
      = (p.dataChunks.flatMap DataChunk.transfers).length := by
    rw [DataPartition.nElements, List.length_flatMap]
    exact congrArg List.sum (List.map_congr_left fun c hc =>
      (hpart.planned c hc).nElements_eq)
  have hlen := congrArg List.length (plan_positions hm h)
  rw [List.length_map, List.length_range] at hlen
  rw [hcount, hpart.transfers.length_eq, hlen]

/-- The chunks of a partition tile the buffer exactly once, and each
place is filled from the disk index that was asked for. -/
theorem chunks_tile_buffer (h : rs.Consistent) (hm : sel.Matches rs)
    (hsmall : rs.SmallRows) (hp : DataPartition.make srt sel rs opt = .ok p) :
    Set.BijOn p.bufferPosition p.positions (Set.Ico 0 (rs.nElements : Int))
      ∧ (∀ c ∈ p.dataChunks, ∀ pos, InBox pos c.getShape → ∀ d < rs.rank,
          ∃ m i, (c.memAt pos)[d]? = some m ∧ (c.diskAt pos)[d]? = some i
            ∧ (∀ ids, sel.selected rs d = some ids → ids[m]? = some i)
            ∧ (sel.selected rs d = none →
                ¬ rs.IsPadded ((c.memAt pos).getLastD 0) d → i = m))
      ∧ p.nElements = rs.nElements := by
  obtain ⟨-, hpart⟩ := partitions_of_make h hm hp
  have hplan : ∀ c ∈ p.dataChunks, ∀ t ∈ c.transfers, t ∈ plan sel rs :=
    fun c hc t ht => hpart.transfers.mem_iff.mp (List.mem_flatMap.mpr ⟨c, hc, ht⟩)
  refine ⟨?_, ?_, ?_⟩
  · have hperm := bufferIndices_perm h hm hpart fun c hc t ht =>
      (hpart.planned c hc).slip_of_small h hm hsmall ht (hplan c hc t ht)
    rw [← p.positionList_map hpart.planned] at hperm
    have hnodup : ((List.range rs.nElements).map Int.ofNat).Nodup :=
      List.Nodup.map (fun a b hab => Int.ofNat.inj hab) List.nodup_range
    have hbij := Sections.bijOn_of_map_perm hperm hnodup
    have hdom : {x | x ∈ p.positionList} = p.positions :=
      Set.ext fun x => p.mem_positionList
    have hcod : {y | y ∈ (List.range rs.nElements).map Int.ofNat}
        = Set.Ico 0 (rs.nElements : Int) := by
      ext y
      simp only [Set.mem_ofPred_eq, List.mem_map, List.mem_range, Set.mem_Ico]
      constructor
      · intro hx
        obtain ⟨n, hn, rfl⟩ := hx
        exact ⟨Int.natCast_nonneg n, Int.ofNat_lt.mpr hn⟩
      · intro hx
        obtain ⟨h0, hlt⟩ := hx
        exact ⟨y.toNat, by omega, Int.toNat_of_nonneg h0⟩
    rwa [hdom, hcod] at hbij
  · intro c hc pos hpos d hd
    have ht := (hpart.planned c hc).transferAt_mem hpos
    have hindex := plan_index hm (hplan c hc _ ht) hd
    rwa [Transfer.row, DataChunk.transferAt_mem,
      DataChunk.transferAt_disk] at hindex
  · exact hpart.nElements_eq h hm

end Tiling

/-- Two rows, picked in reverse, of which two elements are picked out of
order. -/
def sampleSelection : Selection := ⟨[[4, 0], [1, 0]]⟩

/-- The fixed shape of that request. -/
def sampleShape : ResultShapeData where
  columnName := "DATA"
  shape := some [2, 2]
  ndim := 2
  dtype := .tpInt
  rowShapes := none
  cellExtents := none

theorem sampleShape_consistent : sampleShape.Consistent where
  ndim_pos := by decide
  fixed := by
    intro shape hof
    cases hof
    rfl
  varying := by rintro ⟨⟩
  extents := by rintro es ⟨⟩

theorem sampleShape_unpadded (row dim : Nat) : ¬ sampleShape.IsPadded row dim := by
  intro hx
  obtain ⟨extent, ⟨⟩, -⟩ := hx

theorem sampleSelection_matches : sampleSelection.Matches sampleShape where
  rows := by
    intro ids h
    have hsel : sampleSelection.selected sampleShape 1 = some [1, 0] := by decide
    cases hsel.symm.trans h
    rfl
  secondary := by
    intro row _ dim hdim ids h
    have hdim' : dim < 1 := hdim
    have hzero : dim = 0 := by omega
    have hsel : sampleSelection.selected sampleShape 0 = some [4, 0] := by decide
    subst hzero
    cases hsel.symm.trans h
    rfl
  unpadded := fun row dim hpad => absurd hpad (sampleShape_unpadded row dim)

/-- The sample request is cut into the two chunks its gap asks for, and
they tile its four elements. -/
theorem chunks_tile_buffer_sample :
    ∃ p, DataPartition.make .insertion sampleSelection sampleShape .default = .ok p
      ∧ p.dataChunks.length = 2
      ∧ Set.BijOn p.bufferPosition p.positions (Set.Ico 0 4)
      ∧ p.nElements = 4 := by
  obtain ⟨p, hp, hlen⟩ : ∃ p, DataPartition.make .insertion sampleSelection
      sampleShape .default = .ok p ∧ p.dataChunks.length = 2 := ⟨_, rfl, rfl⟩
  have hsmall : sampleShape.SmallRows := by
    intro row _
    show ([2] : List Nat).prod < 2 ^ 31
    decide
  obtain ⟨hbij, -, hcount⟩ := chunks_tile_buffer sampleShape_consistent
    sampleSelection_matches hsmall hp
  exact ⟨p, hp, hlen, hbij, hcount⟩

-- ========================================================== the duplicates

/-- `Make` rejects a repeated index with an IndexError exactly when it
cuts the dimension: always on a plain result, and in the secondary
dimensions otherwise. -/
theorem repeat_rejected_iff (srt : StdSort) (opt : RowSplitOptions)
    (h : rs.Consistent) (hm : sel.Matches rs) (hpos : 0 < rs.nRows)
    (hrep : ∃ dim < rs.rank, ∃ ids, sel.selected rs dim = some ids
      ∧ ¬ NoRepeat ids) :
    (∃ msg, DataPartition.make srt sel rs opt = .error (.indexError msg))
      ↔ rs.IsPlain ∨ ∃ dim < rs.rank - 1, ∃ ids,
          sel.selected rs dim = some ids ∧ ¬ NoRepeat ids := by
  constructor
  · intro hx
    obtain ⟨msg, herr⟩ := hx
    by_contra hno
    rw [not_or] at hno
    obtain ⟨hplain, hdims⟩ := hno
    have hsel : Selectable sel rs := by
      refine selectable_of_noRepeat hm (fun hp => absurd hp hplain) ?_
      intro dim hdim ids hids
      by_contra hnr
      exact hdims ⟨dim, hdim, ids, hids, hnr⟩
    obtain ⟨p, hp, -⟩ := (@make_outcome _ _ srt opt h hm
      (fun hp => absurd hp hplain) (.inr hpos)).of_good hsel
    rw [herr] at hp
    cases hp
  · intro hcond
    refine make_indexError h hm hpos fun hsel => ?_
    have hsecondary : ∀ dim < rs.rank - 1, ∀ ids,
        sel.selected rs dim = some ids → NoRepeat ids := by
      intro dim hdim ids hids
      rw [← @dimIds_selected _ _ hm 0 _ _ hids]
      exact hsel.dims 0 (.inl hpos) dim hdim
    rcases hcond with hplain | ⟨dim, hdim, ids, hids, hnr⟩
    · obtain ⟨dim, hdim, ids, hids, hnr⟩ := hrep
      rcases Nat.lt_or_ge dim (rs.rank - 1) with hlt | hge
      · exact hnr (hsecondary dim hlt ids hids)
      · have hrow : rs.rank - 1 = dim := by omega
        have := hsel.rows hplain
        rw [rowIds, hrow, hids, Option.getD_some] at this
        exact hnr this
    · exact hnr (hsecondary dim hdim ids hids)

/-- The first row, twice. -/
def repeatSelection : Selection := ⟨[[], [0, 0]]⟩

theorem repeatSelection_repeats : ¬ NoRepeat [0, 0] := by decide

theorem repeatSelection_sample : repeatSelection.Matches sampleShape where
  rows := by
    intro ids h
    have hsel : repeatSelection.selected sampleShape 1 = some [0, 0] := by decide
    cases hsel.symm.trans h
    rfl
  secondary := by
    intro row _ dim hdim ids h
    have hdim' : dim < 1 := hdim
    have hzero : dim = 0 := by omega
    have hsel : repeatSelection.selected sampleShape 0 = none := by decide
    subst hzero
    cases hsel.symm.trans h
  unpadded := fun row dim hpad => absurd hpad (sampleShape_unpadded row dim)

/-- A plain result rejects the row picked twice. -/
theorem repeat_rejected_sample : ∃ msg,
    DataPartition.make .insertion repeatSelection sampleShape .default
      = .error (.indexError msg) :=
  (repeat_rejected_iff .insertion .default sampleShape_consistent
    repeatSelection_sample (by decide)
    ⟨1, by decide, [0, 0], by decide, repeatSelection_repeats⟩).mpr
    (.inl ⟨rfl, rfl⟩)

/-- Two rows of different sizes. -/
def raggedShape : ResultShapeData where
  columnName := "DATA"
  shape := none
  ndim := 2
  dtype := .tpInt
  rowShapes := some [[1], [2]]
  cellExtents := none

/-- A ragged result accepts the row picked twice: two elements of the
result are paired with the one element of row 0. -/
theorem ragged_repeat_accepted :
    raggedShape.Consistent ∧ repeatSelection.Matches raggedShape
      ∧ 0 < raggedShape.nRows
      ∧ repeatSelection.selected raggedShape 1 = some [0, 0] ∧ ¬ NoRepeat [0, 0]
      ∧ ∃ p, DataPartition.make .insertion repeatSelection raggedShape .default
          = .ok p
        ∧ [(0, 0), (0, 0)] ∈ p.dataChunks.flatMap DataChunk.transfers
        ∧ [(0, 0), (0, 1)] ∈ p.dataChunks.flatMap DataChunk.transfers := by
  refine ⟨⟨by decide, by rintro shape ⟨⟩, fun _ => ⟨by decide, ?_⟩,
    by rintro es ⟨⟩⟩, ⟨?_, ?_, ?_⟩, by decide, by decide,
    repeatSelection_repeats, _, rfl, by decide, by decide⟩
  · show ∀ s ∈ [[1], [2]], s.length = 1
    decide
  · intro ids h
    have hsel : repeatSelection.selected raggedShape 1 = some [0, 0] := by decide
    cases hsel.symm.trans h
    rfl
  · intro row _ dim hdim ids h
    have hdim' : dim < 1 := hdim
    have hzero : dim = 0 := by omega
    have hsel : repeatSelection.selected raggedShape 0 = none := by decide
    subst hzero
    cases hsel.symm.trans h
  · intro row dim hx
    obtain ⟨extent, ⟨⟩, -⟩ := hx

end Arcae
