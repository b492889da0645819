/-
The shape of a chunk: what casacore is asked for, and the two ways
through memory.

Each span of a chunk is a run, so a secondary dimension is all missing
or a box casacore can slice with stride one, and the rows are all
missing or ascend strictly. One sign per span makes `IsEmpty` exact: it
holds when no element of the chunk exists on disk, not only when some
element is missing (`chunks_sliceable`).

A chunk marked contiguous is whole rows, one after the other: counting
through it in its own order and counting through its place in the
buffer is one and the same walk (`contiguous_agrees`).
-/
import Arcae.Proofs.ChunkIo

namespace Arcae

open FOrder Scatter

variable {α : Type} {srt : StdSort} {sel : Selection} {rs : ResultShapeData}
  {opt : RowSplitOptions} {p : DataPartition} {c : DataChunk}

-- ======================================================= what is asked for

/-- A run without gaps is as long as its ends are apart. -/
theorem Consecutive.length_eq {l : List Int} (h : Consecutive l) (hne : l ≠ []) :
    l.getLastD 0 - l.headD 0 + 1 = l.length := by
  have hlen := congrArg List.length (h.eq_range hne)
  rw [TableColumn.slicerRange, List.length_map, List.length_range] at hlen
  have hpos := List.length_pos_of_ne_nil hne
  dsimp only at hlen
  omega

/-- An element of a chunk that is not all there misses one of its
disk indices. -/
theorem DataChunk.Planned.isEmpty_iff (h : c.Planned sel rs) :
    c.isEmpty = true
      ↔ ∀ pos, InBox pos c.getShape → ∃ i ∈ c.diskAt pos, i < 0 := by
  have hlive : ∀ pos, (c.transferAt pos).live = false
      ↔ ∃ i ∈ c.diskAt pos, i < 0 := by
    intro pos
    rw [← DataChunk.transferAt_disk, Transfer.live, List.all_eq_false]
    simp only [Transfer.disk, List.mem_map, decide_eq_true_eq, Int.not_le]
    constructor
    · intro hx
      obtain ⟨q, hq, hneg⟩ := hx
      exact ⟨q.1, ⟨q, hq, rfl⟩, hneg⟩
    · intro hx
      obtain ⟨_, ⟨q, hq, rfl⟩, hneg⟩ := hx
      exact ⟨q, hq, hneg⟩
  constructor
  · intro hempty pos hpos
    exact (hlive pos).mp
      (h.not_live_of_isEmpty hempty _ (h.transferAt_mem hpos))
  · intro hall
    by_contra hne
    have hempty : c.isEmpty = false := by simpa using hne
    -- the first position exists, and everything there is on disk
    have hfirst := unflat_inBox (nElements_pos hempty)
    obtain ⟨i, hi, hneg⟩ := hall _ hfirst
    have hdead := (hlive (unflat c.getShape 0)).mpr ⟨i, hi, hneg⟩
    rw [live_of_not_isEmpty hempty _ (h.transferAt_mem hfirst)] at hdead
    cases hdead

/-- The section of a chunk that is not empty has the chunk's shape. -/
theorem DataChunk.Planned.slicerLength_eq (h : c.Planned sel rs)
    (hempty : c.isEmpty = false) :
    TableColumn.slicerLength c.sectionSlicer
      = c.getShape.dropLast.map Int.ofNat := by
  obtain ⟨picks, row, hspans, -, -, -, -, hpicks, -⟩ := h.spans
  rw [TableColumn.slicerLength, DataChunk.sectionSlicer, DataChunk.getShape,
    hspans, List.map_append, List.map_singleton, List.dropLast_concat,
    List.dropLast_concat, List.map_map, List.map_map]
  refine List.map_congr_left fun s hs => ?_
  have hmem : s ∈ c.dimSpans := by
    rw [hspans]
    exact List.mem_append_left _ hs
  have hne := disk_ne_nil hempty s hmem
  rcases (hpicks s hs).2 with hneg | ⟨-, -, hcons⟩
  · -- a run of missing indices would make the chunk empty
    obtain ⟨i, hi⟩ := List.exists_mem_of_ne_nil _ hne
    have h₁ := nonneg_of_not_isEmpty hempty s hmem i hi
    have h₂ := hneg i hi
    omega
  · exact (hcons rfl).length_eq hne

/-- The rows referred to are the rows of a chunk that is not empty. -/
theorem DataChunk.Planned.referenceRows_eq (h : c.Planned sel rs)
    (hempty : c.isEmpty = false) :
    c.dimSpans.getLast?.map SpanPair.disk = some c.referenceRows := by
  obtain ⟨picks, row, hspans, -, hrun, -, -, -, -⟩ := h.spans
  have hmem : row ∈ c.dimSpans := by
    rw [hspans]
    exact List.mem_append_right _ (List.mem_singleton_self row)
  have hasc : row.disk.Pairwise (· < ·) := by
    rcases hrun with hneg | ⟨-, hasc, -⟩
    · obtain ⟨i, hi⟩ := List.exists_mem_of_ne_nil _
        (disk_ne_nil hempty row hmem)
      have h₁ := nonneg_of_not_isEmpty hempty row hmem i hi
      have h₂ := hneg i hi
      omega
    · exact hasc
  rw [Arcae.referenceRows_eq hspans hasc, hspans, List.getLast?_concat]
  rfl

/-- Every chunk is a shape casacore can be asked for. -/
theorem chunks_sliceable (h : rs.Consistent) (hm : sel.Matches rs)
    (hp : DataPartition.make srt sel rs opt = .ok p) :
    ∀ c ∈ p.dataChunks,
      (∀ s ∈ c.dimSpans.dropLast, (∀ i ∈ s.disk, i < 0)
        ∨ ((∀ i ∈ s.disk, 0 ≤ i) ∧ Consecutive s.disk))
      ∧ (∀ s, c.dimSpans.getLast? = some s → (∀ i ∈ s.disk, i < 0)
          ∨ ((∀ i ∈ s.disk, 0 ≤ i) ∧ s.disk.Pairwise (· < ·)))
      ∧ (c.isEmpty = true
          ↔ ∀ pos, InBox pos c.getShape → ∃ i ∈ c.diskAt pos, i < 0)
      ∧ (c.isEmpty = false →
          TableColumn.slicerLength c.sectionSlicer
              = c.getShape.dropLast.map Int.ofNat
            ∧ c.dimSpans.getLast?.map SpanPair.disk = some c.referenceRows) := by
  intro c hc
  have hplanned := (partitions_of_make h hm hp).2.planned c hc
  obtain ⟨picks, row, hspans, -, hrun, -, -, hpicks, -⟩ := hplanned.spans
  refine ⟨?_, ?_, hplanned.isEmpty_iff, fun hempty =>
    ⟨hplanned.slicerLength_eq hempty, hplanned.referenceRows_eq hempty⟩⟩
  · intro s hs
    rw [hspans, List.dropLast_concat] at hs
    rcases (hpicks s hs).2 with hneg | ⟨hpos, -, hcons⟩
    · exact .inl hneg
    · exact .inr ⟨hpos, hcons rfl⟩
  · intro s hs
    rw [hspans, List.getLast?_concat] at hs
    cases hs
    rcases hrun with hneg | ⟨hpos, hasc, -⟩
    · exact .inl hneg
    · exact .inr ⟨hpos, hasc⟩

/-- The sample request, whose gap makes two chunks, is one. -/
theorem chunks_sliceable_sample :
    ∃ p, DataPartition.make .insertion sampleSelection sampleShape .default
        = .ok p
      ∧ (p.dataChunks.map DataChunk.isEmpty) = [false, false]
      ∧ ∀ c ∈ p.dataChunks,
          c.isEmpty = true
            ↔ ∀ pos, InBox pos c.getShape → ∃ i ∈ c.diskAt pos, i < 0 := by
  refine ⟨_, rfl, rfl, fun c hc => ?_⟩
  exact (@chunks_sliceable .insertion _ _ .default _ sampleShape_consistent
    sampleSelection_matches rfl c hc).2.2.1

-- ================================================== the contiguous fast path

/-- Each element of a contiguous chunk is as far from the chunk's offset
as it is from the start of the chunk's own array. -/
theorem DataChunk.Planned.bufferOffset_contiguous (h : c.Planned sel rs)
    (hrs : rs.Consistent) (hm : sel.Matches rs) (hc : c.contiguous = true)
    {pos : List Nat} (hpos : InBox pos c.getShape) :
    c.flatOffset + (c.chunkOffset pos : Int) = c.bufferOffset pos := by
  have hat := h.getElem?_chunkOffset (fun t => c.bufferIndex t.mem) hpos
  have hlt : c.chunkOffset pos < c.nElements := by
    have := (List.getElem?_eq_some_iff.mp hat).1
    rwa [List.length_map, ← h.nElements_eq] at this
  rw [h.contiguous_offsets hrs hm hc, List.getElem?_map,
    List.getElem?_range hlt, Option.map_some, Option.some.injEq] at hat
  rw [hat, DataChunk.transferAt_mem]
  rfl

/-- Storing values from the chunk's offset on is copying them into their
places. -/
theorem DataChunk.Planned.readContiguousChunk_eq (h : c.Planned sel rs)
    (hrs : rs.Consistent) (hm : sel.Matches rs) (hempty : c.isEmpty = false)
    (hc : c.contiguous = true) (col : TableColumn α) (buffer : Memory α) :
    readContiguousChunk col c buffer
      = readChunkArray col c >>= fun data => copyChunkArray c data buffer := by
  have hoffsets := h.contiguous_offsets hrs hm hc
  rw [h.nElements_eq] at hoffsets
  unfold readContiguousChunk
  rcases h.readChunkArray_outcome hrs hempty col with
    ⟨-, values, hvalues, rfl⟩ | ⟨-, e, herr, -⟩
  · rw [hvalues, Result.ok_bind, Result.ok_bind, Result.pure_eq,
      h.copyChunkArray_eq hempty, storeFrom_eq hoffsets]
  · rw [herr, Result.error_bind, Result.error_bind]

/-- Loading values from the chunk's offset on is gathering them out of
their places. -/
theorem DataChunk.Planned.writeContiguousChunk_eq (h : c.Planned sel rs)
    (hrs : rs.Consistent) (hm : sel.Matches rs) (hempty : c.isEmpty = false)
    (hc : c.contiguous = true) (col : TableColumn α) (buffer : Memory α) :
    writeContiguousChunk col c buffer
      = gatherChunkArray c buffer >>= fun data => writeChunkArray col c data := by
  have hoffsets := h.contiguous_offsets hrs hm hc
  rw [h.nElements_eq] at hoffsets
  rw [writeContiguousChunk, h.gatherChunkArray_eq hempty, Result.ok_bind,
    h.nElements_eq, loadFrom_eq hoffsets]

/-- The contiguous fast path agrees with the transposing path: in where
each element lies, and so in what a read or a write of the chunk does. -/
theorem contiguous_agrees (h : rs.Consistent) (hm : sel.Matches rs)
    (hp : DataPartition.make srt sel rs opt = .ok p) :
    ∀ c ∈ p.dataChunks, c.isEmpty = false → c.contiguous = true →
      (∀ pos, InBox pos c.getShape →
        c.flatOffset + (c.chunkOffset pos : Int) = c.bufferOffset pos)
      ∧ ∀ (col : TableColumn α) (buffer : Memory α),
          (readContiguousChunk col c buffer
            = readChunkArray col c >>= fun data => copyChunkArray c data buffer)
          ∧ (writeContiguousChunk col c buffer
              = gatherChunkArray c buffer >>= fun data =>
                  writeChunkArray col c data) := by
  intro c hc hempty hcontig
  have hplanned := (partitions_of_make h hm hp).2.planned c hc
  refine ⟨fun pos hpos => hplanned.bufferOffset_contiguous h hm hcontig hpos,
    fun col buffer => ⟨?_, ?_⟩⟩
  · exact hplanned.readContiguousChunk_eq h hm hempty hcontig col buffer
  · exact hplanned.writeContiguousChunk_eq h hm hempty hcontig col buffer

/-- Two rows of two elements in reverse, whole: one contiguous chunk a
row. -/
def wholeRowsSelection : Selection := ⟨[[], [3, 4]]⟩

theorem wholeRowsSelection_matches : wholeRowsSelection.Matches sampleShape where
  rows := by
    have hsel : wholeRowsSelection.selected sampleShape (sampleShape.rank - 1)
        = some [3, 4] := by decide
    intro ids h
    cases hsel.symm.trans h
    rfl
  secondary := by
    intro row _ dim hdim ids h
    have hdim' : dim < 1 := hdim
    have hzero : dim = 0 := by omega
    have hsel : wholeRowsSelection.selected sampleShape 0 = none := by decide
    subst hzero
    cases hsel.symm.trans h
  unpadded := fun row dim hpad => absurd hpad (sampleShape_unpadded row dim)

/-- Two whole rows are read straight into their place. -/
theorem contiguous_agrees_sample :
    ∃ p c, DataPartition.make .insertion wholeRowsSelection sampleShape .default
        = .ok p
      ∧ p.dataChunks = [c] ∧ c.isEmpty = false ∧ c.contiguous = true
      ∧ ∀ pos, InBox pos c.getShape →
          c.flatOffset + (c.chunkOffset pos : Int) = c.bufferOffset pos := by
  refine ⟨_, _, rfl, rfl, rfl, rfl, ?_⟩
  exact (@contiguous_agrees Nat .insertion _ _ .default _ sampleShape_consistent
    wholeRowsSelection_matches rfl _
    (List.mem_singleton_self _) rfl rfl).1

end Arcae
