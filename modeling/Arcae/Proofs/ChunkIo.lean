/-
Reading and writing a planned chunk carries its moves.

The section casacore is asked for is the chunk's transfers, element by
element (`DataChunk.Planned.section_eq`), so the values it returns are
those of the transfers' addresses. On the contiguous path they are
stored one after the other, which is where a contiguous chunk's
transfers belong (`contiguous_offsets`); on the other path the loop
visits each transfer once. Both paths therefore leave the same buffer:
the one in which every move was carried (`readChunk_outcome`), and the
same holds of writing (`writeChunk_outcome`).

A chunk is empty exactly when none of its transfers exists on disk, and
otherwise all of them do: a run does not mix signs.
-/
import Arcae.Proofs.Tiling
import Arcae.Proofs.ChunkLoops
import Arcae.Spec.Moves

namespace Arcae

open FOrder Scatter Loops

variable {α : Type} {sel : Selection} {rs : ResultShapeData}

-- ====================================================== the section read

/-- An ascending list reaches at least one further each step; if it is
no longer than that, it is consecutive. -/
theorem consecutive_of_ascending {a : Int} {l : List Int}
    (h : (a :: l).Pairwise (· < ·)) :
    a + l.length ≤ (a :: l).getLastD 0
      ∧ ((a :: l).getLastD 0 = a + l.length → Consecutive (a :: l)) := by
  induction l generalizing a with
  | nil => exact ⟨by simp, fun _ => List.isChain_singleton a⟩
  | cons b l ih =>
      obtain ⟨hab, hbl⟩ := List.pairwise_cons.mp h
      have hlt := hab b List.mem_cons_self
      obtain ⟨hle, hcons⟩ := ih hbl
      have hlast : (a :: b :: l).getLastD 0 = (b :: l).getLastD 0 := by
        simp [List.getLastD_eq_getLast?]
      rw [hlast, List.length_cons]
      push_cast
      refine ⟨by omega, fun heq => ?_⟩
      exact List.isChain_cons_cons.mpr ⟨by omega, hcons (by omega)⟩

/-- The rows referred to are the rows of the chunk. -/
theorem referenceRows_eq {c : DataChunk} {picks : SpanPairs} {row : SpanPair}
    (hspans : c.dimSpans = picks ++ [row]) (hasc : row.disk.Pairwise (· < ·)) :
    c.referenceRows = row.disk := by
  unfold DataChunk.referenceRows
  simp only [hspans, List.getLastD_concat]
  split
  · rename_i hrange
    cases hd : row.disk with
    | nil => simp [hd] at hrange
    | cons a l =>
        rw [hd] at hrange hasc
        obtain ⟨-, -, hlen⟩ := hrange
        rw [List.headD_cons, List.length_cons] at hlen
        push_cast at hlen
        have hcons := (consecutive_of_ascending hasc).2 (by omega)
        exact (hcons.eq_range (List.cons_ne_nil a l)).symm
  · rfl

/-- The disk indices of the transfers of aligned spans. -/
theorem transfers_disk {spans : SpanPairs}
    (h : ∀ s ∈ spans, s.disk.length = s.mem.length) :
    spans.transfers.map Transfer.disk = (spans.map SpanPair.disk).sections := by
  have hdisk : (spans.map SpanPair.pairs).map (List.map Prod.fst)
      = spans.map SpanPair.disk := by
    rw [List.map_map]
    refine List.map_congr_left fun s hs => ?_
    have hlen := h s hs
    exact List.map_fst_zip (by omega)
  rw [← hdisk, Sections.sections_map]
  rfl

/-- The memory indices of the transfers of aligned spans. -/
theorem transfers_mem {spans : SpanPairs}
    (h : ∀ s ∈ spans, s.disk.length = s.mem.length) :
    spans.transfers.map Transfer.mem = (spans.map SpanPair.mem).sections := by
  have hmem : (spans.map SpanPair.pairs).map (List.map Prod.snd)
      = spans.map SpanPair.mem := by
    rw [List.map_map]
    refine List.map_congr_left fun s hs => ?_
    have hlen := h s hs
    exact List.map_snd_zip (by omega)
  rw [← hmem, Sections.sections_map]
  rfl

/-- What a chunk asks casacore for, element by element. -/
theorem sectionIndices_eq {c : DataChunk} {picks : SpanPairs} {row : SpanPair}
    (hspans : c.dimSpans = picks ++ [row]) (hasc : row.disk.Pairwise (· < ·))
    (hpicks : ∀ s ∈ picks, s.disk ≠ [] ∧ Consecutive s.disk)
    (haligned : ∀ s ∈ c.dimSpans, s.disk.length = s.mem.length) :
    TableColumn.sectionIndices c.referenceRows c.sectionSlicer
      = c.transfers.map Transfer.disk := by
  have hslicer : c.sectionSlicer.map TableColumn.slicerRange
      = picks.map SpanPair.disk := by
    unfold DataChunk.sectionSlicer
    rw [hspans, List.dropLast_concat, List.map_map]
    refine List.map_congr_left fun s hs => ?_
    obtain ⟨hne, hcons⟩ := hpicks s hs
    exact (hcons.eq_range hne).symm
  rw [TableColumn.sectionIndices, hslicer, referenceRows_eq hspans hasc,
    DataChunk.transfers, transfers_disk haligned, hspans, List.map_append]
  rfl

-- ============================================================ locating

/-- A transfer that exists on disk is located at its address, if the
column holds it. -/
theorem locate_of_has (col : TableColumn α) {t : Transfer} (hne : t ≠ [])
    (hlive : t.live = true) (hhas : col.Has t.address) :
    col.locate t.disk = some t.address := by
  obtain ⟨shape, hshape, hbox⟩ := hhas
  have hdisk : t.disk ≠ [] := by simpa [Transfer.disk] using hne
  have hnonneg : ∀ i ∈ t.disk, 0 ≤ i := by
    intro i hi
    obtain ⟨p, hp, rfl⟩ := List.mem_map.mp hi
    exact of_decide_eq_true (List.all_eq_true.mp hlive p hp)
  have hlast : t.disk.getLast? = some (t.disk.getLast hdisk) :=
    List.getLast?_eq_some_getLast hdisk
  have haddr : t.address
      = ((t.disk.getLast hdisk).toNat, t.disk.dropLast.map Int.toNat) := by
    rw [Transfer.address, List.getLastD_eq_getLast?, hlast, Option.getD_some]
  rw [haddr] at hshape hbox
  unfold TableColumn.locate
  simp only [hlast, hshape]
  rw [if_pos ⟨hnonneg _ (List.getLast_mem hdisk),
    fun i hi => hnonneg i (List.dropLast_subset _ hi), hbox⟩, haddr]

/-- What is located is held, at the transfer's address. -/
theorem has_of_locate (col : TableColumn α) {t : Transfer} {a : CellIndex}
    (h : col.locate t.disk = some a) : a = t.address ∧ col.Has t.address := by
  unfold TableColumn.locate at h
  split at h
  · cases h
  · rename_i row hrow
    have haddr : t.address = (row.toNat, t.disk.dropLast.map Int.toNat) := by
      rw [Transfer.address, List.getLastD_eq_getLast?, hrow, Option.getD_some]
    split at h
    · cases h
    · rename_i shape hshape
      dsimp only at h
      split at h
      · rename_i hin
        rw [haddr]
        exact ⟨(Option.some.inj h).symm, shape, hshape, hin.2.2⟩
      · cases h

/-- A section is located if the column holds all of it, transfer by
transfer. -/
theorem locateSection_outcome (col : TableColumn α) {rows : List Int}
    {slicer : List (Int × Int)} {ts : List Transfer}
    (hts : TableColumn.sectionIndices rows slicer = ts.map Transfer.disk)
    (hne : ∀ t ∈ ts, t ≠ []) (hlive : ∀ t ∈ ts, t.live = true) :
    Outcome (col.locateSection rows slicer) (∀ t ∈ ts, col.Has t.address)
      (fun addrs => addrs = ts.map Transfer.address) (fun _ => True) := by
  unfold TableColumn.locateSection
  rw [hts]
  have key : ∀ ts : List Transfer, (∀ t ∈ ts, t ≠ []) →
      (∀ t ∈ ts, t.live = true) →
      ((∀ t ∈ ts, col.Has t.address) ∧ (ts.map Transfer.disk).mapM col.locate
          = some (ts.map Transfer.address))
        ∨ (¬ (∀ t ∈ ts, col.Has t.address)
          ∧ (ts.map Transfer.disk).mapM col.locate = none) := by
    intro ts
    induction ts with
    | nil => intro _ _; exact .inl ⟨by simp, rfl⟩
    | cons t ts ih =>
        intro hne hlive
        have hrest := ih (fun u hu => hne u (List.mem_cons_of_mem _ hu))
          fun u hu => hlive u (List.mem_cons_of_mem _ hu)
        rw [List.map_cons, List.mapM_cons]
        by_cases hhas : col.Has t.address
        · have hloc := locate_of_has col (hne t List.mem_cons_self)
            (hlive t List.mem_cons_self) hhas
          rcases hrest with ⟨hall, hmap⟩ | ⟨hnot, hmap⟩
          · left
            refine ⟨List.forall_mem_cons.mpr ⟨hhas, hall⟩, ?_⟩
            rw [hloc, hmap]
            rfl
          · right
            refine ⟨fun hall => hnot (List.forall_mem_cons.mp hall).2, ?_⟩
            rw [hloc, hmap]
            rfl
        · right
          refine ⟨fun hall => hhas (List.forall_mem_cons.mp hall).1, ?_⟩
          cases hloc : col.locate t.disk with
          | none => rfl
          | some a => exact absurd (has_of_locate col hloc).2 hhas
  rcases key ts hne hlive with ⟨hall, hmap⟩ | ⟨hnot, hmap⟩
  · exact .inl ⟨hall, _, by rw [hmap], rfl⟩
  · exact .inr ⟨hnot, _, by rw [hmap], trivial⟩

-- ============================================================== emptiness

namespace DataChunk.Planned

variable {c : DataChunk}

/-- The indices of a span of a planned chunk agree on their sign. -/
theorem sign (h : c.Planned sel rs) :
    ∀ s ∈ c.dimSpans, (∀ i ∈ s.disk, i < 0) ∨ ∀ i ∈ s.disk, 0 ≤ i := by
  obtain ⟨picks, row, hspans, -, hrow, -, -, hpicks, -⟩ := h.spans
  rw [hspans]
  intro s hs
  rcases List.mem_append.mp hs with hs | hs
  · exact (hpicks s hs).2.sign
  · rw [List.mem_singleton.mp hs]
    exact hrow.sign

/-- A chunk that is not empty has no missing index. -/
theorem nonneg_of_not_isEmpty (h : c.isEmpty = false) :
    ∀ s ∈ c.dimSpans, ∀ i ∈ s.disk, 0 ≤ i := by
  intro s hs i hi
  by_contra hneg
  have hany : (c.dimSpans.any fun span =>
      span.disk.any fun i => decide (i < 0)) = true :=
    List.any_eq_true.mpr
      ⟨s, hs, List.any_eq_true.mpr ⟨i, hi, by simpa using hneg⟩⟩
  simp [DataChunk.isEmpty, hany] at h

/-- All transfers of a chunk that is not empty exist on disk. -/
theorem live_of_not_isEmpty (h : c.isEmpty = false) :
    ∀ t ∈ c.transfers, t.live = true := by
  intro t ht
  rw [Transfer.live, List.all_eq_true]
  intro p hp
  obtain ⟨s, hs, hps⟩ := forall₂_mem_right (mem_transfers.mp ht).flip hp
  exact decide_eq_true (nonneg_of_not_isEmpty h s hs p.1 (List.of_mem_zip hps).1)

/-- No transfer of an empty chunk exists on disk. -/
theorem not_live_of_isEmpty (h : c.Planned sel rs) (hempty : c.isEmpty = true) :
    ∀ t ∈ c.transfers, t.live = false := by
  intro t ht
  rcases (Bool.or_eq_true _ _).mp hempty with hneg | hzero
  · obtain ⟨s, hs, hany⟩ := List.any_eq_true.mp hneg
    obtain ⟨i, hi, hlt⟩ := List.any_eq_true.mp hany
    have hall : ∀ j ∈ s.disk, j < 0 := by
      rcases h.sign s hs with hall | hall
      · exact hall
      · exact absurd (hall i hi) (by simpa using hlt)
    obtain ⟨p, hp, hps⟩ := forall₂_mem_right (mem_transfers.mp ht) hs
    by_contra hlive
    rw [Bool.not_eq_false, Transfer.live, List.all_eq_true] at hlive
    have hge := of_decide_eq_true (hlive p hp)
    have hlt := hall p.1 (List.of_mem_zip hps).1
    omega
  · have hlen := h.nElements_eq
    rw [beq_iff_eq.mp hzero] at hlen
    rw [List.length_eq_zero_iff.mp hlen.symm] at ht
    cases ht

theorem filter_live (h : c.Planned sel rs) :
    c.transfers.filter Transfer.live
      = if c.isEmpty then [] else c.transfers := by
  cases hempty : c.isEmpty with
  | true =>
      rw [if_pos rfl, List.filter_eq_nil_iff]
      intro t ht
      simp [h.not_live_of_isEmpty hempty t ht]
  | false =>
      rw [if_neg (by simp), List.filter_eq_self]
      exact live_of_not_isEmpty hempty

theorem ne_nil (h : c.Planned sel rs) (hrs : rs.Consistent) :
    ∀ t ∈ c.transfers, t ≠ [] := by
  intro t ht
  have hlen := (transfers_length ht).trans h.rank
  have hpos := hrs.rank_pos
  exact List.ne_nil_of_length_pos (by omega)

/-- A chunk that is not empty has an element in each dimension. -/
theorem disk_ne_nil (h : c.isEmpty = false) : ∀ s ∈ c.dimSpans, s.disk ≠ [] := by
  intro s hs hnil
  have hzero : c.nElements = 0 := by
    refine List.prod_eq_zero ?_
    rw [DataChunk.getShape]
    exact List.mem_map.mpr ⟨s, hs, by rw [hnil]; rfl⟩
  simp [DataChunk.isEmpty, hzero] at h

/-- What a planned chunk asks casacore for is its transfers. -/
theorem section_eq (h : c.Planned sel rs) (hempty : c.isEmpty = false) :
    TableColumn.sectionIndices c.referenceRows c.sectionSlicer
      = c.transfers.map Transfer.disk := by
  have hnonneg := nonneg_of_not_isEmpty hempty
  have hne := disk_ne_nil hempty
  obtain ⟨picks, row, hspans, -, hrow, -, -, hpicks, -⟩ := h.spans
  have hmem : ∀ s ∈ picks, s ∈ c.dimSpans := by
    intro s hs
    rw [hspans]
    exact List.mem_append_left _ hs
  have hrowmem : row ∈ c.dimSpans := by
    rw [hspans]
    exact List.mem_append_right _ List.mem_cons_self
  -- a run that is not negative ascends
  have hrun : ∀ {e s}, s ∈ c.dimSpans → IsRun e s.disk →
      s.disk.Pairwise (· < ·) ∧ (e = false → Consecutive s.disk) := by
    intro e s hs hx
    obtain (hneg | ⟨-, hasc, hcons⟩) := hx
    · obtain ⟨i, hi⟩ := List.exists_mem_of_ne_nil _ (hne s hs)
      have := hneg i hi
      have := hnonneg s hs i hi
      omega
    · exact ⟨hasc, hcons⟩
  refine sectionIndices_eq hspans (hrun hrowmem hrow).1 (fun s hs => ?_) h.aligned
  exact ⟨hne s (hmem s hs), (hrun (hmem s hs) (hpicks s hs).2).2 rfl⟩

end DataChunk.Planned

theorem sectionSlicer_of_nDim {c : DataChunk} (h : c.nDim = 1) :
    c.sectionSlicer = [] := by
  have hlen : c.dimSpans.length = 1 := h
  rw [DataChunk.sectionSlicer, List.dropLast_eq_take, hlen, Nat.sub_self,
    List.take_zero, List.map_nil]

/-- Each branch of the dispatch reads the same section. -/
theorem readChunkArray_eq (col : TableColumn α) (c : DataChunk) :
    readChunkArray col c = col.getColumnCells c.referenceRows c.sectionSlicer := by
  unfold readChunkArray
  split
  · rename_i hdim
    rw [sectionSlicer_of_nDim hdim]
  · split
    · rename_i row hrow
      rw [hrow]
      rfl
    · rfl

/-- Each branch of the dispatch writes the same section. -/
theorem writeChunkArray_eq (col : TableColumn α) (c : DataChunk)
    (data : List α) :
    writeChunkArray col c data
      = col.putColumnCells c.referenceRows c.sectionSlicer data := by
  unfold writeChunkArray
  split
  · rename_i hdim
    rw [sectionSlicer_of_nDim hdim]
  · split
    · rename_i row hrow
      rw [hrow]
      rfl
    · rfl

-- ======================================================= contiguous chunks

theorem minMem_range {s : SpanPair} (h : s.mem = List.range s.mem.length) :
    minMem s = 0 := by
  cases hlen : s.mem.length with
  | zero => 
      rw [List.length_eq_zero_iff] at hlen
      simp [minMem, hlen]
  | succ n =>
      have hne : s.mem ≠ [] := List.ne_nil_of_length_pos (by omega)
      have hzero : 0 ∈ s.mem := by
        rw [h]
        exact List.mem_range.mpr (by omega)
      have := (minMem_spec hne).2 0 hzero
      omega

/-- Memory indices that follow each other count up from the least. -/
theorem isMemoryContiguous_eq_range {s : SpanPair}
    (h : isMemoryContiguous s = true) :
    s.mem = List.range' (minMem s) s.mem.length := by
  have key : ∀ (l : List Nat) (a : Nat),
      ((a :: l).zip l).all (fun w => w.1 + 1 == w.2) = true →
      a :: l = List.range' a (l.length + 1) := by
    intro l
    induction l with
    | nil => intro a _; rfl
    | cons b l ih =>
        intro a hall
        rw [List.zip_cons_cons, List.all_cons, Bool.and_eq_true] at hall
        have hab : a + 1 = b := beq_iff_eq.mp hall.1
        rw [List.length_cons, List.range'_succ, hab, ← ih b hall.2]
  obtain ⟨disk, mem⟩ := s
  cases mem with
  | nil => rfl
  | cons a l =>
      have hrange := key l a h
      have hmem := @minMem_spec ⟨disk, a :: l⟩ (List.cons_ne_nil a l)
      have hle := hmem.2 a List.mem_cons_self
      have hge : a ≤ minMem ⟨disk, a :: l⟩ := by
        have hin : minMem ⟨disk, a :: l⟩ ∈ List.range' a (l.length + 1) := by
          rw [← hrange]
          exact hmem.1
        obtain ⟨i, -, hi⟩ := List.mem_range'.mp hin
        omega
      have heq : minMem ⟨disk, a :: l⟩ = a := by omega
      rw [heq]
      exact hrange

/-- Whole rows, counted from the first of them, lie one after the
other. -/
theorem wholeRows_offsets {c : DataChunk} {dims : List Nat} {first m : Nat}
    (hmem : c.transfers.map Transfer.mem
      = (dims.map List.range ++ [List.range' first m]).sections)
    (hmin : c.minMemIndex = dims.map (fun _ => 0) ++ [first])
    (hstrides : c.bufferStrides = strides (dims ++ [1])) :
    (c.transfers.map fun t => c.bufferIndex t.mem)
      = (List.range (dims.prod * m)).map fun i : Nat =>
          c.flatOffset + (i : Int) := by
  have hoffset : ∀ idx k, idx.length = dims.length → first ≤ k →
      c.bufferIndex (idx ++ [k])
        = c.flatOffset + (flat dims idx + dims.prod * (k - first) : Nat) := by
    intro idx k hidx _
    have hsub : List.zipWith (· - ·) (idx ++ [k])
        (dims.map (fun _ => 0) ++ [first]) = idx ++ [k - first] := by
      rw [List.zipWith_append (by rw [hidx, List.length_map])]
      congr 1
      rw [List.zipWith_map_right]
      refine List.ext_getElem (by simp [hidx]) fun i h₁ h₂ => ?_
      simp
    rw [DataChunk.bufferIndex, hmin, hstrides, hsub, dot_strides,
      flat_append_singleton _ _ hidx]
  calc (c.transfers.map fun t => c.bufferIndex t.mem)
      = (c.transfers.map Transfer.mem).map c.bufferIndex := by
        rw [List.map_map]
        rfl
    _ = (List.range m).flatMap fun j => (List.range dims.prod).map
          fun i : Nat => c.flatOffset + ((i + dims.prod * j : Nat) : Int) := by
        rw [hmem, Sections.sections_append_singleton,
          List.range'_eq_map_range, List.flatMap_map, List.map_flatMap]
        refine List.flatMap_congr fun j _ => ?_
        rw [← box_map_flat, List.map_map, List.map_map]
        refine List.map_congr_left fun idx hidx => ?_
        have hlen := List.Forall₂.length_eq (mem_box.mp hidx)
        rw [Function.comp_apply, Function.comp_apply,
          hoffset idx _ hlen (Nat.le_add_right _ _), Nat.add_sub_cancel_left]
    _ = (List.range (dims.prod * m)).map
          fun i : Nat => c.flatOffset + (i : Int) := by
        rw [range_mul, List.map_flatMap]
        refine List.flatMap_congr fun j _ => ?_
        rw [List.map_map]
        rfl

/-- The elements of a contiguous chunk lie one after the other. -/
theorem DataChunk.Planned.contiguous_offsets {c : DataChunk}
    (h : c.Planned sel rs) (hrs : rs.Consistent) (hm : sel.Matches rs)
    (hc : c.contiguous = true) :
    (c.transfers.map fun t => c.bufferIndex t.mem)
      = (List.range c.nElements).map fun i : Nat => c.flatOffset + (i : Int) := by
  rcases List.eq_nil_or_concat c.transfers with hnil | ⟨_, t₀, ht₀⟩
  · rw [h.nElements_eq, hnil]
    rfl
  have ht₀ : t₀ ∈ c.transfers := by
    rw [ht₀]
    simp
  obtain ⟨picks, row, hspans, -, -, hrows, -, -, hcontig⟩ := h.spans
  obtain ⟨hrow, hpicks⟩ := hcontig hc
  have hrowmem := row_mem ht₀ hspans
  have hlens := hm.secondaryIds_length hrs (.inl (hrows _ hrowmem))
  -- the chunk is whole rows: all of their sizes, and consecutive rows
  have hwhole : picks.map SpanPair.mem
      = (rs.rowDims t₀.row).map List.range := by
    rw [hpicks _ hrowmem, ← hlens, List.map_map]
    rfl
  have hzero : picks.map minMem = (rs.rowDims t₀.row).map fun _ => 0 := by
    have hlen := congrArg List.length hwhole
    rw [List.length_map, List.length_map] at hlen
    refine List.ext_getElem (by simpa using hlen) fun i h₁ h₂ => ?_
    have hi : i < picks.length := by simpa using h₁
    have hmem := List.getElem_of_eq hwhole (by simpa using hi)
    rw [List.getElem_map, List.getElem_map] at hmem
    rw [List.getElem_map, List.getElem_map]
    refine minMem_range ?_
    conv_rhs => rw [hmem, List.length_range]
    exact hmem
  have hmem : c.transfers.map Transfer.mem
      = ((rs.rowDims t₀.row).map List.range
        ++ [List.range' (minMem row) row.mem.length]).sections := by
    rw [← hwhole, ← isMemoryContiguous_eq_range hrow, DataChunk.transfers,
      transfers_mem h.aligned, hspans, List.map_append, List.map_singleton]
  have hcount : c.nElements = (rs.rowDims t₀.row).prod * row.mem.length := by
    have hlen := congrArg List.length hmem
    rw [List.length_map, Sections.sections_length, List.map_append,
      List.prod_append, List.map_map] at hlen
    rw [h.nElements_eq, hlen]
    simp [Function.comp_def]
  rw [hcount]
  refine wholeRows_offsets hmem ?_ (h.bufferStrides_eq t₀ ht₀)
  rw [h.minMem_eq, hspans, List.map_append, hzero, List.map_singleton]

-- ====================================================== the copying loops

section Loops

variable {c : DataChunk}

/-- A planned chunk has the strides of its spans. -/
theorem DataChunk.Planned.strided (h : c.Planned sel rs) : c.Strided :=
  ⟨h.aligned, h.chunkStrides_eq⟩

theorem nElements_pos (h : c.isEmpty = false) : 0 < c.nElements := by
  refine Nat.pos_of_ne_zero fun hzero => ?_
  simp [DataChunk.isEmpty, hzero] at h

/-- The loop reads each element of the chunk's array where the odometer
stands. -/
theorem DataChunk.Planned.getElem?_chunkOffset (h : c.Planned sel rs)
    {β : Type} (f : Transfer → β) {pos : List Nat} (hpos : InBox pos c.getShape) :
    (c.transfers.map f)[c.chunkOffset pos]? = some (f (c.transferAt pos)) := by
  have hsizes := h.strided.chunkOffset_eq pos
  have hlt := flat_lt_prod hpos
  rw [h.transfers_eq, box_eq_map_unflat, List.map_map, List.map_map, hsizes,
    List.getElem?_map, List.getElem?_range hlt]
  simp [unflat_flat hpos]

/-- Copying a chunk's array stores the value of each transfer in its
place. -/
theorem DataChunk.Planned.copyChunkArray_eq (h : c.Planned sel rs)
    (hempty : c.isEmpty = false) (f : Transfer → α) (buffer : Memory α) :
    copyChunkArray c (c.transfers.map f) buffer
      = .ok (scatter buffer (c.transfers.map fun t =>
          (c.bufferIndex t.mem, f t))) := by
  have hlen : (c.transfers.map f).length = c.nElements := by
    rw [List.length_map, h.nElements_eq]
  rw [h.strided.copyChunkArray_eq (nElements_pos hempty) hlen, h.transfers_eq,
    List.map_map, List.map_map, List.zip_map']
  refine congrArg Except.ok (congrArg _ (List.map_congr_left fun pos _ => ?_))
  rw [Function.comp_apply, Function.comp_apply, DataChunk.transferAt_mem]
  rfl

/-- Gathering a chunk's array loads the value of each transfer from its
place. -/
theorem DataChunk.Planned.gatherChunkArray_eq (h : c.Planned sel rs)
    (hempty : c.isEmpty = false) (buffer : Memory α) :
    gatherChunkArray c buffer
      = .ok (c.transfers.map fun t => buffer (c.bufferIndex t.mem)) := by
  rw [h.strided.gatherChunkArray_eq (nElements_pos hempty), h.transfers_eq,
    List.map_map]
  refine congrArg Except.ok (List.map_congr_left fun pos _ => ?_)
  rw [Function.comp_apply, DataChunk.transferAt_mem]
  rfl

end Loops

-- ============================================================ whole chunks

section Places

variable {β : Type} {ts : List β} {offset : β → Int} {start : Int}

/-- Values stored one after the other, each in the place meant for
it. -/
theorem storeFrom_eq (h : ts.map offset
      = (List.range ts.length).map fun i : Nat => start + (i : Int))
    (buffer : Memory α) (f : β → α) :
    storeFrom buffer start (ts.map f)
      = scatter buffer (ts.map fun t => (offset t, f t)) := by
  refine congrArg (scatter buffer) (List.ext_getElem (by simp) fun i h₁ h₂ => ?_)
  have hi : i < ts.length := by simpa using h₂
  have hoffset := List.getElem_of_eq h (by simpa using hi)
  rw [List.getElem_map, List.getElem_map, List.getElem_range] at hoffset
  simp [hoffset]

/-- Values loaded one after the other, each from the place meant for
it. -/
theorem loadFrom_eq (h : ts.map offset
      = (List.range ts.length).map fun i : Nat => start + (i : Int))
    (buffer : Memory α) :
    loadFrom buffer start ts.length = ts.map fun t => buffer (offset t) := by
  have hmap := congrArg (List.map buffer) h
  rw [List.map_map, List.map_map] at hmap
  exact hmap.symm

end Places

section Chunks

variable {c : DataChunk}

/-- The moves of a planned chunk: none if it is empty, else all of its
transfers. -/
theorem DataChunk.Planned.moves_eq (h : c.Planned sel rs) :
    c.moves = if c.isEmpty then [] else
      c.transfers.map fun t => (c.bufferIndex t.mem, t.address) := by
  rw [DataChunk.moves, Transfer.moves, h.filter_live]
  split <;> rfl

/-- The cells of a chunk are read if the column holds them all. -/
theorem DataChunk.Planned.readChunkArray_outcome (h : c.Planned sel rs)
    (hrs : rs.Consistent) (hempty : c.isEmpty = false) (col : TableColumn α) :
    Outcome (readChunkArray col c) (∀ t ∈ c.transfers, col.Has t.address)
      (fun values => values = c.transfers.map fun t => col.value t.address)
      (fun _ => True) := by
  rw [readChunkArray_eq]
  refine (locateSection_outcome col (h.section_eq hempty) (h.ne_nil hrs)
    (live_of_not_isEmpty hempty)).bind fun addrs haddrs => ?_
  exact ⟨_, rfl, by rw [haddrs, List.map_map]; rfl⟩

/-- Reading a planned chunk carries its moves. -/
theorem DataChunk.Planned.readChunk_outcome (h : c.Planned sel rs)
    (hrs : rs.Consistent) (hm : sel.Matches rs) (col : TableColumn α)
    (buffer : Memory α) :
    Outcome (readChunk col buffer c) (∀ m ∈ c.moves, col.Has m.2)
      (fun b => b = Moves.read col c.moves buffer) (fun _ => True) := by
  unfold readChunk
  rw [h.moves_eq]
  cases hempty : c.isEmpty with
  | true => exact .inl ⟨by simp, buffer, rfl, rfl⟩
  | false =>
      simp only [Bool.false_eq_true, if_false]
      have hgood : (∀ t ∈ c.transfers, col.Has t.address)
          ↔ ∀ m ∈ c.transfers.map fun t => (c.bufferIndex t.mem, t.address),
              col.Has m.2 := by
        rw [List.forall_mem_map]
      have hvalues := (h.readChunkArray_outcome hrs hempty col).imp hgood
        (fun _ hP => hP) fun _ hE => hE
      have hread : Moves.read col
            (c.transfers.map fun t => (c.bufferIndex t.mem, t.address)) buffer
          = scatter buffer (c.transfers.map fun t =>
              (c.bufferIndex t.mem, col.value t.address)) := by
        rw [Moves.read, Moves.values, List.map_map]
        rfl
      rw [hread]
      cases hc : c.contiguous with
      | true =>
          simp only [if_true]
          unfold readContiguousChunk
          refine hvalues.bind fun values hv => ⟨_, rfl, ?_⟩
          have hoffsets := h.contiguous_offsets hrs hm hc
          rw [h.nElements_eq] at hoffsets
          rw [hv, storeFrom_eq hoffsets]
      | false =>
          simp only [Bool.false_eq_true, if_false]
          refine hvalues.bind fun values hv => ?_
          rw [hv]
          exact ⟨_, h.copyChunkArray_eq hempty _ buffer, rfl⟩

/-- Reading planned chunks carries their moves. -/
theorem readChunks_outcome (hrs : rs.Consistent) (hm : sel.Matches rs)
    {chunks : List DataChunk} (h : ∀ c ∈ chunks, c.Planned sel rs)
    (col : TableColumn α) (dtype : DataType) (buffer : Memory α) :
    Outcome (readChunks col dtype chunks buffer)
      (dtype.supported = true ∧ ∀ m ∈ movesOf chunks, col.Has m.2)
      (fun b => b = Moves.read col (movesOf chunks) buffer)
      (fun _ => True) := by
  have hloop : Outcome (chunks.foldlM (readChunk col) buffer)
      (∀ m ∈ movesOf chunks, col.Has m.2)
      (fun b => b = Moves.read col (movesOf chunks) buffer)
      (fun _ => True) := by
    induction chunks generalizing buffer with
    | nil => exact .inl ⟨by simp [movesOf], buffer, rfl, rfl⟩
    | cons c chunks ih =>
        have hsplit : movesOf (c :: chunks) = c.moves ++ movesOf chunks := rfl
        have hgood : (∀ m ∈ movesOf (c :: chunks), col.Has m.2)
            ↔ (∀ m ∈ c.moves, col.Has m.2)
              ∧ ∀ m ∈ movesOf chunks, col.Has m.2 := by
          rw [hsplit, List.forall_mem_append]
        have hc := (h c List.mem_cons_self).readChunk_outcome hrs hm col buffer
        rw [hsplit, Moves.read_append, ← hsplit, List.foldlM_cons]
        rcases hc with ⟨hgood₁, b, hb, rfl⟩ | ⟨hbad, e, he, -⟩
        · have hrest := ih (fun c' hc' => h c' (List.mem_cons_of_mem _ hc'))
            (Moves.read col c.moves buffer)
          rw [hb]
          exact hrest.imp (by rw [hgood]; exact ⟨fun h₂ => ⟨hgood₁, h₂⟩, And.right⟩)
            (fun _ hP => hP) fun _ hE => hE
        · exact .inr ⟨fun hall => hbad (hgood.mp hall).1, e, by rw [he]; rfl,
            trivial⟩
  unfold readChunks
  cases hsup : dtype.supported with
  | true =>
      rw [dispatchCasaType_of_supported hsup]
      exact hloop.imp (by simp) (fun _ hP => hP) fun _ hE => hE
  | false =>
      cases dtype with
      | tpOther name => exact .inr ⟨by simp, _, rfl, trivial⟩
      | _ => cases hsup

/-- Writing a planned chunk carries its moves back. -/
theorem DataChunk.Planned.writeChunk_outcome (h : c.Planned sel rs)
    (hrs : rs.Consistent) (hm : sel.Matches rs) (col : TableColumn α)
    (buffer : Memory α) :
    Outcome (writeChunk buffer col c) (∀ m ∈ c.moves, col.Has m.2)
      (fun col' => col' = Moves.write buffer c.moves col) (fun _ => True) := by
  unfold writeChunk
  rw [h.moves_eq]
  cases hempty : c.isEmpty with
  | true => exact .inl ⟨by simp, col, rfl, rfl⟩
  | false =>
      simp only [Bool.false_eq_true, if_false]
      have hput : Outcome (writeChunkArray col c
            (c.transfers.map fun t => buffer (c.bufferIndex t.mem)))
          (∀ m ∈ c.transfers.map fun t => (c.bufferIndex t.mem, t.address),
            col.Has m.2)
          (fun col' => col' = Moves.write buffer
            (c.transfers.map fun t => (c.bufferIndex t.mem, t.address)) col)
          (fun _ => True) := by
        rw [writeChunkArray_eq, List.forall_mem_map]
        refine (locateSection_outcome col (h.section_eq hempty) (h.ne_nil hrs)
          (live_of_not_isEmpty hempty)).bind fun addrs haddrs => ⟨_, rfl, ?_⟩
        rw [haddrs, List.zip_map', Moves.write, List.map_map]
        rfl
      cases hc : c.contiguous with
      | true =>
          simp only [if_true]
          have hoffsets := h.contiguous_offsets hrs hm hc
          rw [h.nElements_eq] at hoffsets
          rw [writeContiguousChunk, h.nElements_eq, loadFrom_eq hoffsets]
          exact hput
      | false =>
          simp only [Bool.false_eq_true, if_false]
          rw [h.gatherChunkArray_eq hempty]
          exact hput

/-- Writing planned chunks carries their moves back, if the column holds
them all. -/
theorem writeChunks_ok (hrs : rs.Consistent) (hm : sel.Matches rs)
    {chunks : List DataChunk} (h : ∀ c ∈ chunks, c.Planned sel rs)
    (col : TableColumn α) {dtype : DataType} (hdtype : dtype.supported = true)
    (buffer : Memory α) (hhas : ∀ m ∈ movesOf chunks, col.Has m.2) :
    writeChunks col dtype chunks buffer
      = (.ok (), Moves.write buffer (movesOf chunks) col) := by
  rw [writeChunks, dispatchCasaType_of_supported hdtype]
  induction chunks generalizing col with
  | nil => rfl
  | cons c chunks ih =>
      have hsplit : movesOf (c :: chunks) = c.moves ++ movesOf chunks := rfl
      rw [hsplit, List.forall_mem_append] at hhas
      have hc := (h c List.mem_cons_self).writeChunk_outcome hrs hm col buffer
      obtain ⟨col', hcol', rfl⟩ := hc.of_good hhas.1
      have hrest := ih (fun c' hc' => h c' (List.mem_cons_of_mem _ hc'))
        (Moves.write buffer c.moves col) hhas.2
      rw [writeChunkLoop, hcol', hsplit, Moves.write_append]
      exact hrest

/-- A write that got through had every element to write to. -/
theorem has_of_writeChunks (hrs : rs.Consistent) (hm : sel.Matches rs)
    {chunks : List DataChunk} (h : ∀ c ∈ chunks, c.Planned sel rs)
    {col col' : TableColumn α} {dtype : DataType} {buffer : Memory α}
    (hw : writeChunks col dtype chunks buffer = (.ok (), col')) :
    dtype.supported = true ∧ ∀ m ∈ movesOf chunks, col.Has m.2 := by
  have hsup : dtype.supported = true := by
    cases dtype with
    | tpOther name => cases hw
    | _ => rfl
  refine ⟨hsup, ?_⟩
  rw [writeChunks, dispatchCasaType_of_supported hsup] at hw
  induction chunks generalizing col with
  | nil => simp [movesOf]
  | cons c chunks ih =>
      have hsplit : movesOf (c :: chunks) = c.moves ++ movesOf chunks := rfl
      have hc := (h c List.mem_cons_self).writeChunk_outcome hrs hm col buffer
      rw [hsplit, List.forall_mem_append]
      rw [writeChunkLoop] at hw
      rcases hc with ⟨hgood, col₁, hcol₁, rfl⟩ | ⟨-, e, he, -⟩
      · rw [hcol₁] at hw
        have hrest := ih (fun c' hc' => h c' (List.mem_cons_of_mem _ hc')) hw
        exact ⟨hgood, hrest⟩
      · rw [he] at hw
        cases hw

end Chunks

end Arcae
