/-
What a partition addresses.

A chunk that is not empty picks one run of each dimension, and every
way of picking one index from each of its runs is a transfer of the
plan. So the disk indices that its runs hold are those of the live
rows, no more and no fewer: a bound on what chunks address is a bound
on what live rows select (`addressed_iff`), and that is where the
checks of a request speak.

`InBounds` is the bound that storage sets: rows below the number of
rows, and secondary indices below the size of the row's cell.
-/
import Arcae.Proofs.Moves
import Arcae.Proofs.Slips

namespace Arcae

open Loops

variable {α : Type} {sel : Selection} {rs : ResultShapeData}
  {opt : RowSplitOptions} {p : DataPartition}

-- =============================================================== storage

/-- Index `i` of dimension `dim` lies within the cell of a row. -/
def TableColumn.InCell (col : TableColumn α) (row : Int) (dim : Nat) (i : Int) :
    Prop :=
  ∃ cell n, col.cellShape row.toNat = some cell ∧ cell[dim]? = some n
    ∧ i < (n : Int)

/-- A chunk refers to rows of the column, and to indices within the
cells of these rows. -/
structure DataChunk.InBounds (c : DataChunk) (col : TableColumn α) : Prop where
  rows : ∀ row ∈ c.disk (c.nDim - 1), row < (col.nrow : Int)
  dims : ∀ row ∈ c.disk (c.nDim - 1), ∀ dim < c.nDim - 1, ∀ i ∈ c.disk dim,
    col.InCell row dim i

-- ======================================================= runs of a chunk

/-- Every run of some spans has a transfer through each of its pairs. -/
theorem exists_transfer_through {spans : SpanPairs}
    (hne : ∀ s ∈ spans, s.pairs ≠ []) :
    (∃ t, t ∈ SpanPairs.transfers spans)
      ∧ ∀ (dim : Nat) (s : SpanPair), spans[dim]? = some s → ∀ q ∈ s.pairs,
          ∃ t ∈ SpanPairs.transfers spans, t[dim]? = some q := by
  simp only [mem_transfers]
  induction spans with
  | nil =>
      refine ⟨⟨[], .nil⟩, fun dim s hs => ?_⟩
      rw [List.getElem?_nil] at hs
      cases hs
  | cons s₀ spans ih =>
      obtain ⟨hs₀, hrest⟩ := List.forall_mem_cons.mp hne
      obtain ⟨q₀, hq₀⟩ := List.exists_mem_of_ne_nil _ hs₀
      obtain ⟨⟨t, ht⟩, hthrough⟩ := ih hrest
      refine ⟨⟨q₀ :: t, .cons hq₀ ht⟩, fun dim s hs q hq => ?_⟩
      cases dim with
      | zero =>
          rw [List.getElem?_cons_zero] at hs
          cases hs
          exact ⟨q :: t, .cons hq ht, rfl⟩
      | succ dim =>
          rw [List.getElem?_cons_succ] at hs
          obtain ⟨t', ht', hat⟩ := hthrough dim s hs q hq
          exact ⟨q₀ :: t', .cons hq₀ ht', hat⟩

/-- The rows of a chunk are those of its last span. -/
theorem DataChunk.disk_last {c : DataChunk} {picks : SpanPairs}
    {row : SpanPair} (hspans : c.dimSpans = picks ++ [row]) :
    c.nDim - 1 = picks.length ∧ c.disk picks.length = row.disk := by
  constructor
  · rw [DataChunk.nDim, hspans, List.length_append]
    rfl
  · rw [DataChunk.disk, hspans, List.getD_eq_getElem?_getD,
      List.getElem?_append_right (Nat.le_refl _), Nat.sub_self]
    rfl

theorem DataChunk.disk_pick {c : DataChunk} {picks : SpanPairs}
    {row : SpanPair} (hspans : c.dimSpans = picks ++ [row]) {dim : Nat}
    (hdim : dim < picks.length) : c.disk dim = (picks.get ⟨dim, hdim⟩).disk := by
  rw [DataChunk.disk, hspans, List.getD_eq_getElem?_getD,
    List.getElem?_append_left hdim, List.getElem?_eq_getElem hdim]
  rfl

/-- A row and an index of a chunk, side by side in one transfer. -/
theorem DataChunk.Planned.exists_transfer {c : DataChunk}
    (h : c.Planned sel rs) (hempty : c.isEmpty = false) {row : Int}
    (hrow : row ∈ c.disk (c.nDim - 1)) :
    (∃ t ∈ c.transfers, t.disk.getLastD 0 = row)
      ∧ ∀ dim < c.nDim - 1, ∀ i ∈ c.disk dim,
          ∃ t ∈ c.transfers, t.disk.getLastD 0 = row
            ∧ t.disk[dim]? = some i := by
  obtain ⟨picks, last, hspans, hlast, -, -, -, hpicks, -⟩ := h.spans
  have hdisk := DataChunk.Planned.disk_ne_nil hempty
  -- each disk index is one half of a pair
  have hpair : ∀ {s : SpanPair}, s.disk.length = s.mem.length →
      ∀ i ∈ s.disk, ∃ q ∈ s.pairs, q.1 = i := by
    intro s hlen i hi
    obtain ⟨j, hj, rfl⟩ := List.mem_iff_getElem.mp hi
    exact ⟨(s.disk[j], s.mem[j]), List.mem_iff_getElem.mpr
      ⟨j, by simp [SpanPair.pairs, ← hlen, hj], by simp [SpanPair.pairs]⟩, rfl⟩
  have hne : ∀ s ∈ picks, s.pairs ≠ [] := by
    intro s hs
    have hmem : s ∈ c.dimSpans := by
      rw [hspans]
      exact List.mem_append_left _ hs
    obtain ⟨i, hi⟩ := List.exists_mem_of_ne_nil _ (hdisk s hmem)
    obtain ⟨q, hq, -⟩ := hpair (hpicks s hs).1 i hi
    exact List.ne_nil_of_mem hq
  obtain ⟨hndim, hlastdisk⟩ := DataChunk.disk_last hspans
  rw [hndim] at hrow ⊢
  rw [hlastdisk] at hrow
  obtain ⟨q, hq, rfl⟩ := hpair hlast row hrow
  obtain ⟨⟨t, ht⟩, hthrough⟩ := exists_transfer_through hne
  rw [DataChunk.transfers, hspans]
  have hlastD : ∀ t : Transfer, (Transfer.disk (t ++ [q])).getLastD 0 = q.1 := by
    intro t
    simp [Transfer.disk]
  constructor
  · exact ⟨t ++ [q], mem_transfers_concat.mpr ⟨t, q, rfl, ht, hq⟩, hlastD t⟩
  · intro dim hdim i hi
    have hat : picks[dim]? = some picks[dim] := List.getElem?_eq_getElem hdim
    rw [DataChunk.disk_pick hspans hdim] at hi
    obtain ⟨q', hq', rfl⟩ :=
      hpair (hpicks _ (List.getElem_mem hdim)).1 i hi
    obtain ⟨t', ht', hq''⟩ := hthrough dim _ hat q' hq'
    refine ⟨t' ++ [q], mem_transfers_concat.mpr ⟨t', q, rfl, ht', hq⟩,
      hlastD t', ?_⟩
    have hlen : dim < t'.length := (List.getElem?_eq_some_iff.mp hq'').1
    rw [Transfer.disk, List.getElem?_map, List.getElem?_append_left hlen, hq'']
    rfl

-- ==================================================== what live rows select

/-- A position of a row, all of whose indices exist on disk, lies in a
chunk that is not empty. -/
theorem chunk_of_live (hrs : rs.Consistent) (hpart : p.Partitions sel rs opt)
    {k : Nat} (hk : k < rs.nRows) {pos : Nat → Nat}
    (hrow : 0 ≤ (rowIds sel rs).getD k 0)
    (hpos : ∀ d < rs.rank - 1, pos d < (dimIds sel rs k d).length
      ∧ 0 ≤ (dimIds sel rs k d).getD (pos d) 0) :
    ∃ c ∈ p.dataChunks, c.isEmpty = false ∧ c.nDim = rs.rank
      ∧ (rowIds sel rs).getD k 0 ∈ c.disk (c.nDim - 1)
      ∧ ∀ dim < rs.rank - 1,
          (dimIds sel rs k dim).getD (pos dim) 0 ∈ c.disk dim := by
  have hplan := transferOf_mem_plan hk fun d hd => (hpos d hd).1
  have hlive := transferOf_live hrow fun d hd => (hpos d hd).2
  obtain ⟨c, hc, ht⟩ := List.mem_flatMap.mp (hpart.transfers.mem_iff.mpr hplan)
  have hplanned := hpart.planned c hc
  have hempty : c.isEmpty = false := by
    by_contra hne
    rw [hplanned.not_live_of_isEmpty (by simpa using hne) _ ht] at hlive
    cases hlive
  have hspans := mem_transfers.mp ht
  have hlen : c.nDim = rs.rank := hplanned.rank
  have hat : ∀ dim q, (transferOf sel rs k pos)[dim]? = some q →
      q.1 ∈ c.disk dim := by
    intro dim q hq
    obtain ⟨hlt, rfl⟩ := List.getElem?_eq_some_iff.mp hq
    have hlt' : dim < c.dimSpans.length := hspans.length_eq ▸ hlt
    have hget := hspans.get hlt hlt'
    rw [DataChunk.disk, List.getD_eq_getElem _ _ hlt']
    exact (List.of_mem_zip hget).1
  have hrank := hrs.rank_pos
  have hlast : (transferOf sel rs k pos)[c.nDim - 1]?
      = some ((rowIds sel rs).getD k 0, k) := by
    rw [hlen, transferOf, List.getElem?_append_right (by simp)]
    simp
  refine ⟨c, hc, hempty, hlen, hat _ _ hlast, fun dim hdim => hat dim
    ((dimIds sel rs k dim).getD (pos dim) 0, pos dim) ?_⟩
  rw [transferOf, List.getElem?_append_left (by simpa using hdim)]
  simp [hdim]

/-- A transfer of a chunk that is not empty is one of a live row of the
plan, at indices that exist on disk. -/
theorem live_of_chunk (hpart : p.Partitions sel rs opt) {c : DataChunk}
    (hc : c ∈ p.dataChunks) (hempty : c.isEmpty = false) {t : Transfer}
    (ht : t ∈ c.transfers) :
    ∃ k < rs.nRows, RowLive sel rs k
      ∧ (rowIds sel rs).getD k 0 = t.disk.getLastD 0
      ∧ ∀ dim < rs.rank - 1, ∀ i, t.disk[dim]? = some i →
          i ∈ dimIds sel rs k dim ∧ 0 ≤ i := by
  have hlive := DataChunk.Planned.live_of_not_isEmpty hempty t ht
  have hplan := hpart.mem_plan hc ht
  have hrowlive := rowLive_of_mem_plan hplan hlive
  obtain ⟨k, hk, t', rfl, ht'⟩ := mem_plan.mp hplan
  rw [Transfer.row_concat] at hrowlive
  refine ⟨k, hk, hrowlive, by simp [Transfer.disk], ?_⟩
  intro dim hdim i hi
  have hlen : t'.length = rs.rank - 1 := by
    rw [ht'.length_eq, secondaryIds, List.length_map, List.length_range]
  rw [Transfer.disk, List.getElem?_map,
    List.getElem?_append_left (by omega), List.getElem?_eq_getElem (by omega),
    Option.map_some, Option.some.injEq] at hi
  have hdim' : dim < t'.length := by omega
  have hget := ht'.get hdim' (by simpa [secondaryIds] using hdim)
  simp only [List.get_eq_getElem, secondaryIds, List.getElem_map,
    List.getElem_range] at hget
  obtain ⟨hlt, heq⟩ := mem_indexed.mp hget
  rw [← hi]
  constructor
  · rw [heq, List.getD_eq_getElem _ _ hlt]
    exact List.getElem_mem hlt
  · rw [Transfer.live, List.all_eq_true] at hlive
    exact of_decide_eq_true
      (hlive _ (List.mem_append_left _ (List.getElem_mem hdim')))

/-- What holds of the rows and indices of every chunk that is not empty
is what holds of those that live rows select. -/
theorem addressed_iff (hrs : rs.Consistent) (hpart : p.Partitions sel rs opt)
    (R : Int → Prop) (D : Int → Nat → Int → Prop) :
    (∀ c ∈ p.dataChunks, c.isEmpty = false →
      ∀ row ∈ c.disk (c.nDim - 1), R row
        ∧ ∀ dim < c.nDim - 1, ∀ i ∈ c.disk dim, D row dim i)
      ↔ ∀ k < rs.nRows, RowLive sel rs k → R ((rowIds sel rs).getD k 0)
        ∧ ∀ dim < rs.rank - 1, ∀ i ∈ dimIds sel rs k dim, 0 ≤ i →
            D ((rowIds sel rs).getD k 0) dim i := by
  constructor
  · intro hchunks k hk hlive
    constructor
    · obtain ⟨pos, hpos⟩ := hlive.exists_pos
      obtain ⟨c, hc, hempty, -, hrow, -⟩ :=
        chunk_of_live hrs hpart hk hlive.1 hpos
      exact (hchunks c hc hempty _ hrow).1
    · intro dim hdim i hi hnn
      obtain ⟨m, hm, rfl⟩ := List.mem_iff_getElem.mp hi
      rw [← List.getD_eq_getElem _ 0 hm] at hnn ⊢
      obtain ⟨pos, rfl, hpos⟩ := hlive.exists_pos_at hm hnn
      obtain ⟨c, hc, hempty, hlen, hrow, hat⟩ :=
        chunk_of_live hrs hpart hk hlive.1 hpos
      exact (hchunks c hc hempty _ hrow).2 dim (by omega) _ (hat dim hdim)
  · intro hrows c hc hempty row hrow
    have hplanned := hpart.planned c hc
    have hlen : c.nDim = rs.rank := hplanned.rank
    obtain ⟨⟨t₀, ht₀, hlast₀⟩, hthrough⟩ :=
      hplanned.exists_transfer hempty hrow
    obtain ⟨k, hk, hlive, hrowid, -⟩ := live_of_chunk hpart hc hempty ht₀
    rw [hlast₀] at hrowid
    refine ⟨hrowid ▸ (hrows k hk hlive).1, fun dim hdim i hi => ?_⟩
    obtain ⟨t, ht, hlast, hat⟩ := hthrough dim hdim i hi
    obtain ⟨k, hk, hlive, hrowid, hdims⟩ := live_of_chunk hpart hc hempty ht
    rw [hlast] at hrowid
    obtain ⟨hmem, hnn⟩ := hdims dim (by omega) i hat
    exact hrowid ▸ (hrows k hk hlive).2 dim (by omega) i hmem hnn

/-- The chunks of a plain result read selected rows and indices, whatever
the sizes of the selection. -/
theorem plain_indices {srt : StdSort} (h : rs.Consistent) (hplain : rs.IsPlain)
    (hp : DataPartition.make srt sel rs opt = .ok p) {c : DataChunk}
    (hc : c ∈ p.dataChunks) :
    c.nDim = rs.rank ∧ (∀ row ∈ c.disk (c.nDim - 1), row ∈ rowIds sel rs)
      ∧ ∀ dim < rs.rank - 1, ∀ i ∈ c.disk dim, i ∈ dimIds sel rs 0 dim := by
  obtain ⟨secondary, rows, cuts, parts, rowCuts, hcut⟩ :=
    plainCut_of_make h hplain hp
  obtain ⟨picks, last, hspans, hlast, hpicks⟩ := hcut.pick hc
  obtain ⟨hndim, hlastdisk⟩ := DataChunk.disk_last hspans
  have hlen : picks.length = rs.rank - 1 := by
    rw [← hpicks.length_eq, secondaryIds, List.length_map, List.length_range]
  refine ⟨(hcut.chunks c hc).2.rank, fun row hrow => ?_, fun dim hdim i hi => ?_⟩
  · rw [hndim, hlastdisk] at hrow
    refine hcut.arranged.disk_perm.mem_iff.mp ?_
    rw [← hcut.block.2.disk_eq]
    exact List.mem_flatMap.mpr ⟨last, hlast, hrow⟩
  · have hdim' : dim < picks.length := by omega
    rw [DataChunk.disk_pick hspans hdim'] at hi
    have hget := hpicks.get (by simpa [secondaryIds] using hdim) hdim'
    simp only [List.get_eq_getElem, secondaryIds, List.getElem_map,
      List.getElem_range] at hget hi
    obtain ⟨span, parts, harr, hspan, hmem⟩ := hget
    refine harr.disk_perm.mem_iff.mp ?_
    rw [← hspan.disk_eq]
    exact List.mem_flatMap.mpr ⟨_, hmem, hi⟩

end Arcae
