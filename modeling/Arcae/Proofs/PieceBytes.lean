/-
How many bytes the pieces of a split read hold.

The pieces are the row spans of the chunks that are read from disk
(`DataPartition.rowPieces`). Rows come out of the cut as one span, so
without storage units they end where the even boundaries are, and the
smallest piece has the row count divided by the number of pieces, rounded
down (`evenSizes_min`).

The number of pieces is itself a quotient, of bytes: the rows hold that
many minima, but no minimum need be a whole number of rows. So the
pieces hold the minimum exactly when the rows hold as many groups of
`⌈minBytes / rowBytes⌉` rows as there are pieces
(`rowPieces_minimum_iff`).
-/
import Arcae.Proofs.RowPieces
import Mathlib.Data.List.Dedup

namespace Arcae

open Loops

variable {srt : StdSort} {sel : Selection} {rs : ResultShapeData}
  {opt : RowSplitOptions} {p : DataPartition}

-- ============================================================== the pieces

/-- The pieces of the rows read from disk: the row spans of the chunks,
each once. -/
def DataPartition.rowPieces (p : DataPartition) : SpanPairs :=
  (p.dataChunks.map fun c => c.dimSpans.getLastD ⟨[], []⟩).dedup.filter
    SpanPair.isRead

/-- Cuts that are read from disk are told apart by their positions. -/
theorem CutSpans.read_nodup {span : SpanPair} {e : Bool} {cuts : SpanPairs}
    (h : CutSpans span e cuts) (hnodup : span.mem.Nodup) :
    (cuts.filter SpanPair.isRead).Nodup := by
  rw [← h.mem_eq] at hnodup
  obtain ⟨-, hdisjoint⟩ := List.nodup_flatMap.mp hnodup
  refine List.pairwise_filter.mpr (hdisjoint.imp_of_mem ?_)
  intro s s' hs _ hapart hread _ heq
  subst heq
  have hmem : s.mem = [] := by
    refine List.eq_nil_iff_forall_not_mem.mpr fun k hk => ?_
    exact hapart hk hk
  have hdisk : s.disk = [] := by
    refine List.length_eq_zero_iff.mp ?_
    rw [h.length_eq s hs, hmem, List.length_nil]
  rw [SpanPair.isRead, hdisk] at hread
  cases hread

/-- The pieces of a plain result are its row cuts read from disk. -/
theorem IsPlainCut.rowPieces_perm {secondary : SpanPairs} {rows : SpanPair}
    {cuts : List SpanPairs} {parts rowCuts : SpanPairs}
    (h : IsPlainCut sel rs opt p secondary rows cuts parts rowCuts) :
    p.rowPieces.Perm (rowCuts.filter SpanPair.isRead) := by
  have hnodup : rows.mem.Nodup :=
    h.arranged.mem_perm.nodup_iff.mpr List.nodup_range
  have hmem : ∀ s, s ∈ p.dataChunks.map (fun c => c.dimSpans.getLastD ⟨[], []⟩)
      ↔ s ∈ rowCuts := by
    intro s
    rw [List.mem_map]
    constructor
    · intro hs
      obtain ⟨c, hc, rfl⟩ := hs
      obtain ⟨picks, row, hspans, hrow, -⟩ := h.pick hc
      rwa [hspans, List.getLastD_concat]
    · intro hs
      obtain ⟨picks, hpicks⟩ := h.block.exists_pick hs
      rw [← h.spans, List.mem_map] at hpicks
      obtain ⟨c, hc, hdims⟩ := hpicks
      exact ⟨c, hc, by rw [hdims, List.getLastD_concat]⟩
  refine (List.perm_ext_iff_of_nodup ?_ (h.block.rows.read_nodup hnodup)).mpr ?_
  · exact (List.nodup_dedup _).filter _
  · intro s
    rw [DataPartition.rowPieces, List.mem_filter, List.mem_filter,
      List.mem_dedup, hmem s]

-- =============================================================== the bytes

/-- One of the even pieces has the row count divided by their number,
rounded down. -/
theorem evenSizes_min {nrows nsplits : Nat} (hmany : 1 < nsplits)
    (hle : nsplits ≤ nrows) (rowAt : Nat → Int) :
    nrows / nsplits ∈ pieceSizes (pieceBounds nrows nsplits rowAt none) nrows := by
  obtain ⟨n, rfl⟩ : ∃ n, nsplits = n + 2 := ⟨nsplits - 2, by omega⟩
  rw [pieceSizes, pieceBounds_even (by omega) hle rowAt,
    show n + 2 - 1 = n + 1 by omega, List.range'_succ, List.map_cons,
    List.cons_append, List.zipWith_cons_cons, Nat.one_mul, Nat.sub_zero]
  exact List.mem_cons_self

theorem pieceSizes_even_length {nrows nsplits : Nat} (hpos : 0 < nsplits)
    (hle : nsplits ≤ nrows) (rowAt : Nat → Int) :
    (pieceSizes (pieceBounds nrows nsplits rowAt none) nrows).length = nsplits := by
  have hlen : (pieceBounds nrows nsplits rowAt none).length = nsplits - 1 := by
    rw [pieceBounds_even hpos hle rowAt, List.length_map, List.length_range']
  rw [pieceSizes, List.length_zipWith, List.length_append]
  simp only [List.length_cons, List.length_nil, hlen]
  omega

/-- A piece of `n / k` rows holds `m` bytes exactly if the `n` rows hold
`k` groups of as many rows as the `m` bytes take. -/
theorem le_div_mul_iff {n k m b : Nat} (hk : 0 < k) (hm : 0 < m) (hb : 0 < b) :
    m ≤ n / k * b ↔ k ≤ n / ((m + b - 1) / b) := by
  have hgroup : 0 < (m + b - 1) / b := Nat.div_pos (by omega) hb
  have hceil : m ≤ n / k * b ↔ (m + b - 1) / b ≤ n / k := by
    rw [← Nat.lt_succ_iff (m := (m + b - 1) / b), Nat.div_lt_iff_lt_mul hb,
      Nat.succ_mul]
    omega
  rw [hceil, Nat.le_div_iff_mul_le hk, Nat.le_div_iff_mul_le hgroup,
    Nat.mul_comm]

/-- The pieces of a plain result: no more than one if the options do not
split the rows, and otherwise as many as they say, of even sizes. -/
theorem rowPieces_sizes (h : rs.Consistent) (hm : sel.Matches rs)
    (hplain : rs.IsPlain) (hunit : opt.unitStart = none) {size : Nat}
    (hsize : casaDataTypeSize rs.dtype = .ok size)
    (hp : DataPartition.make srt sel rs opt = .ok p) {k : Nat}
    (hk : k = DataPartition.splitCount opt (rowsRead sel rs)
      (size * (rs.rowDims 0).prod)) :
    (opt.maxSplits ≤ 1 ∨ k ≤ 1)
        ∧ p.rowPieces.length = min 1 (rowsRead sel rs)
      ∨ 1 < opt.maxSplits ∧ 1 < k ∧ ∃ rowAt,
        (p.rowPieces.map fun s => s.disk.length).Perm
          (pieceSizes (pieceBounds (rowsRead sel rs) k rowAt none)
            (rowsRead sel rs)) := by
  obtain ⟨secondary, rows, cuts, parts, rowCuts, hcut⟩ :=
    plainCut_of_make h hplain hp
  have hperm := hcut.rowPieces_perm
  obtain ⟨span, parts, rowBytes, harr, hparts, hbytes, hcases⟩ :=
    hcut.isRowCuts.cases
  have hrows := readRows_eq_rowsRead harr hparts
  have hone := one_read_length harr hparts
  rw [hrows] at hone hcases
  -- the bytes of a row are those of the result's dimensions
  have hrowBytes : 1 < opt.maxSplits → rowBytes = size * (rs.rowDims 0).prod := by
    intro hmax
    obtain ⟨size', cuts, hsize', hcuts, rfl⟩ := hbytes hmax
    rw [hsize, Except.ok.injEq] at hsize'
    rw [cuts_sizes h hm hplain.1 hcuts, hsize']
  have hsame : 1 < opt.maxSplits →
      DataPartition.splitCount opt (rowsRead sel rs) rowBytes = k := by
    intro hmax
    rw [hk, hrowBytes hmax]
  rcases hcases with ⟨hfew, rfl⟩ | ⟨groups, ⟨hmax, hmany⟩, rfl, hgroups⟩
  · refine .inl ⟨?_, by rw [hperm.length_eq, hone]⟩
    by_cases hmax : 1 < opt.maxSplits
    · rwa [hsame hmax] at hfew
    · exact .inl (by omega)
  · rw [hsame hmax] at hmany hgroups
    have hpos : 0 < DataPartition.readRows parts := by
      have hle : k ≤ rowsRead sel rs := by
        rw [hk]
        exact Nat.min_le_right _ _
      omega
    rw [← hrows] at hgroups
    have hlengths := hgroups.lengths harr hparts hpos
    rw [hunit, hrows] at hlengths
    refine .inr ⟨hmax, hmany, rowAt (readSpans parts), ?_⟩
    rw [← hlengths]
    exact hperm.map _

/-- A split read keeps to the minimum and the maximum exactly when the
rows read hold as many groups of `⌈minBytes / rowBytes⌉` rows as they
are split in, and some piece is allowed. -/
theorem rowPieces_minimum_iff (h : rs.Consistent) (hm : sel.Matches rs)
    (hplain : rs.IsPlain) (hunit : opt.unitStart = none)
    (hmin : 0 < opt.minBytes) {size : Nat}
    (hsize : casaDataTypeSize rs.dtype = .ok size)
    (hp : DataPartition.make srt sel rs opt = .ok p) {n b : Nat}
    (hn : n = rowsRead sel rs) (hb : b = size * (rs.rowDims 0).prod) :
    ((1 < p.rowPieces.length →
        ∀ s ∈ p.rowPieces, opt.minBytes ≤ s.disk.length * b)
      ∧ p.rowPieces.length ≤ opt.maxSplits)
      ↔ min (min opt.maxSplits (n * b / opt.minBytes)) n
          ≤ max 1 (n / ((opt.minBytes + b - 1) / b))
        ∧ (0 < opt.maxSplits ∨ n = 0) := by
  subst hn hb
  set b := size * (rs.rowDims 0).prod with hb
  set n := rowsRead sel rs with hn
  have hk : DataPartition.splitCount opt n b
      = min (min opt.maxSplits (n * b / opt.minBytes)) n := by
    unfold DataPartition.splitCount
    dsimp only
    rw [if_pos hmin]
  rw [← hk]
  rcases rowPieces_sizes h hm hplain hunit hsize hp rfl with
    ⟨hfew, hlen⟩ | ⟨hmax, hmany, rowAt, hsizes⟩
  · -- the rows are not split
    rw [← hb, ← hn] at hfew
    rw [← hn] at hlen
    have hle : DataPartition.splitCount opt n b ≤ 1 := by
      rcases hfew with hfew | hfew
      · rw [hk]
        omega
      · exact hfew
    constructor
    · intro hboth
      exact ⟨by omega, by omega⟩
    · intro hboth
      exact ⟨fun hlt => by omega, by omega⟩
  · rw [← hb, ← hn] at hmany hsizes
    set k := DataPartition.splitCount opt n b with hkdef
    have hkn : k ≤ n := by
      rw [hk]
      exact Nat.min_le_right _ _
    have hkmax : k ≤ opt.maxSplits := by
      rw [hk]
      omega
    have hlen : p.rowPieces.length = k := by
      rw [← pieceSizes_even_length (by omega) hkn rowAt, ← hsizes.length_eq,
        List.length_map]
    have hb0 : 0 < b := by
      refine Nat.pos_of_ne_zero fun hzero => ?_
      rw [hzero, Nat.mul_zero, Nat.zero_div] at hk
      omega
    have hall : (∀ s ∈ p.rowPieces, opt.minBytes ≤ s.disk.length * b)
        ↔ opt.minBytes ≤ n / k * b := by
      have hmem : ∀ m, m ∈ p.rowPieces.map (fun s => s.disk.length)
          ↔ m ∈ pieceSizes (pieceBounds n k rowAt none) n := fun m =>
        hsizes.mem_iff
      constructor
      · intro hpieces
        obtain ⟨s, hs, hlen⟩ := List.mem_map.mp
          ((hmem _).mpr (evenSizes_min hmany hkn rowAt))
        rw [← hlen]
        exact hpieces s hs
      · intro hsmall s hs
        have hge := (evenSizes (by omega) hkn rowAt _
          ((hmem _).mp (List.mem_map_of_mem hs))).1
        exact Nat.le_trans hsmall (Nat.mul_le_mul_right b hge)
    rw [hall, le_div_mul_iff (by omega) hmin hb0]
    constructor
    · intro hboth
      have := hboth.1 (by omega)
      exact ⟨by omega, .inl (by omega)⟩
    · intro hboth
      exact ⟨fun _ => by omega, by omega⟩

-- ================================================================= samples

/-- Rows of ten bytes. -/
def tenByteRows (n : Nat) : ResultShapeData where
  columnName := "DATA"
  shape := some [10, n]
  ndim := 2
  dtype := .tpUChar
  rowShapes := none
  cellExtents := none

theorem tenByteRows_consistent (n : Nat) : (tenByteRows n).Consistent where
  ndim_pos := Int.ofNat_succ_pos 1
  fixed := by
    intro shape hof
    cases hof
    rfl
  varying := by
    intro h
    cases h
  extents := by
    intro es h
    cases h

/-- Six rows of ten bytes are split in two of 30 under a minimum of 25. -/
theorem rowPieces_minimum_sample :
    ∃ p, DataPartition.make .insertion .empty (tenByteRows 6) ⟨2, 25, none⟩
        = .ok p
      ∧ p.rowPieces.length = 2
      ∧ ∀ s ∈ p.rowPieces, 25 ≤ s.disk.length * 10 := by
  obtain ⟨p, hp, hlen⟩ : ∃ p, DataPartition.make .insertion .empty
      (tenByteRows 6) ⟨2, 25, none⟩ = .ok p ∧ p.rowPieces.length = 2 :=
    ⟨_, rfl, by decide +kernel⟩
  have hiff := @rowPieces_minimum_iff _ _ _ ⟨2, 25, none⟩ _
    (tenByteRows_consistent 6) (empty_matches _) ⟨rfl, rfl⟩ rfl (by decide) 1
    rfl hp 6 10 (by decide) (by decide)
  exact ⟨p, hp, hlen, (hiff.mpr (by decide)).1 (by omega)⟩

/-- Five rows of ten bytes hold two minima of 25, and are split in pieces
of two and three rows: the first holds 20 bytes. -/
theorem rowPieces_below_minimum :
    ∃ p, DataPartition.make .insertion .empty (tenByteRows 5) ⟨2, 25, none⟩
        = .ok p
      ∧ p.rowPieces.length = 2
      ∧ ∃ s ∈ p.rowPieces, s.disk = [0, 1] ∧ s.disk.length * 10 < 25 := by
  refine ⟨_, rfl, by decide +kernel, ⟨[0, 1], [0, 1]⟩, by decide +kernel, rfl,
    by decide⟩

end Arcae
