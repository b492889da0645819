/-
In how many pieces the rows of a result are read.

The rows of a plain result that are read from disk are one span, and the
pieces it is split into end where `pieceEnds` says. So they are anchored,
every chunk starting at the first of them, only if there is one piece, and
the first row of the result in it (`rowsAnchored_iff_pieces`): two pieces
share no position. The rows of a result that is planned row by row are
pieces of their own (`rowsAnchored_iff_alone`).

How many pieces there are depends on the bytes of a row, but not for
rows an `int` cannot count the elements of: each of those is worth a
piece of its own (`IsRowCuts.read_length`).
-/
import Arcae.Proofs.Align
import Arcae.Proofs.Slips

namespace Arcae

open Loops

variable {sel : Selection} {rs : ResultShapeData} {opt : RowSplitOptions}
  {p : DataPartition} {rowCuts : SpanPairs}

-- ================================================================ the ends

/-- A piece ends at each boundary, and the last after the rows. -/
theorem pieceEnds_length (nrows nsplits : Nat) (rowAt : Nat → Int)
    (unitStart : Option RowUnitStart) :
    (pieceEnds nrows nsplits rowAt unitStart).length
      = (pieceBounds nrows nsplits rowAt unitStart).length + 1 := by
  show (pieceBounds nrows nsplits rowAt unitStart ++ [nrows]).length = _
  rw [List.length_append, List.length_singleton]

/-- One piece has one end. -/
theorem pieceEnds_length_of_few {nrows nsplits : Nat} (h : nsplits ≤ 1)
    (rowAt : Nat → Int) (unitStart : Option RowUnitStart) :
    (pieceEnds nrows nsplits rowAt unitStart).length = 1 := by
  rw [pieceEnds_length, pieceBounds_eq_nil h, List.length_nil]

theorem pieceSizes_length (bounds : List Nat) (nrows : Nat) :
    (pieceSizes bounds nrows).length = bounds.length + 1 := by
  rw [pieceSizes, List.length_zipWith, List.length_append,
    List.length_singleton, List.length_cons, Nat.min_self]

/-- Spans that hold rows end one after the other. -/
theorem endsFrom_ascending {spans : SpanPairs} (h : ∀ s ∈ spans, s.disk ≠ [])
    (position : Nat) :
    (position :: endsFrom position spans).Pairwise (· < ·) := by
  induction spans generalizing position with
  | nil => exact List.pairwise_singleton _ _
  | cons s spans ih =>
      obtain ⟨hs, hspans⟩ := List.forall_mem_cons.mp h
      have hpos := List.length_pos_iff.mpr hs
      have hrest := ih hspans (position + s.disk.length)
      rw [endsFrom_cons]
      refine List.pairwise_cons.mpr ⟨?_, hrest⟩
      intro q hq
      rcases List.mem_cons.mp hq with rfl | hq
      · omega
      · have := (List.pairwise_cons.mp hrest).1 q hq
        omega

/-- The lengths of spans are the steps between their ends. -/
theorem lengths_eq_steps (spans : SpanPairs) (position : Nat) :
    List.zipWith (fun e s => e - s) (endsFrom position spans)
        (position :: endsFrom position spans)
      = spans.map fun s => s.disk.length := by
  induction spans generalizing position with
  | nil => rfl
  | cons s spans ih =>
      rw [endsFrom_cons, List.zipWith_cons_cons, ih, List.map_cons,
        Nat.add_sub_cancel_left]

/-- Spans that end where the pieces end have the sizes of the pieces. -/
theorem lengths_eq_pieceSizes {spans : SpanPairs} {bounds : List Nat}
    {nrows : Nat} (h : endsFrom 0 spans = bounds ++ [nrows]) :
    spans.map (fun s => s.disk.length) = pieceSizes bounds nrows := by
  rw [← lengths_eq_steps spans 0, h, pieceSizes]
  refine List.ext_getElem (by simp) fun i h₁ h₂ => ?_
  have hi : i < (0 :: bounds).length := by
    simp only [List.length_zipWith, List.length_append, List.length_cons] at h₂
    simp only [List.length_cons]
    omega
  rw [List.getElem_zipWith, List.getElem_zipWith]
  congr 1
  exact List.getElem_append_left hi

/-- The pieces of rows that are split without storage units have the
sizes of even pieces. -/
theorem SplitGroups.lengths {nsplits : Nat} {rowAt : Nat → Int}
    {unitStart : Option RowUnitStart} {span : SpanPair} {ids : Index}
    {parts : SpanPairs} {groups : List SpanPairs} (harr : Arranged span ids)
    (hparts : makeSubSpans span true = .ok parts)
    (h : SplitGroups (pieceEnds (DataPartition.readRows parts) nsplits rowAt
      unitStart) 0 parts groups)
    (hpos : 0 < DataPartition.readRows parts) :
    (groups.flatten.filter SpanPair.isRead).map (fun s => s.disk.length)
      = pieceSizes (pieceBounds (DataPartition.readRows parts) nsplits rowAt
          unitStart) (DataPartition.readRows parts) := by
  obtain ⟨hcut, -⟩ := makeSubSpans_ok harr.length_eq harr.sorted hparts
  have hsign := SpanPairs.Signed.of_cut hcut
  have hspan : span.disk ≠ [] := by
    intro hnil
    rw [readRows_eq_countP hsign, hcut.disk_eq, hnil] at hpos
    exact Nat.lt_irrefl 0 hpos
  have hread : ∀ s ∈ groups.flatten.filter SpanPair.isRead, s.disk ≠ [] :=
    fun s hs => h.refines.nonempty (hcut.nonempty hspan) s
      (List.mem_filter.mp hs).1
  -- the one span read ends after the rows
  have hone : ∀ q, q ∈ endsFrom 0 (parts.filter SpanPair.isRead)
      → q = DataPartition.readRows parts := by
    intro q hq
    have hcount := readRows_eq_countP hsign
    rw [List.countP_eq_length_filter, ← hsign.read_disk] at hcount
    match hfilter : parts.filter SpanPair.isRead, one_read harr hparts with
    | [], _ =>
        rw [hfilter] at hq
        cases hq
    | [s], _ =>
        rw [hfilter, endsFrom_cons, endsFrom_nil, List.mem_singleton] at hq
        rw [hfilter, List.flatMap_singleton] at hcount
        rw [hq, hcount, Nat.zero_add]
    | _ :: _ :: _, hlen => exact absurd hlen (by simp)
  have hsome : DataPartition.readRows parts
      ∈ endsFrom 0 (parts.filter SpanPair.isRead) := by
    match hfilter : parts.filter SpanPair.isRead with
    | [] =>
        rw [readRows_eq_countP hsign, List.countP_eq_length_filter,
          ← hsign.read_disk, hfilter] at hpos
        exact absurd hpos (Nat.lt_irrefl 0)
    | s :: rest =>
        have hs : s.disk.length ∈ endsFrom 0 (parts.filter SpanPair.isRead) := by
          rw [hfilter, endsFrom_cons, Nat.zero_add]
          exact List.mem_cons_self
        rw [← hfilter, ← hone _ hs]
        exact hs
  obtain ⟨hasc, hin⟩ := pieceBounds_ascending (DataPartition.readRows parts)
    nsplits rowAt unitStart
  refine lengths_eq_pieceSizes ?_
  refine @List.Perm.eq_of_pairwise _ (· < ·) _ _
    (fun a b _ _ hab hba => absurd hab (Nat.lt_asymm hba))
    (List.pairwise_cons.mp (endsFrom_ascending hread 0)).2
    (pieceEnds_ascending _ nsplits rowAt unitStart).ascending ?_
  refine (List.perm_ext_iff_of_nodup ?_ ?_).mpr ?_
  · exact (List.pairwise_cons.mp (endsFrom_ascending hread 0)).2.imp Nat.ne_of_lt
  · exact (pieceEnds_ascending _ nsplits rowAt unitStart).ascending.imp
      Nat.ne_of_lt
  · intro q
    rw [h.ends_iff (hcut.nonempty hspan) hsign q, Nat.zero_add]
    have hends : q ∈ pieceEnds (DataPartition.readRows parts) nsplits rowAt
        unitStart ↔ q ∈ pieceBounds (DataPartition.readRows parts) nsplits
          rowAt unitStart ∨ q = DataPartition.readRows parts :=
      List.mem_append.trans (or_congr_right List.mem_singleton)
    show _ ↔ q ∈ pieceEnds _ nsplits rowAt unitStart
    rw [hends]
    constructor
    · intro hq
      obtain hq | ⟨hq, -, -⟩ := hq
      · exact .inr (hone q hq)
      · exact hq
    · intro hq
      obtain hq | rfl := hq
      · exact .inr ⟨.inl hq, hin q hq⟩
      · exact .inl hsome

-- ========================================================== the rows read

/-- The rows of the request that are read from disk. -/
def rowsRead (sel : Selection) (rs : ResultShapeData) : Nat :=
  (rowIds sel rs).countP fun i => decide (0 ≤ i)

/-- These rows, in the order in which they are read. -/
def readIds (sel : Selection) (rs : ResultShapeData) : Index :=
  ((rowIds sel rs).filter fun i => decide (0 ≤ i)).mergeSort
    fun i j => decide (i ≤ j)

theorem readIds_length : (readIds sel rs).length = rowsRead sel rs := by
  rw [readIds, List.length_mergeSort, rowsRead, List.countP_eq_length_filter]

/-- Where no row exists but the first, no more than one is read. -/
theorem rowsRead_le_one (h : ∀ k < (rowIds sel rs).length,
    0 ≤ (rowIds sel rs).getD k 0 → k = 0) : rowsRead sel rs ≤ 1 := by
  unfold rowsRead
  cases hids : rowIds sel rs with
  | nil => exact Nat.zero_le 1
  | cons i ids =>
      rw [hids] at h
      have hrest : ids.countP (fun i => decide (0 ≤ i)) = 0 := by
        refine List.countP_eq_zero.mpr fun j hj hnn => ?_
        obtain ⟨k, hk, rfl⟩ := List.mem_iff_getElem.mp hj
        have hzero := h (k + 1) (Nat.succ_lt_succ hk) (by
          rw [List.getD_cons_succ, List.getD_eq_getElem _ _ hk]
          exact of_decide_eq_true hnn)
        exact absurd hzero (Nat.succ_ne_zero k)
      rw [List.countP_cons, hrest, Nat.zero_add]
      split
      · exact Nat.le_refl 1
      · exact Nat.zero_le 1

theorem mem_readIds {r : Int} :
    r ∈ readIds sel rs ↔ r ∈ rowIds sel rs ∧ 0 ≤ r := by
  rw [readIds, List.mem_mergeSort, List.mem_filter, decide_eq_true_iff]

theorem readIds_nonneg {k : Nat} (hk : k < rowsRead sel rs) :
    0 ≤ (readIds sel rs).getD k 0 := by
  rw [← readIds_length] at hk
  rw [List.getD_eq_getElem _ _ hk]
  exact (mem_readIds.mp (List.getElem_mem hk)).2

/-- If all rows exist, all are read. -/
theorem readIds_of_nonneg (h : ∀ i ∈ rowIds sel rs, 0 ≤ i) :
    rowsRead sel rs = (rowIds sel rs).length
      ∧ readIds sel rs
        = (rowIds sel rs).mergeSort fun i j => decide (i ≤ j) := by
  have hall : (rowIds sel rs).filter (fun i => decide (0 ≤ i))
      = rowIds sel rs :=
    List.filter_eq_self.mpr fun i hi => decide_eq_true (h i hi)
  constructor
  · rw [rowsRead, List.countP_eq_length_filter, hall]
  · rw [readIds, hall]

/-- Sorted indices are what sorting them gives. -/
theorem eq_mergeSort {ids ids' : Index} (hsorted : ids.Pairwise (· ≤ ·))
    (hperm : ids.Perm ids') :
    ids = ids'.mergeSort fun i j => decide (i ≤ j) := by
  refine @List.Perm.eq_of_pairwise _ (fun i j : Int => i ≤ j) _ _
    (fun i j _ _ hij hji => Int.le_antisymm hij hji) hsorted ?_
    (hperm.trans (List.mergeSort_perm ids' _).symm)
  refine (List.pairwise_mergeSort (fun i j k hij hjk => ?_) (fun i j => ?_)
    ids').imp fun hij => of_decide_eq_true hij
  · exact decide_eq_true (Int.le_trans (of_decide_eq_true hij)
      (of_decide_eq_true hjk))
  · rw [Bool.or_eq_true, decide_eq_true_iff, decide_eq_true_iff]
    exact Int.le_total i j

/-- Rows that are not split are one span, if any is read. -/
theorem one_read_length {span : SpanPair} {ids : Index}
    (harr : Arranged span ids) {parts : SpanPairs}
    (hparts : makeSubSpans span true = .ok parts) :
    (parts.filter SpanPair.isRead).length
      = min 1 (DataPartition.readRows parts) := by
  obtain ⟨hcut, -⟩ := makeSubSpans_ok harr.length_eq harr.sorted hparts
  have hsign := SpanPairs.Signed.of_cut hcut
  have hcount := readRows_eq_countP hsign
  rw [List.countP_eq_length_filter, ← hsign.read_disk] at hcount
  match hfilter : parts.filter SpanPair.isRead, one_read harr hparts with
  | [], _ =>
      rw [hfilter] at hcount
      rw [hcount]
      rfl
  | [s], _ =>
      have hs : s ∈ parts.filter SpanPair.isRead := by
        rw [hfilter]
        exact List.mem_singleton_self s
      have hne : s.disk ≠ [] := by
        intro hnil
        have hread := (List.mem_filter.mp hs).2
        rw [SpanPair.isRead, hnil] at hread
        cases hread
      have hpos := List.length_pos_iff.mpr hne
      rw [hfilter, List.flatMap_singleton] at hcount
      rw [hcount, List.length_singleton]
      omega
  | _ :: _ :: _, hlen => exact absurd hlen (by simp)

/-- The rows read of a request are those of its spans. -/
theorem readRows_eq_rowsRead {span : SpanPair}
    (harr : Arranged span (rowIds sel rs)) {parts : SpanPairs}
    (hparts : makeSubSpans span true = .ok parts) :
    DataPartition.readRows parts = rowsRead sel rs := by
  obtain ⟨hcut, -⟩ := makeSubSpans_ok harr.length_eq harr.sorted hparts
  rw [readRows_eq_countP (SpanPairs.Signed.of_cut hcut), hcut.disk_eq, rowsRead]
  exact harr.disk_perm.countP_eq _

/-- The row at a position of the spans that are read. -/
theorem rowAt_readIds {span : SpanPair} (harr : Arranged span (rowIds sel rs))
    {parts : SpanPairs} (hparts : makeSubSpans span true = .ok parts) :
    rowAt (readSpans parts) = fun position =>
      (readIds sel rs).getD position 0 := by
  obtain ⟨hcut, -⟩ := makeSubSpans_ok harr.length_eq harr.sorted hparts
  have hids : (span.disk.filter fun i => decide (0 ≤ i)) = readIds sel rs :=
    eq_mergeSort (harr.sorted.filter _) (harr.disk_perm.filter _)
  funext position
  rw [rowAt_readSpans, (SpanPairs.Signed.of_cut hcut).read_disk, hcut.disk_eq,
    hids]

-- =========================================================== large rows

/-- The sizes of the spans of each dimension are those of a row. -/
theorem cuts_sizes (hrs : rs.Consistent) (hm : sel.Matches rs)
    (hfixed : rs.isFixed = true) {cuts : List SpanPairs}
    (h : List.Forall₂ (fun ids spans => ∃ w, Arranged w ids
        ∧ CutSpans w false spans) (secondaryIds sel rs 0) cuts) :
    cuts.map (fun spans => (spans.map fun span => span.disk.length).sum)
      = rs.rowDims 0 := by
  have hlen : (rs.rowDims 0).length = rs.rank - 1 :=
    hrs.rowDims_length (.inr hfixed)
  have hids : (secondaryIds sel rs 0).map List.length = rs.rowDims 0 := by
    rw [secondaryIds, List.map_map]
    refine List.ext_getElem (by simp [hlen]) fun d h₁ h₂ => ?_
    rw [List.getElem_map, List.getElem_range, Function.comp_apply,
      hm.dimIds_length (.inr hfixed) (by omega),
      List.getD_eq_getElem _ _ h₂]
  rw [← hids]
  clear hids hlen
  revert h
  generalize secondaryIds sel rs 0 = idss
  intro h
  induction h with
  | nil => rfl
  | @cons ids spans idss cuts hcut _ ih =>
      obtain ⟨w, harr, hcut⟩ := hcut
      rw [List.map_cons, List.map_cons, ih, ← harr.disk_perm.length_eq,
        ← hcut.disk_eq, List.length_flatMap]

/-- A supported element has bytes. -/
theorem casaDataTypeSize_pos {dtype : DataType} {size : Nat}
    (h : casaDataTypeSize dtype = .ok size) : 0 < size := by
  cases dtype <;> cases h <;> decide

/-- Rows of as many elements as a piece has bytes at least are worth one
each. -/
theorem splitCount_of_large {opt : RowSplitOptions} {nrows size row : Nat}
    (hmin : 0 < opt.minBytes) (hsize : 0 < size) (hbig : opt.minBytes ≤ row) :
    DataPartition.splitCount opt nrows (size * row)
      = min opt.maxSplits nrows := by
  have hworth : nrows ≤ nrows * (size * row) / opt.minBytes := by
    refine (Nat.le_div_iff_mul_le hmin).mpr (Nat.mul_le_mul_left _ ?_)
    exact Nat.le_trans hbig (Nat.le_mul_of_pos_left _ hsize)
  unfold DataPartition.splitCount
  dsimp only
  rw [if_pos hmin]
  omega

/-- Large rows are split at the ends of as many pieces as the options
allow. -/
theorem IsRowCuts.read_length (h : IsRowCuts sel rs opt rowCuts)
    (hrs : rs.Consistent) (hm : sel.Matches rs) (hfixed : rs.isFixed = true)
    (hmin : 0 < opt.minBytes) (hbig : opt.minBytes ≤ (rs.rowDims 0).prod)
    (hpos : 0 < rowsRead sel rs) :
    (rowCuts.filter SpanPair.isRead).length
      = (pieceEnds (rowsRead sel rs) (min opt.maxSplits (rowsRead sel rs))
          (fun position => (readIds sel rs).getD position 0)
          opt.unitStart).length := by
  obtain ⟨span, parts, rowBytes, harr, hparts, hbytes, hcases⟩ := h.cases
  have hrows := readRows_eq_rowsRead harr hparts
  rw [hrows] at hcases
  -- each row is worth a piece
  have hcount : 1 < opt.maxSplits →
      DataPartition.splitCount opt (rowsRead sel rs) rowBytes
        = min opt.maxSplits (rowsRead sel rs) := by
    intro hmax
    obtain ⟨size, cuts, hsize, hcuts, rfl⟩ := hbytes hmax
    rw [cuts_sizes hrs hm hfixed hcuts]
    exact splitCount_of_large hmin (casaDataTypeSize_pos hsize) hbig
  rcases hcases with ⟨hfew, rfl⟩ | ⟨groups, ⟨hmax, -⟩, rfl, hgroups⟩
  · have hle : min opt.maxSplits (rowsRead sel rs) ≤ 1 := by
      by_cases hmax : 1 < opt.maxSplits
      · rw [hcount hmax] at hfew
        omega
      · omega
    rw [one_read_length harr hparts, hrows, pieceEnds_length_of_few hle]
    omega
  · rw [hcount hmax, rowAt_readIds harr hparts, ← hrows] at hgroups
    have hlengths := congrArg List.length
      (hgroups.lengths harr hparts (hrows ▸ hpos))
    rw [List.length_map, pieceSizes_length, hrows] at hlengths
    rw [pieceEnds_length]
    exact hlengths

-- ========================================================= the same piece

/-- A value of a list without repetition is on one side of a cut. -/
theorem index_of_side {front back : List Int} (h : (front ++ back).Nodup)
    {i : Nat} (hi : i < (front ++ back).length) :
    ((front ++ back).getD i 0 ∈ front ↔ i < front.length)
      ∧ ((front ++ back).getD i 0 ∈ back ↔ front.length ≤ i) := by
  have hapart := (List.nodup_append.mp h).2.2
  rw [List.getD_eq_getElem _ _ hi]
  rcases Nat.lt_or_ge i front.length with hlt | hge
  · have hmem : (front ++ back)[i] ∈ front := by
      rw [List.getElem_append_left hlt]
      exact List.getElem_mem hlt
    refine ⟨iff_of_true hmem hlt, iff_of_false (fun hback => ?_) (by omega)⟩
    exact hapart _ hmem _ hback rfl
  · have hmem : (front ++ back)[i] ∈ back := by
      rw [List.getElem_append_right hge]
      exact List.getElem_mem _
    refine ⟨iff_of_false (fun hfront => ?_) (by omega), iff_of_true hmem hge⟩
    exact hapart _ hfront _ hmem rfl

/-- Two rows are in one span exactly if no span ends between them. -/
theorem same_span_iff {spans : SpanPairs} {rows : List Int}
    (hrows : spans.flatMap SpanPair.disk = rows) (hnodup : rows.Nodup)
    {i j : Nat} (hij : i < j) (hj : j < rows.length) {s s' : SpanPair}
    (hs : s ∈ spans) (hs' : s' ∈ spans) (hin : rows.getD i 0 ∈ s.disk)
    (hin' : rows.getD j 0 ∈ s'.disk) :
    s = s' ↔ ∀ e ∈ endsFrom 0 spans, e ≤ i ∨ j < e := by
  subst hrows
  constructor
  · intro heq e he
    subst heq
    obtain ⟨front, back, rfl, -, rfl⟩ := mem_endsFrom.mp he
    rw [List.flatMap_append] at hnodup hj hin hin'
    have hfirst := index_of_side hnodup (Nat.lt_trans hij hj)
    have hsecond := index_of_side hnodup hj
    rw [Nat.zero_add]
    rcases List.mem_append.mp hs with hside | hside
    · exact .inr (hsecond.1.mp (List.mem_flatMap.mpr ⟨s, hside, hin'⟩))
    · exact .inl (hfirst.2.mp (List.mem_flatMap.mpr ⟨s, hside, hin⟩))
  · intro hends
    by_contra hne
    obtain ⟨front, back, rfl, hfront, hsides⟩ := exists_end_between hs hs' hne
    have hend := hends _ (mem_endsFrom.mpr ⟨front, back, rfl, hfront, rfl⟩)
    rw [List.flatMap_append] at hnodup hj hin hin'
    have hfirst := index_of_side hnodup (Nat.lt_trans hij hj)
    have hsecond := index_of_side hnodup hj
    rcases hsides with ⟨hf, hb⟩ | ⟨hf, hb⟩
    · have hlt := hfirst.1.mp (List.mem_flatMap.mpr ⟨s, hf, hin⟩)
      have hge := hsecond.2.mp (List.mem_flatMap.mpr ⟨s', hb, hin'⟩)
      omega
    · have hlt := hsecond.1.mp (List.mem_flatMap.mpr ⟨s', hf, hin'⟩)
      have hge := hfirst.2.mp (List.mem_flatMap.mpr ⟨s, hb, hin⟩)
      omega

/-- The number of pieces that the rows of a plain result are split
into. -/
def rowSplits (sel : Selection) (rs : ResultShapeData) (opt : RowSplitOptions) :
    Nat :=
  if 1 < opt.maxSplits then
    match casaDataTypeSize rs.dtype with
    | .ok size => DataPartition.splitCount opt (rowsRead sel rs)
        (size * (rs.rowDims 0).prod)
    | .error _ => 1
  else 1

/-- Two rows of a plain result are in one piece exactly if no boundary is
between them. -/
theorem IsRowCuts.same_piece_iff (h : IsRowCuts sel rs opt rowCuts)
    (hrs : rs.Consistent) (hm : sel.Matches rs) (hfixed : rs.isFixed = true)
    {i j : Nat} (hij : i < j) (hj : j < rowsRead sel rs) {s s' : SpanPair}
    (hs : s ∈ rowCuts) (hs' : s' ∈ rowCuts)
    (hin : (readIds sel rs).getD i 0 ∈ s.disk)
    (hin' : (readIds sel rs).getD j 0 ∈ s'.disk) :
    s = s' ↔ ∀ b ∈ pieceBounds (rowsRead sel rs) (rowSplits sel rs opt)
      (fun position => (readIds sel rs).getD position 0) opt.unitStart,
        b ≤ i ∨ j < b := by
  obtain ⟨span, parts, rowBytes, harr, hparts, hbytes, hcases⟩ := h.cases
  obtain ⟨hcut, -⟩ := makeSubSpans_ok harr.length_eq harr.sorted hparts
  have hsign := SpanPairs.Signed.of_cut hcut
  have hrows := readRows_eq_rowsRead harr hparts
  have hlen : (readIds sel rs).length = rowsRead sel rs := readIds_length
  have hsplits : 1 < opt.maxSplits → rowSplits sel rs opt
      = DataPartition.splitCount opt (DataPartition.readRows parts) rowBytes := by
    intro hmax
    obtain ⟨size, cuts, hsize, hcuts, rfl⟩ := hbytes hmax
    rw [rowSplits, if_pos hmax, hsize, cuts_sizes hrs hm hfixed hcuts, hrows]
  rcases hcases with ⟨hfew, rfl⟩ | ⟨groups, ⟨hmax, -⟩, rfl, hgroups⟩
  · -- one piece, and no boundary
    have hle : rowSplits sel rs opt ≤ 1 := by
      by_cases hmax : 1 < opt.maxSplits
      · rw [hsplits hmax]
        exact hfew.resolve_left (Nat.not_le.mpr hmax)
      · rw [rowSplits, if_neg hmax]
    refine iff_of_true (one_read_eq harr hparts hs hs' hin hin'
      (readIds_nonneg (by omega)) (readIds_nonneg hj)) fun b hb => ?_
    rw [pieceBounds_eq_nil hle] at hb
    cases hb
  · have hsign' := SpanPairs.Signed.of_cut (hcut.refine hgroups.refines)
    have hread := hsign'.isRead hs hin (readIds_nonneg (by omega))
    have hread' := hsign'.isRead hs' hin' (readIds_nonneg hj)
    obtain ⟨s₀, hfilter, hasc, -, hdisk, hcount, hflat⟩ :=
      hgroups.read_rows harr hparts ⟨s, hs, hread⟩
    have hids : s₀.disk = readIds sel rs := by
      rw [hdisk]
      exact eq_mergeSort (harr.sorted.filter _) (harr.disk_perm.filter _)
    have hspan : span.disk ≠ [] := by
      have hmem : (readIds sel rs).getD i 0
          ∈ groups.flatten.flatMap SpanPair.disk :=
        List.mem_flatMap.mpr ⟨s, hs, hin⟩
      rw [hgroups.refines.disk_eq, hcut.disk_eq] at hmem
      exact List.ne_nil_of_mem hmem
    rw [hids] at hflat hasc
    rw [same_span_iff hflat (hasc.imp Int.ne_of_lt) hij (hlen ▸ hj)
      (List.mem_filter.mpr ⟨hs, hread⟩) (List.mem_filter.mpr ⟨hs', hread'⟩)
      hin hin', hsplits hmax, ← rowAt_readIds harr hparts, ← hrows]
    obtain ⟨-, hinside⟩ := pieceBounds_ascending (DataPartition.readRows parts)
      (DataPartition.splitCount opt (DataPartition.readRows parts) rowBytes)
      (rowAt (readSpans parts)) opt.unitStart
    -- the ends inside the rows are the boundaries
    constructor
    · intro hends b hb
      obtain ⟨hlo, hhi⟩ := hinside b hb
      refine hends b ((hgroups.ends_iff (hcut.nonempty hspan) hsign b).mpr ?_)
      exact .inr ⟨List.mem_append_left _ hb, hlo, by omega⟩
    · intro hbounds e he
      rw [hgroups.ends_iff (hcut.nonempty hspan) hsign, hfilter, endsFrom_cons,
        endsFrom_nil, List.mem_singleton, Nat.zero_add, ← hcount] at he
      rcases he with rfl | ⟨hend, -, -⟩
      · exact .inr (by omega)
      · rcases List.mem_append.mp hend with hbound | hlast
        · exact hbounds e hbound
        · rw [List.mem_singleton] at hlast
          exact .inr (by omega)

/-- The rows of a piece are rows of the request. -/
theorem IsRowCuts.disk_subset (h : IsRowCuts sel rs opt rowCuts) {s : SpanPair}
    (hs : s ∈ rowCuts) {r : Int} (hr : r ∈ s.disk) : r ∈ rowIds sel rs := by
  obtain ⟨span, parts, cuts, harr, -, -, -, hcut⟩ := h
  rw [← harr.disk_perm.mem_iff, ← hcut.disk_eq]
  exact List.mem_flatMap.mpr ⟨s, hs, hr⟩

/-- Each row of the request is in a piece. -/
theorem IsRowCuts.exists_piece (h : IsRowCuts sel rs opt rowCuts)
    (hm : sel.Matches rs) {k : Nat} (hk : k < rs.nRows) :
    ∃ s ∈ rowCuts, k ∈ s.mem := by
  obtain ⟨span, parts, cuts, harr, -, -, -, hcut⟩ := h
  have hmem : k ∈ span.mem := by
    rw [harr.mem_perm.mem_iff, List.mem_range, hm.rowIds_length]
    exact hk
  rw [← hcut.mem_eq] at hmem
  exact List.mem_flatMap.mp hmem

/-- It is a row of the request, read if it exists. -/
theorem IsRowCuts.of_mem (h : IsRowCuts sel rs opt rowCuts) (hm : sel.Matches rs)
    {s : SpanPair} (hs : s ∈ rowCuts) {k : Nat} (hk : k ∈ s.mem) :
    k < rs.nRows ∧ (rowIds sel rs).getD k 0 ∈ s.disk
      ∧ (s.isRead = true ↔ 0 ≤ (rowIds sel rs).getD k 0) := by
  obtain ⟨span, parts, cuts, harr, -, -, -, hcut⟩ := h
  have hsign := SpanPairs.Signed.of_cut hcut
  have hdisk := hcut.disk_mem harr hs hk
  have hmem : k ∈ span.mem := by
    rw [← hcut.mem_eq]
    exact List.mem_flatMap.mpr ⟨s, hs, hk⟩
  rw [harr.mem_perm.mem_iff, List.mem_range, hm.rowIds_length] at hmem
  refine ⟨hmem, hdisk, fun hread => ?_, fun hnn => hsign.isRead hs hdisk hnn⟩
  refine (hsign s hs).resolve_left (fun hneg => ?_) _ hdisk
  rw [(SpanPair.rowsRead_of_neg hneg).2] at hread
  cases hread

/-- No two pieces have a row in common. -/
theorem IsRowCuts.disjoint (h : IsRowCuts sel rs opt rowCuts) :
    rowCuts.Pairwise (Function.onFun List.Disjoint SpanPair.mem) := by
  obtain ⟨span, parts, cuts, harr, -, -, -, hcut⟩ := h
  have hnodup : (rowCuts.flatMap SpanPair.mem).Nodup := by
    rw [hcut.mem_eq]
    exact harr.mem_perm.nodup_iff.mpr List.nodup_range
  exact (List.nodup_flatMap.mp hnodup).2

/-- A piece is not empty. -/
theorem IsRowCuts.exists_mem (h : IsRowCuts sel rs opt rowCuts) {s : SpanPair}
    (hs : s ∈ rowCuts) (hread : s.isRead = true) : ∃ k, k ∈ s.mem := by
  obtain ⟨span, parts, cuts, -, -, -, -, hcut⟩ := h
  refine List.exists_mem_of_ne_nil _ fun hnil => ?_
  have hlen := hcut.length_eq s hs
  rw [hnil] at hlen
  rw [SpanPair.isRead, List.length_eq_zero_iff.mp hlen] at hread
  cases hread

/-- The rows that are read are distinct. -/
theorem IsRowCuts.readIds_nodup (h : IsRowCuts sel rs opt rowCuts) :
    (readIds sel rs).Nodup := by
  obtain ⟨span, parts, cuts, harr, hparts, -⟩ := h
  obtain ⟨-, hdistinct⟩ := makeSubSpans_ok harr.length_eq harr.sorted hparts
  have hrows : NoRepeat (rowIds sel rs) :=
    (NoRepeat.perm harr.disk_perm).mp hdistinct
  exact (List.mergeSort_perm _ _).nodup_iff.mpr hrows

-- ============================================================ anchoring

/-- The rows of a chunk start at the first of its row span. -/
theorem minMemIndex_last (hpart : p.Partitions sel rs opt) {c : DataChunk}
    (hc : c ∈ p.dataChunks) {picks : SpanPairs} {row : SpanPair}
    (hspans : c.dimSpans = picks ++ [row]) :
    c.minMemIndex.getLastD 0 = minMem row := by
  rw [(hpart.planned c hc).minMem_eq, hspans, List.map_append,
    List.map_singleton, List.getLastD_concat]

/-- A live row has an element that is moved. -/
theorem RowLive.exists_transfer {row : Nat} (h : RowLive sel rs row)
    (hrow : row < rs.nRows) :
    ∃ t ∈ plan sel rs, t.live = true ∧ t.row = row := by
  obtain ⟨pos, hpos⟩ := h.exists_pos
  exact ⟨transferOf sel rs row pos,
    transferOf_mem_plan hrow fun d hd => (hpos d hd).1,
    transferOf_live h.1 fun d hd => (hpos d hd).2, transferOf_row row pos⟩

/-- The rows of a plain result differ in nothing but whether they exist. -/
theorem RowLive.of_plain (hplain : rs.IsPlain) {row row' : Nat}
    (h : RowLive sel rs row) (hnn : 0 ≤ (rowIds sel rs).getD row' 0) :
    RowLive sel rs row' := by
  have hids : ∀ d, dimIds sel rs row' d = dimIds sel rs row d := by
    intro d
    have hextent : ∀ k, rs.extent k d = none := by
      intro k
      rw [ResultShapeData.extent, hplain.2]
    unfold dimIds
    rw [hextent, hextent, rs.rowDims_fixed hplain.1 row' row]
  refine ⟨hnn, fun d hd => ?_⟩
  rw [hids]
  exact h.2 d hd

/-- Rows planned one by one are anchored exactly if no other than the
first has anything to be read. -/
theorem rowsAnchored_iff_alone (hpart : p.Partitions sel rs opt)
    (hplain : ¬ rs.IsPlain) :
    p.RowsAnchored ↔ ∀ k < rs.nRows, RowLive sel rs k → k = 0 := by
  have hrow : ∀ c ∈ p.dataChunks, ∀ t ∈ c.transfers,
      c.minMemIndex.getLastD 0 = t.row := by
    intro c hc t ht
    obtain ⟨picks, k, -, hspans⟩ := hpart.rowsAlone hplain c hc
    obtain ⟨q, hq, -, hqrow⟩ := DataChunk.row_pair hspans ht
    have hk : q.2 = k := List.mem_singleton.mp (List.of_mem_zip hq).2
    rw [minMemIndex_last hpart hc hspans, hqrow, hk]
    rfl
  constructor
  · intro hanch k hk hlive
    obtain ⟨t, ht, htlive, rfl⟩ := hlive.exists_transfer hk
    obtain ⟨c, hc, htc⟩ := List.mem_flatMap.mp (hpart.transfers.mem_iff.mpr ht)
    rw [← hrow c hc t htc]
    exact hanch c hc ⟨t, htc, htlive⟩
  · intro hfirst c hc hx
    obtain ⟨t, ht, hlive⟩ := hx
    rw [hrow c hc t ht]
    exact hfirst t.row ((hpart.planned c hc).row_lt ht)
      (rowLive_of_mem_plan (hpart.mem_plan hc ht) hlive)

/-- Rows planned together are anchored exactly if nothing is read, or the
first is there and all that are read are in one piece with it. -/
theorem rowsAnchored_iff_pieces (hpart : p.Partitions sel rs opt)
    (hplain : rs.IsPlain) (hm : sel.Matches rs)
    (hcuts : IsRowCuts sel rs opt rowCuts)
    (hchunks : ∀ c ∈ p.dataChunks, ∃ picks row, c.dimSpans = picks ++ [row]
      ∧ row ∈ rowCuts) :
    p.RowsAnchored ↔ ∀ k < rs.nRows, RowLive sel rs k →
      0 ≤ (rowIds sel rs).headD 0
        ∧ (rowCuts.filter SpanPair.isRead).length ≤ 1 := by
  have hhead : (rowIds sel rs).headD 0 = (rowIds sel rs).getD 0 0 :=
    List.headD_eq_getD
  constructor
  · intro hanch k hk hlive
    -- a piece that is read starts at the first row
    have hzero : ∀ s ∈ rowCuts.filter SpanPair.isRead, 0 ∈ s.mem := by
      intro s hs
      obtain ⟨hs, hsr⟩ := List.mem_filter.mp hs
      obtain ⟨k', hk'⟩ := hcuts.exists_mem hs hsr
      obtain ⟨hlt, -, hread⟩ := hcuts.of_mem hm hs hk'
      obtain ⟨t, ht, htlive, htrow⟩ :=
        (hlive.of_plain hplain (hread.mp hsr)).exists_transfer hlt
      obtain ⟨c, hc, htc⟩ := List.mem_flatMap.mp
        (hpart.transfers.mem_iff.mpr ht)
      obtain ⟨picks, row, hspans, hrow⟩ := hchunks c hc
      obtain ⟨q, hq, -, hqrow⟩ := DataChunk.row_pair hspans htc
      have hmem : k' ∈ row.mem := by
        rw [← htrow, hqrow]
        exact (List.of_mem_zip hq).2
      obtain rfl := eq_of_disjoint hcuts.disjoint hs hrow hk' hmem
      have hfirst := hanch c hc ⟨t, htc, htlive⟩
      rw [minMemIndex_last hpart hc hspans] at hfirst
      rw [← hfirst]
      exact (minMem_spec (List.ne_nil_of_mem hk')).1
    obtain ⟨s, hs, hks⟩ := hcuts.exists_piece hm hk
    have hsr := (hcuts.of_mem hm hs hks).2.2.mpr hlive.1
    have hs0 := hzero s (List.mem_filter.mpr ⟨hs, hsr⟩)
    exact ⟨hhead ▸ (hcuts.of_mem hm hs hs0).2.2.mp hsr,
      length_le_one_of_disjoint (hcuts.disjoint.filter SpanPair.isRead) hzero⟩
  · intro hone c hc hx
    obtain ⟨t, ht, hlive⟩ := hx
    obtain ⟨picks, row, hspans, hrow⟩ := hchunks c hc
    obtain ⟨q, hq, -, hqrow⟩ := DataChunk.row_pair hspans ht
    have hlt := (hpart.planned c hc).row_lt ht
    have hlive' := rowLive_of_mem_plan (hpart.mem_plan hc ht) hlive
    obtain ⟨hfirst, hlen⟩ := hone t.row hlt hlive'
    have hmem : t.row ∈ row.mem := hqrow ▸ (List.of_mem_zip hq).2
    have hrowRead := (hcuts.of_mem hm hrow hmem).2.2.mpr hlive'.1
    obtain ⟨s, hs, hs0⟩ := hcuts.exists_piece hm (Nat.zero_lt_of_lt hlt)
    have hsRead := (hcuts.of_mem hm hs hs0).2.2.mpr (hhead ▸ hfirst)
    -- the one piece that is read is that of the chunk
    obtain ⟨s₀, hone⟩ := List.length_eq_one_iff.mp (Nat.le_antisymm hlen
      (List.length_pos_of_mem (List.mem_filter.mpr ⟨hs, hsRead⟩)))
    have hin := List.mem_filter.mpr ⟨hs, hsRead⟩
    have hin' := List.mem_filter.mpr ⟨hrow, hrowRead⟩
    rw [hone, List.mem_singleton] at hin hin'
    obtain rfl : s = row := hin.trans hin'.symm
    have hle := (minMem_spec (List.ne_nil_of_mem hs0)).2 0 hs0
    rw [minMemIndex_last hpart hc hspans]
    omega

/-- Large rows planned together are anchored exactly if nothing is read,
or the first is there and no piece ends inside the rows that are read. -/
theorem rowsAnchored_iff_ends (hrs : rs.Consistent) (hm : sel.Matches rs)
    (hpart : p.Partitions sel rs opt) (hplain : rs.IsPlain)
    (hmin : 0 < opt.minBytes) (hbig : opt.minBytes ≤ (rs.rowDims 0).prod) :
    p.RowsAnchored ↔ ∀ k < rs.nRows, RowLive sel rs k →
      0 ≤ (rowIds sel rs).headD 0
        ∧ (pieceEnds (rowsRead sel rs) (min opt.maxSplits (rowsRead sel rs))
            (fun position => (readIds sel rs).getD position 0)
            opt.unitStart).length ≤ 1 := by
  obtain ⟨rowCuts, hcuts, hchunks⟩ := hpart.rowCuts hplain
  rw [rowsAnchored_iff_pieces hpart hplain hm hcuts hchunks]
  refine forall₃_congr fun k hk hlive => ?_
  have hpos : 0 < rowsRead sel rs := by
    refine List.countP_pos_iff.mpr ⟨(rowIds sel rs).getD k 0, ?_,
      decide_eq_true hlive.1⟩
    have hlt : k < (rowIds sel rs).length := by
      rw [hm.rowIds_length]
      exact hk
    rw [List.getD_eq_getElem _ _ hlt]
    exact List.getElem_mem hlt
  rw [hcuts.read_length hrs hm hplain.1 hmin hbig hpos]

end Arcae
