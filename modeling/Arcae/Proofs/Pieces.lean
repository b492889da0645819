/-
The pieces the rows are split into.

`rowEnds` are the positions, among the rows read from disk, at which
some spans end. Splitting adds the boundaries of the pieces to them and
nothing else (`SplitGroups.rowEnds_iff`). The boundaries ascend
strictly inside the rows whatever the alignment function returns; with
none they are the even ones, all distinct as long as there is a row for
each piece, so that the pieces differ by at most one row
(`evenSizes`).
-/
import Arcae.Proofs.RowSplit
import Mathlib.Data.Nat.ModEq

namespace Arcae

-- ================================================================ the rows

/-- The span is of rows read from disk. -/
def SpanPair.isRead (span : SpanPair) : Bool :=
  match span.disk with
  | [] => false
  | i :: _ => decide (0 ≤ i)

/-- The positions, among the rows read from disk, at which some spans
end. -/
def rowEnds (spans : SpanPairs) : List Nat :=
  endsFrom 0 (spans.filter SpanPair.isRead)

/-- Every span of some is all missing rows or all rows read from disk. -/
def SpanPairs.Signed (spans : SpanPairs) : Prop :=
  ∀ s ∈ spans, (∀ i ∈ s.disk, i < 0) ∨ ∀ i ∈ s.disk, 0 ≤ i

theorem SpanPair.rowsRead_of_neg {s : SpanPair} (h : ∀ i ∈ s.disk, i < 0) :
    s.rowsRead = 0 ∧ s.isRead = false := by
  obtain ⟨disk, mem⟩ := s
  cases disk with
  | nil => exact ⟨rfl, rfl⟩
  | cons i is =>
      have hi : i < 0 := h i List.mem_cons_self
      refine ⟨by simp only [SpanPair.rowsRead, hi, if_true], ?_⟩
      exact decide_eq_false (by omega)

theorem SpanPair.rowsRead_of_nonneg {s : SpanPair} (h : ∀ i ∈ s.disk, 0 ≤ i)
    (hne : s.disk ≠ []) :
    s.rowsRead = s.disk.length ∧ s.isRead = true := by
  obtain ⟨disk, mem⟩ := s
  cases disk with
  | nil => exact absurd rfl hne
  | cons i is =>
      have hi : 0 ≤ i := h i List.mem_cons_self
      have hneg : ¬ i < 0 := by omega
      refine ⟨by simp only [SpanPair.rowsRead, hneg, if_false], ?_⟩
      exact decide_eq_true hi

/-- The rows of signed spans that are read are their non-negative
rows. -/
theorem readRows_eq_countP {spans : SpanPairs} (hsign : spans.Signed) :
    DataPartition.readRows spans
      = (spans.flatMap SpanPair.disk).countP fun i => decide (0 ≤ i) := by
  induction spans with
  | nil => rfl
  | cons s spans ih =>
      rw [readRows_cons, List.flatMap_cons, List.countP_append,
        ih fun s' hs' => hsign s' (List.mem_cons_of_mem _ hs')]
      congr 1
      rcases hsign s List.mem_cons_self with hneg | hpos
      · rw [(SpanPair.rowsRead_of_neg hneg).1, eq_comm, List.countP_eq_zero]
        intro i hi
        have := hneg i hi
        simpa using this
      · have hcount : s.disk.countP (fun i => decide (0 ≤ i))
            = s.disk.length := by
          rw [List.countP_eq_length]
          exact fun i hi => decide_eq_true (hpos i hi)
        rw [hcount]
        by_cases hnil : s.disk = []
        · simp [SpanPair.rowsRead, hnil]
        · exact (SpanPair.rowsRead_of_nonneg hpos hnil).1

-- ================================================================ the ends

theorem endsFrom_append (position : Nat) (spans spans' : SpanPairs) :
    endsFrom position (spans ++ spans')
      = endsFrom position spans
        ++ endsFrom (position + (spans.flatMap SpanPair.disk).length) spans' := by
  induction spans generalizing position with
  | nil => simp
  | cons s spans ih =>
      rw [List.cons_append, endsFrom_cons, endsFrom_cons, ih,
        List.cons_append, List.flatMap_cons, List.length_append, Nat.add_assoc]

/-- The parts of rows read from disk are read from disk. -/
theorem Refines.isRead {s : SpanPair} {parts : SpanPairs}
    (h : Refines [s] parts) (hne : s.disk ≠ []) (hpos : ∀ i ∈ s.disk, 0 ≤ i) :
    parts.filter SpanPair.isRead = parts := by
  refine List.filter_eq_self.mpr fun part hpart => ?_
  obtain ⟨s', hs', hin⟩ := h.isInfix part hpart
  rw [List.mem_singleton.mp hs'] at hin
  refine (SpanPair.rowsRead_of_nonneg (fun i hi => hpos i (hin.subset hi)) ?_).2
  refine h.nonempty (fun s'' hs'' => ?_) part hpart
  rw [List.mem_singleton.mp hs'']
  exact hne

/-- Splitting spans adds the ends that fall inside the rows read, and
nothing else. -/
theorem SplitGroups.ends_iff {ends : List Nat} {position : Nat}
    {spans : SpanPairs} {groups : List SpanPairs}
    (h : SplitGroups ends position spans groups)
    (hne : ∀ s ∈ spans, s.disk ≠ []) (hsign : spans.Signed) :
    ∀ q, q ∈ endsFrom position (groups.flatten.filter SpanPair.isRead)
      ↔ q ∈ endsFrom position (spans.filter SpanPair.isRead)
        ∨ q ∈ ends ∧ position < q
          ∧ q < position + DataPartition.readRows spans := by
  induction h with
  | nil position =>
      intro q
      simp only [List.flatten_nil, List.filter_nil, endsFrom_nil,
        List.not_mem_nil, false_or, false_iff, DataPartition.readRows,
        List.map_nil, List.sum_nil]
      omega
  | @cons position span spans parts groups head tail ih =>
      have hne' := hne span List.mem_cons_self
      have hrest := ih (fun s hs => hne s (List.mem_cons_of_mem _ hs))
        fun s hs => hsign s (List.mem_cons_of_mem _ hs)
      intro q
      rw [List.flatten_cons, List.filter_append, readRows_cons]
      rcases hsign span List.mem_cons_self with hneg | hpos
      · obtain ⟨hread, hdead⟩ := SpanPair.rowsRead_of_neg hneg
        rw [hread, Nat.add_zero] at hrest
        rw [head.whole hread, List.filter_cons_of_neg (by simp [hdead]),
          List.filter_nil, List.nil_append,
          List.filter_cons_of_neg (by simp [hdead]), hrest, hread,
          Nat.zero_add]
      · obtain ⟨hread, hlive⟩ := SpanPair.rowsRead_of_nonneg hpos hne'
        have hlen : 0 < span.disk.length := List.length_pos_of_ne_nil hne'
        have hparts : (parts.flatMap SpanPair.disk).length = span.rowsRead := by
          rw [head.refines.disk_eq, hread]
          simp
        rw [head.refines.isRead hne' hpos, endsFrom_append, hparts,
          List.mem_append, head.ends_iff (by omega), hrest,
          List.filter_cons_of_pos hlive, endsFrom_cons, List.mem_cons, ← hread]
        constructor
        · intro hx
          obtain ((rfl | ⟨hq, hlo, hhi⟩) | (hq | ⟨hq, hlo, hhi⟩)) := hx
          · exact .inl (.inl rfl)
          · exact .inr ⟨hq, hlo, by omega⟩
          · exact .inl (.inr hq)
          · exact .inr ⟨hq, by omega, by omega⟩
        · intro hx
          obtain ((rfl | hq) | ⟨hq, hlo, hhi⟩) := hx
          · exact .inl (.inl rfl)
          · exact .inr (.inl hq)
          · rcases lt_trichotomy q (position + span.rowsRead) with hlt | rfl | hgt
            · exact .inl (.inr ⟨hq, hlo, hlt⟩)
            · exact .inl (.inl rfl)
            · exact .inr (.inr ⟨hq, hgt, by omega⟩)

/-- The pairs of a span are those of its parts, in order. -/
theorem Refines.pairs_eq {spans parts : SpanPairs} (h : Refines spans parts)
    (haligned : ∀ s ∈ spans, s.disk.length = s.mem.length) :
    parts.flatMap SpanPair.pairs = spans.flatMap SpanPair.pairs := by
  have hparts := Sections.zip_flatMap h.length_eq
  have hspans := Sections.zip_flatMap haligned
  rw [h.disk_eq, h.mem_eq, hspans] at hparts
  exact hparts.symm

/-- Each span is its parts, and spans of missing rows are kept whole. -/
theorem SplitGroups.forall₂ {ends : List Nat} {position : Nat}
    {spans : SpanPairs} {groups : List SpanPairs}
    (h : SplitGroups ends position spans groups)
    (haligned : ∀ s ∈ spans, s.disk.length = s.mem.length) :
    List.Forall₂ (fun s parts => parts.flatMap SpanPair.pairs = s.pairs
      ∧ ((∀ i ∈ s.disk, i < 0) → parts = [s])) spans groups := by
  induction h with
  | nil position => exact .nil
  | @cons position span spans parts groups head tail ih =>
      refine .cons ⟨?_, fun hneg => ?_⟩
        (ih fun s hs => haligned s (List.mem_cons_of_mem _ hs))
      · have hpairs := head.refines.pairs_eq fun s hs => by
          rw [List.mem_singleton.mp hs]
          exact haligned span List.mem_cons_self
        simpa using hpairs
      · exact head.whole (SpanPair.rowsRead_of_neg hneg).1

-- =============================================================== the sizes

/-- The number of rows in each piece. -/
def pieceSizes (bounds : List Nat) (nrows : Nat) : List Nat :=
  List.zipWith (fun e s => e - s) (bounds ++ [nrows]) (0 :: bounds)

/-- At most one boundary is kept for each that is offered. -/
theorem foldl_addEnd_length {nrows : Nat} (candidates es : List Nat) :
    (candidates.foldl (addEnd nrows) es).length
      ≤ es.length + candidates.length := by
  induction candidates generalizing es with
  | nil => exact Nat.le_refl _
  | cons e candidates ih =>
      have hstep : (addEnd nrows es e).length ≤ es.length + 1 := by
        unfold addEnd
        split
        · rw [List.length_append, List.length_singleton]
        · omega
      have := ih (addEnd nrows es e)
      rw [List.foldl_cons, List.length_cons]
      omega

theorem pieceBounds_length (nrows nsplits : Nat) (rowAt : Nat → Int)
    (unitStart : Option RowUnitStart) :
    (pieceBounds nrows nsplits rowAt unitStart).length ≤ nsplits - 1 := by
  have := @foldl_addEnd_length nrows
    ((List.range' 1 (nsplits - 1)).map
      (pieceEnd nrows nsplits rowAt unitStart)) []
  rwa [List.length_map, List.length_range', List.length_nil,
    Nat.zero_add] at this

/-- One piece has no bounds inside. -/
theorem pieceBounds_eq_nil {nrows nsplits : Nat} (h : nsplits ≤ 1)
    (rowAt : Nat → Int) (unitStart : Option RowUnitStart) :
    pieceBounds nrows nsplits rowAt unitStart = [] := by
  have hlen := pieceBounds_length nrows nsplits rowAt unitStart
  exact List.length_eq_zero_iff.mp (by omega)

/-- Ends that ascend strictly inside the rows are all kept. -/
theorem foldl_addEnd_eq {nrows : Nat} (candidates es : List Nat)
    (hasc : (es ++ candidates).Pairwise (· < ·))
    (hin : ∀ e ∈ candidates, 0 < e ∧ e < nrows) :
    candidates.foldl (addEnd nrows) es = es ++ candidates := by
  induction candidates generalizing es with
  | nil => rw [List.foldl_nil, List.append_nil]
  | cons e candidates ih =>
      have hlast : es.getLastD 0 < e := by
        rcases List.eq_nil_or_concat es with rfl | ⟨l, last, rfl⟩
        · exact (hin e List.mem_cons_self).1
        · rw [List.concat_eq_append, List.getLastD_concat]
          exact (List.pairwise_append.mp hasc).2.2 last (by simp) e
            List.mem_cons_self
      have hadd : addEnd nrows es e = es ++ [e] :=
        if_pos ⟨hlast, (hin e List.mem_cons_self).2⟩
      rw [List.foldl_cons, hadd, ih (es ++ [e]) (by simpa using hasc)
        fun e' he' => hin e' (List.mem_cons_of_mem _ he')]
      simp

/-- Without storage units the boundaries are the even ones. -/
theorem pieceBounds_even {nrows nsplits : Nat} (hpos : 0 < nsplits)
    (hle : nsplits ≤ nrows) (rowAt : Nat → Int) :
    pieceBounds nrows nsplits rowAt none
      = (List.range' 1 (nsplits - 1)).map fun split => split * nrows / nsplits := by
  have hstep : ∀ a b : Nat, a < b → a * nrows / nsplits < b * nrows / nsplits := by
    intro a b hab
    have hmul : a * nrows + nsplits ≤ b * nrows := by
      have := Nat.mul_le_mul_right nrows hab
      rw [Nat.succ_mul] at this
      omega
    calc a * nrows / nsplits
        < (a * nrows + nsplits) / nsplits := by
          rw [Nat.add_div_right _ hpos]
          exact Nat.lt_succ_self _
      _ ≤ b * nrows / nsplits := Nat.div_le_div_right hmul
  refine foldl_addEnd_eq _ [] ?_ ?_
  · rw [List.nil_append, List.pairwise_map]
    exact List.Pairwise.imp (hstep _ _) List.pairwise_lt_range'
  · intro e he
    obtain ⟨split, hsplit, rfl⟩ := List.mem_map.mp he
    have hrange := List.mem_range'_1.mp hsplit
    have hlo := hstep 0 split (by omega)
    have hhi := hstep split nsplits (by omega)
    rw [Nat.mul_div_cancel_left _ hpos] at hhi
    exact ⟨Nat.lt_of_le_of_lt (Nat.zero_le _) hlo, hhi⟩

/-- Even pieces differ by at most one row. -/
theorem evenSizes {nrows nsplits : Nat} (hpos : 0 < nsplits)
    (hle : nsplits ≤ nrows) (rowAt : Nat → Int) :
    ∀ n ∈ pieceSizes (pieceBounds nrows nsplits rowAt none) nrows,
      nrows / nsplits ≤ n ∧ n ≤ nrows / nsplits + 1 := by
  set even : Nat → Nat := fun split => split * nrows / nsplits with heven
  have hbounds := pieceBounds_even hpos hle rowAt
  have hends : pieceBounds nrows nsplits rowAt none ++ [nrows]
      = (List.range nsplits).map fun split => even (split + 1) := by
    obtain ⟨n, rfl⟩ : ∃ n, nsplits = n + 1 := ⟨nsplits - 1, by omega⟩
    have hlast : even (n + 1) = nrows := Nat.mul_div_cancel_left nrows hpos
    rw [hbounds, List.range_succ, List.map_append, List.map_singleton, hlast,
      Nat.add_sub_cancel, List.range'_eq_map_range, List.map_map]
    congr 1
    refine List.map_congr_left fun split _ => ?_
    rw [Function.comp_apply, Nat.add_comm]
  have hstarts : 0 :: pieceBounds nrows nsplits rowAt none
      = (List.range nsplits).map even := by
    obtain ⟨n, rfl⟩ : ∃ n, nsplits = n + 1 := ⟨nsplits - 1, by omega⟩
    have hzero : even 0 = 0 := by simp [heven]
    rw [hbounds, List.range_eq_range', List.range'_succ, List.map_cons, hzero,
      Nat.add_sub_cancel]
  intro n hn
  rw [pieceSizes, hends, hstarts, List.zipWith_map, List.zipWith_self,
    List.mem_map] at hn
  obtain ⟨split, -, rfl⟩ := hn
  -- adding the row count moves the quotient by its own quotient, or one more
  have hmul : (split + 1) * nrows = split * nrows + nrows := Nat.succ_mul _ _
  have hlo : split * nrows / nsplits + nrows / nsplits
      ≤ (split * nrows + nrows) / nsplits := Nat.div_add_div_le_add_div
  have hhi := Nat.add_div_le_div_add_div_add_one (split * nrows) nrows nsplits
  simp only [heven, hmul]
  generalize (split * nrows + nrows) / nsplits = next at *
  generalize split * nrows / nsplits = now at *
  generalize nrows / nsplits = step at *
  omega

-- =============================================================== the split

/-- Splitting loses nothing, whatever the alignment function: it
terminates, keeps the spans of missing rows whole and every pair of
indices in its place, and cuts the rows read from disk at the
boundaries of at most `nsplits` pieces. -/
theorem splitRowSpans_lossless (spans : SpanPairs) (nrows nsplits : Nat)
    (unitStart : Option RowUnitStart)
    (haligned : ∀ s ∈ spans, s.disk.length = s.mem.length)
    (hne : ∀ s ∈ spans, s.disk ≠ []) (hsign : spans.Signed)
    (hrows : nrows
      = (spans.flatMap SpanPair.disk).countP fun i => decide (0 ≤ i))
    (hpos : 1 ≤ nsplits) (hle : nsplits ≤ nrows) :
    ∃ groups bounds,
      splitRowSpans spans nrows nsplits unitStart = .ok groups.flatten
      ∧ List.Forall₂ (fun s parts => parts.flatMap SpanPair.pairs = s.pairs
          ∧ ((∀ i ∈ s.disk, i < 0) → parts = [s])) spans groups
      ∧ (∀ s ∈ groups.flatten, s.disk ≠ [] ∧ s.disk.length = s.mem.length)
      ∧ groups.flatten.flatMap SpanPair.pairs = spans.flatMap SpanPair.pairs
      ∧ bounds.length < nsplits ∧ bounds.Pairwise (· < ·)
      ∧ (∀ b ∈ bounds, 0 < b ∧ b < nrows)
      ∧ (∀ q, q ∈ rowEnds groups.flatten ↔ q ∈ rowEnds spans ∨ q ∈ bounds)
      ∧ (unitStart = none → ∀ m ∈ pieceSizes bounds nrows,
          ∀ n ∈ pieceSizes bounds nrows, m ≤ n + 1) := by
  rw [← readRows_eq_countP hsign] at hrows
  obtain ⟨groups, hok, hgroups⟩ :=
    splitRowSpans_groups haligned nsplits unitStart
  rw [← hrows] at hok hgroups
  set bounds := pieceBounds nrows nsplits (rowAt (readSpans spans)) unitStart
    with hbounds
  obtain ⟨hasc, hin⟩ := pieceBounds_ascending nrows nsplits
    (rowAt (readSpans spans)) unitStart
  have hrefines := hgroups.refines
  refine ⟨groups, bounds, hok, hgroups.forall₂ haligned,
    fun s hs => ⟨hrefines.nonempty hne s hs, hrefines.length_eq s hs⟩,
    hrefines.pairs_eq haligned, ?_, hasc, hin, fun q => ?_, ?_⟩
  · have hlen : bounds.length ≤ nsplits - 1 := pieceBounds_length _ _ _ _
    omega
  · have hmem : ∀ x, x ∈ pieceEnds nrows nsplits (rowAt (readSpans spans))
        unitStart ↔ x ∈ bounds ∨ x = nrows := by
      intro x
      exact List.mem_append.trans (or_congr_right List.mem_singleton)
    rw [rowEnds, rowEnds, hgroups.ends_iff hne hsign q, hmem, Nat.zero_add,
      ← hrows]
    refine or_congr_right ⟨?_, fun hq => ?_⟩
    · intro hx
      obtain ⟨hq | rfl, -, hlt⟩ := hx
      · exact hq
      · exact absurd hlt (Nat.lt_irrefl _)
    · exact ⟨.inl hq, hin q hq⟩
  · intro heq m hm n hn
    subst heq
    have h₁ := evenSizes hpos hle _ m hm
    have h₂ := evenSizes hpos hle _ n hn
    omega

/-- Three rows read from disk, in two spans around a missing one, are
split in two under units no row starts. -/
theorem splitRowSpans_lossless_sample :
    ∃ (groups : List SpanPairs) (bounds : List Nat),
      splitRowSpans [⟨[1, 2], [0, 1]⟩, ⟨[-1], [2]⟩, ⟨[7], [3]⟩] 3 2
          (some fun r => r + 1) = .ok groups.flatten
      ∧ groups.flatten.flatMap SpanPair.pairs
          = [(1, 0), (2, 1), (-1, 2), (7, 3)]
      ∧ bounds.length < 2 := by
  obtain ⟨groups, bounds, hok, -, -, hpairs, hlen, -⟩ := splitRowSpans_lossless
    [⟨[1, 2], [0, 1]⟩, ⟨[-1], [2]⟩, ⟨[7], [3]⟩] 3 2 (some fun r => r + 1)
    (by decide) (by decide) (by unfold SpanPairs.Signed; decide) (by decide)
    (by decide) (by decide)
  exact ⟨groups, bounds, hok, hpairs, hlen⟩

end Arcae
