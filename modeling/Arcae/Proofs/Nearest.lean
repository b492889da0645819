/-
Where the rows are cut, under storage units.

The boundaries that `SplitRowSpans` keeps are those nearest to the even
ones among the starts and ends of the units, as the selection has them:
a unit starts at its first selected row, which need not be its own
first. No two rows on either side of a boundary are in one unit, so
that the pieces of one span of rows have no unit in common.
-/
import Arcae.Proofs.Align

namespace Arcae

/-- The rows read from disk, over all spans. -/
def diskRows (spans : SpanPairs) : List Int :=
  (spans.filter SpanPair.isRead).flatMap SpanPair.disk

theorem diskRows_nonneg {spans : SpanPairs} (hsign : spans.Signed) :
    ∀ i ∈ diskRows spans, 0 ≤ i := by
  intro i hi
  rw [diskRows, hsign.read_disk] at hi
  exact of_decide_eq_true (List.mem_filter.mp hi).2

theorem diskRows_length {spans : SpanPairs} (hsign : spans.Signed) :
    (diskRows spans).length = DataPartition.readRows spans := by
  rw [diskRows, hsign.read_disk, readRows_eq_countP hsign,
    List.countP_eq_length_filter]

/-- A monotone alignment function that takes each row to a fixed point
before it divides the rows into units. -/
theorem units_of_monotone {unitStart : RowUnitStart}
    (hmono : ∀ r r', r ≤ r' → unitStart r ≤ unitStart r')
    (hidem : ∀ r, unitStart (unitStart r) = unitStart r)
    (hle : ∀ r, unitStart r ≤ r) : Units unitStart := by
  refine ⟨hle, fun row row' hlo hhi => Nat.le_antisymm (hmono _ _ hhi) ?_⟩
  rw [← hidem row]
  exact hmono _ _ hlo

/-- The parts of spans are read from disk as the spans are. -/
theorem Refines.signed {spans parts : SpanPairs} (h : Refines spans parts)
    (hsign : spans.Signed) : parts.Signed := by
  intro part hpart
  obtain ⟨s, hs, hin⟩ := h.isInfix part hpart
  rcases hsign s hs with hneg | hpos
  · exact .inl fun i hi => hneg i (hin.subset hi)
  · exact .inr fun i hi => hpos i (hin.subset hi)

theorem Refines.diskRows_eq {spans parts : SpanPairs} (h : Refines spans parts)
    (hsign : spans.Signed) : diskRows parts = diskRows spans := by
  rw [diskRows, diskRows, (h.signed hsign).read_disk, hsign.read_disk,
    h.disk_eq]

/-- One span of rows read from disk ends at the last row. -/
theorem rowEnds_of_one {spans : SpanPairs}
    (hone : (spans.filter SpanPair.isRead).length ≤ 1) {q : Nat}
    (hq : q ∈ rowEnds spans) : q = (diskRows spans).length := by
  rw [rowEnds] at hq
  rw [diskRows]
  cases hread : spans.filter SpanPair.isRead with
  | nil =>
      rw [hread] at hq
      cases hq
  | cons s rest =>
      rw [hread, List.length_cons] at hone
      have hnil : rest = [] := List.length_eq_zero_iff.mp (by omega)
      rw [hread, hnil, endsFrom_cons, endsFrom_nil, List.mem_singleton,
        Nat.zero_add] at hq
      rw [hq, hnil, List.flatMap_singleton]

/-- Rows that ascend strictly are cut where a unit ends: each even
boundary is moved to the nearest position between the unit of the row
there and its neighbours, the boundaries inside the rows are kept, and
nothing else is cut. The rows on either side of a boundary are in
different units, and so are those of two pieces of one span. -/
theorem splitRowSpans_aligned (spans : SpanPairs) (nrows nsplits : Nat)
    (unitStart : RowUnitStart)
    (haligned : ∀ s ∈ spans, s.disk.length = s.mem.length)
    (hne : ∀ s ∈ spans, s.disk ≠ []) (hsign : spans.Signed)
    (hasc : (diskRows spans).Pairwise (· < ·))
    (hrows : nrows = (diskRows spans).length)
    (hpos : 1 ≤ nsplits) (hle : nsplits ≤ nrows)
    (hmono : ∀ r r', r ≤ r' → unitStart r ≤ unitStart r')
    (hidem : ∀ r, unitStart (unitStart r) = unitStart r)
    (hunit : ∀ r, unitStart r ≤ r) :
    ∃ (groups : List SpanPairs) (bounds : List Nat),
      splitRowSpans spans nrows nsplits (some unitStart) = .ok groups.flatten
      ∧ List.Forall₂ (fun s parts => parts.flatMap SpanPair.pairs = s.pairs
          ∧ ((∀ i ∈ s.disk, i < 0) → parts = [s])) spans groups
      ∧ (∀ q, q ∈ rowEnds groups.flatten ↔ q ∈ rowEnds spans ∨ q ∈ bounds)
      ∧ (∀ e, e ∈ bounds ↔ 0 < e ∧ e < nrows
          ∧ ∃ split, 1 ≤ split ∧ split < nsplits
            ∧ IsNearest unitStart (fun p => (diskRows spans).getD p 0) nrows
                (split * nrows / nsplits) e)
      ∧ (∀ p < nrows,
          IsNearest unitStart (fun p => (diskRows spans).getD p 0) nrows p
            (alignBoundary p nrows (rowAt (readSpans spans)) unitStart))
      ∧ (∀ b ∈ bounds, ∀ p < b, ∀ q < nrows, b ≤ q →
          unitStart ((diskRows spans).getD p 0).toNat
            < unitStart ((diskRows spans).getD q 0).toNat)
      ∧ ((spans.filter SpanPair.isRead).length ≤ 1 →
          ∀ s ∈ groups.flatten, ∀ s' ∈ groups.flatten, ∀ r ∈ s.disk,
            ∀ r' ∈ s'.disk, 0 ≤ r → 0 ≤ r' →
            unitStart r.toNat = unitStart r'.toNat → s = s') := by
  have hu := units_of_monotone hmono hidem hunit
  have hread : DataPartition.readRows spans = nrows := by
    rw [hrows, diskRows_length hsign]
  have hrowAt : rowAt (readSpans spans)
      = fun p => (diskRows spans).getD p 0 := by
    funext p
    exact rowAt_readSpans spans p
  have hascend : RowsAscend (fun p => (diskRows spans).getD p 0) nrows := by
    rw [hrows]
    exact rowsAscend_of_pairwise hasc (diskRows_nonneg hsign)
  obtain ⟨groups, hok, hgroups⟩ :=
    splitRowSpans_groups haligned nsplits (some unitStart)
  rw [hread, hrowAt] at hgroups
  rw [hread] at hok
  have hrefines := hgroups.refines
  set bounds := pieceBounds nrows nsplits
    (fun p => (diskRows spans).getD p 0) (some unitStart) with hbounds
  have hin := (pieceBounds_ascending nrows nsplits
    (fun p => (diskRows spans).getD p 0) (some unitStart)).2
  have hends : ∀ q, q ∈ rowEnds groups.flatten
      ↔ q ∈ rowEnds spans ∨ q ∈ bounds := by
    intro q
    rw [rowEnds, rowEnds, hgroups.ends_iff hne hsign q, hread, Nat.zero_add]
    refine or_congr_right ⟨fun hcut => ?_, fun hq => ?_⟩
    · obtain ⟨hq, hlo, hhi⟩ := hcut
      rcases List.mem_append.mp hq with hq | hq
      · exact hq
      · exact absurd (List.mem_singleton.mp hq) (Nat.ne_of_lt hhi)
    · exact ⟨List.mem_append_left _ hq, hin q hq⟩
  have hbetween : ∀ b ∈ bounds,
      BetweenUnits unitStart (fun p => (diskRows spans).getD p 0) b :=
    fun b hb => pieceBounds_between hu hascend hb
  refine ⟨groups, bounds, hok, hgroups.forall₂ haligned, hends,
    fun e => mem_pieceBounds hu hascend (by omega), fun p hp => ?_,
    fun b hb p hpb q hq hbq => ?_, fun hone s hs s' hs' r hr r' hr' h0 h0' =>
      ?_⟩
  · rw [hrowAt]
    exact alignBoundary_nearest hu hascend hp
  · calc unitStart ((diskRows spans).getD p 0).toNat
        ≤ unitStart ((diskRows spans).getD (b - 1) 0).toNat :=
          hascend.units hu (by omega) (by omega)
      _ < unitStart ((diskRows spans).getD b 0).toNat := hbetween b hb
      _ ≤ unitStart ((diskRows spans).getD q 0).toNat :=
          hascend.units hu hbq hq
  · refine eq_of_same_unit hu (hrefines.signed hsign)
      (hrefines.diskRows_eq hsign) hasc (fun e he hlt => ?_) hs hs' hr hr' h0
      h0'
    rcases (hends e).mp he with hspan | hbound
    · exact absurd hlt (Nat.not_lt_of_le
        (Nat.le_of_eq (rowEnds_of_one hone hspan).symm))
    · exact hbetween e hbound

/-- Units of four rows, of which the second has lost its own first row
to the selection: the even boundary falls inside it, as near to its
first selected row as to its end, and moves down. -/
theorem splitRowSpans_aligned_sample :
    ∃ groups : List SpanPairs,
      splitRowSpans [⟨[0, 5, 6, 8, 9], [0, 1, 2, 3, 4]⟩] 5 2
          (some fun r => r / 4 * 4) = .ok groups.flatten
      ∧ 1 ∈ rowEnds groups.flatten := by
  obtain ⟨groups, bounds, hok, -, hends, hbounds, hnearest, -⟩ :=
    splitRowSpans_aligned [⟨[0, 5, 6, 8, 9], [0, 1, 2, 3, 4]⟩] 5 2
      (fun r => r / 4 * 4) (by decide) (by decide)
      (by unfold SpanPairs.Signed; decide) (by decide) (by decide) (by decide)
      (by decide) (fun r r' h => Nat.mul_le_mul_right 4 (Nat.div_le_div_right h))
      (fun r => by omega) (fun r => by omega)
  refine ⟨groups, hok, (hends 1).mpr (.inr ((hbounds 1).mpr ?_))⟩
  exact ⟨by decide, by decide, 1, by decide, by decide,
    hnearest 2 (by decide)⟩

end Arcae
