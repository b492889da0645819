/-
The spans of one dimension: what sorting keeps, and what cutting keeps.

A dimension starts as a list of disk indices, one per memory index.
`Arranged` says that a span is that list put in order with every index
still beside its memory index; sorted, unselected and padded spans all
are (`makeSortedIndices_arranged`, `arranged_monotonic`). `CutSpans`
says that a list of spans is one span cut into runs: nothing lost, every
piece either all negative or all non-negative and ascending, and
consecutive unless the whole range is wanted.

`makeSubSpans` does exactly that on a sorted span, and fails with an
IndexError exactly when a non-negative index occurs twice
(`makeSubSpans_ok`, `makeSubSpans_error`). The loop is followed by
`CutInv`, which holds before each turn.
-/
import Arcae.Spec.Plan
import Arcae.Lib.Loops
import Mathlib.Data.List.Chain

namespace Arcae

-- =========================================================== vocabulary

/-- Each index follows the one before. -/
def Consecutive (l : List Int) : Prop := l.IsChain fun a b => a + 1 = b

/-- The disk indices of one sub-span: all missing, or ascending, and
without gaps unless the entire range was asked for. -/
def IsRun (entireRange : Bool) (l : List Int) : Prop :=
  (∀ i ∈ l, i < 0)
    ∨ ((∀ i ∈ l, 0 ≤ i) ∧ l.Pairwise (· < ·)
        ∧ (entireRange = false → Consecutive l))

/-- The span is `ids` in ascending order, each index still paired with
its position. -/
structure Arranged (span : SpanPair) (ids : Index) : Prop where
  length_eq : span.disk.length = span.mem.length
  sorted : span.disk.Pairwise (· ≤ ·)
  perm : span.pairs.Perm (indexed ids)

/-- The spans are `span` cut into runs. A run of non-negative indices
that needs no cut is not cut. -/
structure CutSpans (span : SpanPair) (entireRange : Bool)
    (spans : SpanPairs) : Prop where
  disk_eq : spans.flatMap SpanPair.disk = span.disk
  mem_eq : spans.flatMap SpanPair.mem = span.mem
  length_eq : ∀ s ∈ spans, s.disk.length = s.mem.length
  run : ∀ s ∈ spans, IsRun entireRange s.disk
  ne_nil : spans ≠ []
  nonempty : span.disk ≠ [] → ∀ s ∈ spans, s.disk ≠ []
  uncut : entireRange = false → Gapless span.disk → ∀ s ∈ spans,
    (∃ i ∈ s.disk, 0 ≤ i) → ∀ p ∈ span.pairs, 0 ≤ p.1 → p ∈ s.pairs

theorem NoRepeat.perm {ids ids' : Index} (h : ids.Perm ids') :
    NoRepeat ids ↔ NoRepeat ids' :=
  (h.filter _).nodup_iff

-- ============================================================ arrangement

/-- `MakeSortedIndices` arranges its indices. -/
theorem makeSortedIndices_arranged (srt : StdSort) (ids : Index) :
    Arranged (makeSortedIndices srt ids) ids := by
  unfold makeSortedIndices
  split
  case isTrue hsorted =>
    exact ⟨by simp, hsorted, List.Perm.refl _⟩
  case isFalse =>
    set key : Nat → Int := fun i => ids.getD i 0 with hkey
    have hperm := srt.perm key (List.range ids.length)
    refine ⟨by simp, ?_, ?_⟩
    · exact List.pairwise_map.mpr (srt.sorted key (List.range ids.length))
    · have hpairs : (SpanPair.mk
          ((srt.sort key (List.range ids.length)).map key)
          (srt.sort key (List.range ids.length))).pairs
          = (srt.sort key (List.range ids.length)).map
              fun i => (key i, i) := by
        unfold SpanPair.pairs
        rw [List.zip_map_left]
        induction srt.sort key (List.range ids.length) with
        | nil => rfl
        | cons a l ih => simpa using ih
      show (SpanPair.mk _ _).pairs.Perm _
      rw [hpairs, indexed_eq_map]
      exact hperm.map _

/-- The ascending ids of an unselected dimension are arranged. -/
theorem arranged_monotonic (n : Nat) :
    Arranged ⟨monotonicIds n, List.range n⟩ (monotonicIds n) := by
  refine ⟨by simp, ?_, ?_⟩
  · refine List.pairwise_map.mpr (List.pairwise_lt_range.imp ?_)
    intro a b hab
    exact Int.ofNat_le.mpr (Nat.le_of_lt hab)
  · rw [indexed, monotonicIds_length]
    exact List.Perm.refl _

/-- Arranging moves no index. -/
theorem Arranged.disk_perm {span : SpanPair} {ids : Index}
    (h : Arranged span ids) : span.disk.Perm ids := by
  have hlen := h.length_eq
  have hmap := h.perm.map Prod.fst
  rwa [SpanPair.pairs, List.map_fst_zip (by omega), indexed_map_fst] at hmap

theorem Arranged.mem_perm {span : SpanPair} {ids : Index}
    (h : Arranged span ids) : span.mem.Perm (List.range ids.length) := by
  have hlen := h.length_eq
  have hmap := h.perm.map Prod.snd
  rwa [SpanPair.pairs, List.map_snd_zip (by omega), indexed_map_snd] at hmap

/-- A pair of an arranged span is an index beside its position. -/
theorem Arranged.pair {span : SpanPair} {ids : Index} (h : Arranged span ids)
    {p : Int × Nat} (hp : p ∈ span.pairs) :
    p.2 < ids.length ∧ p.1 = ids.getD p.2 0 := by
  have hmem := h.perm.mem_iff.mp hp
  rw [indexed_eq_map] at hmem
  obtain ⟨i, hi, rfl⟩ := List.mem_map.mp hmem
  exact ⟨List.mem_range.mp hi, rfl⟩

-- ============================================================== segments

/-- The elements at positions `[a, b)`. -/
def segment {α : Type} (l : List α) (a b : Nat) : List α :=
  (l.drop a).take (b - a)

theorem subSpan_eq (disk : List Int) (mem : List Nat) (a b : Nat) :
    subSpan disk mem a b = ⟨segment disk a b, segment mem a b⟩ := rfl

theorem take_append_segment {α : Type} (l : List α) {a b : Nat} (h : a ≤ b) :
    l.take a ++ segment l a b = l.take b := by
  rw [segment, ← List.take_add, Nat.add_sub_cancel' h]

theorem segment_length {α : Type} (l : List α) {a b : Nat}
    (hb : b ≤ l.length) : (segment l a b).length = b - a := by
  rw [segment, List.length_take, List.length_drop]
  omega

theorem segment_succ (l : List Int) {a b : Nat} (h : a ≤ b)
    (hb : b < l.length) :
    segment l a (b + 1) = segment l a b ++ [l.getD b 0] := by
  have hsub : b + 1 - a = b - a + 1 := by omega
  have hab : a + (b - a) = b := by omega
  rw [segment, hsub, List.take_add_one, List.getElem?_drop, hab,
    List.getD_eq_getElem?_getD, List.getElem?_eq_getElem hb]
  rfl

@[simp] theorem segment_self {α : Type} (l : List α) (a : Nat) :
    segment l a a = [] := by
  simp [segment]

theorem mem_segment {l : List Int} {a b : Nat} {x : Int}
    (h : x ∈ segment l a b) :
    ∃ j, a ≤ j ∧ j < b ∧ j < l.length ∧ l.getD j 0 = x := by
  obtain ⟨k, hk, rfl⟩ := List.mem_iff_getElem.mp h
  rw [segment, List.length_take, List.length_drop] at hk
  refine ⟨a + k, by omega, by omega, by omega, ?_⟩
  have hak : a + k < l.length := by omega
  simp [segment, List.getD_eq_getElem?_getD, List.getElem?_eq_getElem hak]

theorem getD_mem_segment {l : List Int} {a b j : Nat} (ha : a ≤ j)
    (hb : j < b) (hj : j < l.length) : l.getD j 0 ∈ segment l a b := by
  refine List.mem_iff_getElem.mpr ⟨j - a, ?_, ?_⟩
  · rw [segment, List.length_take, List.length_drop]
    omega
  · have haj : a + (j - a) = j := by omega
    simp [segment, haj, List.getD_eq_getElem?_getD,
      List.getElem?_eq_getElem hj]

/-- A sorted list ascends from any position to any later one. -/
theorem getD_le_of_sorted {l : List Int} (hs : l.Pairwise (· ≤ ·))
    {j k : Nat} (hjk : j ≤ k) (hk : k < l.length) :
    l.getD j 0 ≤ l.getD k 0 := by
  have hj : j < l.length := by omega
  rw [List.getD_eq_getElem?_getD, List.getD_eq_getElem?_getD,
    List.getElem?_eq_getElem hj, List.getElem?_eq_getElem hk]
  rcases Nat.lt_or_eq_of_le hjk with hlt | rfl
  · exact List.pairwise_iff_getElem.mp hs j k hj hk hlt
  · exact Int.le_refl _

-- =================================================================== runs

theorem isRun_nil (e : Bool) : IsRun e [] := .inl (by simp)

theorem isRun_singleton (e : Bool) (x : Int) : IsRun e [x] := by
  rcases lt_or_ge x 0 with hx | hx
  · exact .inl (by simpa using hx)
  · exact .inr ⟨by simpa using hx, List.pairwise_singleton _ _,
      fun _ => List.isChain_singleton x⟩

/-- A run goes on with a larger non-negative index, one larger if gaps
matter. -/
theorem IsRun.snoc {e : Bool} {l : List Int} {x last : Int} (h : IsRun e l)
    (hlast : l.getLast? = some last) (hnn : 0 ≤ last)
    (hle : ∀ y ∈ l, y ≤ last) (hlt : last < x)
    (hstep : e = false → last + 1 = x) : IsRun e (l ++ [x]) := by
  have hmem : last ∈ l := List.mem_of_getLast? hlast
  rcases h with hneg | ⟨hpos, hasc, hcons⟩
  · exact absurd (hneg last hmem) (by omega)
  · refine .inr ⟨?_, ?_, ?_⟩
    · intro i hi
      rcases List.mem_append.mp hi with hi | hi
      · exact hpos i hi
      · rw [List.mem_singleton.mp hi]
        omega
    · refine List.pairwise_append.mpr
        ⟨hasc, List.pairwise_singleton _ _, fun a ha b hb => ?_⟩
      rw [List.mem_singleton.mp hb]
      have := hle a ha
      omega
    · intro he
      refine List.isChain_append.mpr
        ⟨hcons he, List.isChain_singleton x, fun a ha b hb => ?_⟩
      rw [hlast] at ha
      rw [List.head?_cons] at hb
      cases ha
      cases hb
      exact hstep he

/-- The elements of a run agree on their sign. -/
theorem IsRun.sign {e : Bool} {l : List Int} (h : IsRun e l) :
    (∀ i ∈ l, i < 0) ∨ ∀ i ∈ l, 0 ≤ i := by
  rcases h with h | ⟨h, -, -⟩
  · exact .inl h
  · exact .inr h

/-- A consecutive list is the range from its first element to its
last. -/
theorem Consecutive.eq_range {l : List Int} (h : Consecutive l)
    (hne : l ≠ []) :
    l = TableColumn.slicerRange (l.headD 0, l.getLastD 0) := by
  have key : ∀ (l : List Int) (a : Int), Consecutive (a :: l) →
      a :: l = (List.range (l.length + 1)).map (fun i : Nat => a + (i : Int))
        ∧ (a :: l).getLastD 0 = a + l.length := by
    intro l
    induction l with
    | nil => intro a _; exact ⟨by simp, by simp⟩
    | cons b l ih =>
        intro a hc
        obtain ⟨hab, hc'⟩ := List.isChain_cons_cons.mp hc
        obtain ⟨hrange, hlast⟩ := ih b hc'
        constructor
        · rw [List.length_cons, List.range_succ_eq_map, List.map_cons,
            List.map_map]
          congr 1
          · simp
          · rw [hrange]
            refine List.map_congr_left fun i _ => ?_
            simp only [Function.comp_apply, Nat.succ_eq_add_one,
              Nat.cast_add, Nat.cast_one]
            omega
        · have hcons : (a :: b :: l).getLastD 0 = (b :: l).getLastD 0 := by
            simp [List.getLastD_eq_getLast?]
          rw [hcons, hlast, List.length_cons]
          push_cast
          omega
  cases l with
  | nil => exact absurd rfl hne
  | cons a l =>
      obtain ⟨hrange, hlast⟩ := key l a h
      rw [hlast, List.headD_cons, TableColumn.slicerRange]
      have hlen : (a + (l.length : Int) - a + 1).toNat = l.length + 1 := by
        omega
      rw [hlen]
      exact hrange

-- ============================================================ the cut loop

/-- Before turn `i` of the sub-span loop: the spans cut so far are the
span up to `start`, the open segment is a run, and no non-negative index
was seen twice. -/
structure CutInv (disk : List Int) (mem : List Nat) (entireRange : Bool)
    (i : Nat) (st : SubSpanState) : Prop where
  start_lt : st.start < i
  le_length : i ≤ disk.length
  disk_eq : st.result.flatMap SpanPair.disk = disk.take st.start
  mem_eq : st.result.flatMap SpanPair.mem = mem.take st.start
  closed : ∀ s ∈ st.result, s.disk.length = s.mem.length ∧ s.disk ≠ []
    ∧ IsRun entireRange s.disk
  openRun : IsRun entireRange (segment disk st.start i)
  ascends : ∀ j, 0 < j → j < i → 0 ≤ disk.getD j 0 →
    disk.getD (j - 1) 0 < disk.getD j 0
  /-- Only a gap ends a span of non-negative indices. -/
  gap : (∃ s ∈ st.result, ∃ x ∈ s.disk, 0 ≤ x) → entireRange = false
    ∧ ∃ j, 0 < j ∧ j < disk.length ∧ 0 ≤ disk.getD (j - 1) 0
      ∧ disk.getD (j - 1) 0 + 1 < disk.getD j 0

section CutLoop

variable {disk : List Int} {mem : List Nat} {entireRange : Bool}

theorem cutInv_init (hne : disk ≠ []) :
    CutInv disk mem entireRange 1 ⟨0, []⟩ := by
  have hpos : 0 < disk.length := List.length_pos_iff.mpr hne
  refine ⟨Nat.zero_lt_one, hpos, rfl, rfl, by simp, ?_, ?_, by simp⟩
  · rw [segment_succ disk (Nat.le_refl 0) hpos, segment_self]
    exact isRun_singleton _ _
  · intro j hj hj1
    omega

/-- Closing the open span keeps the invariant: the new open segment is
one index. -/
theorem CutInv.cut {i : Nat} {st : SubSpanState}
    (h : CutInv disk mem entireRange i st) (hlen : disk.length = mem.length)
    (hi : i < disk.length)
    (hasc : 0 ≤ disk.getD i 0 → disk.getD (i - 1) 0 < disk.getD i 0)
    (hgap : (∀ x ∈ segment disk st.start i, x < 0) ∨ entireRange = false
      ∧ 0 ≤ disk.getD (i - 1) 0
      ∧ disk.getD (i - 1) 0 + 1 < disk.getD i 0) :
    CutInv disk mem entireRange (i + 1) (makeSubSpan disk mem st i) := by
  have hsi := Nat.le_of_lt h.start_lt
  refine ⟨Nat.lt_succ_self i, hi, ?_, ?_, ?_, ?_, ?_, ?_⟩
  · show (st.result ++ [subSpan disk mem st.start i]).flatMap _ = disk.take i
    rw [List.flatMap_append, h.disk_eq, List.flatMap_singleton]
    exact take_append_segment disk hsi
  · show (st.result ++ [subSpan disk mem st.start i]).flatMap _ = mem.take i
    rw [List.flatMap_append, h.mem_eq, List.flatMap_singleton]
    exact take_append_segment mem hsi
  · intro s hs
    rcases List.mem_append.mp hs with hs | hs
    · exact h.closed s hs
    · rw [List.mem_singleton.mp hs]
      have hd := segment_length disk (a := st.start) h.le_length
      have hm := segment_length mem (a := st.start) (hlen ▸ h.le_length)
      refine ⟨by rw [subSpan_eq, hd, hm], ?_, h.openRun⟩
      have hlt := h.start_lt
      exact List.ne_nil_of_length_pos (by rw [subSpan_eq, hd]; omega)
  · show IsRun entireRange (segment disk i (i + 1))
    rw [segment_succ disk (Nat.le_refl i) hi, segment_self]
    exact isRun_singleton _ _
  · intro j hj hji hnn
    rcases Nat.lt_or_eq_of_le (Nat.lt_succ_iff.mp hji) with hlt | rfl
    · exact h.ascends j hj hlt hnn
    · exact hasc hnn
  · intro hx
    obtain ⟨s, hs, x, hx, hnn⟩ := hx
    rcases List.mem_append.mp hs with hs | hs
    · exact h.gap ⟨s, hs, x, hx, hnn⟩
    · rw [List.mem_singleton.mp hs] at hx
      rcases hgap with hneg | ⟨he, hprev, hjump⟩
      · exact absurd (hneg x hx) (by omega)
      · exact ⟨he, i, by have := h.start_lt; omega, hi, hprev, hjump⟩

/-- Going on with the open span keeps the invariant if the longer
segment is still a run. -/
theorem CutInv.advance {i : Nat} {st : SubSpanState}
    (h : CutInv disk mem entireRange i st) (hi : i < disk.length)
    (hrun : IsRun entireRange (segment disk st.start i ++ [disk.getD i 0]))
    (hasc : 0 ≤ disk.getD i 0 → disk.getD (i - 1) 0 < disk.getD i 0) :
    CutInv disk mem entireRange (i + 1) st := by
  refine ⟨Nat.lt_succ_of_lt h.start_lt, hi, h.disk_eq, h.mem_eq, h.closed,
    ?_, ?_, h.gap⟩
  · rw [segment_succ disk (Nat.le_of_lt h.start_lt) hi]
    exact hrun
  · intro j hj hji hnn
    rcases Nat.lt_or_eq_of_le (Nat.lt_succ_iff.mp hji) with hlt | rfl
    · exact h.ascends j hj hlt hnn
    · exact hasc hnn

/-- The index before `i` closes the open segment, and bounds it. -/
theorem CutInv.last {i : Nat} {st : SubSpanState}
    (h : CutInv disk mem entireRange i st)
    (hs : disk.Pairwise (· ≤ ·)) :
    (segment disk st.start i).getLast? = some (disk.getD (i - 1) 0)
      ∧ ∀ y ∈ segment disk st.start i, y ≤ disk.getD (i - 1) 0 := by
  have hlt := h.start_lt
  have hle := h.le_length
  have hi : i - 1 + 1 = i := by omega
  constructor
  · rw [← hi, segment_succ disk (by omega) (by omega), hi,
      List.getLast?_concat]
  · intro y hy
    obtain ⟨j, -, hji, hj, rfl⟩ := mem_segment hy
    exact getD_le_of_sorted hs (by omega) (by omega)

/-- A turn that succeeds keeps the invariant. -/
theorem CutInv.step (hlen : disk.length = mem.length)
    (hs : disk.Pairwise (· ≤ ·)) {i : Nat} {st st' : SubSpanState}
    (hi : i < disk.length) (h : CutInv disk mem entireRange i st)
    (hstep : makeSubSpansStep disk mem entireRange st i = .ok st') :
    CutInv disk mem entireRange (i + 1) st' := by
  have hlt := h.start_lt
  obtain ⟨hlast, hbound⟩ := h.last hs
  have hprev : disk.getD (i - 1) 0 ≤ disk.getD i 0 :=
    getD_le_of_sorted hs (by omega) hi
  have hstart : disk.getD st.start 0 ≤ disk.getD (i - 1) 0 :=
    getD_le_of_sorted hs (by omega) (by omega)
  simp only [makeSubSpansStep] at hstep
  split at hstep
  next hneg =>
    -- a negative index: everything before it is negative too
    cases hstep
    refine h.advance hi (.inl fun y hy => ?_) (by omega)
    rcases List.mem_append.mp hy with hy | hy
    · have := hbound y hy
      omega
    · rwa [List.mem_singleton.mp hy]
  next hnn =>
    split at hstep
    next hsneg =>
      -- the open span is negative, and a run keeps its sign
      cases hstep
      have hin : disk.getD st.start 0 ∈ segment disk st.start i :=
        getD_mem_segment (Nat.le_refl _) hlt (by omega)
      have hin' : disk.getD (i - 1) 0 ∈ segment disk st.start i :=
        getD_mem_segment (by omega) (by omega) (by omega)
      have hall : ∀ x ∈ segment disk st.start i, x < 0 := by
        rcases h.openRun.sign with hall | hall
        · exact hall
        · exact absurd (hall _ hin) (by omega)
      have := hall _ hin'
      exact h.cut hlen hi (fun _ => by omega) (.inl hall)
    next hspos =>
      split at hstep
      next heq => cases hstep
      next hne =>
        have hgt : disk.getD (i - 1) 0 < disk.getD i 0 := by omega
        have hrun : (entireRange = false →
              disk.getD (i - 1) 0 + 1 = disk.getD i 0) →
            IsRun entireRange
              (segment disk st.start i ++ [disk.getD i 0]) :=
          fun hcons => h.openRun.snoc hlast (by omega) hbound hgt hcons
        split at hstep
        next hone =>
          cases hstep
          exact h.advance hi (hrun fun _ => by omega) fun _ => hgt
        next hgap =>
          split at hstep
          next he =>
            cases hstep
            have hf : entireRange = false := by simpa using he
            exact h.cut hlen hi (fun _ => hgt) (.inr ⟨hf, by omega, by omega⟩)
          next he =>
            cases hstep
            refine h.advance hi (hrun fun hf => ?_) fun _ => hgt
            simp [hf] at he

/-- A turn fails only on a repeated non-negative index. -/
theorem makeSubSpansStep_error {i : Nat} {st : SubSpanState} {e : Status}
    (h : makeSubSpansStep disk mem entireRange st i = .error e) :
    (∃ msg, e = .indexError msg) ∧ 0 ≤ disk.getD i 0
      ∧ disk.getD i 0 = disk.getD (i - 1) 0 := by
  simp only [makeSubSpansStep] at h
  split at h
  next => cases h
  next hnn =>
    split at h
    next => cases h
    next =>
      split at h
      next heq =>
        cases h
        exact ⟨⟨_, rfl⟩, by omega, heq⟩
      next =>
        split at h
        next => cases h
        next => split at h <;> cases h

end CutLoop

-- ================================================== the cut, as a whole

/-- Ascending where it is not negative, a list repeats no non-negative
index. -/
theorem noRepeat_of_ascends {l : List Int} (hs : l.Pairwise (· ≤ ·))
    (h : ∀ j, 0 < j → j < l.length → 0 ≤ l.getD j 0 →
      l.getD (j - 1) 0 < l.getD j 0) : NoRepeat l := by
  have hlt : l.Pairwise fun a b => 0 ≤ a → a < b := by
    refine List.pairwise_iff_getElem.mpr fun j k hj hk hjk hnn => ?_
    have hkD : l.getD k 0 = l[k] := by
      simp [List.getD_eq_getElem?_getD, List.getElem?_eq_getElem hk]
    have hjD : l.getD j 0 = l[j] := by
      simp [List.getD_eq_getElem?_getD, List.getElem?_eq_getElem hj]
    have hle := getD_le_of_sorted hs (show j ≤ k - 1 by omega) (by omega)
    have hle' := getD_le_of_sorted hs (show k - 1 ≤ k by omega) hk
    have hstep := h k (by omega) hk (by omega)
    omega
  refine (hlt.filter _).imp_of_mem fun {a b} ha _ hab => ?_
  have hnn : 0 ≤ a := by simpa using (List.mem_filter.mp ha).2
  exact (hab hnn).ne

/-- Two equal neighbours that are not negative are a repetition. -/
theorem not_noRepeat_of_eq {l : List Int} {i : Nat} (hi : 0 < i)
    (hlt : i < l.length) (hnn : 0 ≤ l.getD i 0)
    (heq : l.getD i 0 = l.getD (i - 1) 0) : ¬ NoRepeat l := by
  intro hnodup
  have hpair : l.Pairwise fun a b => 0 ≤ a → 0 ≤ b → a ≠ b := by
    unfold NoRepeat at hnodup
    rw [List.Nodup, List.pairwise_filter] at hnodup
    simpa using hnodup
  have hi1 : i - 1 < l.length := by omega
  have hiD : l.getD i 0 = l[i] := by
    simp [List.getD_eq_getElem?_getD, List.getElem?_eq_getElem hlt]
  have hi1D : l.getD (i - 1) 0 = l[i - 1] := by
    simp [List.getD_eq_getElem?_getD, List.getElem?_eq_getElem hi1]
  refine List.pairwise_iff_getElem.mp hpair (i - 1) i hi1 hlt (by omega)
    ?_ ?_ ?_
  · rw [← hi1D, ← heq]
    exact hnn
  · rw [← hiD]
    exact hnn
  · rw [← hiD, ← hi1D, heq]

/-- A sorted list with a jump has a gap. -/
theorem not_gapless_of_jump {l : List Int} (hs : l.Pairwise (· ≤ ·)) {j : Nat}
    (hj : 0 < j) (hlt : j < l.length) (hnn : 0 ≤ l.getD (j - 1) 0)
    (hjump : l.getD (j - 1) 0 + 1 < l.getD j 0) : ¬ Gapless l := by
  intro hg
  have hmem : ∀ k < l.length, l.getD k 0 ∈ l := by
    intro k hk
    rw [List.getD_eq_getElem?_getD, List.getElem?_eq_getElem hk]
    exact List.getElem_mem hk
  rcases hg _ (hmem (j - 1) (by omega)) hnn with hnext | hlast
  · obtain ⟨k, hk, hget⟩ := List.mem_iff_getElem.mp hnext
    have hkD : l.getD k 0 = l.getD (j - 1) 0 + 1 := by
      rw [List.getD_eq_getElem?_getD, List.getElem?_eq_getElem hk]
      exact hget
    rcases Nat.lt_or_ge k j with hkj | hkj
    · have := getD_le_of_sorted hs (show k ≤ j - 1 by omega) (by omega)
      omega
    · have := getD_le_of_sorted hs hkj hk
      omega
  · have := hlast _ (hmem j hlt)
    omega

section Cut

variable {span : SpanPair} {entireRange : Bool}

/-- If only gaps could have cut it, and there is none, the open span at
the end of the loop holds every non-negative index. -/
theorem CutInv.uncut {disk : List Int} {mem : List Nat} {st : SubSpanState}
    (h : CutInv disk mem entireRange disk.length st)
    (hlen : disk.length = mem.length) (hs : disk.Pairwise (· ≤ ·))
    (hgap : entireRange = true ∨ Gapless disk) :
    ∀ s ∈ (makeSubSpan disk mem st disk.length).result,
      (∃ i ∈ s.disk, 0 ≤ i) → ∀ p ∈ disk.zip mem, 0 ≤ p.1 → p ∈ s.pairs := by
  have hdead : ∀ s ∈ st.result, ∀ x ∈ s.disk, x < 0 := by
    intro s hs' x hx
    by_contra hnn
    obtain ⟨he, j, hj, hlt, hprev, hjump⟩ := h.gap ⟨s, hs', x, hx, by omega⟩
    rcases hgap with he' | hg
    · rw [he] at he'
      cases he'
    · exact not_gapless_of_jump hs hj hlt hprev hjump hg
  intro s hmem ⟨x, hx, hnn⟩ p hp hpnn
  rcases List.mem_append.mp hmem with hmem | hmem
  · exact absurd (hdead s hmem x hx) (by omega)
  · have hsplit : disk.zip mem = (disk.take st.start).zip (mem.take st.start)
        ++ (segment disk st.start disk.length).zip
          (segment mem st.start disk.length) := by
      have hlen' : (disk.take st.start).length = (mem.take st.start).length := by
        rw [List.length_take, List.length_take, hlen]
      rw [← List.zip_append hlen',
        take_append_segment disk (Nat.le_of_lt h.start_lt),
        take_append_segment mem (Nat.le_of_lt h.start_lt), List.take_length,
        hlen, List.take_length]
    rw [hsplit] at hp
    rcases List.mem_append.mp hp with hp | hp
    · have hpd : p.1 ∈ disk.take st.start := (List.of_mem_zip hp).1
      rw [← h.disk_eq, List.mem_flatMap] at hpd
      obtain ⟨s', hs', hps'⟩ := hpd
      exact absurd (hdead s' hs' _ hps') (by omega)
    · rw [List.mem_singleton.mp hmem]
      exact hp

/-- A successful cut of some indices closes the open span of a loop that
ended in the invariant. -/
theorem makeSubSpans_inv (hlen : span.disk.length = span.mem.length)
    (hs : span.disk.Pairwise (· ≤ ·)) (hnil : span.disk ≠ [])
    {spans : SpanPairs} (h : makeSubSpans span entireRange = .ok spans) :
    ∃ st, CutInv span.disk span.mem entireRange span.disk.length st
      ∧ spans = (makeSubSpan span.disk span.mem st span.disk.length).result := by
  unfold makeSubSpans at h
  obtain ⟨st, hfold, hst⟩ := Result.bind_eq_ok.mp h
  have hpos : 0 < span.disk.length := List.length_pos_iff.mpr hnil
  have hend : 1 + (span.disk.length - 1) = span.disk.length := by omega
  have hinv : CutInv span.disk span.mem entireRange
      (1 + (span.disk.length - 1)) st :=
    Loops.foldlM_range'_ok (P := CutInv span.disk span.mem entireRange)
      (fun i s s' _ hi hP hf => hP.step hlen hs (hend ▸ hi) hf)
      (cutInv_init hnil) hfold
  rw [hend] at hinv
  exact ⟨st, hinv, (Except.ok.inj hst).symm⟩

/-- With the entire range wanted, one span holds every non-negative
index. -/
theorem makeSubSpans_entire (hlen : span.disk.length = span.mem.length)
    (hs : span.disk.Pairwise (· ≤ ·)) {spans : SpanPairs}
    (h : makeSubSpans span true = .ok spans) :
    ∀ s ∈ spans, (∃ i ∈ s.disk, 0 ≤ i) →
      ∀ p ∈ span.pairs, 0 ≤ p.1 → p ∈ s.pairs := by
  by_cases hnil : span.disk = []
  · intro s _ _ p hp
    simp [SpanPair.pairs, hnil] at hp
  · obtain ⟨st, hinv, rfl⟩ := makeSubSpans_inv hlen hs hnil h
    exact hinv.uncut hlen hs (.inl rfl)

/-- A successful cut gives back the span in runs, and its non-negative
indices are distinct. -/
theorem makeSubSpans_ok (hlen : span.disk.length = span.mem.length)
    (hs : span.disk.Pairwise (· ≤ ·)) {spans : SpanPairs}
    (h : makeSubSpans span entireRange = .ok spans) :
    CutSpans span entireRange spans ∧ NoRepeat span.disk := by
  by_cases hnil : span.disk = []
  · -- no index: one empty span
    obtain ⟨disk, mem⟩ := span
    simp only at hlen hnil
    subst hnil
    have hmem : mem = [] := List.length_eq_zero_iff.mp hlen.symm
    subst hmem
    cases h
    refine ⟨⟨rfl, rfl, ?_, ?_, ?_, fun h => absurd rfl h, ?_⟩, List.nodup_nil⟩
    · simp [makeSubSpan, subSpan]
    · intro s hs
      simp only [makeSubSpan, subSpan, List.nil_append,
        List.mem_singleton] at hs
      rw [hs]
      exact isRun_nil _
    · simp [makeSubSpan]
    · simp [SpanPair.pairs]
  · obtain ⟨st, hinv, rfl⟩ := makeSubSpans_inv hlen hs hnil h
    obtain ⟨disk, mem⟩ := span
    simp only at hlen hs hinv
    have hle := Nat.le_of_lt hinv.start_lt
    refine ⟨⟨?_, ?_, ?_, ?_, ?_, ?_,
      fun _ hg => hinv.uncut hlen hs (.inr hg)⟩,
      noRepeat_of_ascends hs hinv.ascends⟩
    · show (st.result ++ [subSpan disk mem st.start disk.length]).flatMap _ = _
      rw [List.flatMap_append, hinv.disk_eq, List.flatMap_singleton]
      exact (take_append_segment disk hle).trans List.take_length
    · show (st.result ++ [subSpan disk mem st.start disk.length]).flatMap _ = _
      rw [List.flatMap_append, hinv.mem_eq, List.flatMap_singleton, hlen]
      exact (take_append_segment mem (hlen ▸ hle)).trans List.take_length
    · intro s hmem
      rcases List.mem_append.mp hmem with hmem | hmem
      · exact (hinv.closed s hmem).1
      · rw [List.mem_singleton.mp hmem, subSpan_eq,
          segment_length disk (Nat.le_refl _),
          segment_length mem (Nat.le_of_eq hlen)]
    · intro s hmem
      rcases List.mem_append.mp hmem with hmem | hmem
      · exact (hinv.closed s hmem).2.2
      · rw [List.mem_singleton.mp hmem]
        exact hinv.openRun
    · simp [makeSubSpan]
    · intro _ s hmem
      rcases List.mem_append.mp hmem with hmem | hmem
      · exact (hinv.closed s hmem).2.1
      · rw [List.mem_singleton.mp hmem, subSpan_eq]
        have hlt := hinv.start_lt
        refine List.ne_nil_of_length_pos ?_
        rw [segment_length disk (Nat.le_refl _)]
        omega

/-- A cut fails with an IndexError, on a repeated non-negative index. -/
theorem makeSubSpans_error (hlen : span.disk.length = span.mem.length)
    (hs : span.disk.Pairwise (· ≤ ·)) {e : Status}
    (h : makeSubSpans span entireRange = .error e) :
    (∃ msg, e = .indexError msg) ∧ ¬ NoRepeat span.disk := by
  obtain ⟨disk, mem⟩ := span
  simp only at hlen hs
  unfold makeSubSpans at h
  cases hfold : (List.range' 1 (disk.length - 1)).foldlM
      (makeSubSpansStep disk mem entireRange) ⟨0, []⟩ with
  | ok st =>
      simp only [hfold] at h
      cases h
  | error e' =>
      simp only [hfold] at h
      cases h
      have hnil : disk ≠ [] := by
        intro heq
        subst heq
        cases hfold
      have hpos : 0 < disk.length := List.length_pos_iff.mpr hnil
      have hend : 1 + (disk.length - 1) = disk.length := by omega
      obtain ⟨i, st, hi, hlt, -, hf⟩ := Loops.foldlM_range'_error
        (P := CutInv disk mem entireRange)
        (fun i s s' _ hi hP hf => hP.step hlen hs (hend ▸ hi) hf)
        (cutInv_init hnil) hfold
      rw [hend] at hlt
      obtain ⟨hmsg, hnn, heq⟩ := makeSubSpansStep_error hf
      exact ⟨hmsg, not_noRepeat_of_eq (by omega) (by omega) hnn heq⟩

end Cut

end Arcae
