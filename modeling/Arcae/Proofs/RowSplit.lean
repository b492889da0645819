/-
Splitting the rows of a read: it never fails, and loses no row.

`SplitRowSpans` cuts the rows read from disk at the positions
`pieceEnds` gives it. Whatever an alignment function makes of those
positions, they ascend strictly from above zero to the number of rows
(`pieceEnds_ascending`), and that alone carries the loop: before each
turn some end lies ahead of the position, so the turn takes a row
(`SplitInv`), and the pieces of a span are infixes of it, in order, cut
at the ends that fall inside it and nowhere else (`splitSpan_ok`). The
spans that come out are therefore the same span cut into runs
(`splitRowSpans_ok`).
-/
import Arcae.Proofs.Spans

namespace Arcae

-- ================================================================== ends

/-- The ends of the pieces ascend strictly, from above zero to the
number of rows. -/
structure EndsAscend (ends : List Nat) (nrows : Nat) : Prop where
  ascending : ends.Pairwise (· < ·)
  le : ∀ i e : Nat, ends[i]? = some e → e ≤ nrows
  first : 0 < nrows → ∃ e, ends[0]? = some e ∧ 0 < e
  next : ∀ i e : Nat, ends[i]? = some e → e < nrows →
    ∃ e', ends[i + 1]? = some e' ∧ e < e'

/-- Strictly ascending ends inside the rows, closed by the number of
rows, are as the splitting loop wants them. -/
theorem endsAscend_concat {es : List Nat} {nrows : Nat}
    (hasc : es.Pairwise (· < ·)) (hin : ∀ e ∈ es, 0 < e ∧ e < nrows) :
    EndsAscend (es ++ [nrows]) nrows := by
  have hall : (es ++ [nrows]).Pairwise (· < ·) := by
    refine List.pairwise_append.mpr ⟨hasc, List.pairwise_singleton _ _, ?_⟩
    intro a ha b hb
    rw [List.mem_singleton.mp hb]
    exact (hin a ha).2
  have hlast : (es ++ [nrows])[es.length]? = some nrows := by simp
  refine ⟨hall, ?_, ?_, ?_⟩
  · intro i e he
    rcases List.mem_append.mp (List.mem_of_getElem? he) with hmem | hmem
    · exact Nat.le_of_lt (hin e hmem).2
    · exact Nat.le_of_eq (List.mem_singleton.mp hmem)
  · intro hpos
    cases es with
    | nil => exact ⟨nrows, rfl, hpos⟩
    | cons e es => exact ⟨e, rfl, (hin e List.mem_cons_self).1⟩
  · intro i e he hlt
    obtain ⟨hi, hget⟩ := List.getElem?_eq_some_iff.mp he
    have hne : i ≠ es.length := by
      intro heq
      subst heq
      rw [hlast] at he
      cases he
      exact Nat.lt_irrefl _ hlt
    rw [List.length_append, List.length_singleton] at hi
    have hi' : i + 1 < (es ++ [nrows]).length := by
      rw [List.length_append, List.length_singleton]
      omega
    refine ⟨(es ++ [nrows])[i + 1], List.getElem?_eq_getElem hi', ?_⟩
    rw [← hget]
    exact List.pairwise_iff_getElem.mp hall i (i + 1) _ _ (Nat.lt_succ_self i)

/-- Adding an end keeps the ends strictly ascending inside the rows. -/
theorem addEnd_ascending {es : List Nat} {nrows e : Nat}
    (hasc : es.Pairwise (· < ·)) (hin : ∀ e ∈ es, 0 < e ∧ e < nrows) :
    (addEnd nrows es e).Pairwise (· < ·)
      ∧ ∀ x ∈ addEnd nrows es e, 0 < x ∧ x < nrows := by
  unfold addEnd
  by_cases he : es.getLastD 0 < e ∧ e < nrows
  case neg =>
    rw [if_neg he]
    exact ⟨hasc, hin⟩
  case pos =>
    rw [if_pos he]
    constructor
    · refine List.pairwise_append.mpr ⟨hasc, List.pairwise_singleton _ _, ?_⟩
      intro a ha b hb
      rw [List.mem_singleton.mp hb]
      -- every end so far is at most the last one
      obtain ⟨l, last, rfl⟩ : ∃ l last, es = l ++ [last] :=
        ⟨es.dropLast, es.getLast (List.ne_nil_of_mem ha),
          (List.dropLast_append_getLast _).symm⟩
      have hlast : last < e := by
        simpa [List.getLastD_eq_getLast?] using he.1
      rcases List.mem_append.mp ha with ha | ha
      · have := (List.pairwise_append.mp hasc).2.2 a ha last (by simp)
        omega
      · rw [List.mem_singleton.mp ha]
        exact hlast
    · intro x hx
      rcases List.mem_append.mp hx with hx | hx
      · exact hin x hx
      · rw [List.mem_singleton.mp hx]
        omega

/-- The boundaries between the pieces. -/
def pieceBounds (nrows nsplits : Nat) (rowAt : Nat → Int)
    (unitStart : Option RowUnitStart) : List Nat :=
  ((List.range' 1 (nsplits - 1)).map
    (pieceEnd nrows nsplits rowAt unitStart)).foldl (addEnd nrows) []

/-- Whatever ends are offered, those kept ascend strictly inside the
rows. -/
theorem foldl_addEnd_ascending {nrows : Nat} (candidates : List Nat) :
    ∀ es : List Nat, es.Pairwise (· < ·) → (∀ e ∈ es, 0 < e ∧ e < nrows) →
      (candidates.foldl (addEnd nrows) es).Pairwise (· < ·)
        ∧ ∀ e ∈ candidates.foldl (addEnd nrows) es, 0 < e ∧ e < nrows := by
  induction candidates with
  | nil => exact fun es hasc hin => ⟨hasc, hin⟩
  | cons e candidates ih =>
      intro es hasc hin
      obtain ⟨hasc', hin'⟩ := addEnd_ascending (e := e) hasc hin
      exact ih _ hasc' hin'

/-- Whatever the alignment, the boundaries ascend strictly inside the
rows. -/
theorem pieceBounds_ascending (nrows nsplits : Nat) (rowAt : Nat → Int)
    (unitStart : Option RowUnitStart) :
    (pieceBounds nrows nsplits rowAt unitStart).Pairwise (· < ·)
      ∧ ∀ e ∈ pieceBounds nrows nsplits rowAt unitStart, 0 < e ∧ e < nrows :=
  foldl_addEnd_ascending _ [] List.Pairwise.nil (by simp)

/-- Whatever the alignment, the ends of the pieces ascend strictly. -/
theorem pieceEnds_ascending (nrows nsplits : Nat) (rowAt : Nat → Int)
    (unitStart : Option RowUnitStart) :
    EndsAscend (pieceEnds nrows nsplits rowAt unitStart) nrows := by
  obtain ⟨hasc, hin⟩ := pieceBounds_ascending nrows nsplits rowAt unitStart
  exact endsAscend_concat hasc hin

-- ======================================================== the split loop

/-- Before each turn of the splitting loop, the current piece ends ahead
of the position, and the pieces before it do not. -/
structure SplitInv (ends : List Nat) (nrows : Nat) (st : SplitState) :
    Prop where
  le : st.position ≤ nrows
  ahead : st.position < nrows →
    ∃ e, ends[st.piece]? = some e ∧ st.position < e
  passed : ∀ j < st.piece, ∀ e, ends[j]? = some e → e ≤ st.position

/-- The current piece ends at the first end ahead of the position. -/
theorem SplitInv.first_end {ends : List Nat} {nrows : Nat} {st : SplitState}
    (h : SplitInv ends nrows st) (hends : EndsAscend ends nrows) {e : Nat}
    (he : ends[st.piece]? = some e) {q : Nat} (hq : q ∈ ends)
    (hahead : st.position < q) : e ≤ q := by
  obtain ⟨j, hj, rfl⟩ := List.mem_iff_getElem.mp hq
  obtain ⟨hpiece, rfl⟩ := List.getElem?_eq_some_iff.mp he
  rcases lt_trichotomy j st.piece with hlt | rfl | hgt
  · have := h.passed j hlt _ (List.getElem?_eq_getElem hj)
    omega
  · exact Nat.le_refl _
  · exact Nat.le_of_lt
      (List.pairwise_iff_getElem.mp hends.ascending _ _ hpiece hj hgt)

/-- A turn that takes no more than the rest of the piece keeps the
invariant. -/
theorem SplitInv.advance {ends : List Nat} {nrows : Nat} {st : SplitState}
    (h : SplitInv ends nrows st) (hends : EndsAscend ends nrows) {e n : Nat}
    (he : ends[st.piece]? = some e) (hle : st.position + n ≤ e)
    (hroom : st.position + n ≤ nrows) (result : SpanPairs) :
    SplitInv ends nrows
      { position := st.position + n
        piece := if st.position + n = e then st.piece + 1 else st.piece
        result := result } := by
  refine ⟨hroom, fun hlt => ?_, fun j hj x hx => ?_⟩
  · simp only at hlt ⊢
    by_cases hend : st.position + n = e
    · rw [if_pos hend, hend]
      exact hends.next _ _ he (by omega)
    · rw [if_neg hend]
      exact ⟨e, he, by omega⟩
  · simp only at hj ⊢
    by_cases hend : st.position + n = e
    · rw [if_pos hend] at hj
      rcases Nat.lt_succ_iff_lt_or_eq.mp hj with hj | rfl
      · have := h.passed j hj x hx
        omega
      · rw [he] at hx
        cases hx
        exact Nat.le_of_eq hend.symm
    · rw [if_neg hend] at hj
      have := h.passed j hj x hx
      omega

/-- The spans are consecutive parts of `span` from position `start` on,
none of them empty. -/
structure PartsOf (span : SpanPair) (start : Nat) (parts : SpanPairs) :
    Prop where
  disk_eq : parts.flatMap SpanPair.disk = span.disk.drop start
  mem_eq : parts.flatMap SpanPair.mem = span.mem.drop start
  length_eq : ∀ s ∈ parts, s.disk.length = s.mem.length
  nonempty : ∀ s ∈ parts, s.disk ≠ []
  isInfix : ∀ s ∈ parts, s.disk <:+: span.disk

/-- Taking `n` elements and then the parts of the rest. -/
theorem PartsOf.cons {span : SpanPair} {start n : Nat} {parts : SpanPairs}
    (hlen : span.disk.length = span.mem.length) (hn : 0 < n)
    (hle : start + n ≤ span.disk.length)
    (h : PartsOf span (start + n) parts) :
    PartsOf span start
      (subSpan span.disk span.mem start (start + n) :: parts) := by
  have hsub : start + n - start = n := by omega
  have hdisk : (subSpan span.disk span.mem start (start + n)).disk
      = (span.disk.drop start).take n := by rw [subSpan, hsub]
  have hmem : (subSpan span.disk span.mem start (start + n)).mem
      = (span.mem.drop start).take n := by rw [subSpan, hsub]
  refine ⟨?_, ?_, ?_, ?_, ?_⟩
  · rw [List.flatMap_cons, h.disk_eq, hdisk, ← List.drop_drop,
      List.take_append_drop]
  · rw [List.flatMap_cons, h.mem_eq, hmem, ← List.drop_drop,
      List.take_append_drop]
  · intro s hs
    rcases List.mem_cons.mp hs with rfl | hs
    · rw [hdisk, hmem, List.length_take, List.length_take,
        List.length_drop, List.length_drop, hlen]
    · exact h.length_eq s hs
  · intro s hs
    rcases List.mem_cons.mp hs with rfl | hs
    · refine List.ne_nil_of_length_pos ?_
      rw [hdisk, List.length_take, List.length_drop]
      omega
    · exact h.nonempty s hs
  · intro s hs
    rcases List.mem_cons.mp hs with rfl | hs
    · rw [hdisk]
      exact (List.take_prefix n _).isInfix.trans
        (List.drop_suffix start _).isInfix
    · exact h.isInfix s hs

/-- The positions after each of some consecutive spans, from `position`
on. -/
def endsFrom : Nat → SpanPairs → List Nat
  | _, [] => []
  | position, s :: spans =>
      (position + s.disk.length) :: endsFrom (position + s.disk.length) spans

@[simp] theorem endsFrom_nil (position : Nat) : endsFrom position [] = [] := rfl

@[simp] theorem endsFrom_cons (position : Nat) (s : SpanPair)
    (spans : SpanPairs) :
    endsFrom position (s :: spans)
      = (position + s.disk.length)
        :: endsFrom (position + s.disk.length) spans := rfl

/-- The loop over one span takes it all, in consecutive parts: they end
at the ends of pieces inside the span, and at its own. -/
theorem splitSpan_ok {ends : List Nat} {nrows : Nat}
    (hends : EndsAscend ends nrows) {span : SpanPair}
    (hlen : span.disk.length = span.mem.length) :
    ∀ (fuel start : Nat) (st : SplitState), SplitInv ends nrows st →
      start ≤ span.disk.length → span.disk.length ≤ start + fuel →
      st.position + (span.disk.length - start) ≤ nrows →
      ∃ st' parts, splitSpan ends span fuel start st = .ok st'
        ∧ SplitInv ends nrows st'
        ∧ st'.position = st.position + (span.disk.length - start)
        ∧ st'.result = st.result ++ parts ∧ PartsOf span start parts
        ∧ ∀ q, q ∈ endsFrom st.position parts
          ↔ start < span.disk.length
            ∧ (q = st'.position ∨ q ∈ ends ∧ st.position < q ∧ q < st'.position) := by
  have hnil : PartsOf span span.disk.length [] := by
    refine ⟨?_, ?_, by simp, by simp, by simp⟩
    · simp
    · rw [hlen]
      simp
  intro fuel
  induction fuel with
  | zero =>
      intro start st hinv hle hfuel _
      have hstart : start = span.disk.length := by omega
      subst hstart
      refine ⟨st, [], ?_, hinv, by omega, by simp, hnil, by simp⟩
      rw [splitSpan, if_neg (Nat.lt_irrefl _)]
  | succ fuel ih =>
      intro start st hinv hle hfuel hroom
      by_cases hlt : start < span.disk.length
      · have hpos : st.position < nrows := by omega
        obtain ⟨e, he, hahead⟩ := hinv.ahead hpos
        have hen := hends.le _ _ he
        set n := min (span.disk.length - start) (e - st.position) with hn
        have hn0 : 0 < n := by omega
        have hnle : start + n ≤ span.disk.length := by omega
        have hinv' := hinv.advance hends he (n := n) (by omega) (by omega)
          (st.result ++ [subSpan span.disk span.mem start (start + n)])
        obtain ⟨st', parts, hok, hst', hposn, hres, hparts, hcuts⟩ :=
          ih (start + n) _ hinv' hnle (by omega) (by simp only; omega)
        simp only at hposn hcuts
        refine ⟨st', _ :: parts, ?_, hst', ?_, ?_,
          hparts.cons hlen hn0 hnle, ?_⟩
        · rw [splitSpan, if_pos hlt, he]
          exact hok
        · rw [hposn]
          omega
        · rw [hres]
          simp
        · intro q
          have htaken : (subSpan span.disk span.mem start
              (start + n)).disk.length = n := by
            rw [subSpan, List.length_take, List.length_drop]
            omega
          rw [endsFrom_cons, htaken, List.mem_cons, hcuts]
          -- no end lies within what this turn took
          have hfirst : ∀ q ∈ ends, st.position < q → e ≤ q := fun q hq =>
            hinv.first_end hends he hq
          have hmem : e ∈ ends := List.mem_of_getElem? he
          constructor
          · intro hx
            obtain (rfl | ⟨hmore, rfl | ⟨hq, hqlo, hqhi⟩⟩) := hx
            · refine ⟨hlt, ?_⟩
              by_cases hend : st.position + n = e
              · by_cases hlast : st.position + n = st'.position
                · exact .inl hlast
                · exact .inr ⟨hend ▸ hmem, by omega, by omega⟩
              · exact .inl (by omega)
            · exact ⟨hlt, .inl rfl⟩
            · exact ⟨hlt, .inr ⟨hq, by omega, hqhi⟩⟩
          · intro hx
            obtain ⟨-, rfl | ⟨hq, hqlo, hqhi⟩⟩ := hx
            · by_cases hmore : start + n < span.disk.length
              · exact .inr ⟨hmore, .inl rfl⟩
              · exact .inl (by omega)
            · have hle := hfirst q hq hqlo
              by_cases heq : q = st.position + n
              · exact .inl heq
              · exact .inr ⟨by omega, .inr ⟨hq, by omega, hqhi⟩⟩
      · have hstart : start = span.disk.length := by omega
        subst hstart
        refine ⟨st, [], ?_, hinv, by omega, by simp, hnil, by simp⟩
        rw [splitSpan, if_neg (Nat.lt_irrefl _)]

-- =================================================== the split, as a whole

/-- Rows of one span that are read from disk. -/
def SpanPair.rowsRead (span : SpanPair) : Nat :=
  match span.disk with
  | [] => 0
  | i :: _ => if i < 0 then 0 else span.disk.length

theorem readRows_cons (span : SpanPair) (spans : SpanPairs) :
    DataPartition.readRows (span :: spans)
      = span.rowsRead + DataPartition.readRows spans := by
  rw [DataPartition.readRows, List.map_cons, List.sum_cons]
  rfl

/-- Some spans cut further: the same indices in the same order, by
infixes of the old spans. -/
structure Refines (spans parts : SpanPairs) : Prop where
  disk_eq : parts.flatMap SpanPair.disk = spans.flatMap SpanPair.disk
  mem_eq : parts.flatMap SpanPair.mem = spans.flatMap SpanPair.mem
  length_eq : ∀ s ∈ parts, s.disk.length = s.mem.length
  isInfix : ∀ s ∈ parts, ∃ s' ∈ spans, s.disk <:+: s'.disk
  nonempty : (∀ s ∈ spans, s.disk ≠ []) → ∀ s ∈ parts, s.disk ≠ []
  ne_nil : spans ≠ [] → parts ≠ []

/-- Some spans are one span, split: whole if none of its rows is read,
and otherwise cut at the ends that fall inside it. -/
structure SplitOf (ends : List Nat) (position : Nat) (span : SpanPair)
    (parts : SpanPairs) : Prop where
  refines : Refines [span] parts
  whole : span.rowsRead = 0 → parts = [span]
  ends_iff : span.rowsRead ≠ 0 → ∀ q, q ∈ endsFrom position parts
    ↔ q = position + span.rowsRead
      ∨ q ∈ ends ∧ position < q ∧ q < position + span.rowsRead

/-- Some spans, each split, from a position on. -/
inductive SplitGroups (ends : List Nat) :
    Nat → SpanPairs → List SpanPairs → Prop where
  | nil (position : Nat) : SplitGroups ends position [] []
  | cons {position : Nat} {span : SpanPair} {spans parts : SpanPairs}
      {groups : List SpanPairs} (head : SplitOf ends position span parts)
      (tail : SplitGroups ends (position + span.rowsRead) spans groups) :
      SplitGroups ends position (span :: spans) (parts :: groups)

/-- One turn over the spans keeps the invariant and splits the span. -/
theorem splitRowSpansStep_ok {ends : List Nat} {nrows : Nat}
    (hends : EndsAscend ends nrows) {span : SpanPair}
    (hlen : span.disk.length = span.mem.length) {st : SplitState}
    (hinv : SplitInv ends nrows st)
    (hroom : st.position + span.rowsRead ≤ nrows) :
    ∃ st' parts, splitRowSpansStep ends st span = .ok st'
      ∧ SplitInv ends nrows st'
      ∧ st'.position = st.position + span.rowsRead
      ∧ st'.result = st.result ++ parts
      ∧ SplitOf ends st.position span parts := by
  have hwhole : Refines [span] [span] := by
    refine ⟨rfl, rfl, ?_, ?_, fun h => h, fun h => h⟩
    · intro s hs
      rw [List.mem_singleton.mp hs]
      exact hlen
    · intro s hs
      exact ⟨s, hs, List.infix_refl _⟩
  have hkept : span.rowsRead = 0 → SplitOf ends st.position span [span] :=
    fun hzero => ⟨hwhole, fun _ => rfl, fun hpos => absurd hzero hpos⟩
  obtain ⟨disk, mem⟩ := span
  cases disk with
  | nil =>
      exact ⟨_, [⟨[], mem⟩], rfl, ⟨hinv.le, hinv.ahead, hinv.passed⟩, rfl, rfl,
        hkept rfl⟩
  | cons i is =>
      by_cases hi : i < 0
      · have hread : SpanPair.rowsRead ⟨i :: is, mem⟩ = 0 := by
          simp [SpanPair.rowsRead, hi]
        refine ⟨{ st with result := st.result ++ [⟨i :: is, mem⟩] },
          [⟨i :: is, mem⟩], ?_, ⟨hinv.le, hinv.ahead, hinv.passed⟩,
          by rw [hread, Nat.add_zero], rfl, hkept hread⟩
        simp only [splitRowSpansStep, hi, if_true]
      · have hread : SpanPair.rowsRead ⟨i :: is, mem⟩ = (i :: is).length := by
          simp [SpanPair.rowsRead, hi]
        rw [hread] at hroom ⊢
        obtain ⟨st', parts, hok, hst', hposn, hres, hparts, hcuts⟩ :=
          splitSpan_ok hends hlen (i :: is).length 0 st hinv (Nat.zero_le _)
            (by simp) (by simpa using hroom)
        simp only [Nat.sub_zero] at hposn
        refine ⟨st', parts, ?_, hst', hposn, hres, ?_, ?_, ?_⟩
        · simp only [splitRowSpansStep, hi, if_false]
          exact hok
        · refine ⟨by simpa using hparts.disk_eq, by simpa using hparts.mem_eq,
            hparts.length_eq, ?_, fun _ => hparts.nonempty, fun _ => ?_⟩
          · intro s hs
            exact ⟨_, List.mem_singleton_self _, hparts.isInfix s hs⟩
          · intro heq
            subst heq
            have := hparts.disk_eq
            simp at this
        · intro hzero
          rw [hread, List.length_cons] at hzero
          cases hzero
        · intro _ q
          rw [hread, hcuts q, hposn]
          exact ⟨And.right, fun h => ⟨Nat.succ_pos _, h⟩⟩

/-- The loop over all spans splits each of them. -/
theorem splitRowSpans_fold_ok {ends : List Nat} {nrows : Nat}
    (hends : EndsAscend ends nrows) :
    ∀ (spans : SpanPairs) (st : SplitState),
      (∀ s ∈ spans, s.disk.length = s.mem.length) →
      SplitInv ends nrows st →
      st.position + DataPartition.readRows spans ≤ nrows →
      ∃ st' groups, spans.foldlM (splitRowSpansStep ends) st = .ok st'
        ∧ st'.result = st.result ++ groups.flatten
        ∧ SplitGroups ends st.position spans groups := by
  intro spans
  induction spans with
  | nil =>
      intro st _ _ _
      exact ⟨st, [], rfl, by simp, .nil _⟩
  | cons span spans ih =>
      intro st hlen hinv hroom
      rw [readRows_cons] at hroom
      obtain ⟨st₁, parts, hok₁, hinv₁, hpos₁, hres₁, hparts⟩ :=
        splitRowSpansStep_ok hends (hlen span List.mem_cons_self) hinv
          (by omega)
      obtain ⟨st₂, groups, hok₂, hres₂, hgroups⟩ := ih st₁
        (fun s hs => hlen s (List.mem_cons_of_mem _ hs)) hinv₁ (by omega)
      rw [hpos₁] at hgroups
      refine ⟨st₂, parts :: groups,
        Loops.foldlM_cons_ok.mpr ⟨st₁, hok₁, hok₂⟩, ?_, .cons hparts hgroups⟩
      rw [hres₂, hres₁, List.append_assoc, List.flatten_cons]

/-- Spans that are split are cut further. -/
theorem SplitGroups.refines {ends : List Nat} {position : Nat}
    {spans : SpanPairs} {groups : List SpanPairs}
    (h : SplitGroups ends position spans groups) :
    Refines spans groups.flatten := by
  induction h with
  | nil position =>
      exact ⟨rfl, rfl, by simp, by simp, by simp, fun h => h⟩
  | @cons position span spans parts groups head tail ih =>
      have hparts := head.refines
      rw [List.flatten_cons]
      refine ⟨?_, ?_, ?_, ?_, ?_, ?_⟩
      · rw [List.flatMap_append, hparts.disk_eq, ih.disk_eq]
        simp
      · rw [List.flatMap_append, hparts.mem_eq, ih.mem_eq]
        simp
      · intro s hs
        rcases List.mem_append.mp hs with hs | hs
        · exact hparts.length_eq s hs
        · exact ih.length_eq s hs
      · intro s hs
        rcases List.mem_append.mp hs with hs | hs
        · obtain ⟨s', hs', hin⟩ := hparts.isInfix s hs
          rw [List.mem_singleton.mp hs'] at hin
          exact ⟨span, List.mem_cons_self, hin⟩
        · obtain ⟨s', hs', hin⟩ := ih.isInfix s hs
          exact ⟨s', List.mem_cons_of_mem _ hs', hin⟩
      · intro hne s hs
        rcases List.mem_append.mp hs with hs | hs
        · refine hparts.nonempty (fun s' hs' => ?_) s hs
          rw [List.mem_singleton.mp hs']
          exact hne span List.mem_cons_self
        · exact ih.nonempty
            (fun s' hs' => hne s' (List.mem_cons_of_mem _ hs')) s hs
      · intro _ hnil
        exact hparts.ne_nil (List.cons_ne_nil _ _)
          (List.append_eq_nil_iff.mp hnil).1

/-- `SplitRowSpans` succeeds: it splits each span at the ends of the
pieces. -/
theorem splitRowSpans_groups {spans : SpanPairs}
    (hlen : ∀ s ∈ spans, s.disk.length = s.mem.length) (nsplits : Nat)
    (unitStart : Option RowUnitStart) :
    ∃ groups, splitRowSpans spans (DataPartition.readRows spans) nsplits
        unitStart = .ok groups.flatten
      ∧ SplitGroups (pieceEnds (DataPartition.readRows spans) nsplits
          (rowAt (readSpans spans)) unitStart) 0 spans groups := by
  have hends := pieceEnds_ascending (DataPartition.readRows spans) nsplits
    (rowAt (readSpans spans)) unitStart
  have hinit : SplitInv
      (pieceEnds (DataPartition.readRows spans) nsplits
        (rowAt (readSpans spans)) unitStart)
      (DataPartition.readRows spans) ⟨0, 0, []⟩ :=
    ⟨Nat.zero_le _, hends.first, fun j hj => absurd hj (Nat.not_lt_zero j)⟩
  obtain ⟨st, groups, hok, hres, hgroups⟩ := splitRowSpans_fold_ok hends spans
    ⟨0, 0, []⟩ hlen hinit (by simp)
  refine ⟨groups, ?_, hgroups⟩
  unfold splitRowSpans
  simp only [hok, Result.ok_bind, Result.pure_eq, hres, List.nil_append]

/-- An infix of a run is a run. -/
theorem IsRun.inside {e : Bool} {l l' : List Int} (h : IsRun e l)
    (hin : l' <:+: l) : IsRun e l' := by
  rcases h with hneg | ⟨hpos, hasc, hcons⟩
  · exact .inl fun i hi => hneg i (hin.subset hi)
  · refine .inr ⟨fun i hi => hpos i (hin.subset hi),
      hasc.sublist hin.sublist, fun he => ?_⟩
    obtain ⟨front, back, rfl⟩ := hin
    have hfront := (List.isChain_append.mp (hcons he)).1
    exact (List.isChain_append.mp hfront).2.1

/-- Cutting runs of rows further leaves the span cut into runs. -/
theorem CutSpans.refine {span : SpanPair} {spans parts : SpanPairs}
    (h : CutSpans span true spans) (hparts : Refines spans parts) :
    CutSpans span true parts where
  disk_eq := hparts.disk_eq.trans h.disk_eq
  mem_eq := hparts.mem_eq.trans h.mem_eq
  length_eq := hparts.length_eq
  run := by
    intro s hs
    obtain ⟨s', hs', hin⟩ := hparts.isInfix s hs
    exact (h.run s' hs').inside hin
  ne_nil := hparts.ne_nil h.ne_nil
  nonempty := fun hne => hparts.nonempty (h.nonempty hne)
  uncut := fun he => nomatch he

/-- The spans of `SplitRowSpans` are the same span cut into runs. -/
theorem splitRowSpans_ok {span : SpanPair} {spans : SpanPairs}
    (h : CutSpans span true spans) (nsplits : Nat)
    (unitStart : Option RowUnitStart) :
    ∃ parts, splitRowSpans spans (DataPartition.readRows spans) nsplits
        unitStart = .ok parts
      ∧ CutSpans span true parts := by
  obtain ⟨groups, hok, hgroups⟩ :=
    splitRowSpans_groups h.length_eq nsplits unitStart
  exact ⟨groups.flatten, hok, h.refine hgroups.refines⟩

/-- Splitting the rows leaves the other dimensions as they were, and
cuts the row dimension further. It fails only for lack of an element
size. -/
theorem splitRows_ok {rs : ResultShapeData} {opt : RowSplitOptions}
    {secondary : List SpanPairs} {rows : SpanPairs} {rowSpan : SpanPair}
    (hrows : CutSpans rowSpan true rows)
    (hdtype : opt.maxSplits ≤ 1 ∨ rs.dtype.supported = true) :
    ∃ rows', DataPartition.splitRows rs opt (secondary ++ [rows])
        = .ok (secondary ++ [rows'])
      ∧ CutSpans rowSpan true rows' := by
  unfold DataPartition.splitRows
  by_cases hmax : 1 < opt.maxSplits
  · have hsup : rs.dtype.supported = true := by
      rcases hdtype with h | h
      · omega
      · exact h
    obtain ⟨size, hsize⟩ := (casaDataTypeSize_isOk rs.dtype).mpr hsup
    simp only [hmax, if_true, hsize, Result.ok_bind, Result.pure_eq,
      List.getLastD_concat, List.dropLast_concat]
    split
    · obtain ⟨rows', hok, hcut⟩ := splitRowSpans_ok hrows _ opt.unitStart
      refine ⟨rows', ?_, hcut⟩
      rw [hok]
      rfl
    · exact ⟨rows, rfl, hrows⟩
  · rw [if_neg hmax]
    exact ⟨rows, rfl, hrows⟩

end Arcae
