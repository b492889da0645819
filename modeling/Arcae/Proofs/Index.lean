/-
What an accepted index selects.

Every entry of an index asks for something (`DimIndex.asked`): for
nothing, where it is `None` or `slice(None)`, and for its own indices in
order otherwise, of which there may be none. `Reports` says that a
selection gives that answer about the dimension, by every route a reader
of selections takes.

The builder keeps what each entry added (`addDimIndex_ok`), in reverse
order (`buildSelection_spans`), and a selection says that a dimension is
not selected by an empty span. So an accepted entry is reported as asked
exactly when it is not an empty list or array
(`buildSelection_reports_iff`). Slices are checked for that, and lists
and arrays are not.

A slice is expanded to the integers it asks for as long as the sum that
rounds its count up is a 64-bit integer (`addDimIndex_slice_iff`); the
indices themselves are below the stop and never overflow.
-/
import Arcae.Model.BuildSelection
import Arcae.Lib.Loops
import Mathlib.Data.List.Range

namespace Arcae

open Loops

-- ============================================================ what is asked

/-- The integers from `start` below `stop`, `step` apart. -/
def sliceIndices (start stop step : Int) : Index :=
  ((List.range (stop - start).toNat).filter
    fun k : Nat => decide (step ∣ (k : Int))).map fun k : Nat => start + (k : Int)

/-- The indices an entry asks for; `none` if it asks for the whole
dimension. -/
def DimIndex.asked : DimIndex → Option Index
  | .none => .none
  | .slice .none .none .none => .none
  | .slice start stop step =>
      .some (sliceIndices (start.getD 0) (stop.getD 0) (step.getD 1))
  | .list items => .some items
  | .ndarray _ _ _ items => .some items
  | .other _ => .none

/-- An entry that lists no index. -/
def DimIndex.isEmptyIndices : DimIndex → Bool
  | .list items => items.isEmpty
  | .ndarray _ _ _ items => items.isEmpty
  | _ => false

/-- A selection answers what dimension `d` (rows first) was asked: for
data of any rank, by the C-ordered and the FORTRAN-ordered dimension,
and for the rows by themselves. -/
structure Selection.Reports (sel : Selection) (d : Nat)
    (asked : Option Index) : Prop where
  fSpan : ∀ ndim, d < ndim → sel.maybeFSpan (ndim - 1 - d) ndim = asked
  cSpan : ∀ ids, sel.cSpan d = .ok ids ↔ asked = some ids
  row : d = 0 → sel.hasRowSpan = asked.isSome
    ∧ ∀ ids, asked = some ids → sel.getRowSpan = ids

-- ============================================================ the builder

theorem toIndexType_ok {z z' : Int} : toIndexType z = .ok z' → z' = z := by
  unfold toIndexType
  split
  · intro h
    exact (Except.ok.inj h).symm
  · intro h
    cases h

theorem toIndex_ok {items : List Int} {ids : Index}
    (h : toIndex items = .ok ids) : ids = items := by
  have hall := mapM_eq_ok.mp h
  clear h
  induction hall with
  | nil => rfl
  | cons hz _ ih => rw [toIndexType_ok hz, ih]

/-- Counting by `step` from zero below `n` takes `⌈n / step⌉` steps. -/
theorem filter_dvd_range (step : Nat) (hstep : 0 < step) (n : Nat) :
    (List.range n).filter (fun k : Nat => decide ((step : Int) ∣ (k : Int)))
      = (List.range ((n + step - 1) / step)).map (· * step) := by
  induction n with
  | zero =>
      have hzero : (0 + step - 1) / step = 0 := Nat.div_eq_of_lt (by omega)
      rw [hzero]
      rfl
  | succ n ih =>
      rw [List.range_succ, List.filter_append, ih]
      by_cases hdvd : step ∣ n
      · obtain ⟨q, rfl⟩ := hdvd
        have hlow : (step * q + step - 1) / step = q := by
          rw [show step * q + step - 1 = step - 1 + step * q by omega,
            Nat.add_mul_div_left _ _ hstep, Nat.div_eq_of_lt (by omega),
            Nat.zero_add]
        have hhigh : (step * q + 1 + step - 1) / step = q + 1 := by
          have hsum : step * q + 1 + step - 1 = step * (q + 1) := by
            rw [Nat.mul_succ]
            omega
          rw [hsum, Nat.mul_div_cancel_left _ hstep]
        have hmem : ((step : Int) ∣ ((step * q : Nat) : Int)) :=
          Int.natCast_dvd_natCast.mpr (Nat.dvd_mul_right _ _)
        rw [hlow, hhigh, List.range_succ, List.map_append, List.map_singleton,
          List.filter_cons, if_pos (by simp), List.filter_nil,
          Nat.mul_comm]
      · have hne : (n + 1 + step - 1) / step = (n + step - 1) / step := by
          have hsub : n + 1 + step - 1 = (n + step - 1) + 1 := by omega
          rw [hsub, Nat.succ_div, if_neg]
          · rfl
          · intro h
            refine hdvd ?_
            have hstep' : n + step - 1 + 1 = n + step := by omega
            rw [hstep'] at h
            exact (Nat.dvd_add_left (Nat.dvd_refl step)).mp h
        have hout : ¬ ((step : Int) ∣ ((n : Nat) : Int)) :=
          fun h => hdvd (Int.natCast_dvd_natCast.mp h)
        rw [hne, List.filter_cons, if_neg (by simpa using hout),
          List.filter_nil, List.append_nil]

/-- The `⌈(stop - start) / step⌉` integers from `start` on, `step`
apart, are those below `stop`. -/
theorem map_range_eq_sliceIndices {start stop step : Int} (hstep : 0 < step)
    (hlt : start < stop) :
    (List.range ((stop - start + step - 1) / step).toNat).map
        (fun i : Nat => start + (i : Int) * step)
      = sliceIndices start stop step := by
  obtain ⟨step, rfl⟩ := Int.eq_ofNat_of_zero_le (Int.le_of_lt hstep)
  obtain ⟨n, hn⟩ := Int.eq_ofNat_of_zero_le (show 0 ≤ stop - start by omega)
  have hstep' : 0 < step := by omega
  have hq : ((stop - start + step - 1) / (step : Int)).toNat
      = (n + step - 1) / step := by
    have hcast : stop - start + (step : Int) - 1 = ((n + step - 1 : Nat) : Int) := by
      omega
    rw [hcast, ← Int.natCast_ediv, Int.toNat_natCast]
  rw [hq, sliceIndices, hn, Int.toNat_natCast, filter_dvd_range step hstep',
    List.map_map]
  refine List.map_congr_left fun i _ => ?_
  simp

/-- A slice of at least one integer has a positive count. -/
theorem one_le_count {start stop step : Int} (hstep : 0 < step)
    (hlt : start < stop) : 1 ≤ (stop - start + step - 1) / step :=
  (Int.le_ediv_iff_mul_le hstep).mpr (by omega)

/-- A count is that of a vector where the slice is no longer than as many
steps. -/
theorem count_le_iff {extent step : Int} (hstep : 0 < step) :
    (extent + step - 1) / step ≤ maxIndexSize
      ↔ extent ≤ maxIndexSize * step := by
  rw [← Int.lt_add_one_iff, Int.ediv_lt_iff_lt_mul hstep, Int.add_mul, Int.one_mul]
  omega

/-- The vector of a slice is made exactly when the sum does not overflow,
and the count is no larger than a vector can be. -/
theorem sliceIndex_eq {start stop step : Int} (hstep : 0 < step)
    (hstart : 0 ≤ start) (hlt : start < stop) (hmax : stop < 2 ^ 63)
    (hsmax : step < 2 ^ 63) :
    sliceIndex start stop step
      = if stop - start + step - 1 < 2 ^ 63
            ∧ stop - start ≤ maxIndexSize * step
        then .ok (sliceIndices start stop step) else .error .runtimeError := by
  by_cases hfits : stop - start + step - 1 < 2 ^ 63
  · have hcount : sliceCount start stop step = (stop - start + step - 1) / step := by
      rw [sliceCount, Int.bmod_eq_of_le (by omega) (by omega)]
    have hge := one_le_count hstep hlt
    unfold sliceIndex
    rw [hcount]
    by_cases hlong : stop - start ≤ maxIndexSize * step
    · have hle := (count_le_iff hstep).mpr hlong
      rw [if_neg (by omega), if_pos ⟨hfits, hlong⟩,
        map_range_eq_sliceIndices hstep hlt]
    · have hgt := mt (count_le_iff hstep).mp hlong
      rw [if_pos (.inr (by omega)), if_neg fun h => hlong h.2]
  · have hmod : (stop - start + step - 1).bmod (2 ^ 64)
        = stop - start + step - 1 - 2 ^ 64 := by
      rw [Int.bmod_def, Int.emod_eq_of_lt (by omega) (by omega), if_neg (by omega)]
      rfl
    have hneg : sliceCount start stop step < 0 := by
      rw [sliceCount, hmod]
      exact Int.ediv_neg_of_neg_of_pos (by omega) hstep
    rw [if_neg fun h => hfits h.1, sliceIndex, if_pos (.inl hneg)]

theorem sliceIndices_ne_nil {start stop step : Int} (hstep : 0 < step)
    (hlt : start < stop) : sliceIndices start stop step ≠ [] := by
  have hge := one_le_count hstep hlt
  rw [← map_range_eq_sliceIndices hstep hlt]
  refine List.ne_nil_of_length_pos ?_
  rw [List.length_map, List.length_range]
  omega

/-- A slice that is accepted gives the integers it asks for, of which
there is at least one. -/
theorem checkedSlice_ok {d : Nat} {start stop step : Option Int} {ids : Index}
    (h : checkedSlice d start stop step = .ok ids) :
    ids = sliceIndices (start.getD 0) (stop.getD 0) (step.getD 1)
      ∧ ids ≠ [] := by
  have hdefault : ∀ {z : Option Int} {default z' : Int},
      default < 2 ^ 63 → toIndexTypeOr default z = .ok z' →
      z' = z.getD default ∧ z' < 2 ^ 63 := by
    intro z default z' hd hz
    cases z with
    | none =>
        cases hz
        exact ⟨rfl, hd⟩
    | some z =>
        have heq := toIndexType_ok hz
        simp only [toIndexTypeOr, toIndexType] at hz
        split at hz
        next hrange =>
          rw [heq]
          exact ⟨rfl, hrange.2⟩
        next => cases hz
  unfold checkedSlice at h
  dsimp only at h
  cases hstep : toIndexTypeOr 1 step with
  | error e => simp [hstep, bind, Except.bind] at h
  | ok step' =>
      obtain ⟨rfl, hstepmax⟩ := hdefault (by decide) hstep
      simp only [hstep, bind, Except.bind] at h
      split at h
      next => cases h
      next hpos =>
        cases stop with
        | none => cases h
        | some stop =>
            simp only at h
            cases hstart : toIndexTypeOr 0 start with
            | error e => simp [hstart] at h
            | ok start' =>
                obtain ⟨rfl, -⟩ := hdefault (by decide) hstart
                cases hstop : toIndexType stop with
                | error e => simp [hstart, hstop] at h
                | ok stop' =>
                    obtain ⟨rfl, hstopmax⟩ :=
                      @hdefault (some stop) 0 _ (by decide) hstop
                    simp only [hstart, hstop] at h
                    split at h
                    next => cases h
                    next hnn =>
                      split at h
                      next => cases h
                      next hlt =>
                        rw [sliceIndex_eq (by omega) (by omega) (by omega)
                          hstopmax hstepmax] at h
                        split at h
                        next =>
                          exact ⟨(Except.ok.inj h).symm, (Except.ok.inj h) ▸
                            sliceIndices_ne_nil (by omega) (by omega)⟩
                        next => cases h

/-- The span an entry leaves in the builder. -/
def DimIndex.stored (e : DimIndex) : Index := e.asked.getD []

/-- An accepted entry is stored as asked; the stored span is empty only
if nothing is asked for, or an empty list. -/
theorem addDimIndex_ok {b b' : SelectionBuilder} {d : Nat} {e : DimIndex}
    (h : addDimIndex b d e = .ok b') :
    b' = b.add e.stored
      ∧ (e.stored = [] → e.asked = none ∨ e.isEmptyIndices = true) := by
  have hslice : ∀ start stop step, e = .slice start stop step →
      e.asked = some (sliceIndices (start.getD 0) (stop.getD 0) (step.getD 1)) →
      (checkedSlice d start stop step >>= fun ids => pure (b.add ids)) = .ok b' →
      b' = b.add e.stored
        ∧ (e.stored = [] → e.asked = none ∨ e.isEmptyIndices = true) := by
    intro start stop step he hasked hb
    cases hids : checkedSlice d start stop step with
    | error err => simp [hids, bind, Except.bind] at hb
    | ok ids =>
        obtain ⟨heq, hne⟩ := checkedSlice_ok hids
        simp only [hids, bind, Except.bind, pure, Except.pure,
          Except.ok.injEq] at hb
        have hstored : e.stored = ids := by
          rw [DimIndex.stored, hasked, heq]
          rfl
        rw [hstored]
        exact ⟨hb.symm, fun hnil => absurd hnil hne⟩
  have hitems : ∀ items : List Int, e.asked = some items →
      e.isEmptyIndices = items.isEmpty →
      (toIndex items >>= fun ids => pure (b.add ids)) = .ok b' →
      b' = b.add e.stored
        ∧ (e.stored = [] → e.asked = none ∨ e.isEmptyIndices = true) := by
    intro items hasked hempty hb
    cases hids : toIndex items with
    | error err => simp [hids, bind, Except.bind] at hb
    | ok ids =>
        simp only [hids, bind, Except.bind, pure, Except.pure,
          Except.ok.injEq] at hb
        have hstored : e.stored = ids := by
          rw [DimIndex.stored, hasked, toIndex_ok hids]
          rfl
        rw [hstored, hempty, ← toIndex_ok hids]
        exact ⟨hb.symm, fun hnil => .inr (by rw [hnil]; rfl)⟩
  match e, h, hslice, hitems with
  | .none, h, _, _ =>
      cases h
      exact ⟨rfl, fun _ => .inl rfl⟩
  | .slice .none .none .none, h, _, _ =>
      cases h
      exact ⟨rfl, fun _ => .inl rfl⟩
  | .slice (.some i) stop step, h, hslice, _ => exact hslice _ _ _ rfl rfl h
  | .slice .none (.some i) step, h, hslice, _ => exact hslice _ _ _ rfl rfl h
  | .slice .none .none (.some i), h, hslice, _ => exact hslice _ _ _ rfl rfl h
  | .list items, h, _, hitems => exact hitems items rfl rfl h
  | .ndarray ndim isInt64 cContiguous items, h, _, hitems =>
      simp only [addDimIndex] at h
      split at h
      next => cases h
      next =>
        split at h
        next hview =>
          cases h
          refine ⟨rfl, fun hnil => ?_⟩
          have hitemsnil : items = [] := hnil
          simp [hitemsnil] at hview
        next => exact hitems items rfl rfl h
  | .other type, h, _, _ => cases h

/-- The spans of a built selection are those of the entries, rows
last. -/
theorem buildSelection_spans {entries : List DimIndex} {sel : Selection}
    (h : buildSelection (.entries entries) = .ok sel) :
    sel.spans = (entries.map DimIndex.stored).reverse
      ∧ ∀ e ∈ entries, e.stored = [] →
          e.asked = none ∨ e.isEmptyIndices = true := by
  have key : ∀ (l : List DimIndex) (k : Nat) (b b' : SelectionBuilder),
      (l.zipIdx k).foldlM (fun builder e => addDimIndex builder e.2 e.1) b
        = .ok b' →
      b'.spans = b.spans ++ l.map DimIndex.stored ∧ b'.order = b.order
        ∧ ∀ e ∈ l, e.stored = [] → e.asked = none ∨ e.isEmptyIndices = true := by
    intro l
    induction l with
    | nil =>
        intro k b b' hb
        cases hb
        exact ⟨by simp, rfl, by simp⟩
    | cons e l ih =>
        intro k b b' hb
        rw [List.zipIdx_cons] at hb
        obtain ⟨b₁, he, hl⟩ := foldlM_cons_ok.mp hb
        obtain ⟨rfl, hstored⟩ := addDimIndex_ok he
        obtain ⟨hspans, horder, hall⟩ := ih (k + 1) _ b' hl
        refine ⟨?_, horder, List.forall_mem_cons.mpr ⟨hstored, hall⟩⟩
        rw [hspans, SelectionBuilder.add_spans, List.map_cons,
          List.append_assoc, List.singleton_append]
  unfold buildSelection at h
  simp only at h
  cases hfold : entries.zipIdx.foldlM
      (fun builder e => addDimIndex builder e.2 e.1)
      (SelectionBuilder.init .cOrder) with
  | error err => simp [hfold, bind, Except.bind] at h
  | ok b =>
      obtain ⟨hspans, horder, hall⟩ := key entries 0 _ b hfold
      simp only [hfold, bind, Except.bind, pure, Except.pure,
        Except.ok.injEq] at h
      refine ⟨?_, hall⟩
      rw [← h, SelectionBuilder.build, horder]
      simp only [SelectionBuilder.init, hspans, List.nil_append]

-- ============================================================ the selection

/-- A dimension counted from the rows is reported alike by its C-ordered
and its FORTRAN-ordered number. -/
theorem cSpan_eq_ok {sel : Selection} {d : Nat} {ids : Index} :
    sel.cSpan d = .ok ids ↔ sel.fromRow d = some ids := by
  unfold Selection.cSpan Selection.fromRow Selection.size
  dsimp only
  by_cases hin : d < sel.spans.length
  · have hpos : (0 : Int) ≤ sel.spans.length - d - 1
        ∧ (sel.spans.length : Int) - d - 1 < sel.spans.length := by omega
    have hidx : ((sel.spans.length : Int) - d - 1).toNat
        = sel.spans.length - 1 - d := by omega
    rw [if_pos hpos, hidx, List.getElem?_reverse hin]
    cases sel.spans[sel.spans.length - 1 - d]? with
    | none => simp
    | some span => cases span <;> simp
  · have hneg : ¬ ((0 : Int) ≤ sel.spans.length - d - 1
        ∧ (sel.spans.length : Int) - d - 1 < sel.spans.length) := by omega
    have hnone : sel.spans.reverse[d]? = none := by
      rw [List.getElem?_eq_none_iff, List.length_reverse]
      omega
    rw [if_neg hneg, hnone]
    simp

/-- A selection reports a dimension as its span has it. -/
theorem reports_fromRow (sel : Selection) (d : Nat) :
    sel.Reports d (sel.fromRow d) where
  fSpan := by
    intro ndim hd
    have hlt : ndim - 1 - d < ndim := by omega
    have hback : ndim - 1 - (ndim - 1 - d) = d := by omega
    rw [sel.maybeFSpan_eq_fromRow hlt, hback]
  cSpan := fun _ => cSpan_eq_ok
  row := by
    intro heq
    subst heq
    have hrow := @Selection.maybeFSpan_row sel 1 Nat.zero_lt_one
    rw [sel.maybeFSpan_eq_fromRow Nat.zero_lt_one] at hrow
    rw [hrow]
    cases sel.hasRowSpan with
    | false => exact ⟨rfl, by rintro ids ⟨⟩⟩
    | true => exact ⟨rfl, by rintro ids ⟨⟩; rfl⟩

/-- A selection gives one answer about a dimension. -/
theorem Selection.Reports.eq_fromRow {sel : Selection} {d : Nat}
    {asked : Option Index} (h : sel.Reports d asked) :
    asked = sel.fromRow d := by
  have h₁ := h.fSpan (d + 1) (Nat.lt_succ_self d)
  have h₂ := (reports_fromRow sel d).fSpan (d + 1) (Nat.lt_succ_self d)
  rw [← h₁, h₂]

/-- An accepted entry is reported as asked exactly when it is not an
empty list or array. -/
theorem buildSelection_reports_iff {entries : List DimIndex} {sel : Selection}
    (h : buildSelection (.entries entries) = .ok sel) {d : Nat} {e : DimIndex}
    (he : entries[d]? = some e) :
    sel.Reports d e.asked ↔ e.isEmptyIndices = false := by
  obtain ⟨hspans, hall⟩ := buildSelection_spans h
  have hfromRow : sel.fromRow d = if e.stored = [] then none else some e.stored := by
    unfold Selection.fromRow
    rw [hspans, List.reverse_reverse, List.getElem?_map, he, Option.map_some]
    cases e.stored with
    | nil => rfl
    | cons i is => rfl
  have hempty : e.isEmptyIndices = true → e.asked = some [] := by
    cases e with
    | list items => intro hi; rw [List.isEmpty_iff.mp hi]; rfl
    | ndarray ndim isInt64 cContiguous items =>
        intro hi
        rw [DimIndex.asked, List.isEmpty_iff.mp hi]
    | none => intro hi; cases hi
    | slice start stop step => intro hi; cases hi
    | other type => intro hi; cases hi
  constructor
  · intro hreports
    refine Bool.eq_false_iff.mpr fun hi => ?_
    have hasked := hempty hi
    have hstored : e.stored = [] := by
      rw [DimIndex.stored, hasked]
      rfl
    have := hreports.eq_fromRow
    rw [hfromRow, if_pos hstored, hasked] at this
    cases this
  · intro hi
    have hsame : e.asked = sel.fromRow d := by
      rw [hfromRow]
      by_cases hstored : e.stored = []
      · rw [if_pos hstored]
        rcases hall e (List.mem_of_getElem? he) hstored with hnone | htrue
        · exact hnone
        · rw [hi] at htrue
          cases htrue
      · rw [if_neg hstored]
        unfold DimIndex.stored at hstored ⊢
        cases hasked : e.asked with
        | none => rw [hasked] at hstored; exact absurd rfl hstored
        | some ids => rfl
    rw [hsame]
    exact reports_fromRow sel d

/-- A slice of the rows and a list of channels, as asked. -/
theorem buildSelection_reports_sample :
    ∃ sel, buildSelection (.entries [.slice none (some 5) (some 2), .list [3, 1]])
        = .ok sel
      ∧ sel.Reports 0 (some [0, 2, 4]) ∧ sel.Reports 1 (some [3, 1]) :=
  ⟨⟨[[3, 1], [0, 2, 4]]⟩, rfl,
    (@buildSelection_reports_iff [.slice none (some 5) (some 2),
      .list [3, 1]] _ rfl 0 _ rfl).mpr rfl,
    (@buildSelection_reports_iff [.slice none (some 5) (some 2),
      .list [3, 1]] _ rfl 1 _ rfl).mpr rfl⟩

/-- An empty list of rows selects every row: it is accepted, and the
rows are reported as not selected. -/
theorem empty_list_unselected :
    ∃ sel, buildSelection (.entries [.list []]) = .ok sel
      ∧ sel.maybeFSpan 0 1 = none ∧ ¬ sel.Reports 0 (some []) := by
  refine ⟨⟨[[]]⟩, rfl, by decide, fun h => ?_⟩
  have := h.fSpan 1 Nat.zero_lt_one
  revert this
  decide

-- ======================================================= the width of a slice

/-- The bounds and the step of a slice are 64-bit integers that pass the
checks. -/
structure SliceAccepted (start : Option Int) (stop : Int) (step : Option Int) :
    Prop where
  start_nonneg : 0 ≤ start.getD 0
  start_lt : start.getD 0 < stop
  stop_max : stop < 2 ^ 63
  step_pos : 0 < step.getD 1
  step_max : step.getD 1 < 2 ^ 63

/-- An integer of the 64-bit `IndexType`. -/
def IsIndexType (z : Int) : Prop := -2 ^ 63 ≤ z ∧ z < 2 ^ 63

/-- No operation of the count or of the loop over it leaves the 64-bit
integers. -/
structure SliceFits (start stop step : Int) : Prop where
  extent : IsIndexType (stop - start)
  add : IsIndexType (stop - start + step)
  sum : IsIndexType (stop - start + step - 1)
  mul : ∀ i : Nat, (i : Int) < (stop - start + step - 1) / step →
    IsIndexType ((i : Int) * step)
  index : ∀ i : Nat, (i : Int) < (stop - start + step - 1) / step →
    IsIndexType (start + (i : Int) * step)

/-- Every index below the count is below the stop. -/
theorem index_lt_stop {start stop step : Int} (hstep : 0 < step) {i : Nat}
    (hi : (i : Int) < (stop - start + step - 1) / step) :
    start + (i : Int) * step < stop := by
  have hmul : ((i : Int) + 1) * step ≤ stop - start + step - 1 :=
    (Int.le_ediv_iff_mul_le hstep).mp (by omega)
  rw [Int.add_mul, Int.one_mul] at hmul
  omega

/-- Only the sum that rounds the count up can leave the 64-bit
integers. -/
theorem sliceFits_iff {start stop step : Int} (hstart : 0 ≤ start)
    (hlt : start < stop) (hmax : stop < 2 ^ 63) (hstep : 0 < step) :
    SliceFits start stop step ↔ stop - start + step < 2 ^ 63 := by
  constructor
  · intro h
    exact h.add.2
  · intro hsum
    have hindex : ∀ i : Nat, (i : Int) < (stop - start + step - 1) / step →
        0 ≤ (i : Int) * step ∧ start + (i : Int) * step < stop := by
      intro i hi
      exact ⟨Int.mul_nonneg (by omega) (by omega), index_lt_stop hstep hi⟩
    refine
      { extent := ⟨by omega, by omega⟩
        add := ⟨by omega, hsum⟩
        sum := ⟨by omega, by omega⟩
        mul := ?_
        index := ?_ }
    · intro i hi
      obtain ⟨hnonneg, hbelow⟩ := hindex i hi
      exact ⟨by omega, by omega⟩
    · intro i hi
      obtain ⟨hnonneg, hbelow⟩ := hindex i hi
      exact ⟨by omega, by omega⟩

/-- A slice that passes the checks is expanded, or its count is
rejected. -/
theorem checkedSlice_eq {start step : Option Int} {stop : Int}
    (h : SliceAccepted start stop step) (d : Nat) :
    checkedSlice d start (some stop) step
      = sliceIndex (start.getD 0) stop (step.getD 1) := by
  obtain ⟨hstart, hlt, hmax, hstep, hsmax⟩ := h
  have hconv : ∀ {z : Option Int} {default : Int}, 0 ≤ z.getD default →
      z.getD default < 2 ^ 63 → toIndexTypeOr default z = .ok (z.getD default) := by
    intro z default hlow hhigh
    cases z with
    | none => rfl
    | some z =>
        rw [Option.getD_some] at hlow hhigh ⊢
        rw [toIndexTypeOr, toIndexType, if_pos ⟨by omega, hhigh⟩]
  have hstop : toIndexType stop = .ok stop := by
    rw [toIndexType, if_pos ⟨by omega, hmax⟩]
  unfold checkedSlice
  simp only [hconv (Int.le_of_lt hstep) hsmax, hconv hstart (by omega), hstop,
    bind, Except.bind]
  rw [if_neg (by omega), if_neg (by omega), if_neg (by omega)]

/-- A slice becomes the integers it asks for, and no operation on the way
overflows, exactly when its extent and step add up to a 64-bit integer,
and it is no longer than a vector can be. -/
theorem addDimIndex_slice_iff (builder : SelectionBuilder) (d : Nat)
    {start step : Option Int} {stop : Int} (h : SliceAccepted start stop step) :
    (addDimIndex builder d (.slice start (some stop) step)
        = .ok (builder.add
            (sliceIndices (start.getD 0) stop (step.getD 1)))
      ∧ SliceFits (start.getD 0) stop (step.getD 1))
      ↔ stop - start.getD 0 + step.getD 1 < 2 ^ 63
        ∧ stop - start.getD 0 ≤ (2 ^ 60 - 1) * step.getD 1 := by
  have hfits := sliceFits_iff h.start_nonneg h.start_lt h.stop_max h.step_pos
  have hsize : maxIndexSize = 2 ^ 60 - 1 := by decide
  have hslice := checkedSlice_eq h d
  rw [sliceIndex_eq h.step_pos h.start_nonneg h.start_lt h.stop_max h.step_max,
    hsize] at hslice
  have hadd : addDimIndex builder d (.slice start (some stop) step)
      = (checkedSlice d start (some stop) step >>= fun ids =>
          pure (builder.add ids)) := by
    cases start <;> cases step <;> rfl
  rw [hadd, hslice]
  constructor
  · intro hboth
    have hsum := hfits.mp hboth.2
    refine ⟨hsum, ?_⟩
    by_contra hlong
    rw [if_neg fun h => hlong h.2] at hboth
    cases hboth.1
  · intro hboth
    rw [if_pos ⟨by omega, hboth.2⟩]
    exact ⟨rfl, hfits.mpr hboth.1⟩

/-- The even integers below five. -/
theorem addDimIndex_slice_sample :
    addDimIndex (SelectionBuilder.init .cOrder) 0 (.slice none (some 5) (some 2))
        = .ok ((SelectionBuilder.init .cOrder).add [0, 2, 4])
      ∧ SliceFits 0 5 2 := by
  have haccepted : SliceAccepted none 5 (some 2) :=
    ⟨by decide, by decide, by decide, by decide, by decide⟩
  exact (addDimIndex_slice_iff (SelectionBuilder.init .cOrder) 0 haccepted).mpr
    (by decide)

/-- A slice of one index with the largest step: the sum that rounds up
overflows, and no vector is made. -/
theorem widest_step_rejected :
    SliceAccepted (some 0) 2 (some (2 ^ 63 - 1))
      ∧ addDimIndex (SelectionBuilder.init .cOrder) 0
          (.slice (some 0) (some 2) (some (2 ^ 63 - 1)))
        = .error .runtimeError
      ∧ sliceIndices 0 2 (2 ^ 63 - 1) = [0] := by
  refine ⟨⟨by decide, by decide, by decide, by decide, by decide⟩, ?_, by decide⟩
  have haccepted : SliceAccepted (some 0) 2 (some (2 ^ 63 - 1)) :=
    ⟨by decide, by decide, by decide, by decide, by decide⟩
  have hslice := checkedSlice_eq haccepted 0
  rw [sliceIndex_eq (by decide) (by decide) (by decide) (by decide) (by decide),
    if_neg (by decide)] at hslice
  rw [addDimIndex, hslice]
  · rfl
  · intro h
    cases h

end Arcae
