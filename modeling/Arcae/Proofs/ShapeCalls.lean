/-
Which offsets inference reads.

The traced walk and descents are those of the model
(`traceArrowResultShapeData_result`). Comparing lengths never leaves a
level, and neither does the end of a range; it is the first list of a
range that may not be there. The walk asks for the first list of every
level, and the descent of a row for the first of each range, before
either has looked whether there is one: a level without lists, or a
range after the last list, is read past its end.
-/
import Arcae.Model.ShapeCalls
import Arcae.Proofs.InferShape

namespace Arcae

open Loops Traced

variable {β : Type} {data child : ArrayData β} {level : ListArray}

-- =============================================================== erasure

@[simp] theorem ListArray.callLength_result (level : ListArray) (i : Nat) :
    (level.callLength i).result = level.valueLength i := by
  unfold callLength
  split <;> rfl

@[simp] theorem ListArray.callOffset_result (level : ListArray) (i : Nat) :
    (level.callOffset i).result = level.valueOffset i := by
  unfold callOffset
  split <;> rfl

theorem sameLengths_result (h : (ArrayData.list level child).WellFormed)
    {n : Nat} {is : List Nat} (his : ∀ i ∈ is, i < level.length) :
    (sameLengths level n is).result
      = .ok (decide (∀ i ∈ is, level.size i = n)) := by
  induction is with
  | nil => rfl
  | cons i is ih =>
      have hi := his i List.mem_cons_self
      have hrest := ih fun j hj => his j (List.mem_cons_of_mem _ hj)
      rw [sameLengths, result_bind, ListArray.callLength_result,
        ListArray.valueLength_of_lt h hi, Result.ok_bind]
      by_cases hsame : n = level.size i
      · rw [if_neg (by simpa using hsame), hrest]
        simp [hsame]
      · rw [if_pos hsame, result_pure, eq_comm, Except.ok.injEq,
          decide_eq_false_iff_not]
        exact fun hall => hsame (hall i List.mem_cons_self).symm

/-- Comparing lengths tells whether all are that of the first. -/
theorem compareLengths_result (h : (ArrayData.list level child).WellFormed)
    {start : Nat} {is : List Nat} (his : ∀ i ∈ is, i < level.length) :
    (compareLengths level (level.size start) is).result
      = .ok (decide (∀ i ∈ is, level.size i = level.size start)) := by
  unfold compareLengths
  by_cases hfs : level.isFixedSize = true
  · rw [if_pos hfs, result_pure, eq_comm, Except.ok.injEq, decide_eq_true_eq]
    exact fun i _ => ListArray.size_of_isFixedSize hfs i start
  · rw [if_neg hfs, sameLengths_result h his]

/-- Without its calls a comparison fails where the model's loop does. -/
theorem sameLengths_forM {n : Nat} {e : Status} (is : List Nat) :
    ((sameLengths level n is).result >>= fun same =>
        if same then .ok () else .error e)
      = (is.forM fun i => do
          let size ← level.valueLength i
          if n ≠ size then .error e else .ok () : Result Unit) := by
  induction is with
  | nil => rfl
  | cons i is ih =>
      rw [sameLengths, result_bind, ListArray.callLength_result,
        List.forM]
      cases level.valueLength i with
      | error e' => rfl
      | ok size =>
          simp only [Result.ok_bind]
          by_cases hsame : n = size
          · rw [if_neg (by simpa using hsame), if_neg (by simpa using hsame),
              ih]
            rfl
          · rw [if_pos hsame, if_pos hsame]
            rfl

/-- The descent of a row is that of the model. -/
theorem traceRowShape_result (r : Nat) (start stop : Nat) :
    (traceRowShape r data start stop).result
      = rowShapeFrom r data start stop := by
  induction data generalizing start stop with
  | leaf slots =>
      rw [traceRowShape, rowShapeFrom]
      split <;> rfl
  | list level child ih =>
      rw [traceRowShape, rowShapeFrom]
      by_cases hnull : 0 < level.nullCount
      · rw [if_pos hnull, if_pos hnull]
        rfl
      · rw [if_neg hnull, if_neg hnull, result_bind,
          ListArray.callLength_result]
        cases level.valueLength start with
        | error e => rfl
        | ok dimSize =>
            simp only [Result.ok_bind, result_bind]
            cases hfs : level.isFixedSize with
            | true =>
                simp [compareLengths, hfs, ih]
            | false =>
                have hloop := @sameLengths_forM level dimSize (.invalid
                  ("Offsets in row " ++ toString r ++ " don't match"))
                  (List.range' (start + 1) (stop - (start + 1)))
                simp only [compareLengths, hfs, Bool.false_eq_true, if_false,
                  Bool.not_false, if_true]
                rw [← hloop]
                cases (sameLengths level dimSize
                  (List.range' (start + 1) (stop - (start + 1)))).result with
                | error e => rfl
                | ok same =>
                    cases same with
                    | true => simp [ih]
                    | false => rfl

/-- The rows are scanned as in the model. -/
theorem traceRowShapes_result (r n : Nat) :
    (traceRowShapes data r n).result
      = (List.range' r n).mapM fun r => rowShapeFrom r data r (r + 1) := by
  induction n generalizing r with
  | zero => rfl
  | succ n ih =>
      rw [traceRowShapes, List.range'_succ, List.mapM_cons, result_bind,
        traceRowShape_result]
      simp only [result_bind, ih, result_pure]
      rfl

theorem traceUpdate_result (h : (ArrayData.list level child).WellFormed)
    (walk : ShapeWalk) :
    (traceUpdate level walk).result = maybeUpdateShapeAndNdim level walk := by
  unfold traceUpdate maybeUpdateShapeAndNdim
  by_cases hnull : 0 < level.nullCount
  · rw [if_pos hnull, if_pos hnull]
    rfl
  · rw [if_neg hnull, if_neg hnull]
    by_cases hvar : (!walk.fixedShape) = true
    · rw [if_pos hvar, if_pos hvar]
      rfl
    · rw [if_neg hvar, if_neg hvar, result_bind, ListArray.callLength_result]
      cases hdim : level.valueLength 0 with
      | error e => rfl
      | ok dimSize =>
          have hzero := ListArray.valueLength_ok hdim
          subst hzero
          obtain ⟨sizes, hsizes, hany⟩ := comparedLengths_any h
          simp only [Result.ok_bind, result_bind, hsizes,
            compareLengths_result h fun i hi => List.mem_range.mp hi]
          by_cases hsame : ∀ i ∈ List.range level.length,
              level.size i = level.size 0
          · have hall := hany.mpr fun i hi => hsame i (List.mem_range.mpr hi)
            rw [decide_eq_true hsame, hall]
            rfl
          · have hdiff : (sizes.any fun size => level.size 0 != size)
                = true := by
              rw [← Bool.not_eq_false]
              exact fun hf => hsame fun i hi =>
                hany.mp hf i (List.mem_range.mp hi)
            rw [decide_eq_false hsame, hdiff]
            rfl

theorem traceWalk_result (h : data.WellFormed) (walk : ShapeWalk) :
    (traceWalk data walk).result = walkShape data walk := by
  induction data generalizing walk with
  | leaf slots =>
      rw [traceWalk, walkShape]
      split <;> rfl
  | list level child ih =>
      rw [traceWalk, walkShape, result_bind, traceUpdate_result h]
      simp only [ih h.2]

/-- The calls are those of the model's inference. -/
theorem traceArrowResultShapeData_result (h : data.WellFormed)
    (desc : ColumnDesc) :
    (traceArrowResultShapeData desc data).result
      = getArrowResultShapeData desc data := by
  unfold traceArrowResultShapeData getArrowResultShapeData getRowShapes
  rw [result_bind, traceWalk_result h, List.range_eq_range']
  congr 1
  funext walk
  split
  · rfl
  · rw [result_bind, traceRowShapes_result]
    rfl

-- ============================================================= conditions

namespace ArrayData

/-- Every level that is compared has a list: all that lie under levels
whose lists have one length. -/
def LevelsFilled : ArrayData β → Prop
  | .leaf _ => True
  | .list level child =>
      (level.isFixedSize = true ∨ 0 < level.length)
        ∧ ((∀ i < level.length, level.size i = level.size 0) →
            child.LevelsFilled)

/-- Every range that is descended into from elements `start` to `stop`
starts at a list. -/
def RangesStart : ArrayData β → Nat → Nat → Prop
  | .leaf _, _, _ => True
  | .list level child, start, stop =>
      (level.isFixedSize = true ∨ start < level.length)
        ∧ ((∀ i, start ≤ i → i < stop → level.size i = level.size start) →
            child.RangesStart (level.start start) (level.start stop))

end ArrayData

-- ================================================================ calls

theorem ListArray.callLength_inRange {i : Nat} :
    (∀ c ∈ (level.callLength i).calls, c.InRange)
      ↔ level.isFixedSize = true ∨ i < level.length := by
  unfold callLength
  by_cases hfs : level.isFixedSize = true
  · simp [hfs]
  · rw [if_neg hfs]
    simp [call, OffsetCall.InRange, hfs]

theorem ListArray.callOffset_inRange {i : Nat} (hi : i ≤ level.length) :
    ∀ c ∈ (level.callOffset i).calls, c.InRange := by
  unfold callOffset
  by_cases hfs : level.isFixedSize = true
  · simp [hfs]
  · rw [if_neg hfs]
    simpa [call, OffsetCall.InRange] using hi

/-- Comparing lengths of a level stays inside it. -/
theorem compareLengths_inRange {n : Nat} {is : List Nat}
    (his : ∀ i ∈ is, i < level.length) :
    ∀ c ∈ (compareLengths level n is).calls, c.InRange := by
  unfold compareLengths
  split
  · simp
  · induction is with
    | nil => simp [sameLengths]
    | cons i is ih =>
        rw [sameLengths, forall_calls_bind]
        refine ⟨ListArray.callLength_inRange.mpr
          (.inr (his i List.mem_cons_self)), fun size _ => ?_⟩
        split
        · simp
        · exact ih fun j hj => his j (List.mem_cons_of_mem _ hj)

/-- The size of a list that is there, or of any of a fixed size. -/
theorem valueLength_of_first (h : (ArrayData.list level child).WellFormed)
    {i : Nat} (hi : level.isFixedSize = true ∨ i < level.length) :
    level.valueLength i = .ok (level.size i) := by
  rcases hi with hfs | hi
  · unfold ListArray.isFixedSize at hfs
    split at hfs
    · rename_i size hlayout
      have hok : level.valueLength i = .ok size := by
        rw [ListArray.valueLength, hlayout]
      rw [hok, ← ListArray.valueLength_ok hok]
    · cases hfs
  · exact ListArray.valueLength_of_lt h hi

/-- A row is descended without leaving a level exactly if its ranges
start at lists. -/
theorem traceRowShape_inRange (h : data.WellFormed)
    (hnull : data.ListsNullFree) (r : Nat) {start stop : Nat}
    (hle : start ≤ stop) (hstop : stop ≤ data.length) :
    (∀ c ∈ (traceRowShape r data start stop).calls, c.InRange)
      ↔ data.RangesStart start stop := by
  induction data generalizing start stop with
  | leaf slots =>
      rw [traceRowShape]
      refine iff_of_true ?_ trivial
      split <;> simp
  | list level child ih =>
      have hzero := hnull.1
      have hstop : stop ≤ level.length := hstop
      have hrest : ∀ i ∈ List.range' (start + 1) (stop - (start + 1)),
          i < level.length := by
        intro i hi
        rw [List.mem_range'_1] at hi
        omega
      rw [traceRowShape, if_neg (by omega)]
      show _ ↔ (_ ∨ _) ∧ _
      by_cases hfirst : level.isFixedSize = true ∨ start < level.length
      · rw [forall_calls_bind_ok (a := level.size start) (by
            rw [ListArray.callLength_result]
            exact valueLength_of_first h hfirst),
          forall_calls_bind_ok (compareLengths_result h hrest)]
        refine and_congr ListArray.callLength_inRange ?_
        refine (and_iff_right (compareLengths_inRange hrest)).trans ?_
        by_cases hsame : ∀ i, start ≤ i → i < stop →
            level.size i = level.size start
        · have hall : ∀ i ∈ List.range' (start + 1) (stop - (start + 1)),
              level.size i = level.size start := by
            intro i hi
            rw [List.mem_range'_1] at hi
            exact hsame i (by omega) (by omega)
          rw [decide_eq_true hall, if_pos rfl,
            forall_calls_bind_ok (a := level.start start) (by
              rw [ListArray.callOffset_result]
              exact ListArray.valueOffset_of_le h (by omega)),
            forall_calls_bind_ok (a := level.start stop) (by
              rw [ListArray.callOffset_result]
              exact ListArray.valueOffset_of_le h hstop),
            forall_calls_bind]
          have hchild := ih h.2 hnull.2 (ListArray.start_mono h hle hstop)
            (ListArray.start_le h hstop)
          constructor
          · intro hx _
            obtain ⟨-, -, hcalls, -⟩ := hx
            exact hchild.mp hcalls
          · intro hranges
            exact ⟨ListArray.callOffset_inRange (by omega),
              ListArray.callOffset_inRange hstop, hchild.mpr (hranges hsame),
              by simp⟩
        · have hdiff : ¬ ∀ i ∈ List.range' (start + 1) (stop - (start + 1)),
              level.size i = level.size start := by
            intro hall
            refine hsame fun i hi hi' => ?_
            rcases Nat.eq_or_lt_of_le hi with rfl | hlt
            · rfl
            · exact hall i (List.mem_range'_1.mpr ⟨hlt, by omega⟩)
          rw [decide_eq_false hdiff]
          exact iff_of_true (by simp) fun hall => absurd hall hsame
      · refine iff_of_false (fun hcalls => hfirst ?_) fun hc => hfirst hc.1
        exact ListArray.callLength_inRange.mp (forall_calls_bind.mp hcalls).1

/-- A row whose ranges start at lists has a shape exactly if it is
rectangular. -/
theorem rowShapeFrom_isOk (h : data.WellFormed) (hnull : data.ListsNullFree)
    (hknown : data.leafArray.type.known = true) (r : Nat) {start stop : Nat}
    (hle : start ≤ stop) (hstop : stop ≤ data.length)
    (hranges : data.RangesStart start stop) :
    (∃ sizes, rowShapeFrom r data start stop = .ok sizes)
      ↔ ∃ sizes, data.Uniform start stop sizes := by
  refine ⟨fun ⟨sizes, hok⟩ => ⟨sizes, rowShapeFrom_ok h hle hstop hok⟩, ?_⟩
  induction data generalizing start stop with
  | leaf slots =>
      intro _
      have hknown : slots.type.known = true := hknown
      exact ⟨[], by rw [rowShapeFrom, if_pos hknown]⟩
  | list level child ih =>
      intro hx
      obtain ⟨sizes, n, rest, -, hall, hrest⟩ := hx
      obtain ⟨hfirst, hbelow⟩ := hranges
      have hzero := hnull.1
      have hstop : stop ≤ level.length := hstop
      have hsame : ∀ i, start ≤ i → i < stop →
          level.size i = level.size start := by
        intro i hi hi'
        rw [hall i hi hi', hall start (Nat.le_refl _) (by omega)]
      obtain ⟨sizes', hrow⟩ := ih h.2 hnull.2 hknown
        (ListArray.start_mono h hle hstop) (ListArray.start_le h hstop)
        (hbelow hsame) ⟨rest, hrest⟩
      refine ⟨level.size start :: sizes', ?_⟩
      rw [← traceRowShape_result, traceRowShape, if_neg (by omega)]
      have hcompare := @compareLengths_result _ child level h start
        (List.range' (start + 1) (stop - (start + 1))) (by
          intro i hi
          rw [List.mem_range'_1] at hi
          omega)
      rw [decide_eq_true (by
        intro i hi
        rw [List.mem_range'_1] at hi
        exact hsame i (by omega) (by omega))] at hcompare
      simp [valueLength_of_first h hfirst, hcompare,
        ListArray.valueOffset_of_le h (Nat.le_trans hle hstop),
        ListArray.valueOffset_of_le h hstop, traceRowShape_result, hrow]

/-- The rows are scanned without leaving a level exactly if the ranges
of each row, up to the first that has no shape, start at lists. -/
theorem traceRowShapes_inRange (h : data.WellFormed)
    (hnull : data.ListsNullFree) (hknown : data.leafArray.type.known = true)
    {r n : Nat} (hn : r + n ≤ data.length) :
    (∀ c ∈ (traceRowShapes data r n).calls, c.InRange)
      ↔ ∀ k, r ≤ k → k < r + n →
        (∀ j, r ≤ j → j < k → ∃ sizes, data.Uniform j (j + 1) sizes) →
        data.RangesStart k (k + 1) := by
  induction n generalizing r with
  | zero =>
      refine iff_of_true (by simp [traceRowShapes]) fun k hk hk' => ?_
      omega
  | succ n ih =>
      have hrow := traceRowShape_inRange h hnull r (Nat.le_succ r)
        (by omega : r + 1 ≤ data.length)
      have hrest := @ih (r + 1) (by omega)
      rw [traceRowShapes, forall_calls_bind, hrow]
      constructor
      · intro hx k hk hk' hbefore
        obtain ⟨hfirst, hcalls⟩ := hx
        rcases Nat.eq_or_lt_of_le hk with rfl | hlt
        · exact hfirst
        · obtain ⟨sizes, hok⟩ := (rowShapeFrom_isOk h hnull hknown r
            (Nat.le_succ r) (by omega) hfirst).mpr
              (hbefore r (Nat.le_refl _) hlt)
          have hlater := (forall_calls_bind.mp (hcalls sizes (by
            rw [traceRowShape_result, hok]))).1
          exact hrest.mp hlater k hlt (by omega) fun j hj hj' =>
            hbefore j (by omega) hj'
      · intro hall
        have hfirst := hall r (Nat.le_refl _) (by omega) fun j hj hj' => by
          omega
        refine ⟨hfirst, fun sizes hok => ?_⟩
        rw [traceRowShape_result] at hok
        have hshape := (rowShapeFrom_isOk h hnull hknown r (Nat.le_succ r)
          (by omega) hfirst).mp ⟨sizes, hok⟩
        refine forall_calls_bind.mpr ⟨hrest.mpr fun k hk hk' hbefore => ?_,
          by simp⟩
        refine hall k (by omega) (by omega) fun j hj hj' => ?_
        rcases Nat.eq_or_lt_of_le hj with rfl | hlt
        · exact hshape
        · exact hbefore j hlt hj'

/-- Once the shape varies, the walk calls nothing. -/
theorem traceWalk_varying (hnull : data.ListsNullFree) {walk : ShapeWalk}
    (hvar : walk.fixedShape = false) :
    ∀ c ∈ (traceWalk data walk).calls, c.InRange := by
  induction data generalizing walk with
  | leaf slots =>
      rw [traceWalk]
      split <;> simp
  | list level child ih =>
      have hzero := hnull.1
      have hstep : traceUpdate level walk
          = pure { walk with ndim := walk.ndim + 1 } := by
        rw [traceUpdate, if_neg (by omega), if_pos (by simp [hvar])]
      rw [traceWalk, hstep, forall_calls_bind_ok (result_pure _)]
      exact ⟨by simp, ih hnull.2 hvar⟩

/-- The walk stays inside the levels exactly if every level that is
compared has a list; it is then fixed exactly if all lists of each level
have one length. -/
theorem traceWalk_inRange (h : data.WellFormed) (hnull : data.ListsNullFree)
    (hknown : data.leafArray.type.known = true) (shape : IPosition)
    (ndim : Nat) :
    ((∀ c ∈ (traceWalk data ⟨true, shape, ndim⟩).calls, c.InRange)
        ↔ data.LevelsFilled)
      ∧ (data.LevelsFilled →
        ∃ walk, walkShape data ⟨true, shape, ndim⟩ = .ok walk
          ∧ (walk.fixedShape = true ↔ ∃ lengths, data.CommonLengths lengths)) := by
  induction data generalizing shape ndim with
  | leaf slots =>
      have hknown : slots.type.known = true := hknown
      refine ⟨iff_of_true ?_ trivial, fun _ => ⟨⟨true, shape, ndim⟩, ?_, ?_⟩⟩
      · rw [traceWalk, if_pos hknown]
        simp
      · rw [walkShape, if_pos hknown]
      · exact iff_of_true rfl ⟨[], rfl⟩
  | list level child ih =>
      have hzero := hnull.1
      have hupdate : traceUpdate level ⟨true, shape, ndim⟩ = (do
          let dimSize ← level.callLength 0
          let same ← compareLengths level dimSize (List.range level.length)
          if same then pure ⟨true, shape ++ [dimSize], ndim + 1⟩
          else pure ⟨false, shape, ndim + 1⟩) := by
        rw [traceUpdate, if_neg (by omega)]
        rfl
      have hrange : ∀ i ∈ List.range level.length, i < level.length :=
        fun i hi => List.mem_range.mp hi
      by_cases hfirst : level.isFixedSize = true ∨ 0 < level.length
      · have hlength : (level.callLength 0).result = .ok (level.size 0) := by
          rw [ListArray.callLength_result]
          exact valueLength_of_first h hfirst
        have hcompare := @compareLengths_result _ _ _ h 0 _ hrange
        have hcalls : ∀ c ∈ (traceUpdate level ⟨true, shape, ndim⟩).calls,
            c.InRange := by
          rw [hupdate, forall_calls_bind_ok hlength,
            forall_calls_bind_ok hcompare]
          refine ⟨ListArray.callLength_inRange.mpr hfirst,
            compareLengths_inRange hrange, ?_⟩
          split <;> simp
        by_cases hsame : ∀ i < level.length, level.size i = level.size 0
        · have hresult : (traceUpdate level ⟨true, shape, ndim⟩).result
              = .ok ⟨true, shape ++ [level.size 0], ndim + 1⟩ := by
            rw [hupdate]
            simp only [result_bind, hlength, hcompare, Result.ok_bind]
            rw [decide_eq_true fun i hi => hsame i (List.mem_range.mp hi)]
            rfl
          obtain ⟨hiff, hwalk⟩ := ih h.2 hnull.2 hknown
            (shape ++ [level.size 0]) (ndim + 1)
          constructor
          · rw [traceWalk, forall_calls_bind_ok hresult, hiff]
            exact ⟨fun hc => ⟨hfirst, fun _ => hc.2⟩,
              fun hf => ⟨hcalls, hf.2 hsame⟩⟩
          · intro hx
            obtain ⟨-, hfilled⟩ := hx
            obtain ⟨walk, hok, hfixed⟩ := hwalk (hfilled hsame)
            refine ⟨walk, ?_, hfixed.trans ⟨?_, ?_⟩⟩
            · rw [walkShape, ← traceUpdate_result h, hresult]
              exact hok
            · intro hx
              obtain ⟨rest, hrest⟩ := hx
              exact ⟨_, level.size 0, rest, rfl, hsame, hrest⟩
            · intro hx
              obtain ⟨lengths, n, rest, -, -, hrest⟩ := hx
              exact ⟨rest, hrest⟩
        · have hresult : (traceUpdate level ⟨true, shape, ndim⟩).result
              = .ok ⟨false, shape, ndim + 1⟩ := by
            rw [hupdate]
            simp only [result_bind, hlength, hcompare, Result.ok_bind]
            rw [decide_eq_false fun hall =>
              hsame fun i hi => hall i (List.mem_range.mpr hi)]
            rfl
          constructor
          · rw [traceWalk, forall_calls_bind_ok hresult]
            exact iff_of_true ⟨hcalls, traceWalk_varying hnull.2 rfl⟩
              ⟨hfirst, fun hall => absurd hall hsame⟩
          · intro _
            refine ⟨⟨false, shape, ndim + 1 + child.depth⟩, ?_, ?_⟩
            · rw [walkShape, ← traceUpdate_result h, hresult]
              exact walkShape_varying hnull.2 hknown shape (ndim + 1)
            · refine iff_of_false (by simp) ?_
              intro hx
              obtain ⟨lengths, n, rest, -, hall, -⟩ := hx
              refine hsame fun i hi => ?_
              rw [hall i hi, hall 0 (by omega)]
      · refine ⟨iff_of_false (fun hc => hfirst ?_) fun hf => hfirst hf.1,
          fun hf => absurd hf.1 hfirst⟩
        rw [traceWalk, forall_calls_bind, hupdate, forall_calls_bind] at hc
        exact ListArray.callLength_inRange.mp hc.1.1

/-- Inference reads no offset outside its array exactly if every level
that is compared has a list and, where lists of one level differ in
length, every range that is descended into starts at one: those of each
row up to the first that is not rectangular. -/
theorem shape_calls_in_range_iff (h : data.WellFormed)
    (hnull : data.ListsNullFree) (hknown : data.leafArray.type.known = true)
    (desc : ColumnDesc) :
    (traceArrowResultShapeData desc data).result
        = getArrowResultShapeData desc data
      ∧ ((∀ c ∈ (traceArrowResultShapeData desc data).calls, c.InRange)
        ↔ data.LevelsFilled
          ∧ ((¬ ∃ lengths, data.CommonLengths lengths) →
            ∀ r < data.length,
              (∀ k < r, ∃ sizes, data.Uniform k (k + 1) sizes) →
              data.RangesStart r (r + 1))) := by
  refine ⟨traceArrowResultShapeData_result h desc, ?_⟩
  obtain ⟨hcalls, hfixed⟩ := traceWalk_inRange h hnull hknown [data.length] 1
  have hrows := @traceRowShapes_inRange _ _ h hnull hknown 0 data.length
    (by omega)
  simp only [Nat.zero_le, true_implies, Nat.zero_add] at hrows
  unfold traceArrowResultShapeData
  rw [forall_calls_bind, hcalls]
  refine and_congr_right fun hfilled => ?_
  obtain ⟨walk, hwalk, hiff⟩ := hfixed hfilled
  rw [← hiff, ← hrows]
  constructor
  · intro hrest hvar
    have hscan := hrest walk (by rw [traceWalk_result h, hwalk])
    rw [if_neg hvar, forall_calls_bind] at hscan
    exact hscan.1
  · intro hscan walk' hwalk'
    rw [traceWalk_result h, hwalk, Except.ok.injEq] at hwalk'
    subst hwalk'
    by_cases hf : walk.fixedShape = true
    · rw [if_pos hf]
      simp
    · rw [if_neg hf, forall_calls_bind]
      exact ⟨hscan hf, by simp⟩

/-- A nest with an empty list between two others is read inside. -/
theorem shape_calls_in_range_sample : ∃ calls,
    (traceArrowResultShapeData (.withoutShape "RAGGED" .tpInt (some 1))
      (.list ⟨.list [0, 1, 1, 3], 0, 3, none⟩
        (.leaf (β := Nat) ⟨.int32, 0, 3, none, [0, 1, 2]⟩))).calls = calls
      ∧ ∀ c ∈ calls, c.InRange := by
  refine ⟨_, rfl, ?_⟩
  refine ((@shape_calls_in_range_iff Nat
    (.list ⟨.list [0, 1, 1, 3], 0, 3, none⟩
      (.leaf ⟨.int32, 0, 3, none, [0, 1, 2]⟩))
    ⟨⟨by decide, by decide, by decide⟩, Nat.le_refl 3⟩ ⟨rfl, trivial⟩ rfl
    (.withoutShape "RAGGED" .tpInt (some 1))).2).mpr
      ⟨⟨by decide, fun _ => trivial⟩, ?_⟩
  intro _ r hr _
  exact ⟨.inr hr, fun _ => trivial⟩

/-- No rows: the list array is empty, and its first offsets are read. -/
theorem empty_array_overread :
    let level : ListArray := ⟨.list [0], 0, 0, none⟩
    let data : ArrayData Nat := .list level (.leaf ⟨.int32, 0, 0, none, []⟩)
    (data.WellFormed ∧ data.ListsNullFree ∧ data.leafArray.type.known = true)
      ∧ OffsetCall.valueLength level 0 ∈ (traceArrowResultShapeData
          (.withoutShape "RAGGED" .tpInt (some 1)) data).calls
      ∧ ¬ (OffsetCall.valueLength level 0).InRange := by
  refine ⟨⟨⟨⟨by decide, by decide, by decide⟩, Nat.le_refl 0⟩, ⟨rfl, trivial⟩,
    rfl⟩, by decide, Nat.lt_irrefl 0⟩

end Arcae
