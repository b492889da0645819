/-
The merge of sorted partitions is a merge.

# Order

`Number.le` is the order that is asked for: NaN is one class above all
other numbers. `Compare` decides it (`compareElements_nonpos`), so
comparing rows array by array decides the lexicographic order
(`greaterFrom_false_iff`), and is a strict weak order, NaNs included,
as the queue asks for (`greater_strictWeakOrder`).

# The loop

Between turns, the queue holds the next row of each partition that has
rows left (`QueueInv`). Its top is a head that no other head sorts
before, so the rows are taken as in a merge (`mergeLoop_merges`), and
each is copied behind the ones before it. There are as many turns as
rows.

`merge_np_partitions` checks the arrays and lays them out by the keys
of the first partition (`addPartitions_ok`), and what `PartitionMerge`
makes of them is the merge of the partitions
(`mergeNpPartitions_merges`).
-/
import Arcae.Model.MergeSort
import Arcae.Lib.Merge
import Arcae.Lib.Loops

namespace Arcae

open Loops Merge

-- ================================================================= order

/-- Numbers in order, with NaN above all of them. -/
def Number.le : Number → Number → Prop
  | _, .nan => True
  | .nan, _ => False
  | .infinite true, _ => True
  | _, .infinite false => True
  | .finite a, .finite b => a ≤ b
  | _, _ => False

/-- Rows in order: the first array in which they differ decides. -/
def lexLe : List MergeType → List Nat → List Nat → Prop
  | type :: types, a :: as, b :: bs =>
      (type.number a).le (type.number b)
        ∧ ((type.number b).le (type.number a) → lexLe types as bs)
  | _, _, _ => True

/-- The sign of a difference of integers. -/
def intCmp (a b : Int) : Int := boolInt (decide (b < a)) - boolInt (decide (a < b))

theorem intCmp_nonpos {a b : Int} : intCmp a b ≤ 0 ↔ a ≤ b := by
  unfold intCmp boolInt
  grind

theorem intCmp_threeWay : ThreeWay intCmp where
  swap a b := by
    unfold intCmp boolInt
    grind
  trans a b c hab hbc :=
    intCmp_nonpos.mpr (Int.le_trans (intCmp_nonpos.mp hab) (intCmp_nonpos.mp hbc))

/-- Infinities below and above the finite numbers, NaN above all. -/
def Number.rank : Number → Int
  | .infinite true => 0
  | .finite _ => 1
  | .infinite false => 2
  | .nan => 3

/-- Finite numbers by size. -/
def Number.units : Number → Int
  | .finite units => units
  | _ => 0

/-- Numbers are compared by rank, then by size. -/
def numberCmps : List (Number → Number → Int) :=
  [fun a b => intCmp a.rank b.rank, fun a b => intCmp a.units b.units]

theorem numberCmps_threeWay : ThreeWay (lexCmp numberCmps) := by
  refine ThreeWay.lexCmp fun cmp hcmp => ?_
  rcases List.mem_cons.mp hcmp with rfl | hcmp
  · exact intCmp_threeWay.comap Number.rank
  · rw [List.mem_singleton.mp hcmp]
    exact intCmp_threeWay.comap Number.units

/-- Integers are not NaN. -/
theorem number_ne_nan {type : MergeType} (h : type.isFloatingPoint = false)
    (bits : Nat) : type.number bits ≠ .nan := by
  cases type with
  | int32 | int64 => exact fun hnan => by cases hnan
  | float32 | float64 => cases h

/-- Numbers of one rank are compared by size. -/
theorem lexCmp_numberCmps (a b : Number) : lexCmp numberCmps a b
    = if a.rank = b.rank then intCmp a.units b.units
      else intCmp a.rank b.rank := by
  unfold numberCmps lexCmp lexCmp lexCmp intCmp boolInt
  grind

/-- Elements are compared as numbers are. -/
theorem compareElements_eq (type : MergeType) (lhs rhs : Nat) :
    compareElements type lhs rhs
      = lexCmp numberCmps (type.number lhs) (type.number rhs) := by
  have hnan : ∀ bits, type.number bits = .nan → type.isFloatingPoint = true :=
    fun bits h => Bool.not_eq_false _ ▸ fun hint => number_ne_nan hint bits h
  have hlhs := hnan lhs
  have hrhs := hnan rhs
  rw [lexCmp_numberCmps]
  unfold compareElements
  dsimp only
  generalize type.number lhs = a at hlhs ⊢
  generalize type.number rhs = b at hrhs ⊢
  cases a with
  | nan =>
      rw [hlhs rfl]
      rcases b with v | ⟨_ | _⟩ | _ <;> rfl
  | finite u =>
      rcases b with v | ⟨_ | _⟩ | _
      · cases type.isFloatingPoint <;> rfl
      · simp [Number.rank, Number.less, intCmp, boolInt]
      · simp [Number.rank, Number.less, intCmp, boolInt]
      · rw [hrhs rfl]
        rfl
  | infinite negative =>
      rcases b with v | ⟨_ | _⟩ | _
      · cases negative <;> simp [Number.rank, Number.less, intCmp, boolInt]
      · cases negative <;> simp [Number.rank, Number.units, Number.less, intCmp, boolInt]
      · cases negative <;> simp [Number.rank, Number.units, Number.less, intCmp, boolInt]
      · rw [hrhs rfl]
        cases negative <;> rfl

theorem compareElements_threeWay (type : MergeType) :
    ThreeWay (compareElements type) := by
  have heq : compareElements type
      = fun a b => lexCmp numberCmps (type.number a) (type.number b) := by
    funext a b
    exact compareElements_eq type a b
  rw [heq]
  exact numberCmps_threeWay.comap type.number

/-- `Compare` decides the order of numbers. -/
theorem compareElements_nonpos (type : MergeType) (lhs rhs : Nat) :
    compareElements type lhs rhs ≤ 0
      ↔ (type.number lhs).le (type.number rhs) := by
  rw [compareElements_eq, lexCmp_numberCmps]
  generalize type.number lhs = a
  generalize type.number rhs = b
  rcases a with u | ⟨_ | _⟩ | _ <;> rcases b with v | ⟨_ | _⟩ | _ <;>
    simp [Number.rank, Number.units, Number.le, intCmp_nonpos]

-- ============================================================== rows

/-- Elements that do not exist sort before those that do. -/
theorem compareAt_threeWay (type : MergeType) : ThreeWay (compareAt type) := by
  have h := compareElements_threeWay type
  constructor
  · intro a b
    cases a <;> cases b <;> simp [compareAt, h.swap]
  · intro a b c
    cases a <;> cases b <;> cases c <;> simp [compareAt]
    exact h.trans _ _ _

section Rows

variable (inputs : List (List (List Nat)))

/-- Rows are compared array by array, from array `a` on. -/
def rowCmps (a : Nat) (types : List MergeType) :
    List (MergeData → MergeData → Int) :=
  (types.zipIdx a).map fun type lhs rhs =>
    compareAt type.1 (rowElement inputs lhs type.2) (rowElement inputs rhs type.2)

theorem greaterFrom_eq (lhs rhs : MergeData) (a : Nat) (types : List MergeType) :
    greaterFrom inputs lhs rhs a types
      = decide (0 < lexCmp (rowCmps inputs a types) lhs rhs) := by
  induction types generalizing a with
  | nil => rfl
  | cons type types ih =>
      unfold greaterFrom rowCmps
      rw [List.zipIdx_cons, List.map_cons, lexCmp, ih]
      dsimp only
      split <;> rfl

theorem rowCmps_threeWay (types : List MergeType) :
    ThreeWay (lexCmp (rowCmps inputs 0 types)) := by
  refine ThreeWay.lexCmp fun cmp hcmp => ?_
  obtain ⟨type, -, rfl⟩ := List.mem_map.mp hcmp
  exact (compareAt_threeWay type.1).comap fun data => rowElement inputs data type.2

/-- The comparator is a strict weak order, NaNs or not. -/
theorem greater_strictWeakOrder (types : List MergeType) :
    IsStrictWeakOrder MergeData fun a b => greater inputs types a b = true := by
  have heq : (fun a b => greater inputs types a b = true)
      = fun a b => 0 < lexCmp (rowCmps inputs 0 types) a b := by
    funext a b
    rw [greater, greaterFrom_eq, decide_eq_true_eq]
  rw [heq]
  exact (rowCmps_threeWay inputs types).strictWeakOrder

/-- What does not sort after does so transitively. -/
theorem greater_trans (types : List MergeType) (a b c : MergeData)
    (hab : greater inputs types a b = false)
    (hbc : greater inputs types b c = false) :
    greater inputs types a c = false := by
  rw [greater, greaterFrom_eq, decide_eq_false_iff_not] at hab hbc ⊢
  have := (rowCmps_threeWay inputs types).trans a b c (by omega) (by omega)
  omega

/-- Rows that exist are compared lexicographically. -/
theorem greaterFrom_false_iff {lhs rhs : MergeData} {a : Nat}
    {types : List MergeType} {as bs : List Nat} (has : as.length = types.length)
    (hbs : bs.length = types.length)
    (hlhs : ∀ i, rowElement inputs lhs (a + i) = as[i]? ∨ types.length ≤ i)
    (hrhs : ∀ i, rowElement inputs rhs (a + i) = bs[i]? ∨ types.length ≤ i) :
    greaterFrom inputs lhs rhs a types = false ↔ lexLe types as bs := by
  induction types generalizing a as bs with
  | nil => exact iff_of_true rfl trivial
  | cons type types ih =>
      cases as with
      | nil => cases has
      | cons x as =>
          cases bs with
          | nil => cases hbs
          | cons y bs =>
              have hx : rowElement inputs lhs a = some x := by
                simpa using hlhs 0
              have hy : rowElement inputs rhs a = some y := by
                simpa using hrhs 0
              have hih := @ih (a + 1) as bs (by simpa using has)
                (by simpa using hbs)
                (fun i => by simpa [Nat.add_assoc, Nat.add_comm 1] using hlhs (i + 1))
                (fun i => by simpa [Nat.add_assoc, Nat.add_comm 1] using hrhs (i + 1))
              have hle := compareElements_nonpos type x y
              have hge := compareElements_nonpos type y x
              have hzero := (compareElements_threeWay type).zero_iff x y
              have hswap := (compareElements_threeWay type).swap y x
              simp only [greaterFrom, hx, hy, compareAt, lexLe, ← hle, ← hge]
              by_cases hcmp : compareElements type x y = 0
              · rw [if_neg (not_not.mpr hcmp), hih]
                simp [hcmp, hzero.mp hcmp]
              · rw [if_pos hcmp, decide_eq_false_iff_not]
                constructor
                · intro h
                  exact ⟨by omega, fun h' => by omega⟩
                · intro h
                  omega

end Rows

-- ============================================================== the loop

/-- Arrays that `PartitionMerge` may be given: each partition has
`narrays` arrays of its number of rows. -/
structure MergeInputs (inputs : List (List (List Nat))) (nrows : List Nat)
    (narrays : Nat) : Prop where
  length : nrows.length = inputs.length
  arrays : ∀ p arrays, inputs[p]? = some arrays → arrays.length = narrays
    ∧ ∀ array ∈ arrays, array.length = nrows.getD p 0

/-- The elements of a row. -/
def rowValues (inputs : List (List (List Nat))) (data : MergeData) : List Nat :=
  (inputs.getD data.partition []).map fun array => array.getD data.row 0

/-- A row of some partition. -/
def IsRow (nrows : List Nat) (data : MergeData) : Prop :=
  data.partition < nrows.length ∧ data.row < nrows.getD data.partition 0

/-- The rows of a partition from `row` on. -/
def rowsFrom (nrows : List Nat) (row p : Nat) : List MergeData :=
  (List.range' row (nrows.getD p 0 - row)).map fun r => ⟨r, p⟩

/-- The rows that are left of each partition. -/
def rowsLeft (nrows : List Nat) (next : Nat → Nat) : List (List MergeData) :=
  (List.range nrows.length).map fun p => rowsFrom nrows (next p) p

section Loop

variable {inputs : List (List (List Nat))} {nrows : List Nat} {narrays : Nat}

/-- A row has its elements. -/
theorem MergeInputs.rowElement (h : MergeInputs inputs nrows narrays)
    {data : MergeData} (hrow : IsRow nrows data) {a : Nat} (ha : a < narrays) :
    rowElement inputs data a = some ((rowValues inputs data).getD a 0) := by
  obtain ⟨hp, hr⟩ := hrow
  have hp' : data.partition < inputs.length := by
    rw [← h.length]
    exact hp
  obtain ⟨hlen, hall⟩ := h.arrays _ _ (List.getElem?_eq_getElem hp')
  have ha' : a < inputs[data.partition].length := by omega
  have hr' : data.row < inputs[data.partition][a].length := by
    rw [hall _ (List.getElem_mem ha')]
    exact hr
  simp only [Arcae.rowElement, List.getElem?_eq_getElem hp',
    List.getElem?_eq_getElem ha', List.getElem?_eq_getElem hr']
  rw [rowValues, List.getD_eq_getElem _ _ hp',
    List.getD_eq_getElem _ _ (by simpa using ha'), List.getElem_map,
    List.getD_eq_getElem _ _ hr']

theorem MergeInputs.rowValues_length (h : MergeInputs inputs nrows narrays)
    {data : MergeData} (hrow : IsRow nrows data) :
    (rowValues inputs data).length = narrays := by
  have hp : data.partition < inputs.length := by
    rw [← h.length]
    exact hrow.1
  rw [rowValues, List.length_map, List.getD_eq_getElem _ _ hp]
  exact (h.arrays _ _ (List.getElem?_eq_getElem hp)).1

/-- The comparator decides the lexicographic order of rows. -/
theorem MergeInputs.greater_false_iff {types : List MergeType}
    (h : MergeInputs inputs nrows types.length) {lhs rhs : MergeData}
    (hlhs : IsRow nrows lhs) (hrhs : IsRow nrows rhs) :
    greater inputs types lhs rhs = false
      ↔ lexLe types (rowValues inputs lhs) (rowValues inputs rhs) := by
  have helement : ∀ {data}, IsRow nrows data → ∀ i,
      Arcae.rowElement inputs data (0 + i) = (rowValues inputs data)[i]?
        ∨ types.length ≤ i := by
    intro data hrow i
    by_cases hi : i < types.length
    · left
      have hi' : i < (rowValues inputs data).length := by
        rw [h.rowValues_length hrow]
        exact hi
      rw [Nat.zero_add, h.rowElement hrow hi, List.getD_eq_getElem _ _ hi',
        List.getElem?_eq_getElem hi']
    · exact .inr (by omega)
  exact greaterFrom_false_iff inputs (h.rowValues_length hlhs)
    (h.rowValues_length hrhs) (helement hlhs) (helement hrhs)

/-- Copying a row appends its elements to the rows copied so far. -/
theorem copyRow_ok (h : MergeInputs inputs nrows narrays) {data : MergeData}
    (hrow : IsRow nrows data) {row : Nat} {outputs : List (List Nat)}
    (hlen : outputs.length = narrays)
    (hroom : ∀ output ∈ outputs, row < output.length) :
    ∃ outputs', copyRow inputs data row outputs = .ok outputs'
      ∧ outputs'.length = narrays
      ∧ ∀ a < narrays, outputs'.getD a []
        = (outputs.getD a []).set row ((rowValues inputs data).getD a 0) := by
  refine ⟨outputs.zipIdx.map fun output =>
    output.1.set row ((rowValues inputs data).getD output.2 0), ?_, ?_, ?_⟩
  · refine mapM_ok_of_forall fun output hmem => ?_
    obtain ⟨output, a⟩ := output
    have hget := List.mem_zipIdx_iff_getElem?.mp hmem
    obtain ⟨ha, hget⟩ := List.getElem?_eq_some_iff.mp hget
    have hroom' : row < output.length :=
      hroom output (List.mem_of_getElem hget)
    dsimp only
    rw [h.rowElement hrow (by omega)]
    dsimp only
    rw [if_pos hroom']
  · rw [List.length_map, List.length_zipIdx, hlen]
  · intro a ha
    have ha' : a < outputs.length := by omega
    rw [List.getD_eq_getElem _ _ (by simpa using ha'),
      List.getD_eq_getElem _ _ ha', List.getElem_map, List.getElem_zipIdx]
    simp

/-- Setting an element of each leaves their lengths. -/
theorem length_of_set {outputs outputs' : List (List Nat)} {row n : Nat}
    {x : Nat → Nat} (hlen : outputs.length = outputs'.length)
    (hall : ∀ output ∈ outputs, output.length = n)
    (hset : ∀ a < outputs'.length,
      outputs'.getD a [] = (outputs.getD a []).set row (x a)) :
    ∀ output ∈ outputs', output.length = n := by
  intro output hmem
  obtain ⟨a, ha, rfl⟩ := List.mem_iff_getElem.mp hmem
  have ha' : a < outputs.length := by omega
  have hget := hset a ha
  rw [List.getD_eq_getElem _ _ ha] at hget
  rw [hget, List.length_set, List.getD_eq_getElem _ _ ha',
    hall _ (List.getElem_mem ha')]

/-- The queue holds the next row of each partition that has rows left. -/
structure QueueInv (nrows : List Nat) (next : Nat → Nat)
    (elements : List MergeData) : Prop where
  nodup : elements.Nodup
  mem : ∀ data, data ∈ elements
    ↔ IsRow nrows data ∧ data.row = next data.partition

/-- The heads of the rows that are left are what the queue holds. -/
theorem QueueInv.head {next : Nat → Nat} {elements : List MergeData}
    (h : QueueInv nrows next elements) {l : List MergeData}
    (hl : l ∈ rowsLeft nrows next) {data : MergeData}
    (hdata : l.head? = some data) : data ∈ elements := by
  obtain ⟨p, hp, rfl⟩ := List.mem_map.mp hl
  rw [rowsFrom] at hdata
  cases hn : nrows.getD p 0 - next p with
  | zero =>
      rw [hn] at hdata
      cases hdata
  | succ n =>
      rw [hn, List.range'_succ] at hdata
      cases hdata
      refine (h.mem _).mpr ⟨⟨List.mem_range.mp hp, ?_⟩, rfl⟩
      show next p < nrows.getD p 0
      omega

/-- Once the queue holds none, none is left. -/
theorem QueueInv.left_nil {next : Nat → Nat} (h : QueueInv nrows next [])
    {l : List MergeData} (hl : l ∈ rowsLeft nrows next) : l = [] := by
  cases hhead : l.head? with
  | none => exact List.head?_eq_none_iff.mp hhead
  | some data => exact absurd (h.head hl hhead) List.not_mem_nil

/-- The rows that are left, after taking the next one of a partition. -/
theorem rowsLeft_update {next : Nat → Nat} {top : MergeData}
    (hrow : IsRow nrows top) (hnext : top.row = next top.partition) :
    (rowsLeft nrows next)[top.partition]?
        = some (top :: rowsFrom nrows (top.row + 1) top.partition)
      ∧ rowsLeft nrows (Function.update next top.partition (top.row + 1))
        = (rowsLeft nrows next).set top.partition
          (rowsFrom nrows (top.row + 1) top.partition) := by
  obtain ⟨hp, hr⟩ := hrow
  constructor
  · rw [rowsLeft, List.getElem?_map, List.getElem?_range hp, Option.map_some,
      ← hnext, rowsFrom, show nrows.getD top.partition 0 - top.row
        = nrows.getD top.partition 0 - (top.row + 1) + 1 by omega,
      List.range'_succ]
    rfl
  · refine List.ext_getElem (by simp [rowsLeft]) fun p h₁ h₂ => ?_
    by_cases heq : top.partition = p
    · subst heq
      simp [rowsLeft]
    · rw [List.getElem_set_ne heq]
      simp [rowsLeft, Function.update_of_ne (Ne.symm heq)]

/-- Taking the top and pushing the row after it keeps the invariant. -/
theorem QueueInv.step {next : Nat → Nat} {elements rest : List MergeData}
    {top : MergeData} (h : QueueInv nrows next elements)
    (hperm : elements.Perm (top :: rest)) {elements' : List MergeData}
    (hpush : if top.row + 1 < nrows.getD top.partition 0 then
        elements'.Perm (⟨top.row + 1, top.partition⟩ :: rest)
      else elements' = rest) :
    QueueInv nrows (Function.update next top.partition (top.row + 1))
      elements' := by
  have hnodup := hperm.nodup_iff.mp h.nodup
  rw [List.nodup_cons] at hnodup
  have htop := (h.mem top).mp (hperm.mem_iff.mpr List.mem_cons_self)
  -- the rest are the next rows of the other partitions
  have hrest : ∀ data, data ∈ rest ↔ data.partition ≠ top.partition
      ∧ IsRow nrows data ∧ data.row = next data.partition := by
    intro data
    have hmem := hperm.mem_iff (a := data)
    rw [List.mem_cons, h.mem data] at hmem
    constructor
    · intro hdata
      obtain ⟨hrow, hnext⟩ := hmem.mpr (.inr hdata)
      refine ⟨fun heq => hnodup.1 ?_, hrow, hnext⟩
      have hsame : data = top := by
        cases data
        cases top
        simp_all
      exact hsame ▸ hdata
    · intro hx
      obtain ⟨hne, hdata⟩ := hx
      refine (hmem.mp hdata).resolve_left fun heq => hne ?_
      rw [heq]
  have hold : ∀ data : MergeData, data.partition ≠ top.partition →
      Function.update next top.partition (top.row + 1) data.partition
        = next data.partition := fun data hne => Function.update_of_ne hne _ _
  split at hpush
  · rename_i hmore
    refine ⟨hpush.nodup_iff.mpr (List.nodup_cons.mpr ⟨fun hmem => ?_, hnodup.2⟩),
      fun data => ?_⟩
    · exact ((hrest _).mp hmem).1 rfl
    · rw [hpush.mem_iff, List.mem_cons, hrest]
      by_cases heq : data.partition = top.partition
      · constructor
        · intro hx
          obtain rfl := hx.resolve_right fun hx => hx.1 heq
          exact ⟨⟨htop.1.1, hmore⟩,
            (Function.update_self top.partition (top.row + 1) next).symm⟩
        · intro hx
          left
          have hrow : data.row = top.row + 1 := by
            rw [hx.2, heq, Function.update_self]
          cases data
          simp_all
      · rw [hold data heq]
        constructor
        · intro hx
          rcases hx with rfl | hx
          · exact absurd rfl heq
          · exact hx.2
        · intro hx
          exact .inr ⟨heq, hx⟩
  · rename_i hdone
    subst hpush
    refine ⟨hnodup.2, fun data => ?_⟩
    rw [hrest]
    by_cases heq : data.partition = top.partition
    · refine iff_of_false (fun hx => hx.1 heq) fun hx => hdone ?_
      obtain ⟨⟨-, hrow⟩, hnext⟩ := hx
      rw [hnext, heq, Function.update_self] at hrow
      exact hrow
    · rw [hold data heq]
      exact ⟨fun hx => hx.2, fun hx => ⟨heq, hx⟩⟩

/-- The elements so far, and one more. -/
theorem take_succ_set {l : List Nat} {i : Nat} (hi : i < l.length) (x : Nat) :
    (l.set i x).take (i + 1) = l.take i ++ [x] := by
  rw [List.take_succ_eq_append_getElem (by simpa using hi),
    List.take_set_of_le (Nat.le_refl i), List.getElem_set_self]

section Run

variable {types : List MergeType}
  (queue : StdPriorityQueue (greater inputs types))

/-- The loop takes the rows that are left as a merge does, and copies
each behind the ones before it. -/
theorem mergeLoop_merges (h : MergeInputs inputs nrows types.length) (fuel : Nat)
    {next : Nat → Nat} {q : queue.Queue} {row : Nat} {outputs : List (List Nat)}
    (hinv : QueueInv nrows next (queue.elements q))
    (hfuel : (rowsLeft nrows next).flatten.length < fuel)
    (hlen : outputs.length = types.length)
    (hroom : ∀ output ∈ outputs,
      output.length = row + (rowsLeft nrows next).flatten.length) :
    ∃ order merged,
      Merged (fun a b => greater inputs types a b = false) (rowsLeft nrows next)
        order
      ∧ mergeLoop queue nrows fuel q row outputs = .ok merged
      ∧ merged.length = types.length
      ∧ ∀ a < types.length, merged.getD a []
        = (outputs.getD a []).take row
          ++ order.map fun data => (rowValues inputs data).getD a 0 := by
  induction fuel generalizing next q row outputs with
  | zero => exact absurd hfuel (Nat.not_lt_zero _)
  | succ fuel ih =>
      unfold mergeLoop
      cases hpop : queue.pop q with
      | none =>
          rw [queue.pop_none q hpop] at hinv
          have hleft : ∀ l ∈ rowsLeft nrows next, l = [] :=
            fun l hl => hinv.left_nil hl
          refine ⟨[], outputs, .nil hleft, rfl, hlen, fun a ha => ?_⟩
          have hmem : outputs.getD a [] ∈ outputs := by
            rw [List.getD_eq_getElem _ _ (by omega)]
            exact List.getElem_mem _
          have hall := hroom _ hmem
          rw [List.flatten_eq_nil_iff.mpr hleft, List.length_nil] at hall
          rw [List.map_nil, List.append_nil, List.take_of_length_le (by omega)]
      | some popped =>
          obtain ⟨top, rest⟩ := popped
          have hperm := queue.pop_perm q top rest hpop
          obtain ⟨hrow, hnext⟩ :=
            (hinv.mem top).mp (hperm.mem_iff.mpr List.mem_cons_self)
          obtain ⟨hhead, hset⟩ := rowsLeft_update hrow hnext
          -- one row less is left
          have hcount : (rowsLeft nrows next).flatten.length
              = (rowsLeft nrows
                (Function.update next top.partition (top.row + 1))).flatten.length
                + 1 := by
            rw [hset]
            exact Merged.flatten_length_set hhead
          have hspare : ∀ output ∈ outputs, row < output.length := by
            intro output hmem
            have := hroom output hmem
            omega
          obtain ⟨outputs', hcopy, hlen', houtputs⟩ :=
            copyRow_ok h hrow hlen hspare
          have hroom' : ∀ output ∈ outputs', output.length = row + 1
              + (rowsLeft nrows
                (Function.update next top.partition
                  (top.row + 1))).flatten.length := by
            intro output hmem
            have hkept := length_of_set (hlen.trans hlen'.symm) hroom
              (hlen' ▸ houtputs) output hmem
            omega
          dsimp only
          rw [hcopy, Result.ok_bind]
          have hinv' := @QueueInv.step nrows next _ _ top hinv hperm
            (queue.elements (if top.row + 1 < nrows.getD top.partition 0 then
              queue.push rest ⟨top.row + 1, top.partition⟩ else rest)) (by
                split
                · exact queue.push_perm _ _
                · rfl)
          obtain ⟨order, merged, hmerged, hloop, hlen'', hall⟩ :=
            ih hinv' (by omega) hlen' hroom'
          refine ⟨top :: order, merged, ?_, hloop, hlen'', fun a ha => ?_⟩
          · refine .cons top.partition top _ hhead (fun l hl y hy => ?_)
              (hset ▸ hmerged)
            exact queue.pop_least (greater_strictWeakOrder inputs types) q top
              rest hpop y (hinv.head hl hy)
          · have hlt : row < (outputs.getD a []).length := by
              rw [List.getD_eq_getElem _ _ (by omega),
                hroom _ (List.getElem_mem _)]
              omega
            rw [hall a ha, houtputs a ha, take_succ_set hlt, List.append_assoc]
            rfl

/-- The queue starts with the first row of each partition that has
rows. -/
theorem firstRows_inv (h : MergeInputs inputs nrows types.length) :
    QueueInv nrows (fun _ => 0) (queue.elements (firstRows queue nrows)) := by
  have key : ∀ n ≤ nrows.length,
      (queue.elements ((List.range n).foldl
        (fun q p => if 0 < nrows.getD p 0 then queue.push q ⟨0, p⟩ else q)
        queue.empty)).Nodup
      ∧ ∀ data, data ∈ queue.elements ((List.range n).foldl
          (fun q p => if 0 < nrows.getD p 0 then queue.push q ⟨0, p⟩ else q)
          queue.empty)
        ↔ data.partition < n ∧ 0 < nrows.getD data.partition 0
          ∧ data.row = 0 := by
    intro n
    induction n with
    | zero =>
        intro _
        rw [List.range_zero, List.foldl_nil, queue.elements_empty]
        exact ⟨List.nodup_nil, fun data => by simp⟩
    | succ n ih =>
        intro hn
        obtain ⟨hnodup, hmem⟩ := ih (by omega)
        rw [List.range_succ, List.foldl_append, List.foldl_cons, List.foldl_nil]
        split
        · rename_i hpos
          have hperm := queue.push_perm ((List.range n).foldl
            (fun q p => if 0 < nrows.getD p 0 then queue.push q ⟨0, p⟩ else q)
            queue.empty) ⟨0, n⟩
          refine ⟨hperm.nodup_iff.mpr (List.nodup_cons.mpr ⟨fun hx => ?_, hnodup⟩),
            fun data => ?_⟩
          · exact absurd ((hmem _).mp hx).1 (Nat.lt_irrefl n)
          · rw [hperm.mem_iff, List.mem_cons, hmem]
            constructor
            · intro hx
              rcases hx with rfl | ⟨hlt, hrest⟩
              · exact ⟨Nat.lt_succ_self n, hpos, rfl⟩
              · exact ⟨by omega, hrest⟩
            · intro hx
              obtain ⟨hlt, hpos', hrow⟩ := hx
              rcases Nat.lt_succ_iff_lt_or_eq.mp hlt with hlt | heq
              · exact .inr ⟨hlt, hpos', hrow⟩
              · left
                cases data
                simp_all
        · rename_i hpos
          refine ⟨hnodup, fun data => (hmem data).trans ?_⟩
          constructor
          · intro hx
            exact ⟨by omega, hx.2⟩
          · intro hx
            obtain ⟨hlt, hpos', hrow⟩ := hx
            rcases Nat.lt_succ_iff_lt_or_eq.mp hlt with hlt | heq
            · exact ⟨hlt, hpos', hrow⟩
            · rw [heq] at hpos'
              exact absurd hpos' hpos
  obtain ⟨hnodup, hmem⟩ := key nrows.length (Nat.le_refl _)
  rw [h.length] at hnodup hmem
  refine ⟨hnodup, fun data => (hmem data).trans ?_⟩
  rw [← h.length, IsRow]
  constructor
  · intro hx
    obtain ⟨hlt, hpos, hrow⟩ := hx
    exact ⟨⟨hlt, hrow ▸ hpos⟩, hrow⟩
  · intro hx
    obtain ⟨⟨hlt, hpos⟩, hrow⟩ := hx
    exact ⟨hlt, by omega, hrow⟩

end Run

/-- All rows of all partitions. -/
theorem rowsLeft_length (nrows : List Nat) :
    (rowsLeft nrows fun _ => 0).flatten.length = nrows.sum := by
  have hlens : (rowsLeft nrows fun _ => 0).map List.length = nrows := by
    refine List.ext_getElem (by simp [rowsLeft]) fun p h₁ h₂ => ?_
    simp [rowsLeft, rowsFrom, List.getElem?_eq_getElem h₂]
  rw [List.length_flatten, hlens]

/-- `PartitionMerge` ends, and its output arrays are those of the merged
rows. -/
theorem partitionMerge_merges (queues : StdPriorityQueues)
    {types : List MergeType} (h : MergeInputs inputs nrows types.length)
    {outputs : List (List Nat)} (hlen : outputs.length = types.length)
    (hroom : ∀ output ∈ outputs, output.length = nrows.sum) :
    ∃ order merged,
      Merged (fun a b => greater inputs types a b = false)
        (rowsLeft nrows fun _ => 0) order
      ∧ partitionMerge queues inputs nrows types outputs = .ok merged
      ∧ merged = (List.range types.length).map fun a =>
        order.map fun data => (rowValues inputs data).getD a 0 := by
  obtain ⟨order, merged, hmerged, hloop, hlen', hall⟩ := mergeLoop_merges
    (queues (greater inputs types)) h (nrows.sum + 1)
    (firstRows_inv (queues (greater inputs types)) h)
    (by rw [rowsLeft_length]; omega) hlen (fun output hmem => by
      rw [hroom output hmem, rowsLeft_length, Nat.zero_add])
  refine ⟨order, merged, hmerged, hloop, List.ext_getElem (by simpa using hlen')
    fun a h₁ h₂ => ?_⟩
  have ha := hall a (by omega)
  rw [List.getD_eq_getElem _ _ h₁, List.take_zero, List.nil_append] at ha
  simpa using ha

end Loop

-- ========================================================= the partitions

namespace NpDict

/-- The elements of the array under a key. -/
def column (d : NpDict) (key : String) : List Nat :=
  ((d.get? key).map NpArray.values).getD []

/-- The number of rows: the length of the first array. -/
def nRows (keys : List String) (d : NpDict) : Nat :=
  (keys.head?.map fun key => (d.column key).length).getD 0

/-- A row: its element of each array, in the order of the keys. -/
def row (keys : List String) (d : NpDict) (r : Nat) : List Nat :=
  keys.map fun key => (d.column key).getD r 0

/-- The rows. -/
def rows (keys : List String) (d : NpDict) : List (List Nat) :=
  (List.range (d.nRows keys)).map (d.row keys)

end NpDict

/-- A dict of one-dimensional arrays of one length, of these types under
these keys. -/
structure HasColumns (keys : List String) (types : List MergeType)
    (d : NpDict) : Prop where
  sameKeys : ∀ key, key ∈ d.keys ↔ key ∈ keys
  lengths : ∀ key ∈ keys, (d.column key).length = d.nRows keys
  types : List.Forall₂ (fun key type => ∃ array, d.get? key = some array
    ∧ array.ndim = 1 ∧ mergeType array.dtype = .ok type) keys types

/-- The keys of the first partition. -/
def mergeKeys (partitions : List NpDict) : List String :=
  (partitions.head?.map NpDict.keys).getD []

/-- Partitions of the same keys and types. -/
structure Mergeable (types : List MergeType) (partitions : List NpDict) :
    Prop where
  arity : (mergeKeys partitions).length = types.length
  columns : ∀ d ∈ partitions, HasColumns (mergeKeys partitions) types d

/-- A row of the partitions. -/
def rowOf (partitions : List NpDict) (data : MergeData) : List Nat :=
  (partitions[data.partition]?.map fun d =>
    d.row (mergeKeys partitions) data.row).getD []

/-- The merge of some partitions: their rows, each of them whole, those
of each partition in its order, and all of them in order if the
partitions are. -/
structure IsMergeOf (types : List MergeType) (partitions : List NpDict)
    (merged : NpDict) : Prop where
  keys : merged.keys = mergeKeys partitions
  columns : HasColumns (mergeKeys partitions) types merged
  rows : (merged.rows (mergeKeys partitions)).Perm
    (partitions.flatMap (NpDict.rows (mergeKeys partitions)))
  ordered : ∃ order : List MergeData,
    merged.rows (mergeKeys partitions) = order.map (rowOf partitions)
      ∧ (∀ data ∈ order, data.partition < partitions.length)
      ∧ ∀ p (hp : p < partitions.length),
        order.filter (fun data => data.partition == p)
          = (List.range (partitions[p].nRows (mergeKeys partitions))).map
            fun r => ⟨r, p⟩
  sorted :
    (∀ d ∈ partitions, (d.rows (mergeKeys partitions)).Pairwise (lexLe types)) →
      (merged.rows (mergeKeys partitions)).Pairwise (lexLe types)

-- ==================================================== merge_np_partitions

/-- An array, made native. -/
def NpArray.toNative (array : NpArray) : NpArray := { array with native := true }

/-- The arrays of a partition as they are merged. -/
def nativeArrays (keys : List String) (d : NpDict) : List NpArray :=
  (keys.filterMap d.get?).map NpArray.toNative

/-- Each type comes from one element type. -/
theorem mergeType_inj {a b : NpDtype} {type : MergeType}
    (ha : mergeType a = .ok type) (hb : mergeType b = .ok type) : a = b := by
  cases type with
  | int32 | int64 | float32 | float64 =>
      cases a <;> cases ha
      cases b <;> cases hb
      rfl

/-- One-dimensional arrays of one length are collected. -/
theorem addArrays_ok {n : Nat} {arrays : List NpArray}
    (harrays : ∀ array ∈ arrays, array.ndim = 1 ∧ array.values.length = n)
    {acc : List NpArray} (hacc : ∀ array ∈ acc, array.values.length = n) :
    arrays.foldlM addArray acc = .ok (acc ++ arrays.map NpArray.toNative) := by
  induction arrays generalizing acc with
  | nil =>
      rw [List.map_nil, List.append_nil]
      rfl
  | cons array arrays ih =>
      obtain ⟨hndim, hlen⟩ := harrays array List.mem_cons_self
      have hstep : addArray acc array = .ok (acc ++ [array.toNative]) := by
        unfold addArray
        rw [if_neg (not_not.mpr hndim)]
        cases acc with
        | nil => rfl
        | cons first acc =>
            have hfirst := hacc first List.mem_cons_self
            exact if_neg (not_not.mpr (hlen.trans hfirst.symm))
      rw [List.foldlM_cons, hstep]
      have hrest := @ih (fun a ha => harrays a (List.mem_cons_of_mem _ ha))
        (acc ++ [array.toNative]) (by
          intro a ha
          rcases List.mem_append.mp ha with ha | ha
          · exact hacc a ha
          · rw [List.mem_singleton.mp ha]
            exact hlen)
      rw [List.append_assoc] at hrest
      exact hrest

section Columns

variable {keys : List String} {types : List MergeType} {d : NpDict}

/-- The arrays of a dict, in the order of the keys. -/
theorem HasColumns.arrays (h : HasColumns keys types d) :
    (keys.filterMap d.get?).map NpArray.values = keys.map d.column
      ∧ (∀ array ∈ keys.filterMap d.get?,
        array.ndim = 1 ∧ array.values.length = d.nRows keys)
      ∧ List.Forall₂ (fun array type => mergeType array.dtype = .ok type)
        (nativeArrays keys d) types := by
  have hlengths := h.lengths
  have htypes := h.types
  generalize d.nRows keys = n at hlengths ⊢
  clear h
  unfold nativeArrays
  induction htypes with
  | nil => exact ⟨rfl, (fun array ha => by cases ha), .nil⟩
  | @cons key type keys types hkey _ ih =>
      obtain ⟨array, hget, hndim, hdtype⟩ := hkey
      obtain ⟨hvalues, hall, hforall⟩ := ih fun k hk =>
        hlengths k (List.mem_cons_of_mem _ hk)
      have hlen := hlengths key List.mem_cons_self
      have hcolumn : d.column key = array.values := by
        rw [NpDict.column, hget]
        rfl
      rw [List.filterMap_cons_some hget]
      refine ⟨?_, ?_, ?_⟩
      · rw [List.map_cons, List.map_cons, hvalues, hcolumn]
      · refine List.forall_mem_cons.mpr ⟨⟨hndim, ?_⟩, hall⟩
        rw [← hcolumn]
        exact hlen
      · exact .cons hdtype hforall

/-- What is merged of a partition: its arrays, and their length. -/
theorem HasColumns.native (h : HasColumns keys types d) :
    (nativeArrays keys d).map NpArray.values = keys.map d.column
      ∧ arraysRows (nativeArrays keys d) = d.nRows keys := by
  obtain ⟨hvalues, -, -⟩ := h.arrays
  have hnative : (nativeArrays keys d).map NpArray.values = keys.map d.column := by
    rw [← hvalues, nativeArrays, List.map_map]
    rfl
  refine ⟨hnative, ?_⟩
  unfold NpDict.nRows arraysRows
  cases keys with
  | nil => rfl
  | cons key keys =>
      cases harrays : nativeArrays (key :: keys) d with
      | nil =>
          rw [harrays] at hnative
          cases hnative
      | cons array arrays =>
          rw [harrays, List.map_cons, List.map_cons, List.cons.injEq] at hnative
          show array.values.length = (d.column key).length
          rw [hnative.1]

theorem HasColumns.nativeArrays_length (h : HasColumns keys types d) :
    (nativeArrays keys d).length = types.length :=
  h.arrays.2.2.length_eq

/-- A partition of the same keys and types is collected. -/
theorem addPartition_ok {first : NpDict} {columns : List (List NpArray)}
    (h : HasColumns first.keys types d)
    (hcolumns : ∀ column, columns.head? = some column →
      List.Forall₂ (fun array type => mergeType array.dtype = .ok type) column
        types) :
    addPartition first columns d
      = .ok (columns ++ [nativeArrays first.keys d]) := by
  obtain ⟨-, hall, htypes⟩ := h.arrays
  have hkeys : d.sameKeys first = true := by
    unfold NpDict.sameKeys
    simp only [Bool.and_eq_true, List.all_eq_true, List.contains_iff_mem]
    exact ⟨fun key => (h.sameKeys key).mp, fun key => (h.sameKeys key).mpr⟩
  have hfold := @addArrays_ok (d.nRows first.keys) _ hall [] fun a ha => by cases ha
  unfold addPartition
  rw [hkeys, Bool.not_true, if_neg Bool.false_ne_true, hfold]
  cases columns with
  | nil => rfl
  | cons column columns =>
      have hsame : ((nativeArrays first.keys d).zip column).any
          (fun c => decide (c.1.dtype ≠ c.2.dtype)) = false := by
        rw [List.any_eq_false]
        intro c hc
        obtain ⟨i, hi, hget⟩ := List.mem_iff_getElem.mp hc
        rw [List.length_zip] at hi
        have hcolumn := hcolumns column rfl
        have hi' : i < types.length := by
          have := htypes.length_eq
          omega
        have ha := htypes.get (by omega) hi'
        have hb := hcolumn.get (by omega) hi'
        rw [← hget, List.getElem_zip, decide_eq_true_eq, not_not]
        exact mergeType_inj ha hb
      show (if ((nativeArrays first.keys d).zip column).any
        (fun c => decide (c.1.dtype ≠ c.2.dtype)) then _ else _) = _
      rw [hsame]
      rfl

/-- All partitions of the same keys and types are collected. -/
theorem addPartitions_ok {first : NpDict} {partitions : List NpDict}
    (h : ∀ d ∈ partitions, HasColumns first.keys types d)
    {columns : List (List NpArray)}
    (hcolumns : ∀ column, columns.head? = some column →
      List.Forall₂ (fun array type => mergeType array.dtype = .ok type) column
        types) :
    partitions.foldlM (addPartition first) columns
      = .ok (columns ++ partitions.map (nativeArrays first.keys)) := by
  induction partitions generalizing columns with
  | nil =>
      rw [List.map_nil, List.append_nil]
      rfl
  | cons d partitions ih =>
      have hd := h d List.mem_cons_self
      rw [List.foldlM_cons, addPartition_ok hd hcolumns]
      have hrest := @ih (fun d' hd' => h d' (List.mem_cons_of_mem _ hd'))
        (columns ++ [nativeArrays first.keys d]) (by
          intro column hhead
          cases columns with
          | nil =>
              cases hhead
              exact hd.arrays.2.2
          | cons column' columns => exact hcolumns column hhead)
      rw [List.append_assoc] at hrest
      exact hrest

end Columns

/-- The partitions as `PartitionMerge` is given them. -/
theorem Mergeable.inputs {types : List MergeType} {partitions : List NpDict}
    (h : Mergeable types partitions) :
    MergeInputs (partitions.map fun d => (mergeKeys partitions).map d.column)
      (partitions.map (NpDict.nRows (mergeKeys partitions))) types.length where
  length := by rw [List.length_map, List.length_map]
  arrays := by
    intro p arrays hp
    rw [List.getElem?_map, Option.map_eq_some_iff] at hp
    obtain ⟨d, hd, rfl⟩ := hp
    have hcolumns := h.columns d (List.mem_of_getElem? hd)
    refine ⟨by rw [List.length_map, h.arity], fun array harray => ?_⟩
    obtain ⟨key, hkey, rfl⟩ := List.mem_map.mp harray
    rw [hcolumns.lengths key hkey, List.getD_eq_getElem?_getD, List.getElem?_map,
      hd]
    rfl

/-- The array under a key of a dict that was zipped. -/
theorem lookup_zip {keys : List String} (hnodup : keys.Nodup)
    {arrays : List NpArray} {i : Nat} (hi : i < keys.length)
    (hi' : i < arrays.length) :
    (keys.zip arrays).lookup keys[i] = some arrays[i] := by
  induction keys generalizing arrays i with
  | nil => exact absurd hi (Nat.not_lt_zero i)
  | cons key keys ih =>
      rw [List.nodup_cons] at hnodup
      cases arrays with
      | nil => exact absurd hi' (Nat.not_lt_zero i)
      | cons array arrays =>
          cases i with
          | zero => simp
          | succ i =>
              have hi₀ : i < keys.length := Nat.lt_of_succ_lt_succ hi
              have hne : keys[i] ≠ key := fun heq =>
                hnodup.1 (heq ▸ List.getElem_mem hi₀)
              rw [List.zip_cons_cons, List.getElem_cons_succ, List.lookup_cons,
                beq_false_of_ne hne]
              exact ih hnodup.2 hi₀ (Nat.lt_of_succ_lt_succ hi')

section Assembly

variable {types : List MergeType} {partitions : List NpDict}

/-- The rows that are merged are rows of the partitions. -/
theorem rowValues_eq {data : MergeData} (hp : data.partition < partitions.length) :
    rowValues (partitions.map fun d => (mergeKeys partitions).map d.column) data
      = rowOf partitions data := by
  unfold rowValues rowOf NpDict.row
  rw [List.getD_eq_getElem _ _ (by simpa using hp),
    List.getElem?_eq_getElem hp, List.getElem_map, List.map_map, Option.map_some,
    Option.getD_some]
  rfl

/-- The rows of a partition, before any is taken. -/
theorem rowsFrom_zero {p : Nat} (hp : p < partitions.length) :
    rowsFrom (partitions.map (NpDict.nRows (mergeKeys partitions))) 0 p
      = (List.range (partitions[p].nRows (mergeKeys partitions))).map
        fun r => ⟨r, p⟩ := by
  rw [rowsFrom, List.getD_eq_getElem _ _ (by simpa using hp), List.getElem_map,
    Nat.sub_zero, List.range_eq_range']

theorem rowsLeft_getElem? {p : Nat} (hp : p < partitions.length) :
    (rowsLeft (partitions.map (NpDict.nRows (mergeKeys partitions)))
        fun _ => 0)[p]?
      = some ((List.range (partitions[p].nRows (mergeKeys partitions))).map
        fun r => ⟨r, p⟩) := by
  rw [rowsLeft, List.getElem?_map, List.length_map, List.getElem?_range hp,
    Option.map_some, rowsFrom_zero hp]

/-- Those rows are rows of the partition. -/
theorem map_rowOf {d : NpDict} {p : Nat} (hd : partitions[p]? = some d) :
    ((List.range (d.nRows (mergeKeys partitions))).map fun r =>
      (⟨r, p⟩ : MergeData)).map (rowOf partitions)
        = d.rows (mergeKeys partitions) := by
  rw [List.map_map, NpDict.rows]
  refine List.map_congr_left fun r _ => ?_
  show rowOf partitions ⟨r, p⟩ = d.row (mergeKeys partitions) r
  rw [rowOf, hd]
  rfl

theorem isRow_of_mem {p : Nat} (hp : p < partitions.length) {data : MergeData}
    (hdata : data ∈ (List.range (partitions[p].nRows (mergeKeys partitions))).map
      fun r => (⟨r, p⟩ : MergeData)) :
    IsRow (partitions.map (NpDict.nRows (mergeKeys partitions))) data := by
  obtain ⟨r, hr, rfl⟩ := List.mem_map.mp hdata
  refine ⟨by simpa using hp, ?_⟩
  show r < List.getD _ p 0
  rw [List.getD_eq_getElem _ _ (by simpa using hp), List.getElem_map]
  exact List.mem_range.mp hr

/-- The order of the queue is lexicographic order of the rows. -/
theorem Mergeable.greater_iff (h : Mergeable types partitions)
    {a b : MergeData}
    (ha : IsRow (partitions.map (NpDict.nRows (mergeKeys partitions))) a)
    (hb : IsRow (partitions.map (NpDict.nRows (mergeKeys partitions))) b) :
    greater (partitions.map fun d => (mergeKeys partitions).map d.column)
        types a b = false
      ↔ lexLe types (rowOf partitions a) (rowOf partitions b) := by
  have hlen : (partitions.map (NpDict.nRows (mergeKeys partitions))).length
      = partitions.length := List.length_map _
  have hrows := h.inputs.greater_false_iff ha hb
  rw [rowValues_eq (hlen ▸ ha.1), rowValues_eq (hlen ▸ hb.1)] at hrows
  exact hrows

section Merged

variable {order : List MergeData}
  (hmerged : Merged (fun a b => greater
      (partitions.map fun d => (mergeKeys partitions).map d.column) types a b
        = false)
    (rowsLeft (partitions.map (NpDict.nRows (mergeKeys partitions)))
      fun _ => 0) order)

include hmerged

/-- What is merged are rows. -/
theorem merged_isRow : ∀ data ∈ order,
    IsRow (partitions.map (NpDict.nRows (mergeKeys partitions))) data := by
  intro data hdata
  obtain ⟨l, hl, hmem⟩ :=
    List.mem_flatten.mp (hmerged.interleaving.perm.mem_iff.mp hdata)
  obtain ⟨p, hp, rfl⟩ := List.mem_map.mp hl
  rw [List.mem_range, List.length_map] at hp
  rw [rowsFrom_zero hp] at hmem
  exact isRow_of_mem hp hmem

/-- Those of a partition stay in order. -/
theorem merged_filter {p : Nat} (hp : p < partitions.length) :
    order.filter (fun data => data.partition == p)
      = (List.range (partitions[p].nRows (mergeKeys partitions))).map
        fun r => ⟨r, p⟩ := by
  refine hmerged.filter (fun q l hl data hdata => ?_) (rowsLeft_getElem? hp)
  rw [rowsLeft, List.getElem?_map, Option.map_eq_some_iff] at hl
  obtain ⟨q', hq', rfl⟩ := hl
  obtain ⟨r, -, rfl⟩ := List.mem_map.mp hdata
  obtain ⟨hlen, hget⟩ := List.getElem?_eq_some_iff.mp hq'
  rw [List.getElem_range] at hget
  exact hget.symm

/-- All of them are merged, and nothing else. -/
theorem merged_perm : (order.map (rowOf partitions)).Perm
    (partitions.flatMap (NpDict.rows (mergeKeys partitions))) := by
  refine (hmerged.interleaving.perm.map (rowOf partitions)).trans ?_
  rw [List.map_flatten, List.flatMap]
  refine List.Perm.of_eq (congrArg List.flatten (List.ext_getElem ?_ ?_))
  · simp [rowsLeft]
  · intro p h₁ h₂
    have hp : p < partitions.length := by simpa using h₂
    have hget := @rowsLeft_getElem? partitions p hp
    rw [List.getElem?_eq_some_iff] at hget
    obtain ⟨hp', hget⟩ := hget
    rw [List.getElem_map, List.getElem_map, hget]
    exact map_rowOf (List.getElem?_eq_getElem hp)

/-- Sorted partitions are merged into sorted rows. -/
theorem merged_sorted (h : Mergeable types partitions)
    (hsorted : ∀ d ∈ partitions,
      (d.rows (mergeKeys partitions)).Pairwise (lexLe types)) :
    (order.map (rowOf partitions)).Pairwise (lexLe types) := by
  have hpartition : ∀ l ∈ rowsLeft
      (partitions.map (NpDict.nRows (mergeKeys partitions))) fun _ => 0,
      l.Pairwise fun a b => greater
        (partitions.map fun d => (mergeKeys partitions).map d.column) types a b
          = false := by
    intro l hl
    obtain ⟨p, hp, rfl⟩ := List.mem_map.mp hl
    rw [List.mem_range, List.length_map] at hp
    have hd := hsorted _ (List.getElem_mem hp)
    rw [← @map_rowOf partitions _ p (List.getElem?_eq_getElem hp),
      List.pairwise_map] at hd
    rw [rowsFrom_zero hp]
    exact hd.imp_of_mem fun ha hb hab =>
      (h.greater_iff (isRow_of_mem hp ha) (isRow_of_mem hp hb)).mpr hab
  have hpair := hmerged.pairwise (greater_trans _ types) hpartition
  have hrow := merged_isRow hmerged
  rw [List.pairwise_map]
  exact hpair.imp_of_mem fun ha hb hab =>
    (h.greater_iff (hrow _ ha) (hrow _ hb)).mp hab

/-- Taken in the order of a merge, the rows of the partitions are a merge
of them. -/
theorem merged_order (h : Mergeable types partitions) :
    (∀ data ∈ order, data.partition < partitions.length)
      ∧ (∀ p (hp : p < partitions.length),
        order.filter (fun data => data.partition == p)
          = (List.range (partitions[p].nRows (mergeKeys partitions))).map
            fun r => ⟨r, p⟩)
      ∧ (order.map (rowOf partitions)).Perm
        (partitions.flatMap (NpDict.rows (mergeKeys partitions)))
      ∧ ((∀ d ∈ partitions,
          (d.rows (mergeKeys partitions)).Pairwise (lexLe types)) →
        (order.map (rowOf partitions)).Pairwise (lexLe types)) := by
  refine ⟨fun data hdata => ?_, fun p hp => merged_filter hmerged hp,
    merged_perm hmerged, merged_sorted hmerged h⟩
  have hlt := (merged_isRow hmerged data hdata).1
  rwa [List.length_map] at hlt

end Merged

/-- The arrays of the dict that is made of some. -/
theorem get?_merged {first merged : NpDict} {columns : List NpArray}
    {arrays : List (List Nat)} (hcolumns : columns.length = first.keys.length)
    (harrays : arrays.length = first.keys.length)
    (hmerged : merged.items
      = first.keys.zip (List.zipWith mergedArray columns arrays)) {i : Nat}
    (hi : i < first.keys.length) : ∃ column values,
      columns[i]? = some column ∧ arrays[i]? = some values
        ∧ merged.get? first.keys[i] = some (mergedArray column values) := by
  have hnodup : first.keys.Nodup := first.nodup
  have hc : i < columns.length := by omega
  have ha : i < arrays.length := by omega
  refine ⟨columns[i], arrays[i], List.getElem?_eq_getElem hc,
    List.getElem?_eq_getElem ha, ?_⟩
  rw [NpDict.get?, hmerged, lookup_zip hnodup hi (by simp; omega),
    List.getElem_zipWith]

/-- The dict of merged arrays has the merged rows. -/
theorem merged_rows {first : NpDict} {rest : List NpDict}
    (h : Mergeable types (first :: rest)) {order : List MergeData}
    (hlt : ∀ data ∈ order, data.partition < (first :: rest).length)
    (hnone : first.keys = [] → order = []) {arrays : List (List Nat)}
    (harrays : arrays = (List.range types.length).map fun a =>
      order.map fun data => (rowOf (first :: rest) data).getD a 0)
    {merged : NpDict} (hmerged : merged.items = first.keys.zip
      (List.zipWith mergedArray (nativeArrays first.keys first) arrays)) :
    HasColumns first.keys types merged
      ∧ merged.rows first.keys = order.map (rowOf (first :: rest)) := by
  have hfirst := h.columns first List.mem_cons_self
  have harity : first.keys.length = types.length := h.arity
  have hcolumns : (nativeArrays first.keys first).length = first.keys.length := by
    rw [harity]
    exact hfirst.nativeArrays_length
  have hlen : arrays.length = first.keys.length := by
    rw [harrays, List.length_map, List.length_range, harity]
  have hget := fun {i} hi => @get?_merged first merged _ _ hcolumns hlen hmerged i hi
  have hcolumn : ∀ i (hi : i < first.keys.length), merged.column first.keys[i]
      = order.map fun data => (rowOf (first :: rest) data).getD i 0 := by
    intro i hi
    obtain ⟨column, values, -, hvalues, hgot⟩ := hget hi
    rw [NpDict.column, hgot]
    rw [harrays, List.getElem?_map, List.getElem?_range (by omega),
      Option.map_some, Option.some.injEq] at hvalues
    exact hvalues.symm
  have hrows : merged.nRows first.keys = order.length := by
    unfold NpDict.nRows
    cases hkeys : first.keys with
    | nil =>
        rw [hnone hkeys]
        rfl
    | cons key keys =>
        have hpos : 0 < first.keys.length := by
          rw [hkeys]
          exact Nat.succ_pos _
        have hzero := hcolumn 0 hpos
        simp only [hkeys, List.getElem_cons_zero] at hzero
        rw [List.head?_cons, Option.map_some, hzero, List.length_map]
        rfl
  refine ⟨⟨fun key => ?_, fun key hkey => ?_, ?_⟩, ?_⟩
  · rw [NpDict.keys, hmerged, List.map_fst_zip (by simp; omega)]
  · obtain ⟨i, hi, rfl⟩ := List.mem_iff_getElem.mp hkey
    rw [hcolumn i hi, List.length_map, hrows]
  · refine List.forall₂_iff_get.mpr ⟨harity, fun i hi hi' => ?_⟩
    obtain ⟨column, values, hcolumn', -, hgot⟩ := hget hi
    obtain ⟨hc, hcolumn'⟩ := List.getElem?_eq_some_iff.mp hcolumn'
    have htype := hfirst.arrays.2.2.get hc hi'
    refine ⟨_, hgot, rfl, ?_⟩
    show mergeType column.dtype = _
    rw [← hcolumn']
    exact htype
  · refine List.ext_getElem (by simp [NpDict.rows, hrows]) fun r h₁ h₂ => ?_
    have hr : r < order.length := by simpa using h₂
    rw [List.getElem_map]
    simp only [NpDict.rows, List.getElem_map, List.getElem_range]
    have hlast := hlt _ (List.getElem_mem hr)
    have hlen' : (rowOf (first :: rest) order[r]).length = first.keys.length := by
      rw [rowOf, List.getElem?_eq_getElem hlast]
      exact List.length_map _
    refine List.ext_getElem (by rw [hlen']; exact List.length_map _)
      fun i h₃ h₄ => ?_
    have hi : i < first.keys.length := by omega
    simp only [NpDict.row, List.getElem_map]
    rw [hcolumn i hi, List.getD_eq_getElem _ _ (by simpa using hr),
      List.getElem_map, List.getD_eq_getElem _ _ h₄]

/-- `merge_np_partitions` merges: of any number of partitions of the same
keys and types, it ends with all their rows, each of them whole and those
of each partition in their order, sorted if the partitions are. -/
theorem mergeNpPartitions_merges (queues : StdPriorityQueues)
    (npEmpty : String → Nat → Nat) (h : Mergeable types partitions) :
    ∃ merged, mergeNpPartitions queues npEmpty partitions = .ok merged
      ∧ IsMergeOf types partitions merged := by
  cases partitions with
  | nil =>
      have htypes : types = [] := List.length_eq_zero_iff.mp h.arity.symm
      subst htypes
      exact ⟨.empty, rfl, rfl,
        ⟨fun key => Iff.rfl, (fun key hkey => by cases hkey), .nil⟩,
        List.Perm.refl _,
        ⟨[], rfl, (fun data hdata => by cases hdata),
          fun p hp => absurd hp (Nat.not_lt_zero p)⟩,
        fun _ => List.Pairwise.nil⟩
  | cons first rest =>
      have hfirst := h.columns first List.mem_cons_self
      have harity : first.keys.length = types.length := h.arity
      set partitions := first :: rest with hpartitions
      have hkeys : mergeKeys partitions = first.keys := rfl
      -- the arrays that are collected, and their types
      have hcollect := @addPartitions_ok types first partitions h.columns []
        fun column hhead => by cases hhead
      rw [List.nil_append] at hcollect
      have hhead : (partitions.map (nativeArrays first.keys)).headD []
          = nativeArrays first.keys first := rfl
      have htypes : (nativeArrays first.keys first).mapM
          (fun array => mergeType array.dtype) = .ok types :=
        mapM_eq_ok.mpr hfirst.arrays.2.2
      have hinputs : (partitions.map (nativeArrays first.keys)).map
          (fun arrays => arrays.map NpArray.values)
          = partitions.map fun d => (mergeKeys partitions).map d.column := by
        rw [List.map_map]
        exact List.map_congr_left fun d hd => (h.columns d hd).native.1
      have hnrows : (partitions.map (nativeArrays first.keys)).map arraysRows
          = partitions.map (NpDict.nRows (mergeKeys partitions)) := by
        rw [List.map_map]
        exact List.map_congr_left fun d hd => (h.columns d hd).native.2
      -- the rows that are merged
      set outputs := first.keys.map fun key => (List.range (partitions.map
        (NpDict.nRows (mergeKeys partitions))).sum).map (npEmpty key)
        with houtputs
      have hroom : ∀ output ∈ outputs, output.length
          = (partitions.map (NpDict.nRows (mergeKeys partitions))).sum := by
        intro output hmem
        obtain ⟨key, -, rfl⟩ := List.mem_map.mp hmem
        rw [List.length_map, List.length_range]
      obtain ⟨order, arrays, hmerged, hmerge, harrays⟩ := partitionMerge_merges
        queues h.inputs (by rw [houtputs, List.length_map, harity]) hroom
      obtain ⟨hlt, hfilter, hperm, hsorted⟩ := merged_order hmerged h
      have hnone : first.keys = [] → order = [] := by
        intro hnil
        have hempty : partitions.flatMap (NpDict.rows (mergeKeys partitions)) = [] := by
          refine List.flatMap_eq_nil_iff.mpr fun d _ => ?_
          rw [hkeys, hnil]
          rfl
        rw [hempty] at hperm
        exact List.map_eq_nil_iff.mp hperm.eq_nil
      have harrays' : arrays = (List.range types.length).map fun a =>
          order.map fun data => (rowOf partitions data).getD a 0 := by
        rw [harrays]
        refine List.map_congr_left fun a _ => List.map_congr_left fun data hdata => ?_
        rw [rowValues_eq (hlt data hdata)]
      obtain ⟨hcolumns, hrows⟩ := @merged_rows types first rest h order hlt hnone
        arrays harrays' ⟨_, NpDict.zip_nodup first.nodup _⟩ rfl
      refine ⟨_, ?_, ?_, hcolumns, ?_, ⟨order, hrows, hlt, hfilter⟩, ?_⟩
      · unfold mergeNpPartitions
        rw [hpartitions]
        dsimp only
        rw [← hpartitions, hcollect]
        simp only [bind, Except.bind, pure, Except.pure, hhead, htypes, hinputs,
          hnrows, ← houtputs, hmerge]
        rfl
      · have hlength := hfirst.nativeArrays_length
        rw [hkeys] at hlength
        show (first.keys.zip _).map Prod.fst = first.keys
        rw [List.map_fst_zip]
        rw [List.length_zipWith, harrays', List.length_map, List.length_range]
        omega
      · rw [hkeys, hrows]
        exact hperm
      · intro hall
        rw [hkeys, hrows]
        exact hsorted hall

end Assembly

/-- A partition of two arrays: floats 0.0, -0.0, NaN, and integers. -/
def leftPartition : NpDict where
  items := [("TIME", ⟨1, .float32, true, [0, 0x80000000, 0x7fc00000]⟩),
    ("ROW", ⟨1, .int64, true, [1, 2, 3]⟩)]
  nodup := by decide

/-- Another, of floats -0.0 and 1.0. -/
def rightPartition : NpDict where
  items := [("TIME", ⟨1, .float32, true, [0x80000000, 0x3f800000]⟩),
    ("ROW", ⟨1, .int64, true, [1, 0]⟩)]
  nodup := by decide

theorem samplePartitions_mergeable :
    Mergeable [.float32, .int64] [leftPartition, rightPartition] where
  arity := rfl
  columns := by
    refine List.forall_mem_cons.mpr ⟨?_, List.forall_mem_singleton.mpr ?_⟩
    · exact ⟨fun key => Iff.rfl, by decide,
        .cons ⟨_, rfl, rfl, rfl⟩ (.cons ⟨_, rfl, rfl, rfl⟩ .nil)⟩
    · exact ⟨fun key => Iff.rfl, by decide,
        .cons ⟨_, rfl, rfl, rfl⟩ (.cons ⟨_, rfl, rfl, rfl⟩ .nil)⟩

/-- Zeros are equal, and NaN comes last. -/
theorem mergeNpPartitions_merges_sample : ∃ merged,
    mergeNpPartitions (fun greater => .list greater) (fun _ _ => 0)
        [leftPartition, rightPartition] = .ok merged
      ∧ IsMergeOf [.float32, .int64] [leftPartition, rightPartition] merged
      ∧ merged.column "TIME"
        = [0x80000000, 0, 0x80000000, 0x3f800000, 0x7fc00000]
      ∧ merged.column "ROW" = [1, 1, 2, 0, 3] := by
  obtain ⟨merged, hmerged, hmerge⟩ := mergeNpPartitions_merges
    (fun greater => .list greater) (fun _ _ => 0) samplePartitions_mergeable
  have hrun : (mergeNpPartitions (fun greater => .list greater) (fun _ _ => 0)
      [leftPartition, rightPartition]).toOption.map
        (fun merged => (merged.column "TIME", merged.column "ROW"))
      = some ([0x80000000, 0, 0x80000000, 0x3f800000, 0x7fc00000],
        [1, 1, 2, 0, 3]) := by
    decide +kernel
  rw [hmerged] at hrun
  obtain ⟨htime, hrow⟩ := Prod.mk.inj (Option.some.inj hrun)
  exact ⟨merged, hmerged, hmerge, htime, hrow⟩

end Arcae
