/-
Merging sorted partitions (merge_sort.cc, and `merge_np_partitions` of
arrow_tables.pyx).

# Elements

Arrays hold bit patterns, of which their type makes numbers. Elements
are compared as numbers, so zeros of either sign are equal, and so are
NaNs of any payload, and copied as bits.

# What the model leaves open

`std::priority_queue` arranges its elements as it likes, and so gives
any one of several that no other element sorts before; the queue is a
parameter, with its contents and what it promises of its top.
`np.empty` gives whatever was in memory.

The two `np.require` and `astype` calls make an array contiguous and
native and keep its numbers; an array here is the list of its elements
as native bits, and whether it was native before.
-/
import Arcae.Model.BuildSelection
import Arcae.Model.ReadInto
import Mathlib.Order.Defs.Unbundled

namespace Arcae

-- ============================================================= comparison

/-- `MergeType`. -/
inductive MergeType where
  | int32
  | int64
  | float32
  | float64
  deriving Repr, DecidableEq

/-- The number that bits are under a type. -/
def MergeType.number (type : MergeType) (bits : Nat) : Number :=
  match type with
  | .int32 => ArrowType.number .int32 bits
  | .int64 => ArrowType.number .int64 bits
  | .float32 => ArrowType.number .float bits
  | .float64 => ArrowType.number .double bits

/-- `std::is_floating_point_v`. -/
def MergeType.isFloatingPoint : MergeType → Bool
  | .int32 | .int64 => false
  | .float32 | .float64 => true

/-- The operator `<` of numbers, false for a NaN. -/
def Number.less : Number → Number → Bool
  | .nan, _ | _, .nan => false
  | .finite a, .finite b => decide (a < b)
  | .infinite negative, .finite _ => negative
  | .finite _, .infinite negative => !negative
  | .infinite negative, .infinite negative' => negative && !negative'

/-- A C++ `bool` as an `int`. -/
def boolInt (b : Bool) : Int := if b then 1 else 0

/-- `Compare`: three-way comparison of two elements. As in NumPy, NaNs
sort after all other values. -/
def compareElements (type : MergeType) (lhs rhs : Nat) : Int :=
  let lhsValue := type.number lhs
  let rhsValue := type.number rhs
  let lhsNan := decide (lhsValue = .nan)
  let rhsNan := decide (rhsValue = .nan)
  if type.isFloatingPoint && (lhsNan || rhsNan) then
    boolInt lhsNan - boolInt rhsNan
  else boolInt (rhsValue.less lhsValue) - boolInt (lhsValue.less rhsValue)

-- ============================================================== the queue

/-- `MergeData`: a priority queue element, pointing at a row within a
partition. -/
structure MergeData where
  row : Nat
  partition : Nat
  deriving Repr, DecidableEq

/-- `std::priority_queue` under a comparator: a container whose top, if
the comparator is a strict weak order, sorts after no element. -/
structure StdPriorityQueue {α : Type} (greater : α → α → Bool) where
  Queue : Type
  elements : Queue → List α
  empty : Queue
  push : Queue → α → Queue
  /-- `top` and `pop`; `none` if the queue is empty. -/
  pop : Queue → Option (α × Queue)
  elements_empty : elements empty = []
  push_perm : ∀ q x, (elements (push q x)).Perm (x :: elements q)
  pop_none : ∀ q, pop q = none → elements q = []
  pop_perm : ∀ q x q', pop q = some (x, q') →
    (elements q).Perm (x :: elements q')
  pop_least : IsStrictWeakOrder α (fun a b => greater a b = true) →
    ∀ q x q', pop q = some (x, q') → ∀ y ∈ elements q, greater x y = false

section ListQueue

variable {α : Type} (greater : α → α → Bool)

/-- The element of a list that sorts after no other, and the others. -/
def leastOf : α → List α → α × List α
  | x, [] => (x, [])
  | x, y :: ys =>
      if greater x y then ((leastOf y ys).1, x :: (leastOf y ys).2)
      else ((leastOf x ys).1, y :: (leastOf x ys).2)

theorem leastOf_perm (x : α) (l : List α) :
    (x :: l).Perm ((leastOf greater x l).1 :: (leastOf greater x l).2) := by
  induction l generalizing x with
  | nil => exact List.Perm.refl _
  | cons y ys ih =>
      unfold leastOf
      split
      · exact ((ih y).cons x).trans (List.Perm.swap _ _ _)
      · exact (List.Perm.swap _ _ _).trans
          (((ih x).cons y).trans (List.Perm.swap _ _ _))

variable {greater} in
theorem leastOf_least (h : IsStrictWeakOrder α fun a b => greater a b = true)
    (x : α) (l : List α) :
    ∀ y ∈ x :: l, greater (leastOf greater x l).1 y = false := by
  induction l generalizing x with
  | nil =>
      intro y hy
      rw [List.mem_singleton.mp hy]
      exact Bool.eq_false_iff.mpr (h.irrefl x)
  | cons y ys ih =>
      unfold leastOf
      split
      · rename_i hxy
        refine List.forall_mem_cons.mpr ⟨Bool.eq_false_iff.mpr fun hgt => ?_, ih y⟩
        have := ih y y List.mem_cons_self
        rw [h.trans _ _ _ hgt hxy] at this
        cases this
      · rename_i hxy
        obtain ⟨hx, hys⟩ := List.forall_mem_cons.mp (ih x)
        refine List.forall_mem_cons.mpr
          ⟨hx, List.forall_mem_cons.mpr ⟨Bool.eq_false_iff.mpr fun hgt => ?_, hys⟩⟩
        -- neither after nor before `x`, it is as `x`, which is not after `y`
        have hmx := Bool.eq_false_iff.mp hx
        have hincomp := h.incomp_trans _ x y
          ⟨hmx, fun hxm => hxy (h.trans _ _ _ hxm hgt)⟩
          ⟨hxy, fun hyx => hmx (h.trans _ _ _ hgt hyx)⟩
        exact hincomp.1 hgt

/-- A list, searched for its least element, is such a queue. -/
def StdPriorityQueue.list : StdPriorityQueue greater where
  Queue := List α
  elements q := q
  empty := []
  push q x := x :: q
  pop q :=
    match q with
    | [] => none
    | x :: xs => some (leastOf greater x xs)
  elements_empty := rfl
  push_perm _ _ := List.Perm.refl _
  pop_none q h := by
    cases q with
    | nil => rfl
    | cons x xs => cases h
  pop_perm q x q' h := by
    cases q with
    | nil => cases h
    | cons y ys =>
        have heq : leastOf greater y ys = (x, q') := Option.some.inj h
        have hperm := leastOf_perm greater y ys
        rw [heq] at hperm
        exact hperm
  pop_least hweak q x q' h := by
    cases q with
    | nil => cases h
    | cons y ys =>
        have heq : leastOf greater y ys = (x, q') := Option.some.inj h
        have hleast := leastOf_least hweak y ys
        rw [heq] at hleast
        exact hleast

end ListQueue

/-- A priority queue for each comparator. -/
abbrev StdPriorityQueues :=
  (greater : MergeData → MergeData → Bool) → StdPriorityQueue greater

-- ========================================================= PartitionMerge

/-- Element `a` of a row, if there is one. -/
def rowElement (inputs : List (List (List Nat))) (data : MergeData) (a : Nat) :
    Option Nat :=
  match inputs[data.partition]? with
  | none => none
  | some arrays =>
      match arrays[a]? with
      | none => none
      | some array => array[data.row]?

/-- `Compare` of two elements that may not exist; the source reads only
those that do. -/
def compareAt (type : MergeType) : Option Nat → Option Nat → Int
  | some lhs, some rhs => compareElements type lhs rhs
  | some _, none => 1
  | none, some _ => -1
  | none, none => 0

/-- The loop of `greater` over the arrays, from array `a` on. -/
def greaterFrom (inputs : List (List (List Nat))) (lhs rhs : MergeData) :
    Nat → List MergeType → Bool
  | _, [] => false
  | a, type :: types =>
      let cmp := compareAt type (rowElement inputs lhs a) (rowElement inputs rhs a)
      if cmp ≠ 0 then decide (0 < cmp)
      else greaterFrom inputs lhs rhs (a + 1) types

/-- `greater`: true if `lhs` sorts after `rhs`, so that the priority
queue is a min-heap. -/
def greater (inputs : List (List (List Nat))) (types : List MergeType)
    (lhs rhs : MergeData) : Bool :=
  greaterFrom inputs lhs rhs 0 types

/-- Copy a row, array by array, to `row` of the outputs. -/
def copyRow (inputs : List (List (List Nat))) (data : MergeData) (row : Nat)
    (outputs : List (List Nat)) : Result (List (List Nat)) :=
  outputs.zipIdx.mapM fun output =>
    match rowElement inputs data output.2 with
    | none => .error .outOfBounds
    | some element =>
        if row < output.1.length then .ok (output.1.set row element)
        else .error .outOfBounds

section Merge

variable {inputs : List (List (List Nat))} {types : List MergeType}
  (queue : StdPriorityQueue (greater inputs types)) (nrows : List Nat)

/-- The queue of the first row of each partition that has rows. -/
def firstRows : queue.Queue :=
  (List.range inputs.length).foldl
    (fun q p => if 0 < nrows.getD p 0 then queue.push q ⟨0, p⟩ else q)
    queue.empty

/-- The loop of `PartitionMerge`. A turn takes one row, and the last one
finds the queue empty. -/
def mergeLoop : Nat → queue.Queue → Nat → List (List Nat) →
    Result (List (List Nat))
  | 0, _, _, _ => .error .diverges
  | fuel + 1, q, row, outputs =>
      match queue.pop q with
      | none => .ok outputs
      | some (top, rest) => do
          let outputs ← copyRow inputs top row outputs
          let next :=
            if top.row + 1 < nrows.getD top.partition 0 then
              queue.push rest ⟨top.row + 1, top.partition⟩
            else rest
          mergeLoop fuel next (row + 1) outputs

end Merge

/-- `PartitionMerge`. -/
def partitionMerge (queues : StdPriorityQueues)
    (inputs : List (List (List Nat))) (nrows : List Nat) (types : List MergeType)
    (outputs : List (List Nat)) : Result (List (List Nat)) :=
  let queue := queues (greater inputs types)
  mergeLoop queue nrows (nrows.sum + 1) (firstRows queue nrows) 0 outputs

-- ==================================================== merge_np_partitions

/-- The type of the elements of an array. -/
inductive NpDtype where
  | int32
  | int64
  | float32
  | float64
  | other (name : String)
  deriving Repr, DecidableEq

/-- `merge_type`. -/
def mergeType : NpDtype → PyResult MergeType
  | .int32 => .ok .int32
  | .int64 => .ok .int64
  | .float32 => .ok .float32
  | .float64 => .ok .float64
  | .other name => .error (.valueError ("Unsupported array type " ++ name))

/-- `np.ndarray`: its elements in order; `shape[0]` is their number if
there is one dimension. -/
structure NpArray where
  ndim : Nat
  dtype : NpDtype
  native : Bool
  values : List Nat
  deriving Repr, DecidableEq

/-- A dict of arrays, in the order of insertion. -/
structure NpDict where
  items : List (String × NpArray)
  nodup : (items.map Prod.fst).Nodup
  deriving Repr, DecidableEq

namespace NpDict

/-- `keys()`. -/
def keys (d : NpDict) : List String := d.items.map Prod.fst

/-- The array under a key. -/
def get? (d : NpDict) (key : String) : Option NpArray := d.items.lookup key

/-- The empty dict. -/
def empty : NpDict := ⟨[], List.nodup_nil⟩

/-- `==` of two `keys()`, which does not look at their order. -/
def sameKeys (d d' : NpDict) : Bool :=
  d.keys.all (fun key => d'.keys.contains key)
    && d'.keys.all fun key => d.keys.contains key

theorem zip_nodup {keys : List String} (h : keys.Nodup) (arrays : List NpArray) :
    ((keys.zip arrays).map Prod.fst).Nodup := by
  refine h.sublist ?_
  clear h
  induction keys generalizing arrays with
  | nil => exact List.Sublist.slnil
  | cons key keys ih =>
      cases arrays with
      | nil => exact List.nil_sublist _
      | cons array arrays => exact (ih arrays).cons_cons key

end NpDict

/-- One turn of the loop over the keys of a partition. -/
def addArray (arrays : List NpArray) (array : NpArray) :
    PyResult (List NpArray) :=
  if array.ndim ≠ 1 then
    .error (.valueError "Array must be 1-dimensional")
  else
    let array := { array with native := true }
    match arrays with
    | [] => .ok [array]
    | first :: _ =>
        if array.values.length ≠ first.values.length then
          .error (.valueError "Array lengths do not match")
        else .ok (arrays ++ [array])

/-- One turn of the loop over the partitions. -/
def addPartition (first : NpDict) (columns : List (List NpArray))
    (partition : NpDict) : PyResult (List (List NpArray)) :=
  if !partition.sameKeys first then
    .error (.valueError "Partitions must have the same keys")
  else do
    let arrays ← (first.keys.filterMap partition.get?).foldlM addArray []
    match columns with
    | [] => pure [arrays]
    | column :: _ =>
        if (arrays.zip column).any fun c => decide (c.1.dtype ≠ c.2.dtype) then
          .error (.valueError "Array dtypes must match")
        else pure (columns ++ [arrays])

/-- The number of rows of the arrays of a partition. -/
def arraysRows (arrays : List NpArray) : Nat :=
  match arrays with
  | [] => 0
  | array :: _ => array.values.length

/-- An output array, filled. -/
def mergedArray (column : NpArray) (values : List Nat) : NpArray where
  ndim := 1
  dtype := column.dtype
  native := true
  values := values

/-- `merge_np_partitions`. -/
def mergeNpPartitions (queues : StdPriorityQueues)
    (npEmpty : String → Nat → Nat) (partitions : List NpDict) :
    PyResult NpDict :=
  match partitions with
  | [] => .ok .empty
  | first :: _ => do
      let columns ← partitions.foldlM (addPartition first) []
      let types ← (columns.headD []).mapM fun array => mergeType array.dtype
      let inputs := columns.map fun arrays => arrays.map NpArray.values
      let nrows := columns.map arraysRows
      let totalRows := nrows.sum
      let outputs := first.keys.map fun key =>
        (List.range totalRows).map (npEmpty key)
      match partitionMerge queues inputs nrows types outputs with
      | .error _ => .error .runtimeError
      | .ok merged =>
          let arrays := List.zipWith mergedArray (columns.headD []) merged
          pure ⟨first.keys.zip arrays, NpDict.zip_nodup first.nodup arrays⟩

end Arcae
