/-
What an Arrow array means: its elements and its leaves.

An element is found by indexing level by level, each index taken in the
range of the element above (`ArrayData.element`); the leaves of an array
are all its elements, in C order (`ArrayData.leaves`); with the lists
they lie in, the elements are nested lists (`ArrayData.nested`). All follow
offsets and slices at every level, and say nothing of null counts,
shapes or buffers.
-/
import Arcae.Model.Arrow
import Arcae.Lib.Nested

namespace Arcae

variable {β : Type}

namespace ListArray

variable (level : ListArray)

/-- Where the range of element `i` starts in the level below. -/
def start (i : Nat) : Nat :=
  match level.layout with
  | .list offsets | .largeList offsets => offsets.getD (i + level.offset) 0
  | .fixedSizeList size => (i + level.offset) * size

/-- The size of the range of element `i`. -/
def size (i : Nat) : Nat := level.start (i + 1) - level.start i

end ListArray

namespace ArrayData

/-- The leaf value of an array at a nested index: the element `i`, and
in it the rest of the indices, outermost first. -/
def element : ArrayData β → Nat → List Nat → Option β
  | .leaf slots, i, [] =>
      if i < slots.length then slots.values[slots.offset + i]? else none
  | .list level child, i, j :: idx =>
      if i < level.length ∧ j < level.size i then
        child.element (level.start i + j) idx
      else none
  | _, _, _ => none

/-- The leaf value at a nested index is null. -/
def isNull : ArrayData β → Nat → List Nat → Bool
  | .leaf slots, i, _ =>
      slots.validity.elim false fun valid =>
        !valid.getD (slots.offset + i) true
  | .list level child, i, j :: idx => child.isNull (level.start i + j) idx
  | .list _ _, _, [] => false

/-- The leaf value at a nested index, if there is one. -/
def valueAt (data : ArrayData β) (i : Nat) (idx : List Nat) : Option β :=
  if data.isNull i idx then none else data.element i idx

theorem valueAt_eq_some {data : ArrayData β} {i : Nat} {idx : List Nat}
    {v : β} : data.valueAt i idx = some v
      ↔ data.isNull i idx = false ∧ data.element i idx = some v := by
  unfold valueAt
  cases data.isNull i idx with
  | true => simp
  | false => simp

/-- The leaf values of element `i`, in order. -/
def leavesOf : ArrayData β → Nat → List β
  | .leaf slots, i => (slots.values[slots.offset + i]?).toList
  | .list level child, i =>
      (List.range (level.size i)).flatMap fun j =>
        child.leavesOf (level.start i + j)

/-- The logical leaf values of an array, all offsets applied. -/
def leaves (data : ArrayData β) : List β :=
  (List.range data.length).flatMap data.leavesOf

/-- The elements of an array, nested lists under all list levels. -/
def nested : ArrayData β → List (Nested β)
  | .leaf slots => slots.slice.map .value
  | .list level child =>
      (List.range level.length).map fun i =>
        .list ((child.nested.drop (level.start i)).take (level.size i))

/-- Number of list levels. -/
def depth : ArrayData β → Nat
  | .leaf _ => 0
  | .list _ child => child.depth + 1

/-- No list level of the array has a null. -/
def ListsNullFree : ArrayData β → Prop
  | .leaf _ => True
  | .list level child => level.nullCount = 0 ∧ child.ListsNullFree

/-- No level of the array is a slice of something larger. -/
def Unsliced : ArrayData β → Prop
  | .leaf slots => slots.offset = 0
  | .list level child => level.offset = 0 ∧ child.Unsliced

/-- No list of any level is empty. -/
def NoEmptyList : ArrayData β → Prop
  | .leaf _ => True
  | .list level child =>
      (∀ i < level.length, 0 < level.size i) ∧ child.NoEmptyList

/-- All lists of each level have one length: these, outermost first. -/
def CommonLengths : ArrayData β → List Nat → Prop
  | .leaf _, lengths => lengths = []
  | .list level child, lengths =>
      ∃ n rest, lengths = n :: rest ∧ (∀ i < level.length, level.size i = n)
        ∧ child.CommonLengths rest

/-- The lengths of the innermost lists of elements `start` to `stop`. -/
def innermostLengths : ArrayData β → Nat → Nat → List Nat
  | .leaf _, _, _ => []
  | .list level (.leaf _), start, stop =>
      (List.range' start (stop - start)).map level.size
  | .list level (.list below child), start, stop =>
      (ArrayData.list below child).innermostLengths (level.start start)
        (level.start stop)

end ArrayData

end Arcae
