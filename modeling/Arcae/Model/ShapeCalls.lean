/-
The calls that inference makes on list arrays.

`GetArrowResultShapeData` and `GetRowShapes` once more, step by step,
with every `value_length(i)` and `value_offset(i)` that they call on a
List or LargeList array on the way. Both return as soon as two lengths
differ. A FixedSizeList array has no offsets to read, so that calls on
one are left out.
-/
import Arcae.Lib.Traced
import Arcae.Model.Arrow

namespace Arcae

variable {β : Type}

/-- A call on a list array with an offset buffer. -/
inductive OffsetCall where
  | valueLength (level : ListArray) (i : Nat)
  | valueOffset (level : ListArray) (i : Nat)
  deriving Repr, DecidableEq

/-- The index is one the array has: of a list, or for an offset also the
end of the last. -/
def OffsetCall.InRange : OffsetCall → Prop
  | .valueLength level i => i < level.length
  | .valueOffset level i => i ≤ level.length

/-- A result of inference, and the calls made on the way. -/
abbrev ShapeTrace (α : Type) := Traced OffsetCall Status α

/-- `value_length`. -/
def ListArray.callLength (level : ListArray) (i : Nat) : ShapeTrace Nat :=
  if level.isFixedSize then ⟨[], level.valueLength i⟩
  else .call (.valueLength level i) (level.valueLength i)

/-- `value_offset`. -/
def ListArray.callOffset (level : ListArray) (i : Nat) : ShapeTrace Nat :=
  if level.isFixedSize then ⟨[], level.valueOffset i⟩
  else .call (.valueOffset level i) (level.valueOffset i)

/-- The loop that compares lengths with that of the first list, up to
one that differs. -/
def sameLengths (level : ListArray) (dimSize : Nat) :
    List Nat → ShapeTrace Bool
  | [] => pure true
  | i :: is => do
      let size ← level.callLength i
      if dimSize ≠ size then pure false else sameLengths level dimSize is

/-- The comparison, if there are offsets to compare. -/
def compareLengths (level : ListArray) (dimSize : Nat) (is : List Nat) :
    ShapeTrace Bool :=
  if level.isFixedSize then pure true else sameLengths level dimSize is

/-- `MaybeUpdateShapeAndNdim`. -/
def traceUpdate (level : ListArray) (walk : ShapeWalk) :
    ShapeTrace ShapeWalk :=
  if 0 < level.nullCount then .fail (.notImplemented "null handling")
  else if !walk.fixedShape then pure { walk with ndim := walk.ndim + 1 }
  else do
    let dimSize ← level.callLength 0
    let same ← compareLengths level dimSize (List.range level.length)
    if same then
      pure { walk with shape := walk.shape ++ [dimSize], ndim := walk.ndim + 1 }
    else
      -- variable dimension sizes
      pure { walk with fixedShape := false, ndim := walk.ndim + 1 }

/-- The walk of `GetArrowResultShapeData`. -/
def traceWalk : ArrayData β → ShapeWalk → ShapeTrace ShapeWalk
  | .leaf slots, walk =>
      if slots.type.known then pure walk
      else .fail (.notImplemented
        ("Shape derivation of " ++ slots.type.name ++ " is not supported"))
  | .list level child, walk => do
      let walk ← traceUpdate level walk
      traceWalk child walk

/-- `SetRowShape` at each level under row `r`. -/
def traceRowShape (r : Nat) : ArrayData β → Nat → Nat → ShapeTrace IPosition
  | .leaf slots, _, _ =>
      if slots.type.known then pure []
      else .fail (.notImplemented
        ("Shape derivation of " ++ slots.type.name ++ " is not supported"))
  | .list level child, start, stop =>
      if 0 < level.nullCount then .fail (.notImplemented "nulls")
      else do
        let dimSize ← level.callLength start
        let rest := List.range' (start + 1) (stop - (start + 1))
        let same ← compareLengths level dimSize rest
        if same then
          let first ← level.callOffset start
          let last ← level.callOffset stop
          let sizes ← traceRowShape r child first last
          pure (dimSize :: sizes)
        else .fail (.invalid
          ("Offsets in row " ++ toString r ++ " don't match"))

/-- `GetRowShapes`, of `n` rows from `r` on. -/
def traceRowShapes (data : ArrayData β) :
    Nat → Nat → ShapeTrace (List IPosition)
  | _, 0 => pure []
  | r, n + 1 => do
      let shape ← traceRowShape r data r (r + 1)
      let shapes ← traceRowShapes data (r + 1) n
      pure (shape :: shapes)

/-- `GetArrowResultShapeData`. -/
def traceArrowResultShapeData (columnDesc : ColumnDesc) (data : ArrayData β) :
    ShapeTrace ResultShapeData := do
  let walk ← traceWalk data ⟨true, [data.length], 1⟩
  if walk.fixedShape then
    -- C-ORDER to FORTRAN-ORDER
    pure
      { columnName := columnDesc.name
        shape := some walk.shape.reverse
        ndim := walk.ndim
        dtype := columnDesc.dataType
        rowShapes := none
        cellExtents := none }
  else do
    let rowShapes ← traceRowShapes data 0 data.length
    pure
      { columnName := columnDesc.name
        shape := none
        ndim := walk.ndim
        dtype := columnDesc.dataType
        rowShapes := some (rowShapes.map List.reverse)
        cellExtents := none }

end Arcae
