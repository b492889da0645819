/-
`getcol`: `ReadImpl` and `MakeArray`, and the offsets of
`ResultShapeData::GetOffsets`.

# The array of a result

The leaf of the array is the buffer the chunks were read into, one leaf
value after the other; a complex element is a pair of them. The shape is
nested around it from the innermost dimension outwards: fixed size lists
for a fixed shape, unless the configuration asks for lists, and lists
with the offsets of `GetOffsets` otherwise. `FromArrays` is Arrow's: it
checks what it is given and wraps it in a level. Sizes are narrowed to the
`int32_t` it takes (`nestFixed`). The text of an array of strings is limited
(`maxTextBytes`); a single string of 2^31 bytes or more, whose length the
builder would narrow as well, is left out.

# Offsets

`getOffsets` counts in unbounded integers and appends to 32-bit ones.
What appending does to a count is a parameter of the loops (`append`),
`toInt32` in the source. An array has no negative offsets, so a count
that wrapped below zero is cut off at zero where it becomes one.

# Reading

With one instance, or one chunk, the task that plans a read also reads
its chunks. Otherwise each group of chunks is a task on some instance;
the chunks fill disjoint parts of one buffer, and `schedule` says in
which order they get there.
-/
import Arcae.Model.Arrow
import Arcae.Model.ReadShape
import Arcae.Model.ChunkIo
import Mathlib.Data.List.Infix

namespace Arcae

variable {α β : Type}

-- =============================================================== planning

/-- The shape of a read and the selection it is read with: derived from
the column or, given a result, from the result. -/
def planRead (col : TableColumn α) (sel : Selection)
    (result : Option (ArrowArray β)) : Result (ResultShapeData × Selection) :=
  match result with
  | some array => do
      let rs ← ResultShapeData.fromArray col array
      rs.negateMissingSelectedRows col sel
  | none => do
      let rs ← ResultShapeData.makeRead col sel false
      pure (rs, sel)

/-- `kMinSplitBytes`. -/
def minSplitBytes : Nat := 8 * 1024 * 1024

/-- How the rows of a read are split; without a second instance there is
no need to ask for storage units. -/
def readSplit (nInstances : Nat) (unitStart : Option RowUnitStart) :
    RowSplitOptions :=
  ⟨nInstances, minSplitBytes, if 1 < nInstances then unitStart else none⟩

-- ================================================================ offsets

/-- An offset array under construction: `running_offsets` and what was
appended so far. -/
structure OffsetBuilder where
  running : Nat
  offsets : List Int
  deriving Repr, DecidableEq

namespace OffsetBuilder

variable (append : Nat → Int)

/-- A builder with the leading offset. -/
def init : OffsetBuilder := ⟨0, [append 0]⟩

/-- The offset after one more list of `dimSize` elements. -/
def addList (dimSize : Nat) (b : OffsetBuilder) : OffsetBuilder :=
  ⟨b.running + dimSize, b.offsets ++ [append (b.running + dimSize)]⟩

/-- The offsets after `product` lists of `dimSize` elements. -/
def addLists (dimSize : Nat) : Nat → OffsetBuilder → OffsetBuilder
  | 0, b => b
  | product + 1, b => addLists dimSize product (b.addList append dimSize)

end OffsetBuilder

namespace ResultShapeData

variable (rs : ResultShapeData) (append : Nat → Int)

/-- `GetShapeFn` of `GetOffsets`: a size of a row. -/
def rowDimSize (row dim : Nat) : Result Nat := do
  let shape ←
    match rs.shape with
    | some shape => .ok shape
    | none => rs.getRowShape row
  if !rs.isFixed && isDegenerateShape shape then pure 0
  else
    match shape[dim]? with
    | some n => pure n
    | none => .error .outOfBounds

/-- The loop over the dimensions of a row, slowest first. -/
def buildRowOffsets (row : Nat) : Nat → Nat → List OffsetBuilder →
    Result (List OffsetBuilder)
  | 0, _, builders => .ok builders
  | dim + 1, product, builders => do
      let dimSize ← rs.rowDimSize row dim
      buildRowOffsets row dim (product * dimSize)
        (builders.modify dim (OffsetBuilder.addLists append dimSize product))

/-- `GetOffsets`, appending by `append`. -/
def getOffsetsBy : Result (List (List Int)) := do
  let ndim ← rs.consistentNDim
  -- the row dimension has no offsets
  if ndim = 0 then
    .error (.notImplemented
      "Building offset arrays for scalar or variable rank arrays")
  else do
    let builders ← (List.range rs.nRows).foldlM
      (fun builders row => rs.buildRowOffsets append row (ndim - 1) 1 builders)
      (List.replicate (ndim - 1) (OffsetBuilder.init append))
    pure (builders.map OffsetBuilder.offsets)

/-- `GetOffsets`: the offsets of each secondary dimension, 32 bits
wide. -/
def getOffsets : Result (List (List Int)) :=
  rs.getOffsetsBy fun n => toInt32 n

end ResultShapeData

-- ================================================================= arrays

/-- `ConvertStrategy`. -/
inductive ConvertStrategy where
  | fixed | list
  deriving Repr, DecidableEq

/-- `find` of a string finds something. -/
def containsText (s sub : String) : Bool := decide (sub.toList <:+: s.toList)

/-- `GetConvertStrategy`, from the configured value. -/
def getConvertStrategy (configured : Option String) : Result ConvertStrategy :=
  let strategy := configured.getD "fixed"
  if containsText strategy "fixed" then .ok .fixed
  else if containsText strategy "list" then .ok .list
  else .error (.invalid ("Invalid 'casa.convert.strategy=" ++ strategy ++ "'"))

/-- `FixedSizeListArray::FromArrays`, of an `int32_t`. -/
def fixedSizeListFromArrays (values : ArrayData β) (listSize : Int) :
    Result (ArrayData β) :=
  if listSize ≤ 0 then
    .error (.invalid "list_size needs to be a strict positive value")
  else if values.length % listSize.toNat ≠ 0 then
    .error (.invalid ("The length of the values Array needs to be a multiple "
      ++ "of the list_size"))
  else
    .ok (.list ⟨.fixedSizeList listSize.toNat, 0,
      values.length / listSize.toNat, none⟩ values)

/-- Lists of fixed size are over the values they were made from. -/
theorem fixedSizeListFromArrays_eq_ok {values data : ArrayData β} {size : Nat}
    (h : fixedSizeListFromArrays values size = .ok data) :
    0 < size ∧ values.length % size = 0
      ∧ data = .list ⟨.fixedSizeList size, 0, values.length / size, none⟩
          values := by
  unfold fixedSizeListFromArrays at h
  by_cases hzero : (size : Int) ≤ 0
  · rw [if_pos hzero] at h
    cases h
  · rw [if_neg hzero, Int.toNat_natCast] at h
    by_cases hmod : values.length % size ≠ 0
    · rw [if_pos hmod] at h
      cases h
    · rw [if_neg hmod] at h
      cases h
      exact ⟨by omega, not_not.mp hmod, rfl⟩

/-- A list size that divides the number of values is taken. -/
theorem fixedSizeListFromArrays_of_dvd {values : ArrayData β} {size : Nat}
    (hsize : 0 < size) (hmod : values.length % size = 0) :
    fixedSizeListFromArrays values size
      = .ok (.list ⟨.fixedSizeList size, 0, values.length / size, none⟩
          values) := by
  rw [fixedSizeListFromArrays, if_neg (by omega), Int.toNat_natCast,
    if_neg (not_not.mpr hmod)]

theorem fixedSizeListFromArrays_wellFormed {values data : ArrayData β}
    {size : Nat} (hvalues : values.WellFormed)
    (h : fixedSizeListFromArrays values size = .ok data) :
    data.WellFormed := by
  obtain ⟨-, -, rfl⟩ := fixedSizeListFromArrays_eq_ok h
  refine ⟨?_, hvalues⟩
  show (0 + values.length / size) * size ≤ values.length
  rw [Nat.zero_add]
  exact Nat.div_mul_le_self _ _

/-- A turn of the loop over the sizes of a fixed shape: each is narrowed
to an `int32_t`. -/
def nestFixed (array : ArrayData β) (dim : Nat) : Result (ArrayData β) :=
  fixedSizeListFromArrays array (toInt32 dim)

/-- `ListArray::FromArrays`. -/
def listFromArrays (values : ArrayData β) (offsets : List Int) :
    Result (ArrayData β) :=
  if offsets = [] then
    .error (.invalid "List offsets must have non-zero length")
  else
    .ok (.list ⟨.list (offsets.map Int.toNat), 0, offsets.length - 1, none⟩
      values)

/-- `MakePrimitiveArray`, over a buffer of leaf values. -/
def makePrimitiveArray (type : ArrowType) (n : Nat) (values : List β) :
    ArrayData β :=
  .leaf ⟨type, 0, n, none, values⟩

/-- `memory_limit` of a `StringBuilder`. -/
def maxTextBytes : Nat := 2 ^ 31 - 2

/-- The text of some values together. -/
def totalText [LeafValue β] (values : List β) : Nat :=
  (values.map LeafValue.textBytes).sum

/-- `StringBuilder::Append`, after `size` bytes. -/
def appendString [LeafValue β] (size : Nat) (value : β) : Result Nat :=
  let newSize := size + LeafValue.textBytes value
  if maxTextBytes < newSize then
    .error (.capacityError ("array cannot contain more than "
      ++ toString maxTextBytes ++ " bytes, have " ++ toString newSize))
  else .ok newSize

/-- A `StringBuilder` over all strings of a buffer. -/
def makeStrings [LeafValue β] (values : List β) : Result (ArrayData β) := do
  let _ ← values.foldlM appendString 0
  pure (.leaf ⟨.utf8, 0, values.length, none, values⟩)

theorem foldlM_appendString [LeafValue β] {values : List β} {size : Nat}
    (hsize : size ≤ maxTextBytes) :
    (values.foldlM appendString size).isOk = true
      ↔ size + totalText values ≤ maxTextBytes := by
  induction values generalizing size with
  | nil =>
      have hnil : totalText ([] : List β) = 0 := rfl
      rw [hnil]
      exact iff_of_true rfl hsize
  | cons value values ih =>
      have hcons : totalText (value :: values)
          = LeafValue.textBytes value + totalText values := rfl
      rw [List.foldlM_cons, hcons, ← Nat.add_assoc]
      by_cases hlong : maxTextBytes < size + LeafValue.textBytes value
      · rw [appendString, if_pos hlong]
        exact iff_of_false Bool.false_ne_true (by omega)
      · rw [appendString, if_neg hlong]
        exact ih (Nat.le_of_not_lt hlong)

/-- Strings make an array if their text is not too long. -/
theorem makeStrings_eq_ok [LeafValue β] {values : List β} {data : ArrayData β} :
    makeStrings values = .ok data ↔ totalText values ≤ maxTextBytes
      ∧ data = .leaf ⟨.utf8, 0, values.length, none, values⟩ := by
  have hfits := @foldlM_appendString _ _ values 0 (Nat.zero_le _)
  rw [Nat.zero_add] at hfits
  rw [← hfits, makeStrings]
  cases values.foldlM appendString 0 with
  | error e => exact ⟨fun h => (by cases h), fun h => (by cases h.1)⟩
  | ok size =>
      exact ⟨fun h => ⟨rfl, (Except.ok.inj h).symm⟩, fun h => congrArg _ h.2.symm⟩

/-- The elements of a result: pairs for complex values. -/
def makeElements [LeafValue β] (rs : ResultShapeData) (arrowDtype : ArrowType)
    (strat : ConvertStrategy) (values : List β) : Result (ArrayData β) :=
  let nelements := rs.nElements
  if rs.dtype = .tpString then makeStrings values
  else if rs.dtype.isComplex then
    let base := makePrimitiveArray arrowDtype (2 * nelements) values
    match strat with
    | .fixed => fixedSizeListFromArrays base 2
    | .list => listFromArrays base
        ((List.range (nelements + 1)).map fun i => toInt32 (2 * (i : Nat)))
  else .ok (makePrimitiveArray arrowDtype nelements values)

/-- `MakeArray`, from the leaf values of a buffer. -/
def makeArray [LeafValue β] (configured : Option String)
    (rs : ResultShapeData) (values : List β) : Result (ArrayData β) := do
  let arrowDtype ← arrowDataType rs.dtype
  let strat ← getConvertStrategy configured
  let elements ← makeElements rs arrowDtype strat values
  -- introduce shape nesting
  match rs.shape, strat with
  | some shape, .fixed => do
      let ndim ← rs.consistentNDim
      (shape.take (ndim - 1)).foldlM nestFixed elements
  | _, _ => do
      let offsets ← rs.getOffsets
      offsets.foldlM listFromArrays elements

-- =============================================================== ReadImpl

/-- The leaf values of the leading elements of a buffer. -/
def ElementLayout.values {dtype : DataType} (layout : ElementLayout dtype α β)
    (buffer : Memory α) (nelements : Nat) : List β :=
  (List.range nelements).flatMap fun i : Nat =>
    (List.finRange (leafWidth dtype)).map (layout.parts (buffer (i : Int)))

/-- `GetResultBufferOrAllocate` without a result: memory as allocated,
except that strings are constructed in it. -/
def allocateBuffer (casaType : DataType) (emptyString : α)
    (allocated : Memory α) : Result (Memory α) := do
  let _ ← casaDataTypeSize casaType
  if casaType.isPrimitive then pure allocated
  else pure fun _ => emptyString

/-- `ReadImpl` without a result. -/
def readImpl [LeafValue β] (srt : StdSort) (nInstances : Nat)
    (unitStart : Option RowUnitStart) (configured : Option String)
    (schedule : List DataChunk → List DataChunk) (col : TableColumn α)
    (layout : ElementLayout col.columnDesc.dataType α β) (emptyString : α)
    (sel : Selection) (allocated : Memory α) : Result (ArrayData β) := do
  let rs ← ResultShapeData.makeRead col sel false
  let p ← DataPartition.make srt sel rs (readSplit nInstances unitStart)
  let buffer ← allocateBuffer p.casaDtype emptyString allocated
  let chunks :=
    if 1 < nInstances ∧ 1 < p.dataChunks.length then schedule p.dataChunks
    else p.dataChunks
  let buffer ← readChunks col p.casaDtype chunks buffer
  makeArray configured rs (layout.values buffer rs.nElements)

end Arcae
