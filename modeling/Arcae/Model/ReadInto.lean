/-
`getcol` into a supplied result: `GetResultBuffer`, and `ReadImpl` with
a result.

# Numbers

The leaf of an array is a buffer of bits that its type makes numbers of
(`ArrowType.number`); the elements of a column are made of parts, which
the column's type makes numbers of (`DataType.number`). A finite number
is counted in units of 2^-1074, the smallest positive double, of which
all numbers of all types are multiples.

# Results

A `ResultArray` is an array over a buffer: its leaf values are the
numbers of the buffer's bits. `ReadImpl` reads elements of the column's
type into those bits and wraps them in a new array of the column's type;
the supplied one has whatever numbers its own type makes of them.
-/
import Arcae.Model.ReadImpl
import Arcae.Lib.Words

namespace Arcae

open Words

variable {α : Type}

-- =============================================================== numbers

/-- A value of a number type. -/
inductive Number where
  /-- In units of 2^-1074. -/
  | finite (units : Int)
  | infinite (negative : Bool)
  | nan
  deriving Repr, DecidableEq


/-- An integer. -/
def Number.ofInt (n : Int) : Number := .finite (n * 2 ^ 1074)

instance : LeafValue Number :=
  ⟨fun _ => 0, fun n => decide (n = .ofInt 0 ∨ n = .ofInt 1)⟩

/-- A binary floating-point number of IEEE 754, from its bits. -/
def Number.ofFloat (expBits fracBits bits : Nat) : Number :=
  let frac := bits % 2 ^ fracBits
  let exp := bits / 2 ^ fracBits % 2 ^ expBits
  let negative := decide (bits / 2 ^ (fracBits + expBits) % 2 = 1)
  if exp = 2 ^ expBits - 1 then
    if frac = 0 then .infinite negative else .nan
  else
    let significand := if exp = 0 then frac else 2 ^ fracBits + frac
    let bias := 2 ^ (expBits - 1) - 1
    let units := significand * 2 ^ (max exp 1 + 1074 - (bias + fracBits))
    .finite (if negative then -(units : Int) else units)

/-- Bits of a leaf value; none for types that have no numbers. -/
def ArrowType.bitWidth : ArrowType → Nat
  | .bool => 1
  | .uint8 | .int8 => 8
  | .uint16 | .int16 => 16
  | .uint32 | .int32 | .float => 32
  | .uint64 | .int64 | .double => 64
  | .utf8 | .other _ => 0

/-- The number that bits are under a leaf type. -/
def ArrowType.number (type : ArrowType) (bits : Nat) : Number :=
  match type with
  | .bool | .uint8 | .uint16 | .uint32 | .uint64 => .ofInt bits
  | .int8 | .int16 | .int32 | .int64 =>
      .ofInt (BitVec.ofNat type.bitWidth bits).toInt
  | .float => .ofFloat 8 23 bits
  | .double => .ofFloat 11 52 bits
  | .utf8 | .other _ => .nan

/-- Bits of a part of an element: its real or imaginary part if it is
complex, and all of it otherwise. -/
def DataType.partWidth : DataType → Nat
  | .tpBool | .tpChar | .tpUChar => 8
  | .tpShort | .tpUShort => 16
  | .tpInt | .tpUInt | .tpFloat | .tpComplex => 32
  | .tpInt64 | .tpDouble | .tpDComplex => 64
  | .tpString | .tpOther _ => 0

/-- The number that a part of an element is. -/
def DataType.number (dtype : DataType) (bits : Nat) : Number :=
  match dtype with
  | .tpBool | .tpUChar | .tpUShort | .tpUInt => .ofInt bits
  | .tpChar | .tpShort | .tpInt | .tpInt64 =>
      .ofInt (BitVec.ofNat dtype.partWidth bits).toInt
  | .tpFloat | .tpComplex => .ofFloat 8 23 bits
  | .tpDouble | .tpDComplex => .ofFloat 11 52 bits
  | .tpString | .tpOther _ => .nan

/-- Bits that a part of an element can be: a `Bool` is 0 or 1. -/
def DataType.IsPart (dtype : DataType) (bits : Nat) : Prop :=
  dtype = .tpBool → bits ≤ 1

-- =============================================================== results

/-- The numbers of a buffer of `size` bytes, slot by slot. -/
def slotNumbers (type : ArrowType) (size : Nat) (bits : Nat → Bool) :
    List Number :=
  (List.range (8 * size / type.bitWidth)).map fun j =>
    type.number (word bits type.bitWidth j).toNat

/-- An array supplied to be read into. `size` is the size in bytes of the
last buffer of its leaf, if there is one, and `bits` its memory. -/
structure ResultArray where
  array : ArrowArray Number
  size : Option Nat
  bits : Nat → Bool
  slots : array.data.leafArray.type.bitWidth ≠ 0 →
    array.data.leafArray.values
      = slotNumbers array.data.leafArray.type (size.getD 0) bits

/-- `GetResultBuffer`: the bits are those of the result. -/
def getResultBuffer (result : ResultArray) (nbytes : Nat) : Result Unit :=
  let leaf := result.array.data.leafArray
  if leaf.type.bitWidth = 0 then
    .error (.notImplemented
      ("Extracting array buffer for type " ++ leaf.type.name))
  else
    match result.size with
    | none => .error (.invalid "Result array does not contain a buffer")
    | some size =>
        if size ≠ nbytes then
          .error (.invalid ("Result buffer of " ++ toString size
            ++ " bytes does not contain the expected number of bytes "
            ++ toString nbytes))
        else .ok ()

/-- `GetResultBufferOrAllocate` with a result. -/
def getResultBufferFor (nelements : Nat) (casaType : DataType)
    (result : ResultArray) : Result Unit := do
  let casaTypeSize ← casaDataTypeSize casaType
  getResultBuffer result (nelements * casaTypeSize)

-- =============================================================== ReadImpl

/-- The elements that some bits hold. Memory in front of the buffer is
not looked at. -/
def ElementLayout.elements {dtype : DataType}
    (layout : ElementLayout dtype α (BitVec dtype.partWidth))
    (bits : Nat → Bool) : Memory α :=
  layout.dataAs fun q => word bits dtype.partWidth q.toNat

/-- The bits that hold some elements. -/
def ElementLayout.bits {dtype : DataType}
    (layout : ElementLayout dtype α (BitVec dtype.partWidth))
    (buffer : Memory α) : Nat → Bool :=
  ofWords fun j => layout.parts (buffer (j / leafWidth dtype : Nat))
    ⟨j % leafWidth dtype, Nat.mod_lt j (leafWidth_pos dtype)⟩

/-- `ReadImpl` with a result: the array it returns, and the bits it
leaves in the buffer of the one supplied. -/
def readImplInto (srt : StdSort) (nInstances : Nat)
    (unitStart : Option RowUnitStart) (configured : Option String)
    (schedule : List DataChunk → List DataChunk) (col : TableColumn α)
    (layout : ElementLayout col.columnDesc.dataType α
      (BitVec col.columnDesc.dataType.partWidth))
    (sel : Selection) (result : ResultArray) :
    Result (ArrayData (BitVec col.columnDesc.dataType.partWidth)
      × (Nat → Bool)) := do
  let (rs, sel) ← planRead col sel (some result.array)
  let p ← DataPartition.make srt sel rs (readSplit nInstances unitStart)
  getResultBufferFor p.nElements p.casaDtype result
  let chunks :=
    if 1 < nInstances ∧ 1 < p.dataChunks.length then schedule p.dataChunks
    else p.dataChunks
  let buffer ← readChunks col p.casaDtype chunks (layout.elements result.bits)
  let array ← makeArray configured rs (layout.values buffer rs.nElements)
  pure (array, layout.bits buffer)

end Arcae
