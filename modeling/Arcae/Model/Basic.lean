/-
Statuses, machine integers and element types: the vocabulary every
other module speaks.

# Machine integers

Index values, sizes and byte counts are unbounded here. The source
holds them in 64-bit integers, and each of them counts something that
is in memory or on disk, so none of them reaches the limit. The one
32-bit intermediate of the planning code, the `int product` of
`FlatOffset`, is truncated where the source truncates it (`toInt32`).

# Failures

A call that fails returns its `arrow::Status`, with the source's text.
Three failures have no status in the source: `aipsError` is an
exception thrown by casacore, which the dispatcher turns into a status
with casacore's own text; `outOfBounds` is a read past the end of a
vector, a shape or a list offset buffer, which C++ does not define; and
`diverges` is a loop that would go on forever.
-/
import Mathlib.Data.Int.Notation
import Mathlib.Algebra.Ring.Int.Defs
import Mathlib.Algebra.Ring.Nat

namespace Arcae

/-- How a call fails. -/
inductive Status where
  | invalid (msg : String)
  | indexError (msg : String)
  | notImplemented (msg : String)
  | typeError (msg : String)
  | capacityError (msg : String)
  /-- An exception thrown by casacore. -/
  | aipsError
  /-- A read outside an array: undefined in the source. -/
  | outOfBounds
  /-- A loop that does not end. -/
  | diverges
  deriving Repr, DecidableEq

/-- `arrow::Result`. -/
abbrev Result := Except Status

/-- A FORTRAN-ordered shape, fastest axis first. -/
abbrev IPosition := List Nat

/-- The indices selected along one dimension. -/
abbrev Index := List Int

/-- The largest `IndexType`. -/
def indexTypeMax : Nat := 2 ^ 63 - 1

/-- Conversion of a 64-bit value to a 32-bit `int`. -/
def toInt32 (z : Int) : Int := z.bmod (2 ^ 32)

/-- The element type of a column. `tpOther` stands for every casacore
type without `CasaDataTypeTraits`, under its own name. -/
inductive DataType where
  | tpBool | tpChar | tpUChar | tpShort | tpUShort | tpInt | tpUInt
  | tpInt64 | tpFloat | tpDouble | tpComplex | tpDComplex | tpString
  | tpOther (name : String)
  deriving Repr, DecidableEq

/-- The type of the leaf values of an Arrow array. `other` stands for
every type the shape inference does not accept, under its own name. -/
inductive ArrowType where
  | bool | uint8 | uint16 | uint32 | uint64 | int8 | int16 | int32 | int64
  | float | double | utf8
  | other (name : String)
  deriving Repr, DecidableEq

/-- `CasaDataTypeSize`: bytes per element. A string is its 32-byte
header. -/
def casaDataTypeSize : DataType → Result Nat
  | .tpBool | .tpChar | .tpUChar => .ok 1
  | .tpShort | .tpUShort => .ok 2
  | .tpInt | .tpUInt | .tpFloat => .ok 4
  | .tpInt64 | .tpDouble | .tpComplex => .ok 8
  | .tpDComplex => .ok 16
  | .tpString => .ok 32
  | .tpOther name => .error (.notImplemented ("Data type " ++ name))

/-- `ArrowDataType`: the primitive Arrow type of an element, which for a
complex element is the type of its two parts. -/
def arrowDataType : DataType → Result ArrowType
  | .tpBool | .tpUChar => .ok .uint8
  | .tpChar => .ok .int8
  | .tpShort => .ok .int16
  | .tpUShort => .ok .uint16
  | .tpInt => .ok .int32
  | .tpUInt => .ok .uint32
  | .tpInt64 => .ok .int64
  | .tpFloat | .tpComplex => .ok .float
  | .tpDouble | .tpDComplex => .ok .double
  | .tpString => .ok .utf8
  | .tpOther name => .error (.typeError ("No arrow type for CASA type " ++ name))

/-- `casacore::isComplex`. -/
def DataType.isComplex : DataType → Bool
  | .tpComplex | .tpDComplex => true
  | _ => false

/-- `IsPrimitiveType`: plain numbers, complex ones included. -/
def DataType.isPrimitive : DataType → Bool
  | .tpString | .tpOther _ => false
  | _ => true

/-- The element type has traits, so that `DispatchCasaType` finds code
for it. -/
def DataType.supported : DataType → Bool
  | .tpOther _ => false
  | _ => true

/-- `DispatchCasaType`: run the code of a supported element type. -/
def dispatchCasaType {β : Type _} (dtype : DataType) (fn : Result β) :
    Result β :=
  match dtype with
  | .tpOther name => .error (.notImplemented ("Data type " ++ name))
  | _ => fn

theorem dispatchCasaType_of_supported {β : Type _} {dtype : DataType}
    (h : dtype.supported = true) (fn : Result β) :
    dispatchCasaType dtype fn = fn := by
  cases dtype <;> first | rfl | simp [DataType.supported] at h

/-- A size in bytes exists for exactly the supported types. -/
theorem casaDataTypeSize_isOk (dtype : DataType) :
    (∃ n, casaDataTypeSize dtype = .ok n) ↔ dtype.supported = true := by
  cases dtype <;> simp [casaDataTypeSize, DataType.supported]

-- ============================================= results, taken apart

section Results

variable {β γ : Type _}

/-- A successful sequence, taken apart: the first step succeeded, and
the rest succeeded on its value. -/
theorem Result.bind_eq_ok {x : Result β} {f : β → Result γ} {c : γ} :
    (x >>= f) = .ok c ↔ ∃ b, x = .ok b ∧ f b = .ok c := by
  cases x with
  | error e => simp [bind, Except.bind]
  | ok b => simp [bind, Except.bind]

@[simp] theorem Result.ok_bind (b : β) (f : β → Result γ) :
    ((Except.ok b : Result β) >>= f) = f b := rfl

@[simp] theorem Result.error_bind (e : Status) (f : β → Result γ) :
    ((Except.error e : Result β) >>= f) = .error e := rfl

@[simp] theorem Result.pure_eq (b : β) :
    (pure b : Result β) = .ok b := rfl

end Results

end Arcae
