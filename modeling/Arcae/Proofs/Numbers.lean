/-
Which leaf types make of a column's bits what the column means.

The type Arrow has for the column does, and so does `int8` for `Bool`
(`SameNumbers`). Every other numeric leaf type no wider than the parts
of the column's elements is told apart by one number of the column that
it does not find in any piece of its bits (`tells_apart`); but for the
bits of a `Bool`, where the lowest one is the number and the others are
not.
-/
import Arcae.Model.ReadInto

namespace Arcae

/-- The leaf type means by the bits of a part what the column does. -/
def SameNumbers (dtype : DataType) (type : ArrowType) : Prop :=
  arrowDataType dtype = .ok type ∨ (dtype = .tpBool ∧ type = .int8)

theorem SameNumbers.bitWidth {dtype : DataType} {type : ArrowType}
    (h : SameNumbers dtype type) : type.bitWidth = dtype.partWidth := by
  rcases h with h | ⟨rfl, rfl⟩
  · cases dtype <;> cases h <;> rfl
  · rfl

theorem SameNumbers.number {dtype : DataType} {type : ArrowType}
    (h : SameNumbers dtype type) {bits : Nat} (hpart : dtype.IsPart bits) :
    type.number bits = dtype.number bits := by
  rcases h with h | ⟨rfl, rfl⟩
  · cases dtype <;> cases h <;> rfl
  · have hle := hpart rfl
    rcases Nat.le_one_iff_eq_zero_or_eq_one.mp hle with rfl | rfl
    · rfl
    · rfl

/-- A part is made of whole leaf values. -/
theorem partWidth_eq_mul {dtype : DataType} {type : ArrowType}
    (hpos : type.bitWidth ≠ 0) (hle : type.bitWidth ≤ dtype.partWidth) :
    dtype.partWidth
      = dtype.partWidth / type.bitWidth * type.bitWidth := by
  cases type with
  | other name => exact absurd rfl hpos
  | _ =>
      cases dtype with
      | tpOther name => exact absurd (Nat.le_zero.mp hle) hpos
      | _ =>
          revert hpos hle
          decide

/-- An element is made of its parts. -/
theorem casaDataTypeSize_eq {dtype : DataType}
    (hnumeric : dtype.isPrimitive = true) : ∃ size,
    casaDataTypeSize dtype = .ok size ∧ 0 < size
      ∧ 8 * size = leafWidth dtype * dtype.partWidth := by
  cases dtype <;> first | exact ⟨_, rfl, by decide, rfl⟩ | cases hnumeric

/-- A column can hold two numbers. -/
theorem number_zero_ne_one {dtype : DataType}
    (hnumeric : dtype.isPrimitive = true) :
    1 < 2 ^ dtype.partWidth ∧ dtype.number 0 ≠ dtype.number 1 := by
  cases dtype with
  | tpOther name => cases hnumeric
  | _ =>
      revert hnumeric
      decide +kernel

/-- The bits of a number of the column: for types of one width that differ
in sign -1 or its bits, and otherwise a large integer or 3. -/
def tellingBits (dtype : DataType) (type : ArrowType) : Nat :=
  match dtype with
  | .tpFloat | .tpComplex => 0x40400000
  | .tpDouble | .tpDComplex => 0x4008000000000000
  | _ =>
      if type.bitWidth = dtype.partWidth ∧ type ≠ .float ∧ type ≠ .double then
        2 ^ dtype.partWidth - 1
      else 2 ^ (dtype.partWidth - 2)

/-- A leaf type with other numbers does not find the telling one in any
piece of its bits. -/
theorem tells_apart {dtype : DataType} {type : ArrowType}
    (hnumeric : dtype.isPrimitive = true) (hpos : type.bitWidth ≠ 0)
    (hle : type.bitWidth ≤ dtype.partWidth) (hne : ¬ SameNumbers dtype type)
    (hbool : ¬ (dtype = .tpBool ∧ type = .bool)) :
    tellingBits dtype type < 2 ^ dtype.partWidth
      ∧ dtype.IsPart (tellingBits dtype type)
      ∧ ∀ r < dtype.partWidth / type.bitWidth,
          type.number (tellingBits dtype type / 2 ^ (type.bitWidth * r)
              % 2 ^ type.bitWidth)
            ≠ dtype.number (tellingBits dtype type) := by
  unfold DataType.IsPart
  unfold SameNumbers at hne
  cases type with
  | other name => exact absurd rfl hpos
  | _ =>
      cases dtype with
      | tpOther name => cases hnumeric
      | _ =>
          revert hnumeric hpos hle hne hbool
          decide +kernel

end Arcae
