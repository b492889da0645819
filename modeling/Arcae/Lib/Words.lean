/-
A stream of bits as a sequence of words, little-endian: bit `i` of word
`q` of width `w` is bit `w * q + i` of the stream.

The words of a stream are what it was made of (`word_ofWords`), and a
narrower word is a piece of the wider one it lies in
(`word_eq_piece`).
-/
import Mathlib.Data.Nat.Bitwise
import Mathlib.Tactic.Ring

namespace Words

/-- Word `q` of width `w`. -/
def word (bits : Nat → Bool) (w q : Nat) : BitVec w :=
  BitVec.ofNat w (Nat.ofBits fun i : Fin w => bits (w * q + i))

/-- The stream of some words. -/
def ofWords {w : Nat} (words : Nat → BitVec w) (n : Nat) : Bool :=
  (words (n / w)).getLsbD (n % w)

/-- Piece `r` of width `w` of a word. -/
def piece (w : Nat) {v : Nat} (x : BitVec v) (r : Nat) : BitVec w :=
  x.extractLsb' (w * r) w

variable {bits : Nat → Bool} {v w c q : Nat}

theorem getLsbD_word {i : Nat} (hi : i < w) :
    (word bits w q).getLsbD i = bits (w * q + i) := by
  rw [word, BitVec.getLsbD_ofNat, decide_eq_true hi, Bool.true_and,
    Nat.testBit_ofBits_lt _ _ hi]

theorem word_ofWords (words : Nat → BitVec w) (q : Nat) :
    word (ofWords words) w q = words q := by
  refine BitVec.eq_of_getLsbD_eq fun i hi => ?_
  have hw : 0 < w := by omega
  rw [getLsbD_word hi, ofWords, Nat.mul_add_div hw, Nat.div_eq_of_lt hi,
    Nat.add_zero, Nat.mul_add_mod, Nat.mod_eq_of_lt hi]

/-- A word lies in the wider one that holds its first bit. -/
theorem word_eq_piece (hv : v = c * w) (hc : 0 < c) :
    word bits w q = piece w (word bits v (q / c)) (q % c) := by
  subst hv
  refine BitVec.eq_of_getLsbD_eq fun i hi => ?_
  have hmod := Nat.mod_lt q hc
  have hin : w * (q % c) + i < c * w := by
    calc w * (q % c) + i < w * (q % c) + w := by omega
      _ = (q % c + 1) * w := by ring
      _ ≤ c * w := Nat.mul_le_mul_right w hmod
  rw [getLsbD_word hi, piece, BitVec.getLsbD_extractLsb', decide_eq_true hi,
    Bool.true_and, getLsbD_word hin]
  congr 1
  calc w * q + i = w * (c * (q / c) + q % c) + i := by rw [Nat.div_add_mod]
    _ = c * w * (q / c) + (w * (q % c) + i) := by ring

theorem toNat_piece (x : BitVec v) (r : Nat) :
    (piece w x r).toNat = x.toNat / 2 ^ (w * r) % 2 ^ w := by
  rw [piece, BitVec.extractLsb'_toNat, Nat.shiftRight_eq_div_pow]

end Words
