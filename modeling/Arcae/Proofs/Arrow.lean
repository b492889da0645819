/-
The leaves of an array, as slots of its leaf.

However deep the nest, the leaves of an element of a well-formed array
are consecutive slots of the leaf (`leavesOf_eq`), because each level
maps consecutive ranges to consecutive ranges; `slot` is where those of
element `i` start. Where all elements in a range have the same sizes
(`Uniform`), slots are an arithmetic progression, so a nested index is a
FORTRAN-order offset (`element_eq`).
-/
import Arcae.Spec.Arrow
import Arcae.Proofs.Spans
import Mathlib.Data.List.GetD
import Mathlib.Algebra.BigOperators.Group.List.Basic

namespace Arcae

open FOrder

variable {β : Type}

-- ============================================================== segments

theorem segment_append {γ : Type} (l : List γ) {a b c : Nat} (hab : a ≤ b)
    (hbc : b ≤ c) : segment l a b ++ segment l b c = segment l a c := by
  have hdrop : l.drop b = (l.drop a).drop (b - a) := by
    rw [List.drop_drop]
    congr 1
    omega
  have hlen : c - a = (b - a) + (c - b) := by omega
  rw [segment, segment, segment, hdrop, hlen, List.take_add]

/-- Adjacent segments join. -/
theorem flatMap_segment {γ : Type} {l : List γ} {f : Nat → List γ}
    {slot : Nat → Nat} {n : Nat}
    (hf : ∀ j < n, f j = segment l (slot j) (slot (j + 1)))
    (hmono : ∀ j < n, slot j ≤ slot (j + 1)) :
    (List.range n).flatMap f = segment l (slot 0) (slot n)
      ∧ slot 0 ≤ slot n := by
  induction n with
  | zero => simp
  | succ n ih =>
      obtain ⟨heq, hle⟩ := ih (fun j hj => hf j (by omega))
        fun j hj => hmono j (by omega)
      have hlast := hmono n (by omega)
      rw [List.range_succ, List.flatMap_append, heq, List.flatMap_singleton,
        hf n (by omega), segment_append l hle hlast]
      exact ⟨rfl, Nat.le_trans hle hlast⟩

-- ================================================================ ranges

namespace ListArray

variable {level : ListArray} {child : ArrayData β}

/-- The ranges of a well-formed level lie one after the other in the
level below. -/
theorem start_mono (h : (ArrayData.list level child).WellFormed) {i j : Nat}
    (hij : i ≤ j) (hj : j ≤ level.length) : level.start i ≤ level.start j := by
  unfold start
  have hoffsets : ∀ offsets : List Nat,
      level.offset + level.length < offsets.length →
      offsets.Pairwise (· ≤ ·) →
      offsets.getD (i + level.offset) 0 ≤ offsets.getD (j + level.offset) 0 := by
    intro offsets hlen hs
    rw [List.getD_eq_getElem _ _ (by omega), List.getD_eq_getElem _ _ (by omega)]
    rcases Nat.eq_or_lt_of_le hij with rfl | hlt
    · exact Nat.le_refl _
    · exact List.pairwise_iff_getElem.mp hs _ _ _ _ (by omega)
  cases hlayout : level.layout with
  | list offsets =>
      simp only [ArrayData.WellFormed, hlayout] at h
      exact hoffsets offsets h.1.1 h.1.2.1
  | largeList offsets =>
      simp only [ArrayData.WellFormed, hlayout] at h
      exact hoffsets offsets h.1.1 h.1.2.1
  | fixedSizeList size => exact Nat.mul_le_mul_right _ (by omega)

theorem start_le (h : (ArrayData.list level child).WellFormed) {i : Nat}
    (hi : i ≤ level.length) : level.start i ≤ child.length := by
  unfold start
  have hoffsets : ∀ offsets : List Nat,
      level.offset + level.length < offsets.length →
      (∀ o ∈ offsets, o ≤ child.length) →
      offsets.getD (i + level.offset) 0 ≤ child.length := by
    intro offsets hlen hle
    rw [List.getD_eq_getElem _ _ (by omega)]
    exact hle _ (List.getElem_mem _)
  cases hlayout : level.layout with
  | list offsets =>
      simp only [ArrayData.WellFormed, hlayout] at h
      exact hoffsets offsets h.1.1 h.1.2.2
  | largeList offsets =>
      simp only [ArrayData.WellFormed, hlayout] at h
      exact hoffsets offsets h.1.1 h.1.2.2
  | fixedSizeList size =>
      simp only [ArrayData.WellFormed, hlayout] at h
      exact Nat.le_trans (Nat.mul_le_mul_right _ (by omega)) h.1

theorem start_add_size (h : (ArrayData.list level child).WellFormed) {i : Nat}
    (hi : i < level.length) : level.start i + level.size i = level.start (i + 1) := by
  have hmono := start_mono h (Nat.le_add_right i 1) hi
  unfold size
  omega

/-- Offsets that are read are those of the ranges. -/
theorem valueOffset_ok {i start : Nat} (h : level.valueOffset i = .ok start) :
    start = level.start i := by
  unfold valueOffset offsetAt at h
  unfold ListArray.start
  cases hlayout : level.layout with
  | list offsets | largeList offsets =>
      simp only [hlayout] at h
      split at h
      · rename_i o ho
        cases h
        dsimp only
        rw [List.getD_eq_getElem?_getD, ho]
        rfl
      · cases h
  | fixedSizeList size =>
      simp only [hlayout] at h
      exact (Except.ok.inj h).symm

theorem valueLength_ok {i size : Nat} (h : level.valueLength i = .ok size) :
    size = level.size i := by
  unfold valueLength at h
  unfold ListArray.size ListArray.start
  cases hlayout : level.layout with
  | list offsets | largeList offsets =>
      simp only [hlayout] at h
      obtain ⟨o, ho, h⟩ := Result.bind_eq_ok.mp h
      obtain ⟨o', ho', h⟩ := Result.bind_eq_ok.mp h
      unfold offsetAt at ho ho'
      split at ho
      · rename_i _ hget
        split at ho'
        · rename_i _ hget'
          cases ho
          cases ho'
          cases h
          have hidx : i + 1 + level.offset = i + level.offset + 1 := by omega
          dsimp only
          rw [hidx, List.getD_eq_getElem?_getD, List.getD_eq_getElem?_getD, hget,
            hget']
          rfl
        · cases ho'
      · cases ho
  | fixedSizeList size' =>
      simp only [hlayout] at h
      cases h
      dsimp only
      rw [← Nat.sub_mul]
      have : i + 1 + level.offset - (i + level.offset) = 1 := by omega
      rw [this, Nat.one_mul]

end ListArray

-- ================================================================= slots

namespace ArrayData

variable {data : ArrayData β}

/-- The slot of the leaf where the leaves of element `i` start, counted
from the leaf's own offset. -/
def slot : ArrayData β → Nat → Nat
  | .leaf _, i => i
  | .list level child, i => child.slot (level.start i)

theorem slot_mono (h : data.WellFormed) {i j : Nat} (hij : i ≤ j)
    (hj : j ≤ data.length) : data.slot i ≤ data.slot j := by
  induction data generalizing i j with
  | leaf slots => exact hij
  | list level child ih =>
      exact ih h.2 (ListArray.start_mono h hij hj) (ListArray.start_le h hj)

theorem slot_le (h : data.WellFormed) {i : Nat} (hi : i ≤ data.length) :
    data.slot i ≤ data.leafArray.length := by
  induction data generalizing i with
  | leaf slots => exact hi
  | list level child ih => exact ih h.2 (ListArray.start_le h hi)

theorem leafArray_wellFormed (h : data.WellFormed) :
    data.leafArray.offset + data.leafArray.length
      ≤ data.leafArray.values.length := by
  induction data with
  | leaf slots => exact h
  | list level child ih => exact ih h.2

theorem slice_length (h : data.WellFormed) :
    data.leafArray.slice.length = data.leafArray.length := by
  have hlen := leafArray_wellFormed h
  rw [LeafArray.slice, List.length_take, List.length_drop]
  omega

theorem slice_getElem? {i : Nat} (hi : i < data.leafArray.length) :
    data.leafArray.slice[i]?
      = data.leafArray.values[data.leafArray.offset + i]? := by
  rw [LeafArray.slice, List.getElem?_take_of_lt hi, List.getElem?_drop]

/-- The leaves of an element are consecutive slots. -/
theorem leavesOf_eq (h : data.WellFormed) {i : Nat} (hi : i < data.length) :
    data.leavesOf i
      = segment data.leafArray.slice (data.slot i) (data.slot (i + 1)) := by
  induction data generalizing i with
  | leaf slots =>
      have hlen : i < slots.slice.length :=
        Nat.lt_of_lt_of_eq hi (@slice_length _ (.leaf slots) h).symm
      have hget := @slice_getElem? _ (.leaf slots) _ hi
      simp only [leafArray] at hget
      show (slots.values[slots.offset + i]?).toList = segment slots.slice i (i + 1)
      rw [← hget, segment, Nat.add_sub_cancel_left,
        List.getElem?_eq_getElem hlen, List.drop_eq_getElem_cons hlen]
      rfl
  | list level child ih =>
      have hsize := ListArray.start_add_size h hi
      have hle : level.start (i + 1) ≤ child.length := ListArray.start_le h hi
      obtain ⟨heq, -⟩ := flatMap_segment (l := child.leafArray.slice)
        (f := fun j => child.leavesOf (level.start i + j))
        (n := level.size i)
        (fun j hj => ih h.2 (by omega))
        (fun j hj => slot_mono h.2 (by omega) (by omega))
      rw [hsize] at heq
      exact heq

/-- The leaves of an array are consecutive slots. -/
theorem leaves_eq (h : data.WellFormed) :
    data.leaves
      = segment data.leafArray.slice (data.slot 0) (data.slot data.length) :=
  (@flatMap_segment _ _ _ data.slot _ (fun _ hj => leavesOf_eq h hj)
    fun j hj => slot_mono h (Nat.le_add_right j 1) hj).1

theorem leaves_length (h : data.WellFormed) :
    data.leaves.length = data.slot data.length - data.slot 0 := by
  rw [leaves_eq h, segment_length]
  rw [slice_length h]
  exact slot_le h (Nat.le_refl _)

/-- If an array has as many leaves as its leaf has slots, they are the
slots. -/
theorem leaves_eq_slice (h : data.WellFormed)
    (hcount : data.leaves.length = data.leafArray.length) :
    data.leaves = data.leafArray.slice ∧ data.slot 0 = 0 := by
  have hle := slot_le h (Nat.le_refl data.length)
  have hle₀ := slot_le h (Nat.zero_le data.length)
  rw [leaves_length h] at hcount
  have hzero : data.slot 0 = 0 := by omega
  refine ⟨?_, hzero⟩
  rw [leaves_eq h, hzero, segment, List.drop_zero, List.take_of_length_le]
  rw [slice_length h]
  omega

-- =============================================================== uniform

/-- Elements `start` to `stop` are nests of one shape, outermost size
first. -/
def Uniform : ArrayData β → Nat → Nat → IPosition → Prop
  | .leaf _, _, _, sizes => sizes = []
  | .list level child, start, stop, sizes =>
      ∃ n rest, sizes = n :: rest
        ∧ (∀ i, start ≤ i → i < stop → level.size i = n)
        ∧ child.Uniform (level.start start) (level.start stop) rest

theorem Uniform.mono (h : data.WellFormed) {a b a' b' : Nat} {sizes : IPosition}
    (hu : data.Uniform a b sizes) (ha : a ≤ a') (hab : a' ≤ b') (hb : b' ≤ b)
    (hlen : b ≤ data.length) : data.Uniform a' b' sizes := by
  induction data generalizing a b a' b' sizes with
  | leaf slots => exact hu
  | list level child ih =>
      obtain ⟨n, rest, rfl, hall, hrest⟩ := hu
      have hlen' : b ≤ level.length := hlen
      refine ⟨n, rest, rfl, fun i h₁ h₂ => hall i (by omega) (by omega), ?_⟩
      exact ih h.2 hrest (ListArray.start_mono h ha (by omega))
        (ListArray.start_mono h hab (by omega))
        (ListArray.start_mono h hb hlen') (ListArray.start_le h hlen')

/-- Elements of one size start at a constant step. -/
theorem ListArray.start_step {level : ListArray} {child : ArrayData β}
    (h : (ArrayData.list level child).WellFormed) {a b n : Nat}
    (hall : ∀ i, a ≤ i → i < b → level.size i = n) (hb : b ≤ level.length)
    {i : Nat} (hai : a ≤ i) (hib : i ≤ b) :
    level.start i = level.start a + (i - a) * n := by
  induction i, hai using Nat.le_induction with
  | base => simp
  | succ i hai ih =>
      have hstep := ListArray.start_add_size h (i := i) (by omega)
      rw [hall i hai (by omega), ih (by omega)] at hstep
      have hsub : i + 1 - a = i - a + 1 := by omega
      rw [← hstep, hsub, Nat.add_mul, Nat.one_mul, Nat.add_assoc]

/-- Nests of one shape take slots at a constant step. -/
theorem Uniform.slot_step (h : data.WellFormed) {a b : Nat} {sizes : IPosition}
    (hu : data.Uniform a b sizes) (hb : b ≤ data.length) {i : Nat}
    (hai : a ≤ i) (hib : i ≤ b) :
    data.slot i = data.slot a + (i - a) * sizes.prod := by
  induction data generalizing a b sizes i with
  | leaf slots =>
      rw [hu]
      show i = a + (i - a) * ([] : List Nat).prod
      simp
      omega
  | list level child ih =>
      obtain ⟨n, rest, rfl, hall, hrest⟩ := hu
      have hb' : b ≤ level.length := hb
      have hi := ListArray.start_step h hall hb' hai hib
      have hmono := ListArray.start_mono h hib hb'
      have hslot := ih h.2 hrest (ListArray.start_le h hb')
        (i := level.start i) (by omega) hmono
      show child.slot (level.start i) = child.slot (level.start a) + _
      rw [hslot, hi, List.prod_cons, Nat.add_sub_cancel_left, Nat.mul_assoc]

/-- A nested index of an element is a FORTRAN-order offset from its
first slot. -/
theorem Uniform.element_eq (h : data.WellFormed) {a b : Nat} {sizes : IPosition}
    (hu : data.Uniform a b sizes) (hb : b ≤ data.length) {i : Nat}
    (hai : a ≤ i) (hib : i < b) {idx : List Nat} (hidx : InBox idx sizes) :
    data.element i idx = data.leafArray.slice[data.slot i
      + flat sizes.reverse idx.reverse]? := by
  induction data generalizing a b sizes i idx with
  | leaf slots =>
      rw [hu] at hidx ⊢
      cases hidx
      have hi : i < slots.length := Nat.lt_of_lt_of_le hib hb
      have hget := @slice_getElem? _ (.leaf slots) _ hi
      simp only [leafArray] at hget
      show (if i < slots.length then slots.values[slots.offset + i]? else none)
        = slots.slice[i + 0]?
      rw [if_pos hi, Nat.add_zero, hget]
  | list level child ih =>
      obtain ⟨n, rest, rfl, hall, hrest⟩ := hu
      cases hidx with
      | cons hj hidx =>
          rename_i j idx
          have hb' : b ≤ level.length := hb
          have hi : i < level.length := by omega
          have hn := hall i hai hib
          have hsize := ListArray.start_add_size h hi
          have hmono : level.start (i + 1) ≤ level.start b :=
            ListArray.start_mono h hib hb'
          have hmono₀ := ListArray.start_mono h hai (Nat.le_of_lt hi)
          have hle := ListArray.start_le h hb'
          have hwith : level.start a ≤ level.start i + j := by omega
          have hlt : level.start i + j < level.start b := by omega
          show (if i < level.length ∧ j < level.size i then _ else none) = _
          rw [if_pos ⟨hi, by omega⟩, ih h.2 hrest hle hwith hlt hidx]
          have hj' := hrest.slot_step h.2 hle hwith (Nat.le_of_lt hlt)
          have hi' := hrest.slot_step h.2 hle (i := level.start i) hmono₀
            (by omega)
          have hlen : idx.reverse.length = rest.reverse.length := by
            rw [List.length_reverse, List.length_reverse]
            exact hidx.length_eq
          rw [List.reverse_cons, List.reverse_cons,
            flat_append_singleton n j hlen, List.prod_reverse]
          show child.leafArray.slice[child.slot (level.start i + j) + _]? = _
          congr 1
          show _ = child.slot (level.start i) + _
          have hsplit : level.start i + j - level.start a
              = (level.start i - level.start a) + j := by omega
          rw [hj', hi', hsplit, Nat.add_mul, Nat.mul_comm rest.prod j]
          omega

end ArrayData

end Arcae
