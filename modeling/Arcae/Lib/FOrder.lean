/-
FORTRAN-order addressing: the arithmetic of a dense array whose first
axis varies fastest, over a list of axis sizes of any length.

# The two readings of an offset

`flat` is the Horner form (`i₀ + n₀·(i₁ + n₁·…)`), which inductions
like; `dot idx (strides sizes)` is the form programs compute. The two
agree on every pair of lists (`dot_strides`), because both stop at the
shorter one. `unflat` reads an offset back by `%` and `/`.

# The box

`box sizes` lists the multi-indices below `sizes`, first axis fastest.
Its offsets are exactly `0, 1, …, ∏ sizes - 1` in that order
(`box_map_flat`), so an index and its offset determine each other
inside the box, and a walk of the box is a walk of the storage.
-/
import Mathlib.Data.List.Sections
import Mathlib.Data.List.Nodup
import Mathlib.Algebra.BigOperators.Group.List.Basic
import Mathlib.Algebra.BigOperators.Ring.List
import Mathlib.Tactic.Ring

namespace FOrder

-- ========================================================= the addressing

/-- The offset of `idx` in an array of axis sizes `sizes`, first axis
fastest. -/
def flat : List Nat → List Nat → Nat
  | n :: ns, i :: is => i + n * flat ns is
  | _, _ => 0

/-- The multi-index at an offset: `flat` read back digit by digit. -/
def unflat : List Nat → Nat → List Nat
  | [], _ => []
  | n :: ns, k => k % n :: unflat ns (k / n)

/-- The running products of `sizes`, started at `p`. -/
def stridesFrom : Nat → List Nat → List Nat
  | _, [] => []
  | p, n :: ns => p :: stridesFrom (p * n) ns

/-- The step between neighbours along each axis. -/
def strides (sizes : List Nat) : List Nat := stridesFrom 1 sizes

/-- Sum of products, stopping at the shorter list. -/
def dot : List Nat → List Nat → Nat
  | i :: is, s :: ss => i * s + dot is ss
  | _, _ => 0

/-- `idx` has one coordinate per axis, each below the axis size. -/
abbrev InBox (idx sizes : List Nat) : Prop :=
  List.Forall₂ (· < ·) idx sizes

/-- What lies in a box lies in a larger one. -/
theorem InBox.mono {idx sizes sizes' : List Nat} (h : InBox idx sizes)
    (hle : List.Forall₂ (· ≤ ·) sizes sizes') : InBox idx sizes' := by
  induction h generalizing sizes' with
  | nil =>
      cases hle
      exact .nil
  | cons hlt _ ih =>
      cases hle with
      | cons hsize hle => exact .cons (Nat.lt_of_lt_of_le hlt hsize) (ih hle)

/-- A box that holds something has no axis of size zero. -/
theorem InBox.pos_of_mem {idx sizes : List Nat} (h : InBox idx sizes) :
    ∀ n ∈ sizes, 0 < n := by
  induction h with
  | nil =>
      intro n hn
      cases hn
  | cons hlt _ ih =>
      exact List.forall_mem_cons.mpr ⟨Nat.lt_of_le_of_lt (Nat.zero_le _) hlt, ih⟩

/-- Every multi-index below `sizes`, first axis fastest. -/
def box (sizes : List Nat) : List (List Nat) :=
  (sizes.map List.range).sections

@[simp] theorem flat_nil_left (idx : List Nat) : flat [] idx = 0 := by
  cases idx <;> rfl

@[simp] theorem flat_nil_right (sizes : List Nat) : flat sizes [] = 0 := by
  cases sizes <;> rfl

@[simp] theorem flat_cons (n i : Nat) (ns is : List Nat) :
    flat (n :: ns) (i :: is) = i + n * flat ns is := rfl

@[simp] theorem dot_nil_left (ss : List Nat) : dot [] ss = 0 := by
  cases ss <;> rfl

@[simp] theorem dot_nil_right (is : List Nat) : dot is [] = 0 := by
  cases is <;> rfl

@[simp] theorem dot_cons (i s : Nat) (is ss : List Nat) :
    dot (i :: is) (s :: ss) = i * s + dot is ss := rfl

theorem stridesFrom_length (p : Nat) (sizes : List Nat) :
    (stridesFrom p sizes).length = sizes.length := by
  induction sizes generalizing p with
  | nil => rfl
  | cons n ns ih => simp [stridesFrom, ih]

@[simp] theorem strides_length (sizes : List Nat) :
    (strides sizes).length = sizes.length := stridesFrom_length 1 sizes

-- ==================================================== strides and Horner

/-- The stride sum is the Horner form, scaled by the starting product. -/
theorem dot_stridesFrom (p : Nat) (sizes idx : List Nat) :
    dot idx (stridesFrom p sizes) = p * flat sizes idx := by
  induction sizes generalizing p idx with
  | nil => simp [stridesFrom]
  | cons n ns ih =>
      cases idx with
      | nil => simp
      | cons i is =>
          rw [stridesFrom, dot_cons, ih, flat_cons]
          ring

theorem dot_strides (sizes idx : List Nat) :
    dot idx (strides sizes) = flat sizes idx := by
  rw [strides, dot_stridesFrom, Nat.one_mul]

/-- Appending a slowest axis adds its coordinate times the volume of the
others. -/
theorem flat_append_singleton {sizes idx : List Nat} (n i : Nat)
    (hlen : idx.length = sizes.length) :
    flat (sizes ++ [n]) (idx ++ [i]) = flat sizes idx + sizes.prod * i := by
  induction sizes generalizing idx with
  | nil =>
      have hnil : idx = [] := List.length_eq_zero_iff.mp (by simpa using hlen)
      subst hnil
      simp
  | cons m ms ih =>
      cases idx with
      | nil => simp at hlen
      | cons j js =>
          have hlen' : js.length = ms.length := by simpa using hlen
          rw [List.cons_append, List.cons_append, flat_cons, flat_cons,
            ih hlen', List.prod_cons]
          ring

/-- An index without a slowest coordinate has its offset among the
others. -/
theorem flat_append_sizes {sizes idx : List Nat} (rest : List Nat)
    (hlen : idx.length = sizes.length) :
    flat (sizes ++ rest) idx = flat sizes idx := by
  induction sizes generalizing idx with
  | nil =>
      rw [List.length_eq_zero_iff.mp hlen]
      simp
  | cons m ms ih =>
      cases idx with
      | nil => simp at hlen
      | cons j js =>
          have hlen' : js.length = ms.length := by simpa using hlen
          rw [List.cons_append, flat_cons, flat_cons, ih hlen']

/-- The size of the slowest axis is no one's stride. -/
theorem stridesFrom_append_singleton (p : Nat) (sizes : List Nat) (m n : Nat) :
    stridesFrom p (sizes ++ [m]) = stridesFrom p (sizes ++ [n]) := by
  induction sizes generalizing p with
  | nil => rfl
  | cons k ks ih =>
      rw [List.cons_append, List.cons_append, stridesFrom, stridesFrom, ih]

theorem strides_append_singleton (sizes : List Nat) (m n : Nat) :
    strides (sizes ++ [m]) = strides (sizes ++ [n]) :=
  stridesFrom_append_singleton 1 sizes m n

/-- The sum is linear in the coordinates, so an offset may be taken in
two legs: to a lower corner, and on from there. -/
theorem dot_sub_add {idx low : List Nat} (h : List.Forall₂ (· ≤ ·) low idx)
    (ss : List Nat) :
    dot (List.zipWith (· - ·) idx low) ss + dot low ss = dot idx ss := by
  induction h generalizing ss with
  | nil => simp
  | @cons l i low idx hle _ ih =>
      cases ss with
      | nil => simp
      | cons s ss =>
          rw [List.zipWith_cons_cons, dot_cons, dot_cons, dot_cons, ← ih ss]
          have hi : (i - l) * s + l * s = i * s := by
            rw [← Nat.add_mul, Nat.sub_add_cancel hle]
          omega

-- ====================================================== offsets in the box

/-- An index of the box has its offset below the volume. -/
theorem flat_lt_prod {sizes idx : List Nat} (h : InBox idx sizes) :
    flat sizes idx < sizes.prod := by
  induction h with
  | nil => simp
  | @cons i n is ns hi _ ih =>
      rw [flat_cons, List.prod_cons]
      calc i + n * flat ns is
          < n + n * flat ns is := by omega
        _ = n * (flat ns is + 1) := by ring
        _ ≤ n * ns.prod := Nat.mul_le_mul_left n ih

/-- An offset below the volume reads back to an index of the box. -/
theorem unflat_inBox {sizes : List Nat} {k : Nat} (hk : k < sizes.prod) :
    InBox (unflat sizes k) sizes := by
  induction sizes generalizing k with
  | nil => exact .nil
  | cons n ns ih =>
      rw [List.prod_cons] at hk
      have hn : 0 < n := Nat.pos_of_mul_pos_right (Nat.zero_lt_of_lt hk)
      exact .cons (Nat.mod_lt k hn) (ih (Nat.div_lt_of_lt_mul hk))

/-- Reading an offset back and flattening again is the identity. -/
theorem flat_unflat {sizes : List Nat} {k : Nat} (hk : k < sizes.prod) :
    flat sizes (unflat sizes k) = k := by
  induction sizes generalizing k with
  | nil =>
      have hk0 : k < 1 := by simpa using hk
      rw [flat_nil_left]
      omega
  | cons n ns ih =>
      rw [List.prod_cons] at hk
      rw [unflat, flat_cons, ih (Nat.div_lt_of_lt_mul hk)]
      exact Nat.mod_add_div k n

/-- Flattening an index of the box and reading it back is the
identity. -/
theorem unflat_flat {sizes idx : List Nat} (h : InBox idx sizes) :
    unflat sizes (flat sizes idx) = idx := by
  induction h with
  | nil => rfl
  | @cons i n is ns hi _ ih =>
      have hn : 0 < n := Nat.zero_lt_of_lt hi
      rw [flat_cons, unflat, Nat.add_mul_mod_self_left, Nat.mod_eq_of_lt hi,
        Nat.add_mul_div_left _ _ hn, Nat.div_eq_of_lt hi, Nat.zero_add, ih]

-- ================================================================ the box

@[simp] theorem unflat_length (sizes : List Nat) (k : Nat) :
    (unflat sizes k).length = sizes.length := by
  induction sizes generalizing k with
  | nil => rfl
  | cons n ns ih => rw [unflat, List.length_cons, ih, List.length_cons]

/-- The digit of a slowest axis counts the volumes of the others. -/
theorem unflat_append_singleton (sizes : List Nat) (n k : Nat) :
    unflat (sizes ++ [n]) k = unflat sizes k ++ [k / sizes.prod % n] := by
  induction sizes generalizing k with
  | nil => simp [unflat]
  | cons m ms ih =>
      rw [List.cons_append, unflat, unflat, ih, List.prod_cons,
        Nat.div_div_eq_div_mul, List.cons_append]

/-- Reading an offset beyond the volume back loses whole volumes. -/
theorem flat_unflat_mod (sizes : List Nat) (k : Nat) :
    flat sizes (unflat sizes k) = k % sizes.prod := by
  induction sizes generalizing k with
  | nil => simp [Nat.mod_one]
  | cons n ns ih => rw [unflat, flat_cons, ih, List.prod_cons, Nat.mod_mul]

/-- The Horner loop over the axes, slowest first, on top of a slower
coordinate. -/
theorem foldr_horner {sizes idx : List Nat} (hlen : idx.length = sizes.length)
    (a : Nat) :
    (sizes.zip idx).foldr (fun axis offset => offset * axis.1 + axis.2) a
      = flat sizes idx + sizes.prod * a := by
  induction sizes generalizing idx with
  | nil => simp
  | cons n ns ih =>
      cases idx with
      | nil => cases hlen
      | cons i is =>
          have hlen' : is.length = ns.length := Nat.succ.inj hlen
          rw [List.zip_cons_cons, List.foldr_cons, ih hlen', flat_cons,
            List.prod_cons]
          ring

@[simp] theorem mem_box {sizes idx : List Nat} :
    idx ∈ box sizes ↔ InBox idx sizes := by
  rw [box, List.mem_sections, List.forall₂_map_right_iff]
  simp only [List.mem_range, InBox]

/-- One round of the fastest axis at each step of the others. -/
theorem box_cons (n : Nat) (ns : List Nat) :
    box (n :: ns)
      = (box ns).flatMap fun is => (List.range n).map (· :: is) := rfl

/-- Counting in blocks of `n` counts every number below `n * m`. -/
theorem range_mul (n m : Nat) :
    List.range (n * m)
      = (List.range m).flatMap fun q => (List.range n).map (· + n * q) := by
  induction m with
  | zero => simp
  | succ m ih =>
      rw [Nat.mul_succ, List.range_add, ih, List.range_succ,
        List.flatMap_append, List.flatMap_singleton]
      congr 1
      refine List.map_congr_left fun i _ => ?_
      omega

/-- The box is walked in storage order: its offsets count up from zero
to the volume. -/
theorem box_map_flat (sizes : List Nat) :
    (box sizes).map (flat sizes) = List.range sizes.prod := by
  induction sizes with
  | nil => rfl
  | cons n ns ih =>
      rw [box_cons, List.map_flatMap, List.prod_cons, range_mul, ← ih,
        List.flatMap_map]
      refine List.flatMap_congr fun is _ => ?_
      rw [List.map_map]
      rfl

@[simp] theorem box_length (sizes : List Nat) :
    (box sizes).length = sizes.prod := by
  have h := congrArg List.length (box_map_flat sizes)
  simpa using h

/-- The box is the offsets below the volume, read back in order. -/
theorem box_eq_map_unflat (sizes : List Nat) :
    box sizes = (List.range sizes.prod).map (unflat sizes) := by
  rw [← box_map_flat, List.map_map]
  conv_lhs => rw [← List.map_id (box sizes)]
  refine List.map_congr_left fun idx hidx => ?_
  exact (unflat_flat (mem_box.mp hidx)).symm

end FOrder
