/-
Nested lists, written flat.

A columnar format stores a nested list as one list of values and, for
each level of nesting, the sizes of the lists there: `wrap` puts the
items of a level into the lists of the next. The sizes may come as
running offsets (`wrapAt`), which are the same cut (`wrapAt_scanl`).
Nothing is lost when the sizes cover the items (`flatMap_items_wrap`).

A `rectangle` is the nest of a function of an index, all lists of a
level being of one size. `block` is the rectangle of a dense array, its
sizes fastest axis first and its index slowest first. Wrapping the
values of such an array once per axis ends in its block, each turn
taking the blocks of the axes below (`cells`) to those of one axis more
(`wrap_cells`).
-/
import Arcae.Lib.FOrder
import Mathlib.Data.List.SplitLengths
import Mathlib.Data.List.GetD

/-- A nested list. -/
inductive Nested (β : Type) where
  | value (b : β)
  | list (items : List (Nested β))

namespace Nested

open FOrder

variable {β γ : Type}

/-- The items of a list; a value has none. -/
def items : Nested β → List (Nested β)
  | .value _ => []
  | .list items => items

/-- Items cut into lists of these sizes. -/
def wrap (sizes : List Nat) (items : List (Nested β)) : List (Nested β) :=
  (sizes.splitLengths items).map .list

/-- Items cut into lists at these offsets. -/
def wrapAt (offsets : List Nat) (items : List (Nested β)) : List (Nested β) :=
  (List.range (offsets.length - 1)).map fun i =>
    .list ((items.drop (offsets.getD i 0)).take
      (offsets.getD (i + 1) 0 - offsets.getD i 0))

/-- The nest of a function of an index, sizes and index outermost
first. -/
def rectangle (value : List Nat → Nested β) : List Nat → Nested β
  | [] => value []
  | n :: sizes => .list ((List.range n).map fun i =>
      rectangle (fun idx => value (i :: idx)) sizes)

/-- The nest of a dense array that starts at `base`, innermost size
first. -/
def block (value : Nat → Nested β) (dims : List Nat) (base : Nat) : Nested β :=
  rectangle (fun idx => value (base + flat dims idx.reverse)) dims.reverse

/-- A dense array wrapped once for each of its `d` innermost sizes. -/
def cells (value : Nat → Nested β) (dims : List Nat) (base d : Nat) :
    List (Nested β) :=
  (List.range (dims.drop d).prod).map fun k =>
    block value (dims.take d) (base + (dims.take d).prod * k)

-- =============================================================== wrapping

@[simp] theorem wrap_nil (items : List (Nested β)) : wrap [] items = [] := rfl

theorem wrap_cons (n : Nat) (sizes : List Nat) (items : List (Nested β)) :
    wrap (n :: sizes) items
      = .list (items.take n) :: wrap sizes (items.drop n) := by
  rw [wrap, List.splitLengths_cons, List.map_cons, wrap]

@[simp] theorem wrap_length (sizes : List Nat) (items : List (Nested β)) :
    (wrap sizes items).length = sizes.length := by
  rw [wrap, List.length_map, List.length_splitLengths]

/-- Lists whose sizes cover the items hold all of them. -/
theorem flatMap_items_wrap {sizes : List Nat} {items : List (Nested β)}
    (hsum : items.length ≤ sizes.sum) :
    (wrap sizes items).flatMap Nested.items = items := by
  rw [wrap, List.flatMap_map]
  show (sizes.splitLengths items).flatMap id = items
  rw [List.flatMap_id, List.flatten_splitLengths _ _ hsum]

/-- A cut of a list in two, each part by its own sizes. -/
theorem wrap_append {sizes sizes' : List Nat} {items items' : List (Nested β)}
    (hsum : sizes.sum = items.length) :
    wrap (sizes ++ sizes') (items ++ items')
      = wrap sizes items ++ wrap sizes' items' := by
  induction sizes generalizing items with
  | nil =>
      have hnil : items = [] := List.length_eq_zero_iff.mp (by simpa using hsum.symm)
      rw [hnil]
      rfl
  | cons n sizes ih =>
      have hn : n ≤ items.length := by
        rw [← hsum, List.sum_cons]
        exact Nat.le_add_right _ _
      have hrest : sizes.sum = (items.drop n).length := by
        rw [List.sum_cons] at hsum
        rw [List.length_drop]
        omega
      rw [List.cons_append, wrap_cons, List.take_append_of_le_length hn,
        List.drop_append_of_le_length hn, ih hrest, wrap_cons, List.cons_append]

theorem wrap_flatMap {rows : List γ} {sizes : γ → List Nat}
    {items : γ → List (Nested β)}
    (hsum : ∀ r ∈ rows, (sizes r).sum = (items r).length) :
    wrap (rows.flatMap sizes) (rows.flatMap items)
      = rows.flatMap fun r => wrap (sizes r) (items r) := by
  induction rows with
  | nil => rfl
  | cons r rows ih =>
      obtain ⟨hr, hrows⟩ := List.forall_mem_cons.mp hsum
      rw [List.flatMap_cons, List.flatMap_cons, wrap_append hr, ih hrows,
        List.flatMap_cons]

/-- Lists of one size. -/
theorem wrap_replicate (m n : Nat) (f : Nat → Nested β) :
    wrap (List.replicate m n) ((List.range (n * m)).map f)
      = (List.range m).map fun k =>
          .list ((List.range n).map fun j => f (n * k + j)) := by
  induction m with
  | zero => rfl
  | succ m ih =>
      have hsum : (List.replicate m n).sum
          = ((List.range (n * m)).map f).length := by
        rw [List.sum_replicate_nat, List.length_map, List.length_range,
          Nat.mul_comm]
      have hlen : ((List.range n).map fun j => f (n * m + j)).length ≤ n := by
        rw [List.length_map, List.length_range]
      rw [List.replicate_succ', Nat.mul_succ, List.range_add, List.map_append,
        List.map_map, wrap_append hsum, ih, List.range_succ, List.map_append]
      refine congrArg _ ?_
      rw [wrap_cons, wrap_nil, List.map_singleton]
      refine congrArg (fun l => [Nested.list l]) ?_
      exact List.take_of_length_le hlen

-- ================================================================ offsets

/-- Running offsets cut as the sizes do. -/
theorem wrapAt_scanl (sizes : List Nat) (items : List (Nested β)) :
    wrapAt (sizes.scanl (· + ·) 0) items = wrap sizes items := by
  have key : ∀ (sizes : List Nat) (s : Nat),
      ((List.range sizes.length).map fun i =>
          Nested.list ((items.drop ((sizes.scanl (· + ·) s).getD i 0)).take
            ((sizes.scanl (· + ·) s).getD (i + 1) 0
              - (sizes.scanl (· + ·) s).getD i 0)))
        = wrap sizes (items.drop s) := by
    intro sizes
    induction sizes with
    | nil => exact fun _ => rfl
    | cons n sizes ih =>
        intro s
        have hhead : (sizes.scanl (· + ·) (s + n)).getD 0 0 = s + n := by
          cases sizes <;> simp
        rw [List.length_cons, List.range_succ_eq_map, List.map_cons, List.map_map,
          List.scanl_cons, wrap_cons, List.drop_drop, ← ih (s + n)]
        simp only [List.getD_cons_zero, List.getD_cons_succ, hhead,
          Nat.add_sub_cancel_left, Function.comp_def]
  have hall := key sizes 0
  rw [List.drop_zero] at hall
  rw [← hall, wrapAt, List.length_scanl, Nat.add_sub_cancel]

-- ============================================================= rectangles

/-- A rectangle is made of the values at the indices in range. -/
theorem rectangle_congr {value value' : List Nat → Nested β}
    {sizes : List Nat} (h : ∀ idx, InBox idx sizes → value idx = value' idx) :
    rectangle value sizes = rectangle value' sizes := by
  induction sizes generalizing value value' with
  | nil => exact h [] .nil
  | cons n sizes ih =>
      rw [rectangle, rectangle]
      refine congrArg Nested.list (List.map_congr_left fun i hi => ?_)
      exact ih fun idx hidx => h _ (.cons (List.mem_range.mp hi) hidx)

@[simp] theorem block_nil (value : Nat → Nested β) (base : Nat) :
    block value [] base = value base := rfl

/-- A block is the list of the blocks of its slowest axis. -/
theorem block_concat (value : Nat → Nested β) (dims : List Nat) (n base : Nat) :
    block value (dims ++ [n]) base
      = .list ((List.range n).map fun i =>
          block value dims (base + dims.prod * i)) := by
  rw [block, List.reverse_append, List.reverse_singleton, List.singleton_append,
    rectangle]
  refine congrArg Nested.list (List.map_congr_left fun i _ => ?_)
  refine rectangle_congr fun idx hidx => ?_
  have hlen : idx.reverse.length = dims.length := by
    rw [List.length_reverse, hidx.length_eq, List.length_reverse]
  rw [List.reverse_cons, flat_append_singleton n i hlen]
  congr 1
  omega

-- ================================================================== cells

theorem cells_zero (value : Nat → Nested β) (dims : List Nat) (base : Nat) :
    cells value dims base 0
      = (List.range dims.prod).map fun k => value (base + k) := by
  simp [cells]

theorem cells_length (value : Nat → Nested β) (dims : List Nat) (base d : Nat) :
    (cells value dims base d).length = (dims.drop d).prod := by
  rw [cells, List.length_map, List.length_range]

/-- Wrapped once for each of its sizes, an array is its block. -/
theorem cells_rank (value : Nat → Nested β) (dims : List Nat) (base : Nat) :
    cells value dims base dims.length = [block value dims base] := by
  simp [cells]

/-- One more turn wraps the next size. -/
theorem wrap_cells (value : Nat → Nested β) {dims : List Nat} (base : Nat)
    {d : Nat} (hd : d < dims.length) :
    wrap (List.replicate (dims.drop (d + 1)).prod (dims.getD d 0))
        (cells value dims base d)
      = cells value dims base (d + 1) := by
  have hdrop : (dims.drop d).prod = dims.getD d 0 * (dims.drop (d + 1)).prod := by
    rw [List.drop_eq_getElem_cons hd, List.prod_cons, List.getD_eq_getElem _ _ hd]
  have htake : dims.take (d + 1) = dims.take d ++ [dims.getD d 0] := by
    rw [List.take_succ_eq_append_getElem hd, List.getD_eq_getElem _ _ hd]
  rw [cells, cells, hdrop, wrap_replicate, htake]
  refine List.map_congr_left fun k _ => ?_
  rw [block_concat, List.prod_append, List.prod_singleton]
  refine congrArg Nested.list (List.map_congr_left fun j _ => ?_)
  congr 1
  ring

end Nested
