/-
The selection of a request and its builder (selection.h).

A selection holds one span of indices per dimension, FORTRAN-ordered
with the row dimension last; an empty span is how it says that a
dimension is not selected. It may have fewer or more dimensions than
the data: dimensions are matched from the row dimension backwards
(`maybeFSpan`).

The source's builder also owns the index vectors its spans point into;
here a span is its indices, so ownership leaves no trace.
-/
import Arcae.Model.Basic
import Mathlib.Data.List.Basic

namespace Arcae

-- ========================================================== the selection

/-- FORTRAN-ordered spans of selected indices, row dimension last. -/
structure Selection where
  spans : List Index
  deriving Repr, DecidableEq

namespace Selection

/-- The default selection: nothing is selected. -/
def empty : Selection := ⟨[]⟩

/-- Number of dimensions in the selection. -/
def size (s : Selection) : Nat := s.spans.length

/-- A non-empty selection exists for the row dimension. -/
def hasRowSpan (s : Selection) : Bool :=
  match s.spans.getLast? with
  | some span => !span.isEmpty
  | none => false

/-- The selected rows; only read under `hasRowSpan`. -/
def getRowSpan (s : Selection) : Index := s.spans.getLastD []

/-- The span of FORTRAN-ordered dimension `fdim` of `ndim`, if the
dimension is selected. -/
def maybeFSpan (s : Selection) (fdim ndim : Nat) : Option Index :=
  let sdim : Int := fdim - ndim + s.size
  if 0 ≤ sdim ∧ sdim < s.size then
    match s.spans[sdim.toNat]? with
    | some (i :: is) => some (i :: is)
    | _ => none
  else none

/-- The span of C-ordered dimension `cdim`. -/
def cSpan (s : Selection) (cdim : Nat) : Result Index :=
  let sdim : Int := s.size - cdim - 1
  let missing :=
    Status.indexError ("Selection doesn't exist for dimension " ++ toString cdim)
  if 0 ≤ sdim ∧ sdim < s.size then
    match s.spans[sdim.toNat]? with
    | some (i :: is) => .ok (i :: is)
    | _ => .error missing
  else .error missing

/-- The span at a dimension, counted from the row dimension at 0. -/
def fromRow (s : Selection) (back : Nat) : Option Index :=
  match s.spans.reverse[back]? with
  | some (i :: is) => some (i :: is)
  | _ => none

/-- A selected dimension has an index. -/
theorem maybeFSpan_ne_nil {s : Selection} {fdim ndim : Nat} {ids : Index}
    (h : s.maybeFSpan fdim ndim = some ids) : ids ≠ [] := by
  unfold maybeFSpan at h
  dsimp only at h
  split at h
  · split at h
    · cases h
      exact List.cons_ne_nil _ _
    · cases h
  · cases h

/-- Dimensions are matched from the row dimension backwards. -/
theorem maybeFSpan_eq_fromRow (s : Selection) {fdim ndim : Nat}
    (h : fdim < ndim) :
    s.maybeFSpan fdim ndim = s.fromRow (ndim - 1 - fdim) := by
  unfold maybeFSpan fromRow size
  dsimp only
  by_cases hin : ndim - 1 - fdim < s.spans.length
  · have hpos : (0 : Int) ≤ fdim - ndim + s.spans.length
        ∧ (fdim : Int) - ndim + s.spans.length < s.spans.length := by omega
    have hidx : ((fdim : Int) - ndim + s.spans.length).toNat
        = s.spans.length - 1 - (ndim - 1 - fdim) := by omega
    rw [if_pos hpos, hidx, List.getElem?_reverse hin]
  · have hneg : ¬ ((0 : Int) ≤ fdim - ndim + s.spans.length
        ∧ (fdim : Int) - ndim + s.spans.length < s.spans.length) := by omega
    have hnone : s.spans.reverse[ndim - 1 - fdim]? = none := by
      rw [List.getElem?_eq_none_iff, List.length_reverse]
      omega
    rw [if_neg hneg, hnone]

/-- The row dimension is the last one, whatever the rank. -/
theorem maybeFSpan_row (s : Selection) {ndim : Nat} (h : 0 < ndim) :
    s.maybeFSpan (ndim - 1) ndim
      = if s.hasRowSpan then some s.getRowSpan else none := by
  have hlt : ndim - 1 < ndim := by omega
  have hzero : ndim - 1 - (ndim - 1) = 0 := by omega
  rw [maybeFSpan_eq_fromRow s hlt, hzero]
  unfold fromRow hasRowSpan getRowSpan
  rw [← List.head?_eq_getElem?, List.head?_reverse,
    List.getLastD_eq_getLast?]
  cases hlast : s.spans.getLast? with
  | none => rfl
  | some span =>
      cases span with
      | nil => rfl
      | cons i is => rfl

/-- No dimension of the empty selection is selected. -/
@[simp] theorem maybeFSpan_empty (fdim ndim : Nat) :
    Selection.empty.maybeFSpan fdim ndim = none := by
  have h : ∀ z : Int, ¬ (0 ≤ z ∧ z < ((0 : Nat) : Int)) := by omega
  simp [maybeFSpan, Selection.empty, size]

end Selection

-- ============================================================ the builder

/-- Whether spans are added in C or FORTRAN order. -/
inductive SelectionOrder where
  | cOrder | fOrder
  deriving Repr, DecidableEq

/-- The spans added so far. -/
structure SelectionBuilder where
  spans : List Index
  order : SelectionOrder
  deriving Repr, DecidableEq

namespace SelectionBuilder

/-- A builder with no spans, adding in `order`. -/
def init (order : SelectionOrder) : SelectionBuilder := ⟨[], order⟩

/-- Add a span over the indices of a dimension. -/
def add (b : SelectionBuilder) (ids : Index) : SelectionBuilder :=
  { b with spans := b.spans ++ [ids] }

/-- Add an unselected dimension. -/
def addEmpty (b : SelectionBuilder) : SelectionBuilder := b.add []

/-- Build the selection, reversing C-ordered spans. -/
def build (b : SelectionBuilder) : Selection :=
  match b.order with
  | .cOrder => ⟨b.spans.reverse⟩
  | .fOrder => ⟨b.spans⟩

@[simp] theorem add_spans (b : SelectionBuilder) (ids : Index) :
    (b.add ids).spans = b.spans ++ [ids] := rfl

@[simp] theorem add_order (b : SelectionBuilder) (ids : Index) :
    (b.add ids).order = b.order := rfl

end SelectionBuilder

end Arcae
