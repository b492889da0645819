/-
What a partition is for: the plan of a request.

# The request

A request is a result shape and a selection that fits it. `Consistent`
says that the shape data agree on their rank, as every constructor of
the source makes them; `Matches` says that each selected dimension has
as many indices as the result has positions there. Each position of a
dimension then has one disk index: the selected one, or the position
itself where nothing is selected, or none (-1) beyond the extent a row
reads (`rowIds`, `dimIds`).

# The plan

A `Transfer` moves one element: a disk index and a memory index for
each dimension, rows last. The plan of a request has one transfer for
every element of the result, and says nothing about chunks, sorting or
order (`plan`). `rowStart` and `position` are where the elements belong
in memory: row after row, each row first axis fastest.

A chunk is a set of transfers (`DataChunk.transfers`) and a rule for
their place in memory (`DataChunk.bufferIndex`). The partition is right
when its chunks' transfers are the plan's, each at its own position.
-/
import Arcae.Model.DataPartition

namespace Arcae

open FOrder

-- ============================================================ the shape

namespace ResultShapeData

variable (rs : ResultShapeData)

/-- Number of dimensions, rows included, of a consistent shape. -/
def rank : Nat := rs.ndim.toNat

/-- Sizes of the secondary dimensions of a row. -/
def rowDims (row : Nat) : IPosition :=
  match rs.shape with
  | some shape => shape.take (rs.rank - 1)
  | none => rs.getRowShapes.getD row []

/-- The offset at which a row starts. -/
def rowStart (row : Nat) : Nat :=
  match rs.shape with
  | some shape => (shape.take (rs.rank - 1)).prod * row
  | none => ((rs.getRowShapes.take row).map List.prod).sum

/-- The offset of an element of a row. -/
def position (row : Nat) (idx : List Nat) : Nat :=
  rs.rowStart row + flat (rs.rowDims row) idx

/-- The extent of a dimension that a row reads from disk, if that may be
less than the result holds. -/
def extent (row dim : Nat) : Option Nat :=
  match rs.cellExtents with
  | none => none
  | some extents => (extents.getD row [])[dim]?

/-- The shape data agree on one rank: a fixed shape has that many axes,
and the shape or extent of a row all but the row axis. Rows whose shape
varies have at least one axis. -/
structure Consistent : Prop where
  ndim_pos : 0 < rs.ndim
  fixed : ∀ shape, rs.shape = some shape → shape.length = rs.rank
  varying : rs.shape = none →
    2 ≤ rs.rank ∧ ∀ s ∈ rs.getRowShapes, s.length = rs.rank - 1
  extents : ∀ es, rs.cellExtents = some es →
    rs.isFixed = true ∧ es.length = rs.nRows
      ∧ ∀ e ∈ es, e.length = rs.rank - 1

/-- A row reads less of a dimension than the result holds. -/
def IsPadded (row dim : Nat) : Prop :=
  ∃ extent, rs.extent row dim = some extent ∧ extent < (rs.rowDims row).getD dim 0

/-- Every row of the result has fewer elements than a 32-bit `int` can
count. -/
def SmallRows : Prop := ∀ row < rs.nRows, (rs.rowDims row).prod < 2 ^ 31

end ResultShapeData

-- ============================================================ the request

/-- The indices selected along a dimension of the result. -/
def Selection.selected (sel : Selection) (rs : ResultShapeData) (dim : Nat) :
    Option Index :=
  sel.maybeFSpan dim rs.rank

/-- Each selected dimension has one index for each position of the
result, and only unselected dimensions are padded. -/
structure Selection.Matches (sel : Selection) (rs : ResultShapeData) :
    Prop where
  rows : ∀ ids, sel.selected rs (rs.rank - 1) = some ids → ids.length = rs.nRows
  secondary : ∀ row, row < rs.nRows ∨ rs.isFixed = true →
    ∀ dim < rs.rank - 1, ∀ ids, sel.selected rs dim = some ids →
      (rs.rowDims row)[dim]? = some ids.length
  unpadded : ∀ row dim, rs.IsPadded row dim → sel.selected rs dim = none

/-- An empty selection fits every result. -/
theorem empty_matches (rs : ResultShapeData) : Selection.empty.Matches rs := by
  have hnone : ∀ dim, Selection.empty.selected rs dim = none :=
    fun dim => Selection.maybeFSpan_empty dim rs.rank
  refine ⟨fun ids h => ?_, fun row _ dim _ ids h => ?_, fun _ dim _ => hnone dim⟩
  · rw [hnone] at h
    cases h
  · rw [hnone] at h
    cases h

/-- The ids `0 .. n - 1`. -/
def monotonicIds (n : Nat) : Index := (List.range n).map Int.ofNat

/-- The leading ids of a dimension, and -1 for the rest of it. -/
def paddedIds (n extent : Nat) : Index :=
  monotonicIds extent ++ List.replicate (n - extent) (-1)

/-- The disk row of each row of the result. -/
def rowIds (sel : Selection) (rs : ResultShapeData) : Index :=
  (sel.selected rs (rs.rank - 1)).getD (monotonicIds rs.nRows)

/-- The disk index of each position of a secondary dimension of a
row. -/
def dimIds (sel : Selection) (rs : ResultShapeData) (row dim : Nat) : Index :=
  let n := (rs.rowDims row).getD dim 0
  let unpadded := (sel.selected rs dim).getD (monotonicIds n)
  match rs.extent row dim with
  | none => unpadded
  | some extent => if extent < n then paddedIds n extent else unpadded

/-- The disk indices of every secondary dimension of a row. -/
def secondaryIds (sel : Selection) (rs : ResultShapeData) (row : Nat) :
    List Index :=
  (List.range (rs.rank - 1)).map (dimIds sel rs row)

/-- No non-negative index occurs twice. -/
def NoRepeat (ids : Index) : Prop := (ids.filter fun i => decide (0 ≤ i)).Nodup

instance (ids : Index) : Decidable (NoRepeat ids) :=
  inferInstanceAs (Decidable (List.Nodup _))

/-- The non-negative indices, in order, have no gaps. -/
def Gapless (ids : Index) : Prop :=
  ∀ i ∈ ids, 0 ≤ i → i + 1 ∈ ids ∨ ∀ j ∈ ids, j ≤ i

/-- A result planned dimension by dimension, not row by row: a fixed
shape, of which every row reads the same extent. -/
def ResultShapeData.IsPlain (rs : ResultShapeData) : Prop :=
  rs.isFixed = true ∧ rs.cellExtents = none

-- =============================================================== the plan

/-- One element on its way: a disk and a memory index for each
dimension, rows last. -/
abbrev Transfer := List (Int × Nat)

namespace Transfer

/-- The disk indices. -/
def disk (t : Transfer) : List Int := t.map Prod.fst

/-- The memory indices. -/
def mem (t : Transfer) : List Nat := t.map Prod.snd

/-- The element exists on disk. -/
def live (t : Transfer) : Bool := t.all fun p => decide (0 ≤ p.1)

/-- The row of the result. -/
def row (t : Transfer) : Nat := t.mem.getLastD 0

/-- The index within the row of the result. -/
def index (t : Transfer) : List Nat := t.mem.dropLast

/-- Where the element belongs in memory. -/
def position (rs : ResultShapeData) (t : Transfer) : Nat :=
  rs.position t.row t.index

end Transfer

/-- The disk indices of a dimension, each with its position. -/
def indexed (ids : Index) : List (Int × Nat) :=
  ids.zip (List.range ids.length)

@[simp] theorem monotonicIds_length (n : Nat) : (monotonicIds n).length = n := by
  simp [monotonicIds]

@[simp] theorem indexed_map_fst (ids : Index) :
    (indexed ids).map Prod.fst = ids :=
  List.map_fst_zip (by simp)

@[simp] theorem indexed_map_snd (ids : Index) :
    (indexed ids).map Prod.snd = List.range ids.length :=
  List.map_snd_zip (by simp)

/-- Pairing with the positions is reading at each position. -/
theorem indexed_eq_map (ids : Index) :
    indexed ids = (List.range ids.length).map fun i => (ids.getD i 0, i) := by
  refine List.ext_getElem (by simp [indexed]) fun i h₁ h₂ => ?_
  have hi : i < ids.length := by simpa using h₂
  simp [indexed, List.getD_eq_getElem?_getD, List.getElem?_eq_getElem hi]

/-- One transfer for each element of a row of the result. -/
def rowPlan (sel : Selection) (rs : ResultShapeData) (row : Nat) :
    List Transfer :=
  ((secondaryIds sel rs row).map indexed
    ++ [[((rowIds sel rs).getD row 0, row)]]).sections

/-- One transfer for each element of the result. -/
def plan (sel : Selection) (rs : ResultShapeData) : List Transfer :=
  (List.range rs.nRows).flatMap (rowPlan sel rs)

-- ============================================================ the chunks

/-- The disk and memory indices of a span, side by side. -/
def SpanPair.pairs (s : SpanPair) : List (Int × Nat) := s.disk.zip s.mem

/-- The transfers of some spans, first dimension fastest. -/
def SpanPairs.transfers (spans : SpanPairs) : List Transfer :=
  (spans.map SpanPair.pairs).sections

/-- The transfers of a chunk. -/
def DataChunk.transfers (c : DataChunk) : List Transfer :=
  SpanPairs.transfers c.dimSpans

/-- Where a chunk puts the element of a memory index: its own offset,
and a stride for each step from its least memory index. -/
def DataChunk.bufferIndex (c : DataChunk) (mem : List Nat) : Int :=
  c.flatOffset
    + (dot (List.zipWith (· - ·) mem c.minMemIndex) c.bufferStrides : Nat)

end Arcae
