/-
The partition of a request into chunks (data_partition.{h,cc}).

# Spans

A `SpanPair` pairs the disk indices of a run with the memory indices
they are read into or written from. `makeSortedIndices` sorts the
selected indices and remembers where each came from;
`makeSubSpans` cuts the sorted run where it stops being consecutive;
`splitRowSpans` cuts the rows further, so that a large read can be
spread out; `cartesianProduct` picks one span per dimension in every
way; and `makeDataChunks` gives each pick its place in memory.

# What the model leaves open

`std::sort` orders equal keys as it likes, so sorting is a parameter:
any `StdSort` will do. Everything else is computed as the source does,
the binary searches of `AlignBoundary` included, which an alignment
function that is not monotone sends wherever the halving leads.

The `id_cache` owns the storage the spans point into, and the flattened
per-chunk vectors of `SharedChunkData` are kept here chunk by chunk;
neither is otherwise visible.
-/
import Arcae.Model.Selection
import Arcae.Model.ResultShape
import Arcae.Model.Column
import Arcae.Lib.Sections
import Mathlib.Data.List.Sort

namespace Arcae

open FOrder

-- ============================================================= the sort

/-- `std::sort` by a key: some permutation that the key sorts. -/
structure StdSort where
  sort : (Nat → Int) → List Nat → List Nat
  perm : ∀ key l, (sort key l).Perm l
  sorted : ∀ key l, (sort key l).Pairwise (fun a b => key a ≤ key b)

/-- Insertion is one such sort. -/
def StdSort.insertion : StdSort where
  sort key l := l.insertionSort fun a b => key a ≤ key b
  perm key l := l.perm_insertionSort _
  sorted key l := by
    have : Std.Total fun a b : Nat => key a ≤ key b :=
      ⟨fun a b => Int.le_total (key a) (key b)⟩
    have : IsTrans Nat fun a b => key a ≤ key b :=
      ⟨fun a b c => Int.le_trans⟩
    exact List.pairwise_insertionSort (fun a b : Nat => key a ≤ key b) l

-- ================================================================= spans

/-- Disk indices and the memory indices they belong to. -/
structure SpanPair where
  disk : List Int
  mem : List Nat
  deriving Repr, DecidableEq

abbrev SpanPairs := List SpanPair

/-- The pair of sub-spans `[start, current)`. -/
def subSpan (disk : List Int) (mem : List Nat) (start current : Nat) :
    SpanPair :=
  ⟨(disk.drop start).take (current - start),
    (mem.drop start).take (current - start)⟩

/-- `SecondaryDimensionsContiguous`: every dimension but the last is one
span, in memory order from zero. -/
def secondaryDimensionsContiguous (spans : List SpanPairs) : Bool :=
  spans.dropLast.all fun dim =>
    match dim with
    | [span] => span.mem == List.range span.mem.length
    | _ => false

/-- `IsMemoryContiguous`: each memory index follows the one before. -/
def isMemoryContiguous (span : SpanPair) : Bool :=
  (span.mem.zip span.mem.tail).all fun w => w.1 + 1 == w.2

/-- `MakeSortedIndices`: the selected indices in order, and where each
stood. -/
def makeSortedIndices (srt : StdSort) (ids : Index) : SpanPair :=
  let mem := List.range ids.length
  if ids.Pairwise (· ≤ ·) then ⟨ids, mem⟩
  else
    let mem := srt.sort (fun i => ids.getD i 0) mem
    ⟨mem.map fun i => ids.getD i 0, mem⟩

/-- The state of the sub-span loop: where the open span starts, and the
spans cut so far. -/
structure SubSpanState where
  start : Nat
  result : SpanPairs
  deriving Repr, DecidableEq

/-- Close the open span before `current`. -/
def makeSubSpan (disk : List Int) (mem : List Nat) (st : SubSpanState)
    (current : Nat) : SubSpanState :=
  ⟨current, st.result ++ [subSpan disk mem st.start current]⟩

/-- The body of the sub-span loop at position `i`. -/
def makeSubSpansStep (disk : List Int) (mem : List Nat) (entireRange : Bool)
    (st : SubSpanState) (i : Nat) : Result SubSpanState :=
  let at_ := fun j => disk.getD j 0
  if at_ i < 0 then
    -- negative indices, advance
    .ok st
  else if at_ st.start < 0 then
    -- the open span was negative, but this index is not
    .ok (makeSubSpan disk mem st i)
  else if at_ i = at_ (i - 1) then
    .error (.indexError ("Duplicate selection index " ++ toString (at_ i)))
  else if at_ i - at_ (i - 1) = 1 then
    -- monotonic range, advance
    .ok st
  else if !entireRange then
    -- discontinuity in positive indices
    .ok (makeSubSpan disk mem st i)
  else .ok st

/-- `MakeSubSpans`: cut a sorted span into runs. -/
def makeSubSpans (span : SpanPair) (entireRange : Bool) : Result SpanPairs := do
  let st ← (List.range' 1 (span.disk.length - 1)).foldlM
    (makeSubSpansStep span.disk span.mem entireRange) ⟨0, []⟩
  pure (makeSubSpan span.disk span.mem st span.disk.length).result

-- ===================================================== splitting the rows

/-- `RowUnitStart`: the first row of the storage unit holding a row. -/
abbrev RowUnitStart := Nat → Nat

/-- The halving search of `std::lower_bound` and `std::upper_bound`: the
end of the leading part of `[first, first + len)` where `pred` holds.
The range halves, so `len` steps are enough fuel. -/
def partitionPoint (pred : Nat → Bool) : Nat → Nat → Nat → Nat
  | 0, first, _ => first
  | fuel + 1, first, len =>
      if len = 0 then first
      else
        let half := len / 2
        if pred (first + half) then
          partitionPoint pred fuel (first + half + 1) (len - half - 1)
        else partitionPoint pred fuel first half

/-- The spans of rows read from disk, and the position of the first row
of each. -/
def readSpans (spans : SpanPairs) : List (Nat × List Int) :=
  let read := (spans.map SpanPair.disk).filter fun disk =>
    match disk with
    | [] => false
    | i :: _ => !decide (i < 0)
  (((read.map List.length).scanl (· + ·) 0).zip read)

/-- The disk row at a position among the rows read from disk. -/
def rowAt (read : List (Nat × List Int)) (p : Nat) : Int :=
  let starts := read.map Prod.fst
  let s := partitionPoint (fun q => decide (starts.getD q 0 ≤ p))
    starts.length 0 starts.length - 1
  match read[s]? with
  | some (start, disk) => disk.getD (p - start) 0
  | none => 0

/-- `AlignBoundary`: move the boundary before position `p` to the nearer
of the starts of the storage unit holding the row at `p`, and of the
unit that follows it. -/
def alignBoundary (p nrows : Nat) (rowAt : Nat → Int)
    (unitStart : RowUnitStart) : Nat :=
  let row := (rowAt p).toNat
  let unit := unitStart row
  if unit = row then p
  else
    -- the first position whose row is in or after the unit
    let down := partitionPoint (fun q => decide ((rowAt q).toNat < unit)) p 0 p
    -- the first position whose row is in a later unit
    let len := nrows - (p + 1)
    let next := partitionPoint
      (fun q => !decide (unit < unitStart (rowAt q).toNat)) len (p + 1) len
    if p - down ≤ next - p then down else next

/-- The end of piece `split`: the even boundary, aligned if there are
storage units. -/
def pieceEnd (nrows nsplits : Nat) (rowAt : Nat → Int)
    (unitStart : Option RowUnitStart) (split : Nat) : Nat :=
  let even := split * nrows / nsplits
  match unitStart with
  | some unit => alignBoundary even nrows rowAt unit
  | none => even

/-- Keep an end that lies beyond the last one and inside the rows. -/
def addEnd (nrows : Nat) (ends : List Nat) (e : Nat) : List Nat :=
  if ends.getLastD 0 < e ∧ e < nrows then ends ++ [e] else ends

/-- The positions after the last row of each piece. -/
def pieceEnds (nrows nsplits : Nat) (rowAt : Nat → Int)
    (unitStart : Option RowUnitStart) : List Nat :=
  let ends := (List.range' 1 (nsplits - 1)).map
    (pieceEnd nrows nsplits rowAt unitStart)
  ends.foldl (addEnd nrows) [] ++ [nrows]

/-- The state of the splitting loop: rows read from disk so far, the
current piece, and the spans cut so far. -/
structure SplitState where
  position : Nat
  piece : Nat
  result : SpanPairs
  deriving Repr, DecidableEq

/-- Cut one span of rows at the ends of the pieces, from `start` on. A
turn that takes no row would be repeated forever; with one turn per row
the fuel only runs out on one. -/
def splitSpan (ends : List Nat) (span : SpanPair) :
    Nat → Nat → SplitState → Result SplitState
  | 0, start, st => if start < span.disk.length then .error .diverges else .ok st
  | fuel + 1, start, st =>
      if start < span.disk.length then
        match ends[st.piece]? with
        | none => .error .outOfBounds
        | some pieceEnd =>
            let n := min (span.disk.length - start) (pieceEnd - st.position)
            let position := st.position + n
            splitSpan ends span fuel (start + n)
              { position := position
                piece := if position = pieceEnd then st.piece + 1 else st.piece
                result := st.result
                  ++ [subSpan span.disk span.mem start (start + n)] }
      else .ok st

/-- The body of the splitting loop: spans of missing rows are kept
whole. -/
def splitRowSpansStep (ends : List Nat) (st : SplitState) (span : SpanPair) :
    Result SplitState :=
  match span.disk with
  | [] => .ok { st with result := st.result ++ [span] }
  | i :: _ =>
      if i < 0 then .ok { st with result := st.result ++ [span] }
      else splitSpan ends span span.disk.length 0 st

/-- `SplitRowSpans`: cut the rows read from disk into at most `nsplits`
pieces. -/
def splitRowSpans (spans : SpanPairs) (nrows nsplits : Nat)
    (unitStart : Option RowUnitStart) : Result SpanPairs := do
  let read := readSpans spans
  let ends := pieceEnds nrows nsplits (rowAt read) unitStart
  let st ← spans.foldlM (splitRowSpansStep ends) ⟨0, 0, []⟩
  pure st.result

/-- `RowSplitOptions`. -/
structure RowSplitOptions where
  maxSplits : Nat
  minBytes : Nat
  unitStart : Option RowUnitStart

/-- The default options: rows are not split. -/
def RowSplitOptions.default : RowSplitOptions := ⟨1, 0, none⟩

-- ================================================================ chunks

/-- `CartesianProduct`: one span per dimension in every way, and whether
each pick is contiguous in memory. -/
def cartesianProduct (dimSpans : List SpanPairs) : List SpanPairs × List Bool :=
  let product := Sections.product dimSpans
  if secondaryDimensionsContiguous dimSpans then
    let stride := (dimSpans.dropLast.map List.length).prod
    (product, (dimSpans.getLastD []).flatMap fun rows =>
      List.replicate stride (isMemoryContiguous rows))
  else (product, List.replicate (dimSpans.map List.length).prod false)

/-- A chunk: its spans, and its place in the result
(`SharedChunkData`, one chunk's part of it). -/
structure DataChunk where
  dimSpans : SpanPairs
  minMemIndex : List Nat
  flatOffset : Int
  bufferStrides : List Nat
  chunkStrides : List Nat
  contiguous : Bool
  deriving Repr, DecidableEq

/-- The least memory index of a span. -/
def minMem (span : SpanPair) : Nat :=
  match span.mem with
  | [] => 0
  | i :: is => is.foldl min i

/-- The shape whose strides place a chunk in the result: the result
shape if it is fixed, else the shape of the chunk's single row. -/
def strideShape (rs : ResultShapeData) (dimSpan : SpanPairs) :
    Result IPosition :=
  match rs.shape with
  | some shape => .ok shape
  | none =>
      match dimSpan.getLast? with
      | some ⟨_, [row]⟩ => rs.getRowShape row
      | _ => .error (.invalid "Expected a single row dimension")

/-- One turn of the loop of `MakeDataChunks`. -/
def makeDataChunk (rs : ResultShapeData) (rowOffsets : Option (List Nat))
    (dimSpan : SpanPairs) (contiguous : Bool) : Result DataChunk := do
  let shape ← strideShape rs dimSpan
  let ndim := dimSpan.length
  let minMemIndex := dimSpan.map minMem
  let flatOffset ← rs.flatOffset minMemIndex rowOffsets
  pure
    { dimSpans := dimSpan
      minMemIndex := minMemIndex
      flatOffset := flatOffset
      bufferStrides := strides (shape.take (ndim - 1) ++ [1])
      chunkStrides := strides (dimSpan.map fun span => span.mem.length)
      contiguous := contiguous }

/-- `MakeDataChunks`. -/
def makeDataChunks (dimSpans : List SpanPairs) (contiguous : List Bool)
    (rs : ResultShapeData) : Result (List DataChunk) :=
  let rowOffsets := if rs.isFixed then none else some rs.rowOffsets
  (dimSpans.zip contiguous).mapM fun c =>
    makeDataChunk rs rowOffsets c.1 c.2

namespace DataChunk

variable (chunk : DataChunk)

/-- `nDim`. -/
def nDim : Nat := chunk.dimSpans.length

/-- `Disk`: the disk indices of a dimension. -/
def disk (dim : Nat) : List Int := (chunk.dimSpans.getD dim ⟨[], []⟩).disk

/-- `GetShape`: FORTRAN-ordered shape of the chunk. -/
def getShape : IPosition := chunk.dimSpans.map fun span => span.disk.length

/-- `nElements`. -/
def nElements : Nat := chunk.getShape.prod

/-- `IsEmpty`: the chunk refers to missing data, or to none. -/
def isEmpty : Bool :=
  chunk.dimSpans.any (fun span => span.disk.any fun i => decide (i < 0))
    || chunk.nElements == 0

/-- `ReferenceRows`: the disk rows, as a single slice if they span their
own length. -/
def referenceRows : List Int :=
  let s := (chunk.dimSpans.getLastD ⟨[], []⟩).disk
  let front := s.headD 0
  let back := s.getLastD 0
  if 0 < s.length ∧ 0 ≤ front ∧ (s.length : Int) = back - front + 1 then
    TableColumn.slicerRange (front, back)
  else s

/-- The memory indices at a position of the chunk. -/
def memAt (pos : List Nat) : List Nat :=
  List.zipWith (fun span i => span.mem.getD i 0) chunk.dimSpans pos

/-- `SectionSlicer`: the first and last disk index of each secondary
dimension. -/
def sectionSlicer : List (Int × Int) :=
  chunk.dimSpans.dropLast.map fun span =>
    (span.disk.headD 0, span.disk.getLastD 0)

end DataChunk

-- ======================================================= the partition

/-- `DataPartition`. -/
structure DataPartition where
  dataChunks : List DataChunk
  casaDtype : DataType
  deriving Repr, DecidableEq

/-- `DataPartition::nElements`. -/
def DataPartition.nElements (p : DataPartition) : Nat :=
  (p.dataChunks.map DataChunk.nElements).sum

namespace DataPartition

/-- Disk and memory spans of a dimension: the selected indices, or
`maxDim` ascending ids as far as the dimension goes. -/
def getSpanPair (srt : StdSort) (sel : Selection) (ndim maxDim dim dimSize : Nat) :
    SpanPair :=
  match sel.maybeFSpan dim ndim with
  | some ids => makeSortedIndices srt ids
  | none =>
      let ids := (List.range maxDim).take dimSize
      ⟨ids.map Int.ofNat, ids⟩

/-- Spans of an unselected dimension of which only the leading `extent`
elements are read. -/
def getPaddedSpanPair (srt : StdSort) (dimSize extent : Nat) : SpanPair :=
  makeSortedIndices srt
    ((List.range extent).map Int.ofNat ++ List.replicate (dimSize - extent) (-1))

/-- Rows of the spans that are read from disk. -/
def readRows (spans : SpanPairs) : Nat :=
  (spans.map fun span =>
    match span.disk with
    | [] => 0
    | i :: _ => if i < 0 then 0 else span.disk.length).sum

/-- Number of pieces the rows are split into: as many as the options
allow, and at most one a row. -/
def splitCount (rowSplit : RowSplitOptions) (nrows rowBytes : Nat) : Nat :=
  let nsplits :=
    if 0 < rowSplit.minBytes then
      min rowSplit.maxSplits (nrows * rowBytes / rowSplit.minBytes)
    else rowSplit.maxSplits
  min nsplits nrows

/-- Split the row spans of a fixed result, as far as the options
allow. -/
def splitRows (rs : ResultShapeData) (rowSplit : RowSplitOptions)
    (dimSubspans : List SpanPairs) : Result (List SpanPairs) :=
  if 1 < rowSplit.maxSplits then do
    let dtypeSize ← casaDataTypeSize rs.dtype
    let rowSpans := dimSubspans.getLastD []
    let rowBytes := dtypeSize * (dimSubspans.dropLast.map fun spans =>
      (spans.map fun span => span.disk.length).sum).prod
    let nrows := readRows rowSpans
    let nsplits := splitCount rowSplit nrows rowBytes
    if 1 < nsplits then do
      let split ← splitRowSpans rowSpans nrows nsplits rowSplit.unitStart
      pure (dimSubspans.dropLast ++ [split])
    else pure dimSubspans
  else .ok dimSubspans

/-- The spans of every dimension of a fixed result. -/
def fixedSubspans (srt : StdSort) (sel : Selection) (ndim maxDim : Nat)
    (shape : IPosition) : Result (List SpanPairs) :=
  (List.range ndim).mapM fun d =>
    match shape[d]? with
    | none => .error .outOfBounds
    | some dimSize =>
        makeSubSpans (getSpanPair srt sel ndim maxDim d dimSize)
          (d == ndim - 1)

/-- `Make` for a fixed result without cell extents. -/
def makeFixed (srt : StdSort) (sel : Selection) (rs : ResultShapeData)
    (rowSplit : RowSplitOptions) (ndim maxDim : Nat) (shape : IPosition) :
    Result DataPartition := do
  let dimSubspans ← fixedSubspans srt sel ndim maxDim shape
  let dimSubspans ← splitRows rs rowSplit dimSubspans
  let (dimSpans, contiguous) := cartesianProduct dimSubspans
  let chunks ← makeDataChunks dimSpans contiguous rs
  pure ⟨chunks, rs.dtype⟩

/-- The shape of a result row, without the row dimension. -/
def rowShape (rs : ResultShapeData) (ndim row : Nat) : Result IPosition :=
  match rs.shape with
  | some shape => .ok (shape.take (ndim - 1))
  | none => rs.getRowShape row

/-- Spans of a secondary dimension of a result row: padded where the row
reads less than the result holds. -/
def rowSpanPair (srt : StdSort) (sel : Selection) (rs : ResultShapeData)
    (ndim maxDim row dim dimSize : Nat) : Result SpanPair :=
  if rs.hasCellExtents then do
    let extents ← rs.getCellExtent row
    match extents[dim]? with
    | none => .error .outOfBounds
    | some extent =>
        if extent < dimSize then
          pure (getPaddedSpanPair srt dimSize extent)
        else pure (getSpanPair srt sel ndim maxDim dim dimSize)
  else pure (getSpanPair srt sel ndim maxDim dim dimSize)

/-- The spans of a result row: its secondary dimensions, and the row
itself. -/
def rowSubspans (srt : StdSort) (sel : Selection) (rs : ResultShapeData)
    (ndim maxDim : Nat) (rowSpan : SpanPair) (r : Nat) :
    Result (List SpanPairs) :=
  -- The result shape aligns with the row memory indices
  match rowSpan.mem[r]? with
  | none => .error .outOfBounds
  | some row => do
      let shape ← rowShape rs ndim row
      let secondary ← (List.range (ndim - 1)).mapM fun dim =>
        match shape[dim]? with
        | none => .error .outOfBounds
        | some dimSize => do
            let span ← rowSpanPair srt sel rs ndim maxDim row dim dimSize
            makeSubSpans span false
      pure (secondary ++ [[subSpan rowSpan.disk rowSpan.mem r (r + 1)]])

/-- `Make` for a result whose rows vary in shape or extent. -/
def makeVarying (srt : StdSort) (sel : Selection) (rs : ResultShapeData)
    (ndim maxDim : Nat) : Result DataPartition := do
  let nrows := rs.nRows
  let rowSpan := getSpanPair srt sel ndim maxDim (ndim - 1) nrows
  let rows ← (List.range nrows).mapM (rowSubspans srt sel rs ndim maxDim rowSpan)
  let dimSpans := rows.flatMap fun row => (cartesianProduct row).1
  let contiguous := rows.flatMap fun row => (cartesianProduct row).2
  if dimSpans.length = 0 then
    .error (.invalid "Data partition produced no chunks!")
  else do
    let chunks ← makeDataChunks dimSpans contiguous rs
    pure ⟨chunks, rs.dtype⟩

/-- `DataPartition::Make`. -/
def make (srt : StdSort) (sel : Selection) (rs : ResultShapeData)
    (rowSplit : RowSplitOptions) : Result DataPartition := do
  let maxDim ← rs.maxDimensionSize
  let ndim ← rs.consistentNDim
  match rs.shape, rs.cellExtents with
  | some shape, none => makeFixed srt sel rs rowSplit ndim maxDim shape
  | _, _ => makeVarying srt sel rs ndim maxDim

end DataPartition

end Arcae
