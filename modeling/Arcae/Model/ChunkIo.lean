/-
Reading and writing chunks (the first halves of read_impl.cc and
write_impl.cc).

# Memory

A buffer is a map from element offsets to values. It is total: the
source computes an address and uses it, so an address outside the
buffer is other memory, not an error.

# Two ways through

A contiguous chunk is read straight into its place, and written
straight from it. Any other chunk passes through an array of its own:
a loop walks the chunk's positions in FORTRAN order, and at each one
takes an element from one side to the other. The loop is an odometer,
and one turn for each element is all the fuel it needs; on more it
would have gone on forever.

# What the model leaves out

Strings are moved, not copied, out of a chunk's array or out of the
converted data of a write; the moved-from side is never read again.
Counting the bytes of a transfer (`RecordIoBytes`) leaves no trace.
-/
import Arcae.Model.DataPartition
import Arcae.Lib.Odometer

namespace Arcae

open FOrder Scatter

variable {α : Type}

-- ================================================================ memory

/-- A buffer of elements, and the memory around it. -/
abbrev Memory (α : Type) := Int → α

/-- Store values one after the other, from an offset on. -/
def storeFrom (buffer : Memory α) (start : Int) (values : List α) : Memory α :=
  scatter buffer (values.zipIdx.map fun v => (start + (v.2 : Int), v.1))

/-- Load `n` values one after the other, from an offset on. -/
def loadFrom (buffer : Memory α) (start : Int) (n : Nat) : List α :=
  (List.range n).map fun i : Nat => buffer (start + (i : Int))

namespace DataChunk

variable (chunk : DataChunk)

/-- The offset in the result of a position of the chunk, as the copying
loops compute it. -/
def bufferOffset (pos : List Nat) : Int :=
  chunk.flatOffset
    + (dot (List.zipWith (· - ·) (chunk.memAt pos) chunk.minMemIndex)
        chunk.bufferStrides : Nat)

/-- The offset in the chunk's own array of a position of the chunk. -/
def chunkOffset (pos : List Nat) : Nat := dot pos chunk.chunkStrides

/-- The sizes the copying loops count through. -/
def loopSizes : List Nat := chunk.dimSpans.map fun span => span.mem.length

/-- The loop over the positions of the chunk, in FORTRAN order. -/
def forPositions {σ : Type} (body : List Nat → σ → Result σ) (s : σ) :
    Result σ :=
  let sizes := chunk.loopSizes
  match Odometer.run sizes (fun pos s => s >>= body pos) sizes.prod
      (Odometer.zeros sizes) (.ok s) with
  | some s => s
  | none => .error .diverges

/-- The same loop with the flag of the source, for at most `fuel` turns:
`done` is overwritten each time a position is reset. -/
def whileNotDone {σ : Type} (body : List Nat → σ → σ) (fuel : Nat) (s : σ) :
    Option σ :=
  let sizes := chunk.loopSizes
  Odometer.whileNotDone sizes body fuel (Odometer.zeros sizes) s

end DataChunk

-- =============================================================== reading

/-- `ReadChunkArray`: the chunk's cells, read row by row or as one
slice. -/
def readChunkArray (col : TableColumn α) (chunk : DataChunk) :
    Result (List α) :=
  if chunk.nDim = 1 then col.getColumnCells chunk.referenceRows []
  else
    match chunk.referenceRows with
    | [row] => col.getSlice row chunk.sectionSlicer
    | refRows => col.getColumnCells refRows chunk.sectionSlicer

/-- `ReadContiguousChunk`: the same cells, straight into their place. -/
def readContiguousChunk (col : TableColumn α) (chunk : DataChunk)
    (buffer : Memory α) : Result (Memory α) := do
  let values ← readChunkArray col chunk
  pure (storeFrom buffer chunk.flatOffset values)

/-- The body of `CopyChunkArray`: one element of the chunk into its
place. -/
def copyElement (chunk : DataChunk) (data : List α) (pos : List Nat)
    (buffer : Memory α) : Result (Memory α) :=
  match data[chunk.chunkOffset pos]? with
  | some v => .ok (Function.update buffer (chunk.bufferOffset pos) v)
  | none => .error .outOfBounds

/-- `CopyChunkArray`: the elements of the chunk into their places. -/
def copyChunkArray (chunk : DataChunk) (data : List α) (buffer : Memory α) :
    Result (Memory α) :=
  chunk.forPositions (copyElement chunk data) buffer

/-- One turn of the loop of `ReadChunks`. -/
def readChunk (col : TableColumn α) (buffer : Memory α) (chunk : DataChunk) :
    Result (Memory α) :=
  if chunk.isEmpty then .ok buffer
  else if chunk.contiguous then readContiguousChunk col chunk buffer
  else do
    let data ← readChunkArray col chunk
    copyChunkArray chunk data buffer

/-- `ReadChunks`: read chunks into the output buffer. -/
def readChunks (col : TableColumn α) (casaDtype : DataType)
    (chunks : List DataChunk) (buffer : Memory α) : Result (Memory α) :=
  dispatchCasaType casaDtype (chunks.foldlM (readChunk col) buffer)

-- =============================================================== writing

/-- `WriteChunkArray`: put the chunk's cells, row by row or as one
slice. -/
def writeChunkArray (col : TableColumn α) (chunk : DataChunk)
    (data : List α) : Result (TableColumn α) :=
  if chunk.nDim = 1 then col.putColumnCells chunk.referenceRows [] data
  else
    match chunk.referenceRows with
    | [row] => col.putSlice row chunk.sectionSlicer data
    | refRows => col.putColumnCells refRows chunk.sectionSlicer data

/-- `WriteContiguousChunk`: the same cells, straight from their
place. -/
def writeContiguousChunk (col : TableColumn α) (chunk : DataChunk)
    (buffer : Memory α) : Result (TableColumn α) :=
  writeChunkArray col chunk (loadFrom buffer chunk.flatOffset chunk.nElements)

/-- The body of `GatherChunkArray`: one element into the chunk's
array. -/
def gatherElement (chunk : DataChunk) (buffer : Memory α) (pos : List Nat)
    (array : List α) : Result (List α) :=
  let o := chunk.chunkOffset pos
  if o < array.length then .ok (array.set o (buffer (chunk.bufferOffset pos)))
  else .error .outOfBounds

/-- `GatherChunkArray`: the elements of the chunk out of their places.
The array starts out with whatever its memory held; every element of it
is written. -/
def gatherChunkArray (chunk : DataChunk) (buffer : Memory α) :
    Result (List α) :=
  chunk.forPositions (gatherElement chunk buffer)
    (List.replicate chunk.nElements (buffer 0))

/-- One turn of the loop of `WriteChunks`. -/
def writeChunk (buffer : Memory α) (col : TableColumn α) (chunk : DataChunk) :
    Result (TableColumn α) :=
  if chunk.isEmpty then .ok col
  else if chunk.contiguous then writeContiguousChunk col chunk buffer
  else do
    let data ← gatherChunkArray chunk buffer
    writeChunkArray col chunk data

/-- The loop of `WriteChunks`. An exception leaves what was written
before it. -/
def writeChunkLoop (buffer : Memory α) : List DataChunk → TableColumn α →
    Result Unit × TableColumn α
  | [], col => (.ok (), col)
  | chunk :: chunks, col =>
      match writeChunk buffer col chunk with
      | .ok col => writeChunkLoop buffer chunks col
      | .error e => (.error e, col)

/-- `WriteChunks`: write chunks from the input buffer. -/
def writeChunks (col : TableColumn α) (casaDtype : DataType)
    (chunks : List DataChunk) (buffer : Memory α) :
    Result Unit × TableColumn α :=
  match dispatchCasaType casaDtype (.ok ()) with
  | .ok () => writeChunkLoop buffer chunks col
  | .error e => (.error e, col)

-- ============================================================== grouping

/-- The state of the grouping loop: the ends of the groups closed so
far, and the elements seen. -/
structure GroupState where
  ends : List Nat
  cumulativeElements : Nat
  deriving Repr, DecidableEq

/-- The body of the loop of `GroupChunks`: close the group once it
reaches its share of the elements, leaving at least one chunk for each
remaining group. -/
def groupChunksStep (nelements ngroups nchunks : Nat) (st : GroupState)
    (chunk : DataChunk × Nat) : GroupState :=
  let c := chunk.2
  let cumulativeElements := st.cumulativeElements + chunk.1.nElements
  let target := nelements * (st.ends.length + 1) / ngroups
  let remainingGroups := ngroups - st.ends.length - 1
  if st.ends.length + 1 < ngroups
      ∧ (target ≤ cumulativeElements ∨ nchunks - c - 1 = remainingGroups) then
    ⟨st.ends ++ [c + 1], cumulativeElements⟩
  else ⟨st.ends, cumulativeElements⟩

/-- `GroupChunks`: the end of each of at most `ngroups` groups of
consecutive chunks with similar numbers of elements. -/
def groupChunks (chunks : List DataChunk) (ngroups : Nat) : List Nat :=
  let nelements := (chunks.map DataChunk.nElements).sum
  let ngroups := max 1 (min ngroups chunks.length)
  let st := chunks.zipIdx.foldl
    (groupChunksStep nelements ngroups chunks.length) ⟨[], 0⟩
  st.ends ++ [chunks.length]

/-- The body of the same loop as `std::size_t` computes it: the sum and
the product wrap at 2^64. -/
def groupChunksWordStep (nelements ngroups nchunks : Nat) (st : GroupState)
    (chunk : DataChunk × Nat) : GroupState :=
  let c := chunk.2
  let cumulativeElements :=
    (st.cumulativeElements + chunk.1.nElements) % 2 ^ 64
  let target := nelements * (st.ends.length + 1) % 2 ^ 64 / ngroups
  let remainingGroups := ngroups - st.ends.length - 1
  if st.ends.length + 1 < ngroups
      ∧ (target ≤ cumulativeElements ∨ nchunks - c - 1 = remainingGroups) then
    ⟨st.ends ++ [c + 1], cumulativeElements⟩
  else ⟨st.ends, cumulativeElements⟩

/-- `GroupChunks` in `std::size_t`, for element counts of any size. -/
def groupChunksWord (chunks : List DataChunk) (ngroups : Nat) : List Nat :=
  let nelements := (chunks.map DataChunk.nElements).sum % 2 ^ 64
  let ngroups := max 1 (min ngroups chunks.length)
  let st := chunks.zipIdx.foldl
    (groupChunksWordStep nelements ngroups chunks.length) ⟨[], 0⟩
  st.ends ++ [chunks.length]

/-- The groups between consecutive ends. -/
def chunkGroups (chunks : List DataChunk) (ends : List Nat) :
    List (List DataChunk) :=
  ((0 :: ends).zip ends).map fun g => (chunks.drop g.1).take (g.2 - g.1)

end Arcae
