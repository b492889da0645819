/-
What reading and writing a partition are for: moves.

A `Move` joins one offset of the buffer to one element of the column.
The moves of a chunk are its transfers that exist on disk, each at the
chunk's place for it and at its own address (`DataChunk.moves`).
Reading carries every move from the column to the buffer, writing
carries it back (`Moves.read`, `Moves.write`); neither says in what
order, by which path or through which arrays.
-/
import Arcae.Model.ChunkIo
import Arcae.Spec.Plan

namespace Arcae

open FOrder Scatter

variable {α : Type}

/-- The element of the column that a transfer is about. -/
def Transfer.address (t : Transfer) : CellIndex :=
  ((t.disk.getLastD 0).toNat, t.disk.dropLast.map Int.toNat)

/-- The column holds the element. -/
def TableColumn.Has (col : TableColumn α) (a : CellIndex) : Prop :=
  ∃ shape, col.cellShape a.1 = some shape ∧ InBox a.2 shape

/-- An offset of the buffer, and the element that belongs there. -/
abbrev Move := Int × CellIndex

/-- The moves of some transfers, placed by `offset`. -/
def Transfer.moves (offset : Transfer → Int) (ts : List Transfer) : List Move :=
  (ts.filter Transfer.live).map fun t => (offset t, t.address)

/-- The moves of a chunk. -/
def DataChunk.moves (c : DataChunk) : List Move :=
  Transfer.moves (fun t => c.bufferIndex t.mem) c.transfers

/-- The moves of some chunks, chunk by chunk. -/
def movesOf (chunks : List DataChunk) : List Move :=
  chunks.flatMap DataChunk.moves

/-- The moves of a plan: each element at its own position. -/
def planMoves (sel : Selection) (rs : ResultShapeData) : List Move :=
  Transfer.moves (fun t => (t.position rs : Int)) (plan sel rs)

namespace Moves

/-- What reading writes to the buffer. -/
def values (col : TableColumn α) (moves : List Move) : List (Int × α) :=
  moves.map fun m => (m.1, col.value m.2)

/-- Carry each move from the column to the buffer. -/
def read (col : TableColumn α) (moves : List Move) (buffer : Memory α) :
    Memory α :=
  scatter buffer (values col moves)

/-- Carry each move from the buffer to the column. -/
def write (buffer : Memory α) (moves : List Move) (col : TableColumn α) :
    TableColumn α :=
  col.putValues (moves.map fun m => (m.2, buffer m.1))

theorem read_append (col : TableColumn α) (ms ms' : List Move)
    (buffer : Memory α) :
    read col (ms ++ ms') buffer = read col ms' (read col ms buffer) := by
  rw [read, values, List.map_append, scatter_append]
  rfl

theorem write_append (buffer : Memory α) (ms ms' : List Move)
    (col : TableColumn α) :
    write buffer (ms ++ ms') col = write buffer ms' (write buffer ms col) := by
  simp only [write, TableColumn.putValues, List.map_append, scatter_append]

end Moves

end Arcae
