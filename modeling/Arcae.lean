import Arcae.Lib.FOrder
import Arcae.Lib.Odometer
import Arcae.Lib.Sections
import Arcae.Lib.Scatter
import Arcae.Lib.Loops
import Arcae.Lib.Lts
import Arcae.Lib.Nested
import Arcae.Lib.Traced
import Arcae.Lib.Words
import Arcae.Model.Basic
import Arcae.Model.Selection
import Arcae.Model.Column
import Arcae.Model.ResultShape
import Arcae.Model.ReadShape
import Arcae.Model.DataPartition
import Arcae.Model.ChunkIo
import Arcae.Model.Arrow
import Arcae.Model.ReadImpl
import Arcae.Model.ReadInto
import Arcae.Model.Write
import Arcae.Spec.Plan
import Arcae.Spec.Moves
import Arcae.Spec.Request
import Arcae.Spec.Arrow
import Arcae.Proofs.Spans
import Arcae.Proofs.RowSplit
import Arcae.Proofs.Pieces
import Arcae.Proofs.Offsets
import Arcae.Proofs.Blocks
import Arcae.Proofs.Partition
import Arcae.Proofs.Align
import Arcae.Proofs.Nearest
import Arcae.Proofs.Positions
import Arcae.Proofs.Tiling
import Arcae.Proofs.ChunkIo
import Arcae.Proofs.Moves
import Arcae.Lib.Cuts
import Arcae.Proofs.Grouping
import Arcae.Proofs.Instances
import Arcae.Proofs.Slips
import Arcae.Proofs.Bounds
import Arcae.Proofs.Write
import Arcae.Proofs.WriteBounds
import Arcae.Proofs.WriteFailure
import Arcae.Proofs.WriteRanks
import Arcae.Proofs.ReadBounds
import Arcae.Proofs.ReadShape
import Arcae.Model.RowScan
import Arcae.Proofs.RowScan
import Arcae.Proofs.FlatOffset
import Arcae.Proofs.Coverage
import Arcae.Proofs.Read
import Arcae.Proofs.Arrow
import Arcae.Proofs.ArrowShape
import Arcae.Proofs.Fit
import Arcae.Proofs.ReadInto
import Arcae.Model.BuildSelection
import Arcae.Proofs.Index
import Arcae.Proofs.ChunkShape
import Arcae.Model.RowUnits
import Arcae.Proofs.RowUnits
import Arcae.Proofs.Hypercube
import Arcae.Model.CacheSize
import Arcae.Proofs.CacheSize
import Arcae.Model.IsolatedTableProxy
import Arcae.Proofs.Reservations
import Arcae.Proofs.Closing
import Arcae.Proofs.CloseFlag
import Arcae.Proofs.Nest
import Arcae.Model.ShapeCalls
import Arcae.Proofs.InferShape
import Arcae.Proofs.ShapeCalls
import Arcae.Proofs.ListOffsets
import Arcae.Proofs.OffsetWidth
import Arcae.Proofs.GetOffsets
import Arcae.Proofs.Strategies
import Arcae.Proofs.MakeArray
import Arcae.Proofs.RoundTrip
import Arcae.Proofs.Flatten
import Arcae.Spec.Fill
import Arcae.Spec.Put
import Arcae.Proofs.Put
import Arcae.Proofs.Scatters
import Arcae.Proofs.RowPieces
import Arcae.Proofs.PieceBytes
import Arcae.Proofs.Fill
import Arcae.Proofs.Numbers
import Arcae.Proofs.ReadBack
import Arcae.Model.RowShapes
import Arcae.Proofs.RowShapes
import Arcae.Proofs.Plannable
import Arcae.Model.MergeSort
import Arcae.Proofs.MergeSort
import Arcae.Proofs.Deadlock
import Arcae.Lib.Overlay
import Arcae.Model.Config
import Arcae.Spec.Config
import Arcae.Proofs.Config
import Arcae.Model.RowCount
import Arcae.Proofs.RowCount
import Arcae.Proofs.RowOffsets
import Arcae.Proofs.ChunkLoops
import Arcae.Proofs.Negate
import Arcae.Proofs.WriteChecks
import Arcae.Model.Numpy
import Arcae.Proofs.GetColumn
import Arcae.Proofs.Acceptance
import Arcae.Proofs.PutGet
import Arcae.Proofs.Puts
import Arcae.Proofs.FixedNest
import Arcae.Proofs.NewCells
import Arcae.Proofs.Numpy
import Arcae.Proofs.Invocations
import Arcae.Proofs.Draining
import Arcae.Proofs.Serial
import Arcae.Proofs.Dispatch
import Arcae.Model.ReadTable
import Arcae.Proofs.ReadTable
import Arcae.Model.TableCalls
import Arcae.Proofs.OneCopy
import Arcae.Lib.SortedEntries
import Arcae.Model.OpenTable
import Arcae.Proofs.OpenTable
import Arcae.Model.FanOut
import Arcae.Proofs.GroupActions
import Arcae.Proofs.FanOutRuns
import Arcae.Proofs.FanOut
import Arcae.Lib.Shares
import Arcae.Proofs.GroupBalance
