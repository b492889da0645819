/-
The second half of `ReadImpl` (read_impl.cc): a read whose chunks are
spread over the instances, on the pools of `IsolatedTableProxy`.

Each group of `GroupChunks` is a functor of its own, submitted with
`RunAsync` at a cost of the bytes it reads, and all of them fill one
buffer. Nothing orders them: they are on different threads, and a thread
may be anywhere in its functor while another is anywhere in its own.
`All` waits until every one of their futures is finished, and if none
failed the array is made of what is then in the buffer.

# What a functor does

`ReadChunks` takes one chunk after the other. For each it stores the
values of the chunk one at a time (`chunkStores`), and then adds the bytes
to the statistics of the task running on its thread (`RecordIoBytes`). A
chunk that cannot be read ends the functor with an exception instead. An
`Action` is one of these; a functor is the list of those it has left, and
it can return only when there are none. It gets past no exception, and may
fail before.

# What is one step

A step is a step of the pools, or the next action of some functor that
runs. Functors of the read are known by their futures; what else is
submitted to the pools has nothing to do with this buffer. The column is
the same on every instance and throughout: with several instances nothing
that was accepted changes a table.
-/
import Arcae.Model.IsolatedTableProxy
import Arcae.Model.ReadImpl

namespace Arcae

variable {α : Type}

-- ============================================================== actions

/-- What a functor does for its read: a value into its place in the
buffer, or `RecordIoBytes`; or what it fails with. -/
inductive Action (α : Type)
  | store (address : Int) (value : α)
  | record (nbytes : Nat)
  | fail (status : Status)
  deriving Repr, DecidableEq

/-- The functor is still running after it. -/
def Action.goesOn : Action α → Bool
  | .fail _ => false
  | _ => true

/-- The body of `CopyChunkArray`: the element and its place. -/
def copyStore (chunk : DataChunk) (data : List α) (pos : List Nat)
    (stores : List (Int × α)) : Result (List (Int × α)) :=
  match data[chunk.chunkOffset pos]? with
  | some v => .ok (stores ++ [(chunk.bufferOffset pos, v)])
  | none => .error .outOfBounds

/-- The values that are stored for a chunk, each with its place, in the
order of the stores: `ReadContiguousChunk` or `CopyChunkArray`. -/
def chunkStores (col : TableColumn α) (chunk : DataChunk) :
    Result (List (Int × α)) := do
  let data ← readChunkArray col chunk
  if chunk.contiguous then
    pure (data.zipIdx.map fun v => (chunk.flatOffset + (v.2 : Int), v.1))
  else chunk.forPositions (copyStore chunk data) []

/-- One turn of the loop of `ReadChunks`. -/
def chunkActions (col : TableColumn α) (dtypeSize : Nat) (chunk : DataChunk) :
    Result (List (Action α)) :=
  if chunk.isEmpty then .ok []
  else do
    let stores ← chunkStores col chunk
    pure ((stores.map fun v => .store v.1 v.2)
      ++ [.record (chunk.nElements * dtypeSize)])

/-- `ReadChunks` on a group, up to the first chunk that cannot be read. -/
def groupActions (col : TableColumn α) (dtypeSize : Nat) :
    List DataChunk → List (Action α)
  | [] => []
  | chunk :: chunks =>
      match chunkActions col dtypeSize chunk with
      | .ok actions => actions ++ groupActions col dtypeSize chunks
      | .error e => [.fail e]

/-- The cost a group is submitted with: `nbytes`. -/
def groupCost (dtypeSize : Nat) (chunks : List DataChunk) : Nat :=
  (chunks.map fun chunk => chunk.nElements * dtypeSize).sum

-- =============================================================== a read

/-- A read that is spread over the instances: its shape, its buffer, and
for each of its groups a functor and what it costs. -/
structure Spread (α : Type) where
  shape : ResultShapeData
  buffer : Memory α
  costs : List Nat
  programs : List (List (Action α))

/-- `ReadImpl` without a result, up to the functors it submits. -/
def spreadRead (srt : StdSort) (nInstances : Nat)
    (unitStart : Option RowUnitStart) (col : TableColumn α) (emptyString : α)
    (sel : Selection) (allocated : Memory α) : Result (Spread α) := do
  let rs ← ResultShapeData.makeRead col sel false
  let p ← DataPartition.make srt sel rs (readSplit nInstances unitStart)
  let buffer ← allocateBuffer p.casaDtype emptyString allocated
  let groups := chunkGroups p.dataChunks (groupChunks p.dataChunks nInstances)
  let dtypeSize ← casaDataTypeSize p.casaDtype
  pure ⟨rs, buffer, groups.map (groupCost dtypeSize),
    groups.map (groupActions col dtypeSize)⟩

-- ================================================================ steps

/-- The pools, and what the functors of one read have made of its buffer
and have left to do. Functors are known by their futures. -/
structure FanOut (α : Type) where
  state : State
  buffer : Memory α
  ioBytes : Nat → Nat
  left : Nat → List (Action α)

namespace FanOut

/-- `Make` is called, and later a read whose functors will have these
futures. -/
def start (n : Nat) (buffer : Memory α) (futures : List Nat)
    (programs : List (List (Action α))) : FanOut α where
  state := State.init n
  buffer := buffer
  ioBytes := fun _ => 0
  left := fun f => ((futures.zip programs).lookup f).getD []

theorem start_left_nil {n f : Nat} {buffer : Memory α} {futures : List Nat}
    {programs : List (List (Action α))} (hf : f ∉ futures) :
    (start n buffer futures programs).left f = [] := by
  have hnone : (futures.zip programs).lookup f = none := by
    rw [List.lookup_eq_none_iff]
    intro pair hpair
    have hmem := (List.of_mem_zip hpair).1
    have hne : f ≠ pair.1 := fun heq => by
      rw [heq] at hf
      exact hf hmem
    simpa using hne
  show ((futures.zip programs).lookup f).getD [] = []
  rw [hnone]
  rfl

/-- `RecordIoBytes`, on a thread. -/
def recordIoBytes (x : FanOut α) (th : Thread) (nbytes : Nat) : FanOut α :=
  match (x.state.currentTask th).stats with
  | some inst =>
      { x with
        ioBytes := Function.update x.ioBytes inst (x.ioBytes inst + nbytes) }
  | none => x

/-- A functor does its next action, on the thread of pool `i`. -/
def act (x : FanOut α) (i : Nat) : Action α → FanOut α
  | .store address value =>
      { x with buffer := Function.update x.buffer address value }
  | .record nbytes => x.recordIoBytes (.isolation i) nbytes
  | .fail _ => x

@[simp] theorem act_state (x : FanOut α) (i : Nat) (action : Action α) :
    (x.act i action).state = x.state := by
  cases action with
  | store => rfl
  | record nbytes =>
      show (x.recordIoBytes (.isolation i) nbytes).state = x.state
      unfold recordIoBytes
      split <;> rfl
  | fail => rfl

@[simp] theorem act_left (x : FanOut α) (i : Nat) (action : Action α) :
    (x.act i action).left = x.left := by
  cases action with
  | store => rfl
  | record nbytes =>
      show (x.recordIoBytes (.isolation i) nbytes).left = x.left
      unfold recordIoBytes
      split <;> rfl
  | fail => rfl

/-- A functor has these actions left. -/
def goesOn (x : FanOut α) (future : Nat) (rest : List (Action α)) :
    FanOut α :=
  { x with left := Function.update x.left future rest }

/-- In such a state of the pools, no functor has returned with something
left to do, and it is functors that have something to do. -/
structure Permits (left : Nat → List (Action α)) (s : State) : Prop where
  returned : ∀ i r, (s.pools i).running = some r →
    r.phase = .leaving (.ok ()) → left r.task.future = []
  queued : ∀ i, ∀ task ∈ (s.pools i).queue, left task.future ≠ [] →
    ∃ p, task.body = .functor p

end FanOut

section Step

variable (n : Nat) (throws : Nat → Nat → Option String)

/-- The next operation of one of the threads. -/
inductive FanOutStep : FanOut α → Option Event → FanOut α → Prop
  | pools {x : FanOut α} {e : Event} {s : State} :
      Step n throws x.state e s → FanOut.Permits x.left s →
      FanOutStep x (some e) { x with state := s }
  | act {x : FanOut α} {i : Nat} {r : Running} {action : Action α}
      {rest : List (Action α)} :
      (x.state.pools i).running = some r → r.phase = .inside →
      x.left r.task.future = action :: rest → action.goesOn = true →
      FanOutStep x none ((x.act i action).goesOn r.task.future rest)

end Step

end Arcae
