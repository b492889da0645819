/-
What the methods of `NewTableProxy` ask of a table (new_table_proxy.cc),
and what becomes of the tables of the instances that are asked.

Each method submits a functor with `RunAsync`, which calls it on the table
of some instance. A functor looks at the table or changes it, and a method
whose functor changes it asks `SafeMultithreadedWrites` first: with several
instances it goes no further. `ReadImpl` submits several functors, one for
the plan and one for each group of chunks, none of which changes the table.

# Tables

Every instance has opened a table of its own on the same files, so
`Instances` has a table for each. `Copy` is what they stand for: a table
that is asked everything itself. Requests are numbered by the futures of
their functors.

The tables are those of the proxy that `Make` made. The functors of `Spawn`
run what they are given on the tables of its parent, an update as well as a
query and without asking `SafeMultithreadedWrites`, and what they make may
be the parent's own table; so this is of runs in which no proxy is spawned.

casacore is a parameter, as in `Model.RowCount`: its records go in and out
as JSON, which it reads and writes itself.
-/
import Arcae.Model.IsolatedTableProxy
import Arcae.Model.RowCount

namespace Arcae

variable {σ : Type}

-- ============================================================ functors

/-- What a method returns. -/
inductive Answer
  | text (value : String)
  | names (value : List String)
  | count (value : Nat)
  | flag (value : Bool)
  deriving Repr, DecidableEq

/-- A functor of `RunAsync`; what it throws is a status by the time it is
an answer. -/
inductive Functor (σ : Type)
  /-- It only looks at the table. -/
  | reads (run : σ → Result Answer)
  /-- It may change the table, also when it fails. -/
  | writes (run : σ → Result Answer × σ)

/-- The functor is called on a table. -/
def Functor.call : Functor σ → σ → Result Answer × σ
  | reads run, tp => (run tp, tp)
  | writes run, tp => run tp

/-- A functor that changes a table that has been made writable. -/
def Functor.onWritable (casa : Casacore σ)
    (run : σ → Result Unit × σ) : Functor σ :=
  .writes fun tp =>
    match (NewTableProxy.maybeReopenRW casa tp).1 with
    | .error status =>
        (.error status, (NewTableProxy.maybeReopenRW casa tp).2)
    | .ok () =>
        let done := run (NewTableProxy.maybeReopenRW casa tp).2
        (done.1.map fun _ => .flag true, done.2)

-- ============================================================= methods

/-- The other operations of `casacore::TableProxy` that are called here. -/
structure TableOps (σ : Type) extends Casacore σ where
  tableName : σ → String
  columnNames : σ → List String
  getTableDescription : σ → Result String
  getColumnDescription : σ → String → Result String
  getDataManagerInfo : σ → Result String
  lockOptions : σ → Result String
  getKeywordSet : σ → String → Result String
  putKeywordSet : σ → String → String → Result Unit × σ
  removeKeyword : σ → String → String → Result Unit × σ
  addColumns : σ → String → String → Result Unit × σ

/-- A call of a method, or one of the functors of a call of `GetColumn`.
What reads or writes the elements of columns is given by what it does. -/
inductive Request (σ : Type)
  | getTableDescriptor
  | getColumnDescriptor (column : String)
  | getDataManagerInfo
  | getLockOptions
  | toArrow (run : σ → Result Answer)
  | getColumn (run : σ → Result Answer)
  | getRowShapes (run : σ → Result Answer)
  | putColumn (run : σ → Result Answer × σ)
  | name
  | columns
  | nColumns
  | nRows
  | isWritable
  | getKeywords (column : String)
  | putKeywords (jsonKeywords column : String)
  | removeKeyword (keyword column : String)
  | addRows (nrows : Nat)
  | addColumns (jsonColumndescs jsonDminfo : String)

/-- What a method asks before it submits its functor. -/
def Request.accept (nInstances : Nat) : Request σ → Result Unit
  | .putColumn _ => safeMultithreadedWrites
  | .putKeywords _ _ => safeMultithreadedWrites
  | .removeKeyword _ _ => safeMultithreadedWrites
  | .addRows _ => safeMultithreadedWrites
  | .addColumns _ _ => safeMultithreadedWrites
  | .getTableDescriptor => .ok ()
  | .getColumnDescriptor _ => .ok ()
  | .getDataManagerInfo => .ok ()
  | .getLockOptions => .ok ()
  | .toArrow _ => .ok ()
  | .getColumn _ => .ok ()
  | .getRowShapes _ => .ok ()
  | .name => .ok ()
  | .columns => .ok ()
  | .nColumns => .ok ()
  | .nRows => .ok ()
  | .isWritable => .ok ()
  | .getKeywords _ => .ok ()
where
  safeMultithreadedWrites : Result Unit :=
    (⟨(), nInstances, false⟩ : NewTableProxy Unit).safeMultithreadedWrites

namespace TableOps

variable (casa : TableOps σ)

/-- `ColumnExists`. -/
def columnExists (tp : σ) (column : String) : Result Unit :=
  if column ∈ casa.columnNames tp then .ok ()
  else .error (.invalid ("Column " ++ column ++ " does not exist"))

/-- Keywords are those of a column, or of the table if none is named. -/
def keywordsExist (tp : σ) (column : String) : Result Unit :=
  if column = "" then .ok () else casa.columnExists tp column

/-- A change of keywords, of a column that exists. -/
def changeKeywords (column : String) (run : σ → Result Unit × σ) :
    Functor σ :=
  .writes fun tp =>
    match casa.keywordsExist tp column with
    | .error status => (.error status, tp)
    | .ok () => (Functor.onWritable casa.toCasacore run).call tp

/-- The functor that a method submits. -/
def functor : Request σ → Functor σ
  | .getTableDescriptor =>
      .reads fun tp => (casa.getTableDescription tp).map .text
  | .getColumnDescriptor column =>
      .reads fun tp => do
        casa.columnExists tp column
        (casa.getColumnDescription tp column).map .text
  | .getDataManagerInfo =>
      .reads fun tp => (casa.getDataManagerInfo tp).map .text
  | .getLockOptions => .reads fun tp => (casa.lockOptions tp).map .text
  | .toArrow run => .reads run
  | .getColumn run => .reads run
  | .getRowShapes run => .reads run
  | .putColumn run => .writes run
  | .name => .reads fun tp => .ok (.text (casa.tableName tp))
  | .columns => .reads fun tp => .ok (.names (casa.columnNames tp))
  | .nColumns => .reads fun tp => .ok (.count (casa.columnNames tp).length)
  | .nRows => .reads fun tp => .ok (.count (casa.nrow tp))
  | .isWritable => .reads fun tp => .ok (.flag (casa.isWritable tp))
  | .getKeywords column =>
      .reads fun tp => do
        casa.keywordsExist tp column
        (casa.getKeywordSet tp column).map .text
  | .putKeywords jsonKeywords column =>
      casa.changeKeywords column fun tp =>
        casa.putKeywordSet tp column jsonKeywords
  | .removeKeyword keyword column =>
      casa.changeKeywords column fun tp => casa.removeKeyword tp column keyword
  | .addRows nrows =>
      .onWritable casa.toCasacore fun tp => casa.addRow tp nrows
  | .addColumns jsonColumndescs jsonDminfo =>
      .onWritable casa.toCasacore fun tp =>
        casa.addColumns tp jsonColumndescs jsonDminfo

end TableOps

-- ============================================================== tables

/-- The tables of the instances of a proxy, and what the functors that were
called have returned, with their futures. -/
structure Instances (σ : Type) where
  table : Nat → σ
  answers : List (Nat × Result Answer)

/-- One table in their place, and what it was asked. -/
structure Copy (σ : Type) where
  table : σ
  answers : List (Nat × Result Answer)

/-- What one thread does, with its instance and its task. -/
def Event.call : Event → Option (Nat × Task)
  | .invoke i task => some (i, task)
  | _ => none

/-- The calls of functors, in the order of the calls. -/
def callsOf (events : List Event) : List (Nat × Task) :=
  events.filterMap Event.call

section Serve

variable (casa : TableOps σ) (requests : Nat → Request σ)

/-- The table is asked by the functor of a future. -/
def Copy.serve (copy : Copy σ) (future : Nat) : Copy σ :=
  let done := (casa.functor (requests future)).call copy.table
  { table := done.2, answers := copy.answers ++ [(future, done.1)] }

/-- The table after a series of functors. -/
def Copy.after (tp : σ) (futures : List Nat) : Copy σ :=
  futures.foldl (Copy.serve casa requests) ⟨tp, []⟩

/-- A thread calls the functor of a task on the table of its instance. -/
def Instances.serve (x : Instances σ) (call : Nat × Task) : Instances σ :=
  let done := (casa.functor (requests call.2.future)).call (x.table call.1)
  { table := Function.update x.table call.1 done.2
    answers := x.answers ++ [(call.2.future, done.1)] }

/-- The tables after a run, opened on the same files by `Make`. -/
def Instances.after (tp : σ) (events : List Event) : Instances σ :=
  (callsOf events).foldl (Instances.serve casa requests) ⟨fun _ => tp, []⟩

end Serve

end Arcae
