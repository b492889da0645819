/-
`ReadTableImpl` (read_impl.cc), which `Table.to_arrow` calls: some or all
columns of a table, at the same rows.

Each column is read by `ReadImpl` with the one selection, and a column
that cannot be read is left out of the table without a word. The reads
of different columns share nothing, so that their order and the instances
they run on are those of each read alone. The descriptors of the table
and its columns, which go into the metadata of the schema, are casacore's
and left out.
-/
import Arcae.Model.ReadImpl

namespace Arcae

variable {β : Type}

/-- A column of a table: what its cells hold, and the memory that a read
of it is given. -/
structure CasaColumn (β : Type) where
  α : Type
  column : TableColumn α
  layout : ElementLayout column.columnDesc.dataType α β
  emptyString : α
  allocated : Memory α

/-- `Table` of casacore, as far as it is read: its columns by their
names, all with the rows of the table. -/
structure CasaTable (β : Type) where
  nrow : Nat
  columns : List (CasaColumn β)
  names_nodup :
    (columns.map fun c => c.column.columnDesc.name).Nodup
  same_rows : ∀ c ∈ columns, c.column.nrow = nrow

/-- `arrow::Table`: its fields' names and arrays. -/
abbrev ArrowTable (β : Type) := List (String × ArrayData β)

namespace CasaTable

variable (t : CasaTable β)

/-- `columnNames`. -/
def columnNames : List String :=
  t.columns.map fun c => c.column.columnDesc.name

/-- The column of this name. -/
def column (name : String) : Option (CasaColumn β) :=
  t.columns.find? fun c => c.column.columnDesc.name == name

/-- `ColumnExists`. -/
def columnExists (name : String) : Result Unit :=
  if (t.column name).isSome then .ok ()
  else .error (.invalid ("Column " ++ name ++ " does not exist"))

/-- The columns to read: all of them, if none is named. -/
def requested (columns : List String) : List String :=
  if columns.length = 0 then t.columnNames else columns

/-- How the columns of a table are read: by the sorting of rows, the
number of instances, each column's storage units, the configured
strategy, and an order of its chunks. -/
structure Reading where
  srt : StdSort
  nInstances : Nat
  unitStart : String → Option RowUnitStart
  configured : Option String
  schedule : String → List DataChunk → List DataChunk

/-- `ReadImpl` of a column. -/
def readColumn [LeafValue β] (how : Reading) (sel : Selection) (name : String) :
    Result (ArrayData β) :=
  match t.column name with
  | none => .error (.invalid ("Column " ++ name ++ " does not exist"))
  | some c =>
      readImpl how.srt how.nInstances (how.unitStart name) how.configured
        (how.schedule name) c.column c.layout c.emptyString sel c.allocated

/-- The field of a column, if it could be read. -/
def readField [LeafValue β] (how : Reading) (sel : Selection) (name : String) :
    Option (String × ArrayData β) :=
  match t.readColumn how sel name with
  | .ok array => some (name, array)
  | .error _ => none

/-- `ReadTableImpl`. -/
def readTableImpl [LeafValue β] (how : Reading) (columns : List String) (sel : Selection) :
    Result (ArrowTable β) :=
  if 1 < sel.size then
    .error (.indexError ("Selection along secondary indices is "
      ++ "unsupported when converting to Arrow tables"))
  else do
    (t.requested columns).forM t.columnExists
    return (t.requested columns).filterMap (t.readField how sel)

end CasaTable

end Arcae
