/-
Bounding the caches of storage managers (`ApplyCacheSizes`,
table_utils.{h,cc}).

A cap belongs to a storage manager, and casacore sets it through any of
the columns the storage manager serves. All sizes are in MiB, and zero
is a cache without bound, which is how casacore starts out.
-/
import Arcae.Model.Basic
import Mathlib.Data.List.Dedup
import Mathlib.Logic.Function.Basic

namespace Arcae

/-- `std::map` from names: its entries, in the order of the names. -/
structure StdMap (β : Type) where
  entries : List (String × β)
  sorted : (entries.map Prod.fst).Pairwise (· < ·)

/-- The value of a name, if there is an entry for it. -/
def StdMap.find {β : Type} (m : StdMap β) (name : String) : Option β :=
  (m.entries.find? fun e => e.1 == name).map Prod.snd

/-- No entries. -/
def StdMap.empty {β : Type} : StdMap β := ⟨[], .nil⟩

/-- `kDefaultCacheSizeMiB`. -/
def kDefaultCacheSizeMiB : Int := 128

/-- `CacheSizeSpec`. -/
structure CacheSizeSpec where
  /-- "default": for columns that nothing else is said about. -/
  defaultMib : Option Int
  /-- "stman:NAME": for a storage manager. -/
  smMib : StdMap Int
  /-- "column:NAME": for a column. -/
  colMib : StdMap Int

/-- One record of `getDataManagerInfo`: NAME and COLUMNS. -/
structure DataManagerInfo where
  name : String
  columns : List String
  deriving Repr, DecidableEq

/-- The storage managers of a table. Each column is served by one of
them, and no two have the same name. -/
structure StorageManagers where
  managers : List DataManagerInfo
  names_nodup : (managers.map DataManagerInfo.name).Nodup
  columns_nodup : (managers.flatMap DataManagerInfo.columns).Nodup

/-- The cap of each storage manager, by name; zero is no bound. -/
abbrev CacheCaps := String → Int

/-- No cache is bounded. -/
def CacheCaps.unbounded : CacheCaps := fun _ => 0

namespace StorageManagers

variable (t : StorageManagers)

/-- `setMaximumCacheSize`: the cap of the storage manager that serves the
column. -/
def setMaximumCacheSize (column : String) (mib : Int) (caps : CacheCaps) :
    CacheCaps :=
  match t.managers.find? fun dm => decide (column ∈ dm.columns) with
  | some dm => Function.update caps dm.name mib
  | none => caps

/-- `sm_columns`, at one name. -/
def smColumns (sm : String) : List String :=
  (t.managers.filter fun dm => dm.name == sm).flatMap DataManagerInfo.columns

/-- `all_columns`. Each is set to one and the same size, so their order
is of no account. -/
def allColumns : List String :=
  (t.managers.flatMap DataManagerInfo.columns).dedup

/-- `set_column`: a size of zero is skipped. -/
def setColumn (caps : CacheCaps) (write : String × Int) : CacheCaps :=
  if 0 < write.2 then t.setMaximumCacheSize write.1 write.2 caps else caps

/-- The first storage manager or column of the specification that does
not exist. -/
def checkNames (spec : CacheSizeSpec) : Result Unit := do
  spec.smMib.entries.forM fun e =>
    if t.managers.any (fun dm => dm.name == e.1) then .ok ()
    else .error (.invalid ("Unknown storage manager '" ++ e.1 ++ "' in cache_size"))
  spec.colMib.entries.forM fun e =>
    if e.1 ∈ t.allColumns then .ok ()
    else .error (.invalid ("Unknown column '" ++ e.1 ++ "' in cache_size"))

/-- The sizes set, in order: one pass for the default, one for storage
managers and one for columns. -/
def cacheWrites (spec : CacheSizeSpec) : List (String × Int) :=
  let defaultMib := spec.defaultMib.getD kDefaultCacheSizeMiB
  t.allColumns.map (fun column => (column, defaultMib))
    ++ spec.smMib.entries.flatMap
      (fun e => (t.smColumns e.1).map fun column => (column, e.2))
    ++ spec.colMib.entries

/-- `ApplyCacheSizes`. -/
def applyCacheSizes (spec : CacheSizeSpec) (caps : CacheCaps) :
    Result Unit × CacheCaps :=
  match t.checkNames spec with
  | .error e => (.error e, caps)
  | .ok () => (.ok (), (t.cacheWrites spec).foldl t.setColumn caps)

end StorageManagers

end Arcae
