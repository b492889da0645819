/-
The configuration and `config.set`.

`Configuration` (configuration.cc) is a map of byte strings, which its
Python wrapper (arrow_tables.pyx) reads and writes as `str`: a `str` with
a surrogate has no encoding, and bytes that are no UTF-8 no decoding. An
operation of the wrapper is a computation on the configuration that may
raise an exception, which leaves what was assigned before it.

`config.set` (config.py) is a generator: what comes before its `yield` is
run on entry to the `with` block (`enter`), what comes after it when the
body has finished (`leave`); an exception of the body is raised at the
`yield`. A body is what user code does in such a block as far as the
configuration is concerned (`Body`).
-/
import Mathlib.Logic.Function.Basic

namespace Arcae.Config

-- ============================================================== strings

/-- A code point of a `str`; a surrogate is one too. -/
abbrev CodePoint := Fin 0x110000

abbrev PyStr := List CodePoint

/-- The bytes of a `std::string`. -/
abbrev StdString := List UInt8

def utf8 (text : String) : StdString :=
  text.toUTF8.data.toList

/-- The exceptions. -/
inductive PyException
  | keyError (key : PyStr)
  | unicodeEncodeError
  | unicodeDecodeError
  /-- Any other exception that user code raises. -/
  | raised (what : String)

/-- The character, unless the code point is a surrogate. -/
def CodePoint.toChar (c : CodePoint) : Option Char :=
  if h : c.val.isValidChar then some (Char.ofNatAux c.val h) else none

theorem CodePoint.toNat_lt (c : Char) : c.toNat < 0x110000 := by
  rcases c.valid with hlow | ⟨-, hhigh⟩
  · exact Nat.lt_trans hlow (by decide)
  · exact hhigh

def CodePoint.ofChar (c : Char) : CodePoint :=
  ⟨c.toNat, CodePoint.toNat_lt c⟩

/-- `str` to `std::string`, as UTF-8. -/
def tobytes (text : PyStr) : Except PyException StdString :=
  match text.mapM CodePoint.toChar with
  | some chars => .ok (utf8 (String.ofList chars))
  | none => .error .unicodeEncodeError

/-- `std::string` to `str`. -/
def frombytes (bytes : StdString) : Except PyException PyStr :=
  match String.fromUTF8? ⟨bytes.toArray⟩ with
  | some text => .ok (text.toList.map CodePoint.ofChar)
  | none => .error .unicodeDecodeError

-- ======================================================== Configuration

/-- The keys and values. -/
structure Configuration where
  kvmap : StdString → Option StdString

namespace Configuration

/-- A configuration without keys. -/
def empty : Configuration where
  kvmap := fun _ => none

/-- `Set`. -/
def set (config : Configuration) (key value : StdString) : Configuration where
  kvmap := Function.update config.kvmap key (some value)

/-- `Get`; the error names the key. -/
def get (config : Configuration) (key : StdString) :
    Except StdString StdString :=
  match config.kvmap key with
  | some value => .ok value
  | none => .error key

/-- `Delete`. -/
def delete (config : Configuration) (key : StdString) :
    Except StdString Configuration :=
  match config.kvmap key with
  | some _ => .ok { kvmap := Function.update config.kvmap key none }
  | none => .error key

end Configuration

/-- Python code that works on the configuration. -/
abbrev Py := ExceptT PyException (StateM Configuration)

/-- What it ends with, and the configuration then. -/
def Py.run {α : Type} (x : Py α) (config : Configuration) :
    Except PyException α × Configuration :=
  x config

/-- `Configuration.__getitem__`. -/
def getitem (key : PyStr) : Py PyStr := do
  let ckey ← tobytes key
  match (← get).get ckey with
  | .ok value => frombytes value
  | .error _ => throw (.keyError key)

/-- `Configuration.__setitem__`. -/
def setitem (key item : PyStr) : Py Unit := do
  let ckey ← tobytes key
  let citem ← tobytes item
  modify fun config => config.set ckey citem

/-- `Configuration.__delitem__`. -/
def delitem (key : PyStr) : Py Unit := do
  let ckey ← tobytes key
  match (← get).delete ckey with
  | .ok config => set config
  | .error _ => throw (.keyError key)

-- =========================================================== config.set

/-- The keywords: a `dict`, so no key comes twice. -/
structure Keywords where
  items : List (PyStr × PyStr)
  nodup : (items.map Prod.fst).Nodup

/-- The keys of `saved` with what `__getitem__` found there; `none` is the
`_DELETE_MARKER`. -/
abbrev Saved := List (PyStr × Option PyStr)

/-- The old value of a key, or the marker. -/
def getOld (key : PyStr) : Py (Option PyStr) :=
  tryCatch (some <$> getitem key) fun
    | .keyError _ => pure none
    | e => throw e

/-- The loop before the `yield`. -/
def enter : List (PyStr × PyStr) → Saved → Py Saved
  | [], saved => pure saved
  | (key, value) :: rest, saved => do
      let old ← getOld key
      setitem key value
      enter rest (saved ++ [(key, old)])

/-- A turn of the loop after it. -/
def restore (key : PyStr) : Option PyStr → Py Unit
  | none => delitem key
  | some value => setitem key value

def leave : Saved → Py Unit
  | [] => pure ()
  | (key, old) :: saved => do
      restore key old
      leave saved

/-- A `with config.set(**kw)` block. -/
def withSet (kw : Keywords) (body : Py Unit) : Py Unit := do
  let saved ← enter kw.items []
  body
  leave saved

/-- The body of a block: it does nothing, raises an exception, decides by
the configuration what to do, does one thing and then another, handles
the exceptions of a part, or has a block of its own. -/
inductive Body
  | pass
  | raises (e : PyException)
  | look (next : Configuration → Body)
  | andThen (first second : Body)
  | handles (body : Body) (handler : PyException → Body)
  | block (kw : Keywords) (body : Body)

def Body.exec : Body → Py Unit
  | pass => pure ()
  | raises e => throw e
  | look next => do
      let config ← get
      (next config).exec
  | andThen first second => do
      first.exec
      second.exec
  | handles body handler => tryCatch body.exec fun e => (handler e).exec
  | block kw body => withSet kw body.exec

end Arcae.Config
