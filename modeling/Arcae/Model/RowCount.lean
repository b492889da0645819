/-
Row counts between Python and C++ (`Table.nrow` and `Table.addrows`,
arrow_tables.pyx; `NewTableProxy::nRows` and `AddRows`,
new_table_proxy.cc).

casacore counts rows in a `rownr_t` of 64 bits, and so does C++ with
`std::size_t`. The declarations that the Python code is compiled with
have `unsigned int` in the same places, and the argument of `addrows` is
an `int` before it gets there: 32 bits either way.

casacore itself is a parameter (`Casacore`), with what its documentation
says of the operations that are called here (`Casacore.Documented`).
-/
import Arcae.Model.Basic

namespace Arcae

-- ============================================================ casacore

/-- The operations of `casacore::TableProxy` that are called here; one
that throws may have changed the table. -/
structure Casacore (σ : Type) where
  nrow : σ → Nat
  isWritable : σ → Bool
  reopenRW : σ → Result Unit × σ
  addRow : σ → Nat → Result Unit × σ

/-- What is documented: reopening a table leaves its rows alone, and
adding rows adds as many as it is asked to, in 64 bits, or throws. -/
structure Casacore.Documented {σ : Type} (casa : Casacore σ) : Prop where
  nrow_reopenRW : ∀ tp, casa.nrow (casa.reopenRW tp).2 = casa.nrow tp
  nrow_addRow : ∀ tp nrows, (casa.addRow tp nrows).1 = .ok () →
    casa.nrow (casa.addRow tp nrows).2 = (casa.nrow tp + nrows) % 2 ^ 64
  nrow_addRow_throws : ∀ tp nrows status,
    (casa.addRow tp nrows).1 = .error status →
    casa.nrow (casa.addRow tp nrows).2 = casa.nrow tp

-- ======================================================= NewTableProxy

/-- A `NewTableProxy`. With several instances nothing can be written, and
all of them have the table that `tp` stands for. -/
structure NewTableProxy (σ : Type) where
  tp : σ
  nInstances : Nat
  isClosed : Bool

/-- How the generated code hands an `int` to `AddRows`, declared with an
`unsigned int` but defined with a `std::size_t`: as it is, so that its
sign is extended, or cast to the declared type first. -/
inductive Passing
  | asIs
  | asDeclared
  deriving Repr, DecidableEq

/-- The `std::size_t` that arrives. -/
def Passing.toSize : Passing → Int → Nat
  | asIs, cnrows => (cnrows % 2 ^ 64).toNat
  | asDeclared, cnrows => (cnrows % 2 ^ 32).toNat

/-- What Python raises: a status of Arrow's, or `OverflowError`. -/
inductive Raised
  | arrow (status : Status)
  | overflowError
  deriving Repr, DecidableEq

namespace NewTableProxy

variable {σ : Type} (casa : Casacore σ) (t : NewTableProxy σ)

/-- `SafeMultithreadedWrites`. -/
def safeMultithreadedWrites : Result Unit :=
  if t.nInstances = 1 then .ok ()
  else .error (.notImplemented
    ("Write support when number of table instances "
      ++ toString t.nInstances ++ " is greater than one"))

/-- `CheckClosed`. -/
def checkClosed : Result Unit :=
  if t.isClosed then .error (.invalid "TableProxy is closed") else .ok ()

/-- `MaybeReopenRW`. -/
def maybeReopenRW (tp : σ) : Result Unit × σ :=
  if casa.isWritable tp then (.ok (), tp) else casa.reopenRW tp

/-- The functor of `AddRows`. -/
def addRow (tp : σ) (nrows : Nat) : Result Unit × σ :=
  match (maybeReopenRW casa tp).1 with
  | .error status => (.error status, (maybeReopenRW casa tp).2)
  | .ok () => casa.addRow (maybeReopenRW casa tp).2 nrows

/-- `AddRows`. -/
def addRows (nrows : Nat) : Result Unit × NewTableProxy σ :=
  match t.safeMultithreadedWrites, t.checkClosed with
  | .error status, _ => (.error status, t)
  | .ok (), .error status => (.error status, t)
  | .ok (), .ok () =>
      let added := addRow casa t.tp nrows
      (added.1, { t with tp := added.2 })

/-- `nRows`. -/
def nRows : Result Nat :=
  match t.checkClosed with
  | .error status => .error status
  | .ok () => .ok (casa.nrow t.tp)

-- ============================================================== Python

/-- `cdef int cnrows = nrows`. -/
def toCInt (nrows : Int) : Except Raised Int :=
  if -2 ^ 31 ≤ nrows ∧ nrows < 2 ^ 31 then .ok nrows
  else .error .overflowError

/-- `Table.addrows`. -/
def addrows (passing : Passing) (nrows : Int) :
    Except Raised Unit × NewTableProxy σ :=
  match toCInt nrows with
  | .error e => (.error e, t)
  | .ok cnrows =>
      let added := t.addRows casa (passing.toSize cnrows)
      (added.1.mapError .arrow, added.2)

/-- `Table.nrow`: the count of `nRows` as an `unsigned int`. -/
def nrow : Except Raised Nat :=
  match t.nRows casa with
  | .error status => .error (.arrow status)
  | .ok nrows => .ok (nrows % 2 ^ 32)

/-- The table after a series of calls of `addrows`. -/
def addAll (passing : Passing) (calls : List Int) : NewTableProxy σ :=
  calls.foldl (fun t nrows => (t.addrows casa passing nrows).2) t

end NewTableProxy

end Arcae
