/-
What a `config.set` block leaves behind.

The assignments of a block are undone if its body finishes, and only
then. What a body leaves behind is therefore a partial map of keys to
the last values assigned by the blocks an exception has left, without
the keys of the blocks around them that have finished (`Body.leaves`).
With it goes how the body ends, since that decides about the block it is
in.

A body all of whose blocks finish (`Body.BlocksFinish`) leaves nothing
behind.
-/
import Arcae.Lib.Overlay
import Arcae.Model.Config

namespace Arcae.Config

open Overlay

/-- Assignments by key, in the form the configuration has them. -/
abbrev Assignments := StdString → Option StdString

/-- The configuration after the assignments. -/
def Configuration.assign (config : Configuration) (left : Assignments) :
    Configuration where
  kvmap := overlay left config.kvmap

/-- The old value that a keyword saves, if it can be read. -/
def oldValue (config : Configuration) (key : PyStr) :
    Except PyException (Option PyStr) := do
  let ckey ← tobytes key
  match config.kvmap ckey with
  | some old => some <$> frombytes old
  | none => pure none

/-- The assignment that a keyword makes, or the exception of the first
conversion that fails: of the key, of the old value, of the new one. -/
def assignment (config : Configuration) (key value : PyStr) :
    Except PyException (StdString × StdString) := do
  let _ ← oldValue config key
  let ckey ← tobytes key
  let cvalue ← tobytes value
  return (ckey, cvalue)

/-- The assignments of the keywords, up to the first that raises an
exception. -/
def assigned (config : Configuration) :
    List (PyStr × PyStr) → Assignments × Except PyException Unit
  | [] => (nothing, .ok ())
  | (key, value) :: rest =>
      match assignment config key value with
      | .error e => (nothing, .error e)
      | .ok (ckey, cvalue) =>
          (Function.update (assigned config rest).1 ckey (some cvalue),
            (assigned config rest).2)

/-- The assignments that are left of a body run from this configuration,
and how it ends. -/
def Body.leaves :
    Body → Configuration → Assignments × Except PyException Unit
  | pass, _ => (nothing, .ok ())
  | raises e, _ => (nothing, .error e)
  | look next, config => (next config).leaves config
  | andThen first second, config =>
      match first.leaves config with
      | (left, .error e) => (left, .error e)
      | (left, .ok ()) =>
          let after := second.leaves (config.assign left)
          (overlay after.1 left, after.2)
  | handles body handler, config =>
      match body.leaves config with
      | (left, .ok ()) => (left, .ok ())
      | (left, .error e) =>
          let after := (handler e).leaves (config.assign left)
          (overlay after.1 left, after.2)
  | block kw body, config =>
      match assigned config kw.items with
      | (own, .error e) => (own, .error e)
      | (own, .ok ()) =>
          match body.leaves (config.assign own) with
          | (left, .error e) => (overlay left own, .error e)
          | (left, .ok ()) =>
              -- restored: what the block's own keys held before
              (fun key => if (own key).isSome then none else left key, .ok ())

/-- No exception leaves a block in this run of a body. -/
def Body.BlocksFinish : Body → Configuration → Prop
  | pass, _ => True
  | raises _, _ => True
  | look next, config => (next config).BlocksFinish config
  | andThen first second, config =>
      first.BlocksFinish config
        ∧ ((first.exec.run config).1 = .ok () →
          second.BlocksFinish (first.exec.run config).2)
  | handles body handler, config =>
      body.BlocksFinish config
        ∧ ∀ e, (body.exec.run config).1 = .error e →
          (handler e).BlocksFinish (body.exec.run config).2
  | block kw body, config =>
      ((withSet kw body.exec).run config).1 = .ok ()
        ∧ body.BlocksFinish ((enter kw.items []).run config).2

end Arcae.Config
