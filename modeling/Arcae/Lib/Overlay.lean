/-
Partial maps laid over one another.

A series of assignments to a store is a partial map: at each key the last
value assigned, if any. Carrying the assignments out is laying that map
over the store, one series after another is laying the second over the
first (`overlay_assoc`), and the store comes out unchanged exactly if
every assignment gave its key the value that was there
(`overlay_eq_right`).
-/
import Mathlib.Logic.Function.Basic

namespace Arcae.Overlay

variable {κ ν : Type} {f g h : κ → Option ν}

/-- The map `f` where it has a value, and `g` elsewhere. -/
def overlay (f g : κ → Option ν) : κ → Option ν :=
  fun k => (f k).or (g k)

/-- No assignment. -/
def nothing : κ → Option ν :=
  fun _ => none

@[simp] theorem overlay_nothing (g : κ → Option ν) : overlay nothing g = g := by
  funext k
  simp [overlay, nothing]

theorem overlay_assoc : overlay (overlay f g) h = overlay f (overlay g h) := by
  funext k
  simp [overlay, Option.or_assoc]

/-- Nothing changes exactly if every value laid over is the one below. -/
theorem overlay_eq_right :
    overlay f g = g ↔ ∀ k v, f k = some v → g k = some v := by
  constructor
  · intro heq k v hk
    rw [← congrFun heq k, overlay, hk, Option.some_or]
  · intro hall
    funext k
    cases hk : f k with
    | none => rw [overlay, hk, Option.none_or]
    | some v => rw [overlay, hk, Option.some_or, hall k v hk]

/-- What is there stays there. -/
theorem isSome_overlay {k : κ} (hk : (g k).isSome) :
    (overlay f g k).isSome := by
  simp [overlay, hk]

theorem isSome_overlay_left {k : κ} (hk : (f k).isSome) :
    (overlay f g k).isSome := by
  simp [overlay, hk]

/-- An assignment to a key that has none above it can go first. -/
theorem overlay_update [DecidableEq κ] {k : κ} (v : ν) (hk : f k = none) :
    overlay f (Function.update g k (some v))
      = overlay (Function.update f k (some v)) g := by
  funext j
  by_cases hj : j = k
  · subst hj
    simp [overlay, hk]
  · simp [overlay, hj]

end Arcae.Overlay
