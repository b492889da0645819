/-
Labelled transition systems: runs with the labels they took, and the
rules by which a fact about one step becomes a fact about every run.

A run is built at its end (`Run.tail`), because every induction over it
asks what the last step did to a state already known to be good. The
labels are kept in order, oldest first, so that a statement can say that
something happened before a state was reached without the state carrying
a history of its own.

`Run.invariant` is the usual rule; `Run.invariant_labels` and
`Run.history` carry a fact about the labels taken so far, for invariants
of the form "this is so, unless that happened first". Where every step
costs something, runs are no longer than what there is (`Run.length_le`).

What is nowhere in the state can be written down beside it: `logging`
adds a log to a system, and every run of the system is one that is logged
(`Run.logged`).
-/
import Mathlib.Data.List.Basic

namespace Arcae.Lts

variable {σ ε : Type*} {step : σ → ε → σ → Prop}

-- ================================================================ runs

/-- A run from one state to another, with its labels in order. -/
inductive Run (step : σ → ε → σ → Prop) (s : σ) : List ε → σ → Prop
  /-- Nothing has happened yet. -/
  | refl : Run step s [] s
  /-- One more step at the end. -/
  | tail {es : List ε} {t u : σ} {e : ε} :
      Run step s es t → step t e u → Run step s (es ++ [e]) u

/-- A run continued by a run. -/
theorem Run.trans {s t u : σ} {es fs : List ε} (hst : Run step s es t)
    (htu : Run step t fs u) : Run step s (es ++ fs) u := by
  induction htu with
  | refl => simpa using hst
  | tail _ hlast ih =>
      rw [← List.append_assoc]
      exact ih.tail hlast

/-- Runs of a system that can do less. -/
theorem Run.mono {step' : σ → ε → σ → Prop} {s t : σ} {es : List ε}
    (hstep : ∀ {t e u}, step t e u → step' t e u) (h : Run step s es t) :
    Run step' s es t := by
  induction h with
  | refl => exact .refl
  | tail _ hlast ih => exact ih.tail (hstep hlast)

/-- A single step is a run. -/
theorem Run.single {s t : σ} {e : ε} (h : step s e t) :
    Run step s [e] t :=
  Run.refl.tail h

/-- Where a label leaves no choice, the labels of a run leave none. -/
theorem Run.det (hstep : ∀ t e u u', step t e u → step t e u' → u = u')
    {s t t' : σ} {es : List ε} (h : Run step s es t) (h' : Run step s es t') :
    t = t' := by
  induction h generalizing t' with
  | refl =>
      generalize hnil : ([] : List ε) = es at h'
      cases h' with
      | refl => rfl
      | tail _ _ => simp at hnil
  | @tail es t u e _ hlast ih =>
      generalize hes : es ++ [e] = fs at h'
      cases h' with
      | refl => simp at hes
      | tail hinit hlast' =>
          obtain ⟨rfl, heq⟩ := List.append_inj' hes rfl
          cases heq
          cases ih hinit
          exact hstep _ _ _ _ hlast hlast'

-- ========================================================== invariants

/-- What every step keeps, every run keeps. -/
theorem Run.invariant (P : σ → Prop)
    (hstep : ∀ {t e u}, P t → step t e u → P u) {s t : σ} {es : List ε}
    (hrun : Run step s es t) (hs : P s) : P t := by
  induction hrun with
  | refl => exact hs
  | tail _ hlast ih => exact hstep ih hlast

/-- A fact about a state and the labels that led to it: what every
step keeps when it adds its own label, every run keeps. -/
theorem Run.invariant_labels (P : List ε → σ → Prop)
    (hstep : ∀ {fs t e u}, P fs t → step t e u → P (fs ++ [e]) u)
    {s t : σ} {fs es : List ε} (hrun : Run step s es t)
    (hs : P fs s) : P (fs ++ es) t := by
  induction hrun with
  | refl => simpa using hs
  | tail _ hlast ih =>
      rw [← List.append_assoc]
      exact hstep ih hlast

/-- The same from the beginning, with no labels yet. -/
theorem Run.history (P : List ε → σ → Prop)
    (hstep : ∀ {fs t e u}, P fs t → step t e u → P (fs ++ [e]) u)
    {s t : σ} {es : List ε} (hrun : Run step s es t) (hs : P [] s) :
    P es t :=
  Run.invariant_labels P hstep hrun hs

/-- Where every step from a good state leads to a good one and lowers a
measure, a run has at most as many steps as the measure says. -/
theorem Run.length_le (P : σ → Prop) (measure : σ → Nat)
    (hstep : ∀ {t e u}, P t → step t e u → P u ∧ measure u < measure t)
    {s t : σ} {es : List ε} (hrun : Run step s es t) (hs : P s) :
    P t ∧ es.length + measure t ≤ measure s := by
  induction hrun with
  | refl => exact ⟨hs, by simp⟩
  | tail _ hlast ih =>
      obtain ⟨hgood, hless⟩ := hstep ih.1 hlast
      refine ⟨hgood, ?_⟩
      rw [List.length_append, List.length_singleton]
      omega

-- ================================================================ logs

variable {κ : Type*} {notes : σ → ε → σ → List κ → Prop}

/-- The system with a log beside its state; `notes` says what a step adds
to it. -/
def logging (step : σ → ε → σ → Prop) (notes : σ → ε → σ → List κ → Prop)
    (x : σ × List κ) (e : ε) (y : σ × List κ) : Prop :=
  step x.1 e y.1 ∧ ∃ entries, notes x.1 e y.1 entries ∧ y.2 = x.2 ++ entries

/-- A run can be logged, if every step can. -/
theorem Run.logged
    (htotal : ∀ {s e t}, step s e t → ∃ entries, notes s e t entries)
    {s t : σ} {es : List ε} (hrun : Run step s es t) (log : List κ) :
    ∃ log', Run (logging step notes) (s, log) es (t, log') := by
  induction hrun with
  | refl => exact ⟨log, .refl⟩
  | tail _ hlast ih =>
      obtain ⟨log', hlogged⟩ := ih
      obtain ⟨entries, hentries⟩ := htotal hlast
      exact ⟨log' ++ entries, hlogged.tail ⟨hlast, entries, hentries, rfl⟩⟩

/-- A logged run, without its log. -/
theorem Run.unlogged {x y : σ × List κ} {es : List ε}
    (hrun : Run (logging step notes) x es y) : Run step x.1 es y.1 := by
  induction hrun with
  | refl => exact .refl
  | tail _ hlast ih => exact ih.tail hlast.1

end Arcae.Lts
