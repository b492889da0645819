/-
Fallible code and the calls it makes.

A traced computation is a result and the calls made on the way to it, in
order; after an error nothing more is called. Erasing the calls gives
back the plain computation (`result_bind`), and a property of all calls
is checked step by step (`forall_calls_bind`).
-/
import Mathlib.Data.List.Basic

/-- A result, and the calls made on the way. -/
structure Traced (ι ε α : Type _) where
  calls : List ι
  result : Except ε α

namespace Traced

variable {ι ε α γ : Type _}

/-- Make a call. -/
def call (c : ι) (result : Except ε α) : Traced ι ε α := ⟨[c], result⟩

/-- Fail. -/
def fail (e : ε) : Traced ι ε α := ⟨[], .error e⟩

/-- Go on with a value, if there is one. -/
def andThen (x : Traced ι ε α) (f : α → Traced ι ε γ) : Traced ι ε γ :=
  match x.result with
  | .ok a => ⟨x.calls ++ (f a).calls, (f a).result⟩
  | .error e => ⟨x.calls, .error e⟩

instance : Monad (Traced ι ε) where
  pure a := ⟨[], .ok a⟩
  bind := andThen

@[simp] theorem result_pure (a : α) :
    (pure a : Traced ι ε α).result = .ok a := rfl

@[simp] theorem calls_pure (a : α) : (pure a : Traced ι ε α).calls = [] := rfl

@[simp] theorem result_fail (e : ε) :
    (fail e : Traced ι ε α).result = .error e := rfl

@[simp] theorem calls_fail (e : ε) : (fail e : Traced ι ε α).calls = [] := rfl

/-- Without the calls, the steps are those of the plain computation. -/
@[simp] theorem result_bind (x : Traced ι ε α) (f : α → Traced ι ε γ) :
    (x >>= f).result = x.result >>= fun a => (f a).result := by
  show (andThen x f).result = _
  unfold andThen
  cases x.result <;> rfl

/-- Every call of two steps is a call of one of them. -/
theorem forall_calls_bind {x : Traced ι ε α} {f : α → Traced ι ε γ}
    {P : ι → Prop} :
    (∀ c ∈ (x >>= f).calls, P c)
      ↔ (∀ c ∈ x.calls, P c)
        ∧ ∀ a, x.result = .ok a → ∀ c ∈ (f a).calls, P c := by
  show (∀ c ∈ (andThen x f).calls, P c) ↔ _
  unfold andThen
  cases hx : x.result with
  | ok a =>
      simp only [List.forall_mem_append, Except.ok.injEq, forall_eq']
  | error e => simp

theorem forall_calls_bind_ok {x : Traced ι ε α} {f : α → Traced ι ε γ}
    {P : ι → Prop} {a : α} (hx : x.result = .ok a) :
    (∀ c ∈ (x >>= f).calls, P c)
      ↔ (∀ c ∈ x.calls, P c) ∧ ∀ c ∈ (f a).calls, P c := by
  rw [forall_calls_bind]
  refine and_congr_right fun _ => ⟨fun h => h a hx, fun h a' ha' => ?_⟩
  rw [hx] at ha'
  exact Except.ok.inj ha' ▸ h

end Traced
