/-
The odometer: a counter of one digit per axis, the first axis turning
fastest, as a loop body between a `do` and a `while`.

`advance` is one turn: it counts the first digit up, and on a carry
resets it and turns the rest; `none` says that the last digit wrapped.
`run` is the loop, one body per turn, on explicit fuel. Its result is
the fold of the body over the whole box in storage order, and it takes
one turn per index and no fewer (`run_eq_ite`).

`whileNotDone` is the same loop as it is written where there is no
`none` to return: a flag that each carry overwrites, and that the loop
asks for after the turn (`whileNotDone_eq_run`), which is never raised
when there is no axis at all.
-/
import Arcae.Lib.FOrder

namespace Odometer

open FOrder

variable {σ : Type _}

/-- Count the first digit up; on a carry reset it and turn the rest. -/
def advance : List Nat → List Nat → Option (List Nat)
  | n :: ns, p :: ps =>
      if p + 1 < n then some ((p + 1) :: ps)
      else (advance ns ps).map (0 :: ·)
  | _, _ => none

/-- Run the body at the current index, turn, and go on until the last
digit wraps. `none` is the loop still running when the fuel is spent. -/
def run (sizes : List Nat) (body : List Nat → σ → σ) :
    Nat → List Nat → σ → Option σ
  | 0, _, _ => none
  | fuel + 1, pos, s =>
      match advance sizes pos with
      | none => some (body pos s)
      | some pos' => run sizes body fuel pos' (body pos s)

/-- The index every digit starts at. -/
def zeros (sizes : List Nat) : List Nat := sizes.map fun _ => 0

theorem zeros_eq_unflat (sizes : List Nat) : zeros sizes = unflat sizes 0 := by
  induction sizes with
  | nil => rfl
  | cons n ns ih =>
      show 0 :: zeros ns = 0 % n :: unflat ns (0 / n)
      rw [ih, Nat.zero_mod, Nat.zero_div]

/-- A turn moves to the next offset, and wraps at the last one. -/
theorem advance_eq {sizes pos : List Nat} (h : InBox pos sizes) :
    advance sizes pos
      = if flat sizes pos + 1 < sizes.prod
        then some (unflat sizes (flat sizes pos + 1)) else none := by
  induction h with
  | nil => rfl
  | @cons p n ps ns hp hps ih =>
      have hlt := flat_lt_prod hps
      rw [advance, flat_cons, List.prod_cons, ih]
      by_cases hcarry : p + 1 < n
      · -- no carry: the offset stays within this round of the first digit
        have hbound : p + n * flat ns ps + 1 < n * ns.prod := by
          calc p + n * flat ns ps + 1
              < n + n * flat ns ps := by omega
            _ = n * (flat ns ps + 1) := by ring
            _ ≤ n * ns.prod := Nat.mul_le_mul_left n hlt
        have hstep : p + n * flat ns ps + 1 = flat (n :: ns) ((p + 1) :: ps) := by
          rw [flat_cons]
          omega
        rw [if_pos hcarry, if_pos hbound, hstep,
          unflat_flat (.cons hcarry hps)]
      · -- carry: the offset is a multiple of the first size
        have hn : 0 < n := by omega
        have hstep : p + n * flat ns ps + 1 = n * (flat ns ps + 1) := by
          rw [Nat.mul_succ]
          omega
        rw [if_neg hcarry, hstep]
        by_cases hlast : flat ns ps + 1 < ns.prod
        · rw [if_pos hlast, if_pos (Nat.mul_lt_mul_of_pos_left hlast hn),
            unflat, Nat.mul_mod_right, Nat.mul_div_cancel_left _ hn]
          rfl
        · have hge : ¬ n * (flat ns ps + 1) < n * ns.prod :=
            Nat.not_lt.mpr (Nat.mul_le_mul_left n (Nat.not_lt.mp hlast))
          rw [if_neg hlast, if_neg hge]
          rfl

/-- From the `k`-th index on, the loop folds the body over the indices
left to visit, if there is fuel for one turn each; and no less will
do. -/
theorem run_from (sizes : List Nat) (body : List Nat → σ → σ) :
    ∀ (fuel k : Nat) (s : σ), k < sizes.prod →
      run sizes body fuel (unflat sizes k) s
        = if k + fuel < sizes.prod then none
          else some (((List.range' k (sizes.prod - k)).map
            (unflat sizes)).foldl (fun s p => body p s) s) := by
  intro fuel
  induction fuel with
  | zero =>
      intro k s hk
      rw [if_pos (by omega)]
      rfl
  | succ fuel ih =>
      intro k s hlt
      have hrange : List.range' k (sizes.prod - k)
          = k :: List.range' (k + 1) (sizes.prod - (k + 1)) := by
        rw [show sizes.prod - k = sizes.prod - (k + 1) + 1 by omega,
          List.range'_succ]
      rw [run, advance_eq (unflat_inBox hlt), flat_unflat hlt, hrange,
        List.map_cons, List.foldl_cons]
      by_cases hlast : k + 1 < sizes.prod
      · rw [if_pos hlast]
        dsimp only
        rw [ih (k + 1) _ hlast, show k + 1 + fuel = k + (fuel + 1) by omega]
      · have hnone : sizes.prod - (k + 1) = 0 := by omega
        rw [if_neg hlast, if_neg (by omega), hnone]
        rfl

/-- The loop visits the box in storage order and stops: it takes as much
fuel as the volume, and more makes no difference. -/
theorem run_eq_ite {sizes : List Nat} (hpos : 0 < sizes.prod)
    (body : List Nat → σ → σ) (fuel : Nat) (s : σ) :
    run sizes body fuel (zeros sizes) s
      = if fuel < sizes.prod then none
        else some ((box sizes).foldl (fun s p => body p s) s) := by
  rw [zeros_eq_unflat, run_from sizes body fuel 0 s hpos, Nat.zero_add,
    Nat.sub_zero, box_eq_map_unflat, List.range_eq_range']

/-- As much fuel as the volume is enough. -/
theorem run_eq_foldl {sizes : List Nat} (hpos : 0 < sizes.prod)
    (body : List Nat → σ → σ) (s : σ) :
    run sizes body sizes.prod (zeros sizes) s
      = some ((box sizes).foldl (fun s p => body p s) s) := by
  rw [run_eq_ite hpos, if_neg (Nat.lt_irrefl _)]

-- ============================================================== the flag

/-- The turn as a loop over the axes, from axis `d` of `ndim` on: it
stops at the first digit that does not wrap, and each carry overwrites a
flag with whether it was the last axis that wrapped. -/
def turn (ndim : Nat) : Nat → List Nat → List Nat → Bool → List Nat × Bool
  | d, n :: ns, p :: ps, done =>
      if p + 1 < n then ((p + 1) :: ps, done)
      else
        let rest := turn ndim (d + 1) ns ps (d + 1 == ndim)
        (0 :: rest.1, rest.2)
  | _, _, ps, done => (ps, done)

/-- Run the body at the current index and turn, while the turn has not
raised the flag. `none` is the loop still running when the fuel is
spent. -/
def whileNotDone (sizes : List Nat) (body : List Nat → σ → σ) :
    Nat → List Nat → σ → Option σ
  | 0, _, _ => none
  | fuel + 1, pos, s =>
      let next := turn sizes.length 0 sizes pos false
      if next.2 then some (body pos s)
      else whileNotDone sizes body fuel next.1 (body pos s)

/-- A turn that goes through to the last axis raises the flag, and no
other turn does: the carries before it overwrite the flag with false. -/
theorem turn_eq {ndim : Nat} {sizes pos : List Nat} {d : Nat}
    (hlen : pos.length = sizes.length) (hd : d + sizes.length = ndim) :
    turn ndim d sizes pos sizes.isEmpty
      = ((advance sizes pos).getD (zeros sizes), (advance sizes pos).isNone) := by
  induction sizes generalizing pos d with
  | nil =>
      rw [List.length_eq_zero_iff.mp hlen]
      rfl
  | cons n ns ih =>
      cases pos with
      | nil => cases hlen
      | cons p ps =>
          have hrest : d + 1 + ns.length = ndim := by
            rw [List.length_cons] at hd
            omega
          have hflag : (d + 1 == ndim) = ns.isEmpty := by
            cases ns with
            | nil =>
                rw [List.length_nil] at hrest
                exact beq_iff_eq.mpr hrest
            | cons m ms =>
                rw [List.length_cons] at hrest
                exact beq_eq_false_iff_ne.mpr (by omega)
          rw [turn, advance, hflag, ih (Nat.succ.inj hlen) hrest]
          split
          · rfl
          · cases advance ns ps <;> rfl

/-- A turn keeps the number of digits. -/
theorem advance_length {sizes pos pos' : List Nat}
    (h : advance sizes pos = some pos') : pos'.length = pos.length := by
  induction sizes generalizing pos pos' with
  | nil => cases h
  | cons n ns ih =>
      cases pos with
      | nil => cases h
      | cons p ps =>
          rw [advance] at h
          split at h
          · cases h
            rfl
          · obtain ⟨ps', hps', rfl⟩ := Option.map_eq_some_iff.mp h
            rw [List.length_cons, List.length_cons, ih hps']

/-- With an axis to turn, the loop with the flag is the loop that stops
when the last digit wraps. -/
theorem whileNotDone_eq_run {sizes : List Nat} (hne : sizes ≠ [])
    (body : List Nat → σ → σ) (fuel : Nat) {pos : List Nat} (s : σ)
    (hlen : pos.length = sizes.length) :
    whileNotDone sizes body fuel pos s = run sizes body fuel pos s := by
  have hflag : sizes.isEmpty = false := by
    rw [List.isEmpty_eq_false_iff]
    exact hne
  induction fuel generalizing pos s with
  | zero => rfl
  | succ fuel ih =>
      have hturn := turn_eq (d := 0) hlen (Nat.zero_add _)
      rw [hflag] at hturn
      rw [whileNotDone, run, hturn]
      cases hadv : advance sizes pos with
      | none => rfl
      | some pos' => exact ih (body pos s) ((advance_length hadv).trans hlen)

end Odometer
