/-
Row counts are right between Python and C++ as long as they fit in 32
bits.

`nrow` shows the count modulo 2 ^ 32. A call of `addrows` that is not
refused adds what arrives of its argument modulo 2 ^ 64
(`rows_addrows`), which for a negative argument is no number of rows at
all: with its sign extended the count goes down, and below zero it wraps;
cast to the declared type first, it goes up by 2 ^ 32 less the argument.
So the counts are right exactly if every call that the table does not
refuse leads to a count from 0 to 2 ^ 32 - 1, and is not for a negative
number if that is cast (`counts_right_iff`).
-/
import Mathlib.Data.List.Induction
import Arcae.Model.RowCount

namespace Arcae.NewTableProxy

variable {σ : Type} {casa : Casacore σ} {t : NewTableProxy σ}
  {passing : Passing} {n : Int}

-- ============================================================ one call

/-- The rows of the table. -/
def rows (casa : Casacore σ) (t : NewTableProxy σ) : Nat :=
  casa.nrow t.tp

/-- A call is refused: the argument is no `int`, there are several
instances, the table is closed, or casacore throws. -/
def Refuses (casa : Casacore σ) (passing : Passing) (t : NewTableProxy σ)
    (n : Int) : Prop :=
  n < -2 ^ 31 ∨ 2 ^ 31 ≤ n ∨ t.nInstances ≠ 1 ∨ t.isClosed = true ∨
    ∃ status, (addRow casa t.tp (passing.toSize n)).1 = .error status

theorem nrow_maybeReopenRW (h : casa.Documented) (tp : σ) :
    casa.nrow (maybeReopenRW casa tp).2 = casa.nrow tp := by
  unfold maybeReopenRW
  split
  · rfl
  · exact h.nrow_reopenRW tp

theorem nrow_addRow (h : casa.Documented) {tp : σ} {nrows : Nat}
    (hok : (addRow casa tp nrows).1 = .ok ()) :
    casa.nrow (addRow casa tp nrows).2 = (casa.nrow tp + nrows) % 2 ^ 64 := by
  unfold addRow at hok ⊢
  cases hopen : (maybeReopenRW casa tp).1 with
  | error status =>
      rw [hopen] at hok
      cases hok
  | ok =>
      rw [hopen] at hok
      simp only at hok ⊢
      rw [h.nrow_addRow _ _ hok, nrow_maybeReopenRW h]

theorem nrow_addRow_throws (h : casa.Documented) {tp : σ} {nrows : Nat}
    {status : Status} (hthrows : (addRow casa tp nrows).1 = .error status) :
    casa.nrow (addRow casa tp nrows).2 = casa.nrow tp := by
  unfold addRow at hthrows ⊢
  cases hopen : (maybeReopenRW casa tp).1 with
  | error status' => exact nrow_maybeReopenRW h tp
  | ok =>
      rw [hopen] at hthrows
      simp only at hthrows ⊢
      rw [h.nrow_addRow_throws _ _ _ hthrows, nrow_maybeReopenRW h]

/-- What a refused call does: it raises an exception, and adds no rows. -/
structure Raises (casa : Casacore σ) (passing : Passing)
    (t : NewTableProxy σ) (n : Int) : Prop where
  raises : ∃ e, (t.addrows casa passing n).1 = .error e
  rows : rows casa (t.addrows casa passing n).2 = rows casa t
  isClosed : (t.addrows casa passing n).2.isClosed = t.isClosed

/-- What any other does: it adds what has arrived. -/
structure Adds (casa : Casacore σ) (passing : Passing)
    (t : NewTableProxy σ) (n : Int) : Prop where
  returns : (t.addrows casa passing n).1 = .ok ()
  rows : rows casa (t.addrows casa passing n).2
    = (rows casa t + passing.toSize n) % 2 ^ 64
  isOpen : t.isClosed = false ∧ (t.addrows casa passing n).2.isClosed = false
  int : -2 ^ 31 ≤ n ∧ n < 2 ^ 31

theorem raises_of_refuses (h : casa.Documented)
    (hrefuses : Refuses casa passing t n) : Raises casa passing t n := by
  by_cases hint : -2 ^ 31 ≤ n ∧ n < 2 ^ 31
  · have hcint : toCInt n = .ok n := if_pos hint
    by_cases hone : t.nInstances = 1
    · cases hclosed : t.isClosed with
      | true =>
          have hcall : t.addrows casa passing n
              = (.error (.arrow (.invalid "TableProxy is closed")), t) := by
            simp [addrows, hcint, addRows, safeMultithreadedWrites, hone,
              checkClosed, hclosed, Except.mapError]
          exact ⟨⟨_, by rw [hcall]⟩, by rw [hcall], by rw [hcall]⟩
      | false =>
          obtain ⟨status, hthrows⟩ :
              ∃ status, (addRow casa t.tp (passing.toSize n)).1 = .error status := by
            rcases hrefuses with hlow | hhigh | hmany | hx | hthrows
            · omega
            · omega
            · exact absurd hone hmany
            · rw [hclosed] at hx
              cases hx
            · exact hthrows
          have hcall : t.addrows casa passing n = (.error (.arrow status),
              { t with tp := (addRow casa t.tp (passing.toSize n)).2 }) := by
            simp [addrows, hcint, addRows, safeMultithreadedWrites, hone,
              checkClosed, hclosed, hthrows, Except.mapError]
          refine ⟨⟨_, by rw [hcall]⟩, ?_, by rw [hcall]⟩
          rw [hcall]
          exact nrow_addRow_throws h hthrows
    · have hcall : t.addrows casa passing n = (.error (.arrow (.notImplemented
            ("Write support when number of table instances "
              ++ toString t.nInstances ++ " is greater than one"))), t) := by
        simp [addrows, hcint, addRows, safeMultithreadedWrites, hone, Except.mapError]
      exact ⟨⟨_, by rw [hcall]⟩, by rw [hcall], by rw [hcall]⟩
  · have hcall : t.addrows casa passing n = (.error .overflowError, t) := by
      rw [addrows, toCInt, if_neg hint]
    exact ⟨⟨_, by rw [hcall]⟩, by rw [hcall], by rw [hcall]⟩

theorem adds_of_not_refuses (h : casa.Documented)
    (hrefuses : ¬ Refuses casa passing t n) : Adds casa passing t n := by
  simp only [Refuses, not_or, not_not, not_exists] at hrefuses
  obtain ⟨hlow, hhigh, hone, hopen, hthrows⟩ := hrefuses
  have hint : -2 ^ 31 ≤ n ∧ n < 2 ^ 31 := by omega
  have hclosed : t.isClosed = false := Bool.eq_false_iff.mpr hopen
  have hok : (addRow casa t.tp (passing.toSize n)).1 = .ok () := by
    cases hresult : (addRow casa t.tp (passing.toSize n)).1 with
    | error status => exact absurd hresult (hthrows status)
    | ok => rfl
  have hcall : t.addrows casa passing n = (.ok (),
      { t with tp := (addRow casa t.tp (passing.toSize n)).2 }) := by
    simp [addrows, show toCInt n = .ok n from if_pos hint, addRows,
      safeMultithreadedWrites, hone, checkClosed, hclosed, hok, Except.mapError]
  refine ⟨by rw [hcall], ?_, ⟨hclosed, by rw [hcall]; exact hclosed⟩, hint⟩
  rw [hcall]
  exact nrow_addRow h hok

-- ======================================================= what is right

/-- `nrow` returns the count, of a table that is open. -/
def Shown (casa : Casacore σ) (t : NewTableProxy σ) : Prop :=
  t.isClosed = false → t.nrow casa = .ok (rows casa t)

/-- The call raises an exception and leaves the count, or adds exactly
`n` rows. -/
def Counted (casa : Casacore σ) (passing : Passing) (t : NewTableProxy σ)
    (n : Int) : Prop :=
  match (t.addrows casa passing n).1 with
  | .error _ => rows casa (t.addrows casa passing n).2 = rows casa t
  | .ok () => (rows casa (t.addrows casa passing n).2 : Int) = rows casa t + n

/-- The new count is one that an `unsigned int` holds, and a negative
number has arrived as one. -/
def Fits (casa : Casacore σ) (passing : Passing) (t : NewTableProxy σ)
    (n : Int) : Prop :=
  0 ≤ rows casa t + n ∧ rows casa t + n < 2 ^ 32 ∧
    (passing = .asDeclared → 0 ≤ n)

theorem shown_iff : Shown casa t ↔ t.isClosed = false → rows casa t < 2 ^ 32 := by
  unfold Shown nrow nRows checkClosed
  cases t.isClosed with
  | true => simp
  | false =>
      simp only [Bool.false_eq_true, ↓reduceIte, forall_const, Except.ok.injEq]
      show rows casa t % 2 ^ 32 = rows casa t ↔ _
      omega

/-- What arrives of an `int`. -/
theorem toSize_asIs (hlow : -2 ^ 31 ≤ n) (hhigh : n < 2 ^ 31) :
    (Passing.asIs.toSize n : Int) = if 0 ≤ n then n else 2 ^ 64 + n := by
  show ((n % 2 ^ 64).toNat : Int) = _
  split <;> omega

theorem toSize_asDeclared (hlow : -2 ^ 31 ≤ n) (hhigh : n < 2 ^ 31) :
    (Passing.asDeclared.toSize n : Int) = if 0 ≤ n then n else 2 ^ 32 + n := by
  show ((n % 2 ^ 32).toNat : Int) = _
  split <;> omega

/-- A call that is not refused is counted, and the new count shown, only
if it fits. -/
theorem fits_of_counted (hadds : Adds casa passing t n)
    (hcounted : Counted casa passing t n)
    (hshown : Shown casa (t.addrows casa passing n).2) :
    Fits casa passing t n := by
  have hsmall := shown_iff.mp hshown hadds.isOpen.2
  unfold Counted at hcounted
  rw [hadds.returns] at hcounted
  simp only at hcounted
  have hrows := hadds.rows
  obtain ⟨hlow, hhigh⟩ := hadds.int
  refine ⟨by omega, by omega, fun hcast => ?_⟩
  subst hcast
  have hsize := toSize_asDeclared hlow hhigh
  split at hsize
  · assumption
  · omega

theorem counted_of_fits (hadds : Adds casa passing t n)
    (hfits : Fits casa passing t n) :
    (rows casa (t.addrows casa passing n).2 : Int) = rows casa t + n := by
  have hrows := hadds.rows
  obtain ⟨hlow, hhigh⟩ := hadds.int
  obtain ⟨hnonneg, hsmall, hcast⟩ := hfits
  cases passing with
  | asIs =>
      have hsize := toSize_asIs hlow hhigh
      split at hsize <;> omega
  | asDeclared =>
      have hsize := toSize_asDeclared hlow hhigh
      rw [if_pos (hcast rfl)] at hsize
      omega

-- =================================================== a series of calls

/-- Throughout a series of calls `nrow` returns the count, and each call
is counted. -/
structure CountsRight (casa : Casacore σ) (passing : Passing)
    (t : NewTableProxy σ) (calls : List Int) : Prop where
  shown : ∀ before, before <+: calls → Shown casa (t.addAll casa passing before)
  counted : ∀ before n, before ++ [n] <+: calls →
    Counted casa passing (t.addAll casa passing before) n

/-- The table after one more call. -/
theorem addAll_append (before : List Int) (n : Int) :
    t.addAll casa passing (before ++ [n])
      = ((t.addAll casa passing before).addrows casa passing n).2 := by
  simp [addAll]

/-- Every call that is not refused leads to a count that fits. -/
def AllFit (casa : Casacore σ) (passing : Passing) (t : NewTableProxy σ)
    (calls : List Int) : Prop :=
  ∀ before n, before ++ [n] <+: calls →
    Refuses casa passing (t.addAll casa passing before) n ∨
      Fits casa passing (t.addAll casa passing before) n

theorem allFit_nil : AllFit casa passing t [] := by
  intro before n hbefore
  have hnil := List.prefix_nil.mp hbefore
  simp at hnil

/-- The first call fits, and the others from the table it leads to. -/
theorem allFit_cons {calls : List Int} :
    AllFit casa passing t (n :: calls) ↔
      (Refuses casa passing t n ∨ Fits casa passing t n) ∧
        AllFit casa passing (t.addrows casa passing n).2 calls := by
  constructor
  · intro hfit
    refine ⟨hfit [] n (by simp), fun before m hbefore => ?_⟩
    exact hfit (n :: before) m (by simpa using hbefore)
  · intro hfit before m hbefore
    cases before with
    | nil =>
        obtain rfl : m = n := by simpa using hbefore
        exact hfit.1
    | cons k before =>
        obtain ⟨rfl, hrest⟩ : k = n ∧ before ++ [m] <+: calls := by
          simpa using hbefore
        exact hfit.2 before m hrest

/-- If all fit, every count is shown. -/
theorem shown_of_allFit (h : casa.Documented) {calls : List Int}
    (hsmall : t.isClosed = false → rows casa t < 2 ^ 32)
    (hfit : AllFit casa passing t calls) (before : List Int)
    (hbefore : before <+: calls) :
    Shown casa (t.addAll casa passing before) := by
  induction before using List.reverseRecOn with
  | nil => exact shown_iff.mpr hsmall
  | append_singleton before n ih =>
      have hshown := ih ((List.prefix_append _ _).trans hbefore)
      rw [shown_iff] at hshown ⊢
      rw [addAll_append]
      by_cases hrefuses : Refuses casa passing (t.addAll casa passing before) n
      · have hraises := raises_of_refuses h hrefuses
        rw [hraises.isClosed, hraises.rows]
        exact hshown
      · have hadds := adds_of_not_refuses h hrefuses
        have hfits := (hfit before n hbefore).resolve_left hrefuses
        have hcount := counted_of_fits hadds hfits
        have hlt := hfits.2.1
        intro _
        omega

/-- Row counts are right throughout a series of calls of `addrows` exactly
if the table starts with fewer than 2 ^ 32 rows and each call that it does
not refuse fits. -/
theorem counts_right_iff (h : casa.Documented) (passing : Passing)
    (t : NewTableProxy σ) (calls : List Int) :
    CountsRight casa passing t calls ↔
      (t.isClosed = false → rows casa t < 2 ^ 32) ∧
        AllFit casa passing t calls := by
  constructor
  · intro hright
    refine ⟨shown_iff.mp (hright.shown [] (List.nil_prefix)), fun before n hbefore => ?_⟩
    by_cases hrefuses : Refuses casa passing (t.addAll casa passing before) n
    · exact .inl hrefuses
    · right
      have hshown := hright.shown _ hbefore
      rw [addAll_append] at hshown
      exact fits_of_counted (adds_of_not_refuses h hrefuses)
        (hright.counted before n hbefore) hshown
  · intro hfit
    obtain ⟨hsmall, hfit⟩ := hfit
    refine ⟨shown_of_allFit h hsmall hfit, fun before n hbefore => ?_⟩
    unfold Counted
    by_cases hrefuses : Refuses casa passing (t.addAll casa passing before) n
    · have hraises := raises_of_refuses h hrefuses
      obtain ⟨e, he⟩ := hraises.raises
      rw [he]
      exact hraises.rows
    · have hadds := adds_of_not_refuses h hrefuses
      rw [hadds.returns]
      exact counted_of_fits hadds ((hfit before n hbefore).resolve_left hrefuses)

-- =============================================================== a table

/-- A table in memory that takes any number of rows, counted in 64 bits. -/
def memoryTable : Casacore (Fin (2 ^ 64)) where
  nrow := fun tp => tp.val
  isWritable := fun _ => true
  reopenRW := fun tp => (.ok (), tp)
  addRow := fun tp nrows => (.ok (), Fin.ofNat _ (tp.val + nrows))

theorem memoryTable_documented : memoryTable.Documented where
  nrow_reopenRW := fun _ => rfl
  nrow_addRow := fun _ _ _ => rfl
  nrow_addRow_throws := fun _ _ _ hthrows => by cases hthrows

/-- A new table, of one instance. -/
def newTable : NewTableProxy (Fin (2 ^ 64)) where
  tp := 0
  nInstances := 1
  isClosed := false

theorem counts_right_sample :
    CountsRight memoryTable .asIs newTable [10, 2 ^ 31, -10] := by
  refine (counts_right_iff memoryTable_documented .asIs newTable _).mpr
    ⟨fun _ => by decide, ?_⟩
  rw [allFit_cons, allFit_cons, allFit_cons]
  refine ⟨.inr ⟨by decide, by decide, fun hcast => by cases hcast⟩,
    .inl (.inr (.inl (by decide))),
    .inr ⟨by decide, by decide, fun hcast => by cases hcast⟩, allFit_nil⟩

/-- Three calls make 2 ^ 32 rows, and `nrow` says that there are none. -/
theorem nrow_wraps :
    rows memoryTable
        (newTable.addAll memoryTable .asIs [2 ^ 31 - 1, 2 ^ 31 - 1, 2])
      = 2 ^ 32 ∧
    (newTable.addAll memoryTable .asIs [2 ^ 31 - 1, 2 ^ 31 - 1, 2]).nrow
      memoryTable = .ok 0 ∧
    ¬ CountsRight memoryTable .asIs newTable [2 ^ 31 - 1, 2 ^ 31 - 1, 2] := by
  have hrows : rows memoryTable
      (newTable.addAll memoryTable .asIs [2 ^ 31 - 1, 2 ^ 31 - 1, 2])
        = 2 ^ 32 := by
    decide
  refine ⟨hrows, by rfl, fun hright => ?_⟩
  have hsmall := shown_iff.mp (hright.shown _ (List.prefix_refl _)) (by rfl)
  rw [hrows] at hsmall
  exact absurd hsmall (by decide)

end Arcae.NewTableProxy
