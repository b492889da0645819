/-
Boundaries aligned to storage units.

An alignment function is a division into units (`Units`) if it takes
each row to the first row of its unit, and the rows from there on are
in the same unit. Then it ascends, the binary searches of
`AlignBoundary` find what they look for, and each boundary is moved to
the nearest position between two units (`alignBoundary_nearest`). A row
dimension has one span of rows read from disk, so its pieces meet only
at such boundaries: two rows of one unit are in one piece
(`IsRowCuts.keeps_units`).
-/
import Arcae.Proofs.Partition
import Arcae.Proofs.Pieces
import Mathlib.Data.List.Flatten
import Mathlib.Order.Bounds.Basic
import Mathlib.Order.Lattice.Nat
import Mathlib.Data.List.GetD

namespace Arcae

open Loops

-- ====================================================== the binary search

/-- The halving search finds the end of the leading part of a range
where an ordered predicate holds. -/
theorem partitionPoint_spec {pred : Nat → Bool} :
    ∀ {fuel first len : Nat}, len ≤ fuel →
      (∀ a b, first ≤ a → a ≤ b → b < first + len → pred b = true →
        pred a = true) →
      first ≤ partitionPoint pred fuel first len
        ∧ partitionPoint pred fuel first len ≤ first + len
        ∧ (∀ q, first ≤ q → q < partitionPoint pred fuel first len →
            pred q = true)
        ∧ ∀ q, partitionPoint pred fuel first len ≤ q → q < first + len →
            pred q = false := by
  intro fuel
  induction fuel with
  | zero =>
      intro first len hlen _
      rw [partitionPoint]
      exact ⟨Nat.le_refl _, by omega, by omega, by omega⟩
  | succ fuel ih =>
      intro first len hlen hord
      rw [partitionPoint]
      by_cases hzero : len = 0
      · rw [if_pos hzero]
        exact ⟨Nat.le_refl _, by omega, by omega, by omega⟩
      · rw [if_neg hzero]
        dsimp only
        cases hpred : pred (first + len / 2) with
        | true =>
            obtain ⟨hlo, hhi, hin, hout⟩ := @ih (first + len / 2 + 1)
              (len - len / 2 - 1) (by omega)
              fun a b ha hab hb => hord a b (by omega) hab (by omega)
            rw [if_pos rfl]
            refine ⟨by omega, by omega, fun q hq hlt => ?_,
              fun q hq hlt => hout q hq (by omega)⟩
            rcases Nat.lt_or_ge (first + len / 2) q with hright | hleft
            · exact hin q hright hlt
            · exact hord q _ hq hleft (by omega) hpred
        | false =>
            obtain ⟨hlo, hhi, hin, hout⟩ := @ih first (len / 2) (by omega)
              fun a b ha hab hb => hord a b ha hab (by omega)
            rw [if_neg (by simp)]
            refine ⟨hlo, by omega, hin, fun q hq hlt => ?_⟩
            rcases Nat.lt_or_ge q (first + len / 2) with hleft | hright
            · exact hout q hq hleft
            · cases hq' : pred q with
              | false => rfl
              | true =>
                  rw [hord _ q (by omega) hright hlt hq'] at hpred
                  cases hpred

-- ================================================================ the units

/-- A division of the rows into units: each row is taken to the first
row of its unit, and so is every row between the two. -/
structure Units (unitStart : RowUnitStart) : Prop where
  le : ∀ row, unitStart row ≤ row
  same : ∀ row row', unitStart row ≤ row' → row' ≤ row →
    unitStart row' = unitStart row

/-- The units ascend. -/
theorem Units.mono {unitStart : RowUnitStart} (h : Units unitStart)
    {row row' : Nat} (hle : row ≤ row') : unitStart row ≤ unitStart row' := by
  rcases Nat.lt_or_ge row (unitStart row') with hlt | hge
  · exact Nat.le_trans (h.le row) (Nat.le_of_lt hlt)
  · exact Nat.le_of_eq (h.same row' row hge hle)

/-- A boundary among some rows falls between two units. -/
def BetweenUnits (unitStart : RowUnitStart) (rowAt : Nat → Int) (e : Nat) :
    Prop :=
  unitStart (rowAt (e - 1)).toNat < unitStart (rowAt e).toNat

-- ====================================================== the nearest boundary

/-- The positions of the rows in the unit of the row at `p`. -/
def unitPositions (unitStart : RowUnitStart) (rowAt : Nat → Int)
    (nrows p : Nat) : Set Nat :=
  {q | q < nrows ∧ unitStart (rowAt q).toNat = unitStart (rowAt p).toNat}

/-- The positions of the rows in later units than the row at `p`, and
the end. -/
def laterPositions (unitStart : RowUnitStart) (rowAt : Nat → Int)
    (nrows p : Nat) : Set Nat :=
  {q | q < nrows ∧ unitStart (rowAt p).toNat < unitStart (rowAt q).toNat
    ∨ q = nrows}

/-- Where the boundary before position `p` belongs: at the first
position of the unit of the row at `p`, or at the first after that unit,
whichever is nearer; in a tie, the former. -/
def IsNearest (unitStart : RowUnitStart) (rowAt : Nat → Int)
    (nrows p e : Nat) : Prop :=
  ∃ down next, IsLeast (unitPositions unitStart rowAt nrows p) down
    ∧ IsLeast (laterPositions unitStart rowAt nrows p) next
    ∧ e = if p - down ≤ next - p then down else next

section Nearest

variable {unitStart : RowUnitStart} {rowAt : Nat → Int} {nrows : Nat}

/-- The rows read from disk ascend strictly. -/
def RowsAscend (rowAt : Nat → Int) (nrows : Nat) : Prop :=
  ∀ a b, a < b → b < nrows → (rowAt a).toNat < (rowAt b).toNat

theorem RowsAscend.units (hasc : RowsAscend rowAt nrows) (h : Units unitStart)
    {a b : Nat} (hab : a ≤ b) (hb : b < nrows) :
    unitStart (rowAt a).toNat ≤ unitStart (rowAt b).toNat := by
  rcases Nat.lt_or_eq_of_le hab with hlt | rfl
  · exact h.mono (Nat.le_of_lt (hasc a b hlt hb))
  · exact Nat.le_refl _

/-- What comes after a unit is after the positions of its rows. -/
theorem RowsAscend.lt_later (hasc : RowsAscend rowAt nrows)
    (h : Units unitStart) {p q next : Nat}
    (hq : q ∈ unitPositions unitStart rowAt nrows p)
    (hnext : next ∈ laterPositions unitStart rowAt nrows p) : q < next := by
  obtain ⟨hlt, hsame⟩ := hq
  rcases hnext with ⟨hin, hlater⟩ | rfl
  · by_contra hle
    have := hasc.units h (Nat.le_of_not_lt hle) hlt
    omega
  · exact hlt

/-- The boundary is moved to the nearest position between two units. -/
theorem alignBoundary_nearest (h : Units unitStart)
    (hasc : RowsAscend rowAt nrows) {p : Nat} (hp : p < nrows) :
    IsNearest unitStart rowAt nrows p
      (alignBoundary p nrows rowAt unitStart) := by
  -- a row that starts no unit is not in it
  have hbefore : ∀ q ∈ unitPositions unitStart rowAt nrows p,
      unitStart (rowAt p).toNat ≤ (rowAt q).toNat := by
    intro q hq
    rw [← hq.2]
    exact h.le _
  unfold alignBoundary
  dsimp only
  by_cases hfirst : unitStart (rowAt p).toNat = (rowAt p).toNat
  · rw [if_pos hfirst]
    have hdown : IsLeast (unitPositions unitStart rowAt nrows p) p := by
      refine ⟨⟨hp, rfl⟩, fun q hq => ?_⟩
      by_contra hlt
      have := hasc q p (Nat.lt_of_not_le hlt) hp
      have := hbefore q hq
      omega
    have hend : (laterPositions unitStart rowAt nrows p).Nonempty :=
      ⟨nrows, .inr rfl⟩
    refine ⟨p, sInf (laterPositions unitStart rowAt nrows p), hdown,
      ⟨Nat.sInf_mem hend, fun q hq => Nat.sInf_le hq⟩, ?_⟩
    rw [Nat.sub_self, if_pos (Nat.zero_le _)]
  · rw [if_neg hfirst]
    obtain ⟨-, hdle, hdin, hdout⟩ := @partitionPoint_spec
      (fun q => decide ((rowAt q).toNat < unitStart (rowAt p).toNat))
      p 0 p (Nat.le_refl _) (by
        intro a b _ hab hb hlt
        rw [decide_eq_true_eq] at hlt ⊢
        rcases Nat.lt_or_ge a b with hab' | hge
        · have := hasc a b hab' (by omega)
          omega
        · rwa [Nat.le_antisymm hab hge])
    obtain ⟨hnlo, hnle, hnin, hnout⟩ := @partitionPoint_spec
      (fun q => !decide (unitStart (rowAt p).toNat
        < unitStart (rowAt q).toNat))
      (nrows - (p + 1)) (p + 1) (nrows - (p + 1))
      (Nat.le_refl _) (by
        intro a b _ hab hb hle
        rw [Bool.not_eq_true', decide_eq_false_iff_not] at hle ⊢
        have := hasc.units h hab (by omega)
        omega)
    refine ⟨_, _, ⟨?_, fun q hq => ?_⟩, ⟨?_, fun q hq => ?_⟩, rfl⟩
    · -- the first row from the unit's start on is at or before `p`
      rcases Nat.lt_or_ge (partitionPoint (fun q => decide
        ((rowAt q).toNat < unitStart (rowAt p).toNat)) p 0 p) p with hlt | hge
      · have hat := of_decide_eq_false (hdout _ (Nat.le_refl _) (by omega))
        refine ⟨by omega, h.same _ _ (Nat.le_of_not_lt hat) ?_⟩
        exact Nat.le_of_lt (hasc _ p hlt hp)
      · rw [Nat.le_antisymm (by omega) hge]
        exact ⟨hp, rfl⟩
    · by_contra hlt
      have hrow := of_decide_eq_true
        (hdin q (Nat.zero_le _) (Nat.lt_of_not_le hlt))
      exact absurd (hbefore q hq) (Nat.not_le_of_lt hrow)
    · rcases Nat.lt_or_ge (partitionPoint (fun q => !decide
        (unitStart (rowAt p).toNat < unitStart (rowAt q).toNat))
        (nrows - (p + 1)) (p + 1) (nrows - (p + 1))) nrows with hlt | hge
      · have hat := hnout _ (Nat.le_refl _) (by omega)
        rw [Bool.not_eq_false', decide_eq_true_eq] at hat
        exact .inl ⟨hlt, hat⟩
      · exact .inr (by omega)
    · by_contra hlt
      have hpq := hasc.lt_later h ⟨hp, rfl⟩ hq
      have hrow := hnin q hpq (Nat.lt_of_not_le hlt)
      rw [Bool.not_eq_true', decide_eq_false_iff_not] at hrow
      rcases hq with ⟨-, hlater⟩ | rfl
      · exact hrow hlater
      · omega

/-- There is one nearest position. -/
theorem IsNearest.unique {p e e' : Nat}
    (he : IsNearest unitStart rowAt nrows p e)
    (he' : IsNearest unitStart rowAt nrows p e') : e = e' := by
  obtain ⟨down, next, hdown, hnext, rfl⟩ := he
  obtain ⟨down', next', hdown', hnext', rfl⟩ := he'
  rw [hdown.unique hdown', hnext.unique hnext']

/-- Boundaries that ascend are moved to positions that ascend. -/
theorem IsNearest.mono (h : Units unitStart) (hasc : RowsAscend rowAt nrows)
    {p p' e e' : Nat} (hle : p ≤ p') (hp' : p' < nrows)
    (he : IsNearest unitStart rowAt nrows p e)
    (he' : IsNearest unitStart rowAt nrows p' e') : e ≤ e' := by
  obtain ⟨down, next, hdown, hnext, rfl⟩ := he
  obtain ⟨down', next', hdown', hnext', rfl⟩ := he'
  have hp : p ∈ unitPositions unitStart rowAt nrows p := ⟨by omega, rfl⟩
  have hlo := hdown.2 hp
  have hlt := hasc.lt_later h hp hnext.1
  have hlo' := hdown'.2 ⟨hp', rfl⟩
  have hlt' := hasc.lt_later h ⟨hp', rfl⟩ hnext'.1
  rcases Nat.lt_or_eq_of_le (hasc.units h hle hp') with hunit | hunit
  · -- the later unit starts at or after the end of the earlier one
    have hstart : next ≤ down' := by
      refine hnext.2 (.inl ⟨hdown'.1.1, ?_⟩)
      rw [hdown'.1.2]
      exact hunit
    split <;> split <;> omega
  · have hsame : unitPositions unitStart rowAt nrows p
        = unitPositions unitStart rowAt nrows p' := by
      unfold unitPositions
      rw [hunit]
    have hsame' : laterPositions unitStart rowAt nrows p
        = laterPositions unitStart rowAt nrows p' := by
      unfold laterPositions
      rw [hunit]
    have hdeq : down = down' := hdown.unique (hsame ▸ hdown')
    have hneq : next = next' := hnext.unique (hsame' ▸ hnext')
    split <;> split <;> omega

/-- The nearest position inside the rows is between two units. -/
theorem IsNearest.between (h : Units unitStart)
    (hasc : RowsAscend rowAt nrows) {p e : Nat}
    (he : IsNearest unitStart rowAt nrows p e) (hlo : 0 < e)
    (hhi : e < nrows) : BetweenUnits unitStart rowAt e := by
  have hstep := hasc.units h (Nat.sub_le e 1) hhi
  have hpred : e - 1 < e := Nat.sub_lt hlo Nat.one_pos
  unfold BetweenUnits
  obtain ⟨down, next, hdown, hnext, heq⟩ := he
  by_cases hnear : p - down ≤ next - p
  · rw [if_pos hnear] at heq
    subst heq
    have hout : e - 1 ∉ unitPositions unitStart rowAt nrows p :=
      fun hin => absurd (hdown.2 hin) (Nat.not_le_of_lt hpred)
    have hunit := hdown.1.2
    refine Nat.lt_of_le_of_ne hstep fun hsame => hout ⟨by omega, ?_⟩
    rw [hsame, hunit]
  · rw [if_neg hnear] at heq
    subst heq
    have hout : e - 1 ∉ laterPositions unitStart rowAt nrows p :=
      fun hin => absurd (hnext.2 hin) (Nat.not_le_of_lt hpred)
    rcases hnext.1 with ⟨-, hlater⟩ | hend
    · by_contra hge
      exact hout (.inl ⟨by omega, by omega⟩)
    · omega

end Nearest

/-- Of boundaries that ascend, those after the last end and inside the
rows are kept. -/
theorem mem_foldl_addEnd {nrows : Nat} {candidates : List Nat}
    (hasc : candidates.Pairwise (· ≤ ·)) {es : List Nat} {e : Nat} :
    e ∈ candidates.foldl (addEnd nrows) es
      ↔ e ∈ es ∨ e ∈ candidates ∧ es.getLastD 0 < e ∧ e < nrows := by
  induction candidates generalizing es with
  | nil => simp
  | cons c candidates ih =>
      obtain ⟨hfirst, hrest⟩ := List.pairwise_cons.mp hasc
      rw [List.foldl_cons, ih hrest, List.mem_cons]
      unfold addEnd
      by_cases hkeep : es.getLastD 0 < c ∧ c < nrows
      · rw [if_pos hkeep, List.getLastD_concat, List.mem_append,
          List.mem_singleton]
        constructor
        · intro hx
          obtain ((he | rfl) | ⟨he, hlt, hin⟩) := hx
          · exact .inl he
          · exact .inr ⟨.inl rfl, hkeep⟩
          · exact .inr ⟨.inr he, by omega, hin⟩
        · intro hx
          obtain (he | ⟨rfl | he, hlt, hin⟩) := hx
          · exact .inl (.inl he)
          · exact .inl (.inr rfl)
          · rcases Nat.lt_or_eq_of_le (hfirst e he) with hce | rfl
            · exact .inr ⟨he, hce, hin⟩
            · exact .inl (.inr rfl)
      · rw [if_neg hkeep]
        refine or_congr_right ⟨fun ⟨he, hin⟩ => ⟨.inr he, hin⟩, ?_⟩
        intro hx
        obtain ⟨rfl | he, hin⟩ := hx
        · exact absurd hin hkeep
        · exact ⟨he, hin⟩

/-- The even boundary of a piece is inside the rows. -/
theorem even_lt {nrows nsplits split : Nat} (hsplit : split < nsplits)
    (hpos : 0 < nrows) : split * nrows / nsplits < nrows := by
  rw [Nat.div_lt_iff_lt_mul (by omega), Nat.mul_comm]
  exact Nat.mul_lt_mul_of_pos_left hsplit hpos

/-- The boundaries kept are those nearest to the even ones, inside the
rows. -/
theorem mem_pieceBounds {unitStart : RowUnitStart} (h : Units unitStart)
    {rowAt : Nat → Int} {nrows nsplits : Nat} (hasc : RowsAscend rowAt nrows)
    (hpos : 0 < nrows) {e : Nat} :
    e ∈ pieceBounds nrows nsplits rowAt (some unitStart)
      ↔ 0 < e ∧ e < nrows ∧ ∃ split, 1 ≤ split ∧ split < nsplits
        ∧ IsNearest unitStart rowAt nrows (split * nrows / nsplits) e := by
  have hnear : ∀ split, split < nsplits →
      IsNearest unitStart rowAt nrows (split * nrows / nsplits)
        (pieceEnd nrows nsplits rowAt (some unitStart) split) :=
    fun split hsplit => alignBoundary_nearest h hasc (even_lt hsplit hpos)
  have hsorted : ((List.range' 1 (nsplits - 1)).map
      (pieceEnd nrows nsplits rowAt (some unitStart))).Pairwise (· ≤ ·) := by
    rw [List.pairwise_map]
    refine List.Pairwise.imp_of_mem (fun {a b} ha hb hab => ?_)
      (List.pairwise_lt_range' (s := 1) (n := nsplits - 1))
    have ha' := List.mem_range'_1.mp ha
    have hb' := List.mem_range'_1.mp hb
    have hle : a * nrows / nsplits ≤ b * nrows / nsplits :=
      Nat.div_le_div_right (Nat.mul_le_mul_right _ (Nat.le_of_lt hab))
    exact (hnear a (by omega)).mono h hasc hle (even_lt (by omega) hpos)
      (hnear b (by omega))
  unfold pieceBounds
  rw [mem_foldl_addEnd hsorted]
  constructor
  · intro hx
    obtain (hnil | ⟨he, hlo, hhi⟩) := hx
    · cases hnil
    · obtain ⟨split, hsplit, rfl⟩ := List.mem_map.mp he
      have hrange := List.mem_range'_1.mp hsplit
      exact ⟨hlo, hhi, split, hrange.1, by omega, hnear split (by omega)⟩
  · intro hx
    obtain ⟨hlo, hhi, split, hone, hlt, he⟩ := hx
    refine .inr ⟨List.mem_map.mpr ⟨split, ?_, ?_⟩, hlo, hhi⟩
    · exact List.mem_range'_1.mpr ⟨hone, by omega⟩
    · exact (hnear split hlt).unique he

/-- The pieces of ascending rows meet between two units. -/
theorem pieceBounds_between {unitStart : RowUnitStart} (h : Units unitStart)
    {rowAt : Nat → Int} {nrows nsplits : Nat} (hasc : RowsAscend rowAt nrows)
    {e : Nat} (he : e ∈ pieceBounds nrows nsplits rowAt (some unitStart)) :
    BetweenUnits unitStart rowAt e := by
  obtain ⟨hlo, hhi⟩ := (pieceBounds_ascending nrows nsplits rowAt
    (some unitStart)).2 e he
  obtain ⟨-, -, split, -, -, hnear⟩ :=
    (mem_pieceBounds h hasc (by omega)).mp he
  exact hnear.between h hasc hlo hhi

-- =============================================== the rows read, as one span

theorem SpanPairs.Signed.of_cut {span : SpanPair} {e : Bool} {parts : SpanPairs}
    (h : CutSpans span e parts) : parts.Signed :=
  fun s hs => (h.run s hs).sign

/-- A span with a row that exists is of rows read from disk. -/
theorem SpanPairs.Signed.isRead {spans : SpanPairs} (h : spans.Signed)
    {s : SpanPair} (hs : s ∈ spans) {r : Int} (hr : r ∈ s.disk) (hpos : 0 ≤ r) :
    s.isRead = true := by
  rcases h s hs with hneg | hnn
  · have := hneg r hr
    omega
  · exact (SpanPair.rowsRead_of_nonneg hnn (List.ne_nil_of_mem hr)).2

/-- The rows of the spans read from disk are the non-negative rows. -/
theorem SpanPairs.Signed.read_disk {spans : SpanPairs} (h : spans.Signed) :
    (spans.filter SpanPair.isRead).flatMap SpanPair.disk
      = (spans.flatMap SpanPair.disk).filter fun i => decide (0 ≤ i) := by
  induction spans with
  | nil => rfl
  | cons s spans ih =>
      have hrest := ih fun s' hs' => h s' (List.mem_cons_of_mem _ hs')
      rw [List.flatMap_cons, List.filter_append, ← hrest]
      rcases h s List.mem_cons_self with hneg | hpos
      · have hnone : s.disk.filter (fun i => decide (0 ≤ i)) = [] := by
          rw [List.filter_eq_nil_iff]
          intro i hi
          have := hneg i hi
          simpa using this
        rw [List.filter_cons_of_neg
          (by simp [(SpanPair.rowsRead_of_neg hneg).2]), hnone, List.nil_append]
      · have hall : s.disk.filter (fun i => decide (0 ≤ i)) = s.disk :=
          List.filter_eq_self.mpr fun i hi => decide_eq_true (hpos i hi)
        rw [hall]
        by_cases hnil : s.disk = []
        · have hread : s.isRead = false := by
            obtain ⟨disk, mem⟩ := s
            subst hnil
            rfl
          rw [List.filter_cons_of_neg (by simp [hread]), hnil, List.nil_append]
        · rw [List.filter_cons_of_pos (SpanPair.rowsRead_of_nonneg hpos hnil).2,
            List.flatMap_cons]

/-- The row dimension has at most one span of rows read from disk. -/
theorem one_read {span : SpanPair} {ids : Index} (harr : Arranged span ids)
    {parts : SpanPairs} (hparts : makeSubSpans span true = .ok parts) :
    (parts.filter SpanPair.isRead).length ≤ 1 := by
  obtain ⟨hcut, -⟩ := makeSubSpans_ok harr.length_eq harr.sorted hparts
  have hentire := makeSubSpans_entire harr.length_eq harr.sorted hparts
  have hnodup : span.pairs.Nodup := by
    refine harr.perm.nodup_iff.mpr (List.Nodup.of_map Prod.snd ?_)
    rw [indexed_map_snd]
    exact List.nodup_range
  match hread : parts.filter SpanPair.isRead with
  | [] => exact Nat.zero_le _
  | [_] => exact Nat.le_refl _
  | s₁ :: s₂ :: rest =>
      exfalso
      have hsub : (s₁ :: s₂ :: rest).Sublist parts := hread ▸ List.filter_sublist
      have hlive : ∀ s ∈ s₁ :: s₂ :: rest,
          ∃ p ∈ s.pairs, 0 ≤ p.1 ∧ p ∈ span.pairs ∧ p.1 ∈ s.disk := by
        intro s hs
        have hmem := List.mem_filter.mp (hread ▸ hs)
        have hlen := hcut.length_eq s hmem.1
        obtain ⟨disk, mem⟩ := s
        cases disk with
        | nil => cases hmem.2
        | cons i is =>
            cases mem with
            | nil => cases hlen
            | cons m ms =>
                refine ⟨(i, m), List.mem_cons_self, of_decide_eq_true hmem.2,
                  ?_, List.mem_cons_self⟩
                rw [← hcut.pairs_eq]
                exact List.mem_flatten.mpr
                  ⟨_, List.mem_map_of_mem hmem.1, List.mem_cons_self⟩
      -- both spans hold the first live pair of the second
      obtain ⟨q, -, hq0, -, hqd⟩ := hlive s₁ List.mem_cons_self
      obtain ⟨p, hp, hp0, hpspan, -⟩ := hlive s₂ (by simp)
      have hp₁ := hentire s₁ (hsub.subset List.mem_cons_self) ⟨_, hqd, hq0⟩ p
        hpspan hp0
      have hflat : (s₁.pairs ++ s₂.pairs).Sublist span.pairs := by
        rw [← hcut.pairs_eq]
        have := (hsub.map SpanPair.pairs).flatten
        rw [List.map_cons, List.map_cons, List.flatten_cons, List.flatten_cons,
          ← List.append_assoc] at this
        exact (List.sublist_append_left _ _).trans this
      exact (List.nodup_append.mp (hnodup.sublist hflat)).2.2 p hp₁ p hp rfl

/-- Rows that are not split are in one span. -/
theorem one_read_eq {span : SpanPair} {ids : Index} (harr : Arranged span ids)
    {parts : SpanPairs} (hparts : makeSubSpans span true = .ok parts)
    {s s' : SpanPair} (hs : s ∈ parts) (hs' : s' ∈ parts) {r r' : Int}
    (hr : r ∈ s.disk) (hr' : r' ∈ s'.disk) (hr0 : 0 ≤ r) (hr0' : 0 ≤ r') :
    s = s' := by
  obtain ⟨hcut, -⟩ := makeSubSpans_ok harr.length_eq harr.sorted hparts
  have hsign := SpanPairs.Signed.of_cut hcut
  have hmem := List.mem_filter.mpr ⟨hs, hsign.isRead hs hr hr0⟩
  have hmem' := List.mem_filter.mpr ⟨hs', hsign.isRead hs' hr' hr0'⟩
  match hread : parts.filter SpanPair.isRead, one_read harr hparts with
  | [], _ =>
      rw [hread] at hmem
      cases hmem
  | [s₀], _ =>
      rw [hread] at hmem hmem'
      rw [List.mem_singleton.mp hmem, List.mem_singleton.mp hmem']
  | _ :: _ :: _, hlen => exact absurd hlen (by simp)

/-- The spans the alignment looks in, and where each starts. -/
theorem readSpans_eq (spans : SpanPairs) :
    readSpans spans
      = (((spans.filter SpanPair.isRead).map fun s => s.disk.length).scanl
          (· + ·) 0).zip ((spans.filter SpanPair.isRead).map SpanPair.disk) := by
  unfold readSpans
  dsimp only
  rw [List.filter_map, List.filter_congr (q := SpanPair.isRead), List.map_map]
  · rfl
  · intro s _
    obtain ⟨disk, mem⟩ := s
    cases disk with
    | nil => rfl
    | cons i is =>
        refine Bool.eq_iff_iff.mpr ?_
        simp [SpanPair.isRead]

/-- The position of the first row of span `q`. -/
theorem scanl_lengths_getD (lists : List (List Int)) :
    ∀ (a q : Nat), q ≤ lists.length →
      ((lists.map List.length).scanl (· + ·) a).getD q 0
        = a + ((lists.take q).flatten).length := by
  induction lists with
  | nil =>
      intro a q hq
      rw [Nat.le_zero.mp hq]
      rfl
  | cons l lists ih =>
      intro a q hq
      cases q with
      | zero => simp
      | succ q =>
          rw [List.map_cons, List.scanl_cons, List.getD_cons_succ,
            ih (a + l.length) q (by simpa using hq), List.take_succ_cons,
            List.flatten_cons, List.length_append, Nat.add_assoc]

/-- A position of some lists in turn lies in the last one that starts at
or before it. -/
theorem flatten_getD_of_start {lists : List (List Int)} {s p : Nat}
    (hs : s < lists.length) (hlo : (lists.take s).flatten.length ≤ p)
    (hhi : s + 1 < lists.length → p < (lists.take (s + 1)).flatten.length) :
    lists.flatten.getD p 0
      = (lists.getD s []).getD (p - (lists.take s).flatten.length) 0 := by
  have hsplit : lists.flatten
      = (lists.take s).flatten ++ lists[s] ++ (lists.drop (s + 1)).flatten := by
    have hflat := congrArg List.flatten (List.take_append_drop s lists)
    rw [List.flatten_append, List.drop_eq_getElem_cons hs,
      List.flatten_cons, ← List.append_assoc] at hflat
    exact hflat.symm
  have htake : (lists.take (s + 1)).flatten.length
      = (lists.take s).flatten.length + lists[s].length := by
    rw [List.take_add_one, List.getElem?_eq_getElem hs, Option.toList_some,
      List.flatten_append, List.length_append, List.flatten_singleton]
  rw [hsplit, List.append_assoc, List.getD_append_right _ _ _ _ hlo,
    List.getD_eq_getElem _ _ hs]
  by_cases hlast : s + 1 < lists.length
  · have hlt := hhi hlast
    rw [List.getD_append _ _ _ _ (by omega)]
  · rw [List.drop_eq_nil_of_le (Nat.le_of_not_lt hlast), List.flatten_nil,
      List.append_nil]

/-- The rows the alignment sees are the rows read from disk, in turn. -/
theorem rowAt_readSpans (spans : SpanPairs) (p : Nat) :
    rowAt (readSpans spans) p
      = ((spans.filter SpanPair.isRead).flatMap SpanPair.disk).getD p 0 := by
  rw [readSpans_eq, List.flatMap_def]
  have hmap : (spans.filter SpanPair.isRead).map (fun s => s.disk.length)
      = ((spans.filter SpanPair.isRead).map SpanPair.disk).map List.length := by
    rw [List.map_map]
    rfl
  rw [hmap]
  generalize (spans.filter SpanPair.isRead).map SpanPair.disk = lists
  have hlen : (((lists.map List.length).scanl (· + ·) 0).zip lists).length
      = lists.length := by
    rw [List.length_zip, List.length_scanl, List.length_map]
    exact Nat.min_eq_right (Nat.le_succ _)
  have hstarts : (((lists.map List.length).scanl (· + ·) 0).zip lists).map
      Prod.fst
        = ((lists.map List.length).scanl (· + ·) 0).take lists.length := by
    refine List.ext_getElem (by simp) fun q h₁ h₂ => ?_
    rw [List.getElem_map, List.getElem_zip, List.getElem_take]
  have hstart : ∀ q < lists.length,
      (((lists.map List.length).scanl (· + ·) 0).take lists.length).getD q 0
        = (lists.take q).flatten.length := by
    intro q hq
    have h := scanl_lengths_getD lists 0 q (Nat.le_of_lt hq)
    rw [Nat.zero_add, List.getD_eq_getElem?_getD] at h
    rw [List.getD_eq_getElem?_getD, List.getElem?_take_of_lt hq, h]
  unfold rowAt
  simp only [hstarts, List.length_take, List.length_scanl, List.length_map,
    Nat.min_eq_left (Nat.le_succ lists.length)]
  by_cases hnil : lists = []
  · subst hnil
    rfl
  · have hpos : 0 < lists.length := List.length_pos_of_ne_nil hnil
    have hmono : ∀ a b : Nat, a ≤ b →
        (lists.take a).flatten.length ≤ (lists.take b).flatten.length := by
      intro a b hab
      have hpre : (lists.take a).flatten.Sublist (lists.take b).flatten :=
        (List.take_sublist_take_left hab).flatten
      exact hpre.length_le
    obtain ⟨-, hhi, hin, hout⟩ := @partitionPoint_spec
      (fun q => decide ((((lists.map List.length).scanl (· + ·) 0).take
        lists.length).getD q 0 ≤ p)) lists.length 0 lists.length
      (Nat.le_refl _) (by
        intro a b _ hab hb hle
        rw [decide_eq_true_eq, hstart b (by omega)] at hle
        rw [decide_eq_true_eq, hstart a (by omega)]
        exact Nat.le_trans (hmono a b hab) hle)
    generalize partitionPoint _ lists.length 0 lists.length = t
      at hhi hin hout ⊢
    -- the first span starts at the first position
    have ht : 0 < t := by
      rcases Nat.eq_zero_or_pos t with rfl | ht
      · have := of_decide_eq_false (hout 0 (Nat.le_refl _) (by omega))
        rw [hstart 0 hpos] at this
        exact absurd (Nat.zero_le p) this
      · exact ht
    have hs : t - 1 < lists.length := by omega
    have hlo := of_decide_eq_true (hin (t - 1) (Nat.zero_le _) (by omega))
    rw [hstart _ hs] at hlo
    rw [flatten_getD_of_start hs hlo, List.getElem?_eq_getElem (hlen ▸ hs)]
    · rw [List.getElem_zip, List.getD_eq_getElem _ _ hs]
      have hscan := scanl_lengths_getD lists 0 (t - 1) (Nat.le_of_lt hs)
      rw [Nat.zero_add, List.getD_eq_getElem _ _ (by simp; omega)] at hscan
      simp only [hscan]
    · intro hnext
      have := of_decide_eq_false (hout (t - 1 + 1) (by omega) (by omega))
      rw [hstart _ hnext] at this
      omega

-- ======================================================== the pieces, met

/-- Spans end where they can be taken apart. -/
theorem mem_endsFrom {spans : SpanPairs} {position q : Nat} :
    q ∈ endsFrom position spans ↔ ∃ front back, spans = front ++ back
      ∧ front ≠ [] ∧ q = position + (front.flatMap SpanPair.disk).length := by
  induction spans generalizing position with
  | nil =>
      rw [endsFrom_nil]
      constructor
      · intro h
        cases h
      · intro hx
        obtain ⟨front, back, h, hne, -⟩ := hx
        exact absurd (List.append_eq_nil_iff.mp h.symm).1 hne
  | cons s spans ih =>
      rw [endsFrom_cons, List.mem_cons, ih]
      constructor
      · intro hx
        obtain (rfl | ⟨front, back, rfl, -, rfl⟩) := hx
        · exact ⟨[s], spans, rfl, List.cons_ne_nil _ _, by simp⟩
        · refine ⟨s :: front, back, rfl, List.cons_ne_nil _ _, ?_⟩
          rw [List.flatMap_cons, List.length_append, Nat.add_assoc]
      · intro hx
        obtain ⟨front, back, h, hne, rfl⟩ := hx
        cases front with
        | nil => exact absurd rfl hne
        | cons s' front =>
            rw [List.cons_append, List.cons.injEq] at h
            obtain ⟨rfl, rfl⟩ := h
            rw [List.flatMap_cons, List.length_append, ← Nat.add_assoc]
            cases front with
            | nil => exact .inl (by simp)
            | cons s' front =>
                exact .inr ⟨s' :: front, back, rfl, List.cons_ne_nil _ _, rfl⟩

/-- Two spans of some meet at an end between them. -/
theorem exists_end_between {spans : SpanPairs} {s s' : SpanPair}
    (hs : s ∈ spans) (hs' : s' ∈ spans) (hne : s ≠ s') :
    ∃ front back, spans = front ++ back ∧ front ≠ []
      ∧ (s ∈ front ∧ s' ∈ back ∨ s' ∈ front ∧ s ∈ back) := by
  obtain ⟨front, back, rfl⟩ := List.append_of_mem hs
  rcases List.mem_append.mp hs' with hfront | hback
  · refine ⟨front, s :: back, rfl, List.ne_nil_of_mem hfront, .inr ⟨hfront, ?_⟩⟩
    exact List.mem_cons_self
  · refine ⟨front ++ [s], back, by simp, by simp, .inl ⟨by simp, ?_⟩⟩
    rcases List.mem_cons.mp hback with rfl | hback
    · exact absurd rfl hne
    · exact hback

-- ===================================================== the rows of a result

section RowCuts

variable {sel : Selection} {rs : ResultShapeData} {opt : RowSplitOptions}
  {rowCuts : SpanPairs}

/-- How the rows of a plain result are cut: their sub-spans, if they are
not to be split, and otherwise those split in turn. The bytes of a row
are only computed where the options allow a split. -/
theorem IsRowCuts.cases (h : IsRowCuts sel rs opt rowCuts) :
    ∃ span parts rowBytes, Arranged span (rowIds sel rs)
      ∧ makeSubSpans span true = .ok parts
      ∧ (1 < opt.maxSplits → ∃ size cuts, casaDataTypeSize rs.dtype = .ok size
        ∧ List.Forall₂ (fun ids spans => ∃ w, Arranged w ids
            ∧ CutSpans w false spans) (secondaryIds sel rs 0) cuts
        ∧ rowBytes = size * (cuts.map fun spans =>
            (spans.map fun span => span.disk.length).sum).prod)
      ∧ ((opt.maxSplits ≤ 1 ∨ DataPartition.splitCount opt
            (DataPartition.readRows parts) rowBytes ≤ 1) ∧ rowCuts = parts
        ∨ ∃ groups, (1 < opt.maxSplits ∧ 1 < DataPartition.splitCount opt
            (DataPartition.readRows parts) rowBytes)
          ∧ rowCuts = groups.flatten
          ∧ SplitGroups (pieceEnds (DataPartition.readRows parts)
              (DataPartition.splitCount opt (DataPartition.readRows parts) rowBytes)
              (rowAt (readSpans parts)) opt.unitStart) 0 parts groups) := by
  obtain ⟨span, parts, cuts, harr, hparts, hcuts, hsplit, -⟩ := h
  obtain ⟨hcut, -⟩ := makeSubSpans_ok harr.length_eq harr.sorted hparts
  unfold DataPartition.splitRows at hsplit
  by_cases hmax : 1 < opt.maxSplits
  · rw [if_pos hmax] at hsplit
    obtain ⟨size, hsize, hsplit⟩ := Result.bind_eq_ok.mp hsplit
    simp only [List.getLastD_concat, List.dropLast_concat] at hsplit
    refine ⟨span, parts, size * (cuts.map fun spans =>
      (spans.map fun span => span.disk.length).sum).prod, harr, hparts,
      fun _ => ⟨size, cuts, hsize, hcuts, rfl⟩, ?_⟩
    split at hsplit
    · rename_i hmany
      obtain ⟨split, hok, heq⟩ := Result.bind_eq_ok.mp hsplit
      rw [Result.pure_eq, Except.ok.injEq] at heq
      obtain ⟨-, hrow⟩ := List.append_inj' heq rfl
      rw [List.cons.injEq] at hrow
      obtain ⟨groups, hgroups, hsplits⟩ := splitRowSpans_groups hcut.length_eq
        (DataPartition.splitCount opt (DataPartition.readRows parts) _)
        opt.unitStart
      rw [hgroups, Except.ok.injEq] at hok
      exact .inr ⟨groups, ⟨hmax, hmany⟩, by rw [← hrow.1, hok], hsplits⟩
    · rename_i hone
      rw [Result.pure_eq, Except.ok.injEq] at hsplit
      obtain ⟨-, hrow⟩ := List.append_inj' hsplit rfl
      rw [List.cons.injEq] at hrow
      exact .inl ⟨.inr (Nat.le_of_not_lt hone), hrow.1.symm⟩
  · rw [if_neg hmax, Except.ok.injEq] at hsplit
    obtain ⟨-, hrow⟩ := List.append_inj' hsplit rfl
    rw [List.cons.injEq] at hrow
    exact ⟨span, parts, 0, harr, hparts, fun hlt => absurd hlt hmax,
      .inl ⟨.inl (Nat.le_of_not_lt hmax), hrow.1.symm⟩⟩

/-- The one span of rows read from disk ascends strictly, and splitting
keeps its rows. -/
theorem SplitGroups.read_rows {ends : List Nat} {span : SpanPair} {ids : Index}
    {parts : SpanPairs} {groups : List SpanPairs} (harr : Arranged span ids)
    (hparts : makeSubSpans span true = .ok parts)
    (hgroups : SplitGroups ends 0 parts groups)
    (hlive : ∃ s ∈ groups.flatten, s.isRead = true) :
    ∃ s₀, parts.filter SpanPair.isRead = [s₀]
      ∧ s₀.disk.Pairwise (· < ·) ∧ (∀ i ∈ s₀.disk, 0 ≤ i)
      ∧ s₀.disk = span.disk.filter (fun i => decide (0 ≤ i))
      ∧ DataPartition.readRows parts = s₀.disk.length
      ∧ (groups.flatten.filter SpanPair.isRead).flatMap SpanPair.disk
          = s₀.disk := by
  obtain ⟨hcut, -⟩ := makeSubSpans_ok harr.length_eq harr.sorted hparts
  have hsign := SpanPairs.Signed.of_cut hcut
  have hrefines := hgroups.refines
  have hread : (groups.flatten.filter SpanPair.isRead).flatMap SpanPair.disk
      = (parts.filter SpanPair.isRead).flatMap SpanPair.disk := by
    rw [(SpanPairs.Signed.of_cut (hcut.refine hrefines)).read_disk,
      hrefines.disk_eq, hsign.read_disk]
  have hone := one_read harr hparts
  match hfilter : parts.filter SpanPair.isRead, hone with
  | [], _ =>
      exfalso
      obtain ⟨s, hs, hsr⟩ := hlive
      have hnil : s.disk = [] := by
        rw [hfilter, List.flatMap_nil, List.flatMap_eq_nil_iff] at hread
        exact hread s (List.mem_filter.mpr ⟨hs, hsr⟩)
      rw [SpanPair.isRead, hnil] at hsr
      cases hsr
  | [s₀], _ =>
      have hmem := List.mem_filter.mp
        (hfilter ▸ List.mem_singleton_self s₀ : s₀ ∈ parts.filter _)
      have hdisk := hsign.read_disk
      rw [hfilter, List.flatMap_singleton, hcut.disk_eq] at hdisk
      have hrows := readRows_eq_countP hsign
      rw [List.countP_eq_length_filter, hcut.disk_eq, ← hdisk] at hrows
      have hnn : ∀ i ∈ s₀.disk, 0 ≤ i := by
        intro i hi
        rw [hdisk] at hi
        exact of_decide_eq_true (List.mem_filter.mp hi).2
      have hasc : s₀.disk.Pairwise (· < ·) := by
        rcases hcut.run s₀ hmem.1 with hneg | ⟨-, hasc, -⟩
        · rw [(SpanPair.rowsRead_of_neg hneg).2] at hmem
          cases hmem.2
        · exact hasc
      refine ⟨s₀, rfl, hasc, hnn, hdisk, hrows, ?_⟩
      rw [hread, hfilter, List.flatMap_singleton]
  | _ :: _ :: _, hlen => exact absurd hlen (by simp)

/-- Rows on either side of a boundary between units are in different
units. -/
theorem BetweenUnits.lt {unitStart : RowUnitStart} (hu : Units unitStart)
    {front back : List Int} (hasc : (front ++ back).Pairwise (· < ·))
    (h : BetweenUnits unitStart (fun p => (front ++ back).getD p 0) front.length)
    {r r' : Int} (hr : r ∈ front) (hr' : r' ∈ back) :
    unitStart r.toNat < unitStart r'.toNat := by
  obtain ⟨i, hi, rfl⟩ := List.mem_iff_getElem.mp hr
  obtain ⟨j, hj, rfl⟩ := List.mem_iff_getElem.mp hr'
  have hsorted : (front ++ back).Pairwise (· ≤ ·) := hasc.imp Int.le_of_lt
  have hlen : (front ++ back).length = front.length + back.length :=
    List.length_append
  have hlast : front[i] ≤ (front ++ back).getD (front.length - 1) 0 := by
    have := getD_le_of_sorted hsorted (j := i) (k := front.length - 1)
      (by omega) (by omega)
    rwa [List.getD_eq_getElem?_getD, List.getElem?_append_left hi,
      List.getElem?_eq_getElem hi, Option.getD_some] at this
  have hfirst : (front ++ back).getD front.length 0 ≤ back[j] := by
    have := getD_le_of_sorted hsorted (j := front.length)
      (k := front.length + j) (by omega) (by omega)
    rwa [List.getD_eq_getElem?_getD (i := front.length + j),
      List.getElem?_append_right (by omega), Nat.add_sub_cancel_left,
      List.getElem?_eq_getElem hj, Option.getD_some] at this
  have h₁ := @Units.mono _ hu front[i].toNat
    ((front ++ back).getD (front.length - 1) 0).toNat (by omega)
  have h₂ := @Units.mono _ hu ((front ++ back).getD front.length 0).toNat
    back[j].toNat (by omega)
  unfold BetweenUnits at h
  dsimp only at h
  omega

/-- Two rows of one unit are in one span, where the spans read from disk
meet between two units only. -/
theorem eq_of_same_unit {unitStart : RowUnitStart} (hu : Units unitStart)
    {spans : SpanPairs} (hsign : spans.Signed) {rows : List Int}
    (hrows : (spans.filter SpanPair.isRead).flatMap SpanPair.disk = rows)
    (hasc : rows.Pairwise (· < ·))
    (hends : ∀ e ∈ rowEnds spans, e < rows.length →
      BetweenUnits unitStart (fun p => rows.getD p 0) e)
    {s s' : SpanPair} (hs : s ∈ spans) (hs' : s' ∈ spans) {r r' : Int}
    (hr : r ∈ s.disk) (hr' : r' ∈ s'.disk) (hr0 : 0 ≤ r) (hr0' : 0 ≤ r')
    (hsame : unitStart r.toNat = unitStart r'.toNat) : s = s' := by
  have hread := hsign.isRead hs hr hr0
  have hread' := hsign.isRead hs' hr' hr0'
  by_contra hne
  obtain ⟨front, back, hlive, hfront, hsides⟩ := exists_end_between
    (List.mem_filter.mpr ⟨hs, hread⟩) (List.mem_filter.mpr ⟨hs', hread'⟩) hne
  subst hrows
  have hend : (front.flatMap SpanPair.disk).length ∈ rowEnds spans :=
    mem_endsFrom.mpr ⟨front, back, hlive, hfront, (Nat.zero_add _).symm⟩
  have hbetween := hends _ hend
  rw [hlive, List.flatMap_append] at hasc hbetween
  have hback : 0 < (back.flatMap SpanPair.disk).length := by
    rcases hsides with ⟨-, hb⟩ | ⟨-, hb⟩
    · exact List.length_pos_of_mem (List.mem_flatMap.mpr ⟨s', hb, hr'⟩)
    · exact List.length_pos_of_mem (List.mem_flatMap.mpr ⟨s, hb, hr⟩)
  have hin := hbetween (by rw [List.length_append]; omega)
  rcases hsides with ⟨hf, hb⟩ | ⟨hf, hb⟩
  · have := hin.lt hu hasc (List.mem_flatMap.mpr ⟨s, hf, hr⟩)
      (List.mem_flatMap.mpr ⟨s', hb, hr'⟩)
    omega
  · have := hin.lt hu hasc (List.mem_flatMap.mpr ⟨s', hf, hr'⟩)
      (List.mem_flatMap.mpr ⟨s, hb, hr⟩)
    omega

/-- Rows that ascend strictly, as the alignment sees them. -/
theorem rowsAscend_of_pairwise {rows : List Int} (hasc : rows.Pairwise (· < ·))
    (hnn : ∀ i ∈ rows, 0 ≤ i) :
    RowsAscend (fun p => rows.getD p 0) rows.length := by
  intro a b hab hb
  have ha : a < rows.length := Nat.lt_trans hab hb
  dsimp only
  rw [List.getD_eq_getElem _ _ ha, List.getD_eq_getElem _ _ hb]
  have hlt := List.pairwise_iff_getElem.mp hasc a b ha hb hab
  have := hnn _ (List.getElem_mem ha)
  omega

/-- Two rows of one unit are in one piece. -/
theorem IsRowCuts.keeps_units (h : IsRowCuts sel rs opt rowCuts)
    (hunits : 1 < opt.maxSplits →
      ∃ unitStart, opt.unitStart = some unitStart ∧ Units unitStart)
    {s s' : SpanPair} (hs : s ∈ rowCuts) (hs' : s' ∈ rowCuts) {r r' : Int}
    (hr : r ∈ s.disk) (hr' : r' ∈ s'.disk) (hr0 : 0 ≤ r) (hr0' : 0 ≤ r')
    (hsame : ∀ unitStart, opt.unitStart = some unitStart →
      unitStart r.toNat = unitStart r'.toNat) : s = s' := by
  obtain ⟨span, parts, rowBytes, harr, hparts, -, hcases⟩ := h.cases
  obtain ⟨hcut, -⟩ := makeSubSpans_ok harr.length_eq harr.sorted hparts
  have hsign := SpanPairs.Signed.of_cut hcut
  rcases hcases with ⟨-, rfl⟩ | ⟨groups, ⟨hmax, -⟩, rfl, hgroups⟩
  · exact one_read_eq harr hparts hs hs' hr hr' hr0 hr0'
  · obtain ⟨unitStart, hopt, hu⟩ := hunits hmax
    have hsign' := SpanPairs.Signed.of_cut (hcut.refine hgroups.refines)
    obtain ⟨s₀, hfilter, hasc, hnn, -, hrows, hdisk⟩ :=
      hgroups.read_rows harr hparts ⟨s, hs, hsign'.isRead hs hr hr0⟩
    have hspan : span.disk ≠ [] := by
      have hmem : r ∈ groups.flatten.flatMap SpanPair.disk :=
        List.mem_flatMap.mpr ⟨s, hs, hr⟩
      rw [hgroups.refines.disk_eq, hcut.disk_eq] at hmem
      exact List.ne_nil_of_mem hmem
    have hrowAt : rowAt (readSpans parts) = fun p => s₀.disk.getD p 0 := by
      funext p
      rw [rowAt_readSpans, hfilter, List.flatMap_singleton]
    refine eq_of_same_unit hu hsign' hdisk hasc (fun e he hlt => ?_) hs hs' hr
      hr' hr0 hr0' (hsame unitStart hopt)
    -- an end inside the one span is a boundary
    rw [rowEnds, hgroups.ends_iff (hcut.nonempty hspan) hsign, hfilter,
      endsFrom_cons, endsFrom_nil, List.mem_singleton, Nat.zero_add] at he
    rcases he with rfl | ⟨hend, -, -⟩
    · exact absurd hlt (Nat.lt_irrefl _)
    · have hasc' := rowsAscend_of_pairwise hasc hnn
      rw [hopt, hrowAt, hrows] at hend
      rcases List.mem_append.mp hend with hbound | hlast
      · exact pieceBounds_between hu hasc' hbound
      · rw [List.mem_singleton] at hlast
        omega

end RowCuts

end Arcae
