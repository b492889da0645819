/-
Bands of tiles, and whether the pieces of a read respect them.

A hypercube that stores its rows in order keeps the `k`-th of them at
position `k` of its last axis, and a band of tiles is a block of those
positions. `unitStart` subtracts a position's offset in its band from
the number of the row, which counts the rows of every hypercube: it
finds the first row of the band if the rows of the band are adjacent in
the table, and some row in between otherwise.

So the units are a division of the rows when bands are adjacent
(`TiledStMan.units`), and the pieces of a plain result then respect
every band. When the rows of a band are not adjacent, the first of them
and some later one are cut apart (`TiledStMan.exists_apart`).
`keeps_bands_iff` puts the two together, for all the reads of a column.

A single read may respect bands that others do not: it does if no piece
ends between two rows of one band that it reads (`keepsBands_iff_bounds`),
as is the case if it has one piece (`keepsBands_of_one_piece`).
-/
import Arcae.Model.RowUnits
import Arcae.Proofs.RowPieces
import Arcae.Proofs.Tiling
import Arcae.Spec.Request

namespace Arcae

namespace TiledStMan

variable (tsm : TiledStMan)

-- ================================================================ the bands

/-- The hypercube a row is stored in, and its position there; the dummy
hypercube stores nothing. -/
def stored (row : Nat) : Option (Nat × IPosition) :=
  (tsm.getHypercube row).filter fun place =>
    decide (place.2 ≠ []
      ∧ (tsm.cube place.1).tileShape.length = place.2.length
      ∧ (tsm.cube place.1).cubeShape.length = place.2.length)

/-- The row is stored in hypercube `c`. -/
def inCube (c row : Nat) : Bool := (tsm.stored row).map Prod.fst == some c

/-- How many rows before a row hypercube `c` stores. -/
def rowsBefore (c row : Nat) : Nat := (List.range row).countP (tsm.inCube c)

/-- The number of rows in a band of tiles of hypercube `c`. -/
def tileRows (c : Nat) : Nat := (tsm.cube c).tileShape.getLastD 0

/-- Each hypercube stores its own rows in ascending order along its last
axis, its only row axis. -/
structure StoresRows (cellNDim : Int) : Prop where
  position : ∀ row c place, tsm.stored row = some (c, place) →
    place.getLastD 0 = tsm.rowsBefore c row
  tile_pos : ∀ row c place, tsm.stored row = some (c, place) →
    0 < tsm.tileRows c
  axes : ∀ row c place, tsm.stored row = some (c, place) →
    0 < cellNDim → cellNDim = place.length - 1

/-- The band of tiles a row is stored in. -/
def band (row : Nat) : Option (Nat × Nat) :=
  (tsm.stored row).map fun place =>
    (place.1, place.2.getLastD 0 / tsm.tileRows place.1)

/-- Two rows are stored in one band of tiles of one hypercube. -/
def SameBand (row row' : Nat) : Prop :=
  ∃ b, tsm.band row = some b ∧ tsm.band row' = some b

/-- The rows of each band are adjacent in the table. -/
def BandsAdjacent : Prop :=
  ∀ row row', row < row' → tsm.SameBand row row' →
    ∀ between, row < between → between < row' → tsm.SameBand row between

-- ============================================================= counting rows

section Counting

variable {tsm : TiledStMan} {cellNDim : Int} {c row : Nat}

theorem rowsBefore_succ (c row : Nat) :
    tsm.rowsBefore c (row + 1)
      = tsm.rowsBefore c row + if tsm.inCube c row then 1 else 0 := by
  rw [rowsBefore, List.range_succ, List.countP_append, List.countP_singleton]
  rfl

theorem rowsBefore_le_add (c row n : Nat) :
    tsm.rowsBefore c row ≤ tsm.rowsBefore c (row + n)
      ∧ tsm.rowsBefore c (row + n) ≤ tsm.rowsBefore c row + n := by
  induction n with
  | zero => exact ⟨Nat.le_refl _, Nat.le_refl _⟩
  | succ n ih =>
      rw [← Nat.add_assoc, rowsBefore_succ]
      split <;> omega

theorem rowsBefore_le (c row : Nat) : tsm.rowsBefore c row ≤ row := by
  have hcount := (@rowsBefore_le_add tsm c 0 row).2
  have hzero : tsm.rowsBefore c 0 = 0 := rfl
  rwa [hzero, Nat.zero_add] at hcount

/-- The rows of a hypercube are counted in order. -/
theorem rowsBefore_lt (hrow : tsm.inCube c row = true) {row' : Nat}
    (hlt : row < row') : tsm.rowsBefore c row < tsm.rowsBefore c row' := by
  have hsucc := @rowsBefore_succ tsm c row
  rw [if_pos hrow] at hsucc
  have := (@rowsBefore_le_add tsm c (row + 1) (row' - (row + 1))).1
  rw [show row + 1 + (row' - (row + 1)) = row' by omega] at this
  omega

/-- Each count is that of some row of the hypercube, with none of its
rows between it and the next. -/
theorem exists_previous {n : Nat} (h : tsm.rowsBefore c row = n + 1) :
    ∃ row' < row, tsm.inCube c row' = true ∧ tsm.rowsBefore c row' = n
      ∧ ∀ x, row' < x → x < row → tsm.inCube c x = false := by
  induction row with
  | zero => cases h
  | succ row ih =>
      rw [rowsBefore_succ] at h
      cases hin : tsm.inCube c row with
      | true =>
          rw [if_pos hin] at h
          exact ⟨row, Nat.lt_succ_self _, hin, by omega, fun x _ _ => by omega⟩
      | false =>
          rw [if_neg (by simp [hin])] at h
          obtain ⟨row', hlt, hin', hcount, hnone⟩ := ih h
          refine ⟨row', by omega, hin', hcount, fun x hlo hhi => ?_⟩
          rcases Nat.lt_or_ge x row with hx | hx
          · exact hnone x hlo hx
          · rwa [show x = row by omega]

/-- The hypercube stores a row at every position up to that of a row. -/
theorem exists_position (hrow : tsm.inCube c row = true) {n : Nat}
    (hn : n ≤ tsm.rowsBefore c row) :
    ∃ row' ≤ row, tsm.inCube c row' = true ∧ tsm.rowsBefore c row' = n := by
  obtain ⟨d, hd⟩ : ∃ d, tsm.rowsBefore c row = n + d :=
    ⟨_, (Nat.add_sub_of_le hn).symm⟩
  induction d generalizing row with
  | zero => exact ⟨row, Nat.le_refl _, hrow, hd⟩
  | succ d ih =>
      obtain ⟨row', hlt, hin, hcount, -⟩ := exists_previous hd
      obtain ⟨row'', hle, hin', hcount'⟩ := ih hin
        (hcount ▸ Nat.le_add_right n d) hcount
      exact ⟨row'', by omega, hin', hcount'⟩

theorem inCube_iff : tsm.inCube c row = true
    ↔ ∃ place, tsm.stored row = some (c, place) := by
  rw [inCube, beq_iff_eq, Option.map_eq_some_iff]
  constructor
  · intro hx
    obtain ⟨⟨c', place⟩, hplace, rfl⟩ := hx
    exact ⟨place, hplace⟩
  · intro hx
    obtain ⟨place, hplace⟩ := hx
    exact ⟨_, hplace, rfl⟩

/-- The band of a stored row is the block of positions its own is in. -/
theorem StoresRows.band_eq_some (h : tsm.StoresRows cellNDim) {q : Nat} :
    tsm.band row = some (c, q) ↔ tsm.inCube c row = true
      ∧ tsm.rowsBefore c row / tsm.tileRows c = q := by
  rw [inCube_iff, band, Option.map_eq_some_iff]
  constructor
  · intro hx
    obtain ⟨⟨c', place⟩, hplace, heq⟩ := hx
    rw [Prod.mk.injEq] at heq
    obtain ⟨rfl, rfl⟩ := heq
    exact ⟨⟨place, hplace⟩, by rw [h.position row c' place hplace]⟩
  · intro hx
    obtain ⟨⟨place, hplace⟩, rfl⟩ := hx
    exact ⟨_, hplace, by rw [h.position row c place hplace]⟩

theorem StoresRows.sameBand_iff (h : tsm.StoresRows cellNDim) {row' : Nat} :
    tsm.SameBand row row' ↔ ∃ c, tsm.inCube c row = true
      ∧ tsm.inCube c row' = true
      ∧ tsm.rowsBefore c row / tsm.tileRows c
        = tsm.rowsBefore c row' / tsm.tileRows c := by
  constructor
  · intro hx
    obtain ⟨⟨c, q⟩, hrow, hrow'⟩ := hx
    obtain ⟨hin, hq⟩ := h.band_eq_some.mp hrow
    obtain ⟨hin', hq'⟩ := h.band_eq_some.mp hrow'
    exact ⟨c, hin, hin', hq.trans hq'.symm⟩
  · intro hx
    obtain ⟨c, hin, hin', hq⟩ := hx
    exact ⟨(c, _), h.band_eq_some.mpr ⟨hin, hq⟩, h.band_eq_some.mpr ⟨hin', rfl⟩⟩

theorem StoresRows.tileRows_pos (h : tsm.StoresRows cellNDim)
    (hrow : tsm.inCube c row = true) : 0 < tsm.tileRows c := by
  obtain ⟨place, hplace⟩ := inCube_iff.mp hrow
  exact h.tile_pos row c place hplace

end Counting

-- ================================================================ the units

section UnitStart

variable {tsm : TiledStMan} {cellNDim : Int} {c row : Nat}

/-- A stored row is taken back by its offset in its band. -/
theorem StoresRows.unitStart_of_inCube (h : tsm.StoresRows cellNDim)
    (hrow : tsm.inCube c row = true) :
    tsm.unitStart cellNDim row
      = row - tsm.rowsBefore c row % tsm.tileRows c := by
  obtain ⟨place, hplace⟩ := inCube_iff.mp hrow
  have hpos := h.position row c place hplace
  have haxes := h.axes row c place hplace
  rw [stored, Option.filter_eq_some_iff] at hplace
  obtain ⟨hget, hvalid⟩ := hplace
  rw [decide_eq_true_eq] at hvalid
  dsimp only at hvalid
  obtain ⟨hne, htile, hcube⟩ := hvalid
  have hlen := List.length_pos_of_ne_nil hne
  have hlast : ∀ l : IPosition, l.getD (l.length - 1) 0 = l.getLastD 0 := by
    intro l
    rw [List.getD_eq_getElem?_getD, List.getLastD_eq_getLast?,
      List.getLast?_eq_getElem?]
  have hoffset : ∀ first, first = place.length - 1 →
      bandOffset (tsm.cube c) place first
        = tsm.rowsBefore c row % tsm.tileRows c := by
    intro first heq
    subst heq
    have haxes : (List.range (place.length - 1)).filter
        (fun d => decide (place.length - 1 ≤ d)) = [] := by
      rw [List.filter_eq_nil_iff]
      intro d hd
      have := List.mem_range.mp hd
      rw [decide_eq_true_eq]
      omega
    have htlast := hlast (tsm.cube c).tileShape
    rw [htile] at htlast
    simp only [bandOffset, haxes, List.reverse_nil, List.foldl_nil, hlast place,
      hpos, htlast]
    rfl
  have hfirst : (if 0 < cellNDim then cellNDim else (place.length : Int) - 1)
      = ((place.length - 1 : Nat) : Int) := by
    split
    · rename_i hnd
      have := haxes hnd
      omega
    · omega
  have hle : tsm.rowsBefore c row % tsm.tileRows c ≤ row :=
    Nat.le_trans (Nat.mod_le _ _) (rowsBefore_le c row)
  simp only [unitStart, hget, hfirst, htile, hcube]
  rw [if_neg (by omega), hoffset _ (by omega), if_pos hle]

/-- A row that is stored nowhere is a unit by itself. -/
theorem unitStart_of_not_stored (hrow : tsm.stored row = none) :
    tsm.unitStart cellNDim row = row := by
  unfold unitStart
  split
  · rfl
  · rename_i c place hget
    rw [stored, hget, Option.filter_some] at hrow
    dsimp only
    generalize (if 0 < cellNDim then cellNDim else (place.length : Int) - 1)
      = firstRowAxis
    split
    · rfl
    · rename_i hvalid
      rw [not_or, not_or, not_not, not_not] at hvalid
      -- only a position without axes is left
      have hnil : place = [] := by
        by_contra hne
        have htile : (tsm.cube c).tileShape.length = place.length := by omega
        have hcube : (tsm.cube c).cubeShape.length = place.length := by omega
        rw [if_pos (decide_eq_true ⟨hne, htile, hcube⟩)] at hrow
        cases hrow
      subst hnil
      simp [bandOffset]

theorem inCube_or_not_stored (row : Nat) :
    (∃ c, tsm.inCube c row = true) ∨ tsm.stored row = none := by
  cases hstored : tsm.stored row with
  | none => exact .inr rfl
  | some place => exact .inl ⟨place.1, inCube_iff.mpr ⟨place.2, hstored⟩⟩

theorem StoresRows.unitStart_le (h : tsm.StoresRows cellNDim) (row : Nat) :
    tsm.unitStart cellNDim row ≤ row := by
  rcases @inCube_or_not_stored tsm row with ⟨c, hrow⟩ | hnone
  · rw [h.unitStart_of_inCube hrow]
    exact Nat.sub_le _ _
  · exact Nat.le_of_eq (unitStart_of_not_stored hnone)

/-- Where bands are adjacent, the rows before a row are stored before
it, back to the start of its band. -/
theorem BandsAdjacent.walk_back (hadj : tsm.BandsAdjacent)
    (h : tsm.StoresRows cellNDim) (hrow : tsm.inCube c row = true) :
    ∀ i ≤ tsm.rowsBefore c row % tsm.tileRows c,
      tsm.inCube c (row - i) = true
        ∧ tsm.rowsBefore c (row - i) + i = tsm.rowsBefore c row := by
  have hpos := h.tileRows_pos hrow
  have hdiv := Nat.div_add_mod (tsm.rowsBefore c row) (tsm.tileRows c)
  intro i
  induction i with
  | zero => exact fun _ => ⟨hrow, rfl⟩
  | succ i ih =>
      intro hi
      obtain ⟨hin, hcount⟩ := ih (by omega)
      obtain ⟨row', hlt, hin', hcount', hnone⟩ :=
        @exists_previous tsm c (row - i)
          (tsm.rowsBefore c (row - i) - 1) (by omega)
      have hquot : ∀ n, tsm.tileRows c * (tsm.rowsBefore c row / tsm.tileRows c) ≤ n →
          n ≤ tsm.rowsBefore c row → n / tsm.tileRows c
            = tsm.rowsBefore c row / tsm.tileRows c := by
        intro n hlo hhi
        refine Nat.le_antisymm (Nat.div_le_div_right hhi) ?_
        rw [Nat.le_div_iff_mul_le hpos, Nat.mul_comm]
        exact hlo
      have hsame : tsm.SameBand row' (row - i) := by
        refine h.sameBand_iff.mpr ⟨c, hin', hin, ?_⟩
        have hq := hquot (tsm.rowsBefore c row') (by omega) (by omega)
        have hq' := hquot (tsm.rowsBefore c (row - i)) (by omega) (by omega)
        exact hq.trans hq'.symm
      -- the row before is the one just before, as the band has no gap
      have heq : row' = row - (i + 1) := by
        by_contra hne
        obtain ⟨b, hb, hb'⟩ := hadj row' (row - i) hlt hsame (row' + 1)
          (Nat.lt_succ_self _) (by omega)
        obtain ⟨c', q⟩ := b
        obtain ⟨hc, -⟩ := h.band_eq_some.mp hb
        obtain ⟨hc', -⟩ := h.band_eq_some.mp hb'
        have hsamecube : c' = c := by
          obtain ⟨place, hplace⟩ := inCube_iff.mp hc
          obtain ⟨place', hplace'⟩ := inCube_iff.mp hin'
          rw [hplace] at hplace'
          cases hplace'
          rfl
        subst hsamecube
        rw [hnone (row' + 1) (Nat.lt_succ_self _) (by omega)] at hc'
        cases hc'
      subst heq
      exact ⟨hin', by omega⟩

/-- Where bands are adjacent, the bands are the units. -/
theorem BandsAdjacent.units (hadj : tsm.BandsAdjacent)
    (h : tsm.StoresRows cellNDim) : Units (tsm.unitStart cellNDim) where
  le := h.unitStart_le
  same := by
    intro row row' hlo hhi
    rcases @inCube_or_not_stored tsm row with ⟨c, hrow⟩ | hnone
    · rw [h.unitStart_of_inCube hrow] at hlo ⊢
      have hmod := Nat.mod_le (tsm.rowsBefore c row) (tsm.tileRows c)
      have hle := @rowsBefore_le tsm c row
      obtain ⟨hin, hcount⟩ := hadj.walk_back h hrow (row - row') (by omega)
      rw [show row - (row - row') = row' by omega] at hin hcount
      have hsub : tsm.rowsBefore c row' % tsm.tileRows c + (row - row')
          = tsm.rowsBefore c row % tsm.tileRows c := by
        have hpos := h.tileRows_pos hrow
        have hlt := Nat.mod_lt (tsm.rowsBefore c row) hpos
        have hdiv := Nat.div_add_mod (tsm.rowsBefore c row) (tsm.tileRows c)
        have heq : tsm.rowsBefore c row' = tsm.rowsBefore c row % tsm.tileRows c
            - (row - row') + tsm.tileRows c
              * (tsm.rowsBefore c row / tsm.tileRows c) := by omega
        rw [heq, Nat.add_mul_mod_self_left, Nat.mod_eq_of_lt (by omega)]
        omega
      rw [h.unitStart_of_inCube hin]
      omega
    · rw [unitStart_of_not_stored hnone] at hlo
      rw [Nat.le_antisymm hhi hlo]

/-- Where bands are adjacent, the rows of a band are one unit. -/
theorem BandsAdjacent.unitStart_eq (hadj : tsm.BandsAdjacent)
    (h : tsm.StoresRows cellNDim) {row row' : Nat}
    (hsame : tsm.SameBand row row') :
    tsm.unitStart cellNDim row = tsm.unitStart cellNDim row' := by
  have key : ∀ row row', row ≤ row' → tsm.SameBand row row' →
      tsm.unitStart cellNDim row = tsm.unitStart cellNDim row' := by
    intro row row' hle hsame
    refine (hadj.units h).same row' row ?_ hle
    obtain ⟨c, hin, hin', hquot⟩ := h.sameBand_iff.mp hsame
    by_contra hlt
    rw [Nat.not_le, h.unitStart_of_inCube hin'] at hlt
    obtain ⟨-, hcount⟩ := hadj.walk_back h hin' _ (Nat.le_refl _)
    have hbefore := rowsBefore_lt hin hlt
    have hdiv := Nat.div_add_mod (tsm.rowsBefore c row') (tsm.tileRows c)
    have hlo := Nat.div_mul_le_self (tsm.rowsBefore c row) (tsm.tileRows c)
    rw [hquot, Nat.mul_comm] at hlo
    omega
  rcases Nat.le_total row row' with hle | hle
  · exact key row row' hle hsame
  · obtain ⟨b, hb, hb'⟩ := hsame
    exact (key row' row hle ⟨b, hb', hb⟩).symm

/-- A band that is not adjacent has two rows that the subtraction tells
apart: the later one is taken back to a row after the first. -/
theorem StoresRows.exists_apart (h : tsm.StoresRows cellNDim)
    {row row' between : Nat} (hsame : tsm.SameBand row row')
    (hlo : row < between) (hhi : between < row')
    (hother : ¬ tsm.SameBand row between) :
    ∃ first, tsm.SameBand first row' ∧ first < tsm.unitStart cellNDim row'
      ∧ tsm.unitStart cellNDim row' < row' := by
  obtain ⟨c, hin, hin', hquot⟩ := h.sameBand_iff.mp hsame
  have hpos := h.tileRows_pos hin
  have hdiv := Nat.div_add_mod (tsm.rowsBefore c row') (tsm.tileRows c)
  have hlow := Nat.div_mul_le_self (tsm.rowsBefore c row) (tsm.tileRows c)
  rw [hquot, Nat.mul_comm] at hlow
  obtain ⟨first, hfirst, hfin, hfcount⟩ := exists_position hin hlow
  -- the row between is not stored in the hypercube at all
  have hout : tsm.inCube c between = false := by
    by_contra hbetween
    rw [Bool.not_eq_false] at hbetween
    refine hother (h.sameBand_iff.mpr ⟨c, hin, hbetween, ?_⟩)
    have h₁ := Nat.div_le_div_right (c := tsm.tileRows c)
      (Nat.le_of_lt (rowsBefore_lt hin hlo))
    have h₂ := Nat.div_le_div_right (c := tsm.tileRows c)
      (Nat.le_of_lt (rowsBefore_lt hbetween hhi))
    omega
  have hskip : tsm.rowsBefore c (between + 1) = tsm.rowsBefore c between := by
    rw [rowsBefore_succ, if_neg (by simp [hout]), Nat.add_zero]
  have h₁ := (@rowsBefore_le_add tsm c first (between - first)).2
  have h₂ := (@rowsBefore_le_add tsm c (between + 1)
    (row' - (between + 1))).2
  rw [show first + (between - first) = between by omega] at h₁
  rw [show between + 1 + (row' - (between + 1)) = row' by omega, hskip] at h₂
  have hlt := rowsBefore_lt hfin (show first < row' by omega)
  refine ⟨first, h.sameBand_iff.mpr ⟨c, hfin, hin', ?_⟩, ?_, ?_⟩
  · rw [hfcount, Nat.mul_div_cancel_left _ hpos]
  · rw [h.unitStart_of_inCube hin']
    omega
  · rw [h.unitStart_of_inCube hin']
    omega

end UnitStart

end TiledStMan

-- =============================================================== the pieces

/-- Two rows of one band that are read are in one piece of the row
dimension. -/
def DataPartition.KeepsBands (p : DataPartition) (tsm : TiledStMan) : Prop :=
  ∀ c ∈ p.dataChunks, ∀ c' ∈ p.dataChunks, ∀ s s',
    c.dimSpans.getLast? = some s → c'.dimSpans.getLast? = some s' →
    ∀ r ∈ s.disk, ∀ r' ∈ s'.disk, 0 ≤ r → 0 ≤ r' → r ≠ r' →
      tsm.SameBand r.toNat r'.toNat → s = s'

section Pieces

variable {rs : ResultShapeData} {sel : Selection} {opt : RowSplitOptions}
  {p : DataPartition}

/-- The row span of a chunk of a plain result is one of the cuts of the
rows. -/
theorem DataPartition.Partitions.row_mem_cuts (hpart : p.Partitions sel rs opt)
    (hplain : rs.IsPlain) : ∃ rowCuts, IsRowCuts sel rs opt rowCuts
      ∧ ∀ c ∈ p.dataChunks, ∀ s, c.dimSpans.getLast? = some s → s ∈ rowCuts := by
  obtain ⟨rowCuts, hcuts, hall⟩ := hpart.rowCuts hplain
  refine ⟨rowCuts, hcuts, fun c hc s hs => ?_⟩
  obtain ⟨picks, row, hspans, hrow⟩ := hall c hc
  rw [hspans, List.getLast?_concat, Option.some.injEq] at hs
  exact hs ▸ hrow

/-- A result of at most one row reads no two rows. -/
theorem DataPartition.Partitions.row_eq_of_single
    (hpart : p.Partitions sel rs opt) (hm : sel.Matches rs) (hone : rs.nRows ≤ 1)
    {c c' : DataChunk} (hc : c ∈ p.dataChunks) (hc' : c' ∈ p.dataChunks)
    {s s' : SpanPair} (hs : c.dimSpans.getLast? = some s)
    (hs' : c'.dimSpans.getLast? = some s') {r r' : Int} (hr : r ∈ s.disk)
    (hr' : r' ∈ s'.disk) : r = r' := by
  by_cases hplain : rs.IsPlain
  · obtain ⟨rowCuts, hcuts, hall⟩ := hpart.row_mem_cuts hplain
    have hmem := hcuts.disk_subset (hall c hc s hs) hr
    have hmem' := hcuts.disk_subset (hall c' hc' s' hs') hr'
    obtain ⟨x, hids⟩ := List.length_eq_one_iff.mp (Nat.le_antisymm
      (hm.rowIds_length ▸ hone) (List.length_pos_of_mem hmem))
    rw [hids, List.mem_singleton] at hmem hmem'
    rw [hmem, hmem']
  · have hrow : ∀ c ∈ p.dataChunks, ∀ s, c.dimSpans.getLast? = some s →
        ∀ r ∈ s.disk, r = (rowIds sel rs).getD 0 0 := by
      intro c hc s hs r hr
      obtain ⟨picks, k, hk, hspans⟩ := hpart.rowsAlone hplain c hc
      have hzero : k = 0 := by omega
      rw [hspans, List.getLast?_concat, Option.some.injEq, hzero] at hs
      rw [← hs] at hr
      exact List.mem_singleton.mp hr
    rw [hrow c hc s hs r hr, hrow c' hc' s' hs' r' hr']

theorem TiledStMan.SameBand.symm {tsm : TiledStMan} {row row' : Nat}
    (h : tsm.SameBand row row') : tsm.SameBand row' row := by
  obtain ⟨b, hb, hb'⟩ := h
  exact ⟨b, hb', hb⟩

/-- Rows that are planned one by one are all in pieces of their own. -/
theorem keepsBands_iff_alone (hpart : p.Partitions sel rs opt)
    (hplain : ¬ rs.IsPlain) (tsm : TiledStMan) :
    p.KeepsBands tsm ↔ ∀ k < rs.nRows, ∀ k' < rs.nRows,
      0 ≤ (rowIds sel rs).getD k 0 → 0 ≤ (rowIds sel rs).getD k' 0 →
      (rowIds sel rs).getD k 0 ≠ (rowIds sel rs).getD k' 0 →
        ¬ tsm.SameBand ((rowIds sel rs).getD k 0).toNat
          ((rowIds sel rs).getD k' 0).toNat := by
  have hspan : ∀ c ∈ p.dataChunks, ∀ s, c.dimSpans.getLast? = some s →
      ∃ k < rs.nRows, s = SpanPair.mk [(rowIds sel rs).getD k 0] [k] := by
    intro c hc s hs
    obtain ⟨picks, k, hk, hspans⟩ := hpart.rowsAlone hplain c hc
    rw [hspans, List.getLast?_concat, Option.some.injEq] at hs
    exact ⟨k, hk, hs.symm⟩
  constructor
  · intro hkeeps k hk k' hk' hnn hnn' hne hsame
    obtain ⟨c, hc, picks, s, hspans, hs⟩ := hpart.rowsAll k hk
    obtain ⟨c', hc', picks', s', hspans', hs'⟩ := hpart.rowsAll k' hk'
    have hlast : c.dimSpans.getLast? = some s := by
      rw [hspans, List.getLast?_concat]
    have hlast' : c'.dimSpans.getLast? = some s' := by
      rw [hspans', List.getLast?_concat]
    have heq := hkeeps c hc c' hc' s s' hlast hlast' _ (List.of_mem_zip hs).1 _
      (List.of_mem_zip hs').1 hnn hnn' hne hsame
    -- one span has one row, and these are two
    obtain ⟨k₀, -, rfl⟩ := hspan c hc s hlast
    subst heq
    have hrow := List.mem_singleton.mp (List.of_mem_zip hs).1
    have hrow' := List.mem_singleton.mp (List.of_mem_zip hs').1
    exact hne (hrow.trans hrow'.symm)
  · intro hbands c hc c' hc' s s' hs hs' r hr r' hr' hnn hnn' hne hsame
    obtain ⟨k, hk, rfl⟩ := hspan c hc s hs
    obtain ⟨k', hk', rfl⟩ := hspan c' hc' s' hs'
    rw [List.mem_singleton] at hr hr'
    subst hr hr'
    exact absurd hsame (hbands k hk k' hk' hnn hnn' hne)

/-- Rows that are planned together respect the bands exactly if no piece
ends between two rows of one band. -/
theorem keepsBands_iff_bounds (hrs : rs.Consistent) (hm : sel.Matches rs)
    (hpart : p.Partitions sel rs opt) (hplain : rs.IsPlain) (tsm : TiledStMan) :
    p.KeepsBands tsm ↔ ∀ i j, i < j → j < rowsRead sel rs →
      tsm.SameBand ((readIds sel rs).getD i 0).toNat
          ((readIds sel rs).getD j 0).toNat →
        ∀ b ∈ pieceBounds (rowsRead sel rs) (rowSplits sel rs opt)
          (fun position => (readIds sel rs).getD position 0) opt.unitStart,
          b ≤ i ∨ j < b := by
  obtain ⟨rowCuts, hcuts, hall⟩ := hpart.row_mem_cuts hplain
  have hlen : (readIds sel rs).length = rowsRead sel rs := readIds_length
  constructor
  · intro hkeeps i j hij hj hsame
    -- each row is in the span of some chunk
    have hspan : ∀ k < rowsRead sel rs, 0 ≤ (readIds sel rs).getD k 0
        ∧ ∃ c ∈ p.dataChunks, ∃ s, c.dimSpans.getLast? = some s
          ∧ (readIds sel rs).getD k 0 ∈ s.disk := by
      intro k hk
      rw [← hlen] at hk
      rw [List.getD_eq_getElem _ _ hk]
      obtain ⟨hrow, hnn⟩ := mem_readIds.mp (List.getElem_mem hk)
      obtain ⟨q, hq, hrow⟩ := List.mem_iff_getElem.mp hrow
      obtain ⟨c, hc, picks, s, hspans, hs⟩ := hpart.rowsAll q (by
        rw [← hm.rowIds_length]
        exact hq)
      rw [List.getD_eq_getElem _ _ hq, hrow] at hs
      exact ⟨hnn, c, hc, s, by rw [hspans, List.getLast?_concat],
        (List.of_mem_zip hs).1⟩
    obtain ⟨hnn, c, hc, s, hs, hin⟩ := hspan i (by omega)
    obtain ⟨hnn', c', hc', s', hs', hin'⟩ := hspan j hj
    refine (hcuts.same_piece_iff hrs hm hplain.1 hij hj (hall c hc s hs)
      (hall c' hc' s' hs') hin hin').mp ?_
    refine hkeeps c hc c' hc' s s' hs hs' _ hin _ hin' hnn hnn' ?_ hsame
    rw [List.getD_eq_getElem _ _ (by omega), List.getD_eq_getElem _ _ (by omega)]
    exact fun heq => absurd
      ((hcuts.readIds_nodup.getElem_inj_iff).mp heq) (by omega)
  · intro hbounds c hc c' hc' s s' hs hs' r hr r' hr' hnn hnn' hne hsame
    have hindex : ∀ r : Int, 0 ≤ r → (∃ s ∈ rowCuts, r ∈ s.disk) →
        ∃ k < rowsRead sel rs, (readIds sel rs).getD k 0 = r := by
      intro r hnn hx
      obtain ⟨s, hs, hr⟩ := hx
      obtain ⟨k, hk, hrow⟩ := List.mem_iff_getElem.mp
        (mem_readIds.mpr ⟨hcuts.disk_subset hs hr, hnn⟩)
      exact ⟨k, hlen ▸ hk, by rw [List.getD_eq_getElem _ _ hk, hrow]⟩
    obtain ⟨i, hi, rfl⟩ := hindex r hnn ⟨s, hall c hc s hs, hr⟩
    obtain ⟨j, hj, rfl⟩ := hindex r' hnn' ⟨s', hall c' hc' s' hs', hr'⟩
    rcases Nat.lt_trichotomy i j with hij | rfl | hji
    · exact (hcuts.same_piece_iff hrs hm hplain.1 hij hj (hall c hc s hs)
        (hall c' hc' s' hs') hr hr').mpr (hbounds i j hij hj hsame)
    · exact absurd rfl hne
    · exact ((hcuts.same_piece_iff hrs hm hplain.1 hji hi (hall c' hc' s' hs')
        (hall c hc s hs) hr' hr).mpr (hbounds j i hji hi hsame.symm)).symm

/-- Rows that are read in one piece respect every band. -/
theorem keepsBands_of_one_piece (hrs : rs.Consistent) (hm : sel.Matches rs)
    (hpart : p.Partitions sel rs opt) (hplain : rs.IsPlain)
    (hone : opt.maxSplits ≤ 1 ∨ rowSplits sel rs opt ≤ 1) (tsm : TiledStMan) :
    p.KeepsBands tsm := by
  have hle : rowSplits sel rs opt ≤ 1 := by
    rcases hone with hmax | hle
    · rw [rowSplits, if_neg (Nat.not_lt.mpr hmax)]
    · exact hle
  refine (keepsBands_iff_bounds hrs hm hpart hplain tsm).mpr ?_
  intro i j _ _ _ b hb
  rw [pieceBounds_eq_nil hle] at hb
  cases hb

/-- Two rows, and missing rows for the rest of the result. -/
def pairSelection (r r' : Int) (n : Nat) : Selection :=
  ⟨[[r, r'] ++ List.replicate (n - 2) (-1)]⟩

/-- The two rows are the ones read. -/
theorem pairRows_read {r r' : Int} (hr : 0 ≤ r) (hr' : 0 ≤ r') (n : Nat) :
    ([r, r'] ++ List.replicate n (-1)).filter (fun i => decide (0 ≤ i))
      = [r, r'] := by
  have hmissing : (List.replicate n (-1)).filter (fun i : Int => decide (0 ≤ i))
      = [] := by
    rw [List.filter_eq_nil_iff]
    intro i hi
    rw [(List.mem_replicate.mp hi).2]
    decide
  rw [List.filter_append, hmissing, List.append_nil]
  simp [hr, hr']

/-- The two rows match any result of two rows or more. -/
theorem pairSelection_matches (hrs : rs.Consistent) (r r' : Int)
    (htwo : 2 ≤ rs.nRows) :
    (pairSelection r r' rs.nRows).Matches rs
      ∧ rowIds (pairSelection r r' rs.nRows) rs
        = [r, r'] ++ List.replicate (rs.nRows - 2) (-1)
      ∧ ∀ dim < rs.rank - 1,
          (pairSelection r r' rs.nRows).selected rs dim = none := by
  have hrank := hrs.rank_pos
  have hrow : (pairSelection r r' rs.nRows).selected rs (rs.rank - 1)
      = some ([r, r'] ++ List.replicate (rs.nRows - 2) (-1)) :=
    Selection.maybeFSpan_row _ hrank
  have hdim : ∀ dim < rs.rank - 1,
      (pairSelection r r' rs.nRows).selected rs dim = none := by
    intro dim hdim
    have hnone := @Selection.maybeFSpan_secondary_of_size
      (pairSelection r r' rs.nRows) (Nat.le_refl 1) _ _ hdim
    rwa [Nat.sub_add_cancel hrank] at hnone
  refine ⟨⟨?_, ?_, ?_⟩, ?_, hdim⟩
  · intro ids hids
    cases hrow.symm.trans hids
    simp only [List.length_append, List.length_cons, List.length_nil,
      List.length_replicate]
    omega
  · intro row _ dim hd ids hids
    cases (hdim dim hd).symm.trans hids
  · intro row dim hx
    obtain ⟨extent, hext, -⟩ := hx
    -- a padded dimension has an extent, and only secondary ones have
    refine hdim dim ?_
    unfold ResultShapeData.extent at hext
    cases hes : rs.cellExtents with
    | none =>
        rw [hes] at hext
        cases hext
    | some es =>
        rw [hes] at hext
        obtain ⟨-, -, hall⟩ := hrs.extents es hes
        obtain ⟨hlt, -⟩ := List.getElem?_eq_some_iff.mp hext
        rcases Nat.lt_or_ge row es.length with hin | hout
        · rw [List.getD_eq_getElem _ _ hin] at hlt
          have := hall _ (List.getElem_mem hin)
          omega
        · rw [List.getD_eq_default _ _ hout] at hlt
          exact absurd hlt (Nat.not_lt_zero _)
  · rw [rowIds, hrow, Option.getD_some]

/-- The two rows are read by any such result. -/
theorem pairSelection_partitions (hrs : rs.Consistent) {r r' : Int}
    (hr : 0 ≤ r) (hr' : 0 ≤ r') (hne : r ≠ r') (htwo : 2 ≤ rs.nRows)
    (hdtype : rs.IsPlain → opt.maxSplits ≤ 1 ∨ rs.dtype.supported = true) :
    ∃ p, DataPartition.make .insertion (pairSelection r r' rs.nRows) rs opt = .ok p
      ∧ p.Partitions (pairSelection r r' rs.nRows) rs opt := by
  obtain ⟨hm, hids, hdims⟩ := pairSelection_matches hrs r r' htwo
  have hsel : Selectable (pairSelection r r' rs.nRows) rs := by
    refine selectable_of_noRepeat hm (fun _ ids hrow => ?_) fun dim hd ids hsel => ?_
    · rw [rowIds, hrow, Option.getD_some] at hids
      rw [hids, NoRepeat, pairRows_read hr hr']
      simpa using hne
    · cases (hdims dim hd).symm.trans hsel
  exact (@make_outcome _ _ .insertion opt hrs hm hdtype
    (.inr (by omega))).of_good hsel

/-- Without a boundary that respects the units, two rows are cut
apart. -/
theorem pairSelection_cut (hrs : rs.Consistent) (hplain : rs.IsPlain)
    (hsup : rs.dtype.supported = true) (htwo : 2 ≤ rs.nRows) {r r' : Nat}
    (hlt : r < r') {unitStart : Option RowUnitStart} {tsm : TiledStMan}
    (hsame : tsm.SameBand r r')
    (hbound : pieceBounds 2 2 (fun q => [(r : Int), (r' : Int)].getD q 0) unitStart
      = [1]) :
    ∃ p, (pairSelection r r' rs.nRows).Matches rs
      ∧ DataPartition.make .insertion (pairSelection r r' rs.nRows) rs
          ⟨2, 0, unitStart⟩ = .ok p
      ∧ ¬ p.KeepsBands tsm := by
  obtain ⟨hm, hids, -⟩ := pairSelection_matches hrs r r' htwo
  obtain ⟨p, hp, hpart⟩ := @pairSelection_partitions rs ⟨2, 0, unitStart⟩ hrs
    r r' (by omega) (by omega) (by omega) htwo fun _ => .inr hsup
  refine ⟨p, hm, hp, fun hkeeps => ?_⟩
  -- the rows read are the two, in order, and each is worth a piece
  have hread : readIds (pairSelection r r' rs.nRows) rs = [(r : Int), (r' : Int)] := by
    rw [readIds, hids, pairRows_read (by omega) (by omega)]
    refine (eq_mergeSort ?_ (.refl _)).symm
    simpa using Nat.le_of_lt hlt
  have hcount : rowsRead (pairSelection r r' rs.nRows) rs = 2 := by
    rw [← readIds_length, hread]
    rfl
  have hsplits : rowSplits (pairSelection r r' rs.nRows) rs ⟨2, 0, unitStart⟩
      = 2 := by
    obtain ⟨size, hsize⟩ := (casaDataTypeSize_isOk _).mpr hsup
    rw [rowSplits, if_pos (Nat.lt_succ_self 1), hsize, hcount]
    rfl
  have hbounds := (keepsBands_iff_bounds hrs hm hpart hplain tsm).mp hkeeps 0 1
    Nat.one_pos (by rw [hcount]; exact Nat.lt_succ_self 1)
    (by rw [hread]; exact hsame)
  rw [hcount, hread, hsplits, hbound] at hbounds
  exact absurd (hbounds 1 (List.mem_singleton_self 1)) (by decide)

/-- Rows that are planned one by one are read apart. -/
theorem pairSelection_alone (hrs : rs.Consistent) (hplain : ¬ rs.IsPlain)
    (htwo : 2 ≤ rs.nRows) {r r' : Nat} (hlt : r < r')
    (unitStart : Option RowUnitStart) {tsm : TiledStMan}
    (hsame : tsm.SameBand r r') :
    ∃ p, (pairSelection r r' rs.nRows).Matches rs
      ∧ DataPartition.make .insertion (pairSelection r r' rs.nRows) rs
          ⟨1, 0, unitStart⟩ = .ok p
      ∧ ¬ p.KeepsBands tsm := by
  obtain ⟨hm, hids, -⟩ := pairSelection_matches hrs r r' htwo
  obtain ⟨p, hp, hpart⟩ := @pairSelection_partitions rs ⟨1, 0, unitStart⟩ hrs
    r r' (by omega) (by omega) (by omega) htwo fun hp => absurd hp hplain
  refine ⟨p, hm, hp, fun hkeeps => ?_⟩
  have hapart := (keepsBands_iff_alone hpart hplain tsm).mp hkeeps 0 (by omega)
    1 (by omega)
  rw [hids] at hapart
  have hne : (r : Int) ≠ (r' : Int) := by omega
  exact hapart (Int.natCast_nonneg r) (Int.natCast_nonneg r') hne hsame

/-- A function for a tiled column is that of its storage manager; scalars
of a `TiledDataStMan` have none. -/
theorem makeRowUnitStart_tiled {column : ColumnStorage} {dm : DataManager}
    {tsm : TiledStMan} {unitStart : RowUnitStart}
    (hdm : column.dataManager = some dm) (htiled : dm.tiled = some tsm)
    (hsome : makeRowUnitStart column = some unitStart) :
    unitStart = tsm.unitStart column.ndim
      ∧ ¬ (column.ndim ≤ 0 ∧ dm.dataManagerType = .tiledDataStMan) := by
  unfold makeRowUnitStart at hsome
  simp only [hdm, htiled] at hsome
  split_ifs at hsome with hroot hcell hscalar
  exact ⟨(Option.some.inj hsome).symm, hscalar⟩

/-- The pieces of a read of a tiled column respect its bands exactly
when the result has no two rows, no band has two, or the result is
planned dimension by dimension and either never split or split with the
help of a function that knows bands whose rows are adjacent. -/
theorem keeps_bands_iff {column : ColumnStorage} {dm : DataManager}
    {tsm : TiledStMan} (hdm : column.dataManager = some dm)
    (htiled : dm.tiled = some tsm) (hstores : tsm.StoresRows column.ndim)
    (hrs : rs.Consistent) (hfixed : rs.isFixed = true) :
    (∀ srt sel maxSplits minBytes p, sel.Matches rs →
        DataPartition.make srt sel rs
          ⟨maxSplits, minBytes, makeRowUnitStart column⟩ = .ok p →
        p.KeepsBands tsm)
      ↔ rs.nRows ≤ 1 ∨ ∀ row row', row < row' → tsm.SameBand row row' →
          rs.cellExtents = none
          ∧ (rs.dtype.supported = true → (makeRowUnitStart column).isSome = true
            ∧ ∀ between, row < between → between < row' →
                tsm.SameBand row between) := by
  constructor
  · intro hkeeps
    refine or_iff_not_imp_left.mpr fun hrows row row' hlt hsame => ?_
    have htwo : 2 ≤ rs.nRows := by omega
    have hplain : rs.cellExtents = none := by
      by_contra hext
      obtain ⟨p, hm, hp, hapart⟩ := pairSelection_alone hrs
        (fun hp => hext hp.2) htwo hlt (makeRowUnitStart column) hsame
      exact hapart (hkeeps _ _ _ _ p hm hp)
    refine ⟨hplain, fun hsup => ⟨?_, fun between hlo hhi => ?_⟩⟩
    · by_contra hnone
      rw [Bool.not_eq_true, Option.isSome_eq_false_iff, Option.isNone_iff_eq_none]
        at hnone
      obtain ⟨p, hm, hp, hcut⟩ := @pairSelection_cut rs hrs
        ⟨hfixed, hplain⟩ hsup htwo _ _ hlt none _ hsame rfl
      exact hcut (hkeeps _ _ _ _ p hm (by rw [hnone]; exact hp))
    · by_contra hother
      obtain ⟨first, hfirst, hafter, hback⟩ :=
        hstores.exists_apart hsame hlo hhi hother
      cases hstart : makeRowUnitStart column with
      | none =>
          obtain ⟨p, hm, hp, hcut⟩ := @pairSelection_cut rs hrs
            ⟨hfixed, hplain⟩ hsup htwo _ _ hlt none _ hsame rfl
          exact hcut (hkeeps _ _ _ _ p hm (by rw [hstart]; exact hp))
      | some unitStart =>
          have hbound : pieceBounds 2 2
              (fun q => [(first : Int), (row' : Int)].getD q 0)
              (some unitStart) = [1] := by
            rw [(makeRowUnitStart_tiled hdm htiled hstart).1]
            have hne : tsm.unitStart column.ndim row' ≠ row' := by omega
            have hlt : first < tsm.unitStart column.ndim row' := hafter
            simp [pieceBounds, pieceEnd, alignBoundary, partitionPoint, addEnd,
              hne, hlt]
          obtain ⟨p, hm, hp, hcut⟩ := pairSelection_cut hrs ⟨hfixed, hplain⟩
            hsup htwo (by omega) hfirst hbound
          exact hcut (hkeeps _ _ _ _ p hm (by rw [hstart]; exact hp))
  · intro hcond srt sel maxSplits minBytes p hm hp c hc c' hc' s s' hs hs' r hr
      r' hr' hr0 hr0' hne hsame
    obtain ⟨-, hpart⟩ := partitions_of_make hrs hm hp
    rcases hcond with hone | hcond
    · exact absurd (hpart.row_eq_of_single hm hone hc hc' hs hs' hr hr') hne
    · -- two rows of a band, in either order, settle what is asked of all
      obtain ⟨hext, hbound⟩ : rs.cellExtents = none
          ∧ (rs.dtype.supported = true →
            (makeRowUnitStart column).isSome = true) := by
        obtain ⟨b, hb, hb'⟩ := hsame
        rcases Nat.lt_or_gt_of_ne (show r.toNat ≠ r'.toNat by omega) with hlt | hlt
        · obtain ⟨hext, hsup⟩ := hcond _ _ hlt ⟨b, hb, hb'⟩
          exact ⟨hext, fun h => (hsup h).1⟩
        · obtain ⟨hext, hsup⟩ := hcond _ _ hlt ⟨b, hb', hb⟩
          exact ⟨hext, fun h => (hsup h).1⟩
      have hplain : rs.IsPlain := ⟨hfixed, hext⟩
      obtain ⟨hdtype, -⟩ := make_ok_conditions hrs hp
      have hbands : 1 < maxSplits → (makeRowUnitStart column).isSome = true
          ∧ tsm.BandsAdjacent := by
        intro hmax
        have hsup : rs.dtype.supported = true := by
          rcases hdtype hplain with hle | hsup
          · exact absurd hmax (Nat.not_lt.mpr hle)
          · exact hsup
        exact ⟨hbound hsup, fun row row' hlt hsame =>
          ((hcond row row' hlt hsame).2 hsup).2⟩
      by_cases hmax : 1 < maxSplits
      · obtain ⟨hsome, hadj⟩ := hbands hmax
        obtain ⟨unitStart, hstart⟩ := Option.isSome_iff_exists.mp hsome
        obtain ⟨hstart', -⟩ := makeRowUnitStart_tiled hdm htiled hstart
        subst hstart'
        obtain ⟨rowCuts, hcuts, hall⟩ := hpart.row_mem_cuts hplain
        refine hcuts.keeps_units (fun _ => ⟨_, hstart, hadj.units hstores⟩)
          (hall c hc s hs) (hall c' hc' s' hs') hr hr' hr0 hr0' ?_
        intro unitStart hstart'
        cases hstart.symm.trans hstart'
        exact hadj.unitStart_eq hstores hsame
      · exact keepsBands_of_one_piece hrs hm hpart hplain
          (.inl (Nat.le_of_not_lt hmax)) tsm c hc c' hc' s s' hs hs' r hr r' hr'
          hr0 hr0' hne hsame

end Pieces

/-- Eight rows in one hypercube, tiles of four. -/
def columnTiles : TiledStMan where
  cube _ := ⟨[2, 8], [2, 4]⟩
  getHypercube row := if row < 8 then some (0, [0, row]) else none

/-- Eight rows in two hypercubes in turn, tiles of two. -/
def shapeTiles : TiledStMan where
  cube c := ⟨[c + 1, 4], [c + 1, 2]⟩
  getHypercube row := if row < 8 then some (row % 2, [0, row / 2]) else none

/-- A column of cells of one axis, kept by a tiled storage manager. -/
def tiledColumn (type : DataManagerType) (tsm : TiledStMan) : ColumnStorage where
  isRootTable := true
  dataManager := some ⟨type, some tsm, none⟩
  ndim := 1

theorem columnTiles_stored {row c : Nat} {place : IPosition}
    (h : columnTiles.stored row = some (c, place)) :
    row < 8 ∧ c = 0 ∧ place = [0, row] := by
  rcases Nat.lt_or_ge row 8 with hlt | hge
  · have hstored : columnTiles.stored row = some (0, [0, row]) := by
      simp [TiledStMan.stored, columnTiles, hlt]
    rw [hstored] at h
    cases h
    exact ⟨hlt, rfl, rfl⟩
  · have hnone : columnTiles.stored row = none := by
      simp [TiledStMan.stored, columnTiles, Nat.not_lt.mpr hge]
    rw [hnone] at h
    cases h

theorem columnTiles_stores : columnTiles.StoresRows 1 where
  position := by
    intro row c place h
    obtain ⟨hlt, rfl, rfl⟩ := columnTiles_stored h
    have hcount : ∀ row < 8, row = columnTiles.rowsBefore 0 row := by decide
    exact hcount row hlt
  tile_pos := by
    intro row c place h
    exact (by decide : 0 < 4)
  axes := by
    intro row c place h _
    obtain ⟨-, -, rfl⟩ := columnTiles_stored h
    rfl

theorem shapeTiles_stored {row c : Nat} {place : IPosition}
    (h : shapeTiles.stored row = some (c, place)) :
    row < 8 ∧ c = row % 2 ∧ place = [0, row / 2] := by
  rcases Nat.lt_or_ge row 8 with hlt | hge
  · have hstored : shapeTiles.stored row = some (row % 2, [0, row / 2]) := by
      simp [TiledStMan.stored, shapeTiles, hlt]
    rw [hstored] at h
    cases h
    exact ⟨hlt, rfl, rfl⟩
  · have hnone : shapeTiles.stored row = none := by
      simp [TiledStMan.stored, shapeTiles, Nat.not_lt.mpr hge]
    rw [hnone] at h
    cases h

theorem shapeTiles_stores : shapeTiles.StoresRows 1 where
  position := by
    intro row c place h
    obtain ⟨hlt, rfl, rfl⟩ := shapeTiles_stored h
    have hcount : ∀ row < 8, row / 2 = shapeTiles.rowsBefore (row % 2) row := by
      decide
    exact hcount row hlt
  tile_pos := by
    intro row c place h
    exact (by decide : 0 < 2)
  axes := by
    intro row c place h _
    obtain ⟨-, -, rfl⟩ := shapeTiles_stored h
    rfl

/-- The bands of one hypercube are adjacent. -/
theorem columnTiles_adjacent : columnTiles.BandsAdjacent := by
  intro row row' hlt hsame between hlo hhi
  rw [columnTiles_stores.sameBand_iff] at hsame ⊢
  obtain ⟨c, hin, hin', hquot⟩ := hsame
  obtain ⟨place, hplace⟩ := TiledStMan.inCube_iff.mp hin
  obtain ⟨place', hplace'⟩ := TiledStMan.inCube_iff.mp hin'
  obtain ⟨hrow, rfl, -⟩ := columnTiles_stored hplace
  obtain ⟨hrow', -, -⟩ := columnTiles_stored hplace'
  have hall : ∀ row < 8, columnTiles.inCube 0 row = true
      ∧ columnTiles.rowsBefore 0 row = row := by decide
  have hmid := hall between (by omega)
  refine ⟨0, hin, hmid.1, ?_⟩
  rw [(hall row hrow).2, (hall row' hrow').2] at hquot
  rw [(hall row hrow).2, hmid.2]
  have htile : columnTiles.tileRows 0 = 4 := rfl
  rw [htile] at hquot ⊢
  omega

/-- Rows of two bands of one hypercube, in two pieces. -/
theorem keeps_bands_sample :
    ∃ p, DataPartition.make .insertion ⟨[[1, 5]]⟩ sampleShape
          ⟨2, 0, makeRowUnitStart (tiledColumn .tiledColumnStMan columnTiles)⟩
            = .ok p
      ∧ p.dataChunks.length = 2 ∧ p.KeepsBands columnTiles := by
  refine ⟨_, rfl, rfl, ?_⟩
  exact (@keeps_bands_iff _ (tiledColumn .tiledColumnStMan columnTiles) _ _
    rfl rfl columnTiles_stores sampleShape_consistent rfl).mpr
    (.inr fun row row' hlt hsame =>
      ⟨rfl, fun _ => ⟨rfl, columnTiles_adjacent row row' hlt hsame⟩⟩)
    .insertion ⟨[[1, 5]]⟩ 2 0 _
    (pairSelection_matches sampleShape_consistent 1 5 (Nat.le_refl 2)).1 rfl

/-- The first two rows of the first hypercube, rows 0 and 2 of the table,
share a band and are cut apart. -/
theorem interleaved_bands_cut :
    shapeTiles.StoresRows 1 ∧ shapeTiles.SameBand 0 2
      ∧ Selection.Matches ⟨[[0, 2]]⟩ sampleShape
      ∧ ∃ p, DataPartition.make .insertion ⟨[[0, 2]]⟩ sampleShape
            ⟨2, 0, makeRowUnitStart (tiledColumn .tiledShapeStMan shapeTiles)⟩
              = .ok p
          ∧ ¬ p.KeepsBands shapeTiles := by
  have hsame : shapeTiles.SameBand 0 2 := ⟨(0, 0), rfl, rfl⟩
  obtain ⟨p, hm, hp, hcut⟩ := @pairSelection_cut _
    sampleShape_consistent ⟨rfl, rfl⟩ rfl (Nat.le_refl 2) 0 2 (by decide)
    (makeRowUnitStart (tiledColumn .tiledShapeStMan shapeTiles)) _ hsame
    (by decide)
  exact ⟨shapeTiles_stores, hsame, hm, p, hp, hcut⟩

end Arcae
