/-
The unit starts of a column that fills one hypercube.

Rows count through the row axes of the hypercube, fastest first
(`ColumnStorage.Fills`), so a band of tiles along the last axis holds a
block of consecutive rows: the tile size along the last axis, times the
volume of the other row axes. The Horner loop of the source is the
remainder of the row's number in that block (`bandOffset_eq`), whatever
the tile sizes along the other axes, and subtracting it leads to the
first row of the block. The other properties of unit starts are those of
rounding down to a multiple.
-/
import Arcae.Proofs.RowUnits
import Mathlib.Order.Bounds.Basic

namespace Arcae

open FOrder

-- ============================================================ rounding down

/-- Number `i` taken back to the start of its block of `w`. -/
def blockStart (w i : Nat) : Nat := i - i % w

theorem blockStart_eq_mul (w i : Nat) : blockStart w i = w * (i / w) := by
  have := Nat.div_add_mod i w
  rw [blockStart]
  omega

theorem blockStart_le (w i : Nat) : blockStart w i ≤ i := Nat.sub_le _ _

/-- Two numbers have one block start exactly if they are in one block. -/
theorem blockStart_eq_iff {w : Nat} (hw : 0 < w) {i j : Nat} :
    blockStart w i = blockStart w j ↔ i / w = j / w := by
  rw [blockStart_eq_mul, blockStart_eq_mul]
  exact Nat.mul_right_inj (Nat.ne_of_gt hw)

/-- The start of a block is in the block. -/
theorem blockStart_div {w : Nat} (hw : 0 < w) (i : Nat) :
    blockStart w i / w = i / w := by
  rw [blockStart_eq_mul, Nat.mul_div_cancel_left _ hw]

theorem blockStart_mono {w i j : Nat} (h : i ≤ j) :
    blockStart w i ≤ blockStart w j := by
  rw [blockStart_eq_mul, blockStart_eq_mul]
  exact Nat.mul_le_mul_left w (Nat.div_le_div_right h)

-- ============================================================ the hypercube

/-- The storage of one hypercube: the sizes of the cell axes and of the
row axes, of the cube and of its tiles, the last row axis apart. -/
structure Hypercube where
  cellShape : IPosition
  cellTile : IPosition
  rowShape : IPosition
  rowTile : IPosition
  lastSize : Nat
  lastTile : Nat
  cell_axes : cellTile.length = cellShape.length
  row_axes : rowTile.length = rowShape.length
  tile_pos : 0 < lastTile

namespace Hypercube

variable (cube : Hypercube)

/-- The cube as the storage manager describes it. -/
def tsmCube : TSMCube where
  cubeShape := cube.cellShape ++ (cube.rowShape ++ [cube.lastSize])
  tileShape := cube.cellTile ++ (cube.rowTile ++ [cube.lastTile])

/-- The number of rows. -/
def nRows : Nat := (cube.rowShape ++ [cube.lastSize]).prod

/-- The number of rows in a whole band of tiles along the last axis. -/
def bandRows : Nat := cube.rowShape.prod * cube.lastTile

/-- The position of the cell of the row numbered `i`: the digits of its
number along the row axes. -/
def position (cell : IPosition) (i : Nat) : IPosition :=
  cell ++ unflat (cube.rowShape ++ [cube.lastSize]) i

end Hypercube

/-- The rows from `base` on fill hypercube `c`, and nothing else is in
it. A column of a known rank has as many cell axes as that; cells of
other columns have one row axis after them, unless the storage manager
is a TiledDataStMan. -/
structure ColumnStorage.Fills (column : ColumnStorage) (tsm : TiledStMan)
    (c base : Nat) (cube : Hypercube) : Prop where
  dataManager : ∃ dm, column.dataManager = some dm ∧ dm.tiled = some tsm
    ∧ (column.ndim ≤ 0 → dm.dataManagerType ≠ .tiledDataStMan →
        cube.rowShape = [])
  cube_eq : tsm.cube c = cube.tsmCube
  cell_axes : 0 < column.ndim → column.ndim = cube.cellShape.length
  rows : ∃ cell : IPosition, cell.length = cube.cellShape.length
    ∧ ∀ row place, tsm.getHypercube row = some (c, place)
      ↔ base ≤ row ∧ row < base + cube.nRows
        ∧ place = cube.position cell (row - base)

-- =========================================================== the Horner loop

namespace Hypercube

variable {cube : Hypercube}

/-- The axes after the cell axes and before the last are the row axes the
loop visits. -/
theorem filter_range_eq_range' (k m : Nat) :
    (List.range (k + m)).filter (fun d => decide (k ≤ d)) = List.range' k m := by
  rw [List.range_add, List.filter_append, List.filter_eq_nil_iff.mpr,
    List.nil_append, List.filter_eq_self.mpr, List.range'_eq_map_range]
  · intro d hd
    obtain ⟨i, -, rfl⟩ := List.mem_map.mp hd
    exact decide_eq_true (Nat.le_add_right k i)
  · intro d hd
    have := List.mem_range.mp hd
    rw [decide_eq_true_eq]
    omega

/-- An axis of the rows is found after those of the cell. -/
theorem getD_row {cell row : IPosition} (last : Nat) {k d : Nat}
    (hcell : cell.length = k) (hd : d < row.length) :
    (cell ++ (row ++ [last])).getD (k + d) 0 = row.getD d 0 := by
  subst hcell
  rw [List.getD_eq_getElem?_getD, List.getD_eq_getElem?_getD,
    List.getElem?_append_right (Nat.le_add_right _ _), Nat.add_sub_cancel_left,
    List.getElem?_append_left hd]

/-- The last axis is found after all others. -/
theorem getD_last {cell row : IPosition} (last : Nat) {k m : Nat}
    (hcell : cell.length = k) (hrow : row.length = m) :
    (cell ++ (row ++ [last])).getD (k + m) 0 = last := by
  subst hcell hrow
  rw [List.getD_eq_getElem?_getD,
    List.getElem?_append_right (Nat.le_add_right _ _), Nat.add_sub_cancel_left,
    List.getElem?_concat_length, Option.getD_some]

theorem position_eq (cube : Hypercube) (cell : IPosition) (i : Nat) :
    cube.position cell i
      = cell ++ (unflat cube.rowShape i
          ++ [i / cube.rowShape.prod % cube.lastSize]) := by
  rw [position, unflat_append_singleton]

theorem position_length (cube : Hypercube) {cell : IPosition}
    (hcell : cell.length = cube.cellShape.length) (i : Nat) :
    (cube.position cell i).length
      = cube.cellShape.length + cube.rowShape.length + 1 := by
  rw [position, List.length_append, unflat_length, List.length_append,
    List.length_singleton, hcell, Nat.add_assoc]

/-- The last digit of a row's number is not cut off. -/
theorem lastDigit_lt {i : Nat} (hi : i < cube.nRows) :
    i / cube.rowShape.prod < cube.lastSize := by
  rw [nRows, List.prod_append, List.prod_singleton] at hi
  exact Nat.div_lt_of_lt_mul hi

/-- The offset of a row in its band is the remainder of its number. -/
theorem bandOffset_eq {cell : IPosition}
    (hcell : cell.length = cube.cellShape.length) {i : Nat}
    (hi : i < cube.nRows) :
    TiledStMan.bandOffset cube.tsmCube (cube.position cell i)
        cube.cellShape.length
      = i % cube.bandRows := by
  have hlast : (cube.position cell i).length - 1
      = cube.cellShape.length + cube.rowShape.length := by
    rw [cube.position_length hcell, Nat.add_sub_cancel]
  have hdigit : (cube.position cell i).getD
      (cube.cellShape.length + cube.rowShape.length) 0
      = i / cube.rowShape.prod := by
    rw [position_eq, getD_last _ hcell (unflat_length _ _),
      Nat.mod_eq_of_lt (lastDigit_lt hi)]
  have htile : cube.tsmCube.tileShape.getD
      (cube.cellShape.length + cube.rowShape.length) 0 = cube.lastTile :=
    getD_last _ cube.cell_axes cube.row_axes
  have haxes : (List.range' cube.cellShape.length cube.rowShape.length).map
      (fun d => (cube.tsmCube.cubeShape.getD d 0, (cube.position cell i).getD d 0))
        = cube.rowShape.zip (unflat cube.rowShape i) := by
    refine List.ext_getElem (by simp) fun d h₁ h₂ => ?_
    have hd : d < cube.rowShape.length := by simpa using h₁
    have hd' : d < (unflat cube.rowShape i).length := by rwa [unflat_length]
    rw [List.getElem_map, List.getElem_range', Nat.one_mul, List.getElem_zip,
      position_eq, getD_row _ hcell hd', tsmCube, getD_row _ rfl hd,
      List.getD_eq_getElem _ _ hd, List.getD_eq_getElem _ _ hd']
  unfold TiledStMan.bandOffset
  dsimp only
  rw [hlast, hdigit, htile, filter_range_eq_range', List.foldl_reverse]
  calc (List.range' cube.cellShape.length cube.rowShape.length).foldr
        (fun d offset => offset * cube.tsmCube.cubeShape.getD d 0
          + (cube.position cell i).getD d 0)
        (i / cube.rowShape.prod % cube.lastTile)
      = (cube.rowShape.zip (unflat cube.rowShape i)).foldr
          (fun axis offset => offset * axis.1 + axis.2)
          (i / cube.rowShape.prod % cube.lastTile) := by
        rw [← haxes, List.foldr_map]
    _ = i % cube.rowShape.prod
          + cube.rowShape.prod * (i / cube.rowShape.prod % cube.lastTile) := by
        rw [foldr_horner (unflat_length _ _), flat_unflat_mod]
    _ = i % cube.bandRows := by rw [bandRows, Nat.mod_mul]

end Hypercube

-- ============================================================== the unit start

section Fills

variable {column : ColumnStorage} {tsm : TiledStMan} {c base row : Nat}
  {cube : Hypercube}

theorem ColumnStorage.Fills.getHypercube
    (h : column.Fills tsm c base cube) (hlo : base ≤ row)
    (hhi : row < base + cube.nRows) :
    ∃ cell : IPosition, cell.length = cube.cellShape.length
      ∧ tsm.getHypercube row = some (c, cube.position cell (row - base)) := by
  obtain ⟨cell, hcell, hrows⟩ := h.rows
  exact ⟨cell, hcell, (hrows row _).mpr ⟨hlo, hhi, rfl⟩⟩

/-- The function returned for the column, where there is one. -/
theorem ColumnStorage.Fills.unitStart_eq (h : column.Fills tsm c base cube)
    {unitStart : RowUnitStart} (hstart : makeRowUnitStart column = some unitStart) :
    unitStart = tsm.unitStart column.ndim
      ∧ (column.ndim ≤ 0 → cube.rowShape = []) := by
  obtain ⟨dm, hdm, htiled, haxes⟩ := h.dataManager
  obtain ⟨heq, hnot⟩ := makeRowUnitStart_tiled hdm htiled hstart
  refine ⟨heq, fun hle => haxes hle fun htype => ?_⟩
  exact hnot ⟨hle, htype⟩

/-- The unit of a row starts at the block of its number. -/
theorem ColumnStorage.Fills.unitStart_row (h : column.Fills tsm c base cube)
    (hsingle : column.ndim ≤ 0 → cube.rowShape = []) (hlo : base ≤ row)
    (hhi : row < base + cube.nRows) :
    tsm.unitStart column.ndim row
      = base + blockStart cube.bandRows (row - base) := by
  obtain ⟨cell, hcell, hget⟩ := h.getHypercube hlo hhi
  have hlen := cube.position_length hcell (row - base)
  have hcube : cube.tsmCube.cubeShape.length
      = cube.cellShape.length + cube.rowShape.length + 1 := by
    simp [Hypercube.tsmCube, Nat.add_assoc]
  have htile : cube.tsmCube.tileShape.length
      = cube.cellShape.length + cube.rowShape.length + 1 := by
    simp [Hypercube.tsmCube, Nat.add_assoc, cube.cell_axes, cube.row_axes]
  -- the first row axis is the one after the cell
  have hfirst : (if 0 < column.ndim then column.ndim
      else ((cube.position cell (row - base)).length : Int) - 1)
        = cube.cellShape.length := by
    by_cases hndim : 0 < column.ndim
    · rw [if_pos hndim, h.cell_axes hndim]
    · rw [if_neg hndim, hlen, hsingle (by omega)]
      simp
  have hoffset := Hypercube.bandOffset_eq hcell (show row - base < cube.nRows by omega)
  have hmod := Nat.mod_le (row - base) cube.bandRows
  unfold TiledStMan.unitStart
  rw [hget]
  dsimp only
  rw [h.cube_eq, hfirst, Int.toNat_natCast, hoffset, hlen, hcube, htile]
  rw [if_neg (by omega), if_pos (by omega), blockStart]
  omega

/-- Rows share a band exactly if they share a block of rows. -/
theorem ColumnStorage.Fills.sameBand_iff (h : column.Fills tsm c base cube)
    (hlo : base ≤ row) (hhi : row < base + cube.nRows) (row' : Nat) :
    tsm.SameBand row row'
      ↔ base ≤ row' ∧ row' < base + cube.nRows
        ∧ (row - base) / cube.bandRows = (row' - base) / cube.bandRows := by
  have hband : ∀ {r : Nat}, base ≤ r → r < base + cube.nRows →
      tsm.band r = some (c, (r - base) / cube.bandRows) := by
    intro r hlo hhi
    obtain ⟨cell, hcell, hget⟩ := h.getHypercube hlo hhi
    have hlen := cube.position_length hcell (r - base)
    have hi : r - base < cube.nRows := by omega
    have hstored : tsm.stored r = some (c, cube.position cell (r - base)) := by
      rw [TiledStMan.stored, hget]
      refine Option.filter_eq_some_iff.mpr ⟨rfl, decide_eq_true ⟨?_, ?_, ?_⟩⟩
      · refine List.ne_nil_of_length_pos ?_
        show 0 < (cube.position cell (r - base)).length
        omega
      · simp [h.cube_eq, Hypercube.tsmCube, hlen, Nat.add_assoc, cube.cell_axes,
          cube.row_axes]
      · simp [h.cube_eq, Hypercube.tsmCube, hlen, Nat.add_assoc]
    have hdigit : (cube.position cell (r - base)).getLastD 0
        = (r - base) / cube.rowShape.prod := by
      rw [Hypercube.position_eq, ← List.append_assoc, List.getLastD_concat,
        Nat.mod_eq_of_lt (Hypercube.lastDigit_lt hi)]
    have htile : tsm.tileRows c = cube.lastTile := by
      rw [TiledStMan.tileRows, h.cube_eq]
      show (cube.cellTile ++ (cube.rowTile ++ [cube.lastTile])).getLastD 0 = _
      rw [← List.append_assoc, List.getLastD_concat]
    rw [TiledStMan.band, hstored, Option.map_some, hdigit, htile,
      Nat.div_div_eq_div_mul]
    rfl
  have hrow := hband hlo hhi
  constructor
  · intro hsame
    obtain ⟨b, hb, hb'⟩ := hsame
    rw [hrow, Option.some.injEq] at hb
    subst hb
    -- a row of the same band is in the hypercube
    have hin : ∃ place, tsm.getHypercube row' = some (c, place) := by
      rw [TiledStMan.band, Option.map_eq_some_iff] at hb'
      obtain ⟨place, hplace, heq⟩ := hb'
      rw [Prod.mk.injEq] at heq
      rw [TiledStMan.stored, Option.filter_eq_some_iff] at hplace
      exact ⟨place.2, by rw [hplace.1, ← heq.1]⟩
    obtain ⟨place, hplace⟩ := hin
    obtain ⟨cell, -, hrows⟩ := h.rows
    obtain ⟨hlo', hhi', -⟩ := (hrows row' place).mp hplace
    rw [hband hlo' hhi', Option.some.injEq, Prod.mk.injEq] at hb'
    exact ⟨hlo', hhi', hb'.2.symm⟩
  · intro hx
    obtain ⟨hlo', hhi', heq⟩ := hx
    exact ⟨_, hrow, by rw [hband hlo' hhi', heq]⟩

/-- The function returned for a column that fills one hypercube maps each
row to the first row of its band. -/
theorem makeRowUnitStart_exact (h : column.Fills tsm c base cube)
    {unitStart : RowUnitStart}
    (hstart : makeRowUnitStart column = some unitStart) :
    (∀ row, base ≤ row → row < base + cube.nRows →
      IsLeast {r | tsm.SameBand row r} (unitStart row)
        ∧ unitStart row ≤ row
        ∧ unitStart (unitStart row) = unitStart row)
      ∧ ∀ row row', base ≤ row → row < base + cube.nRows →
        base ≤ row' → row' < base + cube.nRows →
        (row ≤ row' → unitStart row ≤ unitStart row')
          ∧ (unitStart row = unitStart row' ↔ tsm.SameBand row row') := by
  obtain ⟨rfl, hsingle⟩ := h.unitStart_eq hstart
  have hunit : ∀ row, base ≤ row → row < base + cube.nRows →
      tsm.unitStart column.ndim row
        = base + blockStart cube.bandRows (row - base) :=
    fun row hlo hhi => h.unitStart_row hsingle hlo hhi
  have hwide : ∀ row, base ≤ row → row < base + cube.nRows →
      0 < cube.bandRows := by
    intro row hlo hhi
    have hpos : 0 < cube.nRows := by omega
    rw [Hypercube.nRows, List.prod_append] at hpos
    exact Nat.mul_pos (Nat.pos_of_mul_pos_right hpos) cube.tile_pos
  refine ⟨fun row hlo hhi => ?_, fun row row' hlo hhi hlo' hhi' => ?_⟩
  · have hw := hwide row hlo hhi
    have hle := blockStart_le cube.bandRows (row - base)
    have hdiv := blockStart_div hw (row - base)
    rw [hunit row hlo hhi]
    refine ⟨⟨?_, ?_⟩, by omega, ?_⟩
    · refine (h.sameBand_iff hlo hhi _).mpr ⟨by omega, by omega, ?_⟩
      rw [Nat.add_sub_cancel_left, hdiv]
    · intro r hr
      obtain ⟨hlo', hhi', hsame⟩ := (h.sameBand_iff hlo hhi r).mp hr
      have := blockStart_le cube.bandRows (r - base)
      rw [← (blockStart_eq_iff hw).mpr hsame] at this
      omega
    · rw [hunit _ (by omega) (by omega), Nat.add_sub_cancel_left,
        (blockStart_eq_iff hw).mpr hdiv]
  · have hw := hwide row hlo hhi
    rw [hunit row hlo hhi, hunit row' hlo' hhi', h.sameBand_iff hlo hhi row']
    refine ⟨fun hle => ?_, ?_⟩
    · exact Nat.add_le_add_left
        (blockStart_mono (Nat.sub_le_sub_right hle base)) base
    · rw [Nat.add_left_cancel_iff, blockStart_eq_iff hw]
      exact ⟨fun heq => ⟨hlo', hhi', heq⟩, fun hx => hx.2.2⟩

end Fills

-- ================================================================== sample

/-- Four baselines and six times, in tiles of two baselines and four
times. -/
def gridCube : Hypercube where
  cellShape := [2]
  cellTile := [2]
  rowShape := [4]
  rowTile := [2]
  lastSize := 6
  lastTile := 4
  cell_axes := rfl
  row_axes := rfl
  tile_pos := Nat.succ_pos 3

/-- The grid, from row 3 on. -/
def gridTiles : TiledStMan where
  cube _ := gridCube.tsmCube
  getHypercube row :=
    if 3 ≤ row ∧ row < 27 then some (0, gridCube.position [0] (row - 3)) else none

def gridColumn : ColumnStorage where
  isRootTable := true
  dataManager := some ⟨.tiledDataStMan, some gridTiles, none⟩
  ndim := 1

theorem gridColumn_fills : gridColumn.Fills gridTiles 0 3 gridCube where
  dataManager := ⟨_, rfl, rfl, fun h => absurd h (by decide)⟩
  cube_eq := rfl
  cell_axes := fun _ => rfl
  rows := by
    refine ⟨[0], rfl, fun row place => ?_⟩
    have hrows : gridCube.nRows = 24 := by decide
    rw [hrows]
    show (if 3 ≤ row ∧ row < 27 then some (0, gridCube.position [0] (row - 3))
      else none) = some (0, place) ↔ _
    split
    next hin =>
      rw [Option.some.injEq, Prod.mk.injEq]
      exact ⟨fun h => ⟨hin.1, hin.2, h.2.symm⟩, fun h => ⟨rfl, h.2.2.symm⟩⟩
    next hout =>
      constructor
      · intro h
        cases h
      · intro h
        exact absurd ⟨h.1, h.2.1⟩ hout

/-- The last, partial band of the grid starts at row 19. -/
theorem makeRowUnitStart_exact_sample :
    ∃ unitStart, makeRowUnitStart gridColumn = some unitStart
      ∧ unitStart 22 = 19
      ∧ IsLeast {r | gridTiles.SameBand 22 r} (unitStart 22) := by
  refine ⟨_, rfl, by decide, ?_⟩
  exact ((makeRowUnitStart_exact gridColumn_fills rfl).1 22 (by decide)
    (by decide)).1

end Arcae
