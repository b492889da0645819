/-
Reading into a result of another type.

`GetResultBuffer` compares byte counts. What it lets through is read as
bits of the column's type and read back as numbers of the result's, and
the leaf values of the result need not even lie where the elements do:
a narrower type has more slots than there are parts, and an array may
start at any of them.

# When it is right

For all cell values at once (`ReadsBack`), the numbers read back are the
column's only if the two types make the same numbers of the same bits,
what is read is put in its place and no null of the result is read into,
or nothing is read at all (`reads_back_iff`). A constant column shows it for any other
type: its telling number is in no piece of its bits (`tells_apart`), and
a slot nothing is read into is the same for every column.

One narrower type has the right numbers in some of its slots: the lowest
bit of a `Bool` is the number, so a `bool` result reads back a value that
falls on the first bit of a byte, if that byte is read from the same
element (`FirstBits`).
-/
import Arcae.Proofs.Numbers
import Arcae.Proofs.ResultSlips

namespace Arcae

open FOrder Loops Scatter Words

variable {α : Type} {col : TableColumn α} {sel sel' : Selection}
  {rs rs' : ResultShapeData} {result : ResultArray} {srt : StdSort}
  {nInstances : Nat} {unitStart : Option RowUnitStart}
  {configured : Option String} {schedule : List DataChunk → List DataChunk}
  {layout : ElementLayout col.columnDesc.dataType α
    (BitVec col.columnDesc.dataType.partWidth)} {p : DataPartition}

-- ================================================================ results

namespace ResultArray

/-- The type of the leaf. -/
def type (result : ResultArray) : ArrowType := result.array.data.leafArray.type

/-- The array over other bits. -/
def withBits (result : ResultArray) (bits : Nat → Bool) : ArrayData Number :=
  result.array.data.withValues
    (slotNumbers result.type (result.size.getD 0) bits)

/-- The slot of the buffer that the first row starts with. -/
def firstSlot (result : ResultArray) : Nat :=
  result.array.data.leafArray.offset + result.array.data.slot 0

end ResultArray

/-- The levels above the leaf say where its slots are. -/
theorem slot_withValues {β : Type} (values : List β) (data : ArrayData β)
    (i : Nat) : (data.withValues values).slot i = data.slot i := by
  induction data generalizing i with
  | leaf slots => rfl
  | list level child ih => exact ih _

/-- The values do not say what is null. -/
theorem isNull_withValues {β : Type} (values : List β) (data : ArrayData β)
    (i : Nat) (idx : List Nat) :
    (data.withValues values).isNull i idx = data.isNull i idx := by
  induction data generalizing i idx with
  | leaf slots => rfl
  | list level child ih =>
      cases idx with
      | nil => rfl
      | cons j idx => exact ih _ idx

/-- The leaf of an array reaches beyond its first slot by all its
parts. -/
theorem firstSlot_le (hfrom : ResultShapeData.fromArray col result.array = .ok rs)
    (hrs : rs.Consistent) (htype : result.type.bitWidth ≠ 0) :
    result.firstSlot + leafWidth col.columnDesc.dataType * rs.nElements
      ≤ 8 * result.size.getD 0 / result.type.bitWidth := by
  have hwf := result.array.wellFormed
  have hdata := getResultShapeData_ok hwf hfrom
  have hlen := hdata.length_eq hrs
  have hlast := hdata.slot_eq hwf hrs (Nat.le_refl _)
  rw [hrs.rowStart_nRows, hdata.dtype] at hlast
  have hslot := ArrayData.slot_le hwf (Nat.le_of_eq hlen.symm)
  have hvalues := ArrayData.leafArray_wellFormed hwf
  rw [result.slots htype, slotNumbers, List.length_map, List.length_range]
    at hvalues
  unfold ResultArray.firstSlot
  exact Nat.le_trans (by omega) hvalues

/-- What the result has at an index over other bits: the number of its
slot. -/
theorem withBits_element
    (hfrom : ResultShapeData.fromArray col result.array = .ok rs)
    (hrs : rs.Consistent) (htype : result.type.bitWidth ≠ 0)
    (bits : Nat → Bool) {k : Nat} (hk : k < rs.nRows) {m : List Nat}
    (hm : InBox m (rs.rowDims k)) {j : Nat}
    (hj : j < leafWidth col.columnDesc.dataType)
    (hposition : rs.position k m < rs.nElements) :
    (result.withBits bits).element k (m.reverse
        ++ if col.columnDesc.dataType.isComplex then [j] else [])
      = some (result.type.number (word bits result.type.bitWidth
          (result.firstSlot + (leafWidth col.columnDesc.dataType
            * rs.position k m + j))).toNat) := by
  set values := slotNumbers result.type (result.size.getD 0) bits with hvalues
  have hcount : values.length = result.array.data.leafArray.values.length := by
    rw [result.slots htype, hvalues, slotNumbers, slotNumbers, List.length_map,
      List.length_map]
    rfl
  have hwf := result.array.wellFormed.withValues hcount
  have hsame : getResultShapeData col.columnDesc
      (result.array.data.withValues values) = .ok rs := by
    rw [getResultShapeData_withValues]
    exact hfrom
  have hdata := getResultShapeData_ok hwf hsame
  have hlen := hdata.length_eq hrs
  have hlast := hdata.slot_eq hwf hrs (Nat.le_refl _)
  rw [hrs.rowStart_nRows, hdata.dtype] at hlast
  have hslot := ArrayData.slot_le hwf (Nat.le_of_eq hlen.symm)
  have hfirst := firstSlot_le hfrom hrs htype
  -- the part is one of those of the elements
  have hpart : leafWidth col.columnDesc.dataType * rs.position k m + j
      < leafWidth col.columnDesc.dataType * rs.nElements := by
    calc leafWidth col.columnDesc.dataType * rs.position k m + j
        < leafWidth col.columnDesc.dataType * (rs.position k m + 1) := by
          rw [Nat.mul_add, Nat.mul_one]
          omega
      _ ≤ _ := Nat.mul_le_mul_left _ hposition
  unfold ResultArray.withBits
  rw [← hvalues, hdata.element_eq hwf hrs hk hm hj,
    ArrayData.slice_getElem? (by omega), ArrayData.withValues_leafArray,
    slot_withValues]
  dsimp only
  rw [hvalues, slotNumbers, List.getElem?_map, List.getElem?_range (by
    unfold ResultArray.firstSlot at hfirst
    omega), Option.map_some]
  unfold ResultArray.firstSlot
  congr 4
  omega

-- =============================================================== the read

/-- A column with the same cells, holding other values. -/
def TableColumn.holding (col : TableColumn α) (value : CellIndex → α) :
    TableColumn α :=
  { col with value := value }

/-- A buffer that is accepted holds the elements to the bit. -/
theorem getResultBufferFor_ok {n : Nat} {dtype : DataType} {u : Unit}
    (hnumeric : dtype.isPrimitive = true)
    (h : getResultBufferFor n dtype result = .ok u) :
    result.type.bitWidth ≠ 0
      ∧ 8 * result.size.getD 0 = n * (leafWidth dtype * dtype.partWidth) := by
  unfold getResultBufferFor at h
  obtain ⟨size, hsize, h⟩ := Result.bind_eq_ok.mp h
  obtain ⟨size', hsize', -, hbits⟩ := casaDataTypeSize_eq hnumeric
  rw [hsize] at hsize'
  cases hsize'
  unfold getResultBuffer at h
  dsimp only at h
  split at h
  · cases h
  · rename_i htype
    refine ⟨htype, ?_⟩
    split at h
    · cases h
    · rename_i bytes hbytes
      split at h
      · cases h
      · rename_i heq
        rw [hbytes, Option.getD_some, not_not.mp heq, ← hbits]
        ring

/-- A read into a result that gets through does so whatever the column
holds, and leaves in the result what the moves carry there. -/
theorem readImplInto_ok (hnumeric : col.columnDesc.dataType.isPrimitive = true)
    (hschedule : ∀ chunks, (schedule chunks).Perm chunks)
    (hfrom : ResultShapeData.fromArray col result.array = .ok rs)
    (hneg : rs.negateMissingSelectedRows col sel = .ok (rs', sel'))
    (hmake : DataPartition.make srt sel' rs' (readSplit nInstances unitStart)
      = .ok p)
    (hrs' : rs'.Consistent) (hm : sel'.Matches rs')
    (hdtype : rs'.dtype = col.columnDesc.dataType)
    {out : ArrayData (BitVec col.columnDesc.dataType.partWidth)
      × (Nat → Bool)}
    (h : readImplInto srt nInstances unitStart configured schedule col layout
      sel result = .ok out) :
    getResultBufferFor p.nElements p.casaDtype result = .ok ()
      ∧ ∃ moves, moves.Perm (movesOf p.dataChunks)
        ∧ (∀ move ∈ moves, col.Has move.2)
        ∧ ∀ value, ∃ array, readImplInto srt nInstances unitStart configured
            schedule (col.holding value) layout sel result
          = .ok (array, layout.bits (Moves.read (col.holding value) moves
              (layout.elements result.bits))) := by
  have hplan : planRead col sel (some result.array) = .ok (rs', sel') := by
    show (ResultShapeData.fromArray col result.array >>= fun rs =>
      rs.negateMissingSelectedRows col sel) = _
    rw [hfrom, Result.ok_bind, hneg]
  obtain ⟨-, hpart⟩ := partitions_of_make hrs' hm hmake
  unfold readImplInto at h
  rw [hplan, Result.ok_bind] at h
  dsimp only at h
  rw [hmake, Result.ok_bind] at h
  obtain ⟨u, hbuffer, h⟩ := Result.bind_eq_ok.mp h
  set chunks := if 1 < nInstances ∧ 1 < p.dataChunks.length
    then schedule p.dataChunks else p.dataChunks with hchunks
  have hperm : chunks.Perm p.dataChunks := scheduled_perm hschedule _
  have hplanned : ∀ c ∈ chunks, c.Planned sel' rs' :=
    fun c hc => hpart.planned c (hperm.mem_iff.mp hc)
  obtain ⟨b, hb, h⟩ := Result.bind_eq_ok.mp h
  obtain ⟨hgood, -⟩ := (readChunks_outcome hrs' hm hplanned col p.casaDtype
    (layout.elements result.bits)).of_ok hb
  obtain ⟨array, harray, -⟩ := Result.bind_eq_ok.mp h
  have hstring : rs'.dtype ≠ .tpString := by
    intro hstring
    rw [← hdtype, hstring] at hnumeric
    cases hnumeric
  refine ⟨hbuffer, movesOf chunks, hperm.flatMap_right _, hgood.2,
    fun value => ?_⟩
  -- nothing before the values depends on them
  have hplan' : planRead (col.holding value) sel (some result.array)
      = .ok (rs', sel') := hplan
  have hgood' : p.casaDtype.supported = true
      ∧ ∀ move ∈ movesOf chunks, (col.holding value).Has move.2 := hgood
  obtain ⟨b', hb', rfl⟩ := (readChunks_outcome hrs' hm hplanned
    (col.holding value) p.casaDtype
    (layout.elements result.bits)).of_good hgood'
  have harray' := makeArray_withValues (layout.values (Moves.read
    (col.holding value) (movesOf chunks) (layout.elements result.bits))
    rs'.nElements) hstring harray
  refine ⟨array.withValues (layout.values (Moves.read (col.holding value)
    (movesOf chunks) (layout.elements result.bits)) rs'.nElements), ?_⟩
  unfold readImplInto
  refine Result.bind_eq_ok.mpr ⟨(rs', sel'), hplan', ?_⟩
  refine Result.bind_eq_ok.mpr ⟨p, hmake, ?_⟩
  refine Result.bind_eq_ok.mpr ⟨u, hbuffer, ?_⟩
  refine Result.bind_eq_ok.mpr ⟨_, hb', ?_⟩
  exact Result.bind_eq_ok.mpr ⟨_, harray', rfl⟩

-- ============================================================== reads back

/-- Reading into the result leaves numbers there that are the column's:
whatever the column holds, if the read succeeds, each part of each
element that is read is found at its index. -/
def ReadsBack (srt : StdSort) (nInstances : Nat)
    (unitStart : Option RowUnitStart) (configured : Option String)
    (schedule : List DataChunk → List DataChunk) (col : TableColumn α)
    (layout : ElementLayout col.columnDesc.dataType α
      (BitVec col.columnDesc.dataType.partWidth))
    (sel : Selection) (result : ResultArray) (rs : ResultShapeData) : Prop :=
  ∀ value : CellIndex → α,
    (∀ a i, col.columnDesc.dataType.IsPart (layout.parts (value a) i).toNat) →
    ∀ array bits, readImplInto srt nInstances unitStart configured schedule
        (col.holding value) layout sel result = .ok (array, bits) →
      ∀ k < rs.nRows, ∀ m, InBox m (rs.rowDims k) → Overwritten col sel k m →
        ∀ i : Fin (leafWidth col.columnDesc.dataType),
          (result.withBits bits).valueAt k (m.reverse
              ++ if col.columnDesc.dataType.isComplex then [(i : Nat)] else [])
            = some (col.columnDesc.dataType.number (layout.parts (value
                ((selectedRow sel k).toNat, sel.diskIndex m)) i).toNat)

/-- The result has no null where it is read into. -/
def NoNullRead (col : TableColumn α) (sel : Selection) (result : ResultArray)
    (rs : ResultShapeData) : Prop :=
  ∀ k < rs.nRows, ∀ m, InBox m (rs.rowDims k) → Overwritten col sel k m →
    ∀ i : Fin (leafWidth col.columnDesc.dataType),
      result.array.data.isNull k (m.reverse
        ++ if col.columnDesc.dataType.isComplex then [(i : Nat)] else []) = false

/-- What a read into a result that gets through comes down to: moves. -/
structure ReadsInto (srt : StdSort) (nInstances : Nat)
    (unitStart : Option RowUnitStart) (configured : Option String)
    (schedule : List DataChunk → List DataChunk) (col : TableColumn α)
    (layout : ElementLayout col.columnDesc.dataType α
      (BitVec col.columnDesc.dataType.partWidth))
    (sel : Selection) (result : ResultArray) (rs : ResultShapeData)
    (sel' : Selection) (rs' : ResultShapeData) (p : DataPartition)
    (moves : List Move) : Prop where
  fromArray : ResultShapeData.fromArray col result.array = .ok rs
  numeric : col.columnDesc.dataType.isPrimitive = true
  type : result.type.bitWidth ≠ 0
  size : 8 * result.size.getD 0 = rs.nElements
    * (leafWidth col.columnDesc.dataType * col.columnDesc.dataType.partWidth)
  consistent : rs.Consistent
  consistent' : rs'.Consistent
  isMatch : sel'.Matches rs'
  partition : p.Partitions sel' rs' (readSplit nInstances unitStart)
  nRows : rs'.nRows = rs.nRows
  rowDims : ∀ k, rs'.rowDims k = rs.rowDims k
  position : ∀ k m, rs'.position k m = rs.position k m
  nElements : rs'.nElements = rs.nElements
  fitted : ∃ dims n, IsResult rs dims n ∧ IsFitted col sel rs dims rs' sel'
  live : ∀ k < rs.nRows, ∀ m, InBox m (rs.rowDims k) →
    (ElementLive sel' rs' k m ↔ Overwritten col sel k m)
      ∧ (Overwritten col sel k m → elementAddress sel' rs' k m
          = ((selectedRow sel k).toNat, sel.diskIndex m))
  perm : moves.Perm (movesOf p.dataChunks)
  runs : ∀ value, ∃ array, readImplInto srt nInstances unitStart configured
      schedule (col.holding value) layout sel result
    = .ok (array, layout.bits (Moves.read (col.holding value) moves
        (layout.elements result.bits)))

/-- A fitted read can only be of a result of fixed shape. -/
theorem isFixed_of_negate
    (h : rs.negateMissingSelectedRows col sel = .ok (rs', sel')) :
    rs.isFixed = true := by
  unfold ResultShapeData.negateMissingSelectedRows at h
  unfold ResultShapeData.isFixed
  cases hs : rs.shape with
  | none =>
      simp only [hs] at h
      cases h
  | some shape => rfl

/-- A read into a result of matching sizes that gets through is one of
moves. -/
theorem readsInto_of_ok (hnumeric : col.columnDesc.dataType.isPrimitive = true)
    (hschedule : ∀ chunks, (schedule chunks).Perm chunks)
    (hfrom : ResultShapeData.fromArray col result.array = .ok rs)
    (hrows : rs.nRows = selectedRows sel col.nrow)
    (hsizes : ∀ d < rs.rank - 1, ∀ ids, sel.selected rs d = some ids →
      (rs.rowDims 0)[d]? = some ids.length)
    {out : ArrayData (BitVec col.columnDesc.dataType.partWidth)
      × (Nat → Bool)}
    (h : readImplInto srt nInstances unitStart configured schedule col layout
      sel result = .ok out) :
    ∃ sel' rs' p moves, ReadsInto srt nInstances unitStart configured schedule
      col layout sel result rs sel' rs' p moves := by
  obtain ⟨rs', sel', p, hneg, hmake⟩ : ∃ rs' sel' p,
      rs.negateMissingSelectedRows col sel = .ok (rs', sel')
        ∧ DataPartition.make srt sel' rs' (readSplit nInstances unitStart)
          = .ok p := by
    have hread := h
    unfold readImplInto at hread
    obtain ⟨⟨rs', sel'⟩, hplan, hread⟩ := Result.bind_eq_ok.mp hread
    obtain ⟨p, hmake, -⟩ := Result.bind_eq_ok.mp hread
    have hneg : (ResultShapeData.fromArray col result.array >>= fun rs =>
      rs.negateMissingSelectedRows col sel) = .ok (rs', sel') := hplan
    rw [hfrom, Result.ok_bind] at hneg
    exact ⟨rs', sel', p, hneg, hmake⟩
  obtain ⟨dims, hres, hfit, hm⟩ := fitted_of_matching hfrom
    (isFixed_of_negate hneg) hrows hsizes hneg hmake
  have hres' := hfit.isResult hres
  have hrs' := hfit.consistent hres
  have hdata := getResultShapeData_ok result.array.wellFormed hfrom
  have hshape : rs'.shape = rs.shape := hres'.shape.trans hres.shape.symm
  have hdtype : rs'.dtype = col.columnDesc.dataType := by
    rw [hfit.eq]
    exact hdata.dtype
  have hnElements : rs'.nElements = rs.nElements := by
    rw [hfit.eq]
    rfl
  obtain ⟨-, hpart⟩ := partitions_of_make hrs' hm hmake
  obtain ⟨hbuffer, moves, hperm, hhas, hruns⟩ :=
    readImplInto_ok hnumeric hschedule hfrom hneg hmake hrs' hm hdtype h
  rw [hpart.dtype, hdtype, hpart.nElements_eq hrs' hm, hnElements] at hbuffer
  obtain ⟨htype, hsize⟩ := getResultBufferFor_ok hnumeric hbuffer
  have hrs : rs.Consistent := hdata.consistent (by
    rw [hres.shape]
    intro hnil
    exact List.append_ne_nil_of_right_ne_nil _ (List.cons_ne_nil _ _)
      (Option.some.inj hnil)) (by
    intro hnone
    rw [hres.shape] at hnone
    cases hnone)
  -- addresses do not depend on where a chunk is put
  have hplanHas : ∀ move ∈ planMoves sel' rs', col.Has move.2 := by
    intro move hmove
    have hmem := (movesOf_addresses_perm hpart).mem_iff.mpr
      (List.mem_map.mpr ⟨move, hmove, rfl⟩)
    obtain ⟨other, hother, heq⟩ := List.mem_map.mp hmem
    rw [← heq]
    exact hhas other (hperm.mem_iff.mpr hother)
  exact ⟨sel', rs', p, moves,
    { fromArray := hfrom
      numeric := hnumeric
      type := htype
      size := hsize
      consistent := hrs
      consistent' := hrs'
      isMatch := hm
      partition := hpart
      nRows := hres'.nRows.trans hres.nRows.symm
      rowDims := fun k => (hres'.rowDims k).trans (hres.rowDims k).symm
      position := by
        intro k m
        rw [hfit.eq]
        rfl
      nElements := hnElements
      fitted := ⟨dims, _, hres, hfit⟩
      live := fun k hk m hbox => hfit.overwritten_iff hres hm hplanHas hk
        (by rwa [hres.rowDims] at hbox)
      perm := hperm
      runs := hruns }⟩

/-- Carrying moves leaves what one of them carries, or what was there. -/
theorem read_mem_or {col : TableColumn α} {moves : List Move} (q : Int)
    (buffer : Memory α) :
    (∃ a, (q, a) ∈ moves ∧ Moves.read col moves buffer q = col.value a)
      ∨ (q ∉ moves.map Prod.fst ∧ Moves.read col moves buffer q = buffer q) := by
  by_cases hq : q ∈ moves.map Prod.fst
  · have hkeys : q ∈ (Moves.values col moves).map Prod.fst := by
      rw [Moves.values, List.map_map]
      exact hq
    rcases @scatter_mem_or _ _ _ buffer (Moves.values col moves) q with
      hin | hout
    · obtain ⟨move, hmove, heq⟩ := List.mem_map.mp hin
      obtain ⟨rfl, hvalue⟩ := Prod.mk.inj heq
      exact .inl ⟨move.2, hmove, hvalue.symm⟩
    · exact absurd hkeys hout
  · exact .inr ⟨hq, read_uncovered col hq buffer⟩

/-- An element all of whose parts are the same bits. -/
def ElementLayout.uniform {dtype : DataType}
    (layout : ElementLayout dtype α (BitVec dtype.partWidth)) (bits : Nat) : α :=
  layout.parts.symm fun _ => BitVec.ofNat dtype.partWidth bits

theorem ElementLayout.toNat_uniform {dtype : DataType}
    (layout : ElementLayout dtype α (BitVec dtype.partWidth)) {bits : Nat}
    (hlt : bits < 2 ^ dtype.partWidth) (i : Fin (leafWidth dtype)) :
    (layout.parts (layout.uniform bits) i).toNat = bits := by
  rw [uniform, Equiv.apply_symm_apply, BitVec.toNat_ofNat,
    Nat.mod_eq_of_lt hlt]

/-- The slot of a leaf is a piece of a part of an element. -/
structure PieceAt (dtype : DataType) (type : ArrowType) (slot element : Nat)
    (i : Fin (leafWidth dtype)) (r : Nat) : Prop where
  slot : slot = (leafWidth dtype * element + i)
    * (dtype.partWidth / type.bitWidth) + r
  piece : r < dtype.partWidth / type.bitWidth

theorem exists_pieceAt {dtype : DataType} {type : ArrowType}
    (htype : type.bitWidth ≠ 0) (hle : type.bitWidth ≤ dtype.partWidth)
    (slot : Nat) : ∃ element i r, PieceAt dtype type slot element i r := by
  have hpos : 0 < dtype.partWidth / type.bitWidth :=
    Nat.div_pos hle (Nat.pos_of_ne_zero htype)
  refine ⟨slot / (dtype.partWidth / type.bitWidth) / leafWidth dtype,
    ⟨slot / (dtype.partWidth / type.bitWidth) % leafWidth dtype,
      Nat.mod_lt _ (leafWidth_pos dtype)⟩,
    slot % (dtype.partWidth / type.bitWidth), ?_, Nat.mod_lt _ hpos⟩
  rw [Nat.div_add_mod, Nat.mul_comm, Nat.div_add_mod]

/-- What a slot holds, when its buffer holds some elements. -/
theorem PieceAt.word_eq {dtype : DataType} {type : ArrowType}
    {slot element r : Nat} {i : Fin (leafWidth dtype)}
    (h : PieceAt dtype type slot element i r) (htype : type.bitWidth ≠ 0)
    (hle : type.bitWidth ≤ dtype.partWidth)
    (layout : ElementLayout dtype α (BitVec dtype.partWidth))
    (buffer : Memory α) :
    (word (layout.bits buffer) type.bitWidth slot).toNat
      = (layout.parts (buffer (element : Nat)) i).toNat
          / 2 ^ (type.bitWidth * r) % 2 ^ type.bitWidth := by
  have hpos : 0 < dtype.partWidth / type.bitWidth :=
    Nat.zero_lt_of_lt h.piece
  have hdiv : slot / (dtype.partWidth / type.bitWidth)
      = leafWidth dtype * element + i := by
    rw [h.slot, Nat.mul_comm, Nat.mul_add_div hpos, Nat.div_eq_of_lt h.piece,
      Nat.add_zero]
  have hmod : slot % (dtype.partWidth / type.bitWidth) = r := by
    rw [h.slot, Nat.mul_comm, Nat.mul_add_mod, Nat.mod_eq_of_lt h.piece]
  have helement : (leafWidth dtype * element + i) / leafWidth dtype = element := by
    rw [Nat.mul_add_div (leafWidth_pos dtype), Nat.div_eq_of_lt i.isLt,
      Nat.add_zero]
  have hpart : (leafWidth dtype * element + i) % leafWidth dtype = i := by
    rw [Nat.mul_add_mod, Nat.mod_eq_of_lt i.isLt]
  rw [word_eq_piece (partWidth_eq_mul htype hle) hpos, toNat_piece, hdiv, hmod]
  unfold ElementLayout.bits
  rw [word_ofWords]
  simp only [helement, hpart]

namespace ReadsInto

variable {moves : List Move}
  (h : ReadsInto srt nInstances unitStart configured schedule col layout sel
    result rs sel' rs' p moves)

include h

theorem position_lt {k : Nat} (hk : k < rs.nRows) {m : List Nat}
    (hbox : InBox m (rs.rowDims k)) : rs.position k m < rs.nElements := by
  obtain ⟨ht, hlen⟩ := @transferOf_of_inBox sel' _ h.consistent' h.isMatch _
    (h.nRows ▸ hk) m (by rwa [h.rowDims])
  have hlt := Arcae.position_lt h.consistent' h.isMatch ht
  rwa [transferOf_position hlen, h.position, h.nElements] at hlt

/-- If there is an element, leaf values are no wider than parts, and those
as wide as parts are the parts. -/
theorem widths (hpos : 0 < rs.nElements) :
    result.type.bitWidth ≤ col.columnDesc.dataType.partWidth
      ∧ (result.type.bitWidth = col.columnDesc.dataType.partWidth →
        result.firstSlot = 0) := by
  have hfirst := firstSlot_le h.fromArray h.consistent h.type
  rw [h.size] at hfirst
  have hbit := Nat.pos_of_ne_zero h.type
  have hparts : 0 < leafWidth col.columnDesc.dataType * rs.nElements :=
    Nat.mul_pos (leafWidth_pos _) hpos
  have hswap : rs.nElements * (leafWidth col.columnDesc.dataType
        * col.columnDesc.dataType.partWidth)
      = leafWidth col.columnDesc.dataType * rs.nElements
        * col.columnDesc.dataType.partWidth := by
    ring
  rw [hswap, Nat.le_div_iff_mul_le hbit] at hfirst
  constructor
  · refine Nat.le_of_mul_le_mul_left ?_ hparts
    refine Nat.le_trans (Nat.mul_le_mul_right _ ?_) hfirst
    exact Nat.le_add_left _ _
  · intro heq
    rw [heq] at hfirst
    have hle := Nat.le_of_mul_le_mul_right hfirst (heq ▸ hbit)
    omega

/-- Reading back is about slots and parts, where nothing is null. -/
theorem readsBack_iff :
    ReadsBack srt nInstances unitStart configured schedule col layout sel result
        rs
      ↔ NoNullRead col sel result rs ∧ ∀ value : CellIndex → α,
        (∀ a i, col.columnDesc.dataType.IsPart
          (layout.parts (value a) i).toNat) →
        ∀ k < rs.nRows, ∀ m, InBox m (rs.rowDims k) → Overwritten col sel k m →
          ∀ i : Fin (leafWidth col.columnDesc.dataType),
            result.type.number (word (layout.bits (Moves.read
                (col.holding value) moves (layout.elements result.bits)))
                result.type.bitWidth (result.firstSlot
                  + (leafWidth col.columnDesc.dataType * rs.position k m
                    + i))).toNat
              = col.columnDesc.dataType.number (layout.parts (value
                  ((selectedRow sel k).toNat, sel.diskIndex m)) i).toNat := by
  constructor
  · intro hback
    have hread : ∀ value : CellIndex → α, (∀ a i, col.columnDesc.dataType.IsPart
          (layout.parts (value a) i).toNat) →
        ∃ bits, bits = layout.bits (Moves.read (col.holding value) moves
            (layout.elements result.bits))
          ∧ ∀ k < rs.nRows, ∀ m, InBox m (rs.rowDims k) →
            Overwritten col sel k m →
            ∀ i : Fin (leafWidth col.columnDesc.dataType),
              (result.withBits bits).valueAt k (m.reverse
                  ++ if col.columnDesc.dataType.isComplex then [(i : Nat)] else [])
                = some (col.columnDesc.dataType.number (layout.parts (value
                    ((selectedRow sel k).toNat, sel.diskIndex m)) i).toNat) := by
      intro value hvalue
      obtain ⟨array, hrun⟩ := h.runs value
      exact ⟨_, rfl, hback value hvalue array _ hrun⟩
    constructor
    · intro k hk m hbox hover i
      obtain ⟨hone, -⟩ := number_zero_ne_one h.numeric
      obtain ⟨bits, -, hall⟩ := hread (fun _ => layout.uniform 0) (by
        intro a i' _
        rw [layout.toNat_uniform (by omega)]
        exact Nat.zero_le 1)
      obtain ⟨hnull, -⟩ :=
        ArrayData.valueAt_eq_some.mp (hall k hk m hbox hover i)
      rwa [ResultArray.withBits, isNull_withValues] at hnull
    · intro value hvalue k hk m hbox hover i
      obtain ⟨bits, rfl, hall⟩ := hread value hvalue
      obtain ⟨-, helement⟩ :=
        ArrayData.valueAt_eq_some.mp (hall k hk m hbox hover i)
      rw [withBits_element h.fromArray h.consistent h.type _ hk hbox i.isLt
        (h.position_lt hk hbox)] at helement
      exact Option.some.inj helement
  · intro hall value hvalue array bits hread k hk m hbox hover i
    obtain ⟨hnull, hnumbers⟩ := hall
    obtain ⟨array', hrun⟩ := h.runs value
    rw [hrun] at hread
    cases hread
    refine ArrayData.valueAt_eq_some.mpr ⟨?_, ?_⟩
    · rw [ResultArray.withBits, isNull_withValues]
      exact hnull k hk m hbox hover i
    · rw [withBits_element h.fromArray h.consistent h.type _ hk hbox i.isLt
        (h.position_lt hk hbox), hnumbers value hvalue k hk m hbox hover i]

-- ------------------------------------------------------- what it requires

variable {k : Nat} (hk : k < rs.nRows) {m : List Nat}
  (hbox : InBox m (rs.rowDims k)) (hover : Overwritten col sel k m)
  (hback : ReadsBack srt nInstances unitStart configured schedule col layout sel
    result rs)

include hk hbox hover hback

/-- The element under a slot that is read back is written: two columns of
one number each would look the same there otherwise. -/
theorem written {i i' : Fin (leafWidth col.columnDesc.dataType)}
    {element r : Nat} (hat : PieceAt col.columnDesc.dataType result.type
      (result.firstSlot + (leafWidth col.columnDesc.dataType
        * rs.position k m + i)) element i' r) :
    (element : Int) ∈ moves.map Prod.fst := by
  obtain ⟨hle, -⟩ := h.widths (Nat.zero_lt_of_lt (h.position_lt hk hbox))
  obtain ⟨hone, hne⟩ := number_zero_ne_one h.numeric
  by_contra hno
  have hread : ∀ n ≤ 1, result.type.number ((layout.parts
          (layout.elements result.bits element) i').toNat
            / 2 ^ (result.type.bitWidth * r) % 2 ^ result.type.bitWidth)
      = col.columnDesc.dataType.number n := by
    intro n hn
    have hlt : n < 2 ^ col.columnDesc.dataType.partWidth := by omega
    have hread := (h.readsBack_iff.mp hback).2 (fun _ => layout.uniform n)
      (fun _ i _ => by rw [layout.toNat_uniform hlt]; exact hn) k hk m hbox
      hover i
    rw [layout.toNat_uniform hlt, hat.word_eq h.type hle,
      read_uncovered _ hno] at hread
    exact hread
  exact hne ((hread 0 (Nat.zero_le 1)).symm.trans (hread 1 (Nat.le_refl 1)))

/-- The piece that a slot is of a number of the column is that number. -/
theorem uniform_read {i i' : Fin (leafWidth col.columnDesc.dataType)}
    {element r : Nat} (hat : PieceAt col.columnDesc.dataType result.type
      (result.firstSlot + (leafWidth col.columnDesc.dataType
        * rs.position k m + i)) element i' r) {n : Nat}
    (hlt : n < 2 ^ col.columnDesc.dataType.partWidth)
    (hpart : col.columnDesc.dataType.IsPart n) :
    result.type.number (n / 2 ^ (result.type.bitWidth * r)
        % 2 ^ result.type.bitWidth)
      = col.columnDesc.dataType.number n := by
  obtain ⟨hle, -⟩ := h.widths (Nat.zero_lt_of_lt (h.position_lt hk hbox))
  have hread := (h.readsBack_iff.mp hback).2 (fun _ => layout.uniform n)
    (fun _ i => by rw [layout.toNat_uniform hlt]; exact hpart) k hk m hbox
    hover i
  rw [layout.toNat_uniform hlt, hat.word_eq h.type hle] at hread
  rcases @read_mem_or _ (col.holding fun _ => layout.uniform n) moves element
    (layout.elements result.bits) with ⟨a, -, hvalue⟩ | ⟨hno, -⟩
  · have hheld : (col.holding fun _ => layout.uniform n).value a
        = layout.uniform n := rfl
    rw [hvalue, hheld, layout.toNat_uniform hlt] at hread
    exact hread
  · exact absurd (h.written hk hbox hover hback hat) hno

/-- Types of other numbers are told apart. -/
theorem sameNumbers_or_bool :
    SameNumbers col.columnDesc.dataType result.type
      ∨ (col.columnDesc.dataType = .tpBool ∧ result.type = .bool) := by
  by_contra hno
  rw [not_or] at hno
  obtain ⟨hle, -⟩ := h.widths (Nat.zero_lt_of_lt (h.position_lt hk hbox))
  obtain ⟨hlt, hpart, htells⟩ := tells_apart h.numeric h.type hle hno.1 hno.2
  obtain ⟨element, i', r, hat⟩ := @exists_pieceAt col.columnDesc.dataType _
    h.type hle (result.firstSlot + (leafWidth col.columnDesc.dataType
      * rs.position k m + 0))
  exact htells r hat.piece
    (@uniform_read _ _ _ _ _ _ _ _ _ _ _ _ _ _ _ h _ hk _ hbox hover hback
      ⟨0, leafWidth_pos _⟩ i' element r hat _ hlt hpart)

end ReadsInto

-- ============================================================== conditions

/-- Nothing is read. -/
def NothingRead (col : TableColumn α) (sel : Selection) (rs : ResultShapeData) :
    Prop :=
  ∀ k < rs.nRows, ∀ m, InBox m (rs.rowDims k) → ¬ Overwritten col sel k m

/-- Every bit that is read back is the first one of a byte that the same
element is read into. -/
def FirstBits (col : TableColumn α) (sel : Selection) (rs : ResultShapeData)
    (firstSlot : Nat) : Prop :=
  ∀ k < rs.nRows, ∀ m, InBox m (rs.rowDims k) → Overwritten col sel k m →
    ∃ k' < rs.nRows, ∃ m', InBox m' (rs.rowDims k') ∧ Overwritten col sel k' m'
      ∧ ((selectedRow sel k').toNat, sel.diskIndex m')
        = ((selectedRow sel k).toNat, sel.diskIndex m)
      ∧ firstSlot + rs.position k m = 8 * rs.position k' m'

/-- What is read can be read back from the result. -/
def ReadableBack (nInstances : Nat) (unitStart : Option RowUnitStart)
    (col : TableColumn α) (sel : Selection) (result : ResultArray)
    (rs : ResultShapeData) : Prop :=
  NothingRead col sel rs
    ∨ (NoNullRead col sel result rs
      ∧ ReadsInPlace nInstances unitStart col sel rs
      ∧ (SameNumbers col.columnDesc.dataType result.type
        ∨ (col.columnDesc.dataType = .tpBool ∧ result.type = .bool
          ∧ FirstBits col sel rs result.firstSlot)))

namespace ReadsInto

variable {moves : List Move}
  (h : ReadsInto srt nInstances unitStart configured schedule col layout sel
    result rs sel' rs' p moves)

include h

theorem inPlace_iff :
    (∀ c ∈ p.dataChunks, ∀ t ∈ c.transfers, t.live = true → c.slip rs' = 0)
      ↔ ReadsInPlace nInstances unitStart col sel rs := by
  obtain ⟨dims, n, hres, hfit⟩ := h.fitted
  exact hfit.no_slip_iff hres h.isMatch
    (fun k hk m hbox => (h.live k hk m hbox).1) h.partition

/-- Without a slip, each element is read from where it should be. -/
theorem read_at (hslip : ReadsInPlace nInstances unitStart col sel rs)
    (value : CellIndex → α) (buffer : Memory α) {k : Nat} (hk : k < rs.nRows) {m : List Nat}
    (hbox : InBox m (rs.rowDims k)) (hover : Overwritten col sel k m) :
    Moves.read (col.holding value) moves buffer (rs.position k m)
      = value ((selectedRow sel k).toNat, sel.diskIndex m) := by
  have hperm := h.perm.trans
    (h.partition.movesOf_perm (h.inPlace_iff.mpr hslip))
  obtain ⟨hlive, haddress⟩ := h.live k hk m hbox
  rw [read_eq_plan h.consistent' h.isMatch hperm, ← h.position,
    ((readPlan_at h.consistent' h.isMatch (col.holding value) buffer).1 k
      (h.nRows ▸ hk) m (by rwa [h.rowDims])).1 (hlive.mpr hover),
    haddress hover]
  rfl

/-- A slip leaves an element unwritten. -/
theorem inPlace_of_sameNumbers
    (hsame : SameNumbers col.columnDesc.dataType result.type)
    (hback : ReadsBack srt nInstances unitStart configured schedule col layout
      sel result rs) : ReadsInPlace nInstances unitStart col sel rs := by
  refine h.inPlace_iff.mp (no_slip_of_covered h.consistent' h.isMatch h.partition
    fun t ht hlive => ?_)
  have hmove : ((t.position rs' : Int), t.address) ∈ planMoves sel' rs' :=
    List.mem_map.mpr ⟨t, List.mem_filter.mpr ⟨ht, hlive⟩, rfl⟩
  obtain ⟨k, hk, m, hbox, helement, heq⟩ :=
    planMoves_addresses h.consistent' h.isMatch hmove
  rw [h.nRows] at hk
  rw [h.rowDims] at hbox
  have hover := (h.live k hk m hbox).1.mp helement
  -- parts and slots are the same
  obtain ⟨-, hfirst⟩ := h.widths (Nat.zero_lt_of_lt (h.position_lt hk hbox))
  have hone : col.columnDesc.dataType.partWidth / result.type.bitWidth = 1 := by
    rw [hsame.bitWidth]
    exact Nat.div_self (hsame.bitWidth ▸ Nat.pos_of_ne_zero h.type)
  have hat : PieceAt col.columnDesc.dataType result.type (result.firstSlot
      + (leafWidth col.columnDesc.dataType * rs.position k m
        + (⟨0, leafWidth_pos _⟩ : Fin (leafWidth col.columnDesc.dataType))))
      (rs.position k m) ⟨0, leafWidth_pos _⟩ 0 := by
    refine ⟨?_, by omega⟩
    rw [hone, hfirst hsame.bitWidth]
    omega
  have hwritten := h.written hk hbox hover hback hat
  rw [(Prod.mk.inj heq).1, h.position]
  exact (h.perm.map Prod.fst).mem_iff.mp hwritten

/-- Small rows do not slip. -/
theorem inPlace_of_small (hsmall : rs.SmallRows) :
    ReadsInPlace nInstances unitStart col sel rs := by
  refine h.inPlace_iff.mp fun c hc t ht _ => ?_
  refine (h.partition.planned c hc).slip_of_small h.consistent' h.isMatch ?_ ht
    (h.partition.mem_plan hc ht)
  intro k hk
  rw [h.rowDims]
  exact hsmall k (h.nRows ▸ hk)

/-- Bits that are read back are the first ones of bytes of the same
element. -/
theorem firstBits_of_readsBack (hslip : ReadsInPlace nInstances unitStart col sel rs)
    (hdtype : col.columnDesc.dataType = .tpBool) (hbool : result.type = .bool)
    (hback : ReadsBack srt nInstances unitStart configured schedule col layout
      sel result rs) : FirstBits col sel rs result.firstSlot := by
  intro k hk m hbox hover
  have hwidth : leafWidth col.columnDesc.dataType = 1 := by
    rw [hdtype]
    rfl
  have hpart : col.columnDesc.dataType.partWidth = 8 := by
    rw [hdtype]
    rfl
  have hbit : result.type.bitWidth = 1 := by
    rw [hbool]
    rfl
  have hpieces : col.columnDesc.dataType.partWidth / result.type.bitWidth = 8 := by
    rw [hpart, hbit]
  -- the bit read back, in its byte
  set i : Fin (leafWidth col.columnDesc.dataType) := ⟨0, leafWidth_pos _⟩
  have hzero : (i : Nat) = 0 := rfl
  have hat : PieceAt col.columnDesc.dataType result.type (result.firstSlot
      + (leafWidth col.columnDesc.dataType * rs.position k m + i))
      ((result.firstSlot + rs.position k m) / 8) i
      ((result.firstSlot + rs.position k m) % 8) := by
    refine ⟨?_, ?_⟩
    · rw [hpieces, hzero, hwidth]
      omega
    · rw [hpieces]
      exact Nat.mod_lt _ (by decide)
  -- a column that is true everywhere is read back from a first bit
  have hone : (1 : Nat) < 2 ^ col.columnDesc.dataType.partWidth := by
    rw [hpart]
    decide
  have huniform := h.uniform_read hk hbox hover hback hat hone
    fun _ => Nat.le_refl 1
  have hfirst : (result.firstSlot + rs.position k m) % 8 = 0 := by
    by_contra hne
    rw [hbit, Nat.one_mul, Nat.div_eq_of_lt (Nat.one_lt_two_pow hne), hbool,
      hdtype] at huniform
    exact absurd huniform (by decide +kernel)
  -- the byte is that of an element that is read
  have hperm := h.perm.trans
    (h.partition.movesOf_perm (h.inPlace_iff.mpr hslip))
  obtain ⟨move, hmove, hbyte⟩ := List.mem_map.mp ((hperm.map Prod.fst).mem_iff.mp
    (h.written hk hbox hover hback hat))
  obtain ⟨k', hk', m', hbox', helement, heq⟩ :=
    planMoves_addresses h.consistent' h.isMatch hmove
  rw [h.nRows] at hk'
  rw [h.rowDims] at hbox'
  have hover' := (h.live k' hk' m' hbox').1.mp helement
  have hposition : rs.position k' m'
      = (result.firstSlot + rs.position k m) / 8 := by
    rw [heq, h.position] at hbyte
    exact Int.ofNat.inj hbyte
  refine ⟨k', hk', m', hbox', hover', ?_, by omega⟩
  -- true in the one element alone, the column is true in the other
  by_contra hother
  have hnone : (0 : Nat) < 2 ^ col.columnDesc.dataType.partWidth := by omega
  have hread := (h.readsBack_iff.mp hback).2 (fun a =>
    if a = ((selectedRow sel k).toNat, sel.diskIndex m) then layout.uniform 1
    else layout.uniform 0) (by
      intro a i' _
      by_cases ha : a = ((selectedRow sel k).toNat, sel.diskIndex m)
      · rw [if_pos ha, layout.toNat_uniform hone]
      · rw [if_neg ha, layout.toNat_uniform hnone]
        exact Nat.zero_le 1) k hk m hbox hover i
  rw [hat.word_eq h.type (by omega), ← hposition,
    h.read_at hslip _ _ hk' hbox' hover', if_neg hother, if_pos rfl,
    layout.toNat_uniform hnone, layout.toNat_uniform hone, Nat.zero_div,
    Nat.zero_mod, hbool, hdtype] at hread
  exact absurd hread (by decide +kernel)

/-- If nothing slips, the same numbers are read back. -/
theorem readsBack_of_sameNumbers (hnull : NoNullRead col sel result rs)
    (hslip : ReadsInPlace nInstances unitStart col sel rs)
    (hsame : SameNumbers col.columnDesc.dataType result.type) :
    ReadsBack srt nInstances unitStart configured schedule col layout sel result
      rs := by
  apply h.readsBack_iff.mpr
  refine ⟨hnull, ?_⟩
  intro value hvalue k hk m hbox hover i
  obtain ⟨hle, hfirst⟩ :=
    h.widths (Nat.zero_lt_of_lt (h.position_lt hk hbox))
  have hone : col.columnDesc.dataType.partWidth / result.type.bitWidth = 1 := by
    rw [hsame.bitWidth]
    exact Nat.div_self (hsame.bitWidth ▸ Nat.pos_of_ne_zero h.type)
  have hat : PieceAt col.columnDesc.dataType result.type (result.firstSlot
      + (leafWidth col.columnDesc.dataType * rs.position k m + i))
      (rs.position k m) i 0 := by
    refine ⟨?_, by omega⟩
    rw [hone, hfirst hsame.bitWidth]
    omega
  -- the only piece of a part is the part
  have hlt : (layout.parts (value
      ((selectedRow sel k).toNat, sel.diskIndex m)) i).toNat
        < 2 ^ result.type.bitWidth := by
    rw [hsame.bitWidth]
    exact BitVec.isLt _
  rw [hat.word_eq h.type hle, h.read_at hslip value _ hk hbox hover,
    Nat.mul_zero, Nat.pow_zero, Nat.div_one, Nat.mod_eq_of_lt hlt]
  exact hsame.number (hvalue _ _)

/-- If nothing slips, bits are read back that are the first ones of bytes
of the same element. -/
theorem readsBack_of_firstBits (hnull : NoNullRead col sel result rs)
    (hslip : ReadsInPlace nInstances unitStart col sel rs)
    (hdtype : col.columnDesc.dataType = .tpBool) (hbool : result.type = .bool)
    (hbits : FirstBits col sel rs result.firstSlot) :
    ReadsBack srt nInstances unitStart configured schedule col layout sel result
      rs := by
  apply h.readsBack_iff.mpr
  refine ⟨hnull, ?_⟩
  intro value hvalue k hk m hbox hover i
  obtain ⟨k', hk', m', hbox', hover', haddress, hslot⟩ :=
    hbits k hk m hbox hover
  have hwidth : leafWidth col.columnDesc.dataType = 1 := by
    rw [hdtype]
    rfl
  have hpart : col.columnDesc.dataType.partWidth = 8 := by
    rw [hdtype]
    rfl
  have hbit : result.type.bitWidth = 1 := by
    rw [hbool]
    rfl
  have hzero : (i : Nat) = 0 := by omega
  have hat : PieceAt col.columnDesc.dataType result.type (result.firstSlot
      + (leafWidth col.columnDesc.dataType * rs.position k m + i))
      (rs.position k' m') i 0 := by
    refine ⟨?_, ?_⟩
    · rw [hpart, hbit, hzero, hwidth]
      omega
    · rw [hpart, hbit]
      decide
  -- a byte of a `Bool` is its first bit
  have hone : (layout.parts (value
      ((selectedRow sel k).toNat, sel.diskIndex m)) i).toNat ≤ 1 :=
    hvalue _ _ hdtype
  rw [hat.word_eq h.type (by omega), h.read_at hslip value _ hk' hbox' hover',
    haddress, Nat.mul_zero, Nat.pow_zero, Nat.div_one, hbit, Nat.pow_one,
    Nat.mod_eq_of_lt (by omega), hbool]
  generalize (layout.parts _ i).toNat = bits at hone ⊢
  rw [hdtype]
  rfl

end ReadsInto

-- ================================================================== result

/-- A read that gets through into a result whose rows and selected
dimensions match leaves the column's numbers in it, whatever the column
holds, if what is read can be read back; and only if, but that a slip may
make up for where a `bool` result of a `Bool` column starts. -/
theorem reads_back_iff
    (hnumeric : col.columnDesc.dataType.isPrimitive = true)
    (hschedule : ∀ chunks, (schedule chunks).Perm chunks)
    (hfrom : ResultShapeData.fromArray col result.array = .ok rs)
    (hrows : rs.nRows = selectedRows sel col.nrow)
    (hsizes : ∀ d < rs.rank - 1, ∀ ids, sel.selected rs d = some ids →
      (rs.rowDims 0)[d]? = some ids.length)
    {out : ArrayData (BitVec col.columnDesc.dataType.partWidth)
      × (Nat → Bool)}
    (hread : readImplInto srt nInstances unitStart configured schedule col
      layout sel result = .ok out) :
    (ReadableBack nInstances unitStart col sel result rs →
        ReadsBack srt nInstances unitStart configured schedule col layout sel
          result rs)
      ∧ ((result.type = .bool → col.columnDesc.dataType = .tpBool →
          rs.SmallRows) →
        ReadsBack srt nInstances unitStart configured schedule col layout sel
            result rs →
          ReadableBack nInstances unitStart col sel result rs) := by
  obtain ⟨sel', rs', p, moves, h⟩ := readsInto_of_ok hnumeric hschedule hfrom
    hrows hsizes hread
  constructor
  · intro hreadable
    rcases hreadable with hnothing
      | ⟨hnull, hslip, hsame | ⟨hdtype, hbool, hbits⟩⟩
    · intro value _ array bits _ k hk m hbox hover
      exact absurd hover (hnothing k hk m hbox)
    · exact h.readsBack_of_sameNumbers hnull hslip hsame
    · exact h.readsBack_of_firstBits hnull hslip hdtype hbool hbits
  · intro hsmall hback
    by_cases hnothing : NothingRead col sel rs
    · exact .inl hnothing
    unfold NothingRead at hnothing
    push Not at hnothing
    obtain ⟨k, hk, m, hbox, hover⟩ := hnothing
    obtain ⟨hnull, -⟩ := h.readsBack_iff.mp hback
    rcases h.sameNumbers_or_bool hk hbox hover hback with
      hsame | ⟨hdtype, hbool⟩
    · exact .inr ⟨hnull, h.inPlace_of_sameNumbers hsame hback, .inl hsame⟩
    · have hslip := h.inPlace_of_small (hsmall hbool hdtype)
      exact .inr ⟨hnull, hslip, .inr ⟨hdtype, hbool,
        h.firstBits_of_readsBack hslip hdtype hbool hback⟩⟩

/-- A scalar column of one row, with elements of 32 bits. -/
def wordColumn (dtype : DataType) : TableColumn (BitVec 32) :=
  .ofShape "WORD" dtype [] 1 fun _ => 0x3F800000#32

/-- One `int32`. -/
def int32Result : ResultArray where
  array :=
    { data := .leaf ⟨.int32, 0, 1, none, slotNumbers .int32 4 fun _ => false⟩
      wellFormed := Nat.le_refl 1 }
  size := some 4
  bits _ := false
  slots _ := rfl

/-- An `Int` column is read back from it. -/
theorem reads_back_sample : ∃ rs,
    ResultShapeData.fromArray (wordColumn .tpInt) int32Result.array = .ok rs
      ∧ ReadsBack .insertion 1 none none (fun chunks => chunks)
        (wordColumn .tpInt) ⟨(Equiv.funUnique (Fin 1) (BitVec 32)).symm⟩ .empty
        int32Result rs := by
  obtain ⟨rs, hfrom, hrank, hrows, hdims, out, hread⟩ : ∃ rs,
      ResultShapeData.fromArray (wordColumn .tpInt) int32Result.array = .ok rs
      ∧ rs.rank = 1 ∧ rs.nRows = 1 ∧ rs.rowDims 0 = []
      ∧ ∃ out, readImplInto .insertion 1 none none (fun chunks => chunks)
        (wordColumn .tpInt) ⟨(Equiv.funUnique (Fin 1) (BitVec 32)).symm⟩ .empty
        int32Result = .ok out :=
    ⟨_, rfl, rfl, rfl, rfl, _, rfl⟩
  refine ⟨rs, hfrom, (reads_back_iff rfl (fun _ => .refl _) hfrom ?_ ?_
    hread).1
    (.inr ⟨fun _ _ _ _ _ _ => rfl, ⟨?_, .inl ?_⟩, .inl (.inl rfl)⟩)⟩
  · rw [hrows]
    rfl
  · intro d hd
    omega
  · intro k _ _ d hd
    omega
  · rw [hdims]
    decide

/-- A `Float` column is read into it as well, and what is read back is the
bits of the number. -/
theorem float_read_as_int32 : ∃ rs array bits,
    ResultShapeData.fromArray (wordColumn .tpFloat) int32Result.array = .ok rs
      ∧ readImplInto .insertion 1 none none (fun chunks => chunks)
        (wordColumn .tpFloat) ⟨(Equiv.funUnique (Fin 1) (BitVec 32)).symm⟩
        .empty int32Result = .ok (array, bits)
      ∧ DataType.tpFloat.number ((wordColumn .tpFloat).value (0, [])).toNat
        = .ofInt 1
      ∧ (int32Result.withBits bits).valueAt 0 [] = some (.ofInt 0x3F800000)
      ∧ ¬ ReadsBack .insertion 1 none none (fun chunks => chunks)
        (wordColumn .tpFloat) ⟨(Equiv.funUnique (Fin 1) (BitVec 32)).symm⟩
        .empty int32Result rs := by
  refine ⟨_, _, _, rfl, rfl, by decide +kernel, by decide +kernel, ?_⟩
  intro hback
  have hread := hback (wordColumn .tpFloat).value
    (fun _ _ hbool => by cases hbool) _ _ rfl 0 Nat.one_pos [] .nil ?_
    ⟨0, Nat.one_pos⟩
  · exact absurd hread (by decide +kernel)
  · exact ⟨[], rfl, fun d hd => absurd hd (Nat.not_lt_zero d)⟩

end Arcae
