/-
The values a write takes from its array.

A write that gets to its chunks has found as many slots in the leaf as
the shape has elements, and the shape takes its elements off the leaf
one row after the other (`IsDataShape.slot_eq`). So the array uses all
of its leaf, from the first slot to the last, and its logical values are
the leaf's own.

What the chunks read is a buffer, and there are three ways to get one.
A cast and a copy of strings go by the leaf, and start at its first
slot. The leaf's own memory starts where it was allocated, `offset`
slots before. No way looks at the validity of the leaf.
-/
import Arcae.Proofs.WriteBounds

namespace Arcae

open Loops

variable {α β : Type} {col col' : TableColumn α} {sel : Selection}
  {rs : ResultShapeData} {desc : ColumnDesc}

-- ============================================================ the leaf

/-- Data have an element for each row. -/
theorem IsDataShape.length_eq {data : ArrayData β}
    (h : IsDataShape desc data rs) (hrs : rs.Consistent) :
    data.length = rs.nRows := by
  cases hs : rs.shape with
  | some shape =>
      obtain ⟨-, hnil | ⟨dims, hshape, -⟩⟩ := h.fixed shape hs
      · have hlen := hrs.fixed shape hs
        have := hrs.rank_pos
        rw [hnil, List.length_nil] at hlen
        omega
      · rw [ResultShapeData.nRows, hs, hshape]
        exact (List.getLastD_concat).symm
  | none =>
      rw [ResultShapeData.nRows, hs]
      exact (h.varying hs).1.symm

/-- A row of data is a nest of its sizes. -/
theorem IsDataShape.uniform {data : ArrayData β} (h : IsDataShape desc data rs)
    (hwf : data.WellFormed) (hrs : rs.Consistent) {k : Nat}
    (hk : k < rs.nRows) :
    data.Uniform k (k + 1) (nestSizes rs.dtype (rs.rowDims k)) := by
  have hlen := h.length_eq hrs
  cases hs : rs.shape with
  | some shape =>
      obtain ⟨-, hnil | ⟨dims, hshape, hu⟩⟩ := h.fixed shape hs
      · have hcount := hrs.fixed shape hs
        have := hrs.rank_pos
        rw [hnil, List.length_nil] at hcount
        omega
      · have hdims : rs.rowDims k = dims := by
          have hrow := hrs.shape_eq hs k
          rw [hshape] at hrow
          exact (List.append_inj_left' hrow rfl).symm
        rw [hdims]
        exact hu.mono hwf (Nat.zero_le k) (Nat.le_succ k) (by omega)
          (Nat.le_refl _)
  | none =>
      obtain ⟨hrows, hall⟩ := h.varying hs
      have hk' : k < rs.getRowShapes.length := by omega
      have hdims : rs.rowDims k = rs.getRowShapes[k] := by
        rw [ResultShapeData.rowDims, hs]
        exact List.getD_eq_getElem _ _ hk'
      rw [hdims]
      exact (hall k hk').2

/-- The rows of data take the slots of the leaf in turn. -/
theorem IsDataShape.slot_eq {data : ArrayData β} (h : IsDataShape desc data rs)
    (hwf : data.WellFormed) (hrs : rs.Consistent) {k : Nat}
    (hk : k ≤ rs.nRows) :
    data.slot k = data.slot 0 + leafWidth rs.dtype * rs.rowStart k := by
  have hlen := h.length_eq hrs
  induction k with
  | zero => rw [rowStart_zero, Nat.mul_zero, Nat.add_zero]
  | succ k ih =>
      have hstep := (h.uniform hwf hrs hk).slot_step hwf (by omega)
        (Nat.le_succ k) (Nat.le_refl _)
      have hone : k.succ - k = 1 := Nat.sub_eq_of_eq_add (Nat.add_comm k 1)
      rw [hstep, ih (by omega), rowStart_succ k hk, nestSizes_prod, hone]
      ring

/-- An array has a leaf value for each part of each element. -/
theorem IsDataShape.leaves_length {data : ArrayData β}
    (h : IsDataShape desc data rs) (hwf : data.WellFormed)
    (hrs : rs.Consistent) :
    data.leaves.length = leafWidth rs.dtype * rs.nElements := by
  rw [ArrayData.leaves_length hwf, h.length_eq hrs,
    h.slot_eq hwf hrs (Nat.le_refl _), hrs.rowStart_nRows,
    Nat.add_sub_cancel_left]

/-- The flat array is the leaf, under levels without nulls. -/
theorem getFlatArray_ok {data : ArrayData β} {leaf : LeafArray β}
    (h : getFlatArray data = .ok leaf) : leaf = data.leafArray := by
  unfold getFlatArray at h
  generalize data.typeName = typeName at h
  induction data with
  | leaf slots =>
      rw [flatArrayFrom] at h
      split at h
      · exact (Except.ok.inj h).symm
      · cases h
  | list level child ih =>
      rw [flatArrayFrom] at h
      split at h
      · cases h
      · exact ih h

/-- What a write that gets to its chunks has been through. -/
structure IsPlanned (srt : StdSort)
    (cast : LeafArray β → ArrowType → Result (LeafArray β)) (around : Memory β)
    (col : TableColumn α) (data : ArrowArray β) (sel : Selection)
    (rs : ResultShapeData) (p : DataPartition) (buffer : Memory β)
    (col' : TableColumn α) : Prop where
  makeWrite : ResultShapeData.makeWrite col data sel = (.ok rs, col')
  shape : IsDataShape col.columnDesc data.data rs
  write : IsWrite sel rs col col'
  consistent : rs.Consistent
  isMatch : sel.Matches rs
  make : DataPartition.make srt sel rs .default = .ok p
  partition : Selectable sel rs ∧ p.Partitions sel rs .default
  leaves : data.data.leaves = data.data.leafArray.slice
    ∧ data.data.slot 0 = 0
  buffer : extractBufferOrCopyValues cast around data.data.leafArray
    col.columnDesc.dataType = .ok buffer

theorem planWrite_ok {srt : StdSort}
    {cast : LeafArray β → ArrowType → Result (LeafArray β)} {around : Memory β}
    {data : ArrowArray β} {p : DataPartition} {buffer : Memory β}
    (h : planWrite srt cast around col data sel = (.ok (p, buffer), col')) :
    ∃ rs, IsPlanned srt cast around col data sel rs p buffer col' := by
  unfold planWrite at h
  cases hw : ResultShapeData.makeWrite col data sel with
  | mk result col₁ =>
      cases result with
      | error e =>
          simp only [hw] at h
          cases h
      | ok rs =>
          simp only [hw] at h
          obtain ⟨hprepare, rfl⟩ := Prod.mk.inj h
          obtain ⟨hshape, hwrite⟩ := makeWrite_ok hw
          unfold prepareWrite at hprepare
          obtain ⟨p', hmake, hprepare⟩ := Result.bind_eq_ok.mp hprepare
          obtain ⟨leaf, hflat, hprepare⟩ := Result.bind_eq_ok.mp hprepare
          split at hprepare
          · cases hprepare
          · rename_i hcount
            obtain ⟨buffer', hbuffer, hprepare⟩ := Result.bind_eq_ok.mp hprepare
            cases hprepare
            have hrs := hshape.consistent_of_make hmake
            have hm := hwrite.isMatch hrs hshape.cellExtents
            have hpart := partitions_of_make hrs hm hmake
            have hdtype : p.casaDtype = col.columnDesc.dataType :=
              hpart.2.dtype.trans hshape.dtype
            rw [getFlatArray_ok hflat] at hcount hbuffer
            have hlength : data.data.leaves.length
                = data.data.leafArray.length := by
              rw [hshape.leaves_length data.wellFormed hrs,
                ← hpart.2.nElements_eq hrs hm, ← hpart.2.dtype]
              exact (Decidable.not_not.mp hcount).symm
            exact ⟨rs,
              { makeWrite := hw
                shape := hshape
                write := hwrite
                consistent := hrs
                isMatch := hm
                make := hmake
                partition := hpart
                leaves := ArrayData.leaves_eq_slice data.wellFormed hlength
                buffer := hdtype ▸ hbuffer }⟩

-- ========================================================= the buffer

/-- What is documented of casts: one to another type makes an array of
its own, of the converted values. -/
structure CastPromise (convert : ArrowType → ArrowType → β → β)
    (cast : LeafArray β → ArrowType → Result (LeafArray β)) : Prop where
  fresh : ∀ leaf type leaf', leaf.type ≠ type → cast leaf type = .ok leaf' →
    leaf'.offset = 0
  values : ∀ leaf type leaf', leaf.nullCount = 0 →
    cast leaf type = .ok leaf' →
      leaf'.slice = leaf.slice.map (convert leaf.type type)

/-- A leaf value as a column of another type has it. -/
def valueFor (convert : ArrowType → ArrowType → β → β)
    (leafType arrowDtype : ArrowType) (v : β) : β :=
  if leafType = arrowDtype then v else convert leafType arrowDtype v

/-- No level of the array has a null. -/
def ArrayData.NullFree (data : ArrayData β) : Prop :=
  data.ListsNullFree ∧ data.leafArray.nullCount = 0

/-- The memory of the leaf is used as it is. -/
def ZeroCopy (casaDtype : DataType) (leaf : LeafArray β) : Prop :=
  casaDtype.isPrimitive = true ∧ arrowDataType casaDtype = .ok leaf.type

/-- The leaf has the same values from its first slot on as its memory has
from the start. -/
def LeafArray.StartsItsMemory (leaf : LeafArray β) : Prop :=
  ∀ k < leaf.length, leaf.values[leaf.offset + k]? = leaf.values[k]?

theorem LeafArray.startsItsMemory_of_offset {leaf : LeafArray β}
    (h : leaf.offset = 0) : leaf.StartsItsMemory := by
  intro k _
  rw [h, Nat.zero_add]

theorem LeafArray.slice_get {leaf : LeafArray β} (k : Nat) :
    leaf.slice[k]? = if k < leaf.length then leaf.values[leaf.offset + k]?
      else none := by
  rw [slice, List.getElem?_take, List.getElem?_drop]

theorem LeafArray.buffer_of_values {leaf : LeafArray β} {around : Memory β}
    {k : Nat} {v : β} (h : leaf.values[k]? = some v) :
    leaf.buffer around k = v := by
  have hnn : (0 : Int) ≤ k := Int.natCast_nonneg k
  rw [buffer, if_pos hnn, Int.toNat_natCast, List.getD_eq_getElem?_getD, h]
  rfl

/-- An array of its own starts its memory. -/
theorem LeafArray.buffer_of_slice {leaf : LeafArray β} {around : Memory β}
    (hoffset : leaf.offset = 0) {k : Nat} {v : β}
    (h : leaf.slice[k]? = some v) : leaf.buffer around k = v := by
  rw [slice_get] at h
  split at h
  · rw [hoffset, Nat.zero_add] at h
    exact buffer_of_values h
  · cases h

/-- What a write takes for its leaf values is the array's own values,
none of them null, exactly when the leaf has no null, and starts its
memory if that is used as it is. -/
theorem written_values_iff {srt : StdSort} {around : Memory β}
    {convert : ArrowType → ArrowType → β → β}
    {cast : LeafArray β → ArrowType → Result (LeafArray β)}
    (hcast : CastPromise convert cast) {data : ArrowArray β} {p : DataPartition}
    {buffer : Memory β} {arrowDtype : ArrowType}
    (harrow : arrowDataType col.columnDesc.dataType = .ok arrowDtype)
    (h : planWrite srt cast around col data sel = (.ok (p, buffer), col')) :
    (data.data.NullFree ∧ ∀ (k : Nat) v, data.data.leaves[k]? = some v →
        buffer k = valueFor convert data.data.leafArray.type arrowDtype v)
      ↔ data.data.leafArray.nullCount = 0
        ∧ (ZeroCopy col.columnDesc.dataType data.data.leafArray →
            data.data.leafArray.StartsItsMemory) := by
  obtain ⟨rs, hplan⟩ := planWrite_ok h
  have hlists := hplan.shape.nullFree
  have hbuffer := hplan.buffer
  rw [hplan.leaves.1]
  generalize hleaf : data.data.leafArray = leaf at hbuffer ⊢
  have hwf : leaf.offset + leaf.length ≤ leaf.values.length :=
    hleaf ▸ ArrayData.leafArray_wellFormed data.wellFormed
  have hnullFree : data.data.NullFree ↔ leaf.nullCount = 0 := by
    rw [ArrayData.NullFree, hleaf]
    exact ⟨fun hboth => hboth.2, fun hzero => ⟨hlists, hzero⟩⟩
  rw [hnullFree]
  refine and_congr_right fun hzero => ?_
  unfold extractBufferOrCopyValues at hbuffer
  by_cases hprimitive : col.columnDesc.dataType.isPrimitive = true
  · rw [if_pos hprimitive, harrow, Result.ok_bind] at hbuffer
    by_cases htype : arrowDtype = leaf.type
    · -- the memory of the leaf
      rw [if_pos htype] at hbuffer
      cases hbuffer
      have hcopy : ZeroCopy col.columnDesc.dataType leaf :=
        ⟨hprimitive, htype ▸ harrow⟩
      have hvalue : ∀ v : β, valueFor convert leaf.type arrowDtype v = v :=
        fun v => if_pos htype.symm
      have hslot : ∀ k < leaf.length, ∀ {i}, i ≤ leaf.offset + k →
          ∃ v, leaf.values[i]? = some v := by
        intro k hk i hi
        exact ⟨_, List.getElem?_eq_getElem (by omega)⟩
      constructor
      · intro hall _ k hk
        obtain ⟨v, hv⟩ := hslot k hk (Nat.le_refl _)
        obtain ⟨v', hv'⟩ := hslot k hk (Nat.le_add_left _ _)
        have hread := hall k v (by rw [LeafArray.slice_get, if_pos hk, hv])
        rw [hvalue, LeafArray.buffer_of_values hv'] at hread
        rw [hv, hv', hread]
      · intro hstarts k v hv
        rw [LeafArray.slice_get] at hv
        split at hv
        · rename_i hk
          rw [hstarts hcopy k hk] at hv
          rw [hvalue, LeafArray.buffer_of_values hv]
        · cases hv
    · -- a cast
      rw [if_neg htype] at hbuffer
      obtain ⟨leaf', hleaf', hbuffer⟩ := Result.bind_eq_ok.mp hbuffer
      cases hbuffer
      have hother : leaf.type ≠ arrowDtype := Ne.symm htype
      have hslice := hcast.values _ _ _ hzero hleaf'
      refine ⟨fun _ hcopy => ?_, fun _ k v hv => ?_⟩
      · have heq := hcopy.2
        rw [harrow, Except.ok.injEq] at heq
        exact absurd heq htype
      · refine LeafArray.buffer_of_slice (hcast.fresh _ _ _ hother hleaf') ?_
        rw [hslice, List.getElem?_map, hv, Option.map_some, valueFor,
          if_neg hother]
  · -- strings
    rw [if_neg hprimitive] at hbuffer
    split at hbuffer
    · rename_i hstring
      split at hbuffer
      · rename_i hutf8
        cases hbuffer
        have htype : leaf.type = arrowDtype := by
          rw [hstring] at harrow
          rw [hutf8]
          exact Except.ok.inj harrow
        refine ⟨fun _ hcopy => absurd hcopy.1 hprimitive, fun _ k v hv => ?_⟩
        rw [valueFor, if_pos htype]
        exact LeafArray.buffer_of_values hv
      · cases hbuffer
    · split at hbuffer <;> cases hbuffer

/-- A scalar column of one row. -/
def scalarColumn : TableColumn Nat where
  columnDesc := .ofShape "SCAN" .tpInt []
  nrow := 1
  cellShape row := if row < 1 then some [] else none
  value _ := 0
  cell_nrow := by
    intro r s h
    split at h
    · assumption
    · cases h
  cell_fixed := by
    intro s r hs h
    cases hs
    exact if_pos h
  cell_rank := by intro r s hs; cases hs
  cell_ndim := by
    intro r s _ h
    split at h
    · cases h
      rfl
    · cases h

/-- One of two values, from the given slot on. -/
def oneOfTwo (offset : Nat) (h : offset ≤ 1) : ArrowArray Nat where
  data := .leaf ⟨.int32, offset, 1, none, [7, 8]⟩
  wellFormed := by
    show offset + 1 ≤ 2
    omega

/-- A cast that copies. -/
def copyCast (leaf : LeafArray Nat) (type : ArrowType) :
    Result (LeafArray Nat) :=
  .ok { leaf with type := type, offset := 0, values := leaf.slice }

/-- The first of two values is written as it is. -/
theorem written_values_sample : ∃ p buffer col',
    planWrite .insertion copyCast (fun _ => 0) scalarColumn
        (oneOfTwo 0 (by decide)) .empty = (.ok (p, buffer), col')
      ∧ (oneOfTwo 0 (by decide)).data.NullFree
      ∧ ∀ (k : Nat) v, (oneOfTwo 0 (by decide)).data.leaves[k]? = some v →
          buffer k = valueFor (fun _ _ v => v) .int32 .int32 v := by
  refine ⟨_, _, _, rfl, ?_⟩
  refine (@written_values_iff _ _ scalarColumn _ .empty .insertion (fun _ => 0)
    (fun _ _ v => v) copyCast ⟨?_, ?_⟩ (oneOfTwo 0 (by decide)) _ _ .int32
    rfl rfl).mpr ⟨rfl, fun _ => LeafArray.startsItsMemory_of_offset rfl⟩
  · intro leaf type leaf' _ hcast
    cases hcast
    rfl
  · intro leaf type leaf' _ hcast
    cases hcast
    show (leaf.slice.drop 0).take leaf.length = leaf.slice.map fun v => v
    rw [List.drop_zero, List.map_id', LeafArray.slice, List.take_take,
      Nat.min_self]

/-- The second of two values is asked for, and the first is written. -/
theorem sliced_leaf_writes_first : ∃ p buffer col',
    planWrite .insertion copyCast (fun _ => 0) scalarColumn
        (oneOfTwo 1 (by decide)) .empty = (.ok (p, buffer), col')
      ∧ (oneOfTwo 1 (by decide)).data.leaves = [8]
      ∧ buffer 0 = 7 :=
  ⟨_, _, _, rfl, rfl, rfl⟩

end Arcae
