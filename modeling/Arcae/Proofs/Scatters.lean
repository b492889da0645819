/-
`putcol`: when it scatters.

A chunk that slips is taken from before its place in the buffer. The
same write with other values gets through too, so values can be found
that change at the place of such a chunk, and what the write leaves
there is not the element that belongs there (`IsPut.small_of_scatters`).
Small strides are thus all that `putcol` asks for
(`putcol_scatters_iff`), and they are not a matter of course: a column
of three planes can be large enough.
-/
import Arcae.Proofs.Put
import Arcae.Proofs.Read
import Arcae.Proofs.WriteBounds

namespace Arcae

open FOrder

variable {α β : Type} {col col' : TableColumn α} {sel : Selection}
  {rs : ResultShapeData} {srt : StdSort}
  {cast : LeafArray β → ArrowType → Result (LeafArray β)} {around : Memory β}
  {layout : ElementLayout col.columnDesc.dataType α β} {array : ArrowArray β}

-- =================================================== what a slip shows

/-- Values that change at one place. -/
theorem exists_step (below above : β) {cut n : Nat} (h : cut ≤ n) :
    ∃ values : List β, values.length = n
      ∧ (∀ i < cut, values[i]? = some below)
      ∧ ∀ i, cut ≤ i → i < n → values[i]? = some above := by
  refine ⟨List.replicate cut below ++ List.replicate (n - cut) above, ?_, ?_, ?_⟩
  · rw [List.length_append, List.length_replicate, List.length_replicate]
    omega
  · intro i hi
    rw [List.getElem?_append_left (by simpa using hi), List.getElem?_replicate,
      if_pos hi]
  · intro i hi hn
    rw [List.getElem?_append_right (by simpa using hi), List.length_replicate,
      List.getElem?_replicate, if_pos (by omega)]

/-- Where all that a buffer can hold is one value, it holds it. -/
theorem LeafArray.buffer_eq {leaf : LeafArray β} {around : Memory β} {q : Int}
    {v : β} (hvalues : 0 ≤ q → ∀ w, leaf.values[q.toNat]? = some w → w = v)
    (haround : around q = v) : leaf.buffer around q = v := by
  rw [buffer]
  split
  · rename_i hnn
    rw [List.getD_eq_getElem?_getD]
    cases hget : leaf.values[q.toNat]? with
    | none => exact haround
    | some w => exact hvalues hnn w hget
  · exact haround

/-- Other values make a request still. -/
theorem PutRequest.withValues {values : List β} (h : PutRequest col array sel)
    (hlen : values.length = array.data.leafArray.values.length) :
    PutRequest col (array.withValues values hlen) sel where
  unsliced := by
    have hunsliced := h.unsliced
    show (array.data.withValues values).Unsliced
    revert hunsliced
    generalize array.data = data
    intro hunsliced
    induction data with
    | leaf slots => exact hunsliced
    | list level child ih => exact ⟨hunsliced.1, ih hunsliced.2⟩
  ownType := by
    show _ = Except.ok (array.data.withValues values).leafArray.type
    rw [ArrayData.withValues_leafArray]
    exact h.ownType
  distinct := h.distinct

namespace IsPut

variable {p : DataPartition} {buffer : Memory β} {col₁ : TableColumn α}

/-- If a write is a scatter whatever the values, its strides are small:
else the element of a chunk that slips is written from before its
place, which can hold something else. -/
theorem small_of_scatters [Nontrivial β]
    (h : IsPut srt cast around col layout array sel rs p buffer col₁ col')
    (hreq : PutRequest col array sel)
    (hall : ∀ values hlen around' col'', writeImpl srt cast around' col layout
        (array.withValues values hlen) sel = (.ok (), col'') →
      Scatters layout (array.withValues values hlen).data sel col'') :
    WriteStridesSmall sel rs := by
  have hrs := h.planned.consistent
  have hm := h.planned.isMatch
  have hext := h.planned.shape.cellExtents
  have hpart := h.planned.partition.2
  refine (no_slip_iff_small hrs hm hext hpart).mp fun c hc t ht hlive => ?_
  by_contra hslip
  -- the element of the transfer, and its place
  have hplan := hpart.mem_plan hc ht
  obtain ⟨hk, hbox⟩ := mem_plan_inBox hm hrs hplan
  have htransfer := transferOf_eq hrs hm hplan
  have helement : ElementLive sel rs t.row t.index := by
    rw [← transferOf_live_iff, htransfer]
    exact hlive
  obtain ⟨hnn, hpicks⟩ := (elementLive_iff hm hext hrs hk hbox).mp helement
  have haddress : t.address = ((selectedRow sel t.row).toNat,
      sel.diskIndex t.index) := by
    rw [← elementAddress_eq hm hext hrs hk hbox, ← transferOf_address,
      htransfer]
  have hmove : (c.bufferIndex t.mem, t.address) ∈ movesOf p.dataChunks :=
    List.mem_flatMap.mpr ⟨c, hc, List.mem_map.mpr
      ⟨t, List.mem_filter.mpr ⟨ht, hlive⟩, rfl⟩⟩
  have hbefore : c.bufferIndex t.mem < (rs.position t.row t.index : Int) := by
    have hnonneg : 0 ≤ c.slip rs := by
      unfold DataChunk.slip
      split <;> exact slipFrom_nonneg _ _ _
    have hposition : t.position rs = rs.position t.row t.index := rfl
    rw [(hpart.planned c hc).bufferIndex_eq t ht, hposition]
    omega
  -- values that change at the place of the element
  obtain ⟨below, above, hne⟩ := exists_pair_ne β
  have hwidth := leafWidth_pos col.columnDesc.dataType
  have hlt := h.position_lt hk hbox
  have hleaf := ArrayData.leafArray_wellFormed array.wellFormed
  rw [ArrayData.slice_length array.wellFormed] at hlt
  have hoffset := hreq.unsliced.leafArray_offset
  obtain ⟨values, hlen, hbelow, habove⟩ := exists_step below above
    (show leafWidth col.columnDesc.dataType * rs.position t.row t.index
      ≤ array.data.leafArray.values.length by omega)
  obtain ⟨buffer', col'', h', hwrite⟩ :=
    h.withValues hreq.ownType values hlen fun _ => below
  have hreq' := hreq.withValues hlen
  obtain ⟨x, hx⟩ := h'.exists_elementAt hk hbox
  have hread : layout.dataAs buffer' (c.bufferIndex t.mem) = x := by
    have hwritten := ((hall values hlen _ col'' hwrite).written t.row
      (by rw [h'.length_eq]; exact hk) hnn t.index x hx hpicks).2
    rw [← haddress, h'.value_of_move hreq' hmove] at hwritten
    exact hwritten
  have hleaf' : (array.withValues values hlen).data.leafArray
      = { array.data.leafArray with values := values } :=
    ArrayData.withValues_leafArray values array.data
  -- the element is made of the values from its place on
  have hparts : ∀ i : Fin (leafWidth col.columnDesc.dataType),
      layout.parts x i = above := by
    intro i
    have hpart := ((h'.elementAt_iff hk).mp hx).2 i
    rw [hleaf', LeafArray.slice_get] at hpart
    split at hpart
    · dsimp only at hpart
      rw [hoffset, Nat.zero_add, habove _ (by omega) (by omega)] at hpart
      exact (Option.some.inj hpart).symm
    · cases hpart
  -- but the write took values from before it
  obtain ⟨values', hvalues, hbuffer⟩ :=
    extract_own hreq'.ownType h'.planned.buffer
  have hfirst := hparts ⟨0, hwidth⟩
  rw [← hread, ElementLayout.dataAs, Equiv.apply_symm_apply, hbuffer] at hfirst
  refine hne ((LeafArray.buffer_eq (fun hnn w hw => ?_) rfl).symm.trans hfirst)
  have hcut : (leafWidth col.columnDesc.dataType * c.bufferIndex t.mem
        + ((0 : Nat) : Int)).toNat
      < leafWidth col.columnDesc.dataType * rs.position t.row t.index := by
    have hlt := Int.mul_lt_mul_of_pos_left hbefore
      (show (0 : Int) < leafWidth col.columnDesc.dataType by omega)
    rw [← Int.natCast_mul] at hlt
    have hnn : 0 ≤ leafWidth col.columnDesc.dataType * c.bufferIndex t.mem
        + ((0 : Nat) : Int) := hnn
    omega
  have hvalue : values[(leafWidth col.columnDesc.dataType * c.bufferIndex t.mem
      + ((0 : Nat) : Int)).toNat]? = some w := by
    rw [hleaf'] at hvalues
    rcases hvalues with rfl | rfl
    · exact hw
    · dsimp only at hw
      rw [LeafArray.slice_get] at hw
      split at hw
      · dsimp only at hw
        rwa [hoffset, Nat.zero_add] at hw
      · cases hw
  rw [hbelow _ hcut] at hvalue
  exact (Option.some.inj hvalue).symm

end IsPut

/-- A write that gets through is a scatter, whatever the values, exactly
when its strides are small. -/
theorem putcol_scatters_iff [Nontrivial β] (h : PutRequest col array sel)
    (hrs : getResultShapeData col.columnDesc array.data = .ok rs)
    (hput : writeImpl srt cast around col layout array sel = (.ok (), col')) :
    (∀ values hlen around' col'', writeImpl srt cast around' col layout
        (array.withValues values hlen) sel = (.ok (), col'') →
      Scatters layout (array.withValues values hlen).data sel col'')
      ↔ WriteStridesSmall sel rs := by
  obtain ⟨rs', p, buffer, col₁, hisPut⟩ := writeImpl_ok hput
  obtain rfl : rs' = rs := by
    have heq := (makeWrite_shape hisPut.planned.makeWrite).symm.trans hrs
    exact Except.ok.inj heq
  constructor
  · exact hisPut.small_of_scatters h
  · intro hsmall values hlen around' col'' hwrite
    obtain ⟨rs'', p', buffer', col₁', hisPut'⟩ := writeImpl_ok hwrite
    obtain rfl : rs'' = rs' := by
      have heq := hisPut'.planned.makeWrite
      rw [makeWrite_withValues, hisPut.planned.makeWrite] at heq
      exact (Except.ok.inj (Prod.mk.inj heq).1).symm
    exact hisPut'.scatters (h.withValues hlen) hsmall

/-- Whether one row of two elements is scattered is a matter of
strides. -/
theorem putcol_scatters_sample : ∃ rs col',
    getResultShapeData shortColumn.columnDesc (pairRows 1).data = .ok rs
      ∧ writeImpl .insertion (fun leaf _ => .ok leaf) (fun _ => 0) shortColumn
          plainLayout (pairRows 1) .empty = (.ok (), col')
      ∧ ((∀ values hlen around' col'',
          writeImpl .insertion (fun leaf _ => .ok leaf) around' shortColumn
            plainLayout ((pairRows 1).withValues values hlen) .empty
              = (.ok (), col'') →
          @Scatters _ _ shortColumn plainLayout
            ((pairRows 1).withValues values hlen).data .empty col'')
        ↔ WriteStridesSmall .empty rs) := by
  refine ⟨_, _, rfl, rfl, ?_⟩
  refine @putcol_scatters_iff _ _ shortColumn _ .empty _ .insertion
    (fun leaf _ => .ok leaf) (fun _ => 0) plainLayout (pairRows 1) _
    ⟨⟨rfl, rfl⟩, rfl, ?_⟩ rfl rfl
  intro span hspan
  cases hspan

/-- A row of two planes holds the leaf values of both. -/
theorem planes_wellFormed : (ArrayData.list ⟨.fixedSizeList 2, 0, 1, none⟩
    (.list ⟨.fixedSizeList 32768, 0, 2, none⟩
      (.list ⟨.fixedSizeList 65536, 0, 65536, none⟩
        (.leaf ⟨.int32, 0, 4294967296, none,
          List.replicate 4294967296 (0 : Nat)⟩)))).WellFormed := by
  refine ⟨?_, ?_, ?_, ?_⟩
  · show (0 + 1) * 2 ≤ 2
    omega
  · show (0 + 2) * 32768 ≤ 65536
    omega
  · show (0 + 65536) * 65536 ≤ 4294967296
    omega
  · show 0 + 4294967296 ≤ (List.replicate 4294967296 0).length
    rw [List.length_replicate]

/-- One row of data for two planes. -/
def planesArray : ArrowArray Nat where
  data := .list ⟨.fixedSizeList 2, 0, 1, none⟩
    (.list ⟨.fixedSizeList 32768, 0, 2, none⟩
      (.list ⟨.fixedSizeList 65536, 0, 65536, none⟩
        (.leaf ⟨.int32, 0, 4294967296, none, List.replicate 4294967296 0⟩)))
  wellFormed := planes_wellFormed

/-- The shape of that row. -/
def planesShape : ResultShapeData where
  columnName := "DATA"
  shape := some [65536, 32768, 2, 1]
  ndim := 4
  dtype := .tpInt
  rowShapes := none
  cellExtents := none

/-- The place of an element of the two planes is in the cell. -/
theorem planes_inBox {m : List Nat} (h : InBox m [65536, 32768, 2]) :
    InBox (planesSelection.diskIndex m) [65536, 32768, 3] := by
  cases h with
  | cons ha h =>
    cases h with
    | cons hb h =>
      cases h with
      | cons hc h =>
        cases h
        rename_i a b c
        have hplane : (([0, 2] : Index).getD c 0).toNat < 3 := by
          have hcases : c = 0 ∨ c = 1 := by omega
          rcases hcases with rfl | rfl <;> decide
        exact .cons ha (.cons hb (.cons hplane .nil))

/-- The planes of a column can be written, but not scattered: the second
is written from before its place. -/
theorem planes_not_scattered :
    PutRequest planesColumn planesArray planesSelection
      ∧ (∃ col', writeImpl .insertion (fun leaf _ => .ok leaf) (fun _ => 0)
          planesColumn plainLayout planesArray planesSelection = (.ok (), col'))
      ∧ ¬ ∀ values hlen around' col'',
          writeImpl .insertion (fun leaf _ => .ok leaf) around' planesColumn
            plainLayout (planesArray.withValues values hlen) planesSelection
              = (.ok (), col'') →
          @Scatters _ _ planesColumn plainLayout
            (planesArray.withValues values hlen).data planesSelection col'' := by
  have hreq : PutRequest planesColumn planesArray planesSelection := by
    refine ⟨⟨rfl, rfl, rfl, rfl⟩, rfl, ?_⟩
    decide
  have hmakeWrite : ResultShapeData.makeWrite planesColumn planesArray
      planesSelection = (.ok planesShape, planesColumn) := rfl
  obtain ⟨hshape, hwrite⟩ := makeWrite_ok hmakeWrite
  have hrs := hshape.consistent (by decide) (by decide)
  have hext := hshape.cellExtents
  have hm := hwrite.isMatch hrs hext
  obtain ⟨hrows, hdims⟩ := noRepeat_of_distinct hm hext hreq.distinct
  obtain ⟨p, hmake, hpart⟩ := (@make_outcome _ _ .insertion .default hrs hm
    (fun _ => .inl (Nat.le_refl 1)) (.inl ⟨rfl, rfl⟩)).of_good
    ⟨fun _ => hrows, fun k _ d _ => hdims k d⟩
  have hhas : ∀ m ∈ movesOf p.dataChunks, planesColumn.Has m.2 := by
    intro move hmove
    have haddress := (movesOf_addresses_perm hpart).mem_iff.mp
      (List.mem_map_of_mem hmove)
    obtain ⟨move', hmove', heq⟩ := List.mem_map.mp haddress
    obtain ⟨k, hk, m, hbox, -, rfl⟩ := planMoves_addresses hrs hm hmove'
    rw [← heq, elementAddress_eq hm hext hrs hk hbox]
    have hzero : k = 0 := Nat.lt_one_iff.mp hk
    subst hzero
    exact ⟨_, rfl, planes_inBox hbox⟩
  have hcount : planesArray.data.leafArray.length
      = leafWidth p.casaDtype * p.nElements := by
    rw [hpart.nElements_eq hrs hm, hpart.dtype]
    rfl
  obtain ⟨buffer, col', hput, hwritten⟩ := @isPut_of _ _ _ _ _ .insertion
    (fun leaf _ => .ok leaf) plainLayout planesArray _ _ hmakeWrite hmake rfl
    hcount (by rw [hpart.dtype]; rfl) hhas fun _ => 0
  refine ⟨hreq, ⟨col', hwritten⟩, fun hall => ?_⟩
  -- neither one run, nor a stride that an int can hold
  have hpicks : planesSelection.Picks [0, 0, 0] := by
    intro d hd ids hids
    have hzero : ([0, 0, 0] : List Nat).getD d 0 = 0 :=
      List.getD_replicate 0 hd
    have hfirst : ∀ span ∈ planesSelection.spans, 0 ≤ span.getD 0 0 := by
      decide
    rw [hzero]
    exact hfirst ids (Selection.maybeFSpan_mem hids)
  have hsmall := hput.small_of_scatters hreq hall 0 (by decide) (by decide)
    ⟨[0, 0, 0], by decide, hpicks⟩
  rcases hsmall.1 2 (by decide) [0, 2] rfl with hrun | hstride
  · exact planes_gap hrun.2
  · revert hstride
    decide

end Arcae
