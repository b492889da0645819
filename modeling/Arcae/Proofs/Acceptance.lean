/-
What `putcol` makes of what `getcol` returned.

The array of a read has the shape of the read (`made_shape_inferred`), so
a write infers that shape or none. Whether it gets through is another
matter: `MakeWrite` checks its request anew. All that a read was cut to, a
write asks of it again, and finds: the indices of each dimension are
distinct, or the read could not have been planned, and lie within the
cells, or they could not have been clipped (`IsReadOf.makeWrite_ok`). Its
elements are on disk, or they could not have been read.

What a write asks and a read did not is said of the rows. It takes no more
of them than the column has, and none that is beyond it (`RowsFit`). A
read of a column of one shape looks at neither: it is that shape for any
rows, and those that are negative are left out. So the array of a read is
taken back exactly when its rows fit (`read_shape_round_trip`).
-/
import Arcae.Proofs.PutGet

namespace Arcae

open FOrder Loops

variable {α β : Type} {col col' : TableColumn α} {sel : Selection}
  {rs : ResultShapeData} {n : Nat}

/-- The rows of a write: no more than the column has, and none beyond
it. -/
def RowsFit (col : TableColumn α) (sel : Selection) : Prop :=
  sel.hasRowSpan = true → sel.getRowSpan.length ≤ col.nrow
    ∧ ∀ r ∈ sel.getRowSpan, r < (col.nrow : Int)

-- ========================================================= what was read

/-- What is so of a request whose read got through. -/
structure IsReadOf (col : TableColumn α) (sel : Selection)
    (rs : ResultShapeData) (n : Nat) : Prop where
  made : ResultShapeData.makeRead col sel false = .ok rs
  facts : ReadFacts col sel rs n
  selectable : Selectable sel rs
  rowsOrPlain : rs.IsPlain ∨ 0 < rs.nRows
  supported : col.columnDesc.dataType.supported = true
  onDisk : ∀ m ∈ planMoves sel rs, col.Has m.2

/-- A read that gets through is planned and finds its elements, and its
array is made of what its buffer then holds. -/
theorem readImpl_isReadOf [LeafValue β] {srt : StdSort} {nInstances : Nat}
    {unitStart : Option RowUnitStart} {configured : Option String}
    {schedule : List DataChunk → List DataChunk}
    {layout : ElementLayout col.columnDesc.dataType α β} {emptyString : α}
    {allocated : Memory α} {data : ArrayData β}
    (hschedule : ∀ chunks, (schedule chunks).Perm chunks)
    (h : readImpl srt nInstances unitStart configured schedule col layout
      emptyString sel allocated = .ok data) :
    ∃ rs n buffer, IsReadOf col sel rs n
      ∧ makeArray configured rs (layout.values buffer rs.nElements)
        = .ok data := by
  unfold readImpl at h
  obtain ⟨rs, hread, h⟩ := Result.bind_eq_ok.mp h
  obtain ⟨p, hmake, h⟩ := Result.bind_eq_ok.mp h
  obtain ⟨allocation, -, h⟩ := Result.bind_eq_ok.mp h
  obtain ⟨buffer, hbuffer, h⟩ := Result.bind_eq_ok.mp h
  obtain ⟨n, hf⟩ := readFacts_of_make hread hmake
  have hrs := hf.consistent
  obtain ⟨hsel, hpart⟩ := partitions_of_make hrs hf.isMatch hmake
  have hperm := @scheduled_perm nInstances schedule hschedule p.dataChunks
  obtain ⟨⟨hsupported, hhas⟩, -⟩ := (readChunks_outcome hrs hf.isMatch
    (fun c hc => hpart.planned c (hperm.mem_iff.mp hc)) col p.casaDtype
    allocation).of_ok hbuffer
  refine ⟨rs, n, buffer, ⟨hread, hf, hsel, (make_ok_conditions hrs hmake).2,
    ?_, fun m hm => ?_⟩, h⟩
  · rwa [hpart.dtype, hf.dtype] at hsupported
  · -- what is planned is in some chunk, in whatever order they are read
    have haddress := (movesOf_addresses_perm hpart).mem_iff.mpr
      (List.mem_map_of_mem hm)
    obtain ⟨m', hm', heq⟩ := List.mem_map.mp haddress
    exact heq ▸ hhas m' ((hperm.flatMap_right _).mem_iff.mpr hm')

/-- An array of strings is made of text that fits one. -/
theorem makeArray_text [LeafValue β] {configured : Option String}
    {values : List β} {data : ArrayData β}
    (h : makeArray configured rs values = .ok data)
    (hstring : rs.dtype = .tpString) : totalText values ≤ maxTextBytes := by
  unfold makeArray at h
  obtain ⟨arrowDtype, -, h⟩ := Result.bind_eq_ok.mp h
  obtain ⟨strat, -, h⟩ := Result.bind_eq_ok.mp h
  obtain ⟨elements, hmade, -⟩ := Result.bind_eq_ok.mp h
  unfold makeElements at hmade
  rw [if_pos hstring] at hmade
  exact (makeStrings_eq_ok.mp hmade).1

namespace IsReadOf

/-- The shape of the array is of the rank that the column asks for. -/
theorem ndim (h : IsReadOf col sel rs n) (hrows : 0 < rs.nRows) :
    col.columnDesc.ndim = -1 ∨ rs.ndim = col.columnDesc.ndim + 1 := by
  have hrank : (rs.rank : Int) = rs.ndim :=
    Int.toNat_of_nonneg (by have := h.facts.consistent.ndim_pos; omega)
  have hn := h.facts.rank
  obtain ⟨cell, hcell⟩ := exists_readCell h.made (h.facts.nRows ▸ hrows)
  have hlen := (h.facts.ofReadCell h.made hrows hcell).1
  have hown : col.columnDesc.ndim = -1 ∨ col.columnDesc.ndim = cell.length := by
    unfold readCell at hcell
    cases hfixed : col.columnDesc.fixedShape with
    | some shape =>
        rw [hfixed] at hcell
        cases hcell
        exact .inr (col.columnDesc.ndim_fixed _ hfixed)
    | none =>
        rw [hfixed] at hcell
        exact col.ndim_cell (cellOf_lt hcell).2.2
  rcases hown with hfree | hown
  · exact .inl hfree
  · exact .inr (by omega)

/-- No index is picked twice from a cell. -/
theorem distinct (h : IsReadOf col sel rs n) (hrows : 0 < rs.nRows) {d : Nat}
    (hd : d < n) {ids : Index} (hids : sel.maybeFSpan d (n + 1) = some ids) :
    NoRepeat ids := by
  have hn := h.facts.rank
  have hdistinct := h.selectable.dims 0 (.inl hrows) d (by omega)
  unfold dimIds at hdistinct
  rwa [ResultShapeData.extent, h.facts.cellExtents, Selection.selected, hn, hids]
    at hdistinct

/-- The cells of a read have the indices that it picks. -/
theorem fits (h : IsReadOf col sel rs n) {k : Nat} (hk : k < rs.nRows)
    {cell : IPosition} (hcell : readCell col sel k = some cell) :
    sel.Fits cell := by
  obtain ⟨hr, -⟩ := (makeRead_outcome col sel).of_ok h.made
  unfold readCell at hcell
  cases hfixed : col.columnDesc.fixedShape with
  | some shape =>
      rw [hfixed] at hcell
      cases hcell
      exact hr.fixed _ hfixed
  | none =>
      rw [hfixed] at hcell
      obtain ⟨cell', hcell', hfits⟩ :=
        hr.varying hfixed k (h.facts.nRows ▸ hk)
      cases hcell'.symm.trans hcell
      exact hfits

/-- `MakeWrite` accepts what was read, if the rows fit, and changes
nothing. -/
theorem makeWrite_ok (h : IsReadOf col sel rs n)
    (hrows : 0 < rs.nRows) (hfit : RowsFit col sel) {array : ArrowArray β}
    (hinferred : getResultShapeData col.columnDesc array.data = .ok rs) :
    ResultShapeData.makeWrite col array sel = (.ok rs, col) := by
  have hrs := h.facts.consistent
  have hm := h.facts.isMatch
  have hn := h.facts.rank
  obtain ⟨hr, -⟩ := (makeRead_outcome col sel).of_ok h.made
  refine makeWrite_of_cells ⟨hr.limit, hinferred, ?_, h.ndim hrows⟩
    ?_ ?_ ?_ hrows ?_
  · have := hrs.ndim_pos
    omega
  · intro hs
    have hlen := hrs.fixed [] hs
    have := hrs.rank_pos
    rw [List.length_nil] at hlen
    omega
  · intro hspan
    have hlen : sel.getRowSpan.length = selectedRows sel col.nrow := by
      rw [selectedRows, if_pos hspan]
    exact ⟨hlen.trans h.facts.nRows.symm, hfit hspan⟩
  · intro k hk dim hdim ids hids
    exact hm.secondary k (lt_nDataRows hk) dim hdim ids hids
  · intro k hk
    obtain ⟨cell, hcell⟩ := exists_readCell h.made (h.facts.nRows ▸ hk)
    obtain ⟨hlen, hdims⟩ := h.facts.ofReadCell h.made hk hcell
    refine ⟨cell, hcell, by omega, not_tooSmall_of_clipped (by omega) hdims
      (h.fits hk hcell) fun d hd ids hids => ?_⟩
    rw [hlen] at hd hids
    exact h.distinct hrows hd hids

/-- And the write gets through. -/
theorem writeImpl_ok (h : IsReadOf col sel rs n) {array : ArrowArray β}
    (hmakeWrite : ResultShapeData.makeWrite col array sel = (.ok rs, col))
    (hown : arrowDataType col.columnDesc.dataType
      = .ok array.data.leafArray.type)
    (hcount : array.data.leafArray.length
      = leafWidth col.columnDesc.dataType * rs.nElements)
    (srt : StdSort) (cast : LeafArray β → ArrowType → Result (LeafArray β))
    (around : Memory β) (layout : ElementLayout col.columnDesc.dataType α β) :
    (writeImpl srt cast around col layout array sel).1 = .ok () := by
  have hrs := h.facts.consistent
  have hm := h.facts.isMatch
  obtain ⟨p, hp, hpart⟩ := (@make_outcome _ _ srt .default hrs hm
    (fun _ => .inl (Nat.le_refl 1)) h.rowsOrPlain).of_good h.selectable
  have hdtype : p.casaDtype = col.columnDesc.dataType :=
    hpart.dtype.trans h.facts.dtype
  obtain ⟨buffer, col', -, hwrite⟩ := @isPut_of _ _ col sel rs srt cast layout
    array p col hmakeWrite hp hown
    (by rw [hcount, hdtype, hpart.nElements_eq hrs hm])
    (by rw [hdtype]; exact h.supported)
    (fun m hmem => by
      have haddress := (movesOf_addresses_perm hpart).mem_iff.mp
        (List.mem_map_of_mem hmem)
      obtain ⟨m', hmem', heq⟩ := List.mem_map.mp haddress
      exact heq ▸ h.onDisk m' hmem') around
  rw [hwrite]

end IsReadOf

/-- What `MakeWrite` takes has rows that fit. -/
theorem rowsFit_of_makeWrite {array : ArrowArray β}
    (h : (ResultShapeData.makeWrite col array sel).1 = .ok rs) :
    RowsFit col sel := by
  intro hspan
  cases hw : ResultShapeData.makeWrite col array sel with
  | mk result col' =>
      rw [hw] at h
      cases h
      have hchecked : ∃ checked, checkWrite col array sel = .ok checked := by
        unfold ResultShapeData.makeWrite at hw
        cases hcheck : checkWrite col array sel with
        | ok checked => exact ⟨checked, rfl⟩
        | error e =>
            rw [hcheck] at hw
            cases hw
      obtain ⟨checked, hcheck⟩ := hchecked
      rcases checkWrite_cases (makeWrite_shape hw) with ⟨-, hrow⟩ | ⟨-, e, -, hbad⟩
      · rcases @checkRowSelection_cases _ col sel rs with hok | hnil | hbad
        · exact (hok.2.1 hspan).2
        · rw [hnil.2] at hrow
          cases hcheck.symm.trans hrow
        · obtain ⟨text, hbad⟩ := hbad.2.2
          rw [hbad] at hrow
          cases hcheck.symm.trans hrow
      · cases hcheck.symm.trans hbad

-- ============================================================== round trip

/-- The array of a read gives back the shape of the read, to `FromArray`
and to `MakeWrite`. What `getcol` returned is taken by a `putcol` of the
same rows and indices, and with that shape, exactly when the rows fit. -/
theorem read_shape_round_trip [LeafValue β] {allowMissingRows : Bool}
    {configured : Option String} {strat : ConvertStrategy}
    {arrowDtype : ArrowType} {values : List β}
    (hread : ResultShapeData.makeRead col sel allowMissingRows = .ok rs)
    (hfull : rs.NoneEmpty)
    (harrow : arrowDataType rs.dtype = .ok arrowDtype)
    (hstrat : getConvertStrategy configured = .ok strat)
    (hvalues : values.length = leafWidth rs.dtype * rs.nElements)
    (hsmall : values.length < 2 ^ 31)
    (htext : rs.dtype = .tpString → totalText values ≤ maxTextBytes) :
    (∃ array : ArrowArray β, makeArray configured rs values = .ok array.data
      ∧ ResultShapeData.fromArray col array = .ok rs
      ∧ ∀ sel' rs' col', ResultShapeData.makeWrite col array sel'
          = (.ok rs', col') → rs' = rs)
    ∧ (allowMissingRows = false →
        ∀ (srt : StdSort) (nInstances : Nat) (unitStart : Option RowUnitStart)
          (schedule : List DataChunk → List DataChunk)
          (layout : ElementLayout col.columnDesc.dataType α β) (emptyString : α)
          (allocated : Memory α) (array : ArrowArray β),
        (∀ chunks, (schedule chunks).Perm chunks) →
        readImpl srt nInstances unitStart configured schedule col layout
            emptyString sel allocated = .ok array.data →
        ∀ (srt' : StdSort)
          (cast : LeafArray β → ArrowType → Result (LeafArray β))
          (around : Memory β),
        ((ResultShapeData.makeWrite col array sel).1 = .ok rs
            ∧ (writeImpl srt' cast around col layout array sel).1 = .ok ()
          ↔ RowsFit col sel)) := by
  refine ⟨?_, ?_⟩
  · obtain ⟨array, hmade, -, hinferred⟩ := made_shape_inferred hread hfull harrow
      hstrat hvalues hsmall htext
    refine ⟨array, hmade, hinferred, fun sel' rs' col' hw => ?_⟩
    exact Except.ok.inj ((makeWrite_shape hw).symm.trans hinferred)
  · intro hno srt nInstances unitStart schedule layout emptyString allocated
      array hschedule hgot srt' cast around
    subst hno
    obtain ⟨rs', n, buffer, hof, hmade⟩ := readImpl_isReadOf hschedule hgot
    cases hread.symm.trans hof.made
    -- the array that was read is made of as many values
    have hlength : (layout.values buffer rs.nElements).length
        = leafWidth rs.dtype * rs.nElements := by
      rw [layout.values_length, hof.facts.dtype]
    obtain ⟨array', hmade', hleaf, hinferred⟩ := made_shape_inferred hread hfull
      harrow hstrat hlength (by omega) fun hstring => makeArray_text hmade hstring
    have hsame : array'.data = array.data :=
      Except.ok.inj (hmade'.symm.trans hmade)
    rw [hsame] at hleaf
    rw [ResultShapeData.fromArray, hsame] at hinferred
    refine ⟨fun h => rowsFit_of_makeWrite h.1, fun hfit => ?_⟩
    have hw := hof.makeWrite_ok hfull.rows hfit hinferred
    refine ⟨by rw [hw], hof.writeImpl_ok hw ?_ ?_ srt' cast around layout⟩
    · rw [hof.facts.dtype] at harrow
      rw [hleaf]
      exact harrow
    · rw [hleaf]
      exact layout.values_length buffer rs.nElements

/-- A column of complex vectors, of one element in row 0 and two in
row 1. -/
def raggedColumn : TableColumn Nat where
  columnDesc := .withoutShape "RAGGED" .tpComplex (some 1)
  nrow := 2
  cellShape row := if row < 2 then some [row + 1] else none
  value _ := 0
  cell_nrow := by
    intro r s h
    split at h
    · assumption
    · cases h
  cell_fixed := by intro s r hs; cases hs
  cell_rank := by
    intro r s _ h
    split at h
    · cases h
      simp
    · cases h
  cell_ndim := by
    intro r s _ h
    split at h
    · cases h
      rfl
    · cases h

/-- Three pairs, as lists or as lists of fixed size, and the one row of a
column, read and taken back. -/
theorem read_shape_round_trip_sample :
    (∃ rs, ResultShapeData.makeRead raggedColumn .empty false = .ok rs
      ∧ ∃ array : ArrowArray Nat,
          makeArray none rs [1, 2, 3, 4, 5, 6] = .ok array.data
          ∧ ResultShapeData.fromArray raggedColumn array = .ok rs
          ∧ ∀ sel' rs' col', ResultShapeData.makeWrite raggedColumn array sel'
              = (.ok rs', col') → rs' = rs)
    ∧ ∃ array : ArrowArray Nat,
        readImpl .insertion 1 none none id shortColumn plainLayout 0 ⟨[[0]]⟩
            (fun _ => 7) = .ok array.data
        ∧ (writeImpl .insertion (fun leaf _ => .ok leaf) (fun _ => 0)
            shortColumn plainLayout array ⟨[[0]]⟩).1 = .ok () := by
  refine ⟨⟨_, rfl, (@read_shape_round_trip _ _ raggedColumn .empty _ _ false
    none .fixed .float [1, 2, 3, 4, 5, 6] rfl ⟨?_, ?_, ?_⟩ rfl rfl
    rfl ?_ fun hstring => (by cases hstring)).1⟩, ?_⟩
  · show 0 < 2
    omega
  · intro shape hs
    cases hs
  · intro _
    show (∀ dims ∈ [[1], [2]], ∀ n ∈ dims, 0 < n)
      ∧ (∃ rank, ∀ dims ∈ [[1], [2]], List.length dims = rank)
      ∧ ∃ dims ∈ [[1], [2]], ∃ other ∈ [[1], [2]], dims ≠ other
    refine ⟨by simp, ⟨1, by simp⟩, [1], by simp, [2], by simp, by simp⟩
  · show 6 < 2 ^ 31
    omega
  · have hfull : ResultShapeData.NoneEmpty
        ⟨"DATA", some [2, 1], 2, .tpInt, none, none⟩ :=
      ⟨by decide, fun shape hs => (by cases hs; decide), fun hs => (by cases hs)⟩
    obtain ⟨hshape, htaken⟩ := @read_shape_round_trip _ Nat shortColumn ⟨[[0]]⟩
      _ _ false none .fixed .int32 [0, 0] rfl hfull rfl rfl rfl
      (by decide) fun hstring => (by cases hstring)
    obtain ⟨array, hmade, -, -⟩ := hshape
    have hgot : readImpl .insertion 1 none none id shortColumn plainLayout 0
        ⟨[[0]]⟩ (fun _ => 7) = .ok array.data := hmade
    exact ⟨array, hgot, ((htaken rfl .insertion 1 none id plainLayout 0 _ array
      (fun _ => .refl _) hgot .insertion (fun leaf _ => .ok leaf)
      (fun _ => 0)).mpr fun _ => (by decide)).2⟩

/-- A missing row beside the only row of that column: they are read, and
not taken back. -/
theorem missing_row_not_taken : ∃ rs,
    ResultShapeData.makeRead shortColumn ⟨[[-1, 0]]⟩ false = .ok rs
      ∧ rs.NoneEmpty
      ∧ ∃ array : ArrowArray Nat,
          readImpl .insertion 1 none none id shortColumn plainLayout 0
              ⟨[[-1, 0]]⟩ (fun _ => 7) = .ok array.data
          ∧ ResultShapeData.fromArray shortColumn array = .ok rs
          ∧ ∃ text, (ResultShapeData.makeWrite shortColumn array
              ⟨[[-1, 0]]⟩).1 = .error (.indexError text) := by
  have hfull : ResultShapeData.NoneEmpty
      ⟨"DATA", some [2, 2], 2, .tpInt, none, none⟩ :=
    ⟨by decide, fun shape hs => (by cases hs; decide), fun hs => (by cases hs)⟩
  obtain ⟨array, hmade, -, hinferred⟩ := @made_shape_inferred _ Nat _ _
    shortColumn ⟨[[-1, 0]]⟩ false none .fixed .int32 [7, 7, 0, 0] rfl hfull rfl rfl
    rfl (by decide) fun hstring => (by cases hstring)
  refine ⟨_, rfl, hfull, array, hmade, hinferred, ?_⟩
  -- two rows are more than the column has
  rcases checkWrite_cases hinferred with ⟨-, hrow⟩ | ⟨hbad, -⟩
  · obtain ⟨text, hcheck⟩ : ∃ text, checkWrite shortColumn array ⟨[[-1, 0]]⟩
        = .error (.indexError text) := ⟨_, hrow⟩
    refine ⟨text, ?_⟩
    unfold ResultShapeData.makeWrite
    rw [hcheck]
  · exact absurd ⟨by decide, hinferred, by decide, .inr rfl⟩ hbad

end Arcae
