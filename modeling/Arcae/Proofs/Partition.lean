/-
`DataPartition::Make`, specified.

Given shape data of one rank and a selection that matches it, `Make`
succeeds exactly when every dimension it cuts repeats no non-negative
index (`Selectable`), and then its chunks are the plan: their transfers
together are the plan's, each once, and every chunk is `Planned`. When
it fails, it fails with an IndexError. All of it is one statement,
`make_outcome`; nothing after this module takes `Make` apart.

The two planning paths meet here. A plain result cuts each dimension
once and picks over all rows together; any other result is planned row
by row, and does not cut its rows at all, which is why `Selectable` asks
nothing of the rows there.
-/
import Arcae.Proofs.Blocks

namespace Arcae

open FOrder Loops

-- ================================================================ planned

/-- A run of a dimension whose disk indices are `ids`. -/
def IsCutOf (ids : Index) (s : SpanPair) : Prop :=
  ∃ span parts, Arranged span ids ∧ CutSpans span false parts ∧ s ∈ parts

/-- A chunk that follows the plan: one run of each secondary dimension,
and ascending rows. -/
structure DataChunk.Planned (sel : Selection) (rs : ResultShapeData)
    (c : DataChunk) : Prop extends c.Built rs where
  spans : ∃ picks row, c.dimSpans = picks ++ [row]
    ∧ row.disk.length = row.mem.length ∧ IsRun true row.disk
    ∧ (∀ k ∈ row.mem, k < rs.nRows)
    ∧ (∀ k ∈ row.mem, List.Forall₂ IsCutOf (secondaryIds sel rs k) picks)
    ∧ (∀ s ∈ picks, s.disk.length = s.mem.length ∧ IsRun false s.disk)
    ∧ (c.contiguous = true → isMemoryContiguous row = true
        ∧ ∀ k ∈ row.mem, picks.map SpanPair.mem
          = (secondaryIds sel rs k).map fun ids => List.range ids.length)

/-- The dimensions `Make` cuts repeat no non-negative index. -/
structure Selectable (sel : Selection) (rs : ResultShapeData) : Prop where
  rows : rs.IsPlain → NoRepeat (rowIds sel rs)
  dims : ∀ row, row < rs.nRows ∨ rs.IsPlain → ∀ dim < rs.rank - 1,
    NoRepeat (dimIds sel rs row dim)

/-- Some row spans of a plain result: the rows cut into runs, and split
as far as the options allow. -/
def IsRowCuts (sel : Selection) (rs : ResultShapeData) (opt : RowSplitOptions)
    (rowCuts : SpanPairs) : Prop :=
  ∃ span parts cuts, Arranged span (rowIds sel rs)
    ∧ makeSubSpans span true = .ok parts
    ∧ List.Forall₂ (fun ids spans => ∃ w, Arranged w ids ∧ CutSpans w false spans)
        (secondaryIds sel rs 0) cuts
    ∧ DataPartition.splitRows rs opt (cuts ++ [parts])
        = .ok (cuts ++ [rowCuts])
    ∧ CutSpans span true rowCuts

/-- A partition is the plan, in chunks. -/
structure DataPartition.Partitions (sel : Selection) (rs : ResultShapeData)
    (opt : RowSplitOptions) (p : DataPartition) : Prop where
  dtype : p.casaDtype = rs.dtype
  transfers : (p.dataChunks.flatMap DataChunk.transfers).Perm (plan sel rs)
  planned : ∀ c ∈ p.dataChunks, c.Planned sel rs
  rowCuts : rs.IsPlain → ∃ rowCuts, IsRowCuts sel rs opt rowCuts
    ∧ ∀ c ∈ p.dataChunks, ∃ picks row, c.dimSpans = picks ++ [row]
        ∧ row ∈ rowCuts
  rowsAlone : ¬ rs.IsPlain → ∀ c ∈ p.dataChunks, ∃ picks, ∃ k < rs.nRows,
    c.dimSpans = picks ++ [SpanPair.mk [(rowIds sel rs).getD k 0] [k]]
  rowsAll : ∀ k < rs.nRows, ∃ c ∈ p.dataChunks, ∃ picks row,
    c.dimSpans = picks ++ [row] ∧ ((rowIds sel rs).getD k 0, k) ∈ row.pairs

-- =================================================== spans of a dimension

section Dimension

variable {srt : StdSort} {sel : Selection} {rs : ResultShapeData}

/-- The span of a dimension arranges its disk indices. -/
theorem getSpanPair_arranged {maxDim dim n : Nat} (hn : n ≤ maxDim) :
    Arranged (DataPartition.getSpanPair srt sel rs.rank maxDim dim n)
      ((sel.selected rs dim).getD (monotonicIds n)) := by
  unfold DataPartition.getSpanPair Selection.selected
  cases sel.maybeFSpan dim rs.rank with
  | some ids => exact makeSortedIndices_arranged srt ids
  | none =>
      simp only [Option.getD_none, List.take_range, Nat.min_eq_left hn]
      exact arranged_monotonic n

/-- Cutting an arranged span succeeds exactly when its indices do not
repeat. -/
theorem makeSubSpans_outcome {span : SpanPair} {ids : Index}
    (h : Arranged span ids) (entireRange : Bool) :
    Outcome (makeSubSpans span entireRange) (NoRepeat ids)
      (CutSpans span entireRange)
      (fun e => ∃ msg, e = .indexError msg) := by
  have hnr := NoRepeat.perm h.disk_perm
  cases hcut : makeSubSpans span entireRange with
  | ok spans =>
      obtain ⟨hspans, hd⟩ := makeSubSpans_ok h.length_eq h.sorted hcut
      exact .inl ⟨hnr.mp hd, spans, rfl, hspans⟩
  | error e =>
      obtain ⟨hmsg, hd⟩ := makeSubSpans_error h.length_eq h.sorted hcut
      exact .inr ⟨fun hids => hd (hnr.mpr hids), e, rfl, hmsg⟩

end Dimension

-- ============================================================ size bounds

/-- The largest element of a shape is found, and bounds the others. -/
theorem maxElement_ok {shape : IPosition} (h : shape ≠ []) :
    ∃ m, ResultShapeData.maxElement shape = .ok m ∧ ∀ n ∈ shape, n ≤ m := by
  cases shape with
  | nil => exact absurd rfl h
  | cons n ns =>
      refine ⟨_, rfl, ?_⟩
      have key : ∀ (ns : List Nat) (n : Nat), n ≤ ns.foldl max n
          ∧ ∀ k ∈ ns, k ≤ ns.foldl max n := by
        intro ns
        induction ns with
        | nil => intro n; simp
        | cons k ns ih =>
            intro n
            obtain ⟨hle, hall⟩ := ih (max n k)
            rw [List.foldl_cons]
            refine ⟨by omega, fun j hj => ?_⟩
            rcases List.mem_cons.mp hj with rfl | hj
            · omega
            · exact hall j hj
      obtain ⟨hle, hall⟩ := key ns n
      intro k hk
      rcases List.mem_cons.mp hk with rfl | hk
      · exact hle
      · exact hall k hk

section Make

variable {sel : Selection} {rs : ResultShapeData}

/-- `MaxDimensionSize` is found, and bounds the rows and every size of a
row. -/
theorem ResultShapeData.Consistent.maxDimensionSize_ok (h : rs.Consistent) :
    ∃ m, rs.maxDimensionSize = .ok m ∧ rs.nRows ≤ m
      ∧ ∀ row, row < rs.nRows ∨ rs.isFixed = true →
          ∀ n ∈ rs.rowDims row, n ≤ m := by
  have hpos := h.rank_pos
  cases hs : rs.shape with
  | some shape =>
      have hlen := h.fixed shape hs
      have hne : shape ≠ [] := List.ne_nil_of_length_pos (by omega)
      obtain ⟨m, hm, hall⟩ := maxElement_ok hne
      refine ⟨m, by simp only [maxDimensionSize, hs]; exact hm, ?_, ?_⟩
      · refine hall _ ?_
        rw [h.shape_eq hs 0]
        exact List.mem_append_right _ (List.mem_singleton_self _)
      · intro row _ n hn
        refine hall n ?_
        rw [h.shape_eq hs row]
        exact List.mem_append_left _ hn
  | none =>
      obtain ⟨hrank, hshapes⟩ := h.varying hs
      have key : ∀ (l : List IPosition) (m₀ : Nat),
          (∀ s ∈ l, s.length = rs.rank - 1) →
          ∃ m, l.foldlM (fun maxSize shape => do
              let shapeMax ← maxElement shape
              pure (max maxSize shapeMax)) m₀ = (.ok m : Result Nat)
            ∧ m₀ ≤ m ∧ ∀ s ∈ l, ∀ n ∈ s, n ≤ m := by
        intro l
        induction l with
        | nil => intro m₀ _; exact ⟨m₀, rfl, Nat.le_refl _, by simp⟩
        | cons s l ih =>
            intro m₀ hl
            have hslen := hl s List.mem_cons_self
            obtain ⟨sm, hsm, hsall⟩ :=
              maxElement_ok (List.ne_nil_of_length_pos
                (show 0 < s.length by omega))
            obtain ⟨m, hm, hle, hall⟩ := ih (max m₀ sm)
              fun s' hs' => hl s' (List.mem_cons_of_mem _ hs')
            refine ⟨m, ?_, by omega, ?_⟩
            · rw [List.foldlM_cons, hsm]
              exact hm
            · intro s' hs' n hn
              rcases List.mem_cons.mp hs' with rfl | hs'
              · have := hsall n hn
                omega
              · exact hall s' hs' n hn
      obtain ⟨m, hm, hle, hall⟩ := key rs.getRowShapes rs.nRows hshapes
      refine ⟨m, by simp only [maxDimensionSize, hs]; exact hm, hle, ?_⟩
      intro row hrow n hn
      have hrow' : row < rs.getRowShapes.length := by
        rcases hrow with hrow | hrow
        · simpa only [nRows, hs] using hrow
        · simp [isFixed, hs] at hrow
      refine hall (rs.rowDims row) ?_ n hn
      simp only [rowDims, hs, List.getD_eq_getElem?_getD,
        List.getElem?_eq_getElem hrow']
      exact List.getElem_mem hrow'

/-- A bound of the rows and the sizes of a row bounds a fixed shape. -/
theorem ResultShapeData.Consistent.shape_le (h : rs.Consistent)
    {shape : IPosition} (hs : rs.shape = some shape) {m : Nat}
    (hrows : rs.nRows ≤ m) (hdims : ∀ n ∈ rs.rowDims 0, n ≤ m) :
    ∀ n ∈ shape, n ≤ m := by
  intro n hn
  rw [h.shape_eq hs 0] at hn
  rcases List.mem_append.mp hn with hn | hn
  · exact hdims n hn
  · rw [List.mem_singleton.mp hn]
    exact hrows

-- ======================================================= ids of a request

theorem ResultShapeData.IsPlain.extent {row dim : Nat} (h : rs.IsPlain) :
    rs.extent row dim = none := by
  simp only [ResultShapeData.extent, h.2]

/-- A dimension has one disk index for each position. -/
theorem Selection.Matches.dimIds_length (h : sel.Matches rs)
    {row dim : Nat}
    (hrow : row < rs.nRows ∨ rs.isFixed = true) (hdim : dim < rs.rank - 1) :
    (dimIds sel rs row dim).length = (rs.rowDims row).getD dim 0 := by
  have hunpadded : ((sel.selected rs dim).getD
      (monotonicIds ((rs.rowDims row).getD dim 0))).length
      = (rs.rowDims row).getD dim 0 := by
    cases hsel : sel.selected rs dim with
    | none => rw [Option.getD_none, monotonicIds_length]
    | some ids =>
        rw [Option.getD_some, List.getD_eq_getElem?_getD,
          h.secondary row hrow dim hdim ids hsel, Option.getD_some]
  unfold dimIds
  dsimp only
  split
  · exact hunpadded
  · split
    · rw [paddedIds, List.length_append, monotonicIds_length,
        List.length_replicate]
      omega
    · exact hunpadded

theorem Selection.Matches.secondaryIds_length (h : sel.Matches rs)
    (hrs : rs.Consistent) {row : Nat}
    (hrow : row < rs.nRows ∨ rs.isFixed = true) :
    (secondaryIds sel rs row).map List.length = rs.rowDims row := by
  have hlen := hrs.rowDims_length hrow
  refine List.ext_getElem (by simp [secondaryIds, hlen]) fun d h₁ h₂ => ?_
  have hd : d < rs.rank - 1 := by omega
  simp only [secondaryIds, List.getElem_map, List.getElem_range]
  rw [h.dimIds_length hrow hd, List.getD_eq_getElem?_getD,
    List.getElem?_eq_getElem h₂, Option.getD_some]

theorem Selection.Matches.rowIds_length (h : sel.Matches rs) :
    (rowIds sel rs).length = rs.nRows := by
  unfold rowIds
  cases hsel : sel.selected rs (rs.rank - 1) with
  | none => rw [Option.getD_none, monotonicIds_length]
  | some ids => rw [Option.getD_some, h.rows ids hsel]

/-- The rows of a plain result all read the same indices. -/
theorem dimIds_plain (h : rs.IsPlain) (row row' dim : Nat) :
    dimIds sel rs row dim = dimIds sel rs row' dim := by
  obtain ⟨shape, hs⟩ := Option.isSome_iff_exists.mp h.1
  simp only [dimIds, h.extent, ResultShapeData.rowDims, hs]

theorem secondaryIds_plain (h : rs.IsPlain) (row row' : Nat) :
    secondaryIds sel rs row = secondaryIds sel rs row' :=
  List.map_congr_left fun dim _ => dimIds_plain h row row' dim

-- =============================================================== transfers

/-- Arranged spans transfer their indices, each beside its position. -/
theorem transfers_arranged {spans : SpanPairs} {idss : List Index}
    (h : List.Forall₂ Arranged spans idss) :
    (SpanPairs.transfers spans).Perm (idss.map indexed).sections := by
  refine Sections.sections_perm ?_
  rw [List.forall₂_map_left_iff, List.forall₂_map_right_iff]
  exact h.imp fun _ _ ha => ha.perm

/-- Picks of a block are as planned, whatever row they have. -/
theorem CutDims.isCutOf {secondary : SpanPairs} {rows : SpanPair}
    {cuts : List SpanPairs} {rowCuts : SpanPairs} {idss : List Index}
    (h : CutDims secondary rows cuts rowCuts)
    (ha : List.Forall₂ Arranged secondary idss) {spans : SpanPairs}
    (hs : spans ∈ Sections.product (cuts ++ [rowCuts])) :
    ∃ picks row, spans = picks ++ [row] ∧ row ∈ rowCuts
      ∧ picks.length = idss.length
      ∧ List.Forall₂ IsCutOf idss picks
      ∧ ∀ s ∈ picks, s.disk.length = s.mem.length ∧ IsRun false s.disk := by
  obtain ⟨picks, row, rfl, hrow, hpicks⟩ := h.pick hs
  refine ⟨picks, row, rfl, hrow, ?_, ?_, ?_⟩
  · exact hpicks.length_eq.symm.trans ha.length_eq
  · refine (forall₂_comp ha hpicks).imp ?_
    intro ids p hx
    obtain ⟨w, hw, parts, hcut, hmem⟩ := hx
    exact ⟨w, parts, hw, hcut, hmem⟩
  · intro s hmem
    obtain ⟨w, -, parts, hcut, hin⟩ : ∃ w ∈ secondary, ∃ parts,
        CutSpans w false parts ∧ s ∈ parts := by
      clear h hs hrow ha
      induction hpicks with
      | nil => cases hmem
      | cons hp _ ih =>
          rcases List.mem_cons.mp hmem with rfl | hmem
          · obtain ⟨parts, hcut, hin⟩ := hp
            exact ⟨_, List.mem_cons_self, parts, hcut, hin⟩
          · obtain ⟨w, hw, rest⟩ := ih hmem
            exact ⟨w, List.mem_cons_of_mem _ hw, rest⟩
    exact ⟨hcut.length_eq s hin, hcut.run s hin⟩

-- ================================================================ chunks

/-- If every pick has a chunk, the picks have their chunks. -/
theorem makeDataChunks_ok {dimSpans : List SpanPairs} {marks : List Bool}
    (hlen : dimSpans.length = marks.length)
    (h : ∀ x ∈ dimSpans.zip marks, ∃ c, makeDataChunk rs
        (if rs.isFixed then none else some rs.rowOffsets) x.1 x.2 = .ok c
      ∧ c.dimSpans = x.1 ∧ c.contiguous = x.2 ∧ c.Built rs) :
    ∃ chunks, makeDataChunks dimSpans marks rs = .ok chunks
      ∧ chunks.map DataChunk.dimSpans = dimSpans
      ∧ ∀ c ∈ chunks, (c.dimSpans, c.contiguous) ∈ dimSpans.zip marks
          ∧ c.Built rs := by
  have hne : Nonempty DataChunk := ⟨⟨[], [], 0, [], [], false⟩⟩
  choose! g hg using h
  refine ⟨(dimSpans.zip marks).map g, ?_, ?_, ?_⟩
  · exact mapM_ok_of_forall fun x hx => (hg x hx).1
  · rw [List.map_map]
    calc (dimSpans.zip marks).map (DataChunk.dimSpans ∘ g)
        = (dimSpans.zip marks).map Prod.fst :=
          List.map_congr_left fun x hx => (hg x hx).2.1
      _ = dimSpans := List.map_fst_zip (Nat.le_of_eq hlen)
  · intro c hc
    obtain ⟨x, hx, rfl⟩ := List.mem_map.mp hc
    obtain ⟨-, hspans, hmark, hbuilt⟩ := hg x hx
    rw [hspans, hmark]
    exact ⟨hx, hbuilt⟩

/-- Arranged spans in memory order take their dimensions whole. -/
theorem arranged_mem_eq_range {spans : SpanPairs} {idss : List Index}
    (h : List.Forall₂ Arranged spans idss)
    (hall : ∀ s ∈ spans, s.mem = List.range s.mem.length) :
    spans.map SpanPair.mem = idss.map fun ids => List.range ids.length := by
  induction h with
  | nil => rfl
  | @cons s ids spans idss hs _ ih =>
      obtain ⟨hmem, hall⟩ := List.forall_mem_cons.mp hall
      have hslen : s.mem.length = ids.length := by
        rw [hs.mem_perm.length_eq, List.length_range]
      rw [List.map_cons, List.map_cons, ih hall, hmem, hslen]

/-- A chunk built from a pick of a block follows the plan of the block's
rows. -/
theorem CutDims.planned {secondary : SpanPairs} {rows : SpanPair}
    {cuts : List SpanPairs} {rowCuts : SpanPairs} {idss : List Index}
    (h : CutDims secondary rows cuts rowCuts)
    (ha : List.Forall₂ Arranged secondary idss)
    (hrows : ∀ k ∈ rows.mem, k < rs.nRows ∧ secondaryIds sel rs k = idss)
    {c : DataChunk} (hbuilt : c.Built rs)
    (hc : (c.dimSpans, c.contiguous)
      ∈ (cartesianProduct (cuts ++ [rowCuts])).1.zip
          (cartesianProduct (cuts ++ [rowCuts])).2) :
    c.Planned sel rs := by
  obtain ⟨hproduct, -, hmarks⟩ := h.zip_eq
  have hmem := (List.of_mem_zip hc).1
  rw [hproduct] at hmem
  obtain ⟨picks, row, hspans, hrow, hlen, hcuts, hruns⟩ := h.isCutOf ha hmem
  have hin : ∀ k ∈ row.mem, k ∈ rows.mem := by
    intro k hk
    rw [← h.rows.mem_eq]
    exact List.mem_flatMap.mpr ⟨row, hrow, hk⟩
  refine ⟨hbuilt, picks, row, hspans, h.rows.length_eq row hrow,
    h.rows.run row hrow, fun k hk => (hrows k (hin k hk)).1, ?_, hruns, ?_⟩
  · intro k hk
    rw [(hrows k (hin k hk)).2]
    exact hcuts
  · intro hcontig
    obtain ⟨row', hspans', hrowcontig, hall⟩ := hmarks _ hc hcontig
    simp only at hspans'
    rw [hspans] at hspans'
    obtain ⟨rfl, hrow'⟩ := List.append_inj' hspans' rfl
    cases hrow'
    refine ⟨hrowcontig, fun k hk => ?_⟩
    rw [(hrows k (hin k hk)).2]
    exact arranged_mem_eq_range ha hall

-- ============================================================ plain results

/-- Every position of a dimension is in one of its sub-spans. -/
theorem CutSpans.exists_pair {span : SpanPair} {ids : Index} {e : Bool}
    {parts : SpanPairs} (hcut : CutSpans span e parts) (harr : Arranged span ids)
    {k : Nat} (hk : k < ids.length) :
    ∃ s ∈ parts, (ids.getD k 0, k) ∈ s.pairs := by
  have hmem : (ids.getD k 0, k) ∈ span.pairs := by
    rw [harr.perm.mem_iff, indexed_eq_map]
    exact List.mem_map.mpr ⟨k, List.mem_range.mpr hk, rfl⟩
  rw [← hcut.pairs_eq, List.mem_flatten] at hmem
  obtain ⟨l, hl, hmem⟩ := hmem
  obtain ⟨s, hs, rfl⟩ := List.mem_map.mp hl
  exact ⟨s, hs, hmem⟩

/-- The plan of a plain result, over all rows at once. -/
theorem plan_plain (h : rs.IsPlain)
    (hcount : (rowIds sel rs).length = rs.nRows) :
    plan sel rs = ((secondaryIds sel rs 0).map indexed
      ++ [indexed (rowIds sel rs)]).sections := by
  rw [Sections.sections_append_singleton, indexed_eq_map, hcount,
    List.flatMap_map, plan]
  refine List.flatMap_congr fun k _ => ?_
  rw [rowPlan, Sections.sections_append_singleton, List.flatMap_singleton,
    secondaryIds_plain h k 0]

variable {srt : StdSort} {opt : RowSplitOptions}

/-- The spans of a plain result are cut unless some dimension repeats an
index. -/
theorem fixedSubspans_outcome (h : rs.Consistent) (hplain : rs.IsPlain)
    {shape : IPosition} (hs : rs.shape = some shape) {maxDim : Nat}
    (hmax : ∀ n ∈ shape, n ≤ maxDim) :
    Outcome (DataPartition.fixedSubspans srt sel rs.rank maxDim shape)
      (Selectable sel rs)
      (fun dims => ∃ secondary rows cuts parts, dims = cuts ++ [parts]
        ∧ List.Forall₂ Arranged secondary (secondaryIds sel rs 0)
        ∧ Arranged rows (rowIds sel rs)
        ∧ List.Forall₂ (fun s spans => CutSpans s false spans) secondary cuts
        ∧ makeSubSpans rows true = .ok parts ∧ CutSpans rows true parts)
      (fun e => ∃ msg, e = .indexError msg) := by
  obtain ⟨n, hn⟩ : ∃ n, rs.rank = n + 1 :=
    ⟨rs.rank - 1, by have := h.rank_pos; omega⟩
  have hlen : shape.length = n + 1 := (h.fixed shape hs).trans hn
  have hsub : rs.rank - 1 = n := by omega
  -- the span and the disk indices of each dimension
  set span := fun d =>
    DataPartition.getSpanPair srt sel rs.rank maxDim d (shape.getD d 0)
    with hspan
  set ids := fun d =>
    (sel.selected rs d).getD (monotonicIds (shape.getD d 0)) with hids
  have harr : ∀ d < n + 1, Arranged (span d) (ids d) := by
    intro d hd
    refine getSpanPair_arranged (hmax _ ?_)
    rw [List.getD_eq_getElem?_getD, List.getElem?_eq_getElem (by omega)]
    exact List.getElem_mem _
  have hdim : ∀ row, ∀ d < n, dimIds sel rs row d = ids d := by
    intro row d hd
    simp only [dimIds, hplain.extent, ResultShapeData.rowDims, hs, hids, hsub]
    rw [List.getD_eq_getElem?_getD, List.getElem?_take_of_lt hd,
      List.getD_eq_getElem?_getD]
  have hrow : rowIds sel rs = ids n := by
    have hlast : shape.getLastD 0 = shape.getD n 0 := by
      rw [List.getLastD_eq_getLast?, List.getLast?_eq_getElem?, hlen,
        List.getD_eq_getElem?_getD]
      rfl
    simp only [rowIds, ResultShapeData.nRows, hs, hids, hsub, hlast]
  unfold DataPartition.fixedSubspans
  rw [hn]
  have hitem (d : Nat) (hd : d ∈ List.range (n + 1)) :
      shape[d]? = some (shape.getD d 0)
      ∧ Outcome (makeSubSpans (span d) (d == n)) (NoRepeat (ids d))
        (fun spans => makeSubSpans (span d) (d == n) = .ok spans
          ∧ CutSpans (span d) (d == n) spans)
        (fun e => ∃ msg, e = .indexError msg) := by
    have hd' : d < n + 1 := List.mem_range.mp hd
    refine ⟨?_, (makeSubSpans_outcome (harr d hd') (d == n)).and_eq⟩
    rw [List.getD_eq_getElem?_getD, List.getElem?_eq_getElem (by omega)]
    rfl
  refine (@Outcome.mapM _ _ _ _ (fun d => NoRepeat (ids d))
    (fun d spans => makeSubSpans (span d) (d == n) = .ok spans
      ∧ CutSpans (span d) (d == n) spans)
    (fun e => ∃ msg, e = .indexError msg) (List.range (n + 1))
    fun d hd => ?_).imp ?_ ?_ fun e he => he
  · have hcell : DataPartition.getSpanPair srt sel (n + 1) maxDim d
        (shape.getD d 0) = span d := by
      rw [hspan, hn]
    rw [(hitem d hd).1, Nat.add_sub_cancel]
    show Outcome (makeSubSpans (DataPartition.getSpanPair srt sel (n + 1)
      maxDim d (shape.getD d 0)) (d == n)) _ _ _
    rw [hcell]
    exact (hitem d hd).2
  · constructor
    · intro hall
      refine ⟨fun _ => ?_, fun row _ d hd => ?_⟩
      · rw [hrow]
        exact hall n (by simp)
      · rw [hdim row d (by omega)]
        exact hall d (by simp; omega)
    · intro hsel d hd
      have hd' : d < n + 1 := List.mem_range.mp hd
      rcases Nat.lt_or_eq_of_le (Nat.lt_succ_iff.mp hd') with hlt | rfl
      · rw [← hdim 0 d hlt]
        exact hsel.dims 0 (.inr hplain) d (by omega)
      · rw [← hrow]
        exact hsel.rows hplain
  · intro dims hdims
    rw [List.range_succ] at hdims
    obtain ⟨cuts, parts, rfl, hcuts, hparts, hpcut⟩ := forall₂_concat.mp hdims
    rw [beq_self_eq_true] at hparts hpcut
    refine ⟨(List.range n).map span, span n, cuts, parts, rfl, ?_, ?_, ?_,
      hparts, hpcut⟩
    · rw [secondaryIds, hsub, List.forall₂_map_left_iff,
        List.forall₂_map_right_iff, List.forall₂_same]
      intro d hd
      have hlt : d < n := List.mem_range.mp hd
      rw [hdim 0 d hlt]
      exact harr d (by omega)
    · rw [hrow]
      exact harr n (by omega)
    · rw [List.forall₂_map_left_iff]
      refine (forall₂_mem hcuts).imp ?_
      intro d spans hx
      obtain ⟨hd, -, -, hcut⟩ := hx
      have hne : d ≠ n := by
        have := List.mem_range.mp hd
        omega
      rwa [beq_false_of_ne hne] at hcut

/-- The chunks of a plain result: one for each pick from the cuts of its
dimensions and of its rows, as far as these are split. -/
structure IsPlainCut (sel : Selection) (rs : ResultShapeData)
    (opt : RowSplitOptions) (p : DataPartition) (secondary : SpanPairs)
    (rows : SpanPair) (cuts : List SpanPairs) (parts rowCuts : SpanPairs) :
    Prop where
  dtype : p.casaDtype = rs.dtype
  dims : List.Forall₂ Arranged secondary (secondaryIds sel rs 0)
  arranged : Arranged rows (rowIds sel rs)
  runs : makeSubSpans rows true = .ok parts
  split : DataPartition.splitRows rs opt (cuts ++ [parts])
    = .ok (cuts ++ [rowCuts])
  block : CutDims secondary rows cuts rowCuts
  spans : p.dataChunks.map DataChunk.dimSpans
    = Sections.product (cuts ++ [rowCuts])
  chunks : ∀ c ∈ p.dataChunks, (c.dimSpans, c.contiguous)
      ∈ (cartesianProduct (cuts ++ [rowCuts])).1.zip
          (cartesianProduct (cuts ++ [rowCuts])).2
    ∧ c.Built rs

/-- `Make` on a plain result, whatever the sizes of the selection. -/
theorem makeFixed_cut (h : rs.Consistent) (hplain : rs.IsPlain)
    {shape : IPosition} (hs : rs.shape = some shape) {maxDim : Nat}
    (hmax : ∀ n ∈ shape, n ≤ maxDim)
    (hdtype : opt.maxSplits ≤ 1 ∨ rs.dtype.supported = true) :
    Outcome (DataPartition.makeFixed srt sel rs opt rs.rank maxDim shape)
      (Selectable sel rs)
      (fun p => ∃ secondary rows cuts parts rowCuts,
        IsPlainCut sel rs opt p secondary rows cuts parts rowCuts)
      (fun e => ∃ msg, e = .indexError msg) := by
  unfold DataPartition.makeFixed
  refine (fixedSubspans_outcome h hplain hs hmax).bind ?_
  rintro dims ⟨secondary, rows, cuts, parts, rfl, hsec, hrows, hcuts, hparts,
    hpcut⟩
  obtain ⟨rowCuts, hsplit, hrowCuts⟩ :=
    @splitRows_ok rs _ cuts _ _ hpcut hdtype
  have hblock : CutDims secondary rows cuts rowCuts := ⟨hcuts, hrowCuts⟩
  obtain ⟨hproduct, hlen, -⟩ := hblock.zip_eq
  have hrank := h.rank_pos
  have hbuilt : ∀ x ∈ (cartesianProduct (cuts ++ [rowCuts])).1.zip
      (cartesianProduct (cuts ++ [rowCuts])).2,
      ∃ c, makeDataChunk rs (if rs.isFixed then none else some rs.rowOffsets)
          x.1 x.2 = .ok c
        ∧ c.dimSpans = x.1 ∧ c.contiguous = x.2 ∧ c.Built rs := by
    intro x hx
    have hmem := (List.of_mem_zip hx).1
    rw [hproduct] at hmem
    obtain ⟨picks, row, hspans, -, hplen, -⟩ := hblock.isCutOf hsec hmem
    have hxlen : x.1.length = rs.rank := by
      rw [hspans, List.length_append, List.length_singleton, hplen]
      simp only [secondaryIds, List.length_map, List.length_range]
      omega
    rw [hplain.1, if_pos rfl]
    exact makeDataChunk_fixed h hs hxlen x.2
  obtain ⟨chunks, hchunks, hspans, hall⟩ := makeDataChunks_ok hlen hbuilt
  refine ⟨⟨chunks, rs.dtype⟩, ?_, secondary, rows, cuts, parts, rowCuts, rfl,
    hsec, hrows, hparts, hsplit, hblock, hspans.trans hproduct, hall⟩
  rw [hsplit]
  simp only [Result.ok_bind, hchunks, Result.pure_eq]

/-- The picks and the row of a chunk of a plain result. -/
theorem IsPlainCut.pick {p : DataPartition} {secondary : SpanPairs}
    {rows : SpanPair} {cuts : List SpanPairs} {parts rowCuts : SpanPairs}
    (h : IsPlainCut sel rs opt p secondary rows cuts parts rowCuts)
    {c : DataChunk} (hc : c ∈ p.dataChunks) :
    ∃ picks row, c.dimSpans = picks ++ [row] ∧ row ∈ rowCuts
      ∧ List.Forall₂ IsCutOf (secondaryIds sel rs 0) picks := by
  obtain ⟨hproduct, -, -⟩ := h.block.zip_eq
  have hmem := (List.of_mem_zip (h.chunks c hc).1).1
  rw [hproduct] at hmem
  obtain ⟨picks, row, hspans, hrow, -, hcut, -⟩ :=
    h.block.isCutOf h.dims hmem
  exact ⟨picks, row, hspans, hrow, hcut⟩

/-- The row spans that the chunks of a plain result pick from. -/
theorem IsPlainCut.isRowCuts {p : DataPartition} {secondary : SpanPairs}
    {rows : SpanPair} {cuts : List SpanPairs} {parts rowCuts : SpanPairs}
    (h : IsPlainCut sel rs opt p secondary rows cuts parts rowCuts) :
    IsRowCuts sel rs opt rowCuts := by
  have hids : List.Forall₂ (fun ids spans =>
      ∃ w, Arranged w ids ∧ CutSpans w false spans)
      (secondaryIds sel rs 0) cuts := forall₂_comp h.dims h.block.1
  exact ⟨rows, parts, cuts, h.arranged, h.runs, hids, h.split, h.block.2⟩

/-- The chunks of a plain result are the plan, if the rows selected are
as many as the result has. -/
theorem IsPlainCut.partitions {p : DataPartition} {secondary : SpanPairs}
    {rows : SpanPair} {cuts : List SpanPairs} {parts rowCuts : SpanPairs}
    (h : IsPlainCut sel rs opt p secondary rows cuts parts rowCuts)
    (hplain : rs.IsPlain) (hcount : (rowIds sel rs).length = rs.nRows) :
    DataPartition.Partitions sel rs opt p := by
  refine ⟨h.dtype, ?_, ?_, ?_, fun hp => absurd hplain hp, ?_⟩
  · have hflat : p.dataChunks.flatMap DataChunk.transfers
        = (Sections.product (cuts ++ [rowCuts])).flatMap SpanPairs.transfers := by
      rw [← h.spans, List.flatMap_map]
      rfl
    rw [hflat, plan_plain hplain hcount]
    have harr : List.Forall₂ Arranged (secondary ++ [rows])
        (secondaryIds sel rs 0 ++ [rowIds sel rs]) :=
      List.rel_append h.dims (.cons h.arranged .nil)
    have hperm := transfers_arranged harr
    rw [List.map_append, List.map_singleton] at hperm
    exact h.block.transfers_perm.trans hperm
  · intro c hc
    refine h.block.planned h.dims (fun k hk => ?_) (h.chunks c hc).2
      (h.chunks c hc).1
    have := h.arranged.mem_perm.mem_iff.mp hk
    rw [List.mem_range, hcount] at this
    exact ⟨this, secondaryIds_plain hplain k 0⟩
  · intro _
    refine ⟨rowCuts, h.isRowCuts, ?_⟩
    intro c hc
    obtain ⟨picks, row, hspans, hrow, -⟩ := h.pick hc
    exact ⟨picks, row, hspans, hrow⟩
  · intro k hk
    obtain ⟨row, hrow, hpair⟩ := h.block.2.exists_pair h.arranged
      (by rw [hcount]; exact hk)
    obtain ⟨picks, hpicks⟩ := h.block.exists_pick hrow
    rw [← h.spans, List.mem_map] at hpicks
    obtain ⟨c, hc, hspans⟩ := hpicks
    exact ⟨c, hc, picks, row, hspans, hpair⟩

-- ================================================== results row by row

/-- A run that is not cut. -/
theorem cutSpans_self {s : SpanPair} {e : Bool}
    (hlen : s.disk.length = s.mem.length) (hrun : IsRun e s.disk) :
    CutSpans s e [s] where
  disk_eq := List.flatMap_singleton _ _
  mem_eq := List.flatMap_singleton _ _
  length_eq := by simpa using hlen
  run := by simpa using hrun
  ne_nil := List.cons_ne_nil _ _
  nonempty := fun h => by simpa using h
  uncut := fun _ _ s' hs' _ p hp _ => List.mem_singleton.mp hs' ▸ hp

/-- The span of a secondary dimension of a row arranges its disk
indices. -/
theorem rowSpanPair_ok (h : rs.Consistent) {maxDim row dim : Nat}
    (hrow : row < rs.nRows) (hdim : dim < rs.rank - 1)
    (hmax : (rs.rowDims row).getD dim 0 ≤ maxDim) :
    ∃ span, DataPartition.rowSpanPair srt sel rs rs.rank maxDim row dim
        ((rs.rowDims row).getD dim 0) = .ok span
      ∧ Arranged span (dimIds sel rs row dim) := by
  have hunpadded : Arranged
      (DataPartition.getSpanPair srt sel rs.rank maxDim dim
        ((rs.rowDims row).getD dim 0))
      ((sel.selected rs dim).getD (monotonicIds ((rs.rowDims row).getD dim 0))) :=
    getSpanPair_arranged hmax
  unfold DataPartition.rowSpanPair dimIds
  cases hext : rs.cellExtents with
  | none =>
      simp only [ResultShapeData.hasCellExtents, ResultShapeData.extent, hext,
        Option.isSome_none, Bool.false_eq_true, if_false, Result.pure_eq]
      exact ⟨_, rfl, hunpadded⟩
  | some extents =>
      obtain ⟨-, hlen, hall⟩ := h.extents extents hext
      have hin : row < extents.length := by omega
      have helen := hall _ (List.getElem_mem hin)
      have hdim : dim < extents[row].length := by omega
      have hget : extents[row][dim]? = some extents[row][dim] :=
        List.getElem?_eq_getElem hdim
      simp only [ResultShapeData.hasCellExtents, ResultShapeData.extent, hext,
        Option.isSome_some, if_true, ResultShapeData.getCellExtent,
        Option.getD_some, List.getElem?_eq_getElem hin, Result.ok_bind,
        List.getD_eq_getElem?_getD, hget, Result.pure_eq]
      rw [List.getD_eq_getElem?_getD] at hunpadded
      split
      · exact ⟨_, rfl, makeSortedIndices_arranged srt _⟩
      · exact ⟨_, rfl, hunpadded⟩

/-- The cut dimensions of one row of the result. -/
def IsRowBlock (sel : Selection) (rs : ResultShapeData) (k : Nat)
    (dims : List SpanPairs) : Prop :=
  ∃ secondary cuts,
    dims = cuts ++ [[SpanPair.mk [(rowIds sel rs).getD k 0] [k]]]
    ∧ List.Forall₂ Arranged secondary (secondaryIds sel rs k)
    ∧ CutDims secondary (SpanPair.mk [(rowIds sel rs).getD k 0] [k]) cuts
        [SpanPair.mk [(rowIds sel rs).getD k 0] [k]]

/-- The picks of a row are paired with as many marks, and there is at
least one. -/
theorem IsRowBlock.picks {k : Nat} {dims : List SpanPairs}
    (h : IsRowBlock sel rs k dims) :
    (cartesianProduct dims).1.length = (cartesianProduct dims).2.length
      ∧ (cartesianProduct dims).1 ≠ [] := by
  obtain ⟨secondary, cuts, rfl, -, hblock⟩ := h
  obtain ⟨hproduct, hlen, -⟩ := hblock.zip_eq
  refine ⟨hlen, ?_⟩
  rw [hproduct]
  exact hblock.product_ne_nil

/-- Each pick of a row ends in the row itself. -/
theorem IsRowBlock.row_eq {k : Nat} {dims : List SpanPairs}
    (h : IsRowBlock sel rs k dims) {spans : SpanPairs}
    (hs : spans ∈ (cartesianProduct dims).1) :
    ∃ picks, spans
      = picks ++ [SpanPair.mk [(rowIds sel rs).getD k 0] [k]] := by
  obtain ⟨secondary, cuts, rfl, harr, hblock⟩ := h
  obtain ⟨hproduct, -, -⟩ := hblock.zip_eq
  rw [hproduct] at hs
  obtain ⟨picks, row, rfl, hrow, -⟩ := hblock.isCutOf harr hs
  exact ⟨picks, by rw [List.mem_singleton.mp hrow]⟩

/-- The picks of a row transfer what the plan has for it. -/
theorem IsRowBlock.transfers_perm {k : Nat} {dims : List SpanPairs}
    (h : IsRowBlock sel rs k dims) :
    ((cartesianProduct dims).1.flatMap SpanPairs.transfers).Perm
      (rowPlan sel rs k) := by
  obtain ⟨secondary, cuts, rfl, harr, hblock⟩ := h
  obtain ⟨hproduct, -, -⟩ := hblock.zip_eq
  rw [hproduct]
  refine hblock.transfers_perm.trans ?_
  rw [SpanPairs.transfers, List.map_append, rowPlan]
  refine Sections.sections_perm (List.rel_append ?_ (.cons (.refl _) .nil))
  rw [List.forall₂_map_left_iff, List.forall₂_map_right_iff]
  exact harr.imp fun _ _ ha => ha.perm

/-- Every pick of a row has a chunk, as planned. -/
theorem IsRowBlock.built (hrs : rs.Consistent) {k : Nat} (hk : k < rs.nRows)
    {dims : List SpanPairs} (h : IsRowBlock sel rs k dims)
    {x : SpanPairs × Bool}
    (hx : x ∈ (cartesianProduct dims).1.zip (cartesianProduct dims).2) :
    ∃ c, makeDataChunk rs (if rs.isFixed then none else some rs.rowOffsets)
        x.1 x.2 = .ok c
      ∧ c.dimSpans = x.1 ∧ c.contiguous = x.2 ∧ c.Built rs := by
  obtain ⟨secondary, cuts, rfl, harr, hblock⟩ := h
  obtain ⟨hproduct, -, -⟩ := hblock.zip_eq
  have hmem := (List.of_mem_zip hx).1
  rw [hproduct] at hmem
  obtain ⟨picks, row, hspans, hrow, hplen, -⟩ := hblock.isCutOf harr hmem
  have hrank := hrs.rank_pos
  have hpicks : picks.length = rs.rank - 1 := by
    rw [hplen, secondaryIds, List.length_map, List.length_range]
  obtain ⟨spans, mark⟩ := x
  simp only at hspans ⊢
  subst hspans
  rw [List.mem_singleton.mp hrow]
  cases hs : rs.shape with
  | some shape =>
      have hfixed : rs.isFixed = true := by
        simp [ResultShapeData.isFixed, hs]
      rw [hfixed, if_pos rfl]
      refine makeDataChunk_fixed hrs hs ?_ mark
      rw [List.length_append, hpicks, List.length_singleton]
      omega
  | none =>
      have hfixed : rs.isFixed = false := by
        simp [ResultShapeData.isFixed, hs]
      rw [hfixed]
      exact makeDataChunk_varying hrs hs hpicks hk mark

theorem IsRowBlock.planned {k : Nat} (hk : k < rs.nRows)
    {dims : List SpanPairs} (h : IsRowBlock sel rs k dims) {c : DataChunk}
    (hbuilt : c.Built rs)
    (hc : (c.dimSpans, c.contiguous)
      ∈ (cartesianProduct dims).1.zip (cartesianProduct dims).2) :
    c.Planned sel rs := by
  obtain ⟨secondary, cuts, rfl, harr, hblock⟩ := h
  refine hblock.planned harr (fun j hj => ?_) hbuilt hc
  rw [List.mem_singleton.mp hj]
  exact ⟨hk, rfl⟩

/-- The spans of a row are cut unless one of its dimensions repeats an
index. -/
theorem rowSubspans_outcome (h : rs.Consistent) {maxDim : Nat}
    (hmax : ∀ row, row < rs.nRows ∨ rs.isFixed = true →
      ∀ n ∈ rs.rowDims row, n ≤ maxDim)
    {rowSpan : SpanPair} (hspan : Arranged rowSpan (rowIds sel rs))
    {r k : Nat} (hr : rowSpan.mem[r]? = some k) (hk : k < rs.nRows) :
    Outcome (DataPartition.rowSubspans srt sel rs rs.rank maxDim rowSpan r)
      (∀ dim ∈ List.range (rs.rank - 1), NoRepeat (dimIds sel rs k dim))
      (IsRowBlock sel rs k) (fun e => ∃ msg, e = .indexError msg) := by
  have hdims := h.rowDims_length (.inl hk)
  have hshape : DataPartition.rowShape rs rs.rank k = .ok (rs.rowDims k) := by
    cases hs : rs.shape with
    | some shape => simp only [DataPartition.rowShape, ResultShapeData.rowDims, hs]
    | none =>
        simp only [DataPartition.rowShape, hs]
        exact rs.getRowShape_eq hs hk
  -- the row itself, as a span
  obtain ⟨hrlt, hrget⟩ := List.getElem?_eq_some_iff.mp hr
  have hdlt : r < rowSpan.disk.length := hspan.length_eq ▸ hrlt
  have hpair : (rowSpan.disk[r], k) ∈ rowSpan.pairs := by
    refine List.mem_iff_getElem.mpr ⟨r, ?_, ?_⟩
    · rw [SpanPair.pairs, List.length_zip]
      omega
    · simp only [SpanPair.pairs, List.getElem_zip, hrget]
  have hrow : subSpan rowSpan.disk rowSpan.mem r (r + 1)
      = SpanPair.mk [(rowIds sel rs).getD k 0] [k] := by
    have hone : r + 1 - r = 1 := by omega
    rw [subSpan, hone, List.drop_eq_getElem_cons hdlt,
      List.drop_eq_getElem_cons hrlt, hrget, ← (hspan.pair hpair).2]
    rfl
  unfold DataPartition.rowSubspans
  simp only [hr, hshape, Result.ok_bind, hrow, Result.pure_eq]
  refine Outcome.bind (P := List.Forall₂ (fun dim spans =>
      ∃ s, Arranged s (dimIds sel rs k dim) ∧ CutSpans s false spans)
      (List.range (rs.rank - 1))) ?_ ?_
  · refine Outcome.mapM fun dim hdim => ?_
    have hlt : dim < rs.rank - 1 := List.mem_range.mp hdim
    have hget : (rs.rowDims k)[dim]? = some ((rs.rowDims k).getD dim 0) := by
      rw [List.getD_eq_getElem?_getD, List.getElem?_eq_getElem (by omega)]
      rfl
    have hbound : (rs.rowDims k).getD dim 0 ≤ maxDim :=
      hmax k (.inl hk) _ (List.mem_of_getElem? hget)
    obtain ⟨span, hspan, harr⟩ :=
      @rowSpanPair_ok sel _ srt h _ _ _ hk hlt hbound
    simp only [hget, hspan, Result.ok_bind]
    exact (makeSubSpans_outcome harr false).imp Iff.rfl
      (fun spans hcut => ⟨span, harr, hcut⟩) fun e he => he
  · intro cuts hcuts
    obtain ⟨secondary, harr, hcut⟩ := forall₂_exists hcuts
    refine ⟨_, rfl, secondary, cuts, rfl, ?_,
      ⟨hcut, cutSpans_self rfl (isRun_singleton true _)⟩⟩
    rw [secondaryIds, List.forall₂_map_right_iff]
    exact harr

/-- A plan listed row by row, in any order of the rows. -/
theorem plan_perm_rows {rows : List Nat} (h : rows.Perm (List.range rs.nRows)) :
    (rows.flatMap (rowPlan sel rs)).Perm (plan sel rs) :=
  h.flatMap_right _

/-- The picks of the blocks of all rows, each with its mark, are made into
chunks that carry out the plan. -/
theorem rowBlocks_chunks (h : rs.Consistent) (hplain : ¬ rs.IsPlain)
    (hpos : 0 < rs.nRows) {mem : List Nat} {rows : List (List SpanPairs)}
    (hperm : mem.Perm (List.range rs.nRows))
    (hblocks : List.Forall₂ (IsRowBlock sel rs) mem rows) :
    (rows.flatMap fun row => (cartesianProduct row).1).length ≠ 0
      ∧ ∃ chunks, makeDataChunks
          (rows.flatMap fun row => (cartesianProduct row).1)
          (rows.flatMap fun row => (cartesianProduct row).2) rs = .ok chunks
        ∧ DataPartition.Partitions sel rs opt ⟨chunks, rs.dtype⟩ := by
  -- every row of spans is the block of some row of the result
  have hblock : ∀ dims ∈ rows, ∃ k < rs.nRows, IsRowBlock sel rs k dims := by
    intro dims hdims
    obtain ⟨k, hk, hb⟩ := forall₂_mem_right hblocks hdims
    exact ⟨k, List.mem_range.mp (hperm.mem_iff.mp hk), hb⟩
  have hpicks : ∀ dims ∈ rows, (cartesianProduct dims).1.length
      = (cartesianProduct dims).2.length := by
    intro dims hdims
    obtain ⟨k, -, hb⟩ := hblock dims hdims
    exact hb.picks.1
  have hzip := Sections.zip_flatMap hpicks
  have hlens : (rows.flatMap fun row => (cartesianProduct row).1).length
      = (rows.flatMap fun row => (cartesianProduct row).2).length := by
    rw [List.length_flatMap, List.length_flatMap]
    exact congrArg List.sum (List.map_congr_left hpicks)
  have hne : (rows.flatMap fun row => (cartesianProduct row).1).length ≠ 0 := by
    have hrowslen : 0 < rows.length := by
      rw [← hblocks.length_eq, hperm.length_eq, List.length_range]
      exact hpos
    have hmem := List.getElem_mem hrowslen
    obtain ⟨k, -, hb⟩ := hblock _ hmem
    intro hzero
    have hnil := List.flatMap_eq_nil_iff.mp (List.length_eq_zero_iff.mp hzero)
    exact hb.picks.2 (hnil _ hmem)
  obtain ⟨chunks, hchunks, hspans, hall⟩ := @makeDataChunks_ok rs _ _ hlens
    fun x hx => by
      rw [hzip, List.mem_flatMap] at hx
      obtain ⟨dims, hdims, hx⟩ := hx
      obtain ⟨k, hk, hb⟩ := hblock dims hdims
      exact hb.built h hk hx
  refine ⟨hne, chunks, hchunks, rfl, ?_, ?_, fun hp => absurd hp hplain,
    fun _ c hc => ?_, fun k hk => ?_⟩
  · have hflat : chunks.flatMap DataChunk.transfers
        = rows.flatMap fun dims =>
            (cartesianProduct dims).1.flatMap SpanPairs.transfers := by
      rw [← List.flatMap_assoc, ← hspans, List.flatMap_map]
      rfl
    have hrowsperm : (rows.flatMap fun dims =>
          (cartesianProduct dims).1.flatMap SpanPairs.transfers).Perm
        (mem.flatMap (rowPlan sel rs)) :=
      Sections.flatMap_perm_of_forall₂
        (hblocks.flip.imp fun dims k hb => IsRowBlock.transfers_perm hb)
    show (chunks.flatMap DataChunk.transfers).Perm (plan sel rs)
    rw [hflat]
    exact hrowsperm.trans (plan_perm_rows hperm)
  · intro c hc
    obtain ⟨hmem, hbuilt⟩ := hall c hc
    rw [hzip, List.mem_flatMap] at hmem
    obtain ⟨dims, hdims, hx⟩ := hmem
    obtain ⟨k, hk, hb⟩ := hblock dims hdims
    exact hb.planned hk hbuilt hx
  · have hmem := (hall c hc).1
    rw [hzip, List.mem_flatMap] at hmem
    obtain ⟨dims, hdims, hx⟩ := hmem
    obtain ⟨k, hk, hb⟩ := hblock dims hdims
    obtain ⟨picks, hpicks⟩ := hb.row_eq (List.of_mem_zip hx).1
    exact ⟨picks, k, hk, hpicks⟩
  · have hin : k ∈ mem := hperm.mem_iff.mpr (List.mem_range.mpr hk)
    obtain ⟨dims, -, -, hdims, hb⟩ := forall₂_mem_right
      (forall₂_mem hblocks).flip hin
    obtain ⟨pick, hpick⟩ := List.exists_mem_of_ne_nil _ hb.picks.2
    obtain ⟨picks, hpicks⟩ := hb.row_eq hpick
    have hmem : pick ∈ chunks.map DataChunk.dimSpans := by
      rw [hspans]
      exact List.mem_flatMap.mpr ⟨dims, hdims, hpick⟩
    obtain ⟨c, hc, rfl⟩ := List.mem_map.mp hmem
    exact ⟨c, hc, picks, _, hpicks, List.mem_singleton_self _⟩

/-- `Make` on a result planned row by row. -/
theorem makeVarying_outcome (h : rs.Consistent)
    (hcount : (rowIds sel rs).length = rs.nRows) (hplain : ¬ rs.IsPlain)
    (hpos : 0 < rs.nRows) {maxDim : Nat} (hrows : rs.nRows ≤ maxDim)
    (hmax : ∀ row, row < rs.nRows ∨ rs.isFixed = true →
      ∀ n ∈ rs.rowDims row, n ≤ maxDim) :
    Outcome (DataPartition.makeVarying srt sel rs rs.rank maxDim)
      (Selectable sel rs) (DataPartition.Partitions sel rs opt)
      (fun e => ∃ msg, e = .indexError msg) := by
  have hrank := h.rank_pos
  unfold DataPartition.makeVarying
  dsimp only
  set rowSpan := DataPartition.getSpanPair srt sel rs.rank maxDim (rs.rank - 1)
    rs.nRows with hrowSpan
  have hspan : Arranged rowSpan (rowIds sel rs) := getSpanPair_arranged hrows
  have hperm : rowSpan.mem.Perm (List.range rs.nRows) := by
    rw [← hcount]
    exact hspan.mem_perm
  have hlen : rowSpan.mem.length = rs.nRows := by
    rw [hperm.length_eq, List.length_range]
  have hget : ∀ r < rs.nRows, rowSpan.mem[r]? = some (rowSpan.mem.getD r 0)
      ∧ rowSpan.mem.getD r 0 < rs.nRows := by
    intro r hr
    have hr' : r < rowSpan.mem.length := by omega
    rw [List.getD_eq_getElem?_getD, List.getElem?_eq_getElem hr']
    exact ⟨rfl, List.mem_range.mp (hperm.mem_iff.mp (List.getElem_mem hr'))⟩
  -- the loop visits the rows as the span has them
  have hmap : (List.range rs.nRows).map (fun r => rowSpan.mem.getD r 0)
      = rowSpan.mem := by
    refine List.ext_getElem (by simp [hlen]) fun i h₁ h₂ => ?_
    simp [List.getD_eq_getElem?_getD, List.getElem?_eq_getElem h₂]
  have houtcome := Outcome.mapM
    (l := List.range rs.nRows)
    (fun r hr => @rowSubspans_outcome _ _ srt h _ hmax _ hspan _ _
      (hget r (List.mem_range.mp hr)).1 (hget r (List.mem_range.mp hr)).2)
  refine Outcome.bind (houtcome.imp ?_ (fun _ hP => hP) fun e he => he) ?_
  · constructor
    · intro hall
      refine ⟨fun hp => absurd hp hplain, fun row hrow dim hdim => ?_⟩
      have hrow' : row < rs.nRows := hrow.resolve_right hplain
      have hin : row ∈ (List.range rs.nRows).map
          (fun r => rowSpan.mem.getD r 0) := by
        rw [hmap]
        exact hperm.mem_iff.mpr (List.mem_range.mpr hrow')
      obtain ⟨r, hr, rfl⟩ := List.mem_map.mp hin
      exact hall r hr dim (List.mem_range.mpr hdim)
    · intro hsel r hr dim hdim
      exact hsel.dims _ (.inl (hget r (List.mem_range.mp hr)).2) dim
        (List.mem_range.mp hdim)
  · intro rows hblocks
    have hmem : List.Forall₂ (IsRowBlock sel rs) rowSpan.mem rows := by
      rw [← hmap, List.forall₂_map_left_iff]
      exact hblocks
    obtain ⟨hne, chunks, hchunks, hpart⟩ :=
      @rowBlocks_chunks _ _ opt h hplain hpos _ _ hperm hmem
    refine ⟨⟨chunks, rs.dtype⟩, ?_, hpart⟩
    rw [if_neg hne, hchunks]
    rfl

-- ================================================================= Make

/-- `Make` succeeds exactly when the dimensions it cuts repeat no
index, and then its chunks are the plan. That each row of the result has
one row to be read from is all it takes. -/
theorem make_outcome_of_rows (h : rs.Consistent)
    (hcount : (rowIds sel rs).length = rs.nRows)
    (hdtype : rs.IsPlain → opt.maxSplits ≤ 1 ∨ rs.dtype.supported = true)
    (hpos : rs.IsPlain ∨ 0 < rs.nRows) :
    Outcome (DataPartition.make srt sel rs opt) (Selectable sel rs)
      (DataPartition.Partitions sel rs opt)
      (fun e => ∃ msg, e = .indexError msg) := by
  obtain ⟨maxDim, hmaxDim, hrows, hmax⟩ := h.maxDimensionSize_ok
  unfold DataPartition.make
  simp only [hmaxDim, h.consistentNDim, Result.ok_bind]
  cases hs : rs.shape with
  | none =>
      have hplain : ¬ rs.IsPlain := by
        simp [ResultShapeData.IsPlain, ResultShapeData.isFixed, hs]
      exact makeVarying_outcome h hcount hplain (hpos.resolve_left hplain) hrows
        hmax
  | some shape =>
      have hfixed : rs.isFixed = true := by
        simp [ResultShapeData.isFixed, hs]
      cases hext : rs.cellExtents with
      | none =>
          have hbound : ∀ n ∈ shape, n ≤ maxDim :=
            h.shape_le hs hrows fun n hn => hmax 0 (.inr hfixed) n hn
          have hplain : rs.IsPlain := ⟨hfixed, hext⟩
          refine (makeFixed_cut h hplain hs hbound (hdtype hplain)).imp Iff.rfl
            (fun p hcut => ?_) fun e he => he
          obtain ⟨secondary, rows, cuts, parts, rowCuts, hcut⟩ := hcut
          exact hcut.partitions hplain hcount
      | some extents =>
          have hplain : ¬ rs.IsPlain := by
            simp [ResultShapeData.IsPlain, hext]
          exact makeVarying_outcome h hcount hplain (hpos.resolve_left hplain)
            hrows hmax

theorem make_outcome (h : rs.Consistent) (hm : sel.Matches rs)
    (hdtype : rs.IsPlain → opt.maxSplits ≤ 1 ∨ rs.dtype.supported = true)
    (hpos : rs.IsPlain ∨ 0 < rs.nRows) :
    Outcome (DataPartition.make srt sel rs opt) (Selectable sel rs)
      (DataPartition.Partitions sel rs opt)
      (fun e => ∃ msg, e = .indexError msg) :=
  make_outcome_of_rows h hm.rowIds_length hdtype hpos

/-- A request without rows, or an element type without a size where the
rows are to be split, does not get past `Make`. -/
theorem make_ok_conditions (h : rs.Consistent) {p : DataPartition}
    (hp : DataPartition.make srt sel rs opt = .ok p) :
    (rs.IsPlain → opt.maxSplits ≤ 1 ∨ rs.dtype.supported = true)
      ∧ (rs.IsPlain ∨ 0 < rs.nRows) := by
  obtain ⟨maxDim, hmaxDim, -, -⟩ := h.maxDimensionSize_ok
  unfold DataPartition.make at hp
  simp only [hmaxDim, h.consistentNDim, Result.ok_bind] at hp
  have hvarying : DataPartition.makeVarying srt sel rs rs.rank maxDim = .ok p →
      0 < rs.nRows := by
    intro hv
    refine Nat.pos_of_ne_zero fun hzero => ?_
    simp [DataPartition.makeVarying, hzero] at hv
  cases hs : rs.shape with
  | none =>
      rw [hs] at hp
      have hplain : ¬ rs.IsPlain := by
        simp [ResultShapeData.IsPlain, ResultShapeData.isFixed, hs]
      exact ⟨fun hp' => absurd hp' hplain, .inr (hvarying hp)⟩
  | some shape =>
      rw [hs] at hp
      cases hext : rs.cellExtents with
      | some extents =>
          rw [hext] at hp
          have hplain : ¬ rs.IsPlain := by
            simp [ResultShapeData.IsPlain, hext]
          exact ⟨fun hp' => absurd hp' hplain, .inr (hvarying hp)⟩
      | none =>
          rw [hext] at hp
          have hplain : rs.IsPlain := ⟨by simp [ResultShapeData.isFixed, hs], hext⟩
          refine ⟨fun _ => ?_, .inl hplain⟩
          by_contra hno
          rw [not_or] at hno
          have hsplit : ∀ dims, ∃ e, DataPartition.splitRows rs opt dims
              = .error e := by
            intro dims
            cases hsize : casaDataTypeSize rs.dtype with
            | ok n => exact absurd ((casaDataTypeSize_isOk _).mp ⟨n, hsize⟩) hno.2
            | error e =>
                refine ⟨e, ?_⟩
                rw [DataPartition.splitRows, if_pos (by omega), hsize]
                rfl
          simp only [DataPartition.makeFixed] at hp
          obtain ⟨dims, -, hp⟩ := Result.bind_eq_ok.mp hp
          obtain ⟨dims', hdims', -⟩ := Result.bind_eq_ok.mp hp
          obtain ⟨e, he⟩ := hsplit dims
          rw [he] at hdims'
          cases hdims'

/-- A partition made without complaint is the plan. -/
theorem partitions_of_rows (h : rs.Consistent)
    (hcount : (rowIds sel rs).length = rs.nRows) {p : DataPartition}
    (hp : DataPartition.make srt sel rs opt = .ok p) :
    Selectable sel rs ∧ DataPartition.Partitions sel rs opt p := by
  obtain ⟨hdtype, hpos⟩ := make_ok_conditions h hp
  exact (make_outcome_of_rows h hcount hdtype hpos).of_ok hp

theorem partitions_of_make (h : rs.Consistent) (hm : sel.Matches rs)
    {p : DataPartition} (hp : DataPartition.make srt sel rs opt = .ok p) :
    Selectable sel rs ∧ DataPartition.Partitions sel rs opt p :=
  partitions_of_rows h hm.rowIds_length hp

/-- The chunks of a plain result, whatever the sizes of the selection. -/
theorem plainCut_of_make (h : rs.Consistent) (hplain : rs.IsPlain)
    {p : DataPartition} (hp : DataPartition.make srt sel rs opt = .ok p) :
    ∃ secondary rows cuts parts rowCuts,
      IsPlainCut sel rs opt p secondary rows cuts parts rowCuts := by
  obtain ⟨hdtype, -⟩ := make_ok_conditions h hp
  obtain ⟨maxDim, hmaxDim, hrows, hmax⟩ := h.maxDimensionSize_ok
  obtain ⟨shape, hs⟩ := Option.isSome_iff_exists.mp hplain.1
  have hbound : ∀ n ∈ shape, n ≤ maxDim :=
    h.shape_le hs hrows fun n hn => hmax 0 (.inr hplain.1) n hn
  unfold DataPartition.make at hp
  simp only [hmaxDim, h.consistentNDim, Result.ok_bind, hs, hplain.2] at hp
  exact ((makeFixed_cut h hplain hs hbound (hdtype hplain)).of_ok hp).2

/-- The shape of a result that `Make` accepts has a row dimension. -/
theorem shape_ne_nil_of_make {p : DataPartition}
    (h : DataPartition.make srt sel rs opt = .ok p) : rs.shape ≠ some [] := by
  intro hs
  unfold DataPartition.make ResultShapeData.maxDimensionSize at h
  rw [hs] at h
  cases h

/-- The rows of a result that `Make` accepts agree on a rank. -/
theorem ndim_nonneg_of_make {p : DataPartition}
    (h : DataPartition.make srt sel rs opt = .ok p) : 0 ≤ rs.ndim := by
  unfold DataPartition.make at h
  obtain ⟨_, -, h⟩ := Result.bind_eq_ok.mp h
  obtain ⟨_, hndim, -⟩ := Result.bind_eq_ok.mp h
  unfold ResultShapeData.consistentNDim at hndim
  split at hndim
  · assumption
  · cases hndim

/-- Without rows there is nothing to cut row by row. -/
theorem nRows_pos_of_make {p : DataPartition}
    (h : DataPartition.make srt sel rs opt = .ok p) (hs : rs.shape = none) :
    0 < rs.nRows := by
  refine Nat.pos_of_ne_zero fun hzero => ?_
  unfold DataPartition.make at h
  obtain ⟨_, -, h⟩ := Result.bind_eq_ok.mp h
  obtain ⟨_, -, h⟩ := Result.bind_eq_ok.mp h
  rw [hs] at h
  simp [DataPartition.makeVarying, hzero] at h

/-- The rows of a result that `Make` accepts have axes, where they have
shapes of their own. -/
theorem rowShapes_ne_nil_of_make {p : DataPartition}
    (h : DataPartition.make srt sel rs opt = .ok p) (hs : rs.shape = none) :
    ∀ shape ∈ rs.getRowShapes, shape ≠ [] := by
  have key : ∀ (shapes : List IPosition) (n m : Nat),
      shapes.foldlM (fun maxSize shape => do
        let shapeMax ← ResultShapeData.maxElement shape
        pure (max maxSize shapeMax)) n = (.ok m : Result Nat) →
      ∀ shape ∈ shapes, shape ≠ [] := by
    intro shapes
    induction shapes with
    | nil => intro n m _ shape hshape; cases hshape
    | cons s shapes ih =>
        intro n m hfold
        obtain ⟨n', hhead, htail⟩ := foldlM_cons_ok.mp hfold
        obtain ⟨e, he, -⟩ := Result.bind_eq_ok.mp hhead
        rw [List.forall_mem_cons]
        refine ⟨fun hnil => ?_, ih n' m htail⟩
        rw [hnil] at he
        cases he
  unfold DataPartition.make at h
  obtain ⟨m, hmax, -⟩ := Result.bind_eq_ok.mp h
  unfold ResultShapeData.maxDimensionSize at hmax
  rw [hs] at hmax
  exact key _ _ _ hmax

/-- Repeated indices in a dimension that is cut are an IndexError,
whatever else may be wrong. -/
theorem make_indexError (h : rs.Consistent) (hm : sel.Matches rs)
    (hpos : 0 < rs.nRows) (hsel : ¬ Selectable sel rs) :
    ∃ msg, DataPartition.make srt sel rs opt = .error (.indexError msg) := by
  have key : ∃ e, DataPartition.make srt sel rs opt = .error e
      ∧ ∃ msg, e = .indexError msg := by
    by_cases hplain : rs.IsPlain
    · -- the cut comes before the size of an element is asked for
      obtain ⟨maxDim, hmaxDim, hrows, hmax⟩ := h.maxDimensionSize_ok
      obtain ⟨shape, hs⟩ := Option.isSome_iff_exists.mp hplain.1
      obtain ⟨e, he, hmsg⟩ := (@fixedSubspans_outcome _ _ srt h hplain _ hs _
        (h.shape_le hs hrows fun n hn => hmax 0 (.inr hplain.1) n hn)).of_not_good
        hsel
      refine ⟨e, ?_, hmsg⟩
      unfold DataPartition.make DataPartition.makeFixed
      simp only [hmaxDim, h.consistentNDim, Result.ok_bind, hs, hplain.2, he,
        Result.error_bind]
    · exact (make_outcome h hm (fun hp => absurd hp hplain)
        (.inr hpos)).of_not_good hsel
  obtain ⟨e, he, msg, rfl⟩ := key
  exact ⟨msg, he⟩

end Make

end Arcae
