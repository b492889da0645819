/-
The loops of `CopyChunkArray` and `GatherChunkArray`.

Both walk the positions of a chunk with an odometer. It takes one turn
for each element and visits the positions in FORTRAN order
(`whileNotDone_eq`), so that the offsets in the chunk's own array count
up from zero (`map_chunkOffset`): the loops copy the array into its
places, and gather it out of them, element by element
(`copyChunkArray_eq`, `gatherChunkArray_eq`).

Copying a gathered array back only writes what is there. That gathering
a copied array returns it takes more: no two positions may have the same
place. The offset of a place in the result is one mixed-radix number
more, over the sizes of a row and with the row as the last digit, less
the same corner for every position; the memory indices of a span are
distinct and below the size of their dimension, so positions that agree
on the number agree on every index, and hence everywhere
(`bufferOffset_nodup`). Nothing is asked of the order of the indices.
-/
import Arcae.Proofs.Offsets
import Arcae.Model.ChunkIo

namespace Arcae

open FOrder Scatter Loops

variable {α : Type} {rs : ResultShapeData} {c : DataChunk}

-- =================================================== statement vocabulary

/-- Spans with a place in a result: pairs of indices, no memory index
twice, and those of the secondary dimensions within the sizes of the
rows. The row is the last of them. -/
structure SpanPairs.Placeable (rs : ResultShapeData) (spans : SpanPairs) :
    Prop where
  aligned : ∀ s ∈ spans, s.disk.length = s.mem.length
  distinct : ∀ s ∈ spans, s.mem.Nodup
  within : ∃ secondary row, spans = secondary ++ [row]
    ∧ ∀ shape, strideShape rs spans = .ok shape →
      List.Forall₂ (fun (s : SpanPair) n => ∀ i ∈ s.mem, i < n) secondary
        (shape.take secondary.length)

/-- A chunk whose strides are those of its spans. -/
structure DataChunk.Strided (c : DataChunk) : Prop where
  aligned : ∀ s ∈ c.dimSpans, s.disk.length = s.mem.length
  chunkStrides_eq : c.chunkStrides
    = strides (c.dimSpans.map fun span => span.mem.length)

/-- A chunk with a place for each of its positions: rows of the sizes
`dims`. -/
structure DataChunk.Placed (c : DataChunk) (dims : List Nat) : Prop
    extends c.Strided where
  distinct : ∀ s ∈ c.dimSpans, s.mem.Nodup
  minMem_eq : c.minMemIndex = c.dimSpans.map minMem
  bufferStrides_eq : c.bufferStrides = strides (dims ++ [1])
  within : ∃ secondary row, c.dimSpans = secondary ++ [row]
    ∧ List.Forall₂ (fun (s : SpanPair) n => ∀ i ∈ s.mem, i < n) secondary dims

-- ========================================================= the positions

namespace DataChunk.Strided

/-- The loop counts through the shape of the chunk. -/
theorem loopSizes_eq (h : c.Strided) : c.loopSizes = c.getShape :=
  List.map_congr_left fun s hs => (h.aligned s hs).symm

/-- The offset in the chunk's own array is the FORTRAN-order one. -/
theorem chunkOffset_eq (h : c.Strided) (pos : List Nat) :
    c.chunkOffset pos = flat c.getShape pos := by
  rw [DataChunk.chunkOffset, h.chunkStrides_eq, dot_strides]
  exact congrArg (flat · pos) h.loopSizes_eq

/-- The positions are walked in the order of the chunk's own array. -/
theorem map_chunkOffset (h : c.Strided) :
    (box c.getShape).map c.chunkOffset = List.range c.nElements := by
  rw [DataChunk.nElements, ← box_map_flat]
  exact List.map_congr_left fun pos _ => h.chunkOffset_eq pos

/-- The loop with the flag takes a turn for each element, in FORTRAN
order, and ends with the last. -/
theorem whileNotDone_eq {σ : Type} (h : c.Strided) (hne : c.dimSpans ≠ [])
    (hpos : 0 < c.nElements) (body : List Nat → σ → σ) (fuel : Nat) (s : σ) :
    c.whileNotDone body fuel s
      = if fuel < c.nElements then none
        else some ((box c.getShape).foldl (fun s pos => body pos s) s) := by
  have hdims : c.getShape ≠ [] := by simpa [DataChunk.getShape] using hne
  rw [DataChunk.whileNotDone, h.loopSizes_eq,
    Odometer.whileNotDone_eq_run hdims body fuel s
    (by rw [Odometer.zeros, List.length_map]), Odometer.run_eq_ite hpos]
  rfl

/-- A loop that carries errors is a loop that stops at one. -/
theorem foldl_bind {σ : Type} (body : List Nat → σ → Result σ)
    (l : List (List Nat)) (s : Result σ) :
    l.foldl (fun s pos => s >>= body pos) s
      = s >>= fun s => l.foldlM (fun s pos => body pos s) s := by
  induction l generalizing s with
  | nil => cases s <;> rfl
  | cons pos l ih =>
      rw [List.foldl_cons, ih]
      cases s <;> rfl

/-- The loop over the positions of a chunk with an element visits each
of them once, in FORTRAN order. -/
theorem forPositions_eq {σ : Type} (h : c.Strided) (hpos : 0 < c.nElements)
    (body : List Nat → σ → Result σ) (s : σ) :
    c.forPositions body s
      = (box c.getShape).foldlM (fun s pos => body pos s) s := by
  have hpos' : 0 < c.getShape.prod := hpos
  unfold DataChunk.forPositions
  rw [h.loopSizes_eq]
  simp only [Odometer.run_eq_foldl hpos', foldl_bind, Result.ok_bind]

-- ============================================================== the loops

/-- Copying an array puts each of its elements into its place. -/
theorem copyChunkArray_eq (h : c.Strided) (hpos : 0 < c.nElements)
    {data : List α} (hlen : data.length = c.nElements) (buffer : Memory α) :
    copyChunkArray c data buffer
      = .ok (scatter buffer (((box c.getShape).map c.bufferOffset).zip data)) := by
  -- `l` is still to be walked, from offset `k` of the array on
  have key : ∀ (l : List (List Nat)) (k : Nat) (buffer : Memory α),
      l.map c.chunkOffset = List.range' k l.length →
      k + l.length = data.length →
      l.foldlM (fun b pos => copyElement c data pos b) buffer
        = .ok (scatter buffer ((l.map c.bufferOffset).zip (data.drop k))) := by
    intro l
    induction l with
    | nil => intro k buffer _ _; rfl
    | cons pos l ih =>
        intro k buffer hoff hk
        rw [List.map_cons, List.length_cons, List.range'_succ,
          List.cons.injEq] at hoff
        rw [List.length_cons] at hk
        have hlt : k < data.length := by omega
        have hturn : copyElement c data pos buffer = .ok (Function.update buffer
            (c.bufferOffset pos) data[k]) := by
          rw [copyElement, hoff.1, List.getElem?_eq_getElem hlt]
        rw [List.foldlM_cons, hturn, Result.ok_bind,
          ih (k + 1) _ hoff.2 (by omega), List.map_cons,
          List.drop_eq_getElem_cons hlt, List.zip_cons_cons, scatter_cons]
  rw [copyChunkArray, h.forPositions_eq hpos, key (box c.getShape) 0 buffer
    (by rw [h.map_chunkOffset, box_length, List.range_eq_range']; rfl)
    (by rw [box_length, Nat.zero_add, hlen]; rfl), List.drop_zero]

/-- Gathering takes each element of the array out of its place. -/
theorem gatherChunkArray_eq (h : c.Strided) (hpos : 0 < c.nElements)
    (buffer : Memory α) :
    gatherChunkArray c buffer
      = .ok ((box c.getShape).map fun pos => buffer (c.bufferOffset pos)) := by
  set n := c.nElements with hn
  -- the elements before turn `k` are in place
  have key : ∀ (l : List (List Nat)) (k : Nat) (array : List α),
      l.map c.chunkOffset = List.range' k l.length → k + l.length = n →
      array.length = n →
      ∃ array', l.foldlM (fun a pos => gatherElement c buffer pos a) array
          = .ok array'
        ∧ array' = array.take k ++ l.map (fun pos => buffer (c.bufferOffset pos)) := by
    intro l
    induction l with
    | nil =>
        intro k array _ hk hlen
        refine ⟨array, rfl, ?_⟩
        rw [List.map_nil, List.append_nil, List.take_of_length_le]
        rw [List.length_nil] at hk
        omega
    | cons pos l ih =>
        intro k array hoff hk hlen
        rw [List.map_cons, List.length_cons, List.range'_succ,
          List.cons.injEq] at hoff
        rw [List.length_cons] at hk
        have hin : c.chunkOffset pos < array.length := by omega
        obtain ⟨array', hfold, harray⟩ := ih (k + 1)
          (array.set (c.chunkOffset pos) (buffer (c.bufferOffset pos)))
          hoff.2 (by omega) (by rw [List.length_set]; exact hlen)
        refine ⟨array', ?_, ?_⟩
        · rw [List.foldlM_cons, gatherElement]
          simp only [hin, if_true]
          exact hfold
        · have hin' : k < array.length := by omega
          rw [harray, hoff.1, List.map_cons, List.take_add_one,
            List.take_set_of_le (Nat.le_refl k), List.getElem?_set_self hin',
            List.append_assoc]
          rfl
  obtain ⟨array', hfold, harray⟩ := key (box c.getShape) 0
    (List.replicate n (buffer 0))
    (by rw [h.map_chunkOffset, box_length, List.range_eq_range']; rfl)
    (by rw [box_length, Nat.zero_add]; rfl) List.length_replicate
  rw [gatherChunkArray, h.forPositions_eq hpos, hfold, harray]
  rfl

-- ============================================================ both ways

/-- Copying a gathered array back restores the buffer. -/
theorem copy_gather (h : c.Strided) (hpos : 0 < c.nElements)
    (buffer : Memory α) :
    ∃ data, gatherChunkArray c buffer = .ok data
      ∧ data.length = c.nElements
      ∧ copyChunkArray c data buffer = .ok buffer := by
  refine ⟨_, h.gatherChunkArray_eq hpos buffer, ?_, ?_⟩
  · rw [List.length_map, box_length]
    rfl
  · rw [h.copyChunkArray_eq hpos (by rw [List.length_map, box_length]; rfl),
      List.zip_map']
    refine congrArg Except.ok (scatter_self fun w hw => ?_)
    obtain ⟨pos, -, rfl⟩ := List.mem_map.mp hw
    rfl

/-- Where no place is taken twice, gathering a copied array returns
it. -/
theorem gather_copy (h : c.Strided) (hpos : 0 < c.nElements)
    (hnodup : ((box c.getShape).map c.bufferOffset).Nodup) {data : List α}
    (hlen : data.length = c.nElements) (buffer : Memory α) :
    ∃ out, copyChunkArray c data buffer = .ok out
      ∧ gatherChunkArray c out = .ok data := by
  refine ⟨_, h.copyChunkArray_eq hpos hlen buffer, ?_⟩
  rw [h.gatherChunkArray_eq hpos]
  have hbox : (box c.getShape).length = data.length := by
    rw [box_length, hlen]
    rfl
  refine congrArg Except.ok (List.ext_getElem (by rw [List.length_map, hbox])
    fun i h₁ h₂ => ?_)
  have hi : i < ((box c.getShape).map c.bufferOffset).length := by
    rw [List.length_map, hbox]
    exact h₂
  rw [List.getElem_map]
  refine scatter_of_mem ?_ ?_
  · rw [List.map_fst_zip (by rw [List.length_map, hbox])]
    exact hnodup
  · have hzip : i < (((box c.getShape).map c.bufferOffset).zip data).length := by
      rw [List.length_zip]
      omega
    have hget := List.getElem_mem hzip
    rw [List.getElem_zip, List.getElem_map] at hget
    exact hget

end DataChunk.Strided

-- ============================================================= the places

section Places

/-- The memory indices at a position are indices of their spans. -/
theorem memAt_mem {spans : SpanPairs} {pos : List Nat}
    (h : InBox pos (spans.map fun s => s.mem.length)) :
    List.Forall₂ (fun i (s : SpanPair) => i ∈ s.mem)
      (List.zipWith (fun (s : SpanPair) i => s.mem.getD i 0) spans pos) spans := by
  rw [InBox, List.forall₂_map_right_iff] at h
  induction h with
  | nil => exact .nil
  | @cons i s pos spans hi _ ih =>
      refine .cons ?_ ih
      show s.mem.getD i 0 ∈ s.mem
      rw [List.getD_eq_getElem?_getD, List.getElem?_eq_getElem hi,
        Option.getD_some]
      exact List.getElem_mem hi

/-- Positions with the same memory indices are the same. -/
theorem memAt_inj {spans : SpanPairs} (hd : ∀ s ∈ spans, s.mem.Nodup)
    {pos pos' : List Nat} (h : InBox pos (spans.map fun s => s.mem.length))
    (h' : InBox pos' (spans.map fun s => s.mem.length))
    (heq : List.zipWith (fun (s : SpanPair) i => s.mem.getD i 0) spans pos
      = List.zipWith (fun (s : SpanPair) i => s.mem.getD i 0) spans pos') :
    pos = pos' := by
  rw [InBox, List.forall₂_map_right_iff] at h h'
  induction h generalizing pos' with
  | nil =>
      cases h'
      rfl
  | @cons i s pos spans hi _ ih =>
      obtain (_ | ⟨hi', hrest'⟩) := h'
      rw [List.zipWith_cons_cons, List.zipWith_cons_cons, List.cons.injEq,
        List.getD_eq_getElem?_getD, List.getD_eq_getElem?_getD,
        List.getElem?_eq_getElem hi, List.getElem?_eq_getElem hi',
        Option.getD_some, Option.getD_some,
        (hd s List.mem_cons_self).getElem_inj_iff] at heq
      rw [heq.1, ih (fun s hs => hd s (List.mem_cons_of_mem _ hs)) hrest' heq.2]

/-- An offset with the row as the last digit tells the row and the index
in it. -/
theorem flat_concat_inj {dims idx idx' : List Nat} {k k' : Nat}
    (h : InBox idx dims) (h' : InBox idx' dims)
    (heq : flat (dims ++ [1]) (idx ++ [k]) = flat (dims ++ [1]) (idx' ++ [k'])) :
    idx ++ [k] = idx' ++ [k'] := by
  rw [flat_append_singleton _ _ h.length_eq,
    flat_append_singleton _ _ h'.length_eq] at heq
  have hlt := flat_lt_prod h
  have hlt' := flat_lt_prod h'
  have hpos : 0 < dims.prod := Nat.zero_lt_of_lt hlt
  have hrow : k = k' := by
    have hdiv := congrArg (· / dims.prod) heq
    simpa only [Nat.add_mul_div_left _ _ hpos, Nat.div_eq_of_lt hlt,
      Nat.div_eq_of_lt hlt', Nat.zero_add] using hdiv
  have hflat : flat dims idx = flat dims idx' := by
    rw [hrow] at heq
    exact Nat.add_right_cancel heq
  rw [hrow, ← unflat_flat h, ← unflat_flat h', hflat]

end Places

namespace DataChunk.Placed

variable {dims : List Nat}

/-- The memory indices at a position: an index within a row, and the
row. -/
theorem memAt_eq (h : c.Placed dims) {pos : List Nat}
    (hpos : InBox pos c.getShape) :
    ∃ idx k, c.memAt pos = idx ++ [k] ∧ InBox idx dims := by
  obtain ⟨secondary, row, hspans, hwithin⟩ := h.within
  have hmem : List.Forall₂ (fun i (s : SpanPair) => i ∈ s.mem) (c.memAt pos)
      (secondary ++ [row]) := by
    rw [← hspans]
    apply memAt_mem
    rw [← h.loopSizes_eq] at hpos
    exact hpos
  obtain ⟨idx, k, heq, hidx, -⟩ := forall₂_concat.mp hmem.flip
  refine ⟨idx, k, heq, ?_⟩
  exact (forall₂_comp hidx hwithin).imp fun i n hx => by
    obtain ⟨s, hi, hn⟩ := hx
    exact hn i hi

/-- The offset of a place: the chunk's own, and that of its memory
indices in the rows, less that of the corner. -/
theorem bufferOffset_add (h : c.Placed dims) {pos : List Nat}
    (hpos : InBox pos c.getShape) :
    c.bufferOffset pos + flat (dims ++ [1]) c.minMemIndex
      = c.flatOffset + flat (dims ++ [1]) (c.memAt pos) := by
  have hle : List.Forall₂ (· ≤ ·) c.minMemIndex (c.memAt pos) := by
    rw [h.minMem_eq, List.forall₂_map_left_iff]
    have hmem : List.Forall₂ (fun i (s : SpanPair) => i ∈ s.mem) (c.memAt pos)
        c.dimSpans := by
      apply memAt_mem
      rw [← h.loopSizes_eq] at hpos
      exact hpos
    exact hmem.flip.imp fun s i hi =>
      (minMem_spec (List.ne_nil_of_mem hi)).2 i hi
  have hlegs := dot_sub_add hle (strides (dims ++ [1]))
  rw [dot_strides, dot_strides, dot_strides] at hlegs
  rw [DataChunk.bufferOffset, h.bufferStrides_eq, dot_strides]
  omega

/-- No two positions have the same place. -/
theorem bufferOffset_nodup (h : c.Placed dims) :
    ((box c.getShape).map c.bufferOffset).Nodup := by
  have hbox : (box c.getShape).Nodup := by
    have hflat := List.nodup_range (n := c.getShape.prod)
    rw [← box_map_flat] at hflat
    exact hflat.of_map _
  refine (List.nodup_map_iff_inj_on hbox).mpr fun pos hpos pos' hpos' heq => ?_
  rw [mem_box] at hpos hpos'
  have hoffset := h.bufferOffset_add hpos
  have hoffset' := h.bufferOffset_add hpos'
  obtain ⟨idx, k, hidx, hin⟩ := h.memAt_eq hpos
  obtain ⟨idx', k', hidx', hin'⟩ := h.memAt_eq hpos'
  have hflat : flat (dims ++ [1]) (c.memAt pos)
      = flat (dims ++ [1]) (c.memAt pos') := by omega
  rw [hidx, hidx'] at hflat
  have hmem : c.memAt pos = c.memAt pos' := by
    rw [hidx, hidx']
    exact flat_concat_inj hin hin' hflat
  rw [← h.loopSizes_eq] at hpos hpos'
  exact memAt_inj h.distinct hpos hpos' hmem

end DataChunk.Placed

-- ========================================================= MakeDataChunks

/-- A chunk that `MakeDataChunks` makes of such spans has a place for
each position. -/
theorem makeDataChunk_placed {offsets : Option (List Nat)} {spans : SpanPairs}
    {contiguous : Bool} (h : spans.Placeable rs)
    (hc : makeDataChunk rs offsets spans contiguous = .ok c) :
    c.dimSpans = spans ∧ ∃ dims, c.Placed dims := by
  obtain ⟨shape, hshape, hc⟩ := Result.bind_eq_ok.mp hc
  obtain ⟨x, -, hc⟩ := Result.bind_eq_ok.mp hc
  cases hc
  obtain ⟨secondary, row, hspans, hwithin⟩ := h.within
  have hdim : spans.length - 1 = secondary.length := by
    rw [hspans, List.length_append, List.length_singleton, Nat.add_sub_cancel]
  refine ⟨rfl, shape.take secondary.length, ?_⟩
  exact
    { aligned := h.aligned
      chunkStrides_eq := rfl
      distinct := h.distinct
      minMem_eq := rfl
      bufferStrides_eq := by rw [hdim]
      within := ⟨secondary, row, hspans, hwithin shape hshape⟩ }

/-- The loops of `CopyChunkArray` and `GatherChunkArray` on a chunk of
any number of dimensions, none of them empty: they end after one turn
for each element and not before, visit every position once and in
FORTRAN order, so that the offsets in the chunk's array are all of those
in range, one after the other; and either loop undoes the other. -/
theorem chunkLoops_exact {offsets : Option (List Nat)} {spans : SpanPairs}
    {contiguous : Bool} (h : spans.Placeable rs)
    (hsizes : ∀ s ∈ spans, 1 ≤ s.mem.length)
    (hc : makeDataChunk rs offsets spans contiguous = .ok c) :
    (∀ (σ : Type) (body : List Nat → σ → σ) (fuel : Nat) (s : σ),
        c.whileNotDone body fuel s
          = if fuel < c.nElements then none
            else some ((box c.getShape).foldl (fun s pos => body pos s) s))
      ∧ (∀ (σ : Type) (body : List Nat → σ → Result σ) (s : σ),
        c.whileNotDone (fun pos s => s >>= body pos) c.nElements (.ok s)
          = some (c.forPositions body s))
      ∧ (∀ pos, InBox pos c.getShape → (box c.getShape).count pos = 1)
      ∧ (box c.getShape).length = c.nElements
      ∧ (box c.getShape).map c.chunkOffset = List.range c.nElements
      ∧ ∀ buffer : Memory α,
        (∃ data, gatherChunkArray c buffer = .ok data
            ∧ data.length = c.nElements
            ∧ copyChunkArray c data buffer = .ok buffer)
          ∧ ∀ data : List α, data.length = c.nElements →
            ∃ out, copyChunkArray c data buffer = .ok out
              ∧ gatherChunkArray c out = .ok data := by
  obtain ⟨hdims, dims, hplaced⟩ := makeDataChunk_placed h hc
  obtain ⟨secondary, row, hspans, -⟩ := h.within
  have hstrided := hplaced.toStrided
  have hne : c.dimSpans ≠ [] := by
    rw [hdims, hspans]
    simp
  have hpos : 0 < c.nElements := by
    refine List.prod_pos_iff_forall_pos_nat.mpr fun n hn => ?_
    change n ∈ c.getShape at hn
    rw [← hstrided.loopSizes_eq] at hn
    obtain ⟨s, hs, rfl⟩ := List.mem_map.mp hn
    exact hsizes s (hdims ▸ hs)
  have hnodup := hplaced.bufferOffset_nodup
  refine ⟨fun σ body fuel s => hstrided.whileNotDone_eq hne hpos body fuel s,
    fun σ body s => ?_, fun pos hin => ?_, box_length _,
    hstrided.map_chunkOffset, fun buffer =>
      ⟨hstrided.copy_gather hpos buffer, fun data hlen =>
        hstrided.gather_copy hpos hnodup hlen buffer⟩⟩
  · rw [hstrided.whileNotDone_eq hne hpos, if_neg (Nat.lt_irrefl _),
      DataChunk.Strided.foldl_bind, Result.ok_bind,
      hstrided.forPositions_eq hpos]
  · exact List.count_eq_one_of_mem hnodup.of_map (mem_box.mpr hin)

/-- Rows of three elements; two of them, read back to front, in two
rows. -/
def backwardSpans : SpanPairs := [⟨[4, 5], [2, 0]⟩, ⟨[7, 9], [0, 1]⟩]

def backwardShape : ResultShapeData where
  columnName := "DATA"
  shape := some [3, 2]
  ndim := 2
  dtype := .tpInt
  rowShapes := none
  cellExtents := none

theorem backwardSpans_placeable : backwardSpans.Placeable backwardShape where
  aligned := by decide
  distinct := by decide
  within := by
    refine ⟨[⟨[4, 5], [2, 0]⟩], ⟨[7, 9], [0, 1]⟩, rfl, fun shape hshape => ?_⟩
    cases hshape
    exact .cons (by decide) .nil

theorem chunkLoops_exact_sample : ∃ c,
    makeDataChunk backwardShape none backwardSpans false = .ok c
      ∧ c.nElements = 4
      ∧ ∃ out, copyChunkArray c [10, 20, 30, 40] (fun _ => 0) = .ok out
        ∧ gatherChunkArray c out = .ok [10, 20, 30, 40] := by
  obtain ⟨-, -, -, -, -, hboth⟩ := @chunkLoops_exact Nat backwardShape _ none
    backwardSpans false backwardSpans_placeable (by decide) rfl
  exact ⟨_, rfl, rfl, (hboth fun _ => 0).2 [10, 20, 30, 40] rfl⟩

end Arcae
