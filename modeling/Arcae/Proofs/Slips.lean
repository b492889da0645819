/-
Which requests have a chunk that slips.

A dimension is `Anchored` if its run of non-negative indices starts at
the first position of memory: then every chunk that moves anything
starts there at zero. A dimension that is not anchored has an index
whose run starts later, whichever way it was cut (`exists_late`). So a
request has no slip exactly when, in each row that has an element on
disk, every dimension is anchored or has a stride an `int` can hold
(`no_slip_iff`); the rows of a fixed result are one more dimension, and
their chunks start where the cut of the rows lets them.
-/
import Arcae.Proofs.Moves

namespace Arcae

open FOrder Loops

variable {sel : Selection} {rs : ResultShapeData}

-- ============================================================== anchoring

/-- The non-negative indices of a dimension are one run, and the first
position holds one of them; or there are none. -/
def Anchored (ids : Index) : Prop :=
  (∀ i ∈ ids, i < 0) ∨ (0 ≤ ids.headD 0 ∧ Gapless ids)

theorem anchored_monotonicIds (n : Nat) : Anchored (monotonicIds n) := by
  refine .inr ⟨?_, fun i hi _ => ?_⟩
  · cases n with
    | zero => exact Int.le_refl 0
    | succ n =>
        rw [monotonicIds, List.range_succ_eq_map, List.map_cons]
        exact Int.le_refl 0
  · obtain ⟨j, hj, rfl⟩ := List.mem_map.mp hi
    rw [List.mem_range] at hj
    rcases Nat.lt_or_ge (j + 1) n with hlt | hge
    · exact .inl (List.mem_map.mpr ⟨j + 1, List.mem_range.mpr hlt, rfl⟩)
    · refine .inr fun i hi => ?_
      obtain ⟨j', hj', rfl⟩ := List.mem_map.mp hi
      rw [List.mem_range] at hj'
      exact Int.ofNat_le.mpr (by omega)

/-- The leading indices of a dimension are one run. -/
theorem anchored_paddedIds (n extent : Nat) : Anchored (paddedIds n extent) := by
  have hmem : ∀ i ∈ paddedIds n extent, 0 ≤ i → i ∈ monotonicIds extent := by
    intro i hi hnn
    rcases List.mem_append.mp hi with hi | hi
    · exact hi
    · rw [List.eq_of_mem_replicate hi] at hnn
      exact absurd hnn (by decide)
  cases extent with
  | zero =>
      refine .inl fun i hi => ?_
      by_contra hnn
      cases hmem i hi (Int.not_lt.mp hnn)
  | succ extent =>
      obtain ⟨hhead, hgapless⟩ := (anchored_monotonicIds (extent + 1)).resolve_left
        fun hneg => absurd (hneg 0 (List.mem_map.mpr ⟨0, by simp, rfl⟩))
          (Int.lt_irrefl 0)
      refine .inr ⟨?_, fun i hi hnn => ?_⟩
      · rw [paddedIds, monotonicIds, List.range_succ_eq_map]
        exact Int.le_refl 0
      · refine (hgapless i (hmem i hi hnn) hnn).imp
          (fun hnext => List.mem_append_left _ hnext) fun hlast j hj => ?_
        by_cases hneg : j < 0
        · omega
        · exact hlast j (hmem j hj (Int.not_lt.mp hneg))

/-- An anchored dimension with an index starts with its run. -/
theorem anchored_iff {ids : Index} (h : ∃ i ∈ ids, 0 ≤ i) :
    Anchored ids ↔ 0 ≤ ids.headD 0 ∧ Gapless ids := by
  obtain ⟨i, hi, hnn⟩ := h
  exact or_iff_right fun hneg => absurd (hneg i hi) (Int.not_lt.mpr hnn)

theorem gapless_perm {ids ids' : Index} (h : ids.Perm ids') :
    Gapless ids ↔ Gapless ids' := by
  unfold Gapless
  simp only [h.mem_iff]

/-- Consecutive indices include every index between two of them. -/
theorem Consecutive.mem_of_between {l : List Int} (h : Consecutive l)
    {a b x : Int} (ha : a ∈ l) (hb : b ∈ l) (hax : a ≤ x) (hxb : x ≤ b) :
    x ∈ l := by
  have hrange := h.eq_range (List.ne_nil_of_mem ha)
  rw [TableColumn.slicerRange] at hrange
  rw [hrange] at ha hb ⊢
  obtain ⟨i, -, rfl⟩ := List.mem_map.mp ha
  obtain ⟨j, hj, rfl⟩ := List.mem_map.mp hb
  rw [List.mem_range] at hj
  refine List.mem_map.mpr ⟨(x - l.headD 0).toNat, List.mem_range.mpr ?_, ?_⟩
  · dsimp only at hax hxb hj ⊢
    omega
  · dsimp only at hax hxb ⊢
    omega

namespace CutSpans

variable {ids : Index} {span s : SpanPair} {entireRange : Bool}
  {parts : SpanPairs}

/-- A cut pairs indices with their positions. -/
theorem pair (hcut : CutSpans span entireRange parts) (harr : Arranged span ids)
    (hs : s ∈ parts) {p : Int × Nat} (hp : p ∈ s.pairs) :
    p.2 < ids.length ∧ p.1 = ids.getD p.2 0 := by
  refine harr.pair ?_
  rw [← hcut.pairs_eq]
  exact List.mem_flatten.mpr ⟨s.pairs, List.mem_map_of_mem hs, hp⟩

/-- The index at a position of a cut is one of the cut's. -/
theorem disk_mem (hcut : CutSpans span entireRange parts)
    (harr : Arranged span ids) (hs : s ∈ parts) {m : Nat} (hm : m ∈ s.mem) :
    ids.getD m 0 ∈ s.disk := by
  have hlen := hcut.length_eq s hs
  obtain ⟨i, hi, rfl⟩ := List.mem_iff_getElem.mp hm
  have hpair : (s.disk[i], s.mem[i]) ∈ s.pairs :=
    List.mem_iff_getElem.mpr ⟨i, by simp [SpanPair.pairs, hlen, hi], by
      simp [SpanPair.pairs]⟩
  rw [← (hcut.pair harr hs hpair).2]
  exact List.getElem_mem _

end CutSpans

namespace IsCutOf

variable {ids : Index} {s : SpanPair}

theorem disk_mem (h : IsCutOf ids s) {m : Nat} (hm : m ∈ s.mem) :
    ids.getD m 0 ∈ s.disk := by
  obtain ⟨_, _, harr, hcut, hs⟩ := h
  exact hcut.disk_mem harr hs hm

theorem isRun (h : IsCutOf ids s) : IsRun false s.disk := by
  obtain ⟨_, _, _, hcut, hs⟩ := h
  exact hcut.run s hs

/-- The live cuts of an anchored dimension start at zero. -/
theorem minMem_eq_zero (h : IsCutOf ids s) (ha : Anchored ids)
    (hlive : ∃ i ∈ s.disk, 0 ≤ i) : minMem s = 0 := by
  obtain ⟨span, parts, harr, hcut, hs⟩ := h
  obtain ⟨i, hi, hnn⟩ := hlive
  have hiids : i ∈ ids := by
    refine harr.disk_perm.mem_iff.mp ?_
    rw [← hcut.disk_eq]
    exact List.mem_flatMap.mpr ⟨s, hs, hi⟩
  rcases ha with hneg | ⟨hhead, hg⟩
  · exact absurd (hneg i hiids) (by omega)
  · have hpos : 0 < ids.length := List.length_pos_of_mem hiids
    have hfirst : (ids.headD 0, 0) ∈ span.pairs := by
      refine harr.perm.mem_iff.mpr (mem_indexed.mpr ⟨hpos, ?_⟩)
      cases ids with
      | nil => cases hiids
      | cons a l => rfl
    have hin := hcut.uncut rfl ((gapless_perm harr.disk_perm).mpr hg) s hs
      ⟨i, hi, hnn⟩ _ hfirst hhead
    have hzero : 0 ∈ s.mem := (List.of_mem_zip hin).2
    have := (minMem_spec (List.ne_nil_of_mem hzero)).2 0 hzero
    omega

end IsCutOf

/-- A dimension that is not anchored has an index whose run starts
beyond the first position, however it was cut. -/
theorem exists_late {ids : Index} (h : ¬ Anchored ids) :
    ∃ m < ids.length, 0 ≤ ids.getD m 0
      ∧ ∀ s, IsCutOf ids s → m ∈ s.mem → 0 < minMem s := by
  rw [Anchored, not_or, not_and_or] at h
  obtain ⟨hlive, hcases⟩ := h
  have hfirst : ∀ {s}, IsCutOf ids s → minMem s = 0 → s.mem ≠ [] →
      ids.headD 0 ∈ s.disk := by
    intro s hs hzero hne
    have hmem := hs.disk_mem (hzero ▸ (minMem_spec hne).1)
    cases ids with
    | nil => simp at hlive
    | cons a l => exact hmem
  obtain ⟨i, hi, hnn⟩ : ∃ i ∈ ids, 0 ≤ i := by
    by_contra hno
    refine hlive fun i hi => ?_
    by_contra hge
    exact hno ⟨i, hi, by omega⟩
  rcases lt_or_ge (ids.headD 0) 0 with hneg | hpos
  · -- a live run does not hold the missing first index
    obtain ⟨m, hm, rfl⟩ := List.mem_iff_getElem.mp hi
    have hget : ids.getD m 0 = ids[m] := List.getD_eq_getElem _ _ hm
    refine ⟨m, hm, by omega, fun s hs hin => Nat.pos_of_ne_zero fun hzero => ?_⟩
    have hhead := hfirst hs hzero (List.ne_nil_of_mem hin)
    have hlater := hs.disk_mem hin
    rcases hs.isRun.sign with hall | hall
    · have := hall _ hlater
      omega
    · have := hall _ hhead
      omega
  · -- a run does not reach across a gap
    have hgap : ∃ g, 0 ≤ g ∧ g ∈ ids ∧ g + 1 ∉ ids ∧ ∃ j ∈ ids, g < j := by
      have hng := hcases.resolve_left (by omega)
      unfold Gapless at hng
      push Not at hng
      obtain ⟨g, hg, hgnn, hnext, j, hj, hlt⟩ := hng
      exact ⟨g, hgnn, hg, hnext, j, hj, hlt⟩
    obtain ⟨g, hgnn, hg, hnext, j, hj, hlt⟩ := hgap
    -- the index on the other side of the gap from the first one
    obtain ⟨x, hx, hxnn, hside⟩ : ∃ x ∈ ids, 0 ≤ x
        ∧ (ids.headD 0 ≤ g ∧ g < x ∨ x ≤ g ∧ g < ids.headD 0) := by
      rcases lt_or_ge g (ids.headD 0) with hright | hleft
      · exact ⟨g, hg, hgnn, .inr ⟨Int.le_refl g, hright⟩⟩
      · exact ⟨j, hj, by omega, .inl ⟨hleft, hlt⟩⟩
    obtain ⟨m, hm, rfl⟩ := List.mem_iff_getElem.mp hx
    have hget : ids.getD m 0 = ids[m] := List.getD_eq_getElem _ _ hm
    refine ⟨m, hm, by omega, fun s hs hin => Nat.pos_of_ne_zero fun hzero => ?_⟩
    have hhead := hfirst hs hzero (List.ne_nil_of_mem hin)
    have hlater := hs.disk_mem hin
    rw [hget] at hlater
    have hmid : g + 1 ∈ s.disk := by
      rcases hs.isRun with hall | ⟨-, -, hcons⟩
      · have := hall _ hlater
        omega
      · rcases hside with ⟨h₁, h₂⟩ | ⟨h₁, h₂⟩
        · exact (hcons rfl).mem_of_between hhead hlater (by omega) (by omega)
        · exact (hcons rfl).mem_of_between hlater hhead (by omega) (by omega)
    obtain ⟨span, parts, harr, hcut, hs⟩ := hs
    refine hnext (harr.disk_perm.mem_iff.mp ?_)
    rw [← hcut.disk_eq]
    exact List.mem_flatMap.mpr ⟨s, hs, hmid⟩

-- ============================================================ live rows

/-- A row has an element on disk. -/
def RowLive (sel : Selection) (rs : ResultShapeData) (row : Nat) : Prop :=
  0 ≤ (rowIds sel rs).getD row 0
    ∧ ∀ d < rs.rank - 1, ∃ i ∈ dimIds sel rs row d, 0 ≤ i

/-- In every dimension a live row has a position that exists on disk. -/
theorem RowLive.exists_pos {row : Nat} (h : RowLive sel rs row) :
    ∃ pos : Nat → Nat, ∀ d < rs.rank - 1,
      pos d < (dimIds sel rs row d).length
        ∧ 0 ≤ (dimIds sel rs row d).getD (pos d) 0 := by
  have hpos : ∀ d, ∃ k, d < rs.rank - 1 → k < (dimIds sel rs row d).length
      ∧ 0 ≤ (dimIds sel rs row d).getD k 0 := by
    intro d
    by_cases hd : d < rs.rank - 1
    · obtain ⟨i, hi, hnn⟩ := h.2 d hd
      obtain ⟨k, hk, rfl⟩ := List.mem_iff_getElem.mp hi
      refine ⟨k, fun _ => ⟨hk, ?_⟩⟩
      rwa [List.getD_eq_getElem _ _ hk]
    · exact ⟨0, fun hlt => absurd hlt hd⟩
  choose pos hpos using hpos
  exact ⟨pos, hpos⟩

/-- In one dimension it can be any that does. -/
theorem RowLive.exists_pos_at {row : Nat} (h : RowLive sel rs row) {dim m : Nat}
    (hm : m < (dimIds sel rs row dim).length)
    (hnn : 0 ≤ (dimIds sel rs row dim).getD m 0) :
    ∃ pos : Nat → Nat, pos dim = m ∧ ∀ d < rs.rank - 1,
      pos d < (dimIds sel rs row d).length
        ∧ 0 ≤ (dimIds sel rs row d).getD (pos d) 0 := by
  obtain ⟨pos, hpos⟩ := h.exists_pos
  refine ⟨Function.update pos dim m, Function.update_self dim m pos,
    fun d hd => ?_⟩
  by_cases heq : d = dim
  · rw [heq, Function.update_self]
    exact ⟨hm, hnn⟩
  · rw [Function.update_of_ne heq]
    exact hpos d hd

/-- The transfer of a row at some positions. -/
def transferOf (sel : Selection) (rs : ResultShapeData) (row : Nat)
    (pos : Nat → Nat) : Transfer :=
  ((List.range (rs.rank - 1)).map fun d =>
      ((dimIds sel rs row d).getD (pos d) 0, pos d))
    ++ [((rowIds sel rs).getD row 0, row)]

theorem transferOf_mem_plan {row : Nat} (hrow : row < rs.nRows)
    {pos : Nat → Nat}
    (hpos : ∀ d < rs.rank - 1, pos d < (dimIds sel rs row d).length) :
    transferOf sel rs row pos ∈ plan sel rs := by
  refine mem_plan.mpr ⟨row, hrow, _, rfl, ?_⟩
  rw [secondaryIds, List.forall₂_map_left_iff, List.forall₂_map_right_iff,
    List.forall₂_same]
  exact fun d hd => mem_indexed.mpr ⟨hpos d (List.mem_range.mp hd), rfl⟩

theorem transferOf_live {row : Nat} {pos : Nat → Nat}
    (hrow : 0 ≤ (rowIds sel rs).getD row 0)
    (hpos : ∀ d < rs.rank - 1, 0 ≤ (dimIds sel rs row d).getD (pos d) 0) :
    (transferOf sel rs row pos).live = true := by
  rw [Transfer.live, transferOf, List.all_append, Bool.and_eq_true]
  refine ⟨List.all_eq_true.mpr fun p hp => ?_, by simpa using hrow⟩
  obtain ⟨d, hd, rfl⟩ := List.mem_map.mp hp
  exact decide_eq_true (hpos d (List.mem_range.mp hd))

@[simp] theorem transferOf_row (row : Nat) (pos : Nat → Nat) :
    (transferOf sel rs row pos).row = row :=
  Transfer.row_concat _ _

/-- A live transfer of the plan makes its row live. -/
theorem rowLive_of_mem_plan {t : Transfer} (ht : t ∈ plan sel rs)
    (hlive : t.live = true) : RowLive sel rs t.row := by
  obtain ⟨row, -, t', rfl, ht'⟩ := mem_plan.mp ht
  rw [Transfer.live, List.all_append, Bool.and_eq_true] at hlive
  have hrow : Transfer.row (t' ++ [((rowIds sel rs).getD row 0, row)]) = row :=
    Transfer.row_concat _ _
  rw [hrow]
  refine ⟨by simpa using hlive.2, fun d hd => ?_⟩
  have hmem : dimIds sel rs row d ∈ secondaryIds sel rs row :=
    List.mem_map.mpr ⟨d, List.mem_range.mpr hd, rfl⟩
  obtain ⟨p, hp, hin⟩ := forall₂_mem_right ht' hmem
  obtain ⟨hlt, heq⟩ := mem_indexed.mp hin
  refine ⟨p.1, ?_, of_decide_eq_true (List.all_eq_true.mp hlive.1 p hp)⟩
  rw [heq, List.getD_eq_getElem _ _ hlt]
  exact List.getElem_mem hlt

/-- The pick of a chunk in a dimension, and what one of its transfers
takes from it. -/
theorem DataChunk.pick_at {c : DataChunk} {picks : SpanPairs}
    {row : SpanPair} (hspans : c.dimSpans = picks ++ [row])
    (hcuts : ∀ k ∈ row.mem, List.Forall₂ IsCutOf (secondaryIds sel rs k) picks)
    {t : Transfer} (ht : t ∈ c.transfers) {d : Nat} (hd : d < rs.rank - 1) :
    ∃ s p, picks[d]? = some s ∧ IsCutOf (dimIds sel rs t.row d) s
      ∧ t[d]? = some p ∧ p ∈ s.pairs := by
  have hcut := hcuts _ (DataChunk.Planned.row_mem ht hspans)
  rw [DataChunk.transfers, hspans] at ht
  obtain ⟨t', q, rfl, ht', -⟩ := mem_transfers_concat.mp ht
  rw [Transfer.row_concat] at hcut ⊢
  have hpicks : picks.length = rs.rank - 1 := by
    rw [← hcut.length_eq, secondaryIds, List.length_map, List.length_range]
  have hlen := transfers_length ht'
  have hds : d < picks.length := by omega
  have hdt : d < t'.length := by omega
  refine ⟨picks[d], t'[d], List.getElem?_eq_getElem hds, ?_, ?_, ?_⟩
  · have hget := List.Forall₂.get hcut (by simpa [secondaryIds] using hd) hds
    simpa [secondaryIds] using hget
  · rw [List.getElem?_append_left hdt, List.getElem?_eq_getElem hdt]
  · exact List.Forall₂.get (mem_transfers.mp ht') hdt hds

-- =============================================================== the slips

theorem ResultShapeData.rowDims_fixed (h : rs.isFixed = true) (row row' : Nat) :
    rs.rowDims row = rs.rowDims row' := by
  obtain ⟨shape, hs⟩ := Option.isSome_iff_exists.mp h
  simp only [ResultShapeData.rowDims, hs]

/-- Every secondary dimension of a live row is anchored, or has a stride
an `int` can hold. -/
def StridesFit (sel : Selection) (rs : ResultShapeData) : Prop :=
  ∀ row < rs.nRows, RowLive sel rs row → ∀ d < rs.rank - 1,
    Anchored (dimIds sel rs row d) ∨ ((rs.rowDims row).take d).prod < 2 ^ 31

/-- Every chunk of a partition that moves an element starts at the first
row. -/
def DataPartition.RowsAnchored (p : DataPartition) : Prop :=
  ∀ c ∈ p.dataChunks, (∃ t ∈ c.transfers, t.live = true) →
    c.minMemIndex.getLastD 0 = 0

variable {opt : RowSplitOptions} {p : DataPartition}

/-- No chunk that moves an element slips exactly when strides fit, and
the chunks of a fixed result start at the first row or its rows are
small. -/
theorem no_slip_iff (hrs : rs.Consistent) (hpart : p.Partitions sel rs opt) :
    (∀ c ∈ p.dataChunks, ∀ t ∈ c.transfers, t.live = true → c.slip rs = 0)
      ↔ StridesFit sel rs ∧ (rs.isFixed = true →
          p.RowsAnchored ∨ (rs.rowDims 0).prod < 2 ^ 31) := by
  constructor
  · intro hslip
    constructor
    · intro row hrow hrowlive d hd
      by_contra hno
      rw [not_or] at hno
      obtain ⟨m, hmlt, hmlive, hlate⟩ := exists_late hno.1
      -- a live position of every other dimension, and the late one of this
      obtain ⟨pos, hpos, hall⟩ := hrowlive.exists_pos_at hmlt hmlive
      set t := transferOf sel rs row pos with ht
      have hplan : t ∈ plan sel rs :=
        transferOf_mem_plan hrow fun e he => (hall e he).1
      have htlive : t.live = true :=
        transferOf_live hrowlive.1 fun e he => (hall e he).2
      obtain ⟨c, hc, htc⟩ := List.mem_flatMap.mp
        (hpart.transfers.mem_iff.mpr hplan)
      have hplanned := hpart.planned c hc
      obtain ⟨picks, rowSpan, hspans, -, -, -, hcuts, -⟩ := hplanned.spans
      have hzero := ((hplanned.slip_eq_zero hrs htc hspans).mp
        (hslip c hc t htc htlive)).1 d hd
      obtain ⟨s, q, hs, hcut, hq, hqs⟩ := c.pick_at hspans hcuts htc hd
      rw [ht, transferOf_row] at hcut hzero
      have hq2 : q.2 = m := by
        rw [ht, transferOf, List.getElem?_append_left (by simpa using hd),
          List.getElem?_map, List.getElem?_range hd] at hq
        have := Option.some.inj hq
        rw [← this]
        exact hpos
      have hmin := hlate s hcut (hq2 ▸ (List.of_mem_zip hqs).2)
      rw [List.getD_eq_getElem?_getD, List.getElem?_map, hs] at hzero
      rcases hzero with hzero | hsmall
      · have hzero : minMem s = 0 := hzero
        omega
      · exact hno.2 hsmall
    · intro hfixed
      by_contra hno
      rw [not_or] at hno
      refine hno.1 fun c hc ⟨t, ht, hlive⟩ => ?_
      have hplanned := hpart.planned c hc
      obtain ⟨picks, rowSpan, hspans, -⟩ := hplanned.spans
      have hzero := ((hplanned.slip_eq_zero hrs ht hspans).mp
        (hslip c hc t ht hlive)).2 hfixed
      rw [rs.rowDims_fixed hfixed _ 0] at hzero
      rw [hplanned.minMem_eq, hspans, List.map_append, List.map_singleton,
        List.getLastD_concat]
      exact hzero.resolve_right hno.2
  · intro hx c hc t ht hlive
    obtain ⟨hfit, hrows⟩ := hx
    have hplanned := hpart.planned c hc
    obtain ⟨picks, rowSpan, hspans, -, -, hrowlt, hcuts, -⟩ := hplanned.spans
    refine (hplanned.slip_eq_zero hrs ht hspans).mpr ⟨fun d hd => ?_,
      fun hfixed => ?_⟩
    · have hrowlive := rowLive_of_mem_plan (hpart.mem_plan hc ht) hlive
      rcases hfit t.row (hplanned.row_lt ht) hrowlive d hd with ha | hsmall
      · left
        obtain ⟨s, q, hs, hcut, hq, hqs⟩ := c.pick_at hspans hcuts ht hd
        have hnn : 0 ≤ q.1 := of_decide_eq_true
          (List.all_eq_true.mp hlive q (List.mem_of_getElem? hq))
        rw [List.getD_eq_getElem?_getD, List.getElem?_map, hs]
        exact hcut.minMem_eq_zero ha ⟨q.1, (List.of_mem_zip hqs).1, hnn⟩
      · exact .inr hsmall
    · rcases hrows hfixed with hanch | hsmall
      · left
        have hzero := hanch c hc ⟨t, ht, hlive⟩
        rwa [hplanned.minMem_eq, hspans, List.map_append, List.map_singleton,
          List.getLastD_concat] at hzero
      · right
        rwa [rs.rowDims_fixed hfixed _ 0]

-- ======================================================= rows that are cut

/-- A transfer of a chunk takes its row from the chunk's rows. -/
theorem DataChunk.row_pair {c : DataChunk} {picks : SpanPairs} {row : SpanPair}
    (hspans : c.dimSpans = picks ++ [row]) {t : Transfer}
    (ht : t ∈ c.transfers) :
    ∃ q ∈ row.pairs, (t.live = true → 0 ≤ q.1) ∧ t.row = q.2 := by
  rw [DataChunk.transfers, hspans] at ht
  obtain ⟨t', q, rfl, -, hq⟩ := mem_transfers_concat.mp ht
  refine ⟨q, hq, fun hlive => ?_, Transfer.row_concat _ _⟩
  exact of_decide_eq_true (List.all_eq_true.mp hlive q (by simp))

/-- Unless they are split, the rows of a plain result are anchored
exactly when the first of them exists, or nothing is moved at all. -/
theorem rowsAnchored_iff (hpart : p.Partitions sel rs opt)
    (hplain : rs.IsPlain) (hopt : opt.maxSplits ≤ 1) :
    p.RowsAnchored ↔ 0 ≤ (rowIds sel rs).headD 0
      ∨ ∀ t ∈ plan sel rs, t.live = false := by
  obtain ⟨parts, ⟨span, parts', cuts, harr, hsub, -, hsplit, hcut⟩, hchunks⟩ :=
    hpart.rowCuts hplain
  have hparts : parts' = parts := by
    rw [DataPartition.splitRows, if_neg (by omega)] at hsplit
    exact (List.singleton_inj.mp
      (List.append_cancel_left (Except.ok.inj hsplit)))
  subst hparts
  have hminMem : ∀ c ∈ p.dataChunks, ∀ picks row, c.dimSpans = picks ++ [row] →
      c.minMemIndex.getLastD 0 = minMem row := by
    intro c hc picks row hspans
    rw [(hpart.planned c hc).minMem_eq, hspans, List.map_append,
      List.map_singleton, List.getLastD_concat]
  constructor
  · intro hanch
    by_contra hno
    rw [not_or] at hno
    obtain ⟨hhead, hlive⟩ := hno
    obtain ⟨t, ht, htlive⟩ : ∃ t ∈ plan sel rs, t.live = true := by
      by_contra hnone
      refine hlive fun t ht => ?_
      by_contra hl
      exact hnone ⟨t, ht, by simpa using hl⟩
    obtain ⟨c, hc, htc⟩ := List.mem_flatMap.mp
      (hpart.transfers.mem_iff.mpr ht)
    obtain ⟨picks, row, hspans, hrow⟩ := hchunks c hc
    obtain ⟨q, hq, hqlive, -⟩ := DataChunk.row_pair hspans htc
    have hzero := hanch c hc ⟨t, htc, htlive⟩
    rw [hminMem c hc picks row hspans] at hzero
    have hmem : 0 ∈ row.mem := by
      rw [← hzero]
      exact (minMem_spec (List.ne_nil_of_mem (List.of_mem_zip hq).2)).1
    have hfirst := hcut.disk_mem harr hrow hmem
    have hheadD : (rowIds sel rs).headD 0 = (rowIds sel rs).getD 0 0 :=
      List.headD_eq_getD
    have hqnn := hqlive htlive
    rcases (hcut.run row hrow).sign with hall | hall
    · have := hall _ (List.of_mem_zip hq).1
      omega
    · have := hall _ hfirst
      omega
  · intro hcases c hc hx
    obtain ⟨t, ht, hlive⟩ := hx
    rcases hcases with hhead | hdead
    · obtain ⟨picks, row, hspans, hrow⟩ := hchunks c hc
      obtain ⟨q, hq, hqlive, -⟩ := DataChunk.row_pair hspans ht
      have hqpos := (hcut.pair harr hrow hq).1
      have hfirst : ((rowIds sel rs).headD 0, 0) ∈ span.pairs := by
        refine harr.perm.mem_iff.mpr (mem_indexed.mpr ⟨by omega, ?_⟩)
        cases rowIds sel rs <;> rfl
      have hin := makeSubSpans_entire harr.length_eq harr.sorted hsub row hrow
        ⟨q.1, (List.of_mem_zip hq).1, hqlive hlive⟩ _ hfirst hhead
      have hzero : 0 ∈ row.mem := (List.of_mem_zip hin).2
      have := (minMem_spec (List.ne_nil_of_mem hzero)).2 0 hzero
      rw [hminMem c hc picks row hspans]
      omega
    · rw [hdead t (hpart.mem_plan hc ht)] at hlive
      cases hlive

end Arcae
