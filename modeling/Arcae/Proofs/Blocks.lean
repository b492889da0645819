/-
A block: some dimensions cut into runs, and all picks of one run each.

`CartesianProduct` picks one sub-span per dimension in every way. The
picks together transfer what the uncut spans transfer, each element once
(`CutDims.transfers_perm`); each pick is made of runs (`CutDims.pick`);
and a pick is marked contiguous only if it takes every secondary
dimension whole and in memory order, and consecutive rows of memory
(`CutDims.contiguous`).
-/
import Arcae.Proofs.Offsets

namespace Arcae

-- ================================================================= blocks

/-- Every dimension of a block cut into runs, the rows last. -/
structure CutDims (secondary : SpanPairs) (rows : SpanPair)
    (cuts : List SpanPairs) (rowCuts : SpanPairs) : Prop where
  secondary : List.Forall₂ (fun s spans => CutSpans s false spans) secondary cuts
  rows : CutSpans rows true rowCuts

/-- Cutting a span keeps its pairs, in order. -/
theorem CutSpans.pairs_eq {span : SpanPair} {e : Bool} {spans : SpanPairs}
    (h : CutSpans span e spans) : (spans.map SpanPair.pairs).flatten = span.pairs := by
  have key : ∀ spans : SpanPairs, (∀ s ∈ spans, s.disk.length = s.mem.length) →
      (spans.map SpanPair.pairs).flatten
        = (spans.flatMap SpanPair.disk).zip (spans.flatMap SpanPair.mem) := by
    intro spans
    induction spans with
    | nil => intro _; rfl
    | cons s spans ih =>
        intro hlen
        rw [List.map_cons, List.flatten_cons, List.flatMap_cons,
          List.flatMap_cons, List.zip_append (hlen s List.mem_cons_self),
          ih fun s' hs' => hlen s' (List.mem_cons_of_mem _ hs')]
        rfl
  rw [key spans h.length_eq, h.disk_eq, h.mem_eq]
  rfl

/-- A cut into a single span is no cut. -/
theorem CutSpans.singleton {span s : SpanPair} {e : Bool}
    (h : CutSpans span e [s]) : s = span := by
  have hdisk := h.disk_eq
  have hmem := h.mem_eq
  rw [List.flatMap_singleton] at hdisk hmem
  obtain ⟨disk, mem⟩ := s
  obtain ⟨disk', mem'⟩ := span
  simp only at hdisk hmem
  rw [hdisk, hmem]

namespace CutDims

variable {secondary : SpanPairs} {rows : SpanPair} {cuts : List SpanPairs}
  {rowCuts : SpanPairs}

/-- The picks transfer what the uncut spans do. -/
theorem transfers_perm (h : CutDims secondary rows cuts rowCuts) :
    ((Sections.product (cuts ++ [rowCuts])).flatMap SpanPairs.transfers).Perm
      (SpanPairs.transfers (secondary ++ [rows])) := by
  have hflat : ((cuts ++ [rowCuts]).map fun spans =>
        spans.map SpanPair.pairs).map List.flatten
      = (secondary ++ [rows]).map SpanPair.pairs := by
    rw [List.map_map, List.map_append, List.map_append, List.map_singleton,
      List.map_singleton]
    congr 1
    · have hsec := h.secondary
      clear h
      induction hsec with
      | nil => rfl
      | cons hs _ ih => rw [List.map_cons, List.map_cons, ih, ← hs.pairs_eq]; rfl
    · rw [← h.rows.pairs_eq]
      rfl
  have hperm := Sections.product_flatMap_sections
    ((cuts ++ [rowCuts]).map fun spans => spans.map SpanPair.pairs)
  rw [hflat, Sections.product_map, List.flatMap_map] at hperm
  exact hperm

/-- A pick takes one of the sub-spans of each dimension. -/
theorem pick (h : CutDims secondary rows cuts rowCuts) {spans : SpanPairs}
    (hs : spans ∈ Sections.product (cuts ++ [rowCuts])) :
    ∃ picks row, spans = picks ++ [row] ∧ row ∈ rowCuts
      ∧ List.Forall₂ (fun s p => ∃ parts, CutSpans s false parts ∧ p ∈ parts)
          secondary picks := by
  rw [Sections.product_append_singleton, List.mem_flatMap] at hs
  obtain ⟨picks, hpicks, hs⟩ := hs
  obtain ⟨row, hrow, rfl⟩ := List.mem_map.mp hs
  refine ⟨picks, row, rfl, hrow, ?_⟩
  have hmem := Sections.mem_product.mp hpicks
  have hcut := h.secondary
  clear h hpicks hs
  induction hcut generalizing picks with
  | nil =>
      cases hmem
      exact .nil
  | cons hcut _ ih =>
      cases hmem with
      | cons hp hmem => exact .cons ⟨_, hcut, hp⟩ (ih _ hmem)

/-- Each sub-span of the rows is in a pick. -/
theorem exists_pick (h : CutDims secondary rows cuts rowCuts) {row : SpanPair}
    (hrow : row ∈ rowCuts) :
    ∃ picks, picks ++ [row] ∈ Sections.product (cuts ++ [rowCuts]) := by
  have hcuts : ∃ picks : SpanPairs, List.Forall₂ (· ∈ ·) picks cuts := by
    have hsec := h.secondary
    clear h
    induction hsec with
    | nil => exact ⟨[], .nil⟩
    | cons hs _ ih =>
        obtain ⟨s, hs⟩ := List.exists_mem_of_ne_nil _ hs.ne_nil
        obtain ⟨picks, hpicks⟩ := ih
        exact ⟨s :: picks, .cons hs hpicks⟩
  obtain ⟨picks, hpicks⟩ := hcuts
  exact ⟨picks, Sections.mem_product.mpr
    (List.rel_append hpicks (.cons hrow .nil))⟩

/-- There is a pick. -/
theorem product_ne_nil (h : CutDims secondary rows cuts rowCuts) :
    Sections.product (cuts ++ [rowCuts]) ≠ [] := by
  obtain ⟨row, hrow⟩ := List.exists_mem_of_ne_nil _ h.rows.ne_nil
  obtain ⟨picks, hpicks⟩ := h.exists_pick hrow
  exact List.ne_nil_of_mem hpicks

/-- Contiguous secondary dimensions were not cut at all. -/
theorem whole (h : CutDims secondary rows cuts rowCuts)
    (hc : secondaryDimensionsContiguous (cuts ++ [rowCuts]) = true) :
    cuts = secondary.map (fun s => [s])
      ∧ ∀ s ∈ secondary, s.mem = List.range s.mem.length := by
  unfold secondaryDimensionsContiguous at hc
  rw [List.dropLast_concat, List.all_eq_true] at hc
  have hsec := h.secondary
  clear h
  induction hsec with
  | nil => exact ⟨rfl, by simp⟩
  | @cons s spans secondary cuts hcut _ ih =>
      obtain ⟨hcuts, hall⟩ := ih fun dim hdim => hc dim (List.mem_cons_of_mem _ hdim)
      have hdim := hc spans List.mem_cons_self
      match spans, hcut, hdim with
      | [p], hcut, hdim =>
          cases hcut.singleton
          refine ⟨by rw [hcuts]; rfl, List.forall_mem_cons.mpr ⟨?_, hall⟩⟩
          exact beq_iff_eq.mp hdim
      | [], _, hdim => cases hdim
      | _ :: _ :: _, _, hdim => cases hdim

/-- The picks with their marks: if the secondary dimensions are
contiguous, one pick for each row span; otherwise none is marked. -/
theorem zip_eq (h : CutDims secondary rows cuts rowCuts) :
    (cartesianProduct (cuts ++ [rowCuts])).1
        = Sections.product (cuts ++ [rowCuts])
      ∧ (cartesianProduct (cuts ++ [rowCuts])).1.length
        = (cartesianProduct (cuts ++ [rowCuts])).2.length
      ∧ ∀ x ∈ (cartesianProduct (cuts ++ [rowCuts])).1.zip
          (cartesianProduct (cuts ++ [rowCuts])).2, x.2 = true →
        ∃ row, x.1 = secondary ++ [row] ∧ isMemoryContiguous row = true
          ∧ ∀ s ∈ secondary, s.mem = List.range s.mem.length := by
  unfold cartesianProduct
  by_cases hc : secondaryDimensionsContiguous (cuts ++ [rowCuts]) = true
  · obtain ⟨hcuts, hall⟩ := h.whole hc
    have hstride : (cuts.map List.length).prod = 1 := by
      rw [hcuts, List.map_map]
      refine List.prod_eq_one fun n hn => ?_
      obtain ⟨s, -, rfl⟩ := List.mem_map.mp hn
      rfl
    have hproduct : Sections.product (cuts ++ [rowCuts])
        = rowCuts.map fun row => secondary ++ [row] := by
      rw [Sections.product_append_singleton, hcuts,
        Sections.product_singletons, List.flatMap_singleton]
    have hmarks : rowCuts.flatMap (fun row =>
        List.replicate 1 (isMemoryContiguous row))
        = rowCuts.map isMemoryContiguous := by
      simp [List.replicate, List.map_eq_flatMap]
    simp only [hc, if_true, List.dropLast_concat, List.getLastD_concat,
      hstride, hmarks]
    refine ⟨trivial, by rw [hproduct]; simp, ?_⟩
    rw [hproduct, List.zip_map']
    intro x hx hmark
    obtain ⟨row, -, rfl⟩ := List.mem_map.mp hx
    exact ⟨row, rfl, hmark, hall⟩
  · simp only [hc, Bool.false_eq_true, if_false]
    refine ⟨trivial, by rw [Sections.product_length]; simp, ?_⟩
    intro x hx hmark
    have := List.eq_of_mem_replicate (List.of_mem_zip hx).2
    rw [this] at hmark
    cases hmark

end CutDims

end Arcae
