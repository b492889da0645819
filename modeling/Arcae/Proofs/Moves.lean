/-
A partition's moves are the plan's.

Where no chunk slips, the moves of a partition's chunks are those of the
plan, in another order (`movesOf_perm`). The plan moves to each offset
at most once (`planMoves_offsets_nodup`), so carrying a partition's
moves to a buffer fills it as the plan says, whatever the chunks and
their order (`read_eq_plan`).
-/
import Arcae.Proofs.ChunkIo

namespace Arcae

open FOrder Scatter Loops

variable {α : Type} {sel : Selection} {rs : ResultShapeData}
  {opt : RowSplitOptions} {p : DataPartition}

/-- The transfers of a partition are the plan's. -/
theorem DataPartition.Partitions.mem_plan (h : p.Partitions sel rs opt)
    {c : DataChunk} (hc : c ∈ p.dataChunks) {t : Transfer}
    (ht : t ∈ c.transfers) : t ∈ plan sel rs :=
  h.transfers.mem_iff.mp (List.mem_flatMap.mpr ⟨c, hc, ht⟩)

/-- Without slips, a partition moves what the plan does. -/
theorem DataPartition.Partitions.movesOf_perm (h : p.Partitions sel rs opt)
    (hslip : ∀ c ∈ p.dataChunks, ∀ t ∈ c.transfers, t.live = true →
      c.slip rs = 0) :
    (movesOf p.dataChunks).Perm (planMoves sel rs) := by
  have hchunk : ∀ c ∈ p.dataChunks, c.moves
      = Transfer.moves (fun t => (t.position rs : Int)) c.transfers := by
    intro c hc
    refine List.map_congr_left fun t ht => ?_
    obtain ⟨ht, hlive⟩ := List.mem_filter.mp ht
    dsimp only
    rw [(h.planned c hc).bufferIndex_eq t ht, hslip c hc t ht hlive,
      Int.sub_zero]
  rw [movesOf, List.flatMap_congr hchunk, planMoves]
  unfold Transfer.moves
  rw [← List.map_flatMap, ← List.filter_flatMap]
  exact (h.transfers.filter _).map _

/-- Where rows are small, a partition moves what the plan does. -/
theorem DataPartition.Partitions.movesOf_perm_of_small
    (h : p.Partitions sel rs opt) (hrs : rs.Consistent) (hm : sel.Matches rs)
    (hsmall : rs.SmallRows) :
    (movesOf p.dataChunks).Perm (planMoves sel rs) :=
  h.movesOf_perm fun c hc _ ht _ =>
    (h.planned c hc).slip_of_small hrs hm hsmall ht (h.mem_plan hc ht)

/-- The plan moves to each offset at most once. -/
theorem planMoves_offsets_nodup (hrs : rs.Consistent) (hm : sel.Matches rs) :
    ((planMoves sel rs).map Prod.fst).Nodup := by
  have hpositions : ((plan sel rs).map fun t => (t.position rs : Int)).Nodup := by
    have hrange := plan_positions hm hrs
    have hmap := congrArg (List.map Int.ofNat) hrange
    rw [List.map_map] at hmap
    rw [show (fun t => (t.position rs : Int)) = Int.ofNat ∘ Transfer.position rs
      from rfl, hmap]
    exact List.nodup_range.map fun a b hab => Int.ofNat.inj hab
  rw [planMoves, Transfer.moves, List.map_map]
  exact hpositions.sublist (List.filter_sublist.map _)

/-- Carrying the plan's moves, in any order, fills the buffer one
way. -/
theorem read_eq_plan (hrs : rs.Consistent) (hm : sel.Matches rs)
    {moves : List Move} (h : moves.Perm (planMoves sel rs))
    (col : TableColumn α) (buffer : Memory α) :
    Moves.read col moves buffer = Moves.read col (planMoves sel rs) buffer := by
  have hkeys : ((Moves.values col (planMoves sel rs)).map Prod.fst).Nodup := by
    rw [Moves.values, List.map_map]
    exact planMoves_offsets_nodup hrs hm
  have hvalues := h.map fun m => (m.1, col.value m.2)
  exact (scatter_perm hvalues.symm hkeys).symm

end Arcae
