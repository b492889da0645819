/-
Spreading a read over instances does not change what it reads.

`GroupChunks` cuts the chunks into consecutive groups, each read by one
task (`groupChunks_flatten`). Whatever the split, the grouping and the
order in which the tasks' chunks are read, the moves carried are the
plan's, and no two of them are to the same offset; so the buffer is the
one the unsplit partition leaves, chunk by chunk in one task. The same
holds one element at a time: reading a group stores the values of its
moves, and any interleaving of these stores leaves that buffer too.
-/
import Arcae.Proofs.Moves
import Arcae.Proofs.Grouping

namespace Arcae

open FOrder Scatter Loops

variable {α : Type} {sel : Selection} {rs : ResultShapeData}

-- ================================================== any order of the reads

/-- Chunks whose moves are the plan's, in whatever order they are read:
the read gets through if the column holds what the plan moves, and
leaves what the plan leaves. -/
theorem readChunks_planned (hrs : rs.Consistent) (hm : sel.Matches rs)
    {chunks : List DataChunk} (h : ∀ c ∈ chunks, c.Planned sel rs)
    (hperm : (movesOf chunks).Perm (planMoves sel rs)) (col : TableColumn α)
    (dtype : DataType) (buffer b : Memory α) :
    readChunks col dtype chunks buffer = .ok b
      ↔ (dtype.supported = true ∧ ∀ m ∈ planMoves sel rs, col.Has m.2)
        ∧ b = Moves.read col (planMoves sel rs) buffer := by
  have houtcome := readChunks_outcome hrs hm h col dtype buffer
  have hgood : (∀ m ∈ movesOf chunks, col.Has m.2)
      ↔ ∀ m ∈ planMoves sel rs, col.Has m.2 :=
    ⟨fun hall m hmem => hall m (hperm.mem_iff.mpr hmem),
      fun hall m hmem => hall m (hperm.mem_iff.mp hmem)⟩
  rw [← read_eq_plan hrs hm hperm col buffer, ← hgood]
  constructor
  · exact fun hread => houtcome.of_ok hread
  · intro hx
    obtain ⟨hok, rfl⟩ := hx
    obtain ⟨b, hb, rfl⟩ := houtcome.of_good hok
    exact hb

/-- Spreading a read over instances changes nothing: however the rows
are split, the chunks grouped and the groups' chunks or single elements
interleaved, the buffer is the one that reading the unsplit partition
leaves. -/
theorem read_independent_of_instances (srt srt' : StdSort)
    (h : rs.Consistent) (hm : sel.Matches rs) (hsmall : rs.SmallRows)
    (col : TableColumn α) (buffer : Memory α) {unsplit : DataPartition}
    (hunsplit : DataPartition.make srt sel rs .default = .ok unsplit)
    (opt : RowSplitOptions) (nInstances : Nat) :
    (∀ b, readChunks col unsplit.casaDtype unsplit.dataChunks buffer = .ok b →
        ∃ p, DataPartition.make srt' sel rs opt = .ok p)
      ∧ ∀ p, DataPartition.make srt' sel rs opt = .ok p →
        ∀ groups, groups = chunkGroups p.dataChunks
            (groupChunks p.dataChunks nInstances) →
        groups.flatten = p.dataChunks
        ∧ (∀ out, Interleaving groups out → ∀ b,
            readChunks col p.casaDtype out buffer = .ok b
              ↔ readChunks col unsplit.casaDtype unsplit.dataChunks buffer
                = .ok b)
        ∧ ∀ b, readChunks col unsplit.casaDtype unsplit.dataChunks buffer
              = .ok b →
            (∀ g ∈ groups, ∀ b', readChunks col p.casaDtype g b'
              = .ok (scatter b' (Moves.values col (movesOf g))))
            ∧ ∀ out, Interleaving
                (groups.map fun g => Moves.values col (movesOf g)) out →
                scatter buffer out = b := by
  obtain ⟨hsel, hpart⟩ := partitions_of_make h hm hunsplit
  have hread := readChunks_planned h hm hpart.planned
    (hpart.movesOf_perm_of_small h hm hsmall) col unsplit.casaDtype buffer
  constructor
  · intro b hb
    obtain ⟨⟨hsup, -⟩, -⟩ := (hread b).mp hb
    rw [hpart.dtype] at hsup
    obtain ⟨-, hpos⟩ := make_ok_conditions h hunsplit
    obtain ⟨p, hp, -⟩ := (@make_outcome _ _ srt' opt h hm
      (fun _ => .inr hsup) hpos).of_good hsel
    exact ⟨p, hp⟩
  · intro p hp groups heq
    subst heq
    obtain ⟨-, hpart'⟩ := partitions_of_make h hm hp
    have hmoves := hpart'.movesOf_perm_of_small h hm hsmall
    have hflat := groupChunks_flatten p.dataChunks nInstances
    have hdtype : p.casaDtype = unsplit.casaDtype := by
      rw [hpart'.dtype, hpart.dtype]
    refine ⟨hflat, fun out hout b => ?_, fun b hb => ⟨fun g hg b' => ?_,
      fun out hout => ?_⟩⟩
    · have hperm : out.Perm p.dataChunks := hflat ▸ hout.perm
      rw [hread b, hdtype]
      exact readChunks_planned h hm
        (fun c hc => hpart'.planned c (hperm.mem_iff.mp hc))
        ((hperm.flatMap_right _).trans hmoves) col _ buffer b
    · obtain ⟨⟨hsup, hhas⟩, -⟩ := (hread b).mp hb
      have hsub : ∀ c ∈ g, c ∈ p.dataChunks := by
        intro c hc
        rw [← hflat]
        exact List.mem_flatten.mpr ⟨g, hg, hc⟩
      have hgood : ∀ m ∈ movesOf g, col.Has m.2 := by
        intro m hmem
        obtain ⟨c, hc, hmc⟩ := List.mem_flatMap.mp hmem
        exact hhas m (hmoves.mem_iff.mp
          (List.mem_flatMap.mpr ⟨c, hsub c hc, hmc⟩))
      obtain ⟨b'', hb'', rfl⟩ := (readChunks_outcome h hm
        (fun c hc => hpart'.planned c (hsub c hc)) col p.casaDtype b').of_good
        ⟨by rw [hdtype]; exact hsup, hgood⟩
      exact hb''
    · obtain ⟨-, rfl⟩ := (hread b).mp hb
      have hvalues : (((chunkGroups p.dataChunks
            (groupChunks p.dataChunks nInstances)).map fun g =>
              Moves.values col (movesOf g)).flatten).Perm
          (Moves.values col (planMoves sel rs)) := by
        have hjoin : ((chunkGroups p.dataChunks
            (groupChunks p.dataChunks nInstances)).map fun g =>
              Moves.values col (movesOf g)).flatten
            = Moves.values col (movesOf p.dataChunks) := by
          conv_rhs => rw [← hflat]
          simp only [Moves.values, movesOf, List.flatMap_def, List.map_flatten,
            List.flatten_flatten, List.map_map, Function.comp_def]
        rw [hjoin]
        exact hmoves.map _
      refine scatter_interleaving hout hvalues ?_
      rw [Moves.values, List.map_map]
      exact planMoves_offsets_nodup h hm

/-- Two rows of five elements. -/
def sampleColumn : TableColumn Nat where
  columnDesc := .ofShape "DATA" .tpInt [5]
  nrow := 2
  cellShape row := if row < 2 then some [5] else none
  value a := 10 * a.1 + a.2.headD 0
  cell_nrow := by
    intro r s h
    split at h
    · assumption
    · cases h
  cell_fixed := by
    intro s r hof h
    cases hof
    exact if_pos h
  cell_rank := by rintro r s ⟨⟩
  cell_ndim := by
    intro r s _ h
    split at h
    · cases h
      rfl
    · cases h

theorem sampleShape_small : sampleShape.SmallRows := by
  intro row _
  show ([2] : List Nat).prod < 2 ^ 31
  decide

/-- A buffer of zeros. -/
def blankBuffer : Memory Nat := fun _ => 0

/-- The sample request, its rows split in two: four chunks in two
groups, in any order. -/
theorem read_independent_of_instances_sample :
    ∃ unsplit p b,
      DataPartition.make .insertion sampleSelection sampleShape .default
        = .ok unsplit
      ∧ DataPartition.make .insertion sampleSelection sampleShape
          ⟨2, 0, none⟩ = .ok p
      ∧ (groupChunks p.dataChunks 2) = [2, 4]
      ∧ readChunks sampleColumn unsplit.casaDtype unsplit.dataChunks blankBuffer
        = .ok b
      ∧ ∀ out, Interleaving
          (chunkGroups p.dataChunks (groupChunks p.dataChunks 2)) out →
          readChunks sampleColumn p.casaDtype out blankBuffer = .ok b := by
  obtain ⟨unsplit, hunsplit, b, hb⟩ : ∃ unsplit,
      DataPartition.make .insertion sampleSelection sampleShape .default
        = .ok unsplit
      ∧ ∃ b, readChunks sampleColumn unsplit.casaDtype unsplit.dataChunks blankBuffer
        = .ok b := ⟨_, rfl, _, rfl⟩
  obtain ⟨p, hp, hends⟩ : ∃ p,
      DataPartition.make .insertion sampleSelection sampleShape ⟨2, 0, none⟩
        = .ok p
      ∧ groupChunks p.dataChunks 2 = [2, 4] := ⟨_, rfl, rfl⟩
  have hall := (read_independent_of_instances .insertion .insertion
    sampleShape_consistent sampleSelection_matches sampleShape_small
    sampleColumn blankBuffer hunsplit ⟨2, 0, none⟩ 2).2 p hp _ rfl
  exact ⟨unsplit, p, b, hunsplit, hp, hends, hb,
    fun out hout => (hall.2.1 out hout b).mpr hb⟩

end Arcae
