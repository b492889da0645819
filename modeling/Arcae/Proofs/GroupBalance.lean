/-
The groups of `GroupChunks` have similar numbers of elements.

A read costs its slowest instance, so what the grouping is worth is the
largest group. The loop sees the chunks once and never looks back, and it
has two reasons to close a group (`Cuts.Shared` holds of it turn by
turn). Even so no group exceeds an even share of the elements by more
than one of its own chunks; and as every way to deal the chunks to as
many groups has a group with an even share and one with that chunk, none
does better than half of the largest group here, not even one that may
reorder the chunks within the groups it makes of them.

All of this is about the loop as a `std::size_t` computes it, while the
largest product of its targets fits.
-/
import Arcae.Proofs.Grouping
import Arcae.Lib.Shares

namespace Arcae

/-- The elements of the chunks of a group. -/
def groupElements (group : List DataChunk) : Nat :=
  (group.map DataChunk.nElements).sum

-- =================================================================== turns

/-- Before turn `c` the loop has seen the elements of `c` chunks. -/
theorem groupStateAt_cumulative {chunks : List DataChunk}
    (nelements k n : Nat) {c : Nat} (hc : c ≤ chunks.length) :
    (groupStateAt (groupChunksStep nelements k n) chunks c).cumulativeElements
      = Cuts.seen (chunks.map DataChunk.nElements) c := by
  induction c with
  | zero => rfl
  | succ c ih =>
      have hlen : c < (chunks.map DataChunk.nElements).length := by
        rw [List.length_map]
        exact hc
      rw [groupStateAt_succ _ hc, groupChunksStep_cumulative,
        ih (Nat.le_of_succ_le hc), Cuts.seen_succ hlen, List.getElem_map]

/-- Every turn keeps the groups even. -/
theorem groupStateAt_shared (chunks : List DataChunk) (ngroups : Nat) {c : Nat}
    (hc : c ≤ chunks.length) :
    Cuts.Shared (chunks.map DataChunk.nElements)
      (max 1 (min ngroups chunks.length)) c
      (groupStateAt (groupChunksStep (groupElements chunks)
        (max 1 (min ngroups chunks.length)) chunks.length) chunks c).ends := by
  induction c with
  | zero => exact Cuts.Shared.start
  | succ c ih =>
      have hlen : c < (chunks.map DataChunk.nElements).length := by
        rw [List.length_map]
        exact hc
      have hbefore := @groupStateAt_before chunks ngroups _ _ _
        (groupChunksStep_ends (groupElements chunks) _ chunks.length) c
        (Nat.le_of_succ_le hc)
      have hturn := (ih (Nat.le_of_succ_le hc)).step hbefore
        (List.length_map _)
      -- full is what the loop asks, with what it has seen
      rw [groupStateAt_succ _ hc, groupChunksStep_ends,
        groupStateAt_cumulative _ _ _ (Nat.le_of_succ_le hc)]
      have hseen : Cuts.seen (chunks.map DataChunk.nElements) c
          + chunks[c].nElements
            = Cuts.seen (chunks.map DataChunk.nElements) (c + 1) := by
        rw [Cuts.seen_succ hlen, List.getElem_map]
      rw [hseen]
      exact hturn

-- ================================================================== groups

/-- The elements of the chunks from `a` to `b`. -/
theorem groupElements_segment (chunks : List DataChunk) {a b : Nat}
    (hab : a ≤ b) :
    Cuts.seen (chunks.map DataChunk.nElements) b
      = Cuts.seen (chunks.map DataChunk.nElements) a
        + groupElements (segment chunks a b) := by
  rw [Cuts.seen, Cuts.seen, ← List.map_take, ← List.map_take,
    ← take_append_segment chunks hab, List.map_append, List.sum_append]
  rfl

/-- Every group is even, chunk by chunk. -/
theorem group_even {chunks : List DataChunk} (hne : chunks ≠ [])
    (ngroups : Nat) {group : List DataChunk}
    (hgroup : group ∈ chunkGroups chunks (groupChunks chunks ngroups)) :
    ∃ chunk ∈ group, groupElements group
      ≤ groupElements chunks / max 1 (min ngroups chunks.length)
        + chunk.nElements := by
  have hpos : 0 < chunks.length := List.length_pos_of_ne_nil hne
  have hbefore := @groupStateAt_before chunks ngroups _ _ _
    (groupChunksStep_ends (groupElements chunks) _ chunks.length)
    chunks.length (Nat.le_refl _)
  have hshared := groupStateAt_shared chunks ngroups (Nat.le_refl _)
  obtain ⟨g, hg, rfl⟩ := List.mem_map.mp hgroup
  have hends : groupChunks chunks ngroups
      = (groupStateAt (groupChunksStep (groupElements chunks)
          (max 1 (min ngroups chunks.length)) chunks.length) chunks
            chunks.length).ends ++ [chunks.length] := by
    rw [groupStateAt, List.take_length]
    rfl
  rw [hends] at hg
  have hlt := lt_of_mem_zip_tail (hbefore.starts_asc hpos) hg
  have hle : g.2 ≤ chunks.length := by
    rcases List.mem_append.mp (List.of_mem_zip hg).2 with he | he
    · exact Nat.le_of_lt (hbefore.passed _ he).2
    · rw [List.mem_singleton.mp he]
  obtain ⟨i, hi, hfirst, hlast, hsum⟩ :=
    hshared.even hbefore (List.length_map _) hg hlt hle
  rw [groupElements_segment chunks (Nat.le_of_lt hlt)] at hsum
  have hchunk : i < chunks.length := Nat.lt_of_lt_of_le hlast hle
  refine ⟨chunks[i], ?_, ?_⟩
  · refine List.mem_iff_getElem?.mpr ⟨i - g.1, ?_⟩
    rw [List.getElem?_take_of_lt (by omega), List.getElem?_drop,
      Nat.add_sub_cancel' hfirst, List.getElem?_eq_getElem hchunk]
  · rw [List.getElem_map] at hsum
    show groupElements (segment chunks g.1 g.2)
      ≤ groupElements chunks / max 1 (min ngroups chunks.length)
        + chunks[i].nElements
    have hall : (chunks.map DataChunk.nElements).sum = groupElements chunks :=
      rfl
    rw [hall] at hsum
    omega

-- ============================================================= the grouping

/-- While the products of its targets fit in a `std::size_t`, `GroupChunks`
leaves no group that exceeds an even share of the elements by more than
one of its own chunks, and no way to deal the chunks to as many groups,
or fewer, keeps all of them below half of any group here. -/
theorem groups_balanced {chunks : List DataChunk} (hne : chunks ≠ [])
    {ngroups : Nat}
    (hfits : groupElements chunks * max 1 (min ngroups chunks.length) < 2 ^ 64)
    {group : List DataChunk}
    (hgroup : group ∈ chunkGroups chunks (groupChunksWord chunks ngroups)) :
    (∃ chunk ∈ group, groupElements group
        ≤ groupElements chunks / max 1 (min ngroups chunks.length)
          + chunk.nElements)
      ∧ ∀ split : List (List DataChunk), split.flatten.Perm chunks →
          split.length ≤ max 1 (min ngroups chunks.length) →
          ∃ other ∈ split, groupElements group ≤ 2 * groupElements other := by
  rw [groupChunksWord_eq hfits] at hgroup
  obtain ⟨chunk, hchunk, hle⟩ := group_even hne ngroups hgroup
  refine ⟨⟨chunk, hchunk, hle⟩, fun split hsplit hfew => ?_⟩
  have hmem : chunk ∈ chunks := by
    rw [← groupChunks_flatten chunks ngroups]
    exact List.mem_flatten_of_mem hgroup hchunk
  -- the parts of the other way, as the elements of their chunks
  set parts := split.map fun part => part.map DataChunk.nElements with hparts
  have hflat : parts.flatten = split.flatten.map DataChunk.nElements :=
    List.map_flatten.symm
  have hsum : parts.flatten.sum = groupElements chunks := by
    rw [hflat]
    exact (hsplit.map _).sum_eq
  have hitem : chunk.nElements ∈ parts.flatten := by
    rw [hflat]
    exact List.mem_map_of_mem (hsplit.mem_iff.mpr hmem)
  have hcount : parts.length ≤ max 1 (min ngroups chunks.length) := by
    rw [hparts, List.length_map]
    exact hfew
  rw [← hsum] at hle
  obtain ⟨part, hpart, htwice⟩ := Cuts.exists_half hcount hitem hle
  obtain ⟨other, hother, rfl⟩ := List.mem_map.mp hpart
  exact ⟨other, hother, htwice⟩

/-- A chunk of `n` consecutive elements. -/
def runChunk (n : Nat) : DataChunk :=
  ⟨[⟨List.range n, List.range n⟩], [0], 0, [1], [1], true⟩

theorem groups_balanced_sample :
    (∃ chunk ∈ [runChunk 3, runChunk 5],
        groupElements [runChunk 3, runChunk 5] ≤ 10 / 2 + chunk.nElements)
      ∧ ∀ split : List (List DataChunk),
          split.flatten.Perm [runChunk 3, runChunk 5, runChunk 1, runChunk 1] →
          split.length ≤ 2 → ∃ other ∈ split,
            groupElements [runChunk 3, runChunk 5] ≤ 2 * groupElements other :=
  @groups_balanced [runChunk 3, runChunk 5, runChunk 1, runChunk 1] (by decide)
    2 (by decide) [runChunk 3, runChunk 5] (by decide)

end Arcae
