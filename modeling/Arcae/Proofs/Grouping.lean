/-
`GroupChunks` covers every chunk with as many groups as intended.

The loop is one pass of cuts (`Cuts.step`): what it asks of the elements
is only when a group is full, and the groups come out whole whatever the
answer. So nothing here depends on the element counts, on chunks without
elements, or on the products of the target wrapping in a `std::size_t`;
the same lemma serves the loop over unbounded counts and the loop over
words.

In every turn the groups closed so far leave room for the last one
(`Cuts.Before.room`), which is all that the subtractions of the loop
need.
-/
import Arcae.Proofs.Spans
import Arcae.Model.ChunkIo
import Arcae.Lib.Cuts

namespace Arcae

-- =================================================== statement vocabulary

/-- The state before turn `c` of a grouping loop. -/
def groupStateAt (step : GroupState → DataChunk × Nat → GroupState)
    (chunks : List DataChunk) (c : Nat) : GroupState :=
  (chunks.take c).zipIdx.foldl step ⟨[], 0⟩

/-- No unsigned subtraction of a grouping loop wraps: in no turn does it
take more groups from the groups, or more chunks from the chunks, than
there are. -/
def NoSubtractionWraps (step : GroupState → DataChunk × Nat → GroupState)
    (chunks : List DataChunk) (ngroups : Nat) : Prop :=
  ∀ c < chunks.length,
    (groupStateAt step chunks c).ends.length ≤ ngroups
      ∧ 1 ≤ ngroups - (groupStateAt step chunks c).ends.length
      ∧ c ≤ chunks.length ∧ 1 ≤ chunks.length - c

/-- The ends of `ngroups` consecutive groups that cover the chunks. -/
structure GroupsExactly (chunks : List DataChunk) (ngroups : Nat)
    (ends : List Nat) : Prop where
  asc : ends.Pairwise (· < ·)
  last : ends.getLast? = some chunks.length
  count : ends.length = ngroups
  groups : (chunkGroups chunks ends).length = ngroups
  whole : (chunkGroups chunks ends).flatten = chunks
  nonempty : chunks ≠ [] → ∀ g ∈ chunkGroups chunks ends, g ≠ []
  once : ∀ c < chunks.length, ∃! g, g < ends.length
    ∧ (0 :: ends).getD g 0 ≤ c ∧ c < ends.getD g 0

-- ================================================================ groups

/-- Groups between ascending ends, the last of which is the end, are the
chunks in order. -/
theorem chunkGroups_flatten {chunks : List DataChunk} {ends : List Nat}
    (hasc : ends.Pairwise (· ≤ ·)) (hlast : ends.getLast? = some chunks.length) :
    (chunkGroups chunks ends).flatten = chunks := by
  have key : ∀ (ends : List Nat) (start : Nat), (start :: ends).Pairwise (· ≤ ·) →
      chunks.take start ++ ((((start :: ends).zip ends).map fun g =>
          segment chunks g.1 g.2).flatten)
        = chunks.take (ends.getLastD start) := by
    intro ends
    induction ends with
    | nil => intro start _; simp
    | cons e ends ih =>
        intro start h
        obtain ⟨hle, hrest⟩ := List.pairwise_cons.mp h
        rw [List.zip_cons_cons, List.map_cons, List.flatten_cons,
          ← List.append_assoc,
          take_append_segment chunks (hle e List.mem_cons_self), ih e hrest,
          List.getLastD_cons]
  have hall := key ends 0 (List.pairwise_cons.mpr ⟨fun _ _ => Nat.zero_le _, hasc⟩)
  rw [List.getLastD_eq_getLast?, hlast, Option.getD_some, List.take_length,
    List.take_zero, List.nil_append] at hall
  exact hall

/-- Neighbours in an ascending list are in order. -/
theorem lt_of_mem_zip_tail {start : Nat} {ends : List Nat}
    (hasc : (start :: ends).Pairwise (· < ·)) {g : Nat × Nat}
    (hg : g ∈ (start :: ends).zip ends) : g.1 < g.2 := by
  induction ends generalizing start with
  | nil => simp at hg
  | cons e ends ih =>
      obtain ⟨hlt, hrest⟩ := List.pairwise_cons.mp hasc
      rw [List.zip_cons_cons] at hg
      rcases List.mem_cons.mp hg with rfl | hg
      · exact hlt e List.mem_cons_self
      · exact ih hrest hg

/-- A group between two ends in order, within the chunks, has a chunk. -/
theorem chunkGroups_ne_nil {chunks : List DataChunk} {ends : List Nat}
    (hasc : (0 :: ends).Pairwise (· < ·))
    (hle : ∀ e ∈ ends, e ≤ chunks.length) :
    ∀ g ∈ chunkGroups chunks ends, g ≠ [] := by
  intro group hgroup
  obtain ⟨g, hg, rfl⟩ := List.mem_map.mp hgroup
  have hlt := lt_of_mem_zip_tail hasc hg
  have hend := hle g.2 (List.of_mem_zip hg).2
  apply List.ne_nil_of_length_pos
  rw [List.length_take, List.length_drop]
  omega

-- ================================================================== turns

section Turns

variable {chunks : List DataChunk} {ngroups : Nat}
  {step : GroupState → DataChunk × Nat → GroupState}
  {full : GroupState → DataChunk × Nat → Prop}
  [∀ st x, Decidable (full st x)]

/-- Before each turn of a loop that cuts, the groups closed so far leave
room for the others. -/
theorem groupStateAt_before
    (hstep : ∀ st x, (step st x).ends
      = Cuts.step chunks.length (max 1 (min ngroups chunks.length)) (full st x)
          st.ends x.2) {c : Nat} (hc : c ≤ chunks.length) :
    Cuts.Before chunks.length (max 1 (min ngroups chunks.length)) c
      (groupStateAt step chunks c).ends := by
  have hstart : Cuts.Before chunks.length (max 1 (min ngroups chunks.length)) 0
      (⟨[], 0⟩ : GroupState).ends := by
    refine Cuts.Before.start (by omega) ?_
    rcases Nat.eq_zero_or_pos (min ngroups chunks.length) with h | h
    · exact .inl (by omega)
    · exact .inr (by omega)
  have hlen : (chunks.take c).length = c := by
    rw [List.length_take]
    omega
  have hrun := @Cuts.Before.foldl _ _ _ _ step GroupState.ends full _ hstep
    (chunks.take c) 0 ⟨[], 0⟩ (by omega) hstart
  rw [hlen, Nat.zero_add] at hrun
  exact hrun

/-- No subtraction of such a loop wraps. -/
theorem noSubtractionWraps_of_step
    (hstep : ∀ st x, (step st x).ends
      = Cuts.step chunks.length (max 1 (min ngroups chunks.length)) (full st x)
          st.ends x.2) :
    NoSubtractionWraps step chunks (max 1 (min ngroups chunks.length)) := by
  intro c hc
  have hroom := (groupStateAt_before hstep (Nat.le_of_lt hc)).room
  omega

/-- The ends such a loop leaves, and the last one, cover the chunks. -/
theorem groupsExactly_of_step
    (hstep : ∀ st x, (step st x).ends
      = Cuts.step chunks.length (max 1 (min ngroups chunks.length)) (full st x)
          st.ends x.2) :
    GroupsExactly chunks (max 1 (min ngroups chunks.length))
      ((chunks.zipIdx.foldl step ⟨[], 0⟩).ends ++ [chunks.length]) := by
  have hall := groupStateAt_before hstep (Nat.le_refl chunks.length)
  have hloop : groupStateAt step chunks chunks.length
      = chunks.zipIdx.foldl step ⟨[], 0⟩ := by
    rw [groupStateAt, List.take_length]
  rw [hloop] at hall
  generalize (chunks.zipIdx.foldl step ⟨[], 0⟩).ends = ends at hall ⊢
  have hlast : (ends ++ [chunks.length]).getLast? = some chunks.length :=
    List.getLast?_concat
  have hcount : (ends ++ [chunks.length]).length
      = max 1 (min ngroups chunks.length) := by
    rw [List.length_append, List.length_singleton, hall.closed]
  have hweak : (ends ++ [chunks.length]).Pairwise (· ≤ ·) :=
    hall.ends_asc.imp Nat.le_of_lt
  refine ⟨hall.ends_asc, hlast, hcount, ?_, chunkGroups_flatten hweak hlast,
    fun hne => ?_, fun c hc => ?_⟩
  · rw [chunkGroups, List.length_map, List.length_zip, List.length_cons, hcount]
    omega
  · refine chunkGroups_ne_nil
      (hall.starts_asc (List.length_pos_of_ne_nil hne)) fun e he => ?_
    rcases List.mem_append.mp he with he | he
    · exact Nat.le_of_lt (hall.passed e he).2
    · rw [List.mem_singleton.mp he]
  · refine Cuts.existsUnique_group
      (List.pairwise_cons.mpr ⟨fun _ _ => Nat.zero_le _, hweak⟩) ?_
      (Nat.zero_le c) hc
    rw [List.getLast?_cons, hlast]
    rfl

end Turns

-- ============================================================ GroupChunks

/-- A turn of `GroupChunks` is a cut; a group is full once the elements
seen reach the share of the groups closed with it. -/
theorem groupChunksStep_ends (nelements k n : Nat) (st : GroupState)
    (chunk : DataChunk × Nat) :
    (groupChunksStep nelements k n st chunk).ends
      = Cuts.step n k (nelements * (st.ends.length + 1) / k
          ≤ st.cumulativeElements + chunk.1.nElements) st.ends chunk.2 := by
  unfold groupChunksStep Cuts.step
  dsimp only
  split <;> rfl

/-- So is a turn over words. -/
theorem groupChunksWordStep_ends (nelements k n : Nat) (st : GroupState)
    (chunk : DataChunk × Nat) :
    (groupChunksWordStep nelements k n st chunk).ends
      = Cuts.step n k (nelements * (st.ends.length + 1) % 2 ^ 64 / k
          ≤ (st.cumulativeElements + chunk.1.nElements) % 2 ^ 64)
          st.ends chunk.2 := by
  unfold groupChunksWordStep Cuts.step
  dsimp only
  split <;> rfl

/-- The ends `GroupChunks` returns are those of the groups intended. -/
theorem groupChunks_groups (chunks : List DataChunk) (ngroups : Nat) :
    GroupsExactly chunks (max 1 (min ngroups chunks.length))
      (groupChunks chunks ngroups) :=
  groupsExactly_of_step (groupChunksStep_ends _ _ _)

/-- Turn `c` of a grouping loop. -/
theorem groupStateAt_succ (step : GroupState → DataChunk × Nat → GroupState)
    {chunks : List DataChunk} {c : Nat} (hc : c < chunks.length) :
    groupStateAt step chunks (c + 1)
      = step (groupStateAt step chunks c) (chunks[c], c) := by
  have hlen : (chunks.take c).length = c := by
    rw [List.length_take]
    omega
  have htake : chunks.take (c + 1) = chunks.take c ++ [chunks[c]] := by
    rw [List.take_add_one, List.getElem?_eq_getElem hc]
    rfl
  rw [groupStateAt, htake, List.zipIdx_append, List.foldl_append, hlen,
    Nat.zero_add]
  rfl

/-- A turn adds the elements of its chunk to those seen. -/
theorem groupChunksStep_cumulative (nelements k n : Nat) (st : GroupState)
    (chunk : DataChunk × Nat) :
    (groupChunksStep nelements k n st chunk).cumulativeElements
      = st.cumulativeElements + chunk.1.nElements := by
  unfold groupChunksStep
  dsimp only
  split <;> rfl

/-- A turn over words is the same turn if neither its sum nor its product
wraps. -/
theorem groupChunksWordStep_eq {nelements k n : Nat} {st : GroupState}
    {chunk : DataChunk × Nat}
    (htarget : nelements * (st.ends.length + 1) < 2 ^ 64)
    (hcount : st.cumulativeElements + chunk.1.nElements < 2 ^ 64) :
    groupChunksWordStep nelements k n st chunk
      = groupChunksStep nelements k n st chunk := by
  unfold groupChunksWordStep groupChunksStep
  simp only [Nat.mod_eq_of_lt htarget, Nat.mod_eq_of_lt hcount]

/-- While the largest product of the target fits, nothing wraps, and both
loops are the same. -/
theorem groupChunksWord_eq {chunks : List DataChunk} {ngroups : Nat}
    (hfits : (chunks.map DataChunk.nElements).sum
      * max 1 (min ngroups chunks.length) < 2 ^ 64) :
    groupChunksWord chunks ngroups = groupChunks chunks ngroups := by
  set nelements := (chunks.map DataChunk.nElements).sum with hn
  set k := max 1 (min ngroups chunks.length) with hk
  have hsum : nelements < 2 ^ 64 :=
    Nat.lt_of_le_of_lt (Nat.le_mul_of_pos_right _ (by omega)) hfits
  have key : ∀ c ≤ chunks.length,
      groupStateAt (groupChunksWordStep nelements k chunks.length) chunks c
          = groupStateAt (groupChunksStep nelements k chunks.length) chunks c
        ∧ (groupStateAt (groupChunksStep nelements k chunks.length)
            chunks c).cumulativeElements
          = ((chunks.take c).map DataChunk.nElements).sum := by
    intro c
    induction c with
    | zero => intro _; exact ⟨rfl, rfl⟩
    | succ c ih =>
        intro hc
        obtain ⟨hsame, hcumulative⟩ := ih (by omega)
        have hroom := (groupStateAt_before
          (groupChunksStep_ends nelements k chunks.length)
          (Nat.le_of_succ_le hc)).room
        rw [groupStateAt_succ _ hc, groupStateAt_succ _ hc, hsame]
        -- what this turn has seen of the elements
        have hseen : ((chunks.take (c + 1)).map DataChunk.nElements).sum
            = ((chunks.take c).map DataChunk.nElements).sum
              + chunks[c].nElements := by
          rw [List.take_add_one, List.getElem?_eq_getElem hc, List.map_append,
            List.sum_append]
          rfl
        have hpart : ((chunks.take (c + 1)).map DataChunk.nElements).sum
            ≤ nelements := by
          rw [hn]
          conv_rhs => rw [← List.take_append_drop (c + 1) chunks,
            List.map_append, List.sum_append]
          exact Nat.le_add_right _ _
        have htarget : nelements
            * ((groupStateAt (groupChunksStep nelements k chunks.length) chunks
                c).ends.length + 1) < 2 ^ 64 :=
          Nat.lt_of_le_of_lt (Nat.mul_le_mul_left _ hroom) hfits
        have hcount : ((chunks.take c).map DataChunk.nElements).sum
            + chunks[c].nElements < 2 ^ 64 := by omega
        rw [← hcumulative] at hcount
        exact ⟨groupChunksWordStep_eq htarget hcount,
          by rw [groupChunksStep_cumulative, hcumulative, hseen]⟩
  have hloop : ∀ step, groupStateAt step chunks chunks.length
      = chunks.zipIdx.foldl step ⟨[], 0⟩ := by
    intro step
    rw [groupStateAt, List.take_length]
  rw [groupChunksWord, groupChunks, ← hn, Nat.mod_eq_of_lt hsum]
  rw [← hk, ← hloop, ← hloop, (key chunks.length (Nat.le_refl _)).1]

/-- The groups of `GroupChunks` are the chunks in order. -/
theorem groupChunks_flatten (chunks : List DataChunk) (ngroups : Nat) :
    (chunkGroups chunks (groupChunks chunks ngroups)).flatten = chunks :=
  (groupChunks_groups chunks ngroups).whole

/-- Whatever the numbers of elements, `GroupChunks` returns the ends of
as many groups as there are to be, at most one for each chunk and at
least one; they cover every chunk once, none is empty if there is a
chunk, and no subtraction wraps on the way. The same holds where the
products of its target wrap. -/
theorem groupChunks_exact (chunks : List DataChunk) (ngroups : Nat) :
    (GroupsExactly chunks (max 1 (min ngroups chunks.length))
        (groupChunks chunks ngroups)
      ∧ NoSubtractionWraps
          (groupChunksStep (chunks.map DataChunk.nElements).sum
            (max 1 (min ngroups chunks.length)) chunks.length)
          chunks (max 1 (min ngroups chunks.length)))
    ∧ GroupsExactly chunks (max 1 (min ngroups chunks.length))
        (groupChunksWord chunks ngroups)
      ∧ NoSubtractionWraps
          (groupChunksWordStep ((chunks.map DataChunk.nElements).sum % 2 ^ 64)
            (max 1 (min ngroups chunks.length)) chunks.length)
          chunks (max 1 (min ngroups chunks.length)) := by
  refine ⟨⟨groupChunks_groups chunks ngroups, ?_⟩, ?_, ?_⟩
  · exact noSubtractionWraps_of_step (groupChunksStep_ends _ _ _)
  · exact groupsExactly_of_step (groupChunksWordStep_ends _ _ _)
  · exact noSubtractionWraps_of_step (groupChunksWordStep_ends _ _ _)

end Arcae
