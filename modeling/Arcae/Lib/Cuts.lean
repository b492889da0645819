/-
Cutting a row of `n` items into `k` consecutive groups in one pass.

A turn looks at one item and may close the open group behind it
(`step`). It closes the group when it is full, by whatever measure, and
also when the items left are just enough for the groups left; the last
group is never closed by a turn. Two tests compete here. The first may
fire at every item or at none, and the second is an equality, so that it
would be missed if it were passed over.

`Before` is why it is not: as long as a group is still to be closed, the
items left are at least the groups left. A turn that closes takes one
from both, and a turn that does not close was not at equality. After the
last item nothing is left, so all groups but the last are closed; and as
each was closed behind an item with another one to follow, none is empty.
-/
import Mathlib.Data.List.Basic

namespace Cuts

-- ============================================================ one turn

/-- Close the open group behind item `c` if it is full, or if one item
is left for each of the groups left. -/
def step (n k : Nat) (full : Prop) [Decidable full] (ends : List Nat)
    (c : Nat) : List Nat :=
  if ends.length + 1 < k ∧ (full ∨ n - c - 1 = k - ends.length - 1) then
    ends ++ [c + 1]
  else ends

/-- The groups closed before item `c`: they end in order and with an
item to follow, and leave at least one item for each group left. -/
structure Before (n k c : Nat) (ends : List Nat) : Prop where
  asc : (0 :: ends).Pairwise (· < ·)
  passed : ∀ e ∈ ends, e ≤ c ∧ e < n
  room : ends.length + 1 ≤ k
  left : ends.length + 1 = k ∨ k + c ≤ n + ends.length

variable {n k c : Nat} {ends : List Nat}

/-- Before the first item no group is closed. -/
theorem Before.start (hk : 0 < k) (hn : k = 1 ∨ k ≤ n) : Before n k 0 [] where
  asc := List.pairwise_singleton _ _
  passed := by simp
  room := hk
  left := by
    rcases hn with rfl | hn
    · exact .inl rfl
    · exact .inr (by simpa using hn)

/-- A group closed behind item `c`. -/
theorem Before.close (h : Before n k c ends) (hmore : ends.length + 1 < k) :
    Before n k (c + 1) (ends ++ [c + 1]) := by
  have hleft : k + c ≤ n + ends.length := by
    rcases h.left with hk | hk
    · omega
    · exact hk
  have hlen : (ends ++ [c + 1]).length = ends.length + 1 := by simp
  refine ⟨?_, fun e he => ?_, by omega, .inr (by omega)⟩
  · show ((0 :: ends) ++ [c + 1]).Pairwise (· < ·)
    refine List.pairwise_append.mpr ⟨h.asc, List.pairwise_singleton _ _,
      fun a ha b hb => ?_⟩
    rw [List.mem_singleton.mp hb]
    rcases List.mem_cons.mp ha with rfl | ha
    · exact Nat.succ_pos c
    · have := (h.passed a ha).1
      omega
  · rcases List.mem_append.mp he with he | he
    · have := h.passed e he
      omega
    · rw [List.mem_singleton.mp he]
      omega

/-- A turn keeps the invariant, whatever the measure says. -/
theorem Before.step (h : Before n k c ends) (hc : c < n) (full : Prop)
    [Decidable full] : Before n k (c + 1) (Cuts.step n k full ends c) := by
  unfold Cuts.step
  split
  case isTrue hclose => exact h.close hclose.1
  case isFalse hopen =>
    refine ⟨h.asc, fun e he => ?_, h.room, ?_⟩
    · have := h.passed e he
      omega
    · -- not at equality, so an item can be spared
      have hroom := h.room
      rcases h.left with hk | hk
      · exact .inl hk
      · by_cases hlast : ends.length + 1 = k
        · exact .inl hlast
        · have hspare : n - c - 1 ≠ k - ends.length - 1 := fun heq =>
            hopen ⟨by omega, .inr heq⟩
          exact .inr (by omega)

/-- A loop whose turns are such steps keeps the invariant to its end. -/
theorem Before.foldl {σ α : Type _} {f : σ → α × Nat → σ}
    {closed : σ → List Nat} {full : σ → α × Nat → Prop}
    [∀ s x, Decidable (full s x)]
    (hf : ∀ s x, closed (f s x) = Cuts.step n k (full s x) (closed s) x.2) :
    ∀ {l : List α} {c : Nat} {s : σ}, c + l.length ≤ n →
      Before n k c (closed s) →
      Before n k (c + l.length) (closed ((l.zipIdx c).foldl f s)) := by
  intro l
  induction l with
  | nil => intro c s _ h; exact h
  | cons a l ih =>
      intro c s hc h
      rw [List.length_cons] at hc
      have hturn : Before n k (c + 1) (closed (f s (a, c))) := by
        rw [hf]
        exact h.step (by omega) _
      have hrest := ih (by omega) hturn
      rw [List.zipIdx_cons, List.foldl_cons, List.length_cons,
        show c + (l.length + 1) = c + 1 + l.length by omega]
      exact hrest

-- ============================================================ all groups

/-- After the last item all groups but the last are closed. -/
theorem Before.closed (h : Before n k n ends) : ends.length + 1 = k := by
  have := h.room
  rcases h.left with hk | hk
  · exact hk
  · omega

/-- The ends of all groups are in order. -/
theorem Before.ends_asc (h : Before n k n ends) :
    (ends ++ [n]).Pairwise (· < ·) := by
  refine List.pairwise_append.mpr ⟨(List.pairwise_cons.mp h.asc).2,
    List.pairwise_singleton _ _, fun a ha b hb => ?_⟩
  rw [List.mem_singleton.mp hb]
  exact (h.passed a ha).2

/-- No group is empty if there is an item. -/
theorem Before.starts_asc (h : Before n k n ends) (hn : 0 < n) :
    (0 :: (ends ++ [n])).Pairwise (· < ·) := by
  refine List.pairwise_cons.mpr ⟨fun e he => ?_, h.ends_asc⟩
  rcases List.mem_append.mp he with he | he
  · exact (List.pairwise_cons.mp h.asc).1 e he
  · rw [List.mem_singleton.mp he]
    exact hn

/-- An item between the first start and the last end is in one group,
and in no other. -/
theorem existsUnique_group {start : Nat}
    (hasc : (start :: ends).Pairwise (· ≤ ·))
    (hlast : (start :: ends).getLast? = some n) (hstart : start ≤ c)
    (hc : c < n) :
    ∃! g, g < ends.length ∧ (start :: ends).getD g 0 ≤ c
      ∧ c < ends.getD g 0 := by
  induction ends generalizing start with
  | nil =>
      have hn : start = n := by simpa using hlast
      omega
  | cons e ends ih =>
      obtain ⟨-, hrest⟩ := List.pairwise_cons.mp hasc
      rw [List.getLast?_cons_cons] at hlast
      by_cases hce : c < e
      · -- the first group, and no later one starts in time
        refine ⟨0, ⟨Nat.succ_pos _, hstart, hce⟩, fun g hg => ?_⟩
        cases g with
        | zero => rfl
        | succ g =>
            obtain ⟨hlt, hle, -⟩ := hg
            rw [List.getD_cons_succ] at hle
            have hlt' : g < (e :: ends).length := Nat.lt_of_succ_lt hlt
            have hge : e ≤ (e :: ends).getD g 0 := by
              rw [List.getD_eq_getElem?_getD, List.getElem?_eq_getElem hlt',
                Option.getD_some]
              cases g with
              | zero => exact Nat.le_refl e
              | succ g =>
                  exact (List.pairwise_cons.mp hrest).1 _
                    (List.getElem_mem (Nat.lt_of_succ_lt_succ hlt'))
            omega
      · obtain ⟨g, hg, hunique⟩ := ih hrest hlast (by omega)
        refine ⟨g + 1, ⟨Nat.succ_lt_succ hg.1, hg.2⟩, fun g' hg' => ?_⟩
        cases g' with
        | zero => exact absurd hg'.2.2 hce
        | succ g' =>
            rw [hunique g' ⟨Nat.lt_of_succ_lt_succ hg'.1, hg'.2⟩]

end Cuts
