/-
Scattered writes to a memory: a list of (address, value) pairs applied
in order to a total map.

When no address is written twice the order does not matter
(`scatter_perm`): the memory ends with the written value where there is
one and with the old value elsewhere. Tasks that write the same
addresses one element at a time, in any interleaving of their own
orders, therefore leave the same memory as one task doing all of it
(`scatter_interleaving`). While they are at it, an address holds what it
held or what is written there (`Partly.held_or_written`).

Whether anything was missed is a matter of counting: as many writers as
addresses, none of them writing beyond its own, cover the addresses only
if each writes its own (`eq_of_all_covered`).
-/
import Mathlib.Data.List.Perm.Basic
import Mathlib.Data.List.Perm.Subperm
import Mathlib.Algebra.BigOperators.Group.List.Basic
import Mathlib.Data.List.Nodup
import Mathlib.Logic.Function.Basic
import Mathlib.Algebra.Ring.Int.Defs

namespace Scatter

variable {ι α : Type _} [DecidableEq ι]

/-- Apply the writes in order, each replacing what its address held. -/
def scatter (mem : ι → α) (writes : List (ι × α)) : ι → α :=
  writes.foldl (fun m w => Function.update m w.1 w.2) mem

@[simp] theorem scatter_nil (mem : ι → α) : scatter mem [] = mem := rfl

@[simp] theorem scatter_cons (mem : ι → α) (w : ι × α)
    (writes : List (ι × α)) :
    scatter mem (w :: writes)
      = scatter (Function.update mem w.1 w.2) writes := rfl

theorem scatter_append (mem : ι → α) (ws ws' : List (ι × α)) :
    scatter mem (ws ++ ws') = scatter (scatter mem ws) ws' :=
  List.foldl_append

/-- An address no write names keeps its value. -/
theorem scatter_of_not_mem {mem : ι → α} {writes : List (ι × α)} {i : ι}
    (h : i ∉ writes.map Prod.fst) : scatter mem writes i = mem i := by
  induction writes generalizing mem with
  | nil => rfl
  | cons w ws ih =>
      rw [List.map_cons, List.mem_cons, not_or] at h
      rw [scatter_cons, ih h.2, Function.update_of_ne h.1]

/-- An address written once ends with the value written. -/
theorem scatter_of_mem {mem : ι → α} {writes : List (ι × α)} {i : ι} {v : α}
    (hnodup : (writes.map Prod.fst).Nodup) (h : (i, v) ∈ writes) :
    scatter mem writes i = v := by
  induction writes generalizing mem with
  | nil => cases h
  | cons w ws ih =>
      rw [List.map_cons, List.nodup_cons] at hnodup
      rcases List.mem_cons.mp h with rfl | hin
      · rw [scatter_cons, scatter_of_not_mem hnodup.1, Function.update_self]
      · exact ih hnodup.2 hin

/-- A written address ends with a value some write gave it. -/
theorem scatter_mem_or {mem : ι → α} {writes : List (ι × α)} (i : ι) :
    (i, scatter mem writes i) ∈ writes ∨ i ∉ writes.map Prod.fst := by
  induction writes generalizing mem with
  | nil => right; simp
  | cons w ws ih =>
      rcases @ih (Function.update mem w.1 w.2) with h | h
      · exact .inl (List.mem_cons_of_mem _ h)
      · by_cases hi : i = w.1
        · left
          rw [scatter_cons, scatter_of_not_mem h, hi, Function.update_self]
          exact List.mem_cons_self
        · right
          rw [List.map_cons, List.mem_cons, not_or]
          exact ⟨hi, h⟩

/-- What a written address ends with does not depend on what it held. -/
theorem scatter_eq_of_mem {mem mem' : ι → α} {writes : List (ι × α)} {i : ι}
    (h : i ∈ writes.map Prod.fst) :
    scatter mem writes i = scatter mem' writes i := by
  induction writes generalizing mem mem' with
  | nil => cases h
  | cons w ws ih =>
      rw [scatter_cons, scatter_cons]
      by_cases hin : i ∈ ws.map Prod.fst
      · exact ih hin
      · rw [scatter_of_not_mem hin, scatter_of_not_mem hin]
        rcases List.mem_cons.mp h with rfl | hmem
        · rw [Function.update_self, Function.update_self]
        · exact absurd hmem hin

/-- Writes to distinct addresses may be reordered. -/
theorem scatter_perm {mem : ι → α} {ws ws' : List (ι × α)}
    (h : ws.Perm ws') (hnodup : (ws.map Prod.fst).Nodup) :
    scatter mem ws = scatter mem ws' := by
  have hkeys : (ws.map Prod.fst).Perm (ws'.map Prod.fst) := h.map _
  funext i
  rcases @scatter_mem_or _ _ _ mem ws i with hin | hout
  · rw [scatter_of_mem (hkeys.nodup hnodup) (h.mem_iff.mp hin)]
  · rw [scatter_of_not_mem hout,
      scatter_of_not_mem fun hin => hout (hkeys.mem_iff.mpr hin)]

/-- Writing what is there already changes nothing. -/
theorem scatter_self {mem : ι → α} {writes : List (ι × α)}
    (h : ∀ w ∈ writes, mem w.1 = w.2) : scatter mem writes = mem := by
  funext i
  rcases @scatter_mem_or _ _ _ mem writes i with hin | hout
  · exact (h _ hin).symm
  · exact scatter_of_not_mem hout

-- ======================================================= partly written

/-- Some of the writes `all` have been made to `mem`, in some order, and
those in `left` have not. -/
def Partly (mem : ι → α) (all left : List (ι × α)) (now : ι → α) : Prop :=
  ∃ made, now = scatter mem made ∧ (made ++ left).Perm all

namespace Partly

variable {mem now : ι → α} {all left rest : List (ι × α)} {w : ι × α}

theorem start (mem : ι → α) (all : List (ι × α)) : Partly mem all all mem :=
  ⟨[], rfl, List.Perm.refl _⟩

/-- What is left may stand in any order. -/
theorem perm (h : Partly mem all left now) (hleft : left.Perm rest) :
    Partly mem all rest now := by
  obtain ⟨made, hnow, hperm⟩ := h
  exact ⟨made, hnow, (hleft.append_left made).symm.trans hperm⟩

/-- One more is made. -/
theorem write (h : Partly mem all (w :: rest) now) :
    Partly mem all rest (Function.update now w.1 w.2) := by
  obtain ⟨made, rfl, hperm⟩ := h
  refine ⟨made ++ [w], ?_, ?_⟩
  · rw [scatter_append]
    rfl
  · rwa [List.append_assoc]

/-- An address holds what it held, or what is written there. -/
theorem held_or_written (h : Partly mem all left now) (i : ι) :
    now i = mem i ∨ (i, now i) ∈ all := by
  obtain ⟨made, rfl, hperm⟩ := h
  rcases @scatter_mem_or _ _ _ mem made i with hin | hout
  · exact .inr (hperm.subset (List.mem_append_left _ hin))
  · exact .inl (scatter_of_not_mem hout)

/-- When none is left, all are made. -/
theorem done (h : Partly mem all [] now) (hnodup : (all.map Prod.fst).Nodup) :
    now = scatter mem all := by
  obtain ⟨made, rfl, hperm⟩ := h
  rw [List.append_nil] at hperm
  exact (scatter_perm hperm.symm hnodup).symm

end Partly

-- ============================================================== coverage

section Coverage

variable {β : Type _}

/-- Terms below others that add up to the same are the others. -/
theorem eq_of_sum_eq {l : List β} {v e : β → Int} (hle : ∀ x ∈ l, v x ≤ e x)
    (hsum : (l.map v).sum = (l.map e).sum) : ∀ x ∈ l, v x = e x := by
  have sum_le : ∀ l : List β, (∀ x ∈ l, v x ≤ e x) →
      (l.map v).sum ≤ (l.map e).sum := by
    intro l
    induction l with
    | nil => intro _; exact Int.le_refl 0
    | cons x l ih =>
        intro hl
        have hx := hl x List.mem_cons_self
        have hrest := ih fun y hy => hl y (List.mem_cons_of_mem _ hy)
        rw [List.map_cons, List.map_cons, List.sum_cons, List.sum_cons]
        omega
  induction l with
  | nil => simp
  | cons x l ih =>
      have hx := hle x List.mem_cons_self
      have hl : ∀ y ∈ l, v y ≤ e y := fun y hy => hle y (List.mem_cons_of_mem _ hy)
      have hrest := sum_le l hl
      rw [List.map_cons, List.map_cons, List.sum_cons, List.sum_cons] at hsum
      exact List.forall_mem_cons.mpr ⟨by omega, ih hl (by omega)⟩

/-- Writers meant for different addresses, that write at or below the
addresses they are meant for: if each of these is written, each writes
where it is meant to. -/
theorem eq_of_all_covered {l : List β} {e v : β → Int}
    (hnodup : (l.map e).Nodup) (hle : ∀ x ∈ l, v x ≤ e x)
    (hcov : ∀ x ∈ l, ∃ y ∈ l, v y = e x) : ∀ x ∈ l, v x = e x := by
  have hsub : l.map e ⊆ l.map v := by
    intro q hq
    obtain ⟨x, hx, rfl⟩ := List.mem_map.mp hq
    obtain ⟨y, hy, heq⟩ := hcov x hx
    exact List.mem_map.mpr ⟨y, hy, heq⟩
  have hperm : (l.map e).Perm (l.map v) := by
    refine (List.subperm_of_subset hnodup hsub).perm_of_length_le ?_
    rw [List.length_map, List.length_map]
  exact eq_of_sum_eq hle hperm.symm.sum_eq

end Coverage

-- ========================================================= interleavings

/-- `out` is the lists of `ls` run concurrently, each in its own
order. -/
inductive Interleaving {β : Type _} : List (List β) → List β → Prop
  | done {ls : List (List β)} (h : ∀ l ∈ ls, l = []) : Interleaving ls []
  | step {pre post : List (List β)} {b : β} {l out : List β} :
      Interleaving (pre ++ l :: post) out →
      Interleaving (pre ++ (b :: l) :: post) (b :: out)

/-- An interleaving runs every step of every list once. -/
theorem Interleaving.perm {β : Type _} {ls : List (List β)} {out : List β}
    (h : Interleaving ls out) : out.Perm ls.flatten := by
  induction h with
  | done h =>
      rw [List.flatten_eq_nil_iff.mpr h]
  | @step pre post b l out _ ih =>
      have hmid : (pre ++ (b :: l) :: post).flatten.Perm
          (b :: (pre ++ l :: post).flatten) := by
        simp only [List.flatten_append, List.flatten_cons, List.cons_append]
        exact List.perm_middle
      exact (ih.cons b).trans hmid.symm

/-- Running the lists one after the other is an interleaving. -/
theorem Interleaving.flatten {β : Type _} (ls : List (List β)) :
    Interleaving ls ls.flatten := by
  suffices key : ∀ (rest done : List (List β)), (∀ l ∈ done, l = []) →
      Interleaving (done ++ rest) rest.flatten by
    simpa using key ls [] (by simp)
  intro rest
  induction rest with
  | nil =>
      intro done hdone
      refine .done fun l hl => hdone l ?_
      simpa using hl
  | cons l rest ih =>
      intro done hdone
      induction l with
      | nil =>
          have h := ih (done ++ [[]]) fun k hk => by
            rcases List.mem_append.mp hk with hk | hk
            · exact hdone k hk
            · simpa using hk
          simpa using h
      | cons b l ihl => exact .step ihl

/-- Concurrent writes to distinct addresses leave the memory that one
task writing everything leaves. -/
theorem scatter_interleaving {mem : ι → α} {ls : List (List (ι × α))}
    {ws out : List (ι × α)} (h : Interleaving ls out)
    (hperm : ls.flatten.Perm ws) (hnodup : (ws.map Prod.fst).Nodup) :
    scatter mem out = scatter mem ws := by
  have hout : out.Perm ws := h.perm.trans hperm
  exact (scatter_perm hout.symm hnodup).symm

end Scatter
