/-
Entries in the order of their keys, no key twice: what a sorted map is
made of.

A new entry goes where its key belongs, unless the key is there already
(`emplace`). Such entries are known by what is found in them, whatever was
put in first; and the values of some keys are in the order of those keys
(`filterMap_find`).
-/
import Mathlib.Data.List.Basic
import Mathlib.Data.List.Pairwise
import Mathlib.Order.Lattice

namespace Arcae.SortedEntries

variable {κ β : Type*} [LinearOrder κ] {k : κ} {v : β}
  {entries entries' : List (κ × β)}

/-- The keys ascend. -/
abbrev Sorted (entries : List (κ × β)) : Prop :=
  (entries.map Prod.fst).Pairwise (· < ·)

/-- The value of a key. -/
def find (k : κ) (entries : List (κ × β)) : Option β :=
  (entries.find? fun e => e.1 == k).map Prod.snd

/-- A new entry, unless its key is there. -/
def emplace (k : κ) (v : β) : List (κ × β) → List (κ × β)
  | [] => [(k, v)]
  | e :: entries =>
      if k < e.1 then (k, v) :: e :: entries
      else if k = e.1 then e :: entries
      else e :: emplace k v entries

@[simp] theorem find_nil : find k ([] : List (κ × β)) = none := rfl

theorem find_cons (x : κ) (e : κ × β) (entries : List (κ × β)) :
    find x (e :: entries) = if e.1 = x then some e.2 else find x entries := by
  unfold find
  by_cases h : e.1 = x
  · rw [List.find?_cons_of_pos (by simpa using h), if_pos h]
    rfl
  · rw [List.find?_cons_of_neg (by simpa using h), if_neg h]

/-- Other values under the same keys. -/
theorem find_map {γ : Type*} (f : β → γ) (x : κ) (entries : List (κ × β)) :
    find x (entries.map fun e => (e.1, f e.2)) = (find x entries).map f := by
  induction entries with
  | nil => rfl
  | cons e entries ih =>
      rw [List.map_cons, find_cons, find_cons, ih]
      by_cases h : e.1 = x
      · rw [if_pos h, if_pos h]
        rfl
      · rw [if_neg h, if_neg h]

/-- Only keys that are there are found. -/
theorem find_eq_none : find k entries = none ↔ k ∉ entries.map Prod.fst := by
  induction entries with
  | nil => simp
  | cons e entries ih =>
      rw [find_cons, List.map_cons, List.mem_cons, not_or]
      by_cases h : e.1 = k
      · rw [if_pos h]
        exact iff_of_false (by simp) fun hx => hx.1 h.symm
      · rw [if_neg h, ih]
        exact ⟨fun hx => ⟨fun heq => h heq.symm, hx⟩, And.right⟩

theorem mem_keys_emplace {x : κ} :
    x ∈ (emplace k v entries).map Prod.fst
      ↔ x = k ∨ x ∈ entries.map Prod.fst := by
  induction entries with
  | nil => simp [emplace]
  | cons e entries ih =>
      rw [emplace]
      split
      · rw [List.map_cons, List.mem_cons]
      · split
        · next heq =>
          rw [List.map_cons, List.mem_cons, ← heq, or_self_left]
        · rw [List.map_cons, List.mem_cons, ih, List.map_cons, List.mem_cons]
          exact or_left_comm

theorem sorted_emplace (h : Sorted entries) : Sorted (emplace k v entries) := by
  induction entries with
  | nil => simp [Sorted, emplace]
  | cons e entries ih =>
      have htail := h
      rw [Sorted, List.map_cons, List.pairwise_cons] at htail
      obtain ⟨hlt, htail⟩ := htail
      rw [emplace]
      split
      · next hk =>
        rw [Sorted, List.map_cons, List.pairwise_cons]
        refine ⟨fun x hx => ?_, h⟩
        rcases List.mem_cons.mp hx with rfl | hx
        · exact hk
        · exact hk.trans (hlt x hx)
      · next hk =>
        split
        · exact h
        · next hne =>
          rw [Sorted, List.map_cons, List.pairwise_cons]
          refine ⟨fun x hx => ?_, ih htail⟩
          rcases mem_keys_emplace.mp hx with rfl | hx
          · exact lt_of_le_of_ne (not_lt.mp hk) fun heq => hne heq.symm
          · exact hlt x hx

/-- What is found after a new entry. -/
theorem find_emplace (h : Sorted entries) (x : κ) :
    find x (emplace k v entries)
      = if k = x then (find x entries).or (some v) else find x entries := by
  induction entries with
  | nil => simp [emplace, find_cons]
  | cons e entries ih =>
      rw [Sorted, List.map_cons, List.pairwise_cons] at h
      obtain ⟨hlt, htail⟩ := h
      rw [emplace]
      split
      · next hk =>
        rw [find_cons]
        by_cases hx : k = x
        · have hnone : find x (e :: entries) = none := by
            rw [find_eq_none, List.map_cons, List.mem_cons, ← hx, not_or]
            exact ⟨hk.ne, fun hmem => absurd (hlt k hmem) (not_lt.mpr hk.le)⟩
          rw [if_pos hx, if_pos hx, hnone]
          rfl
        · rw [if_neg hx, if_neg hx]
      · split
        · next heq =>
          by_cases hx : k = x
          · rw [if_pos hx, find_cons, if_pos (heq.symm.trans hx)]
            rfl
          · rw [if_neg hx]
        · next hne =>
          rw [find_cons, find_cons, ih htail]
          by_cases hx : e.1 = x
          · rw [if_pos hx, if_pos hx, if_neg fun heq => hne (heq.trans hx.symm)]
          · rw [if_neg hx, if_neg hx]

theorem find_of_mem (h : (entries.map Prod.fst).Nodup) {e : κ × β}
    (he : e ∈ entries) : find e.1 entries = some e.2 := by
  induction entries with
  | nil => cases he
  | cons d entries ih =>
      rw [List.map_cons, List.nodup_cons] at h
      rw [find_cons]
      rcases List.mem_cons.mp he with rfl | he
      · rw [if_pos rfl]
      · have hne : d.1 ≠ e.1 := fun heq => by
          rw [heq] at h
          exact h.1 (List.mem_map_of_mem he)
        rw [if_neg hne]
        exact ih h.2 he

theorem Sorted.nodup (h : Sorted entries) : (entries.map Prod.fst).Nodup :=
  h.imp fun hlt heq => absurd heq (ne_of_lt hlt)

/-- The values of some keys, in the order of the keys. -/
theorem filterMap_find (h : Sorted entries) {keys : List κ}
    (hkeys : keys.Pairwise (· < ·)) :
    keys.filterMap (fun k => find k entries)
      = (entries.filter fun e => decide (e.1 ∈ keys)).map Prod.snd := by
  have hfound : ((entries.filter fun e => decide (e.1 ∈ keys)).map Prod.fst)
      = keys.filter fun k => decide (k ∈ entries.map Prod.fst) := by
    have hsorted : ((entries.filter fun e => decide (e.1 ∈ keys)).map
        Prod.fst).Pairwise (· < ·) := h.sublist (List.filter_sublist.map _)
    have hperm : ((entries.filter fun e => decide (e.1 ∈ keys)).map
        Prod.fst).Perm
          (keys.filter fun k => decide (k ∈ entries.map Prod.fst)) := by
      refine (List.perm_ext_iff_of_nodup
        (h.nodup.sublist (List.filter_sublist.map _))
        ((hkeys.imp fun hlt => ne_of_lt hlt).sublist
          List.filter_sublist)).mpr fun k => ?_
      simp only [List.mem_map, List.mem_filter, decide_eq_true_eq]
      constructor
      · intro hx
        obtain ⟨e, ⟨he, hk⟩, rfl⟩ := hx
        exact ⟨hk, e, he, rfl⟩
      · intro hx
        obtain ⟨hk, e, he, rfl⟩ := hx
        exact ⟨e, ⟨he, hk⟩, rfl⟩
    exact hperm.eq_of_pairwise (fun a b _ _ hlt hgt => absurd hlt (lt_asymm hgt))
      hsorted (hkeys.sublist List.filter_sublist)
  have hvalues : (entries.filter fun e => decide (e.1 ∈ keys)).map Prod.snd
      = ((entries.filter fun e => decide (e.1 ∈ keys)).map Prod.fst).filterMap
          fun k => find k entries := by
    rw [List.filterMap_map, ← List.filterMap_eq_map]
    refine List.filterMap_congr fun e he => ?_
    exact (find_of_mem h.nodup (List.mem_filter.mp he).1).symm
  rw [hvalues, hfound, List.filterMap_filter]
  refine List.filterMap_congr fun k _ => ?_
  by_cases hk : k ∈ entries.map Prod.fst
  · rw [if_pos (decide_eq_true hk)]
  · rw [if_neg (by simpa using hk), find_eq_none.mpr hk]

end Arcae.SortedEntries
