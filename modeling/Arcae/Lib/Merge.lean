/-
Merging many sorted lists into one.

# Three-way comparisons

A comparison gives the sign of a difference. `ThreeWay` says that the
signs are those of a total preorder; comparing by several keys, the
first that differs deciding, is three-way if each key is
(`ThreeWay.lexCmp`), and what sorts after is then a strict weak order,
as a heap asks for (`ThreeWay.strictWeakOrder`).

# Merges

`Merged le lists out` says that `out` was made by taking, again and
again, a head that no other head comes before. Ties are left open. Such
a merge is an interleaving of the lists (`Merged.interleaving`), keeps
the order of each (`Merged.filter`), and is sorted if the lists are
(`Merged.pairwise`).
-/
import Arcae.Lib.Scatter
import Mathlib.Order.RelClasses

namespace Merge

open Scatter

variable {α β : Type _}

-- ================================================== three-way comparisons

/-- A comparison by sign: swapping swaps the sign, and what does not come
after does so transitively. -/
structure ThreeWay (cmp : α → α → Int) : Prop where
  swap : ∀ a b, 0 < cmp a b ↔ cmp b a < 0
  trans : ∀ a b c, cmp a b ≤ 0 → cmp b c ≤ 0 → cmp a c ≤ 0

/-- Compare by each key in turn; the first that differs decides. -/
def lexCmp : List (α → α → Int) → α → α → Int
  | [], _, _ => 0
  | cmp :: cmps, a, b => if cmp a b ≠ 0 then cmp a b else lexCmp cmps a b

namespace ThreeWay

variable {cmp : α → α → Int}

/-- Equal keys stay equal when swapped. -/
theorem zero_iff (h : ThreeWay cmp) (a b : α) : cmp a b = 0 ↔ cmp b a = 0 := by
  have hab := h.swap a b
  have hba := h.swap b a
  omega

/-- A key that comes before one that does not come after another comes
before that one. -/
theorem neg_of_neg_of_nonpos (h : ThreeWay cmp) {a b c : α} (hab : cmp a b < 0)
    (hbc : cmp b c ≤ 0) : cmp a c < 0 := by
  have hac := h.trans a b c (by omega) hbc
  by_contra hno
  have hca : cmp c a = 0 := (h.zero_iff a c).mp (by omega)
  have hba := h.trans b c a hbc (by omega)
  have := h.swap b a
  omega

theorem neg_of_nonpos_of_neg (h : ThreeWay cmp) {a b c : α} (hab : cmp a b ≤ 0)
    (hbc : cmp b c < 0) : cmp a c < 0 := by
  have hac := h.trans a b c hab (by omega)
  by_contra hno
  have hca : cmp c a = 0 := (h.zero_iff a c).mp (by omega)
  have hcb := h.trans c a b (by omega) hab
  have := h.swap c b
  omega

/-- Comparing what a function makes of the values. -/
theorem comap (h : ThreeWay cmp) (f : β → α) :
    ThreeWay fun a b => cmp (f a) (f b) where
  swap a b := h.swap (f a) (f b)
  trans a b c := h.trans (f a) (f b) (f c)

/-- Comparing by keys, each of them three-way, is three-way. -/
theorem lexCmp {cmps : List (α → α → Int)} (h : ∀ cmp ∈ cmps, ThreeWay cmp) :
    ThreeWay (Merge.lexCmp cmps) := by
  induction cmps with
  | nil => exact ⟨fun a b => by simp [Merge.lexCmp], fun a b c _ _ => Int.le_refl 0⟩
  | cons cmp cmps ih =>
      have hcmp := h cmp List.mem_cons_self
      have hrest := ih fun cmp' hmem => h cmp' (List.mem_cons_of_mem _ hmem)
      constructor
      · intro a b
        have hswap := hcmp.swap a b
        have hswap' := hcmp.swap b a
        have hrest' := hrest.swap a b
        rw [Merge.lexCmp, Merge.lexCmp]
        split <;> split <;> omega
      · intro a b c hab hbc
        have hac := hcmp.trans a b c
        rw [Merge.lexCmp] at hab hbc ⊢
        by_cases hdecides : cmp a b ≠ 0
        · rw [if_pos hdecides] at hab
          have hbc' : cmp b c ≤ 0 := by
            split at hbc <;> omega
          have := hcmp.neg_of_neg_of_nonpos (show cmp a b < 0 by omega) hbc'
          rw [if_pos (by omega)]
          omega
        · rw [if_neg hdecides] at hab
          by_cases hdecides' : cmp b c ≠ 0
          · rw [if_pos hdecides'] at hbc
            have := hcmp.neg_of_nonpos_of_neg (show cmp a b ≤ 0 by omega)
              (show cmp b c < 0 by omega)
            rw [if_pos (by omega)]
            omega
          · rw [if_neg hdecides'] at hbc
            have hca := hcmp.trans c b a
            have hcb := hcmp.zero_iff b c
            have hba := hcmp.zero_iff a b
            have hsame := hcmp.swap c a
            rw [if_neg (by omega)]
            exact hrest.trans a b c hab hbc

/-- What sorts after, as a heap asks for it. -/
theorem strictWeakOrder (h : ThreeWay cmp) :
    IsStrictWeakOrder α fun a b => 0 < cmp a b := by
  have hasymm : Std.Asymm fun a b => 0 < cmp a b := by
    refine ⟨fun a b hab hba => ?_⟩
    have := h.swap a b
    omega
  have hconn : IsOrderConnected α fun a b => 0 < cmp a b := by
    refine ⟨fun a b c hac => ?_⟩
    by_contra hno
    rw [not_or] at hno
    have := h.trans a b c (by omega) (by omega)
    omega
  exact isStrictWeakOrder_of_isOrderConnected

end ThreeWay

-- ================================================================= merges

/-- `out` takes a head that no other head comes before, again and
again, until the lists are empty. -/
inductive Merged (le : α → α → Prop) : List (List α) → List α → Prop
  | nil {lists : List (List α)} (hnil : ∀ l ∈ lists, l = []) : Merged le lists []
  | cons {lists : List (List α)} {out : List α} (p : Nat) (x : α) (xs : List α)
      (head : lists[p]? = some (x :: xs))
      (least : ∀ l ∈ lists, ∀ y, l.head? = some y → le x y)
      (rest : Merged le (lists.set p xs) out) : Merged le lists (x :: out)

namespace Merged

variable {le : α → α → Prop} {lists : List (List α)} {out : List α}

/-- Replacing a list changes nothing around it. -/
theorem split_set {p : Nat} {l : List α} (h : lists[p]? = some l)
    (l' : List α) : ∃ pre post, lists = pre ++ l :: post
      ∧ lists.set p l' = pre ++ l' :: post := by
  obtain ⟨hlt, rfl⟩ := List.getElem?_eq_some_iff.mp h
  refine ⟨lists.take p, lists.drop (p + 1), ?_, ?_⟩
  · rw [List.cons_getElem_drop_succ, List.take_append_drop]
  · rw [List.set_eq_take_append_cons_drop, if_pos hlt]

/-- Taking the head of a list leaves one element less. -/
theorem flatten_length_set {p : Nat} {x : α} {xs : List α}
    (h : lists[p]? = some (x :: xs)) :
    lists.flatten.length = (lists.set p xs).flatten.length + 1 := by
  obtain ⟨pre, post, hlists, hset⟩ := split_set h xs
  rw [hset, hlists]
  simp only [List.flatten_append, List.flatten_cons, List.length_append,
    List.length_cons]
  omega

/-- A merge is an interleaving of the lists. -/
theorem interleaving (h : Merged le lists out) : Interleaving lists out := by
  induction h with
  | nil hnil => exact .done hnil
  | @cons lists out p x xs head _ _ ih =>
      obtain ⟨pre, post, hlists, hset⟩ := split_set head xs
      rw [hset] at ih
      rw [hlists]
      exact .step ih

/-- A merge has the elements of each list in their order: the ones that
bear its mark. -/
theorem filter (h : Merged le lists out) {mark : α → Nat}
    (hmark : ∀ p l, lists[p]? = some l → ∀ x ∈ l, mark x = p) {q : Nat}
    {l : List α} (hl : lists[q]? = some l) :
    out.filter (fun x => mark x == q) = l := by
  induction h generalizing l with
  | nil hnil => exact (hnil l (List.mem_of_getElem? hl)).symm
  | @cons lists out p x xs head least rest ih =>
      have hx : mark x = p := hmark p _ head x List.mem_cons_self
      have hlt : p < lists.length := (List.getElem?_eq_some_iff.mp head).1
      have hmark' : ∀ p' l', (lists.set p xs)[p']? = some l' →
          ∀ y ∈ l', mark y = p' := by
        intro p' l' hl' y hy
        by_cases heq : p = p'
        · subst heq
          rw [List.getElem?_set_self hlt] at hl'
          cases hl'
          exact hmark p _ head y (List.mem_cons_of_mem _ hy)
        · rw [List.getElem?_set_ne heq] at hl'
          exact hmark p' l' hl' y hy
      by_cases heq : p = q
      · subst heq
        rw [head] at hl
        cases hl
        rw [List.filter_cons_of_pos (by simpa using hx),
          ih hmark' (List.getElem?_set_self hlt)]
      · rw [List.filter_cons_of_neg (by simpa [hx] using heq)]
        exact ih hmark' (by rw [List.getElem?_set_ne heq]; exact hl)

/-- A merge of sorted lists is sorted. -/
theorem pairwise (h : Merged le lists out)
    (htrans : ∀ a b c, le a b → le b c → le a c)
    (hsorted : ∀ l ∈ lists, l.Pairwise le) : out.Pairwise le := by
  induction h with
  | nil _ => exact List.Pairwise.nil
  | @cons lists out p x xs head least rest ih =>
      have hxxs := hsorted _ (List.mem_of_getElem? head)
      rw [List.pairwise_cons] at hxxs
      have hsorted' : ∀ l ∈ lists.set p xs, l.Pairwise le := by
        intro l hl
        rcases List.mem_or_eq_of_mem_set hl with hmem | rfl
        · exact hsorted l hmem
        · exact hxxs.2
      refine List.pairwise_cons.mpr ⟨fun y hy => ?_, ih hsorted'⟩
      -- what is to come is behind some head, or behind this one
      obtain ⟨l, hl, hyl⟩ := List.mem_flatten.mp (rest.interleaving.perm.mem_iff.mp hy)
      rcases List.mem_or_eq_of_mem_set hl with hmem | rfl
      · cases l with
        | nil => cases hyl
        | cons z zs =>
            have hxz := least _ hmem z rfl
            rcases List.mem_cons.mp hyl with rfl | hzs
            · exact hxz
            · exact htrans x z y hxz
                ((List.pairwise_cons.mp (hsorted _ hmem)).1 y hzs)
      · exact hxxs.1 y hyl

end Merged

end Merge
