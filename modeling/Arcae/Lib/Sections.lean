/-
Products of lists, and what cutting the factors into parts does to
them.

`List.sections` is the product of a list of lists, first factor
fastest. `product` is the same product built by appending one factor
after another (last factor fastest), the shape a nested loop over a
growing result takes; the two list the same choices (`product_perm`).

The main fact is `product_flatMap_sections`: cut every factor into
parts, pick one part a factor in every possible way, and take the
product of each pick. Together those products are the product of the
uncut factors, every choice once.
-/
import Mathlib.Data.List.Sections
import Mathlib.Data.List.Perm.Basic
import Mathlib.Data.List.Nodup
import Mathlib.Data.List.Induction
import Mathlib.Data.Set.Function
import Mathlib.Algebra.Ring.Nat

namespace Sections

open List

variable {α β γ : Type _}

-- ======================================================== permutations

/-- Two nested loops may be exchanged, up to the order of what they
list. -/
theorem flatMap_swap (xs : List α) (ys : List β) (f : α → β → List γ) :
    xs.flatMap (fun x => ys.flatMap fun y => f x y)
      ~ ys.flatMap (fun y => xs.flatMap fun x => f x y) := by
  induction xs with
  | nil => simp
  | cons x xs ih =>
      rw [List.flatMap_cons]
      calc ys.flatMap (f x) ++ xs.flatMap (fun x => ys.flatMap (f x))
          ~ ys.flatMap (f x)
              ++ ys.flatMap (fun y => xs.flatMap fun x => f x y) :=
            ih.append_left _
        _ ~ ys.flatMap (fun y => f x y ++ xs.flatMap fun x => f x y) :=
            flatMap_append_perm ys (f x) _

/-- Permuting every factor permutes the product. -/
theorem sections_perm {L L' : List (List α)} (h : Forall₂ Perm L L') :
    L.sections ~ L'.sections := by
  induction h with
  | nil => exact Perm.refl _
  | cons hl _ ih =>
      exact Perm.flatMap ih fun s _ => hl.map _

/-- Listing blocks item by item, up to the order within a block. -/
theorem flatMap_perm_of_forall₂ {f : α → List γ} {g : β → List γ}
    {l : List α} {m : List β} (h : Forall₂ (fun a b => f a ~ g b) l m) :
    l.flatMap f ~ m.flatMap g := by
  induction h with
  | nil => exact Perm.refl _
  | cons hab _ ih =>
      rw [List.flatMap_cons, List.flatMap_cons]
      exact hab.append ih

/-- Blocks of equal lengths zip block by block. -/
theorem zip_flatMap {f : α → List β} {g : α → List γ} {l : List α}
    (h : ∀ a ∈ l, (f a).length = (g a).length) :
    (l.flatMap f).zip (l.flatMap g) = l.flatMap fun a => (f a).zip (g a) := by
  induction l with
  | nil => rfl
  | cons a l ih =>
      rw [List.flatMap_cons, List.flatMap_cons, List.flatMap_cons,
        List.zip_append (h a List.mem_cons_self),
        ih fun b hb => h b (List.mem_cons_of_mem _ hb)]

/-- A function that lists `m` when it runs over `l`, each element of `m`
once, is a bijection. -/
theorem bijOn_of_map_perm {f : α → β} {l : List α} {m : List β}
    (h : l.map f ~ m) (hm : m.Nodup) :
    Set.BijOn f {x | x ∈ l} {y | y ∈ m} := by
  refine ⟨?_, ?_, ?_⟩
  · intro x hx
    exact h.mem_iff.mp (List.mem_map_of_mem hx)
  · intro x hx y hy hxy
    exact List.inj_on_of_nodup_map (h.nodup_iff.mpr hm) hx hy hxy
  · intro y hy
    obtain ⟨x, hx, rfl⟩ := List.mem_map.mp (h.mem_iff.mpr hy)
    exact ⟨x, hx, rfl⟩

-- ================================================== shape of a product

/-- A slowest factor is an outer loop. -/
theorem sections_append_singleton (L : List (List α)) (l : List α) :
    (L ++ [l]).sections
      = l.flatMap fun a => L.sections.map fun s => s ++ [a] := by
  induction L with
  | nil => simp [List.map_eq_flatMap]
  | cons k L ih =>
      rw [List.cons_append, List.sections, ih, List.flatMap_assoc]
      refine List.flatMap_congr fun a _ => ?_
      rw [List.flatMap_map, List.sections, List.map_flatMap]
      refine List.flatMap_congr fun s _ => ?_
      rw [List.map_map]
      rfl

/-- A product of images is the image of the product, factor by
factor. -/
theorem sections_zipWith (S : List γ) (r : γ → List α) (g : γ → α → β) :
    (S.map fun s => (r s).map (g s)).sections
      = (S.map r).sections.map (List.zipWith g S) := by
  induction S with
  | nil => rfl
  | cons s S ih =>
      rw [List.map_cons, List.map_cons, List.sections, List.sections, ih,
        List.flatMap_map, List.map_flatMap]
      refine List.flatMap_congr fun t _ => ?_
      rw [List.map_map, List.map_map]
      rfl

/-- The product of the images under one function. -/
theorem sections_map (f : α → β) (L : List (List α)) :
    (L.map fun l => l.map f).sections = L.sections.map (List.map f) := by
  induction L with
  | nil => rfl
  | cons l L ih =>
      rw [List.map_cons, List.sections, List.sections, ih,
        List.flatMap_map, List.map_flatMap]
      refine List.flatMap_congr fun t _ => ?_
      rw [List.map_map, List.map_map]
      rfl

theorem sections_length (L : List (List α)) :
    L.sections.length = (L.map List.length).prod := by
  induction L with
  | nil => rfl
  | cons l L ih =>
      rw [List.sections, List.length_flatMap, List.map_cons, List.prod_cons,
        ← ih]
      simp [Nat.mul_comm]

-- ================================================== the growing product

/-- The product built by a loop that appends one factor after another
to every partial choice. -/
def product (L : List (List α)) : List (List α) :=
  L.foldl (fun acc l => acc.flatMap fun s => l.map fun a => s ++ [a]) [[]]

theorem product_append_singleton (L : List (List α)) (l : List α) :
    product (L ++ [l])
      = (product L).flatMap fun s => l.map fun a => s ++ [a] := by
  simp [product, List.foldl_append]

/-- The loop's product lists the sections, in another order. -/
theorem product_perm (L : List (List α)) : product L ~ L.sections := by
  induction L using List.reverseRecOn with
  | nil => exact Perm.refl _
  | append_singleton L l ih =>
      rw [product_append_singleton, sections_append_singleton]
      calc (product L).flatMap (fun s => l.map fun a => s ++ [a])
          ~ L.sections.flatMap (fun s => l.map fun a => s ++ [a]) :=
            ih.flatMap_right _
        _ = L.sections.flatMap (fun s => l.flatMap fun a => [s ++ [a]]) := by
            simp only [List.map_eq_flatMap]
        _ ~ l.flatMap (fun a => L.sections.flatMap fun s => [s ++ [a]]) :=
            flatMap_swap _ _ _
        _ = l.flatMap (fun a => L.sections.map fun s => s ++ [a]) := by
            simp only [List.map_eq_flatMap]

/-- The product of the images under one function. -/
theorem product_map (f : α → β) (L : List (List α)) :
    product (L.map fun l => l.map f) = (product L).map (List.map f) := by
  induction L using List.reverseRecOn with
  | nil => rfl
  | append_singleton L l ih =>
      rw [List.map_append, List.map_singleton, product_append_singleton,
        product_append_singleton, ih, List.flatMap_map, List.map_flatMap]
      refine List.flatMap_congr fun s _ => ?_
      rw [List.map_map, List.map_map]
      refine List.map_congr_left fun a _ => ?_
      simp

/-- Factors of one element each leave one choice. -/
theorem product_singletons (s : List α) : product (s.map fun a => [a]) = [s] := by
  induction s using List.reverseRecOn with
  | nil => rfl
  | append_singleton s a ih =>
      rw [List.map_append, List.map_singleton, product_append_singleton, ih]
      rfl

theorem product_length (L : List (List α)) :
    (product L).length = (L.map List.length).prod :=
  (product_perm L).length_eq.trans (sections_length L)

theorem mem_product {L : List (List α)} {s : List α} :
    s ∈ product L ↔ Forall₂ (· ∈ ·) s L := by
  rw [(product_perm L).mem_iff, List.mem_sections]

-- ====================================================== cutting factors

/-- Choosing a part of every factor and then an element of every part
is choosing an element of every factor. -/
theorem sections_flatMap_sections (D : List (List (List α))) :
    D.sections.flatMap List.sections ~ (D.map List.flatten).sections := by
  induction D with
  | nil => simp
  | cons parts D ih =>
      rw [List.map_cons, List.sections, List.sections, List.flatMap_assoc]
      have hinner : ∀ s : List (List α),
          (parts.map fun a => a :: s).flatMap List.sections
            = parts.flatMap fun a =>
                s.sections.flatMap fun t => a.map fun x => x :: t := by
        intro s
        rw [List.flatMap_map]
        rfl
      calc D.sections.flatMap
              (fun s => (parts.map fun a => a :: s).flatMap List.sections)
          = D.sections.flatMap (fun s => parts.flatMap fun a =>
              s.sections.flatMap fun t => a.map fun x => x :: t) :=
            List.flatMap_congr fun s _ => hinner s
        _ ~ D.sections.flatMap (fun s => s.sections.flatMap fun t =>
              parts.flatMap fun a => a.map fun x => x :: t) :=
            Perm.flatMap_left _ fun s _ => flatMap_swap _ _ _
        _ = (D.sections.flatMap List.sections).flatMap fun t =>
              parts.flatten.map fun x => x :: t := by
            rw [List.flatMap_assoc]
            refine List.flatMap_congr fun s _ => ?_
            refine List.flatMap_congr fun t _ => ?_
            rw [List.map_flatten, List.flatMap_def]
        _ ~ (D.map List.flatten).sections.flatMap fun t =>
              parts.flatten.map fun x => x :: t :=
            ih.flatMap_right _

/-- The loop's picks of parts, each expanded to its product, list the
product of the uncut factors. -/
theorem product_flatMap_sections (D : List (List (List α))) :
    (product D).flatMap List.sections ~ (D.map List.flatten).sections :=
  ((product_perm D).flatMap_right _).trans (sections_flatMap_sections D)

end Sections
