/-
How even a pass of cuts leaves its groups when "full" means that the
items seen reach the share of the groups closed with the open one
(`Cuts.Full`).

Two things close a group behind an item. It reached its share: then it
had not behind the item before, so but for its last item it holds no more
than lies between two neighbouring shares. Or the items left are just
enough for the groups left: then every group from the next one on is a
single item. `Shared` is what a turn keeps of this, group by group, and
`Shared.bound` what is left at the end: no group outweighs an even share
by more than one of its own items.

Any other way to deal the same items to as many groups has a group with
at least an even share, and a group with the heaviest item. So no group
of the pass is heavier than twice the heaviest group of the best way
(`exists_half`).
-/
import Mathlib.Algebra.Order.BigOperators.Group.List
import Mathlib.Algebra.Order.Ring.Nat
import Arcae.Lib.Cuts

namespace Cuts

-- ============================================================== the shares

/-- The weight of the items before item `c`. -/
def seen (w : List Nat) (c : Nat) : Nat := (w.take c).sum

/-- The share of the first `g` of `k` groups. -/
def share (w : List Nat) (k g : Nat) : Nat := w.sum * g / k

/-- Behind item `c` the open group is full: the groups closed with it
would have their share. -/
def Full (w : List Nat) (k : Nat) (ends : List Nat) (c : Nat) : Prop :=
  share w k (ends.length + 1) ≤ seen w (c + 1)

instance (w : List Nat) (k : Nat) (ends : List Nat) (c : Nat) :
    Decidable (Full w k ends c) :=
  inferInstanceAs (Decidable (_ ≤ _))

/-- Where the open group starts. -/
def opening (ends : List Nat) : Nat := ends.getLastD 0

variable {w : List Nat} {n k c : Nat} {ends : List Nat}

theorem seen_succ (hc : c < w.length) : seen w (c + 1) = seen w c + w[c] := by
  rw [seen, seen, List.take_add_one, List.getElem?_eq_getElem hc,
    List.sum_append]
  rfl

theorem seen_mono {a b : Nat} (h : a ≤ b) : seen w a ≤ seen w b :=
  (List.take_sublist_take_left h).sum_le_sum fun _ _ => Nat.zero_le _

theorem seen_length : seen w w.length = w.sum := by
  rw [seen, List.take_length]

theorem share_zero : share w k 0 = 0 := by
  rw [share, Nat.mul_zero, Nat.zero_div]

/-- All groups together have all the weight. -/
theorem share_all (hk : 0 < k) : share w k k = w.sum :=
  Nat.mul_div_cancel _ hk

/-- Neighbouring shares are an even share apart, rounded up at most. -/
theorem share_succ_le (hk : 0 < k) (g : Nat) :
    share w k (g + 1) ≤ share w k g + w.sum / k + 1 := by
  rw [share, share, Nat.mul_succ, Nat.add_div hk]
  split
  · exact Nat.le_refl _
  · exact Nat.le_succ _

-- ================================================================ one turn

/-- The groups closed before item `c`, and the open one. -/
structure Shared (w : List Nat) (k c : Nat) (ends : List Nat) : Prop where
  closed : ∀ g ∈ (0 :: ends).zip ends,
    seen w (g.2 - 1) ≤ seen w g.1 + w.sum / k
  opened : share w k ends.length ≤ seen w (opening ends)
    ∨ w.length + ends.length ≤ k + opening ends
  short : ends.length + 1 < k → opening ends < c →
    seen w c < share w k (ends.length + 1)

/-- Before the first item no group is closed, and the open one has
nothing. -/
theorem Shared.start : Shared w k 0 [] where
  closed := by simp
  opened := by
    rw [List.length_nil, share_zero]
    exact .inl (Nat.zero_le _)
  short := fun _ h => absurd h (Nat.not_lt_zero _)

/-- One more end closes the group that was open. -/
theorem zip_concat (s e : Nat) (ends : List Nat) :
    (s :: (ends ++ [e])).zip (ends ++ [e])
      = (s :: ends).zip ends ++ [(ends.getLastD s, e)] := by
  induction ends generalizing s with
  | nil => rfl
  | cons a ends ih =>
      rw [List.cons_append, List.zip_cons_cons, ih, List.zip_cons_cons,
        List.cons_append, List.getLastD_cons]

/-- The open group starts no later than the item looked at. -/
theorem Before.opening_le (h : Before n k c ends) :
    opening ends ≤ c := by
  rcases List.eq_nil_or_concat ends with rfl | hends
  · exact Nat.zero_le c
  · obtain ⟨l, e, rfl⟩ := hends
    rw [opening, List.concat_eq_append, List.getLastD_concat]
    exact (h.passed e (by simp)).1

/-- The open group as it is closed behind item `c`: up to that item it
holds an even share at most. -/
theorem Shared.before_last (h : Shared w k c ends) (hb : Before n k c ends)
    (hn : w.length = n) (hmore : ends.length + 1 < k) :
    seen w c ≤ seen w (opening ends) + w.sum / k := by
  rcases Nat.eq_or_lt_of_le hb.opening_le with hfirst | hlater
  · rw [hfirst]
    exact Nat.le_add_right _ _
  · have hshort := h.short hmore hlater
    have hstep := share_succ_le (w := w) (k := k) (by omega) ends.length
    rcases h.opened with hshare | hforced
    · omega
    · -- an open group that had to be a single item is at its first item
      rcases hb.left with hk | hleft
      · omega
      · omega

/-- A turn keeps what is known of the groups. -/
theorem Shared.step (h : Shared w k c ends) (hb : Before n k c ends)
    (hn : w.length = n) :
    Shared w k (c + 1) (Cuts.step n k (Full w k ends c) ends c) := by
  unfold Cuts.step
  split
  case isTrue hclose =>
    obtain ⟨hmore, hwhy⟩ := hclose
    have hstart : opening (ends ++ [c + 1]) = c + 1 := List.getLastD_concat
    have hlen : (ends ++ [c + 1]).length = ends.length + 1 := by simp
    refine ⟨fun g hg => ?_, ?_, fun _ hlt => ?_⟩
    · rw [zip_concat] at hg
      rcases List.mem_append.mp hg with hg | hg
      · exact h.closed g hg
      · rw [List.mem_singleton.mp hg]
        exact h.before_last hb hn hmore
    · rw [hstart, hlen]
      rcases hwhy with hfull | hleft
      · exact .inl hfull
      · exact .inr (by omega)
    · rw [hstart] at hlt
      exact absurd hlt (Nat.lt_irrefl _)
  case isFalse hopen =>
    refine ⟨h.closed, h.opened, fun hmore _ => ?_⟩
    apply Nat.lt_of_not_le
    intro hfull
    exact hopen ⟨hmore, .inl hfull⟩

-- ============================================================== all groups

/-- A group from `g.1` to `g.2` outweighs an even share by one of its own
items at most. -/
def Even (w : List Nat) (k : Nat) (g : Nat × Nat) : Prop :=
  ∃ i, ∃ h : i < w.length, g.1 ≤ i ∧ i < g.2
    ∧ seen w g.2 ≤ seen w g.1 + w.sum / k + w[i]

/-- A stretch with weight has an item with weight. -/
theorem exists_weight {a b : Nat} (hb : b ≤ w.length)
    (hlt : seen w a < seen w b) :
    ∃ i, ∃ h : i < w.length, a ≤ i ∧ i < b ∧ 1 ≤ w[i] := by
  induction b with
  | zero => exact absurd hlt (Nat.not_lt_zero _)
  | succ b ih =>
      rw [seen_succ (Nat.lt_of_succ_le hb)] at hlt
      rcases Nat.lt_or_ge (seen w a) (seen w b) with hbefore | hhere
      · obtain ⟨i, hi, hai, hib, hw⟩ := ih (Nat.le_of_succ_le hb) hbefore
        exact ⟨i, hi, hai, Nat.lt_succ_of_lt hib, hw⟩
      · have hab : a ≤ b := by
          apply Nat.le_of_not_lt
          intro hba
          have hpre : seen w (b + 1) ≤ seen w a := seen_mono hba
          rw [seen_succ (Nat.lt_of_succ_le hb)] at hpre
          omega
        exact ⟨b, Nat.lt_of_succ_le hb, hab, Nat.lt_succ_self b, by omega⟩

/-- After the last item every group is even, the last one included. -/
theorem Shared.even (h : Shared w k n ends) (hb : Before n k n ends)
    (hn : w.length = n) {g : Nat × Nat}
    (hg : g ∈ (0 :: (ends ++ [n])).zip (ends ++ [n])) (hlt : g.1 < g.2)
    (hle : g.2 ≤ n) : Even w k g := by
  subst hn
  have hclosed := hb.closed
  -- all but the last item of the group weigh no more than an even share
  have of_last : seen w (g.2 - 1) ≤ seen w g.1 + w.sum / k → Even w k g := by
    intro hlast
    have hi : g.2 - 1 < w.length := by omega
    have hall : seen w g.2 = seen w (g.2 - 1) + w[g.2 - 1] := by
      rw [← seen_succ hi, Nat.sub_add_cancel (by omega)]
    refine ⟨g.2 - 1, hi, by omega, by omega, ?_⟩
    rw [hall]
    exact Nat.add_le_add_right hlast _
  rw [zip_concat] at hg
  rcases List.mem_append.mp hg with hg | hg
  · exact of_last (h.closed g hg)
  · have hg := List.mem_singleton.mp hg
    subst hg
    rcases h.opened with hshare | hforced
    · have hstep := share_succ_le (w := w) (k := k) (by omega) ends.length
      rw [hclosed, share_all (by omega)] at hstep
      rcases Nat.lt_or_ge (seen w (opening ends)) (seen w w.length) with
        hsome | hnone
      · obtain ⟨i, hi, hai, hib, hone⟩ :=
          exists_weight (Nat.le_refl _) hsome
        refine ⟨i, hi, hai, hib, ?_⟩
        show seen w w.length ≤ seen w (opening ends) + w.sum / k + w[i]
        rw [seen_length]
        omega
      · apply of_last
        have hpre : seen w (w.length - 1) ≤ seen w w.length :=
          seen_mono (Nat.sub_le _ _)
        exact Nat.le_trans hpre (Nat.le_trans hnone (Nat.le_add_right _ _))
    · apply of_last
      have hstart : w.length - 1 ≤ opening ends := by omega
      have hpre : seen w (w.length - 1) ≤ seen w (opening ends) :=
        seen_mono hstart
      exact Nat.le_trans hpre (Nat.le_add_right _ _)

-- =========================================================== any other way

/-- Of at most `k` parts one has at least an even share. -/
theorem exists_share_le {split : List (List Nat)} (hne : split ≠ [])
    (hk : split.length ≤ k) :
    ∃ part ∈ split, split.flatten.sum / k ≤ part.sum := by
  have hpos : 0 < split.length := List.length_pos_of_ne_nil hne
  by_contra hall
  push Not at hall
  have hone : 1 ≤ split.flatten.sum / k := by
    have := hall (split.head hne) (List.head_mem hne)
    omega
  have hless : ∀ x ∈ split.map List.sum, x ≤ split.flatten.sum / k - 1 := by
    intro x hx
    obtain ⟨part, hpart, rfl⟩ := List.mem_map.mp hx
    have := hall part hpart
    omega
  have hsum : split.flatten.sum ≤ k * (split.flatten.sum / k - 1) :=
    calc split.flatten.sum = (split.map List.sum).sum := List.sum_flatten
      _ ≤ split.length * (split.flatten.sum / k - 1) := by
        have := List.sum_le_card_nsmul _ _ hless
        rw [List.length_map, Nat.nsmul_eq_mul] at this
        exact this
      _ ≤ k * (split.flatten.sum / k - 1) := Nat.mul_le_mul_right _ hk
  have hback := Nat.mul_div_le split.flatten.sum k
  rw [Nat.mul_sub_one] at hsum
  have hfew : k ≤ k * (split.flatten.sum / k) := Nat.le_mul_of_pos_right _ hone
  omega

/-- A weight within an even share and one item is within twice a part of
any way to deal the items to `k` parts. -/
theorem exists_half {split : List (List Nat)} (hk : split.length ≤ k)
    {v x : Nat} (hv : v ∈ split.flatten)
    (hx : x ≤ split.flatten.sum / k + v) : ∃ part ∈ split, x ≤ 2 * part.sum := by
  obtain ⟨holder, hholder, hmem⟩ := List.mem_flatten.mp hv
  have hne : split ≠ [] := List.ne_nil_of_mem hholder
  obtain ⟨heavy, hheavy, hshare⟩ := exists_share_le hne hk
  have hitem : v ≤ holder.sum :=
    List.single_le_sum (fun _ _ => Nat.zero_le _) v hmem
  rcases Nat.le_total heavy.sum holder.sum with hle | hle
  · exact ⟨holder, hholder, by omega⟩
  · exact ⟨heavy, hheavy, by omega⟩

end Cuts
