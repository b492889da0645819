/-
Loops that may fail, over `Except`.

A `for` loop that returns early on an error is a `foldlM`; a loop that
collects one result per item is a `mapM`. Their rules: an invariant
indexed by the loop counter survives the loop (`foldlM_range'_ok`), a
failing loop failed in some turn that started in the invariant
(`foldlM_range'_error`), and a `mapM` succeeds exactly when each item
does (`mapM_eq_ok`).

# Outcomes

`Outcome x good P E` is the whole specification of a fallible call: it
succeeds exactly when `good` holds, then with a value in `P`, and fails
with an error in `E` otherwise. Outcomes compose along sequences and
loops, so a caller never takes the callee apart.

# Lists

What a loop walks is related to what it makes item by item
(`forall₂_mem`). Where the items are lists with nothing in common, an
element tells which of them it is in (`eq_of_disjoint`).
-/
import Mathlib.Data.List.Forall2
import Mathlib.Data.List.Basic
import Mathlib.Data.List.Pairwise

namespace Loops

variable {ε α β σ : Type _}

/-- A successful sequence, taken apart. -/
theorem bind_eq_ok {x : Except ε α} {f : α → Except ε β} {b : β} :
    (x >>= f) = .ok b ↔ ∃ a, x = .ok a ∧ f a = .ok b := by
  cases x with
  | error e => simp [bind, Except.bind]
  | ok a => simp [bind, Except.bind]

/-- A step that succeeds and goes on. -/
theorem foldlM_cons_ok {f : σ → α → Except ε σ} {a : α} {l : List α}
    {s r : σ} :
    (a :: l).foldlM f s = .ok r ↔ ∃ s', f s a = .ok s' ∧ l.foldlM f s' = .ok r := by
  rw [List.foldlM_cons]
  cases f s a with
  | error e => simp [bind, Except.bind]
  | ok s' => simp [bind, Except.bind]

/-- A property that every turn keeps holds after the loop. -/
theorem foldlM_preserves {f : σ → α → Except ε σ} {P : σ → Prop}
    (step : ∀ s a s', P s → f s a = .ok s' → P s') :
    ∀ {l : List α} {s r : σ}, P s → l.foldlM f s = .ok r → P r := by
  intro l
  induction l with
  | nil =>
      intro s r hs h
      cases h
      exact hs
  | cons a l ih =>
      intro s r hs h
      obtain ⟨s', ha, hl⟩ := foldlM_cons_ok.mp h
      exact ih (step s a s' hs ha) hl

/-- A property that every turn of a counter keeps holds after the loop:
`P i` holds before turn `i`. -/
theorem foldlM_range'_ok {f : σ → Nat → Except ε σ} {P : Nat → σ → Prop} :
    ∀ {n a : Nat} {s r : σ},
      (∀ i s s', a ≤ i → i < a + n → P i s → f s i = .ok s' → P (i + 1) s') →
      P a s → (List.range' a n).foldlM f s = .ok r → P (a + n) r := by
  intro n
  induction n with
  | zero =>
      intro a s r _ hs h
      cases h
      exact hs
  | succ n ih =>
      intro a s r step hs h
      rw [List.range'_succ] at h
      obtain ⟨s', ha, hl⟩ := foldlM_cons_ok.mp h
      have hs' : P (a + 1) s' := step a s s' (Nat.le_refl a) (by omega) hs ha
      have hr : P (a + 1 + n) r :=
        ih (fun i s s' hi hlt => step i s s' (by omega) (by omega)) hs' hl
      rwa [show a + 1 + n = a + (n + 1) by omega] at hr

/-- A loop over a counter that fails, fails in some turn reached with
the invariant. -/
theorem foldlM_range'_error {f : σ → Nat → Except ε σ} {P : Nat → σ → Prop} :
    ∀ {n a : Nat} {s : σ} {e : ε},
      (∀ i s s', a ≤ i → i < a + n → P i s → f s i = .ok s' → P (i + 1) s') →
      P a s → (List.range' a n).foldlM f s = .error e →
      ∃ i s', a ≤ i ∧ i < a + n ∧ P i s' ∧ f s' i = .error e := by
  intro n
  induction n with
  | zero => intro a s e _ _ h; cases h
  | succ n ih =>
      intro a s e step hs h
      rw [List.range'_succ, List.foldlM_cons] at h
      cases ha : f s a with
      | error e' =>
          rw [ha] at h
          cases h
          exact ⟨a, s, Nat.le_refl a, by omega, hs, ha⟩
      | ok s' =>
          rw [ha] at h
          obtain ⟨i, s'', hi, hlt, hP, hf⟩ :=
            ih (fun i s s' hi hlt => step i s s' (by omega) (by omega))
              (step a s s' (Nat.le_refl a) (by omega) hs ha) h
          exact ⟨i, s'', by omega, by omega, hP, hf⟩

/-- A `mapM` succeeds with one result per item. -/
theorem mapM_eq_ok {f : α → Except ε β} :
    ∀ {l : List α} {r : List β},
      l.mapM f = .ok r ↔ List.Forall₂ (fun a b => f a = .ok b) l r := by
  intro l
  induction l with
  | nil =>
      intro r
      rw [List.mapM_nil, List.forall₂_nil_left_iff]
      exact ⟨fun h => (Except.ok.inj h).symm, fun h => h ▸ rfl⟩
  | cons a l ih =>
      intro r
      rw [List.mapM_cons, List.forall₂_cons_left_iff]
      cases ha : f a with
      | error e => simp [bind, Except.bind]
      | ok b =>
          cases hl : l.mapM f with
          | error e =>
              simp only [bind, Except.bind, reduceCtorEq, false_iff]
              intro hx
              obtain ⟨b', r', -, hr', -⟩ := hx
              rw [← ih, hl] at hr'
              cases hr'
          | ok bs =>
              simp only [bind, Except.bind, pure, Except.pure,
                Except.ok.injEq]
              constructor
              · intro heq
                subst heq
                exact ⟨b, bs, rfl, ih.mp hl, rfl⟩
              · intro hx
                obtain ⟨b', r', rfl, hr', rfl⟩ := hx
                have hbs : bs = r' := by
                  rw [← ih, hl] at hr'
                  exact Except.ok.inj hr'
                rw [hbs]

/-- A check of every item succeeds when each of them does. -/
theorem forM_eq_ok {f : α → Except ε PUnit} {l : List α} {u : PUnit} :
    l.forM f = .ok u ↔ ∀ a ∈ l, f a = .ok ⟨⟩ := by
  induction l with
  | nil => exact ⟨fun _ => by simp, fun _ => rfl⟩
  | cons a l ih =>
      have hcons : (a :: l).forM f = (f a >>= fun _ => l.forM f) := rfl
      rw [hcons, List.forall_mem_cons, ← ih]
      cases f a with
      | error e => simp [bind, Except.bind]
      | ok v => simp [bind, Except.bind]

/-- Mapping the value keeps the error. -/
theorem map_eq_error {x : Except ε α} {f : α → β} {e : ε} :
    x.map f = .error e ↔ x = .error e := by
  cases x with
  | error e' => exact ⟨fun h => by cases h; rfl, fun h => by cases h; rfl⟩
  | ok a => exact ⟨(fun h => by cases h), (fun h => by cases h)⟩

/-- A check of a counter passes, or stops at the first turn that
fails. -/
theorem forM_range_cases {f : Nat → Except ε PUnit} {n : Nat} :
    ((∀ i < n, f i = .ok ⟨⟩) ∧ (List.range n).forM f = .ok ⟨⟩)
      ∨ ∃ k < n, ∃ e, (∀ i < k, f i = .ok ⟨⟩) ∧ f k = .error e
          ∧ (List.range n).forM f = .error e := by
  induction n with
  | zero => exact .inl ⟨fun i hi => by omega, rfl⟩
  | succ n ih =>
      have hsplit : (List.range (n + 1)).forM f
          = ((List.range n).forM f >>= fun _ => f n) := by
        rw [List.range_succ]
        generalize List.range n = l
        induction l with
        | nil =>
            show (f n >>= fun _ => pure ⟨⟩) = f n
            cases f n <;> rfl
        | cons a l ihl =>
            show (f a >>= fun _ => (l ++ [n]).forM f)
              = ((f a >>= fun _ => l.forM f) >>= fun _ => f n)
            rw [ihl]
            cases f a <;> rfl
      rw [hsplit]
      rcases ih with ⟨hall, hok⟩ | ⟨k, hk, e, hall, hfail, herror⟩
      · rw [hok]
        cases hn : f n with
        | error e => exact .inr ⟨n, Nat.lt_succ_self n, e, hall, hn, rfl⟩
        | ok u =>
            refine .inl ⟨fun i hi => ?_, rfl⟩
            rcases Nat.lt_succ_iff_lt_or_eq.mp hi with hi | rfl
            · exact hall i hi
            · exact hn
      · rw [herror]
        exact .inr ⟨k, Nat.lt_succ_of_lt hk, e, hall, hfail, rfl⟩

/-- Two lists related item by item, the first one ending in `a`. -/
theorem forall₂_concat {R : α → β → Prop} {l : List α} {a : α} {m : List β} :
    List.Forall₂ R (l ++ [a]) m
      ↔ ∃ m' b, m = m' ++ [b] ∧ List.Forall₂ R l m' ∧ R a b := by
  constructor
  · induction l generalizing m with
    | nil =>
        intro hx
        obtain (_ | ⟨hab, htail⟩) := hx
        cases htail
        exact ⟨[], _, rfl, .nil, hab⟩
    | cons x l ih =>
        intro hx
        obtain (_ | ⟨hxy, htail⟩) := hx
        obtain ⟨m', b, rfl, hm, hab⟩ := ih htail
        exact ⟨_ :: m', b, rfl, .cons hxy hm, hab⟩
  · intro hx
    obtain ⟨m', b, rfl, hm, hab⟩ := hx
    exact List.rel_append hm (.cons hab .nil)

/-- Items related one by one are items of their lists. -/
theorem forall₂_mem {R : α → β → Prop} {l : List α} {m : List β}
    (h : List.Forall₂ R l m) :
    List.Forall₂ (fun a b => a ∈ l ∧ b ∈ m ∧ R a b) l m := by
  induction h with
  | nil => exact .nil
  | cons hab _ ih =>
      refine .cons ⟨List.mem_cons_self, List.mem_cons_self, hab⟩ (ih.imp ?_)
      intro a b hx
      obtain ⟨ha, hb, hR⟩ := hx
      exact ⟨List.mem_cons_of_mem _ ha, List.mem_cons_of_mem _ hb, hR⟩

theorem forall₂_mem_right {R : α → β → Prop} {l : List α} {m : List β}
    (h : List.Forall₂ R l m) {b : β} (hb : b ∈ m) : ∃ a ∈ l, R a b := by
  induction h with
  | nil => cases hb
  | cons hab _ ih =>
      rcases List.mem_cons.mp hb with rfl | hb
      · exact ⟨_, List.mem_cons_self, hab⟩
      · obtain ⟨a, ha, hR⟩ := ih hb
        exact ⟨a, List.mem_cons_of_mem _ ha, hR⟩

/-- Two lists related to a third are related through it. -/
theorem forall₂_comp {γ : Type _} {R : α → β → Prop} {S : α → γ → Prop}
    {l : List α} {m : List β} {n : List γ} (h : List.Forall₂ R l m)
    (h' : List.Forall₂ S l n) :
    List.Forall₂ (fun b c => ∃ a, R a b ∧ S a c) m n := by
  induction h generalizing n with
  | nil =>
      cases h'
      exact .nil
  | cons hab _ ih =>
      cases h' with
      | cons hac h' => exact .cons ⟨_, hab, hac⟩ (ih h')

/-- Two lists count alike if their items do. -/
theorem forall₂_countP {R : α → β → Prop} {p : α → Bool} {q : β → Bool}
    (hpq : ∀ a b, R a b → p a = q b) {l : List α} {m : List β}
    (h : List.Forall₂ R l m) : l.countP p = m.countP q := by
  induction h with
  | nil => rfl
  | cons hab _ ih =>
      rw [List.countP_cons, List.countP_cons, ih, hpq _ _ hab]

/-- The items that relate two lists form a list themselves. -/
theorem forall₂_exists {γ : Type _} {R : α → β → Prop} {S : α → γ → Prop}
    {m : List β} {n : List γ}
    (h : List.Forall₂ (fun b c => ∃ a, R a b ∧ S a c) m n) :
    ∃ l, List.Forall₂ R l m ∧ List.Forall₂ S l n := by
  induction h with
  | nil => exact ⟨[], .nil, .nil⟩
  | cons hbc _ ih =>
      obtain ⟨a, hR, hS⟩ := hbc
      obtain ⟨l, hl, hl'⟩ := ih
      exact ⟨a :: l, .cons hR hl, .cons hS hl'⟩

/-- If every item succeeds, so does the `mapM`. -/
theorem mapM_ok_of_forall {f : α → Except ε β} {g : α → β} {l : List α}
    (h : ∀ a ∈ l, f a = .ok (g a)) : l.mapM f = .ok (l.map g) := by
  rw [mapM_eq_ok, List.forall₂_map_right_iff, List.forall₂_same]
  exact h

/-- A failing `mapM` failed on some item. -/
theorem mapM_error {f : α → Except ε β} {l : List α} {e : ε}
    (h : l.mapM f = .error e) : ∃ a ∈ l, f a = .error e := by
  induction l with
  | nil => cases h
  | cons a l ih =>
      rw [List.mapM_cons] at h
      cases ha : f a with
      | error e' =>
          rw [ha] at h
          cases h
          exact ⟨a, List.mem_cons_self, ha⟩
      | ok b =>
          rw [ha] at h
          cases hl : l.mapM f with
          | error e' =>
              rw [hl] at h
              cases h
              obtain ⟨x, hx, hfx⟩ := ih hl
              exact ⟨x, List.mem_cons_of_mem _ hx, hfx⟩
          | ok bs =>
              rw [hl] at h
              cases h

/-- A `mapM` one of whose items fails cannot succeed. -/
theorem mapM_isError {f : α → Except ε β} {l : List α} {a : α} (ha : a ∈ l)
    (h : ∃ e, f a = .error e) : ∃ e, l.mapM f = .error e := by
  cases hl : l.mapM f with
  | error e => exact ⟨e, rfl⟩
  | ok r =>
      obtain ⟨b, hb⟩ : ∃ b, f a = .ok b := by
        have hall := mapM_eq_ok.mp hl
        clear hl h
        induction hall with
        | nil => cases ha
        | cons hab _ ih =>
            rcases List.mem_cons.mp ha with rfl | ha
            · exact ⟨_, hab⟩
            · exact ih ha
      obtain ⟨e, he⟩ := h
      rw [hb] at he
      cases he


/-- Of lists that have nothing in common, at most one has an element. -/
theorem length_le_one_of_disjoint {f : α → List β} {b : β} {l : List α}
    (h : l.Pairwise (Function.onFun List.Disjoint f)) (hb : ∀ x ∈ l, b ∈ f x) :
    l.length ≤ 1 := by
  cases l with
  | nil => exact Nat.zero_le 1
  | cons x rest =>
      cases rest with
      | nil => exact Nat.le_refl 1
      | cons y rest =>
          have hapart := (List.pairwise_cons.mp h).1 y List.mem_cons_self
          exact absurd (hb y (by simp)) (hapart (hb x (by simp)))

/-- And an element is in no two of them. -/
theorem eq_of_disjoint {f : α → List β} {l : List α}
    (h : l.Pairwise (Function.onFun List.Disjoint f)) {x y : α} (hx : x ∈ l)
    (hy : y ∈ l) {b : β} (hb : b ∈ f x) (hb' : b ∈ f y) : x = y := by
  by_contra hne
  have hsymm : Std.Symm (Function.onFun List.Disjoint f) :=
    ⟨fun _ _ hapart _ hb hb' => hapart hb' hb⟩
  exact h.forall hx hy hne hb hb'

-- =============================================================== outcomes

/-- The call succeeds, with a value in `P`, exactly when `good` holds;
otherwise it fails, with an error in `E`. -/
def Outcome (x : Except ε β) (good : Prop) (P : β → Prop) (E : ε → Prop) :
    Prop :=
  (good ∧ ∃ b, x = .ok b ∧ P b) ∨ (¬ good ∧ ∃ e, x = .error e ∧ E e)

namespace Outcome

variable {γ : Type _} {x : Except ε β} {good : Prop} {P : β → Prop}
  {E : ε → Prop}

theorem of_good (h : Outcome x good P E) (hg : good) : ∃ b, x = .ok b ∧ P b := by
  rcases h with ⟨-, hb⟩ | ⟨hng, -⟩
  · exact hb
  · exact absurd hg hng

theorem of_not_good (h : Outcome x good P E) (hg : ¬ good) :
    ∃ e, x = .error e ∧ E e := by
  rcases h with ⟨hg', -⟩ | ⟨-, he⟩
  · exact absurd hg' hg
  · exact he

theorem of_ok (h : Outcome x good P E) {b : β} (hb : x = .ok b) :
    good ∧ P b := by
  rcases h with ⟨hg, b', hb', hP⟩ | ⟨-, e, he, -⟩
  · rw [hb] at hb'
    cases hb'
    exact ⟨hg, hP⟩
  · rw [hb] at he
    cases he

/-- The condition may be restated, the value and the error weakened. -/
theorem imp {good' : Prop} {P' : β → Prop} {E' : ε → Prop}
    (h : Outcome x good P E) (hg : good ↔ good') (hP : ∀ b, P b → P' b)
    (hE : ∀ e, E e → E' e) : Outcome x good' P' E' := by
  rcases h with ⟨hgood, b, hb, hPb⟩ | ⟨hngood, e, he, hEe⟩
  · exact .inl ⟨hg.mp hgood, b, hb, hP b hPb⟩
  · exact .inr ⟨fun hg' => hngood (hg.mpr hg'), e, he, hE e hEe⟩

/-- The value in `P` is the one the call returned. -/
theorem and_eq (h : Outcome x good P E) :
    Outcome x good (fun b => x = .ok b ∧ P b) E := by
  rcases h with ⟨hg, b, hb, hP⟩ | hn
  · exact .inl ⟨hg, b, hb, hb, hP⟩
  · exact .inr hn

/-- A call that returned a value was good. -/
theorem and_good (h : Outcome x good P E) :
    Outcome x good (fun b => good ∧ P b) E := by
  rcases h with ⟨hg, b, hb, hP⟩ | hn
  · exact .inl ⟨hg, b, hb, hg, hP⟩
  · exact .inr hn

/-- A step that cannot fail on the values it is given. -/
theorem bind {f : β → Except ε γ} {Q : γ → Prop} (h : Outcome x good P E)
    (hf : ∀ b, P b → ∃ c, f b = .ok c ∧ Q c) :
    Outcome (x >>= f) good Q E := by
  rcases h with ⟨hgood, b, hb, hPb⟩ | ⟨hngood, e, he, hEe⟩
  · obtain ⟨c, hc, hQ⟩ := hf b hPb
    exact .inl ⟨hgood, c, by rw [hb]; exact hc, hQ⟩
  · exact .inr ⟨hngood, e, by rw [he]; rfl, hEe⟩

/-- A loop that collects one result per item succeeds when all items
do. -/
theorem mapM {f : α → Except ε β} {good : α → Prop} {P : α → β → Prop}
    {E : ε → Prop} {l : List α}
    (h : ∀ a ∈ l, Outcome (f a) (good a) (P a) E) :
    Outcome (l.mapM f) (∀ a ∈ l, good a) (List.Forall₂ P l) E := by
  induction l with
  | nil => exact .inl ⟨by simp, [], rfl, .nil⟩
  | cons a l ih =>
      have hl := ih fun b hb => h b (List.mem_cons_of_mem _ hb)
      have ha := h a List.mem_cons_self
      rcases ha with ⟨hgood, b, hb, hPb⟩ | ⟨hngood, e, he, hEe⟩
      · rcases hl with ⟨hgoods, bs, hbs, hPbs⟩ | ⟨hngoods, e, he, hEe⟩
        · refine .inl ⟨List.forall_mem_cons.mpr ⟨hgood, hgoods⟩, b :: bs, ?_,
            .cons hPb hPbs⟩
          rw [List.mapM_cons, hb, hbs]
          rfl
        · refine .inr ⟨fun hall => hngoods (List.forall_mem_cons.mp hall).2,
            e, ?_, hEe⟩
          rw [List.mapM_cons, hb, he]
          rfl
      · refine .inr ⟨fun hall => hngood (List.forall_mem_cons.mp hall).1, e,
          ?_, hEe⟩
        rw [List.mapM_cons, he]
        rfl

/-- A loop over a counter, whose state follows the invariant, succeeds
when all of its turns do. -/
theorem foldlM_range' {σ : Type _} {f : σ → Nat → Except ε σ}
    {good : Nat → Prop} {P : Nat → σ → Prop} {E : ε → Prop} :
    ∀ {n a : Nat} {s : σ},
      (∀ i s, a ≤ i → i < a + n → P i s →
        Outcome (f s i) (good i) (P (i + 1)) E) →
      P a s →
      Outcome ((List.range' a n).foldlM f s) (∀ i, a ≤ i → i < a + n → good i)
        (P (a + n)) E := by
  intro n
  induction n with
  | zero =>
      intro a s _ hs
      exact .inl ⟨fun i _ _ => by omega, s, rfl, hs⟩
  | succ n ih =>
      intro a s step hs
      rw [List.range'_succ, List.foldlM_cons]
      have hend : a + 1 + n = a + (n + 1) := by omega
      rcases step a s (Nat.le_refl a) (by omega) hs with
        ⟨hgood, s', hs', hP⟩ | ⟨hbad, e, he, hE⟩
      · have hrest := ih (a := a + 1) (s := s')
          (fun i s hi hlt => step i s (by omega) (by omega)) hP
        rw [hend] at hrest
        rw [hs']
        refine hrest.imp ⟨fun hall i hi hlt => ?_,
          fun hall i hi hlt => hall i (by omega) hlt⟩ (fun _ h => h) fun _ h => h
        rcases Nat.lt_or_eq_of_le hi with hi | rfl
        · exact hall i hi hlt
        · exact hgood
      · rw [he]
        exact .inr ⟨fun hall => hbad (hall a (Nat.le_refl a) (by omega)), e,
          rfl, hE⟩

/-- The same over a counter from zero. -/
theorem foldlM_range {σ : Type _} {f : σ → Nat → Except ε σ}
    {good : Nat → Prop} {P : Nat → σ → Prop} {E : ε → Prop} {n : Nat} {s : σ}
    (step : ∀ i s, i < n → P i s → Outcome (f s i) (good i) (P (i + 1)) E)
    (hs : P 0 s) :
    Outcome ((List.range n).foldlM f s) (∀ i < n, good i) (P n) E := by
  rw [List.range_eq_range']
  have h := foldlM_range' (n := n) (fun i s _ hi => step i s (by omega)) hs
  rw [Nat.zero_add] at h
  exact h.imp ⟨fun hall i hi => hall i (Nat.zero_le i) hi,
    fun hall i _ hi => hall i hi⟩ (fun _ h => h) fun _ h => h

/-- A check of every item passes when each of them does. -/
theorem forM {f : α → Except ε PUnit} {good : α → Prop} {E : ε → Prop}
    {l : List α} (h : ∀ a ∈ l, Outcome (f a) (good a) (fun _ => True) E) :
    Outcome (l.forM f) (∀ a ∈ l, good a) (fun _ => True) E := by
  induction l with
  | nil => exact .inl ⟨by simp, ⟨⟩, rfl, trivial⟩
  | cons a l ih =>
      have hl := ih fun b hb => h b (List.mem_cons_of_mem _ hb)
      have hcons : (a :: l).forM f = (f a >>= fun _ => l.forM f) := rfl
      rw [hcons]
      rcases h a List.mem_cons_self with ⟨hgood, u, hu, -⟩ | ⟨hbad, e, he, hE⟩
      · rw [hu]
        refine hl.imp ?_ (fun _ h => h) fun _ h => h
        rw [List.forall_mem_cons]
        exact ⟨fun hall => ⟨hgood, hall⟩, And.right⟩
      · rw [he]
        exact .inr ⟨fun hall => hbad (List.forall_mem_cons.mp hall).1, e, rfl, hE⟩

end Outcome

end Loops
