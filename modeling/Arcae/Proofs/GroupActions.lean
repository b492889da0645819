/-
What the functor of a group does is what its chunks move.

A chunk that is planned is stored value by value, whichever way it goes
(`DataChunk.Planned.chunkStores_outcome`): the places of a contiguous
chunk are consecutive, and those of any other are where the odometer
stands. So the stores of a functor are the values of its group's moves, in
that order; and the bytes it records are those of the elements it moves,
for a chunk that is not empty moves all of its elements (`Carries`). A
group with an element that the column does not hold has a functor that
fails (`groupActions_cases`). What a functor was submitted for counts the
elements that are missing as well.
-/
import Arcae.Model.FanOut
import Arcae.Proofs.Moves
import Arcae.Proofs.Grouping

namespace Arcae

open FOrder Scatter Loops

variable {α : Type} {sel : Selection} {rs : ResultShapeData} {c : DataChunk}
  {col : TableColumn α} {dtypeSize : Nat}

-- ============================================================== actions

/-- The store that an action is. -/
def Action.stored : Action α → Option (Int × α)
  | .store address value => some (address, value)
  | .record _ => none
  | .fail _ => none

/-- The bytes that an action records. -/
def Action.nbytes : Action α → Nat
  | .store _ _ => 0
  | .record nbytes => nbytes
  | .fail _ => 0

/-- The stores among some actions. -/
def storesOf (actions : List (Action α)) : List (Int × α) :=
  actions.filterMap Action.stored

/-- The bytes that some actions record. -/
def bytesOf (actions : List (Action α)) : Nat :=
  (actions.map Action.nbytes).sum

theorem storesOf_append (as bs : List (Action α)) :
    storesOf (as ++ bs) = storesOf as ++ storesOf bs :=
  List.filterMap_append

theorem bytesOf_append (as bs : List (Action α)) :
    bytesOf (as ++ bs) = bytesOf as + bytesOf bs := by
  rw [bytesOf, List.map_append, List.sum_append]
  rfl

theorem storesOf_perm {as bs : List (Action α)} (h : as.Perm bs) :
    (storesOf as).Perm (storesOf bs) :=
  h.filterMap _

theorem bytesOf_perm {as bs : List (Action α)} (h : as.Perm bs) :
    bytesOf as = bytesOf bs :=
  (h.map _).sum_eq

/-- Stores, as actions. -/
theorem storesOf_map (stores : List (Int × α)) :
    storesOf (stores.map fun v => Action.store v.1 v.2) = stores := by
  rw [storesOf, List.filterMap_map]
  exact List.filterMap_some

theorem bytesOf_map (stores : List (Int × α)) :
    bytesOf (stores.map fun v => Action.store v.1 v.2) = 0 := by
  rw [bytesOf, List.map_map]
  exact List.sum_eq_zero fun x hx => by
    obtain ⟨v, -, rfl⟩ := List.mem_map.mp hx
    rfl

-- ============================================================== a chunk

/-- The loop of `CopyChunkArray` stores each element of the array in its
place. -/
theorem DataChunk.Strided.copyStores_eq (h : c.Strided) (hpos : 0 < c.nElements)
    {data : List α} (hlen : data.length = c.nElements) :
    c.forPositions (copyStore c data) []
      = .ok (((box c.getShape).map c.bufferOffset).zip data) := by
  -- `l` is still to be walked, from offset `k` of the array on
  have key : ∀ (l : List (List Nat)) (k : Nat) (stores : List (Int × α)),
      l.map c.chunkOffset = List.range' k l.length →
      k + l.length = data.length →
      l.foldlM (fun stores pos => copyStore c data pos stores) stores
        = .ok (stores ++ (l.map c.bufferOffset).zip (data.drop k)) := by
    intro l
    induction l with
    | nil =>
        intro k stores _ _
        rw [List.map_nil, List.zip_nil_left, List.append_nil]
        rfl
    | cons pos l ih =>
        intro k stores hoff hk
        rw [List.map_cons, List.length_cons, List.range'_succ,
          List.cons.injEq] at hoff
        rw [List.length_cons] at hk
        have hlt : k < data.length := by omega
        have hturn : copyStore c data pos stores
            = .ok (stores ++ [(c.bufferOffset pos, data[k])]) := by
          rw [copyStore, hoff.1, List.getElem?_eq_getElem hlt]
        rw [List.foldlM_cons, hturn, Result.ok_bind,
          ih (k + 1) _ hoff.2 (by omega), List.map_cons,
          List.drop_eq_getElem_cons hlt, List.zip_cons_cons,
          List.append_assoc, List.singleton_append]
  rw [h.forPositions_eq hpos, key (box c.getShape) 0 []
    (by rw [h.map_chunkOffset, box_length, List.range_eq_range']; rfl)
    (by rw [box_length, Nat.zero_add, hlen]; rfl), List.drop_zero,
    List.nil_append]

/-- A planned chunk that the column holds is stored as it is moved. -/
theorem DataChunk.Planned.chunkStores_outcome (h : c.Planned sel rs)
    (hrs : rs.Consistent) (hm : sel.Matches rs) (hempty : c.isEmpty = false) :
    Outcome (chunkStores col c) (∀ m ∈ c.moves, col.Has m.2)
      (fun stores => stores = Moves.values col c.moves) (fun _ => True) := by
  have hmoves := h.moves_eq
  rw [hempty, if_neg (by simp)] at hmoves
  have hgood : (∀ t ∈ c.transfers, col.Has t.address)
      ↔ ∀ m ∈ c.moves, col.Has m.2 := by
    rw [hmoves, List.forall_mem_map]
  have hvalues : Moves.values col c.moves = c.transfers.map fun t =>
      (c.bufferIndex t.mem, col.value t.address) := by
    rw [hmoves, Moves.values, List.map_map]
    rfl
  refine ((h.readChunkArray_outcome hrs hempty col).imp hgood
    (fun _ hP => hP) fun _ hE => hE).bind fun data hdata => ?_
  rw [hdata, hvalues]
  cases hc : c.contiguous with
  | true =>
      have hoffsets := h.contiguous_offsets hrs hm hc
      rw [h.nElements_eq] at hoffsets
      rw [if_pos rfl]
      refine ⟨_, rfl, List.ext_getElem (by simp) fun i h₁ h₂ => ?_⟩
      have hi : i < c.transfers.length := by simpa using h₂
      have hoffset := List.getElem_of_eq hoffsets (by simpa using hi)
      rw [List.getElem_map, List.getElem_map, List.getElem_range] at hoffset
      simp [hoffset]
  | false =>
      have hlen : (c.transfers.map fun t => col.value t.address).length
          = c.nElements := by
        rw [List.length_map, h.nElements_eq]
      rw [if_neg (by simp), h.strided.copyStores_eq (nElements_pos hempty) hlen,
        h.transfers_eq, List.map_map, List.map_map, List.zip_map']
      refine ⟨_, rfl, List.map_congr_left fun pos _ => ?_⟩
      rw [Function.comp_apply, Function.comp_apply, DataChunk.transferAt_mem]
      rfl

/-- What some actions do to the buffer and to the statistics: they carry
these moves. -/
structure Carries (col : TableColumn α) (dtypeSize : Nat) (moves : List Move)
    (actions : List (Action α)) : Prop where
  stores : storesOf actions = Moves.values col moves
  bytes : bytesOf actions = moves.length * dtypeSize

theorem Carries.append {moves moves' : List Move}
    {actions actions' : List (Action α)}
    (h : Carries col dtypeSize moves actions)
    (h' : Carries col dtypeSize moves' actions') :
    Carries col dtypeSize (moves ++ moves') (actions ++ actions') where
  stores := by
    rw [storesOf_append, h.stores, h'.stores, Moves.values, Moves.values,
      Moves.values, List.map_append]
  bytes := by
    rw [bytesOf_append, h.bytes, h'.bytes, List.length_append, Nat.add_mul]

/-- A turn of `ReadChunks` carries the moves of a planned chunk. -/
theorem DataChunk.Planned.chunkActions_outcome (h : c.Planned sel rs)
    (hrs : rs.Consistent) (hm : sel.Matches rs) :
    Outcome (chunkActions col dtypeSize c) (∀ m ∈ c.moves, col.Has m.2)
      (Carries col dtypeSize c.moves) (fun _ => True) := by
  unfold chunkActions
  cases hempty : c.isEmpty with
  | true =>
      rw [h.moves_eq, hempty]
      exact .inl ⟨by simp, [], rfl, rfl, (Nat.zero_mul _).symm⟩
  | false =>
      have hlength : c.moves.length = c.nElements := by
        rw [h.moves_eq, hempty, if_neg (by simp), List.length_map,
          h.nElements_eq]
      rw [if_neg (by simp)]
      refine (h.chunkStores_outcome hrs hm hempty).bind fun stores hstores => ?_
      refine ⟨_, rfl, ?_, ?_⟩
      · rw [storesOf_append, storesOf_map, hstores]
        exact List.append_nil _
      · rw [bytesOf_append, bytesOf_map, hlength, Nat.zero_add]
        exact Nat.add_zero _

/-- It records no more than the bytes of the elements. -/
theorem bytesOf_chunkActions_le {actions : List (Action α)}
    (h : chunkActions col dtypeSize c = .ok actions) :
    bytesOf actions ≤ c.nElements * dtypeSize := by
  unfold chunkActions at h
  split at h
  · cases h
    exact Nat.zero_le _
  · obtain ⟨stores, -, h⟩ := Result.bind_eq_ok.mp h
    cases h
    rw [bytesOf_append, bytesOf_map, Nat.zero_add]
    exact Nat.le_refl _

-- ============================================================== a group

/-- Some of the actions is a failure. -/
def Fails (actions : List (Action α)) : Prop :=
  ∃ action ∈ actions, action.goesOn = false

/-- The functor of a group carries the moves of its chunks, or fails for
an element that is not there. -/
theorem groupActions_cases (hrs : rs.Consistent) (hm : sel.Matches rs)
    {chunks : List DataChunk} (h : ∀ c ∈ chunks, c.Planned sel rs) :
    Carries col dtypeSize (movesOf chunks) (groupActions col dtypeSize chunks)
      ∨ (¬ ∀ m ∈ movesOf chunks, col.Has m.2)
        ∧ Fails (groupActions col dtypeSize chunks) := by
  induction chunks with
  | nil => exact .inl ⟨rfl, (Nat.zero_mul _).symm⟩
  | cons c chunks ih =>
      have hsplit : movesOf (c :: chunks) = c.moves ++ movesOf chunks := rfl
      rw [groupActions, hsplit]
      rcases (h c List.mem_cons_self).chunkActions_outcome hrs hm with
        ⟨-, actions, hactions, hcarry⟩ | ⟨hbad, e, he, -⟩
      · rw [hactions]
        rcases ih fun c hc => h c (List.mem_cons_of_mem _ hc) with
          hrest | ⟨hmissing, action, haction, hfail⟩
        · exact .inl (hcarry.append hrest)
        · refine .inr ⟨fun hall => hmissing fun m hm' => ?_, action,
            List.mem_append_right _ haction, hfail⟩
          exact hall m (List.mem_append_right _ hm')
      · rw [he]
        refine .inr ⟨fun hall => hbad fun m hm' => ?_, _,
          List.mem_singleton_self _, rfl⟩
        exact hall m (List.mem_append_left _ hm')

/-- The functors of some groups carry the moves of all their chunks, or
one of them fails for an element that is not there. -/
theorem programs_cases (hrs : rs.Consistent) (hm : sel.Matches rs)
    {groups : List (List DataChunk)}
    (h : ∀ c ∈ groups.flatten, c.Planned sel rs) :
    Carries col dtypeSize (movesOf groups.flatten)
        (groups.map (groupActions col dtypeSize)).flatten
      ∨ (¬ ∀ m ∈ movesOf groups.flatten, col.Has m.2)
        ∧ Fails (groups.map (groupActions col dtypeSize)).flatten := by
  induction groups with
  | nil => exact .inl ⟨rfl, (Nat.zero_mul _).symm⟩
  | cons group groups ih =>
      have hsplit : movesOf (group ++ groups.flatten)
          = movesOf group ++ movesOf groups.flatten := List.flatMap_append
      rw [List.flatten_cons] at h
      rw [List.flatten_cons, List.map_cons, List.flatten_cons, hsplit]
      rcases groupActions_cases hrs hm fun c hc =>
          h c (List.mem_append_left _ hc) with
        hcarry | ⟨hmissing, action, haction, hfail⟩
      · rcases ih fun c hc => h c (List.mem_append_right _ hc) with
          hrest | ⟨hmissing, action, haction, hfail⟩
        · exact .inl (hcarry.append hrest)
        · refine .inr ⟨fun hall => hmissing fun m hm' => ?_, action,
            List.mem_append_right _ haction, hfail⟩
          exact hall m (List.mem_append_right _ hm')
      · refine .inr ⟨fun hall => hmissing fun m hm' => ?_, action,
          List.mem_append_left _ haction, hfail⟩
        exact hall m (List.mem_append_left _ hm')

/-- The functor of a group records no more bytes than it was submitted
for. -/
theorem bytesOf_groupActions_le (chunks : List DataChunk) :
    bytesOf (groupActions col dtypeSize chunks)
      ≤ groupCost dtypeSize chunks := by
  induction chunks with
  | nil => exact Nat.le_refl _
  | cons c chunks ih =>
      rw [groupActions, groupCost, List.map_cons, List.sum_cons]
      cases hactions : chunkActions col dtypeSize c with
      | ok actions =>
          dsimp only
          rw [bytesOf_append]
          exact Nat.add_le_add (bytesOf_chunkActions_le hactions) ih
      | error e => exact Nat.zero_le _

/-- So do the functors of some groups, together. -/
theorem bytesOf_programs_le (groups : List (List DataChunk)) :
    bytesOf (groups.map (groupActions col dtypeSize)).flatten
      ≤ (groups.map (groupCost dtypeSize)).sum := by
  induction groups with
  | nil => exact Nat.le_refl _
  | cons group groups ih =>
      rw [List.map_cons, List.flatten_cons, bytesOf_append, List.map_cons,
        List.sum_cons]
      exact Nat.add_le_add (bytesOf_groupActions_le group) ih

/-- The groups are submitted for all the elements of their chunks. -/
theorem groupCost_sum (groups : List (List DataChunk)) :
    (groups.map (groupCost dtypeSize)).sum
      = (groups.flatten.map DataChunk.nElements).sum * dtypeSize := by
  induction groups with
  | nil => exact (Nat.zero_mul _).symm
  | cons group groups ih =>
      rw [List.map_cons, List.sum_cons, ih, List.flatten_cons, List.map_append,
        List.sum_append, Nat.add_mul, groupCost, List.sum_map_mul_right]

end Arcae
