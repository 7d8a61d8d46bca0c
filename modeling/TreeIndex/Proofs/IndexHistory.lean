import TreeIndex.Operation
import TreeIndex.Proofs.TableLaws

/-!
# An index as the outcome of its history

In the history of a run a node stands under a key from an addition on, as long as
no later event removes it there.

The main statement reads the index off the history alone: under each key it
lists the nodes that stand there, each once, by their first standing addition;
and each stored key was computed by the addition since which the key has had
nodes without a break.
-/
namespace TreeIndex

/-- The event at position `i` adds the node under an equal key, and no later
event removes it there. -/
def Stands (history : List Index.Event) (k : Key) (n : NodeId) (i : Nat) : Prop :=
  (∃ key, history[i]? = some (.added key n) ∧ key == k) ∧
    ∀ j key, i < j → history[j]? = some (.removed key n) → (key == k) = false

/-- Some node stands under the key. -/
def Occupied (history : List Index.Event) (k : Key) : Prop := ∃ n i, Stands history k n i

/-- The key was computed by an addition to no other nodes, since which some node
has stood under it all the time. -/
def Created (history : List Index.Event) (key : Key) : Prop :=
  ∃ i n, history[i]? = some (.added key n) ∧ ¬ Occupied (history.take i) key ∧
    ∀ j, i < j → j ≤ history.length → Occupied (history.take j) key

section History

variable {history : List Index.Event} {key k : Key} {m n : NodeId} {i : Nat}

theorem Stands.lt_length (h : Stands history k n i) : i < history.length := by
  obtain ⟨⟨key, at_i, -⟩, -⟩ := h
  exact (List.getElem?_eq_some_iff.1 at_i).1

theorem getElem?_concat_eq_some {last event : Index.Event} : (history ++ [last])[i]? = some event ↔
    history[i]? = some event ∨ (i = history.length ∧ last = event) := by
  rcases Nat.lt_trichotomy i history.length with h | rfl | h
  · simp [List.getElem?_append_left h, Nat.ne_of_lt h]
  · simp
  · have past : (history ++ [last])[i]? = none := by
      rw [List.getElem?_eq_none_iff, List.length_append, List.length_singleton]
      omega
    have before : history[i]? = none := by
      rw [List.getElem?_eq_none_iff]
      omega
    simp [past, before, Nat.ne_of_gt h]

theorem stands_append_added : Stands (history ++ [.added key m]) k n i ↔
    Stands history k n i ∨ (i = history.length ∧ m = n ∧ key == k) := by
  simp only [Stands, getElem?_concat_eq_some, Index.Event.added.injEq, reduceCtorEq, and_false,
    or_false]
  constructor
  · rintro ⟨⟨other, at_i | ⟨rfl, rfl, rfl⟩, same⟩, kept⟩
    · exact .inl ⟨⟨other, at_i, same⟩, kept⟩
    · exact .inr ⟨rfl, rfl, same⟩
  · rintro (⟨⟨other, at_i, same⟩, kept⟩ | ⟨rfl, rfl, same⟩)
    · exact ⟨⟨other, .inl at_i, same⟩, kept⟩
    · refine ⟨⟨key, .inr ⟨rfl, rfl, rfl⟩, same⟩, fun j other later at_j => ?_⟩
      have := (List.getElem?_eq_some_iff.1 at_j).1
      omega

theorem stands_append_removed : Stands (history ++ [.removed key m]) k n i ↔
    Stands history k n i ∧ ¬ (m = n ∧ key == k) := by
  simp only [Stands, getElem?_concat_eq_some, Index.Event.removed.injEq, reduceCtorEq, and_false,
    or_false]
  constructor
  · rintro ⟨⟨other, at_i, same⟩, kept⟩
    refine ⟨⟨⟨other, at_i, same⟩, fun j key' later at_j => kept j key' later (.inl at_j)⟩, ?_⟩
    rintro ⟨rfl, removed⟩
    have before := (List.getElem?_eq_some_iff.1 at_i).1
    simp [kept history.length key before (.inr ⟨rfl, rfl, rfl⟩)] at removed
  · rintro ⟨⟨⟨other, at_i, same⟩, kept⟩, elsewhere⟩
    refine ⟨⟨other, at_i, same⟩, ?_⟩
    rintro j key' later (at_j | ⟨rfl, rfl, rfl⟩)
    · exact kept j key' later at_j
    · simpa using elsewhere

theorem Occupied.append_added (h : Occupied history k) :
    Occupied (history ++ [.added key m]) k := by
  obtain ⟨n, i, hi⟩ := h
  exact ⟨n, i, stands_append_added.2 (.inl hi)⟩

theorem Created.occupied (h : Created history key) : Occupied history key := by
  obtain ⟨i, n, at_i, -, since⟩ := h
  simpa using since history.length (List.getElem?_eq_some_iff.1 at_i).1 (Nat.le_refl _)

/-- A key that was created stays so as long as it has nodes. -/
theorem Created.append (h : Created history key) {event : Index.Event}
    (occupied : Occupied (history ++ [event]) key) : Created (history ++ [event]) key := by
  obtain ⟨i, n, at_i, free, since⟩ := h
  have hi := (List.getElem?_eq_some_iff.1 at_i).1
  refine ⟨i, n, getElem?_concat_eq_some.2 (.inl at_i), ?_, fun j hij hj => ?_⟩
  · rwa [List.take_append_of_le_length (Nat.le_of_lt hi)]
  · rcases Nat.lt_or_ge history.length j with long | short
    · rwa [List.take_of_length_le (by simp; omega)]
    · rw [List.take_append_of_le_length short]
      exact since j hij short

/-- An addition under a key without nodes creates it. -/
theorem created_of_free (free : ¬ Occupied history key) :
    Created (history ++ [.added key n]) key := by
  refine ⟨history.length, n, by simp, by simpa using free, fun j hij hj => ?_⟩
  rw [List.take_of_length_le (by simp; omega)]
  exact ⟨n, history.length, stands_append_added.2 (.inr ⟨rfl, rfl, BEq.rfl⟩)⟩

end History

/-- What a table shows of a history. -/
structure Table.Follows (table : Table) (history : List Index.Event) : Prop where
  distinct : table.DistinctKeys
  mem_get : ∀ k n, n ∈ Table.get k table ↔ ∃ i, Stands history k n i
  ordered : ∀ k, (Table.get k table).Pairwise fun a b =>
    ∃ i, Stands history k a i ∧ ∀ j, Stands history k b j → i < j
  created : ∀ key ∈ table.map Bucket.key, Created history key

namespace Table.Follows

variable {table : Table} {history : List Index.Event} {key k : Key} {n : NodeId}

theorem nil : Table.Follows [] [] where
  distinct := List.Pairwise.nil
  mem_get k n := by simp [Stands]
  ordered k := List.Pairwise.nil
  created := by simp

theorem occupied_iff (h : ∀ n, n ∈ Table.get k table ↔ ∃ i, Stands history k n i) :
    Occupied history k ↔ Table.get k table ≠ [] := by
  simp [Occupied, ← h, List.eq_nil_iff_forall_not_mem]

/-- The new event gives the node a place after all others, or one more place
after its first. -/
theorem add (h : table.Follows history) :
    (table.add key n).Follows (history ++ [.added key n]) := by
  have members : ∀ k m, m ∈ Table.get k (table.add key n) ↔
      ∃ i, Stands (history ++ [.added key n]) k m i := by
    intro k m
    simp only [stands_append_added, exists_or, ← h.mem_get, exists_eq_left, Table.mem_get_add,
      eq_comm (a := m)]
  have old : ∀ k, (Table.get k table).Pairwise fun a b =>
      ∃ i, Stands (history ++ [.added key n]) k a i ∧
        ∀ j, Stands (history ++ [.added key n]) k b j → i < j := by
    intro k
    refine (h.ordered k).imp ?_
    rintro a b ⟨i, ha, before⟩
    refine ⟨i, stands_append_added.2 (.inl ha), fun j hb => ?_⟩
    rcases stands_append_added.1 hb with hb | ⟨rfl, -, -⟩
    · exact before j hb
    · exact ha.lt_length
  refine ⟨h.distinct.add, members, fun k => ?_, fun stored hs => ?_⟩
  · rw [Table.get_add]
    split
    · next fresh =>
      refine List.pairwise_append.2 ⟨old k, by simp, fun a ha b hb => ?_⟩
      obtain rfl := List.mem_singleton.1 hb
      obtain ⟨i, hi⟩ := (h.mem_get k a).1 ha
      refine ⟨i, stands_append_added.2 (.inl hi), fun j hj => ?_⟩
      rcases stands_append_added.1 hj with hj | ⟨rfl, -, -⟩
      · exact absurd ((h.mem_get k b).2 ⟨j, hj⟩) fresh.2
      · exact hi.lt_length
    · exact old k
  · rcases Table.mem_keys_add.1 hs with hs | ⟨rfl, free⟩
    · exact (h.created stored hs).append (h.created stored hs).occupied.append_added
    · exact created_of_free (by simpa [occupied_iff (h.mem_get stored)] using free)

/-- The new event takes one node from one bucket and moves no other. -/
theorem remove (h : table.Follows history) :
    (table.remove key n).Follows (history ++ [.removed key n]) := by
  have members : ∀ k m, m ∈ Table.get k (table.remove key n) ↔
      ∃ i, Stands (history ++ [.removed key n]) k m i := by
    intro k m
    simp only [stands_append_removed, exists_and_right, ← h.mem_get,
      Table.mem_get_remove h.distinct, eq_comm (a := m)]
  refine ⟨h.distinct.remove, members, fun k => ?_, fun stored hs => ?_⟩
  · have fewer := (h.ordered k).sublist (Table.get_remove_sublist key n h.distinct)
    refine fewer.imp_of_mem ?_
    rintro a b ha - ⟨i, hi, before⟩
    obtain ⟨_, kept⟩ := (members k a).1 ha
    refine ⟨i, stands_append_removed.2 ⟨hi, (stands_append_removed.1 kept).2⟩, fun j hj => ?_⟩
    exact before j (stands_append_removed.1 hj).1
  · obtain ⟨hs, occupied⟩ := (Table.mem_keys_remove h.distinct).1 hs
    exact (h.created stored hs).append ((occupied_iff (members stored)).2 occupied)

end Table.Follows

namespace Index.Operation

variable {history : List Index.Event} {index : Index} {s : Store}

theorem apply_eq (operation : Index.Operation) : operation.apply (index, s) =
    (match operation.event? index.key s with
      | some (.added k n) => { index with table := index.table.add k n }
      | some (.removed k n) => { index with table := index.table.remove k n }
      | none => index, operation.after s) := by
  cases operation with
  | add n =>
    cases hk : index.key s n <;>
      simp [apply, event?, after, Index.add, Index.keyOf, hk, Except.map]
  | remove n =>
    cases hk : index.key s n <;>
      simp [apply, event?, after, Index.remove, Index.keyOf, hk, Except.map]
  | change edit => rfl

/-- One operation and its event. -/
theorem follows_apply (operation : Index.Operation) (h : index.table.Follows history) :
    (operation.apply (index, s)).1.table.Follows
      (history ++ (operation.event? index.key s).toList) := by
  rw [apply_eq]
  cases operation.event? index.key s with
  | none => simpa using h
  | some event =>
    cases event with
    | added k n => exact h.add
    | removed k n => exact h.remove

theorem key_apply (operation : Index.Operation) :
    (operation.apply (index, s)).1.key = index.key := by
  rw [apply_eq]
  cases operation.event? index.key s with
  | none => rfl
  | some event => cases event <;> rfl

theorem store_apply (operation : Index.Operation) (state : Index × Store) :
    (operation.apply state).2 = operation.after state.2 := by
  rw [apply_eq]

/-- A run keeps the key function, and its table follows its history. -/
theorem follows_run (operations : List Index.Operation) (h : index.table.Follows history) :
    (run operations (index, s)).1.key = index.key ∧
    (run operations (index, s)).1.table.Follows
      (history ++ Index.Operation.history index.key operations s) := by
  induction operations generalizing index s history with
  | nil => simpa [run, Index.Operation.history] using h
  | cons operation operations ih =>
    have next := ih (s := operation.after s) (operation.follows_apply (s := s) h)
    have store : (operation.apply (index, s)).2 = operation.after s := operation.store_apply _
    rw [key_apply] at next
    simpa [run, Index.Operation.history, ← store] using next

end Index.Operation

theorem NodeId.listed_eq (n : NodeId) (nodes : List NodeId) :
    n.listed nodes = decide (n ∈ nodes) := by
  rw [Bool.eq_iff_iff, n.listed_iff, decide_eq_true_iff]

/-- What an index with a key function shows of a history and of the present store. -/
structure Index.Reflects (index : Index) (key : KeyFunction) (s : Store)
    (history : List Index.Event) : Prop where
  nodup : ∀ k, (index.get k).Nodup
  mem_get : ∀ k n, n ∈ index.get k ↔ ∃ i, Stands history k n i
  ordered : ∀ k, (index.get k).Pairwise fun a b =>
    ∃ i, Stands history k a i ∧ ∀ j, Stands history k b j → i < j
  distinct_keys : index.keys.Pairwise fun a b => (a == b) = false
  exists_key_iff : ∀ k, (∃ stored ∈ index.keys, stored == k) ↔ index.get k ≠ []
  size_eq : index.size = index.keys.length
  created : ∀ stored ∈ index.keys, Created history stored
  contains_eq : ∀ n, index.contains s n = (key s n).map fun k => decide (n ∈ index.get k)

/-- Every run from the empty index, whatever it does to the store in between. -/
theorem reflects_run (spec : KeySpec) (operations : List Index.Operation) (s : Store) :
    (Index.Operation.run operations (Index.new spec, s)).1.Reflects spec.key
      (Index.Operation.run operations (Index.new spec, s)).2
      (Index.Operation.history spec.key operations s) := by
  have start : (Index.new spec).table.Follows [] := Table.Follows.nil
  obtain ⟨key_eq, follows⟩ := Index.Operation.follows_run (s := s) operations start
  rw [List.nil_append] at follows
  exact {
    nodup := fun k => Table.nodup_get
    mem_get := follows.mem_get
    ordered := follows.ordered
    distinct_keys := List.pairwise_map.2 follows.distinct
    exists_key_iff := fun k => by
      rw [Index.get, ← Table.exists_key_iff]
      simp [Index.keys]
    size_eq := by simp [Index.size, Index.keys]
    created := follows.created
    contains_eq := fun n => by
      unfold Index.contains Index.keyOf
      rw [key_eq]
      simp only [NodeId.listed_eq]
      rfl }

end TreeIndex
