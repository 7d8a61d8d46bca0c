import TreeIndex.Index
import Mathlib.Data.List.Pairwise

/-!
# What the operations of a table do to its buckets

A table is seen through the nodes that it gives for a key and through its stored
keys. As long as no two stored keys are equal, adding and removing have one
equation each on the nodes of every key, and keep the stored keys distinct. A
key is stored exactly when it has nodes.
-/
namespace TreeIndex.Table

/-- No two buckets have equal keys. -/
def DistinctKeys (table : Table) : Prop := table.Pairwise fun a b => (a.key == b.key) = false

variable {table : Table} {key k : Key} {m n : NodeId} {bucket : Bucket}

@[simp] theorem get_nil : get k [] = [] := rfl

theorem get_cons :
    get k (bucket :: table) = if bucket.key == k then bucket.nodes else get k table := by
  by_cases h : bucket.key == k <;> simp [get, h]

theorem nodes_ne_nil (bucket : Bucket) : bucket.nodes ≠ [] := by
  simpa [Bucket.nodes] using bucket.inhabited

theorem nodup_get : (get k table).Nodup := by
  induction table with
  | nil => simp
  | cons bucket table ih =>
    rw [get_cons]
    split
    · exact bucket.nodup_nodes
    · exact ih

/-- A key is equal to a stored one exactly when it has nodes. -/
theorem exists_key_iff : (∃ bucket ∈ table, bucket.key == k) ↔ get k table ≠ [] := by
  induction table with
  | nil => simp
  | cons bucket table ih =>
    rw [get_cons]
    by_cases h : bucket.key == k
    · simpa [h] using nodes_ne_nil bucket
    · simpa [h] using ih

theorem get_eq_nil_iff : get k table = [] ↔ ∀ bucket ∈ table, (bucket.key == k) = false := by
  rw [← not_iff_not, ← ne_eq, ← exists_key_iff]
  simp

theorem DistinctKeys.eq_of_key_beq (h : table.DistinctKeys) {a b : Bucket} (ha : a ∈ table)
    (hb : b ∈ table) (same : a.key == b.key) : a = b := by
  by_contra ne
  have symmetric : Std.Symm fun a b : Bucket => (a.key == b.key) = false :=
    ⟨fun a b apart => by rwa [BEq.comm]⟩
  have apart : (a.key == b.key) = false := List.Pairwise.forall h ha hb ne
  rw [apart] at same
  exact Bool.false_ne_true same

theorem key_ite_add : (if bucket.key == key then bucket.add n else bucket).key = bucket.key := by
  split <;> simp

/-- In a table that has a bucket for the key, the node goes to that bucket. -/
theorem get_map_add (table : Table) : get k (table.map fun bucket =>
      if bucket.key == key then bucket.add n else bucket) =
    if key == k ∧ n ∉ get k table ∧ get k table ≠ [] then get k table ++ [n] else get k table := by
  induction table with
  | nil => simp
  | cons bucket table ih =>
    rw [List.map_cons, get_cons, get_cons, key_ite_add]
    by_cases h : bucket.key == k
    · have same : (bucket.key == key) = (key == k) := by
        rw [BEq.congr_left h, BEq.comm]
      by_cases e : key == k
      · by_cases hn : n ∈ bucket.nodes <;> simp [h, same, e, Bucket.nodes_add, hn, nodes_ne_nil]
      · simp [h, same, e]
    · simp only [h, ih]
      rfl

theorem get_add : get k (add key n table) =
    if key == k ∧ n ∉ get k table then get k table ++ [n] else get k table := by
  unfold add
  split
  · next stored =>
    rw [get_map_add]
    by_cases e : key == k
    · have : get k table ≠ [] := by
        rw [← exists_key_iff]
        simpa [BEq.congr_right e] using stored
      simp [e, this]
    · simp [e]
  · next absent =>
    rw [get_cons]
    by_cases e : key == k
    · have : get k table = [] := by
        rw [get_eq_nil_iff]
        simpa [BEq.congr_right e] using absent
      simp [e, this]
    · simp [e]

theorem mem_get_add : m ∈ get k (add key n table) ↔ m ∈ get k table ∨ m = n ∧ key == k := by
  rw [get_add]
  split
  · next fresh => simp [fresh.1]
  · next old =>
    refine ⟨.inl, ?_⟩
    rintro (there | ⟨rfl, same⟩)
    · exact there
    · simpa [same] using old

/-- A bucket is made for a key that had no nodes, and is stored under that key. -/
theorem mem_keys_add : k ∈ (add key n table).map Bucket.key ↔
    k ∈ table.map Bucket.key ∨ k = key ∧ get key table = [] := by
  unfold add
  split
  · next stored =>
    have occupied : get key table ≠ [] := by
      rw [← exists_key_iff]
      simpa using stored
    simp [Function.comp_def, key_ite_add, occupied]
  · next absent =>
    have empty : get key table = [] := by
      rw [get_eq_nil_iff]
      simpa using absent
    simp [empty, or_comm]

theorem DistinctKeys.add (h : table.DistinctKeys) : (table.add key n).DistinctKeys := by
  unfold Table.add
  split
  · refine List.pairwise_map.2 (h.imp ?_)
    intro a b distinct
    rwa [key_ite_add, key_ite_add]
  · next absent =>
    refine List.pairwise_cons.2 ⟨?_, h⟩
    intro bucket stored
    have : (bucket.key == key) = false := by simp_all
    rwa [Bucket.key_single, BEq.comm]

/-- What is left of a bucket when a node leaves the bucket of a key. -/
theorem key_of_mem_ite_remove {rest : Bucket}
    (h : (if bucket.key == key then bucket.remove? n else some bucket) = some rest) :
    rest.key = bucket.key := by
  split at h
  · exact Bucket.key_remove? h
  · rw [Option.some.inj h]

theorem DistinctKeys.remove (h : table.DistinctKeys) : (table.remove key n).DistinctKeys := by
  refine List.pairwise_filterMap.2 (h.imp ?_)
  intro a b distinct a' ha b' hb
  rwa [key_of_mem_ite_remove ha, key_of_mem_ite_remove hb]

theorem remove_cons : remove key n (bucket :: table) =
    (if bucket.key == key then bucket.remove? n else some bucket).toList ++ remove key n table := by
  unfold remove
  rw [List.filterMap_cons]
  split <;> simp_all

theorem get_remove_of_absent (absent : ∀ bucket ∈ table, (bucket.key == k) = false) :
    get k (remove key n table) = [] := by
  rw [get_eq_nil_iff]
  intro rest hr
  obtain ⟨bucket, hb, he⟩ := List.mem_filterMap.1 hr
  rw [key_of_mem_ite_remove he]
  exact absent bucket hb

/-- A bucket of another key is not seen, whatever is left of it. -/
theorem get_toList_append {left : Option Bucket} (apart : ∀ rest ∈ left, (rest.key == k) = false) :
    get k (left.toList ++ table) = get k table := by
  cases left with
  | none => rfl
  | some rest => simp [get_cons, apart rest rfl]

/-- The head of the table is the one bucket of its key, so when nothing is left
of it there are no nodes of that key in the rest. -/
theorem get_remove (h : table.DistinctKeys) :
    get k (remove key n table) = if key == k then (get k table).erase n else get k table := by
  induction table with
  | nil => simp [remove]
  | cons bucket table ih =>
    obtain ⟨apart, others⟩ := List.pairwise_cons.1 h
    rw [remove_cons, get_cons]
    by_cases hk : bucket.key == k
    · have same : (bucket.key == key) = (key == k) := by
        rw [BEq.congr_left hk, BEq.comm]
      have gone : get k (remove key n table) = [] := by
        refine get_remove_of_absent fun other ho => ?_
        rw [← BEq.congr_right hk, BEq.comm]
        exact apart other ho
      by_cases e : key == k
      · have left := bucket.nodes_remove? n
        cases hr : bucket.remove? n with
        | none => simpa [same, e, hk, hr, gone] using left
        | some rest =>
          have stored : (rest.key == k) = true := by rw [Bucket.key_remove? hr, hk]
          simpa [same, e, hk, hr, get_cons, stored] using left
      · simp [same, e, hk, get_cons]
    · have unseen : ∀ rest ∈ (if bucket.key == key then bucket.remove? n else some bucket),
          (rest.key == k) = false := by
        intro rest hr
        rw [key_of_mem_ite_remove hr]
        simpa using hk
      rw [get_toList_append unseen, ih others]
      simp [hk]

theorem mem_get_remove (h : table.DistinctKeys) :
    m ∈ get k (remove key n table) ↔ m ∈ get k table ∧ ¬ (m = n ∧ key == k) := by
  rw [get_remove h]
  split
  · next same => simp [same, nodup_get.mem_erase_iff, and_comm]
  · next other => simp [other]

theorem get_remove_sublist (key : Key) (n : NodeId) (h : table.DistinctKeys) :
    (get k (remove key n table)).Sublist (get k table) := by
  rw [get_remove h]
  split
  · exact List.erase_sublist
  · exact List.Sublist.refl _

/-- Removing stores no key anew, and drops a key exactly when no node is left of it. -/
theorem mem_keys_remove (h : table.DistinctKeys) : k ∈ (remove key n table).map Bucket.key ↔
    k ∈ table.map Bucket.key ∧ get k (remove key n table) ≠ [] := by
  constructor
  · intro hk
    obtain ⟨rest, hr, rfl⟩ := List.mem_map.1 hk
    obtain ⟨bucket, hb, he⟩ := List.mem_filterMap.1 hr
    refine ⟨List.mem_map.2 ⟨bucket, hb, (key_of_mem_ite_remove he).symm⟩, ?_⟩
    exact exists_key_iff.1 ⟨rest, hr, BEq.rfl⟩
  · rintro ⟨hk, occupied⟩
    obtain ⟨bucket, hb, rfl⟩ := List.mem_map.1 hk
    obtain ⟨rest, hr, same⟩ := exists_key_iff.2 occupied
    obtain ⟨other, ho, he⟩ := List.mem_filterMap.1 hr
    rw [key_of_mem_ite_remove he] at same
    obtain rfl := h.eq_of_key_beq ho hb same
    exact List.mem_map.2 ⟨rest, hr, key_of_mem_ite_remove he⟩

end TreeIndex.Table
