import TreeIndex.Key
import TreeIndex.Walk

/-!
# Indexes of nodes

An index groups nodes under their keys. A bucket holds each of its nodes once,
in the order in which they were added, under the key that created it; no bucket
is empty and no two have equal keys. The key of a node is computed when the node
is added, removed or asked for, and later edits move nothing. If the key
function fails, the index is left as it was. Buckets are written newest first,
so that a node or a bucket is added at the head of its list.
-/
namespace TreeIndex

def NodeId.listed (n : NodeId) : List NodeId → Bool
  | [] => false
  | m :: nodes => m.index == n.index || n.listed nodes

theorem NodeId.listed_iff (n : NodeId) (nodes : List NodeId) :
    n.listed nodes = true ↔ n ∈ nodes := by
  induction nodes with
  | nil => simp [listed]
  | cons m nodes ih =>
    have here : (m.index == n.index) = true ↔ n = m := by
      cases n; cases m; simpa using eq_comm
    simp [listed, ih, here]

structure Bucket where
  key : Key
  recent : List NodeId
  distinct : recent.Nodup
  inhabited : recent ≠ []

namespace Bucket

/-- The nodes in the order in which they were added. -/
def nodes (bucket : Bucket) : List NodeId := bucket.recent.reverse

def single (key : Key) (n : NodeId) : Bucket := ⟨key, [n], by simp, by simp⟩

/-- Appends a node that is not there yet. -/
def add (bucket : Bucket) (n : NodeId) : Bucket :=
  if h : n.listed bucket.recent then bucket
  else
    ⟨bucket.key, n :: bucket.recent,
      List.nodup_cons.2 ⟨fun k => h ((n.listed_iff _).2 k), bucket.distinct⟩, by simp⟩

/-- The bucket without a node, unless nothing is left of it. -/
def remove? (bucket : Bucket) (n : NodeId) : Option Bucket :=
  if h : bucket.recent.erase n = [] then none
  else some ⟨bucket.key, bucket.recent.erase n, bucket.distinct.erase n, h⟩

@[simp] theorem key_single (key : Key) (n : NodeId) : (single key n).key = key := rfl

@[simp] theorem nodes_single (key : Key) (n : NodeId) : (single key n).nodes = [n] := rfl

theorem nodup_nodes (bucket : Bucket) : bucket.nodes.Nodup := by
  have h := bucket.distinct
  simp only [nodes, List.Nodup, List.pairwise_reverse] at h ⊢
  exact h.imp fun ne => Ne.symm ne

@[simp] theorem key_add (bucket : Bucket) (n : NodeId) : (bucket.add n).key = bucket.key := by
  by_cases h : n.listed bucket.recent <;> simp [add, h]

theorem nodes_add (bucket : Bucket) (n : NodeId) :
    (bucket.add n).nodes =
      if n ∈ bucket.nodes then bucket.nodes else bucket.nodes ++ [n] := by
  by_cases h : n ∈ bucket.recent <;> simp [add, nodes, n.listed_iff, h]

theorem key_remove? {bucket rest : Bucket} {n : NodeId} (h : bucket.remove? n = some rest) :
    rest.key = bucket.key := by
  by_cases k : bucket.recent.erase n = []
  · simp [remove?, k] at h
  · simp only [remove?, k, dite_false, Option.some.injEq] at h
    rw [← h]

theorem erase_reverse {items : List NodeId} (n : NodeId) (h : items.Nodup) :
    items.reverse.erase n = (items.erase n).reverse := by
  have k : items.reverse.Nodup := by
    simp only [List.Nodup, List.pairwise_reverse] at h ⊢
    exact h.imp fun ne => Ne.symm ne
  rw [k.erase_eq_filter, h.erase_eq_filter, List.filter_reverse]

/-- What is left of a bucket, if anything is, is its nodes without the one. -/
theorem nodes_remove? (bucket : Bucket) (n : NodeId) :
    ((bucket.remove? n).map nodes).getD [] = bucket.nodes.erase n := by
  rw [nodes, erase_reverse n bucket.distinct]
  by_cases k : bucket.recent.erase n = [] <;> simp [remove?, k, nodes]

end Bucket

abbrev Table := List Bucket

namespace Table

/-- The nodes of the bucket of a key. -/
def get (key : Key) (table : Table) : List NodeId :=
  match table.find? fun bucket => bucket.key == key with
  | some bucket => bucket.nodes
  | none => []

def add (key : Key) (n : NodeId) (table : Table) : Table :=
  if table.any fun bucket => bucket.key == key then
    table.map fun bucket => if bucket.key == key then bucket.add n else bucket
  else Bucket.single key n :: table

def remove (key : Key) (n : NodeId) (table : Table) : Table :=
  table.filterMap fun bucket => if bucket.key == key then bucket.remove? n else some bucket

end Table

structure Index where
  key : KeyFunction
  table : Table

namespace Index

def new (spec : KeySpec) : Index := ⟨spec.key, []⟩

def get (index : Index) (key : Key) : List NodeId := index.table.get key

/-- The key under which the node would be added now. -/
def keyOf (index : Index) (s : Store) (n : NodeId) : Except Failure Key := index.key s n

def add (index : Index) (s : Store) (n : NodeId) : Except Failure Index :=
  (index.keyOf s n).map fun key => { index with table := index.table.add key n }

def remove (index : Index) (s : Store) (n : NodeId) : Except Failure Index :=
  (index.keyOf s n).map fun key => { index with table := index.table.remove key n }

def contains (index : Index) (s : Store) (n : NodeId) : Except Failure Bool :=
  (index.keyOf s n).map fun key => n.listed (index.get key)

def keys (index : Index) : List Key := index.table.map Bucket.key

def size (index : Index) : Nat := index.table.length

def isEmpty (index : Index) : Bool := index.table.isEmpty

/-- Adds every node that a walk reports. -/
def adder : Visitor Index := fun o w =>
  match w.state.add w.store o.node with
  | .error failure => (.error failure, w)
  | .ok index => (.ok .proceed, { w with state := index })

/-- Adds each node met that the check accepts. -/
def collector (check : Check) : Visitor Index := fun o w =>
  match check.accepts w.store o with
  | .error failure => (.error failure, w)
  | .ok false => (.ok .proceed, w)
  | .ok true =>
    match w.state.add w.store o.node with
    | .error failure => (.error failure, w)
    | .ok index => (.ok .proceed, { w with state := index })

/-- The index of the nodes of a tree that match a test, met on the given way.
The way leads to every node and the test is applied there. -/
def ofTreeBy (way : Traversal) (spec : KeySpec) (tree : Option NodeId) (test : Test)
    (s : Store) : Except Failure Index :=
  match tree with
  | none => .ok (new spec)
  | some root =>
    match way.run .always (collector test.compile) root ⟨s, new spec⟩ with
    | (.failed failure, _) => .error failure
    | (_, w) => .ok w.state

/-- The index of the nodes of a tree that match a test, in pre-order. -/
def ofTree (spec : KeySpec) (tree : Option NodeId) (test : Test) (s : Store) :
    Except Failure Index :=
  ofTreeBy (.preOrder .forward) spec tree test s

end Index
end TreeIndex
