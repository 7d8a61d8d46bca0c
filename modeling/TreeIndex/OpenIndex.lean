import TreeIndex.Index

/-!
# Indexes that are changed in place

An index is changed where it lies. A bucket is opened before a node goes into it,
and dropped after its last node has left, so in between it may be empty. The key is
computed before anything is touched; if that fails, the change ends there and the
index stays as it is by then.
-/
namespace TreeIndex

/-- A bucket while it is changed. It may be empty. -/
structure OpenBucket where
  key : Key
  nodes : List NodeId

def Bucket.opened (bucket : Bucket) : OpenBucket := ⟨bucket.key, bucket.nodes⟩

abbrev OpenTable := List OpenBucket

def Table.opened (table : Table) : OpenTable := table.map Bucket.opened

namespace OpenTable

/-- Opens a bucket for a key that has none. -/
def entry (key : Key) (table : OpenTable) : OpenTable :=
  if table.any fun bucket => bucket.key == key then table else ⟨key, []⟩ :: table

/-- Appends a node to the bucket of a key, unless it is there. -/
def push (key : Key) (n : NodeId) (table : OpenTable) : OpenTable :=
  table.map fun bucket =>
    if bucket.key == key ∧ n ∉ bucket.nodes then ⟨bucket.key, bucket.nodes ++ [n]⟩ else bucket

/-- Takes a node out of the bucket of a key. -/
def takeOut (key : Key) (n : NodeId) (table : OpenTable) : OpenTable :=
  table.map fun bucket =>
    if bucket.key == key then ⟨bucket.key, bucket.nodes.erase n⟩ else bucket

/-- Drops the bucket of a key if it is empty. -/
def prune (key : Key) (table : OpenTable) : OpenTable :=
  table.filter fun bucket => !(bucket.key == key && bucket.nodes.isEmpty)

end OpenTable

structure OpenIndex where
  key : KeyFunction
  table : OpenTable

def Index.opened (index : Index) : OpenIndex := ⟨index.key, index.table.opened⟩

namespace OpenIndex

/-- A change of an index in place. When it fails, the index stays as it is by then. -/
abbrev Change := ExceptT Failure (StateM OpenIndex)

/-- Computes the key of a node, which may fail. -/
def keyOf (s : Store) (n : NodeId) : Change Key := do
  MonadExcept.ofExcept ((← get).key s n)

def rewrite (f : OpenTable → OpenTable) : Change Unit :=
  modify fun index => { index with table := f index.table }

def add (s : Store) (n : NodeId) : Change Unit := do
  let key ← keyOf s n
  rewrite (OpenTable.entry key)
  rewrite (OpenTable.push key n)

def remove (s : Store) (n : NodeId) : Change Unit := do
  let key ← keyOf s n
  rewrite (OpenTable.takeOut key n)
  rewrite (OpenTable.prune key)

/-- How the change ends, and what has become of the index. -/
def applied (change : Change Unit) (index : OpenIndex) : Except Failure Unit × OpenIndex :=
  change.run.run index

end OpenIndex
end TreeIndex
