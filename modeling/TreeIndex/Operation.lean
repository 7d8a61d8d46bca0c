import TreeIndex.Index

/-!
# Operations on an index

A run adds nodes to an index, removes nodes from it and changes the store in
between, in any order. Its history keeps of this the keys that were computed for
the nodes added and removed.
-/
namespace TreeIndex

inductive Index.Operation where
  | add (n : NodeId)
  | remove (n : NodeId)
  | change (edit : Store → Store)

/-- What an operation did to the table, with the key computed for the node. -/
inductive Index.Event where
  | added (key : Key) (n : NodeId)
  | removed (key : Key) (n : NodeId)

namespace Index.Event

/-- The node that is added or removed. -/
def node : Event → NodeId
  | .added _ n => n
  | .removed _ n => n

/-- The table after the event. -/
def applyTo : Event → Table → Table
  | .added key n, table => table.add key n
  | .removed key n, table => table.remove key n

end Index.Event

namespace Index.Operation

/-- An operation whose key function fails leaves the index as it was. -/
def apply : Index.Operation → Index × Store → Index × Store
  | .add n, (index, s) =>
    match index.add s n with
    | .ok index => (index, s)
    | .error _ => (index, s)
  | .remove n, (index, s) =>
    match index.remove s n with
    | .ok index => (index, s)
    | .error _ => (index, s)
  | .change edit, (index, s) => (index, edit s)

def run (operations : List Index.Operation) (start : Index × Store) : Index × Store :=
  operations.foldl (fun state operation => operation.apply state) start

/-- The event of an operation, if its key can be computed. -/
def event? (key : KeyFunction) (s : Store) : Index.Operation → Option Index.Event
  | .add n =>
    match key s n with
    | .ok k => some (.added k n)
    | .error _ => none
  | .remove n =>
    match key s n with
    | .ok k => some (.removed k n)
    | .error _ => none
  | .change _ => none

/-- The store after an operation. -/
def after (s : Store) : Index.Operation → Store
  | .change edit => edit s
  | _ => s

def history (key : KeyFunction) : List Index.Operation → Store → List Index.Event
  | [], _ => []
  | operation :: operations, s =>
    (operation.event? key s).toList ++ history key operations (operation.after s)

end Index.Operation

end TreeIndex
