import TreeIndex.Store

/-!
# Edits of the store

One edit names the node it changes and what it writes there; it has an effect
on no other node. Edits that give an answer drop it here.
-/
namespace TreeIndex

inductive Edit where
  | setKind (node : NodeId) (kind : String)
  | setField (node : NodeId) (name : String) (value : Value)
  | removeField (node : NodeId) (name : String)
  | pushChild (node child : NodeId)
  | insertChild (node : NodeId) (index : Nat) (child : NodeId)
  | removeChild (node : NodeId) (index : Nat)
  | setChildren (node : NodeId) (children : Option (List NodeId))

namespace Edit

def apply : Edit → Store → Store
  | .setKind n kind, s => s.setKind n kind
  | .setField n name value, s => (s.setField n name value).2
  | .removeField n name, s => (s.removeField n name).2
  | .pushChild n child, s => s.pushChild n child
  | .insertChild n index child, s => s.insertChild n index child
  | .removeChild n index, s => (s.removeChild n index).2
  | .setChildren n children, s => s.setChildren n children

/-- The node that is changed. -/
def target : Edit → NodeId
  | .setKind n _ => n
  | .setField n _ _ => n
  | .removeField n _ => n
  | .pushChild n _ => n
  | .insertChild n _ _ => n
  | .removeChild n _ => n
  | .setChildren n _ => n

/-- Whether the edit is one of the child list; the others are of kind and fields. -/
def ofChildren : Edit → Bool
  | .pushChild .. | .insertChild .. | .removeChild .. | .setChildren .. => true
  | _ => false

/-- One edit after the other. -/
def applyAll (edits : List Edit) (s : Store) : Store :=
  edits.foldl (fun s edit => edit.apply s) s

end Edit
end TreeIndex
