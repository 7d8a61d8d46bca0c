import TreeIndex.Document
import TreeIndex.Edit

/-!
# Commands

Nodes come from documents, singly, or as parents of others, and are edited
afterwards. A run is a list of such commands, one done to the store that the one
before it left; a document that is refused changes nothing.
-/
namespace TreeIndex

/-- What makes nodes and edits them. -/
inductive Command where
  | importJson (json : Json)
  | create (kind : String)
  | leaf (kind : String) (fields : List (String × Value))
  | parent (kind : String) (fields : List (String × Value)) (children : List NodeId)
  | change (edit : Edit)

namespace Command

/-- A value that is no tree is refused and leaves the store as it was. -/
def apply : Command → Store → Store
  | .importJson json, s =>
    match s.importJson json with
    | .ok (_, t) => t
    | .error _ => s
  | .create kind, s => (s.create kind).2
  | .leaf kind fields, s => (s.leaf kind fields).2
  | .parent kind fields children, s => (s.parent kind fields children).2
  | .change edit, s => edit.apply s

def run (commands : List Command) (s : Store) : Store :=
  commands.foldl (fun s command => command.apply s) s

end Command
end TreeIndex
