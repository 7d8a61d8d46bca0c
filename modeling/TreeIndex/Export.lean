import TreeIndex.Paths

/-!
# Writing a tree as JSON

A node becomes an object: `type` first, the fields in order, `children` last if
there is a child list; a later name overwrites an equal one in its place. The
export first lists the tree in pre-order, then goes through the list backwards,
so every child is finished before its parent and the exports of a node's
children lie on top of the pile, the first child topmost.
-/
namespace TreeIndex
namespace Store

/-- The nodes met from a stack of pending ones in pre-order, the last first. -/
def preorderBack (s : Store) : Nat → List NodeId → List NodeId → List NodeId
  | 0, _, met => met
  | _ + 1, [], met => met
  | steps + 1, n :: pending, met => preorderBack s steps (s.children n ++ pending) (n :: met)

/-- The object of a node without its children. -/
def members (s : Store) (n : NodeId) : List (String × Json) :=
  (s.fields n).entries.foldl (fun out field => Entries.put field.1 field.2.toJson out)
    [("type", .string (s.kind n))]

/-- Finishes a node whose children lie on top of the pile. -/
def finish (s : Store) (pile : List Json) (n : NodeId) : List Json :=
  match (s.data n).children with
  | none => .object (s.members n) :: pile
  | some children =>
    let exported := Json.array (pile.take children.length)
    .object (Entries.put "children" exported (s.members n)) :: pile.drop children.length

def toJson (s : Store) (n : NodeId) : Json :=
  ((s.preorderBack (s.pathCount n) [n] []).foldl s.finish []).headD .null

end Store
end TreeIndex
