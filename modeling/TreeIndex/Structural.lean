import TreeIndex.Paths

/-!
# Structural equality of trees

Two nodes are structurally equal when their kinds are, when their fields agree
by name whatever the order, arrays and objects by content, and when both are
leaves or have equally many children, pairwise structurally equal. The check
keeps a list of pairs that are still to be compared; a pair of one node with
itself is dropped at once. Of the children the last pair is compared first: the
order cannot change the answer, but it decides how soon a difference is met.
-/
namespace TreeIndex

/-- The same names with the same contents. -/
def Fields.sameContent (fields others : Fields Value) : Bool :=
  fields.size == others.size && fields.entries.all fun field =>
    match others.get? field.1 with
    | some other => field.2.sameContent other
    | none => false

namespace Store

/-- The pairs of children left to compare, if the nodes agree so far. -/
def childPairs (s : Store) (a b : NodeId) : Option (List (NodeId × NodeId)) :=
  let left := s.data a
  let right := s.data b
  if left.kind == right.kind && left.fields.sameContent right.fields then
    match left.children, right.children with
    | none, none => some []
    | some children, some others =>
      if children.length = others.length then some (children.zip others) else none
    | _, _ => none
  else none

def pairsEqual (s : Store) : Nat → List (NodeId × NodeId) → Bool
  | _, [] => true
  | 0, _ :: _ => false
  | steps + 1, (a, b) :: pending =>
    if a = b then pairsEqual s steps pending
    else
      match s.childPairs a b with
      | some pairs => pairsEqual s steps (pairs.reverse ++ pending)
      | none => false

def deepEqual (s : Store) (a b : NodeId) : Bool := s.pairsEqual (s.pathCount a) [(a, b)]

end Store
end TreeIndex
