import TreeIndex.Test

/-!
# Testing a node at a position

A position is given as an index and a parent, both or neither, and the index
must be that of some child of the parent. The position is looked at before the
test is; that the node is the child at the index is the caller's business.
-/
namespace TreeIndex

inductive PositionError where
  | missingParent
  | missingIndex
  | outOfBounds (index count : Nat)
  deriving DecidableEq, Repr

def PositionError.message : PositionError → String
  | .missingParent => "expected parent node when an index is given"
  | .missingIndex => "expected index when a parent node is given"
  | .outOfBounds index count =>
    "index " ++ toString index ++ " is out of bounds for parent with "
      ++ toString count ++ " children"

/-- The fault of a position, if it has one. -/
def Store.positionError? (s : Store) (o : Occurrence) : Option PositionError :=
  match o.index, o.parent with
  | none, none => none
  | some _, none => some .missingParent
  | none, some _ => some .missingIndex
  | some index, some parent =>
    let count := s.childCount parent
    if index < count then none else some (.outOfBounds index count)

/-- Whether the node matches the test; the inner failure is that of a predicate
in the test. -/
def Test.holdsAt (test : Test) (s : Store) (o : Occurrence) :
    Except PositionError (Except Failure Bool) :=
  match s.positionError? o with
  | some error => .error error
  | none => .ok (test.compile.accepts s o)

end TreeIndex
