import TreeIndex.Paths
import TreeIndex.Test

/-!
# Walking a tree

A walk goes through a tree in pre-order, children from left to right or from
right to left, and calls a visitor at each occurrence that its check accepts.
The visitor may change the store and a state of its own; the children of a node
are read after the visitor was there. It lets the walk proceed, skip what is
below the node, or exit. A node that the check refuses is passed through. The
walk keeps a list of pending occurrences and takes one of them a step, so it
ends by itself or with its steps used up.
-/
namespace TreeIndex

inductive Action where
  | proceed
  | skip
  | exit
  deriving DecidableEq, Repr

inductive Direction where
  | forward
  | reversed
  deriving DecidableEq, Repr

inductive Ending where
  | completed
  | exited
  | failed (failure : Failure)
  | unfinished
  deriving DecidableEq, Repr

/-- The store together with what the visitor keeps. -/
structure World (τ : Type) where
  store : Store
  state : τ

/-- A visitor that fails leaves the world as far as it got. -/
abbrev Visitor (τ : Type) := Occurrence → World τ → Except Failure Action × World τ

def Direction.arrange {α : Type} : Direction → List α → List α
  | .forward, items => items
  | .reversed, items => items.reverse

/-- The children of a node with their positions, counted from the left. -/
def Store.occurrencesBelow (s : Store) (n : NodeId) : List Occurrence :=
  (s.children n).mapIdx fun index child => ⟨child, some index, some n⟩

variable {τ : Type}

def walk (direction : Direction) (check : Check) (visitor : Visitor τ) :
    Nat → List Occurrence → World τ → Ending × World τ
  | _, [], w => (.completed, w)
  | 0, _ :: _, w => (.unfinished, w)
  | steps + 1, o :: pending, w =>
    match check.accepts w.store o with
    | .error failure => (.failed failure, w)
    | .ok false =>
      walk direction check visitor steps
        (direction.arrange (w.store.occurrencesBelow o.node) ++ pending) w
    | .ok true =>
      match visitor o w with
      | (.error failure, w) => (.failed failure, w)
      | (.ok .exit, w) => (.exited, w)
      | (.ok .skip, w) => walk direction check visitor steps pending w
      | (.ok .proceed, w) =>
        walk direction check visitor steps
          (direction.arrange (w.store.occurrencesBelow o.node) ++ pending) w

/-- Walks the tree of a root for at most the given number of steps. -/
def visit (direction : Direction) (test : Test) (visitor : Visitor τ) (steps : Nat)
    (root : NodeId) (w : World τ) : Ending × World τ :=
  walk direction test.compile visitor steps [.alone root] w

/-- A way through trees that any visitor can be sent on. -/
structure Traversal where
  run : {τ : Type} → Check → Visitor τ → NodeId → World τ → Ending × World τ

namespace Traversal

/-- The walk of a visitor that leaves child lists alone; it is never left
unfinished on a tree without cycles. -/
def preOrder (direction : Direction) : Traversal where
  run check visitor root w := walk direction check visitor (w.store.pathCount root) [.alone root] w

/-- Calls the visitor at the occurrences given, in turn. -/
def inTurn (check : Check) (visitor : Visitor τ) : List Occurrence → World τ → Ending × World τ
  | [], w => (.completed, w)
  | o :: pending, w =>
    match check.accepts w.store o with
    | .error failure => (.failed failure, w)
    | .ok false => inTurn check visitor pending w
    | .ok true =>
      match visitor o w with
      | (.error failure, w) => (.failed failure, w)
      | (.ok .exit, w) => (.exited, w)
      | (.ok _, w) => inTurn check visitor pending w

/-- Only the children of the root. -/
def childrenOnly : Traversal where
  run check visitor root w := inTurn check visitor (w.store.occurrencesBelow root) w

/-- One way after the other, if the first is gone to its end. -/
def andThen (first second : Traversal) : Traversal where
  run check visitor root w :=
    match first.run check visitor root w with
    | (.completed, w) => second.run check visitor root w
    | result => result

end Traversal
end TreeIndex
