import TreeIndex.Session

/-!
# Visitors that work in steps

In one call a visitor may take any number of steps of a session and fail before,
after and in any of them. The index of a tree is made by such a visitor: it adds to
a new index of the session, which is lost if the walk fails.
-/
namespace TreeIndex

variable {τ : Type}

/-- What is done in one call of a visitor: steps, each chosen in the world that the one
before it left, and at last an answer or a failure of its own. -/
inductive Script (τ : Type) where
  | done (answer : Except Failure Action)
  | step (first : Step τ) (rest : World (Session OpenIndex τ) → Script τ)

namespace Script

/-- Follows the script. A step that fails ends it. -/
def follow : Script τ → World (Session OpenIndex τ) →
    Except Failure Action × World (Session OpenIndex τ)
  | .done answer, w => (answer, w)
  | .step first rest, w =>
    match first.take w with
    | (.ok _, w₁) => (rest w₁).follow w₁
    | (.error failure, w₁) => (.error failure, w₁)

/-- The steps that are completed. -/
def completed : Script τ → World (Session OpenIndex τ) → List (Step τ)
  | .done _, _ => []
  | .step first rest, w =>
    match first.take w with
    | (.ok _, w₁) => first :: (rest w₁).completed w₁
    | (.error _, _) => []

/-- The visitor that follows the script written for an occurrence and a world. -/
def visitor (body : Occurrence → World (Session OpenIndex τ) → Script τ) :
    Visitor (Session OpenIndex τ) := fun o w => (body o w).follow w

end Script

/-- Adds each node that the check accepts to the index in a place. -/
def collecting (check : Check) (place : Nat) (o : Occurrence)
    (w : World (Session OpenIndex τ)) : Script τ :=
  match check.accepts w.store o with
  | .error failure => .done (.error failure)
  | .ok false => .done (.ok .proceed)
  | .ok true => .step (.add place o.node) fun _ => .done (.ok .proceed)

/-- The world with the indexes before a place. -/
def World.upTo (w : World (Session OpenIndex τ)) (place : Nat) : World (Session OpenIndex τ) :=
  { w with state := { w.state with indexes := w.state.indexes.take place } }

/-- Makes the index of a tree where it lies, next to the indexes of the session. If the
walk fails, the new index is lost. -/
def construct (direction : Direction) (spec : KeySpec) (tree : Option NodeId) (test : Test)
    (w : World (Session OpenIndex τ)) : Except Failure Unit × World (Session OpenIndex τ) :=
  let place := w.state.indexes.length
  let begun := w.withIndex (Index.new spec).opened
  match tree with
  | none => (.ok (), begun)
  | some root =>
    match (Traversal.preOrder direction).run .always
      (Script.visitor (collecting test.compile place)) root begun with
    | (.failed failure, w₁) => (.error failure, w₁.upTo place)
    | (_, w₁) => (.ok (), w₁)

end TreeIndex
