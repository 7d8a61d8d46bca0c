import TreeIndex.OpenIndex

/-!
# Sessions

A session works on several indexes and on the store, step by step. A step that
fails leaves what has been done by then; `perform` tells what it does if it does not.
-/
namespace TreeIndex

/-- The indexes of a session and what it keeps besides. -/
structure Session (ι τ : Type) where
  indexes : List ι
  own : τ

namespace World

variable {ι τ : Type}

/-- The world with another index in a place. -/
def setIndex (w : World (Session ι τ)) (place : Nat) (index : ι) : World (Session ι τ) :=
  { w with state := { w.state with indexes := w.state.indexes.set place index } }

/-- The world with one more index. -/
def withIndex (w : World (Session ι τ)) (index : ι) : World (Session ι τ) :=
  { w with state := { w.state with indexes := w.state.indexes ++ [index] } }

def opened (w : World (Session Index τ)) : World (Session OpenIndex τ) :=
  ⟨w.store, w.state.indexes.map Index.opened, w.state.own⟩

end World

/-- One step of a session: an edit of the store, a change of what it keeps, a new index,
or a change of the index in a place, if there is one. -/
inductive Step (τ : Type) where
  | edit (change : Store → Store)
  | keep (change : τ → τ)
  | create (spec : KeySpec)
  | add (place : Nat) (n : NodeId)
  | remove (place : Nat) (n : NodeId)

namespace Step

variable {τ : Type}

/-- Changes the index in a place, where it lies. -/
def changeAt (place : Nat) (change : OpenIndex.Change Unit) (w : World (Session OpenIndex τ)) :
    Except Failure Unit × World (Session OpenIndex τ) :=
  match w.state.indexes[place]? with
  | none => (.ok (), w)
  | some index =>
    ((OpenIndex.applied change index).1, w.setIndex place (OpenIndex.applied change index).2)

/-- Takes the step. What has been done when it fails stays done. -/
def take (w : World (Session OpenIndex τ)) :
    Step τ → Except Failure Unit × World (Session OpenIndex τ)
  | .edit change => (.ok (), { w with store := change w.store })
  | .keep change => (.ok (), { w with state := { w.state with own := change w.state.own } })
  | .create spec => (.ok (), w.withIndex (Index.new spec).opened)
  | .add place n => changeAt place (OpenIndex.add w.store n) w
  | .remove place n => changeAt place (OpenIndex.remove w.store n) w

/-- Puts what an operation makes of the index in its place. -/
def replaceAt (place : Nat) (operation : Index → Except Failure Index)
    (w : World (Session Index τ)) : Except Failure (World (Session Index τ)) :=
  match w.state.indexes[place]? with
  | none => .ok w
  | some index => (operation index).map (w.setIndex place)

/-- The world after the step, if it does not fail. -/
def perform (w : World (Session Index τ)) : Step τ → Except Failure (World (Session Index τ))
  | .edit change => .ok { w with store := change w.store }
  | .keep change => .ok { w with state := { w.state with own := change w.state.own } }
  | .create spec => .ok (w.withIndex (Index.new spec))
  | .add place n => replaceAt place (fun index => index.add w.store n) w
  | .remove place n => replaceAt place (fun index => index.remove w.store n) w

/-- Takes the steps in turn, whether those before failed or not. -/
def takeAll (steps : List (Step τ)) (w : World (Session OpenIndex τ)) :
    World (Session OpenIndex τ) :=
  steps.foldl (fun w step => (step.take w).2) w

/-- The world after the steps, if none of them fails. -/
def performAll : List (Step τ) → World (Session Index τ) →
    Except Failure (World (Session Index τ))
  | [], w => .ok w
  | step :: steps, w =>
    match step.perform w with
    | .ok w₁ => performAll steps w₁
    | .error failure => .error failure

/-- The steps of a run that do not fail. -/
def completed : List (Step τ) → World (Session OpenIndex τ) → List (Step τ)
  | [], _ => []
  | step :: steps, w =>
    match step.take w with
    | (.ok _, w₁) => step :: completed steps w₁
    | (.error _, w₁) => completed steps w₁

end Step
end TreeIndex
