import TreeIndex.Walk

/-!
# The calls of a visitor

A visitor can take a note of each of its calls, and a walk with it then tells the
calls it makes. Which calls a walk makes, and what comes of them one after the
other, can also be said without notes.
-/
namespace TreeIndex

variable {τ : Type}

section Notes

variable {α : Type}

/-- The visitor with a list of notes beside its own state, one for each call. -/
def Visitor.noting (visitor : Visitor τ) (note : Occurrence → World τ → α) :
    Visitor (List α × τ) := fun o w =>
  let own : World τ := ⟨w.store, w.state.2⟩
  let result := visitor o own
  (result.1, ⟨result.2.store, (w.state.1 ++ [note o own], result.2.state)⟩)

/-- The visitor that takes a note of the occurrences at which it is called. -/
abbrev Visitor.recorded (visitor : Visitor τ) : Visitor (List Occurrence × τ) :=
  visitor.noting fun o _ => o

/-- A world in which the given notes are taken. -/
def World.noted (w : World τ) (notes : List α) : World (List α × τ) :=
  ⟨w.store, (notes, w.state)⟩

end Notes

/-- The calls of the visitor within some number of steps, each with the world in which
it is made. -/
def visitCalls (direction : Direction) (test : Test) (visitor : Visitor τ) (steps : Nat)
    (root : NodeId) (w : World τ) : List (Occurrence × World τ) :=
  (visit direction test (visitor.noting Prod.mk) steps root (w.noted [])).2.state.1

/-- The calls that a walk makes from a list of pending occurrences, each with the world
in which it is made, up to the end of the walk or any step before it. -/
inductive CallsMade (direction : Direction) (check : Check) (visitor : Visitor τ) :
    List Occurrence → World τ → List (Occurrence × World τ) → Prop
  | stopped {pending w} : CallsMade direction check visitor pending w []
  | refused {o pending w calls} :
    check.accepts w.store o = .ok false →
    CallsMade direction check visitor
      (direction.arrange (w.store.occurrencesBelow o.node) ++ pending) w calls →
    CallsMade direction check visitor (o :: pending) w calls
  | last {o pending w} :
    check.accepts w.store o = .ok true →
    CallsMade direction check visitor (o :: pending) w [(o, w)]
  | skips {o pending w w₁ calls} :
    check.accepts w.store o = .ok true → visitor o w = (.ok .skip, w₁) →
    CallsMade direction check visitor pending w₁ calls →
    CallsMade direction check visitor (o :: pending) w ((o, w) :: calls)
  | proceeds {o pending w w₁ calls} :
    check.accepts w.store o = .ok true → visitor o w = (.ok .proceed, w₁) →
    CallsMade direction check visitor
      (direction.arrange (w₁.store.occurrencesBelow o.node) ++ pending) w₁ calls →
    CallsMade direction check visitor (o :: pending) w ((o, w) :: calls)

/-- The calls, one after the other, lead from a world to the outcome of a walk. Each is
made in the world that the one before it left; the last alone may exit or fail. If none
fails, a walk can still fail by its check, in the world that the last call left. -/
inductive CallsLead (check : Check) (visitor : Visitor τ) :
    World τ → List (Occurrence × World τ) → Ending × World τ → Prop
  | completed {w} : CallsLead check visitor w [] (.completed, w)
  | unfinished {w} : CallsLead check visitor w [] (.unfinished, w)
  | checkFails {o w failure} : check.accepts w.store o = .error failure →
    CallsLead check visitor w [] (.failed failure, w)
  | visitFails {o w w₁ failure} : visitor o w = (.error failure, w₁) →
    CallsLead check visitor w [(o, w)] (.failed failure, w₁)
  | exits {o w w₁} : visitor o w = (.ok .exit, w₁) →
    CallsLead check visitor w [(o, w)] (.exited, w₁)
  | goesOn {o w w₁ action calls outcome} : visitor o w = (.ok action, w₁) → action ≠ .exit →
    CallsLead check visitor w₁ calls outcome →
    CallsLead check visitor w ((o, w) :: calls) outcome

end TreeIndex
