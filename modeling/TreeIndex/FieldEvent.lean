import TreeIndex.Command

/-!
# The history of the fields of a node

What happens to the fields of a node, in turn: a name is written or removed. The
kind is what is written to `type`. A write stands as long as its name is not removed.
-/
namespace TreeIndex

/-- What happens to a name of a node. -/
inductive FieldEvent where
  | written (name : String) (value : Value)
  | removed (name : String)

namespace FieldEvent

def removes (name : String) : FieldEvent → Bool
  | .written _ _ => false
  | .removed other => other == name

/-- The writes whose names are not removed later. -/
def standing : List FieldEvent → List (String × Value)
  | [] => []
  | .written name value :: later =>
    if later.any (removes name) then standing later else (name, value) :: standing later
  | .removed _ :: later => standing later

/-- Whether the value can be written under the name: only a text is a kind. -/
def accepts (name : String) : Value → Bool
  | .text _ => true
  | _ => name != "type"

/-- What a write does: nothing if it is not accepted. -/
def writing (name : String) (value : Value) : List FieldEvent :=
  if accepts name value then [.written name value] else []

def writingAll (fields : List (String × Value)) : List FieldEvent :=
  fields.flatMap fun field => writing field.1 field.2

end FieldEvent

/-- What an edit does to the fields of its node; the kind is written and not removed. -/
def Edit.events : Edit → List FieldEvent
  | .setKind _ kind => [.written "type" (.text kind)]
  | .setField _ name value => FieldEvent.writing name value
  | .removeField _ name => if name = "type" then [] else [.removed name]
  | _ => []

/-- What a run does to the fields of a node that is there. -/
def Command.history (n : NodeId) : List Command → List FieldEvent
  | [] => []
  | .change edit :: later =>
    (if edit.target = n then edit.events else []) ++ history n later
  | _ :: later => history n later

end TreeIndex
