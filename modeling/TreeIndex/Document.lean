import TreeIndex.Store

/-!
# Documents: trees by value

A document is what a JSON value says about a tree before any node exists: a
kind, the fields still as JSON, and the child documents, if there is a child
list. `ofJson` accepts objects with a text under `type` and, under `children`,
nothing or an array of such objects; of several faults it reports the one whose
value comes first, a parent before its children. `build` makes the nodes, each
after its children, and gives every array and object field an identity.
-/
namespace TreeIndex

inductive Document where
  | node (kind : String) (fields : List (String × Json)) (children : Option (List Document))

inductive ImportFault where
  | notAnObject
  | missingKind
  | invalidChildren
  deriving DecidableEq, Repr

/-- A fault and the way down to the value that has it, by child positions. -/
structure ImportError where
  fault : ImportFault
  path : List Nat
  deriving DecidableEq, Repr

namespace ImportError

/-- The error as seen from the parent. -/
def below (index : Nat) (error : ImportError) : ImportError :=
  { error with path := index :: error.path }

/-- The JSON Pointer of the value below the given child positions. -/
def pointerTo : List Nat → String
  | [] => ""
  | index :: path => "/children/" ++ toString index ++ pointerTo path

def pointer (error : ImportError) : String := pointerTo error.path

def message (error : ImportError) : String :=
  match error.fault with
  | .notAnObject => "expected node object at `" ++ error.pointer ++ "`"
  | .missingKind => "node at `" ++ error.pointer ++ "` has no string `type` field"
  | .invalidChildren => "`children` of node at `" ++ error.pointer ++ "` must be an array"

end ImportError

namespace Document

def isField (name : String) : Bool := name != "type" && name != "children"

mutual

def ofJson : Json → Except ImportError Document
  | .object members =>
    match Entries.find? "type" members with
    | some (.string kind) =>
      match childrenOf members with
      | .ok children => .ok (.node kind (members.filter fun entry => isField entry.1) children)
      | .error error => .error error
    | _ => .error ⟨.missingKind, []⟩
  | _ => .error ⟨.notAnObject, []⟩

/-- The documents under `children`, if the name is there. -/
def childrenOf : List (String × Json) → Except ImportError (Option (List Document))
  | [] => .ok none
  | (name, value) :: members =>
    if name = "children" then
      match value with
      | .array items =>
        match ofItems 0 items with
        | .ok children => .ok (some children)
        | .error error => .error error
      | _ => .error ⟨.invalidChildren, []⟩
    else childrenOf members

/-- The documents of the items from a position on. -/
def ofItems (index : Nat) : List Json → Except ImportError (List Document)
  | [] => .ok []
  | item :: items =>
    match ofJson item with
    | .error error => .error (error.below index)
    | .ok document =>
      match ofItems (index + 1) items with
      | .ok documents => .ok (document :: documents)
      | .error error => .error error

end

mutual

def build : Document → Store → NodeId × Store
  | .node kind fields children, s =>
    let below := buildChildren children s
    let values := below.2.shareAll fields
    values.2.alloc ⟨kind, values.1, below.1⟩

def buildChildren : Option (List Document) → Store → Option (List NodeId) × Store
  | none, s => (none, s)
  | some documents, s =>
    let nodes := buildAll documents s
    (some nodes.1, nodes.2)

def buildAll : List Document → Store → List NodeId × Store
  | [], s => ([], s)
  | document :: documents, s =>
    let first := build document s
    let others := buildAll documents first.2
    (first.1 :: others.1, others.2)

end

end Document

/-- Imports a tree: nothing is changed unless the whole value is accepted. -/
def Store.importJson (s : Store) (json : Json) : Except ImportError (NodeId × Store) :=
  match Document.ofJson json with
  | .ok document => .ok (document.build s)
  | .error error => .error error

end TreeIndex
