import TreeIndex.Store

/-!
# Tests of nodes

A test says which nodes match: all of them, those of a kind, those with given
field values, those that a predicate accepts, or those that some test of a list
matches. It is compiled into a check, which reads the store when it is asked.
Predicates see the node, its position and the store, change nothing, and may
fail; of a list no test is asked after the first that matches or fails.
-/
namespace TreeIndex

/-- A node where a walk meets it. The root of a walk, and a node looked at on
its own, has neither position nor parent. -/
structure Occurrence where
  node : NodeId
  index : Option Nat
  parent : Option NodeId
  deriving DecidableEq, Repr

namespace Occurrence

def alone (n : NodeId) : Occurrence := ⟨n, none, none⟩

end Occurrence

/-- The failure of a function given by the caller. -/
structure Failure where
  message : String
  deriving DecidableEq, Repr

abbrev Predicate := Store → Occurrence → Except Failure Bool

structure Check where
  accepts : Predicate

inductive Test where
  | always
  | kind (name : String)
  | fields (expected : Fields Value)
  | predicate (accepts : Predicate)
  | anyOf (tests : List Test)

instance : Inhabited Test := ⟨.always⟩

namespace Check

def always : Check := ⟨fun _ _ => .ok true⟩

/-- Asks the checks in turn, up to the first that does not refuse. -/
def firstOf : List Check → Predicate
  | [], _, _ => .ok false
  | check :: checks, s, o =>
    match check.accepts s o with
    | .ok false => firstOf checks s o
    | answer => answer

end Check

/-- Whether a field is there with an equal value. -/
def Store.fieldIs (s : Store) (n : NodeId) (name : String) (expected : Value) : Bool :=
  match s.field? n name with
  | some value => value == expected
  | none => false

/-- What a JSON test may not be. -/
inductive TestError where
  | boolean
  | number
  deriving DecidableEq, Repr

def TestError.found : TestError → String
  | .boolean => "boolean"
  | .number => "number"

def TestError.message (error : TestError) : String :=
  "expected null, string, object, or array as test, found " ++ error.found

namespace Test

mutual

def compile : Test → Check
  | .always => .always
  | .kind name => ⟨fun s o => .ok (s.kind o.node == name)⟩
  | .fields expected =>
    ⟨fun s o => .ok (expected.entries.all fun field => s.fieldIs o.node field.1 field.2)⟩
  | .predicate accepts => ⟨accepts⟩
  | .anyOf tests => ⟨Check.firstOf (compileAll tests)⟩

def compileAll : List Test → List Check
  | [] => []
  | test :: tests => compile test :: compileAll tests

end

mutual

/-- Null matches everything, a text is a kind, an object lists field values, an
array is a list of tests. Arrays and objects among the field values get new
identities, so they are equal to no field. -/
def ofJson : Json → Store → Except TestError (Test × Store)
  | .null, s => .ok (.always, s)
  | .string name, s => .ok (.kind name, s)
  | .object members, s =>
    let expected := s.shareAll members
    .ok (.fields expected.1, expected.2)
  | .array items, s =>
    match ofItems items s with
    | .ok (tests, s) => .ok (.anyOf tests, s)
    | .error error => .error error
  | .bool _, _ => .error .boolean
  | .number _, _ => .error .number

def ofItems : List Json → Store → Except TestError (List Test × Store)
  | [], s => .ok ([], s)
  | item :: items, s =>
    match ofJson item s with
    | .error error => .error error
    | .ok (test, s) =>
      match ofItems items s with
      | .ok (tests, s) => .ok (test :: tests, s)
      | .error error => .error error

end

end Test
end TreeIndex
