import TreeIndex.Dump
import TreeIndex.Index

/-!
# Debugging text of values, nodes, tests and indexes

A node shows its kind, its fields under their bare names, and of its children
only their number, so the text does not grow with the tree. Functions show two
dots, and a shared object shows its content with `@` for its identity.
-/
namespace TreeIndex

def Value.dump : Value → Dump
  | .null => .atom "Null"
  | .bool value => .tuple "Bool" [.atom (if value then "true" else "false")]
  | .number value => .tuple "Number" [.atom (Decimal.debugging.text value)]
  | .text value => .tuple "String" [.quoted value]
  | .shared object => .tuple "Object" [.atom ("Shared(@, " ++ object.content.compact ++ ")")]

def Store.dump (s : Store) (n : NodeId) : Dump :=
  let data := s.data n
  let fields := data.fields.entries.map fun field => (field.1, field.2.dump)
  let count := data.children.toList.map fun children =>
    ("children", Dump.atom (toString children.length))
  .record "Node" (("kind", .quoted data.kind) :: fields ++ count)

mutual

def Test.dump : Test → Dump
  | .always => .atom "Always"
  | .kind name => .tuple "Kind" [.quoted name]
  | .fields expected =>
    .tuple "Props" [.map (expected.entries.map fun field => .pair (.quoted field.1) field.2.dump)]
  | .predicate _ => .atom "Predicate(..)"
  | .anyOf tests => .tuple "AnyOf" [.list (Test.dumpAll tests)]

def Test.dumpAll : List Test → List Dump
  | [] => []
  | test :: tests => Test.dump test :: Test.dumpAll tests

end

def Check.dump (_ : Check) : Dump := .atom "Check(..)"

def KeySpec.dump : KeySpec → Dump
  | .field name => .tuple "Field" [.quoted name]
  | .function _ => .atom "Function(..)"

def Key.dump (s : Store) : Key → Dump
  | .missing => .atom "Missing"
  | .value v => .tuple "Value" [v.dump]
  | .node n => .tuple "Node" [s.dump n]

def Index.dump (index : Index) (s : Store) : Dump :=
  let buckets := index.table.map fun bucket =>
    Dump.pair (bucket.key.dump s) (.list (bucket.nodes.map s.dump))
  .openRecord "NodeIndex" [("table", .map buckets)]

end TreeIndex
