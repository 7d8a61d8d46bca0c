import TreeIndex.Test

/-!
# Keys of nodes

Nodes are indexed under a key: a field value, a node, or the one key of all
nodes that lack the field. Values are equal as field values are, nodes by
identity. A key comes from a field or from a function, which reads the store
and may fail.
-/
namespace TreeIndex

inductive Key where
  | missing
  | value (content : Value)
  | node (target : NodeId)

namespace Key

instance : Inhabited Key := ⟨.missing⟩

def same : Key → Key → Bool
  | .missing, .missing => true
  | .value a, .value b => a == b
  | .node a, .node b => a == b
  | _, _ => false

instance : BEq Key := ⟨same⟩

def tokens : Key → List HashToken
  | .missing => [.variant 0]
  | .value v => .variant 1 :: v.tokens
  | .node n => [.variant 2, .identity n.index]

instance : Hashable Key := ⟨fun key => hash key.tokens⟩

theorem beq_iff_tokens (a b : Key) : (a == b) = true ↔ a.tokens = b.tokens := by
  show same a b = true ↔ _
  cases a with
  | missing => cases b <;> simp [same, tokens]
  | value v => cases b <;> simp [same, tokens, Value.beq_iff_tokens]
  | node n =>
    cases b with
    | node m => cases n; cases m; simp [same, tokens]
    | _ => simp [same, tokens]

instance : EquivBEq Key where
  rfl := (beq_iff_tokens _ _).2 rfl
  symm h := (beq_iff_tokens _ _).2 ((beq_iff_tokens _ _).1 h).symm
  trans h k := (beq_iff_tokens _ _).2 (((beq_iff_tokens _ _).1 h).trans ((beq_iff_tokens _ _).1 k))

instance : LawfulHashable Key where
  hash_eq a b h := by
    show hash a.tokens = hash b.tokens
    rw [(beq_iff_tokens a b).1 h]

def isMissing : Key → Bool
  | .missing => true
  | _ => false

def value? : Key → Option Value
  | .value v => some v
  | _ => none

/-- An absent value is the missing key. -/
def ofOption : Option Value → Key
  | some v => .value v
  | none => .missing

end Key

abbrev KeyFunction := Store → NodeId → Except Failure Key

inductive KeySpec where
  | field (name : String)
  | function (key : KeyFunction)

/-- The field `type` is the kind; the child list is no field. -/
def KeySpec.key : KeySpec → KeyFunction
  | .field name => fun s n => .ok (.ofOption (s.field? n name))
  | .function key => key

end TreeIndex
