import TreeIndex.Json

/-!
# Field values

Null, booleans, numbers and texts are equal by value; numbers by `Binary64`'s
equality, so `-0` is `0` and NaN is itself. An array or object is held as a
`Shared` with an identity of its own and is equal to nothing but itself,
whatever its content. `tokens` is the data that a value feeds to a hash: two
values are equal exactly when their tokens are.
-/
namespace TreeIndex

structure Shared where
  id : Nat
  content : Json

namespace Shared

instance : BEq Shared := ⟨fun a b => a.id == b.id⟩

theorem beq_eq (a b : Shared) : (a == b) = (a.id == b.id) := rfl

def sameContent (a b : Shared) : Bool := a.content.same b.content

end Shared

inductive Value where
  | null
  | bool (value : Bool)
  | number (value : Binary64)
  | text (value : String)
  | shared (object : Shared)

/-- The data fed to a hash, piece by piece. -/
inductive HashToken where
  | variant (index : Nat)
  | flag (value : Bool)
  | bits (value : UInt64)
  | text (value : String)
  | identity (id : Nat)
  deriving DecidableEq, Hashable

namespace Value

instance : Inhabited Value := ⟨.null⟩

def same : Value → Value → Bool
  | .null, .null => true
  | .bool a, .bool b => a == b
  | .number a, .number b => a == b
  | .text a, .text b => a == b
  | .shared a, .shared b => a == b
  | _, _ => false

instance : BEq Value := ⟨same⟩

/-- Equality that looks into arrays and objects. -/
def sameContent : Value → Value → Bool
  | .shared a, .shared b => a.sameContent b
  | a, b => a == b

def tokens : Value → List HashToken
  | .null => [.variant 0]
  | .bool value => [.variant 1, .flag value]
  | .number value => [.variant 2, .bits value.canonical]
  | .text value => [.variant 3, .text value]
  | .shared object => [.variant 4, .identity object.id]

instance : Hashable Value := ⟨fun value => hash value.tokens⟩

theorem beq_iff_tokens (a b : Value) : (a == b) = true ↔ a.tokens = b.tokens := by
  show same a b = true ↔ _
  cases a <;> cases b <;> simp [same, tokens, Binary64.beq_eq, Shared.beq_eq]

instance : EquivBEq Value where
  rfl := (beq_iff_tokens _ _).2 rfl
  symm h := (beq_iff_tokens _ _).2 ((beq_iff_tokens _ _).1 h).symm
  trans h k := (beq_iff_tokens _ _).2 (((beq_iff_tokens _ _).1 h).trans ((beq_iff_tokens _ _).1 k))

instance : LawfulHashable Value where
  hash_eq a b h := by
    show hash a.tokens = hash b.tokens
    rw [(beq_iff_tokens a b).1 h]

/-- The value of a JSON value; an array or object becomes the shared object
of the given identity. -/
def ofJson (id : Nat) : Json → Value
  | .null => .null
  | .bool value => .bool value
  | .number value => .number value.toBinary64
  | .string value => .text value
  | content => .shared ⟨id, content⟩

def toJson : Value → Json
  | .null => .null
  | .bool value => .bool value
  | .number value => Json.ofBinary64 value
  | .text value => .string value
  | .shared object => object.content

def ofInt (value : Int) : Value := .number (.ofInt value)

def text? : Value → Option String
  | .text value => some value
  | _ => none

def number? : Value → Option Binary64
  | .number value => some value
  | _ => none

def bool? : Value → Option Bool
  | .bool value => some value
  | _ => none

def isNull : Value → Bool
  | .null => true
  | _ => false

end Value
end TreeIndex
