import TreeIndex.Binary64
import TreeIndex.Entries

/-!
# JSON values

Objects keep their members in order. A number is an integer or a finite
binary64 value, and the two are never equal. `same` is equality of values:
arrays item by item, objects as finite maps without regard to order. Readers
promise `DistinctNames`: no object at any depth has two members of one name.
-/
namespace TreeIndex

inductive Json.Number where
  | int (value : Int)
  | float (value : Binary64) (finite : value.isFinite = true)
  deriving DecidableEq

inductive Json where
  | null
  | bool (value : Bool)
  | number (value : Json.Number)
  | string (value : String)
  | array (items : List Json)
  | object (members : List (String × Json))

instance : Inhabited Json := ⟨.null⟩

namespace Json

def Number.same : Number → Number → Bool
  | .int a, .int b => a == b
  | .float a _, .float b _ => a == b
  | _, _ => false

/-- The nearest binary64 value. -/
def Number.toBinary64 : Number → Binary64
  | .int value => .ofInt value
  | .float value _ => value

/-- The JSON value of a binary64 number: an integer where that is exact, and
null for what is no finite number. -/
def ofBinary64 (x : Binary64) : Json :=
  match x.toInt? with
  | some value => .number (.int value)
  | none => if h : x.isFinite = true then .number (.float x h) else .null

def int (value : Int) : Json := .number (.int value)

/-- The first member of a name. -/
def member? (name : String) : Json → Option Json
  | .object members => Entries.find? name members
  | _ => none

/-- Arrays and objects. -/
def isComposite : Json → Bool
  | .array _ => true
  | .object _ => true
  | _ => false

mutual

def same : Json → Json → Bool
  | .null, .null => true
  | .bool a, .bool b => a == b
  | .number a, .number b => a.same b
  | .string a, .string b => a == b
  | .array items, .array others => sameItems items others
  | .object members, .object others =>
    members.length == others.length && sameMembers members others
  | _, _ => false

def sameItems : List Json → List Json → Bool
  | [], [] => true
  | item :: items, other :: others => same item other && sameItems items others
  | _, _ => false

/-- Every member is found in the other object with the same value. -/
def sameMembers : List (String × Json) → List (String × Json) → Bool
  | [], _ => true
  | (name, value) :: members, others =>
    (match Entries.find? name others with
      | some other => same value other
      | none => false) && sameMembers members others

end

mutual

def DistinctNames : Json → Prop
  | .array items => DistinctNamesItems items
  | .object members => (Entries.names members).Nodup ∧ DistinctNamesMembers members
  | _ => True

def DistinctNamesItems : List Json → Prop
  | [] => True
  | item :: items => DistinctNames item ∧ DistinctNamesItems items

def DistinctNamesMembers : List (String × Json) → Prop
  | [] => True
  | (_, value) :: members => DistinctNames value ∧ DistinctNamesMembers members

end

end Json
end TreeIndex
