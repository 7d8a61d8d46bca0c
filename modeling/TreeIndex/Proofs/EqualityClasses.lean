import TreeIndex.Key
import TreeIndex.Proofs.Counting
import TreeIndex.Proofs.NumberValues
import TreeIndex.Proofs.TestMeaning

/-!
# Equality of values and keys

Two field values, or two keys, are equal if they are of one variant and alike there:
numbers if they stand for the same, shared objects and nodes if they are one. This is
an equivalence, and equal ones feed a hash the same data, so that hash sets of them
have one item a class.
-/
namespace TreeIndex

theorem equivalence_beq {α : Type} [BEq α] [EquivBEq α] :
    Equivalence fun a b : α => (a == b) = true :=
  ⟨fun _ => BEq.rfl, BEq.symm, BEq.trans⟩

/-- Equal as keys: both missing, equal field values, or one node. -/
inductive Key.Equals : Key → Key → Prop
  | missing : Equals .missing .missing
  | value {a b : Value} : a.Equals b → Equals (.value a) (.value b)
  | node {n} : Equals (.node n) (.node n)

theorem Key.beq_iff_equals {a b : Key} : (a == b) = true ↔ a.Equals b := by
  show same a b = true ↔ _
  constructor
  · intro equal
    cases a <;> cases b <;> simp only [same, beq_iff_eq, Bool.false_eq_true] at equal
    case missing => exact .missing
    case value => exact .value (Value.beq_iff_equals.1 equal)
    case node => exact equal ▸ .node
  · intro equal
    cases equal with
    | missing => rfl
    | value equal => exact Value.beq_iff_equals.2 equal
    | node => exact BEq.rfl

theorem Value.beq_eq_false {a b : Value} (h : a.ctorIdx ≠ b.ctorIdx) : (a == b) = false := by
  refine Bool.eq_false_iff.2 fun equal => h ?_
  cases beq_iff_equals.1 equal <;> rfl

theorem Key.beq_eq_false {a b : Key} (h : a.ctorIdx ≠ b.ctorIdx) : (a == b) = false := by
  refine Bool.eq_false_iff.2 fun equal => h ?_
  cases beq_iff_equals.1 equal <;> rfl

theorem Value.shared_beq_shared {a b : Shared} :
    (Value.shared a == Value.shared b) = true ↔ a.id = b.id := by
  show (a.id == b.id) = true ↔ _
  exact beq_iff_eq

theorem Key.node_beq_node {n m : NodeId} : (Key.node n == Key.node m) = true ↔ n = m := by
  show (n == m) = true ↔ _
  exact beq_iff_eq

/-- The equality of field values and of keys is an equivalence that hashing respects.
Numbers are equal as arithmetic has it, or if neither is a number; shared objects and
nodes are equal to themselves alone, and no two values or keys of different variants are
equal. Equal ones feed a hash the same data, so that the hash set of a list of values, of
keys or of nodes has one item a class. -/
theorem lawful_equality :
    (Equivalence fun a b : Value => (a == b) = true) ∧
    (Equivalence fun a b : Key => (a == b) = true) ∧
    (∀ x y : Binary64, (Value.number x == Value.number y) = true ↔
      x.IeeeEqual y ∨ x.datum = .nan ∧ y.datum = .nan) ∧
    (∀ a b : Shared, (Value.shared a == Value.shared b) = true ↔ a.id = b.id) ∧
    (∀ n m : NodeId, (Key.node n == Key.node m) = true ↔ n = m) ∧
    (∀ a b : Value, (Key.value a == Key.value b) = (a == b)) ∧
    (∀ a b : Value, a.ctorIdx ≠ b.ctorIdx → (a == b) = false) ∧
    (∀ a b : Key, a.ctorIdx ≠ b.ctorIdx → (a == b) = false) ∧
    (∀ a b : Value, (a == b) = true ↔ a.tokens = b.tokens) ∧
    (∀ a b : Key, (a == b) = true ↔ a.tokens = b.tokens) ∧
    (∀ values : List Value, distinctCount values = (classes values).ncard) ∧
    (∀ keys : List Key, distinctCount keys = (classes keys).ncard) ∧
    ∀ nodes : List NodeId, distinctCount nodes = (classes nodes).ncard :=
  ⟨equivalence_beq, equivalence_beq, fun _ _ => Binary64.beq_iff_ieeeEqual,
    fun _ _ => Value.shared_beq_shared, fun _ _ => Key.node_beq_node, fun _ _ => rfl,
    fun _ _ => Value.beq_eq_false, fun _ _ => Key.beq_eq_false, Value.beq_iff_tokens,
    Key.beq_iff_tokens, distinctCount_eq_ncard, distinctCount_eq_ncard, distinctCount_eq_ncard⟩

/-- No field, null, the text of one, one, and an object that holds one. -/
theorem lawful_equality_one :
    let number := Value.number (.ofInt 1)
    let text := Value.text "1"
    let object := Value.shared ⟨0, .int 1⟩
    text.ctorIdx ≠ number.ctorIdx ∧ object.ctorIdx ≠ number.ctorIdx ∧
    Key.missing.ctorIdx ≠ (Key.value .null).ctorIdx ∧
    (Key.node ⟨0⟩).ctorIdx ≠ (Key.value object).ctorIdx ∧
    (text == number) = false ∧ (object == number) = false ∧
    (Key.missing == Key.value .null) = false ∧ (Key.node ⟨0⟩ == Key.value object) = false := by
  intro number text object
  have text_number : text.ctorIdx ≠ number.ctorIdx := by decide
  have object_number : object.ctorIdx ≠ number.ctorIdx := by decide
  have missing_null : Key.missing.ctorIdx ≠ (Key.value .null).ctorIdx := by decide
  have node_object : (Key.node ⟨0⟩).ctorIdx ≠ (Key.value object).ctorIdx := by decide
  obtain ⟨-, -, -, -, -, -, values, keys, -⟩ := lawful_equality
  exact ⟨text_number, object_number, missing_null, node_object, values _ _ text_number,
    values _ _ object_number, keys _ _ missing_null, keys _ _ node_object⟩

end TreeIndex
