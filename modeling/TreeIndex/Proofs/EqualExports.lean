import TreeIndex.Proofs.RoundTrip
import TreeIndex.Proofs.StructuralEquality

/-!
# Equal trees and equal exports

Structural equality takes `-0` for `0` and NaN for itself, JSON tells integers
from all other numbers: the two agree because the export writes one JSON value
for each class of equal numbers. Equal trees have equal exports. Of portable
nodes the export keeps all there is, so there equal exports come from equal
trees only.
-/
namespace TreeIndex

variable {x y : Binary64}

namespace Json

theorem ofBinary64_of_isNaN (h : x.isNaN = true) : ofBinary64 x = .null := by
  refine ofBinary64_of_not_isFinite fun finite => ?_
  rw [Binary64.isNaN_eq, decide_eq_true_eq] at h
  rw [Binary64.isFinite_eq, decide_eq_true_eq] at finite
  omega

/-- Either zero is written as the integer. -/
theorem ofBinary64_of_magnitude_eq_zero (h : x.magnitude = 0) : ofBinary64 x = .int 0 := by
  refine ofBinary64_of_toInt? (Binary64.toInt?_eq_some.2 ⟨?_, ?_, by decide⟩)
  · rw [Binary64.isFinite_eq, h]
    decide
  · have none : Binary64.units 0 = 0 := by decide
    simp [Binary64.signedUnits, h, none]

theorem distinctNames_ofBinary64 (x : Binary64) : (ofBinary64 x).DistinctNames := by
  unfold ofBinary64
  split
  · trivial
  · split <;> trivial

/-- Equal numbers are written as the same JSON value. -/
theorem same_ofBinary64 (h : (x == y) = true) : (ofBinary64 x).same (ofBinary64 y) = true := by
  obtain rfl | ⟨hx, hy⟩ | ⟨hx, hy⟩ := Binary64.beq_iff.1 h
  · exact same_self _ (distinctNames_ofBinary64 x)
  · rw [ofBinary64_of_isNaN hx, ofBinary64_of_isNaN hy]
    rfl
  · rw [ofBinary64_of_magnitude_eq_zero hx, ofBinary64_of_magnitude_eq_zero hy]
    rfl

end Json

namespace Value

variable {a b : Value}

theorem same_toJson (h : a.sameContent b = true) : a.toJson.same b.toJson = true := by
  cases a <;> cases b
  case null.null => rfl
  case number.number x y => exact Json.same_ofBinary64 h
  case shared.shared x y => exact h
  case bool.bool x y =>
    have same : (x == y) = true := h
    rwa [toJson, toJson, Json.same]
  case text.text x y =>
    have same : (x == y) = true := h
    rwa [toJson, toJson, Json.same]
  all_goals cases h

/-- JSON values that are the same are read as equal values. -/
theorem sameContent_ofJson {json other : Json} (h : json.same other = true) (id otherId : Nat) :
    (ofJson id json).sameContent (ofJson otherId other) = true := by
  cases json <;> cases other
  case null.null => rfl
  case bool.bool x y =>
    rw [Json.same] at h
    exact h
  case string.string x y =>
    rw [Json.same] at h
    exact h
  case number.number x y =>
    rw [Json.same] at h
    cases x <;> cases y
    case int.int v w =>
      obtain rfl : v = w := by simpa [Json.Number.same] using h
      exact BEq.rfl (α := Binary64)
    case float.float => exact h
    all_goals cases h
  case array.array => exact h
  case object.object => exact h
  all_goals cases h

theorem distinctNames_toJson (distinct : a.DistinctNames) : a.toJson.DistinctNames := by
  cases a with
  | number x => exact Json.distinctNames_ofBinary64 x
  | shared object => exact distinct object rfl
  | _ => trivial

theorem distinctNames_ofJson {json : Json} (id : Nat) (distinct : json.DistinctNames) :
    (ofJson id json).DistinctNames := by
  intro object same
  cases json <;> cases same
  all_goals exact distinct

/-- The JSON of portable values is the same only if they are equal. -/
theorem sameContent_of_same_toJson (distinct : a.DistinctNames) (distinct' : b.DistinctNames)
    (portable : a.Portable) (portable' : b.Portable) (h : a.toJson.same b.toJson = true) :
    a.sameContent b = true := by
  have left := (sameContent_ofJson_toJson 0 a distinct).2 portable
  have right := (sameContent_ofJson_toJson 0 b distinct').2 portable'
  have back := sameContent_symm (distinctNames_ofJson 0 (distinctNames_toJson distinct)) distinct
  exact sameContent_trans (back left) (sameContent_trans (sameContent_ofJson h 0 0) right)

end Value

namespace Store

variable {s : Store} {a b n : NodeId}

theorem rel_exported_children {left right : Option (List NodeId)} :
    Option.Rel (fun json other => json.same other = true)
        (left.map fun listed => Json.array (listed.map s.toJson))
        (right.map fun listed => Json.array (listed.map s.toJson)) ↔
      Childwise (fun c d => (s.toJson c).same (s.toJson d) = true) left right := by
  rw [rel_map, Childwise]
  simp only [Json.same_array, List.forall₂_map_left_iff, List.forall₂_map_right_iff]

/-- Exports are the same if their members are, name by name. -/
theorem same_toJson_iff (h : s.Grounded a) (h' : s.Grounded b) :
    (s.toJson a).same (s.toJson b) = true ↔
      ∀ name, Option.Rel (fun json other => json.same other = true)
        (s.exported? a name) (s.exported? b name) := by
  obtain ⟨members, exported, distinct, found⟩ := exists_toJson_eq_object h
  obtain ⟨others, exported', distinct', found'⟩ := exists_toJson_eq_object h'
  rw [exported, exported', Json.same_object_iff distinct distinct']
  simp only [Entries.Agree, found, found']

/-- Nodes that are alike have the same export. -/
theorem Alike.same_toJson (h : s.Grounded a) :
    ∀ b, s.Grounded b → s.Alike a b → (s.toJson a).same (s.toJson b) = true := by
  refine h.induction fun a h ih b h' alike => ?_
  obtain ⟨kind, fields, children⟩ := alike_iff.1 alike
  refine (same_toJson_iff h h').2 fun name => ?_
  refine rel_or ?children (rel_or ?field ?kind)
  case children =>
    split
    · exact rel_exported_children.2 <| children.imp_of_mem fun child below other below' alike =>
        ih child below other (h'.child below') alike
    · exact .none
  case field =>
    exact rel_map.2 <| (fields.imp_of_mem fun _ _ _ _ => Value.same_toJson) name
  case kind =>
    rw [kind]
    split <;> simp [Json.same]

theorem exported?_type (plain : PlainNames (s.fields n).entries) :
    s.exported? n "type" = some (.string (s.kind n)) := by
  have none : (s.fields n).get? "type" = none :=
    Fields.get?_eq_none.2 fun here => (plain "type" here).1 rfl
  simp [exported?, none]

theorem exported?_children (plain : PlainNames (s.fields n).entries) :
    s.exported? n "children" =
      (s.data n).children.map fun listed => .array (listed.map s.toJson) := by
  have none : (s.fields n).get? "children" = none :=
    Fields.get?_eq_none.2 fun here => (plain "children" here).2 rfl
  simp [exported?, none]

theorem exported?_field {name : String} (notKind : name ≠ "type")
    (notChildren : name ≠ "children") :
    s.exported? n name = ((s.fields n).get? name).map Value.toJson := by
  simp [exported?, notKind, notChildren]

/-- If the members of portable nodes are the same name by name, so are the fields. -/
theorem agree_of_exported? (plain : PlainNames (s.fields a).entries)
    (plain' : PlainNames (s.fields b).entries)
    (agree : ∀ name, Option.Rel (fun json other => json.same other = true)
      (s.exported? a name) (s.exported? b name)) :
    Entries.Agree (fun v w => v.toJson.same w.toJson = true)
      (s.fields a).entries (s.fields b).entries := by
  intro name
  by_cases field : name ≠ "type" ∧ name ≠ "children"
  · have here := agree name
    rw [exported?_field field.1 field.2, exported?_field field.1 field.2] at here
    exact rel_map.1 here
  · rw [Entries.find?_eq_none.2 fun here => field (plain name here),
      Entries.find?_eq_none.2 fun here => field (plain' name here)]
    exact .none

/-- Portable nodes with the same export are alike. -/
theorem alike_of_same_toJson (contents : s.DistinctContents) (h : s.Grounded a) :
    ∀ b, s.Grounded b → s.PortableBelow a → s.PortableBelow b →
      (s.toJson a).same (s.toJson b) = true → s.Alike a b := by
  refine h.induction fun a h ih b h' portable portable' same => ?_
  have agree := (same_toJson_iff h h').1 same
  have here := portable a .refl
  have there := portable' b .refl
  refine .node ?kind ?fields ?children
  case kind =>
    have kind := agree "type"
    rw [exported?_type here.names, exported?_type there.names] at kind
    simpa [Json.same] using kind
  case fields =>
    refine (agree_of_exported? here.names there.names agree).imp_of_mem ?_
    intro field inside other inside' same
    exact Value.sameContent_of_same_toJson (contents a field inside) (contents b other inside')
      (here.values field inside) (there.values other inside') same
  case children =>
    have children := agree "children"
    rw [exported?_children here.names, exported?_children there.names,
      rel_exported_children] at children
    exact children.imp_of_mem fun child below other below' same =>
      ih child below other (h'.child below') (portable.child below) (portable'.child below') same

/-- Equal trees without cycles have the same export, and trees of portable nodes that
have the same export are equal. -/
theorem deepEqual_same_toJson (distinct : s.DistinctContents) (left : s.AcyclicBelow a)
    (right : s.AcyclicBelow b) :
    (s.deepEqual a b = true → (s.toJson a).same (s.toJson b) = true) ∧
      (s.PortableBelow a → s.PortableBelow b →
        (s.toJson a).same (s.toJson b) = true → s.deepEqual a b = true) := by
  have decides := deepEqual_iff_alike distinct left.grounded b
  refine ⟨fun equal => ?_, fun portable portable' same => ?_⟩
  · exact Alike.same_toJson left.grounded b right.grounded (decides.1 equal)
  · exact decides.2
      (alike_of_same_toJson distinct left.grounded b right.grounded portable portable' same)

/-- Two leaves with zeros of different signs and copies of an array, and two pairs of
them. -/
def zeros : Store :=
  ⟨#[⟨"leaf", ⟨[("size", .number (.ofMagnitude true 0)), ("data", .shared ⟨0, .array [.null]⟩)],
      by decide⟩, none⟩,
    ⟨"leaf", ⟨[("data", .shared ⟨1, .array [.null]⟩), ("size", .ofInt 0)], by decide⟩, none⟩,
    ⟨"pair", .empty, some [⟨0⟩, ⟨0⟩]⟩, ⟨"pair", .empty, some [⟨0⟩, ⟨1⟩]⟩], 2⟩

theorem fields_zeros (n : NodeId) : ∀ field ∈ (zeros.fields n).entries,
    (field.1 = "size" ∧ ∃ x : Binary64, x.isFinite = true ∧ field.2 = .number x) ∨
      (field.1 = "data" ∧ ∃ id, field.2 = .shared ⟨id, .array [.null]⟩) := by
  obtain ⟨_ | _ | _ | _ | index⟩ := n <;>
    simp [fields, data, zeros, default, NodeData.ofKind, Fields.empty, Value.ofInt]
  all_goals decide +kernel

theorem portable_zeros (n : NodeId) : (zeros.data n).Portable := by
  refine ⟨fun name inside => ?_, fun field inside => ?_⟩
  · obtain ⟨field, listed, rfl⟩ := List.mem_map.1 inside
    obtain ⟨name, _⟩ | ⟨name, _⟩ := fields_zeros n field listed <;> simp [name]
  · obtain ⟨_, x, finite, value⟩ | ⟨_, id, value⟩ := fields_zeros n field inside
    · rwa [value]
    · rw [value]
      rfl

theorem distinctContents_zeros : zeros.DistinctContents := by
  intro n field inside object same
  obtain ⟨_, x, _, value⟩ | ⟨_, id, value⟩ := fields_zeros n field inside <;>
    rw [value] at same <;> cases same
  exact Json.distinctNames_array.2 (by simp [Json.DistinctNames])

theorem deepEqual_same_toJson_zeros :
    zeros.DistinctContents ∧ zeros.AcyclicBelow ⟨2⟩ ∧ zeros.AcyclicBelow ⟨3⟩ ∧
      zeros.deepEqual ⟨2⟩ ⟨3⟩ = true ∧ (zeros.toJson ⟨2⟩).same (zeros.toJson ⟨3⟩) = true ∧
      zeros.PortableBelow ⟨2⟩ ∧ zeros.PortableBelow ⟨3⟩ ∧ zeros.deepEqual ⟨3⟩ ⟨2⟩ = true := by
  have distinct := distinctContents_zeros
  have acyclic : ∀ n, zeros.AcyclicBelow n := acyclicBelow_of_ascending (by decide)
  have portable : ∀ n, zeros.PortableBelow n := fun _ m _ => portable_zeros m
  have equal : zeros.deepEqual ⟨2⟩ ⟨3⟩ = true := rfl
  have same : (zeros.toJson ⟨3⟩).same (zeros.toJson ⟨2⟩) = true := rfl
  have forward := (deepEqual_same_toJson distinct (acyclic ⟨2⟩) (acyclic ⟨3⟩)).1 equal
  have back := (deepEqual_same_toJson distinct (acyclic ⟨3⟩) (acyclic ⟨2⟩)).2
    (portable _) (portable _) same
  exact ⟨distinct, acyclic _, acyclic _, equal, forward, portable _, portable _, back⟩

/-- Of nodes that are not portable the export keeps less: NaN is written like null. -/
example :
    let s : Store := ⟨#[⟨"leaf", ⟨[("size", .number .nan)], by decide⟩, none⟩,
      ⟨"leaf", ⟨[("size", .null)], by decide⟩, none⟩], 0⟩
    (s.toJson ⟨0⟩).same (s.toJson ⟨1⟩) = true ∧ s.deepEqual ⟨0⟩ ⟨1⟩ = false :=
  ⟨rfl, rfl⟩

end Store
end TreeIndex
