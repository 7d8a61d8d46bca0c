import TreeIndex.Proofs.ImportedTree
import TreeIndex.Proofs.JsonLaws

/-!
# The object of a node

Export writes the kind first, then the fields and at last the children. As long
as no field is named like one of the two others, the object is read back part by
part; a field with such a name is written over one of them.
-/
namespace TreeIndex

namespace Entries

variable {α β : Type}

/-- Entries with new and different names are written at the end, in their order. -/
theorem foldl_put {f : β → α} {out : List (String × α)} {entries : List (String × β)}
    (distinct : (names out ++ names entries).Nodup) :
    entries.foldl (fun out entry => put entry.1 (f entry.2) out) out =
      out ++ entries.map fun entry => (entry.1, f entry.2) := by
  induction entries generalizing out with
  | nil => simp
  | cons entry entries ih =>
    obtain ⟨name, value⟩ := entry
    have new : name ∉ names out := fun old =>
      List.disjoint_of_nodup_append distinct old (by simp [names])
    have rest : (names (out ++ [(name, f value)]) ++ names entries).Nodup := by
      simpa [names] using distinct
    rw [List.foldl_cons, put_of_not_mem _ new, ih rest]
    simp

/-- Of entries written over others, the last written is found. -/
theorem find?_foldl_put {f : β → α} {out : List (String × α)} {entries : List (String × β)}
    (distinct : (names entries).Nodup) (name : String) :
    find? name (entries.foldl (fun out entry => put entry.1 (f entry.2) out) out) =
      ((find? name entries).map f).or (find? name out) := by
  induction entries generalizing out with
  | nil => simp
  | cons entry entries ih =>
    obtain ⟨other, value⟩ := entry
    simp only [names, List.map_cons, List.nodup_cons] at distinct
    rw [List.foldl_cons, ih distinct.2, find?_put, find?_cons]
    by_cases h : other = name
    · subst h
      simp [find?_eq_none.2 distinct.1]
    · simp [h]

theorem nodup_names_foldl_put {f : β → α} {out : List (String × α)}
    (distinct : (names out).Nodup) (entries : List (String × β)) :
    (names (entries.foldl (fun out entry => put entry.1 (f entry.2) out) out)).Nodup := by
  induction entries generalizing out with
  | nil => exact distinct
  | cons entry entries ih => exact ih (nodup_names_put _ _ distinct)

theorem find?_append (name : String) (entries others : List (String × α)) :
    find? name (entries ++ others) = (find? name entries).or (find? name others) := by
  induction entries with
  | nil => simp
  | cons entry entries ih =>
    obtain ⟨other, value⟩ := entry
    by_cases h : other = name <;> simp [find?_cons, h, ih]

end Entries

/-- The object with a kind, fields, and children if there is a child list. -/
def Json.node (kind : String) (fields : List (String × Json)) (children : Option (List Json)) :
    Json :=
  .object (("type", .string kind) :: fields ++
    (children.map fun items => ("children", .array items)).toList)

/-- None of the entries is named like the kind or like the children. -/
def PlainNames {α : Type} (entries : List (String × α)) : Prop :=
  ∀ name ∈ Entries.names entries, name ≠ "type" ∧ name ≠ "children"

namespace Document

variable {kind : String} {fields : List (String × Json)} {children : Option (List Json)}

theorem isField_eq_true {name : String} :
    isField name = true ↔ name ≠ "type" ∧ name ≠ "children" := by
  simp [isField]

theorem plainNames_filter (members : List (String × Json)) :
    PlainNames (members.filter fun entry => isField entry.1) := by
  intro name here
  obtain ⟨entry, kept, rfl⟩ := List.mem_map.1 here
  exact isField_eq_true.1 (List.mem_filter.1 kept).2

theorem find?_children (plain : PlainNames fields) :
    Entries.find? "children" (("type", .string kind) :: fields ++
      (children.map fun items => ("children", .array items)).toList) = children.map .array := by
  have none : Entries.find? "children" fields = none :=
    Entries.find?_eq_none.2 fun here => (plain "children" here).2 rfl
  cases children <;> simp [Entries.find?_cons, Entries.find?_append, none]

theorem filter_isField (plain : PlainNames fields) :
    (("type", Json.string kind) :: fields ++
      (children.map fun items => ("children", Json.array items)).toList).filter
        (fun entry => isField entry.1) = fields := by
  have all : fields.filter (fun entry => isField entry.1) = fields :=
    List.filter_eq_self.2 fun entry here =>
      isField_eq_true.2 (plain entry.1 (List.mem_map_of_mem here))
  have kindOut : isField "type" = false := rfl
  have childrenOut : isField "children" = false := rfl
  cases children <;> simp [kindOut, childrenOut, all]

/-- The object is read part by part. -/
theorem readFrom_node (plain : PlainNames fields) {document : Document} :
    document.ReadFrom (.node kind fields children) ↔
      ∃ documents, Childwise ReadFrom documents children ∧
        document = .node kind fields documents := by
  rw [readFrom_iff, Json.node]
  constructor
  · rintro ⟨members, name, items, documents, ⟨rfl⟩, named, found, all, rfl⟩
    rw [find?_children plain] at found
    have items_eq : children = items := by
      cases children <;> cases items <;> simp_all
    have kind_eq : kind = name := by simpa [Entries.find?_cons] using named
    rw [filter_isField plain]
    exact ⟨documents, items_eq ▸ all, by rw [kind_eq]⟩
  · rintro ⟨documents, all, rfl⟩
    refine ⟨_, kind, children, documents, rfl, by simp [Entries.find?_cons],
      find?_children plain, all, ?_⟩
    rw [filter_isField plain]

end Document
namespace Store

variable {s : Store} {n : NodeId}

/-- The fields of a node, each as it is written. -/
def fieldMembers (s : Store) (n : NodeId) : List (String × Json) :=
  (s.fields n).entries.map fun field => (field.1, field.2.toJson)

theorem names_fieldMembers (s : Store) (n : NodeId) :
    Entries.names (s.fieldMembers n) = (s.fields n).names := by
  simp [fieldMembers, Entries.names, Fields.names]

theorem plainNames_fieldMembers (plain : PlainNames (s.fields n).entries) :
    PlainNames (s.fieldMembers n) := by
  unfold PlainNames
  rw [names_fieldMembers]
  exact plain

theorem members_eq (plain : PlainNames (s.fields n).entries) :
    s.members n = ("type", .string (s.kind n)) :: s.fieldMembers n := by
  refine Entries.foldl_put (List.nodup_cons.2 ⟨?_, (s.fields n).distinct⟩)
  exact fun here => (plain "type" here).1 rfl

theorem nodeJson_eq (plain : PlainNames (s.fields n).entries) (exported : List Json) :
    s.nodeJson n exported = .node (s.kind n) (s.fieldMembers n)
      ((s.data n).children.map fun _ => exported) := by
  have new : "children" ∉ Entries.names (s.members n) := by
    rw [members_eq plain, Entries.names, List.map_cons, List.mem_cons, not_or]
    exact ⟨by simp, fun here => (plainNames_fieldMembers plain "children" here).2 rfl⟩
  unfold nodeJson isParent Json.node
  rw [Entries.put_of_not_mem _ new, members_eq plain]
  cases (s.data n).children <;> simp

/-- A node whose field names are plain is written part by part. -/
theorem toJson_eq_node (h : s.Grounded n) (plain : PlainNames (s.fields n).entries) :
    s.toJson n = .node (s.kind n) (s.fieldMembers n)
      ((s.data n).children.map (List.map s.toJson)) := by
  rw [toJson_eq h, nodeJson_eq plain]
  cases h : (s.data n).children <;> simp [children, NodeData.childList, h]

/-- A field is found in the object of its node, and the kind if no field is named like it. -/
theorem find?_members (s : Store) (n : NodeId) (name : String) :
    Entries.find? name (s.members n) = (((s.fields n).get? name).map Value.toJson).or
      (if name = "type" then some (.string (s.kind n)) else none) := by
  rw [members, Entries.find?_foldl_put (s.fields n).distinct, Entries.find?_cons,
    Entries.find?_nil]
  simp only [Fields.get?, eq_comm]

/-- The member of a name in the export of a node: the children go before the fields,
and the fields before the kind. -/
def exported? (s : Store) (n : NodeId) (name : String) : Option Json :=
  (if name = "children" then (s.data n).children.map fun listed => .array (listed.map s.toJson)
    else none).or <|
  (((s.fields n).get? name).map Value.toJson).or <|
  if name = "type" then some (.string (s.kind n)) else none

/-- An export has no two members of one name, and these members. -/
theorem exists_toJson_eq_object (h : s.Grounded n) :
    ∃ members, s.toJson n = .object members ∧ (Entries.names members).Nodup ∧
      ∀ name, Entries.find? name members = s.exported? n name := by
  have distinct : (Entries.names (s.members n)).Nodup :=
    Entries.nodup_names_foldl_put (by simp [Entries.names]) _
  rw [toJson_eq h, nodeJson]
  cases listed : (s.data n).children with
  | none =>
    have leaf : s.isParent n = false := by simp [isParent, listed]
    refine ⟨s.members n, by simp [leaf], distinct, fun name => ?_⟩
    simp [exported?, listed, find?_members]
  | some items =>
    have parent : s.isParent n = true := by simp [isParent, listed]
    refine ⟨_, by rw [if_pos parent], Entries.nodup_names_put _ _ distinct, fun name => ?_⟩
    rw [Entries.find?_put, find?_members, exported?]
    by_cases here : name = "children"
    · simp [here, listed, children, NodeData.childList]
    · simp [here, Ne.symm here]

end Store
end TreeIndex
