import TreeIndex.Proofs.EditLaws
import TreeIndex.Proofs.NodeObject

/-!
# The names of the fields of a node

What every operation does to the names: which fields it gives to a node and
which it takes away. The names in an export are those of the fields, and
`children` if there is a child list.
-/
namespace TreeIndex

theorem Fields.contains_iff {α : Type} {fields : Fields α} {name : String} :
    fields.contains name = true ↔ name ∈ fields.names := by
  rw [Fields.contains, Option.isSome_iff_ne_none, ne_eq, Fields.get?_eq_none, not_not]

theorem Fields.contains_insert {α : Type} {fields : Fields α} {name other : String} {value : α} :
    (fields.insert name value).contains other = true ↔
      fields.contains other = true ∨ other = name := by
  rw [contains, get?_insert, contains]
  by_cases same : name = other
  · simp [same]
  · simp [same, Ne.symm same]

theorem Fields.contains_erase {α : Type} {fields : Fields α} {name other : String} :
    (fields.erase name).contains other = true ↔
      fields.contains other = true ∧ other ≠ name := by
  rw [contains, get?_erase, contains]
  by_cases same : name = other
  · simp [same]
  · simp [same, Ne.symm same]

namespace Store

variable {s t : Store} {m n : NodeId} {name other : String}

theorem hasField_iff :
    s.hasField n name = true ↔ name = "type" ∨ (s.fields n).contains name = true := by
  simp [hasField]

theorem hasField_congr (same : t.fields n = s.fields n) :
    t.hasField n name = s.hasField n name := by
  rw [hasField, hasField, same]

theorem hasField_update {f : NodeData → NodeData} (kept : ∀ data, (f data).fields = data.fields) :
    (s.update m f).hasField n name = s.hasField n name :=
  hasField_congr (s.congr_data_update NodeData.fields kept)

@[simp] theorem hasField_setKind (kind : String) :
    (s.setKind m kind).hasField n name = s.hasField n name := hasField_update fun _ => rfl

@[simp] theorem hasField_setChildren (children : Option (List NodeId)) :
    (s.setChildren m children).hasField n name = s.hasField n name := hasField_update fun _ => rfl

@[simp] theorem hasField_pushChild (child : NodeId) :
    (s.pushChild m child).hasField n name = s.hasField n name := hasField_update fun _ => rfl

@[simp] theorem hasField_insertChild (index : Nat) (child : NodeId) :
    (s.insertChild m index child).hasField n name = s.hasField n name :=
  hasField_update fun _ => rfl

@[simp] theorem hasField_removeChild (index : Nat) :
    (s.removeChild m index).2.hasField n name = s.hasField n name := hasField_update fun _ => rfl

theorem hasField_alloc (s : Store) (record : NodeData) (n : NodeId) (name : String) :
    (s.alloc record).2.hasField n name = true ↔ s.hasField n name = true ∨
      n = (s.alloc record).1 ∧ record.fields.contains name = true := by
  have written := s.data_alloc record n
  by_cases here : n = (s.alloc record).1
  · subst here
    have before : s.fields (s.alloc record).1 = .empty := by
      rw [fields, data_of_not_holds (s.not_holds_alloc record)]
      rfl
    rw [if_pos rfl] at written
    rw [hasField_iff, hasField_iff, before, fields, written]
    simp [Fields.contains]
  · rw [if_neg here] at written
    simp [hasField_congr (congrArg NodeData.fields written), here]

theorem hasField_create (s : Store) (kind : String) (n : NodeId) (name : String) :
    (s.create kind).2.hasField n name = s.hasField n name := by
  rw [Bool.eq_iff_iff, create, hasField_alloc]
  simp [NodeData.ofKind, Fields.contains]

/-- A rewriting of the fields of one node. -/
theorem fields_update (g : Fields Value → Fields Value) (s : Store) (m n : NodeId) :
    (s.update m fun data => { data with fields := g data.fields }).fields n =
      if n = m ∧ s.Holds m then g (s.fields n) else s.fields n := by
  by_cases held : s.Holds m
  · have written := s.data_update m n (fun data => { data with fields := g data.fields }) held
    rw [fields, written]
    by_cases here : n = m
    · subst here
      simp [held, fields]
    · simp [here, Ne.symm here, fields]
  · rw [update_of_not_holds held]
    simp [held]

/-- What is written to `type` is no field. -/
theorem hasField_setField_type {value : Value} :
    (s.setField m "type" value).2.hasField n other = s.hasField n other := by
  cases value with
  | text kind => exact hasField_setKind kind
  | _ => rfl

theorem hasField_setField {value : Value} :
    (s.setField m name value).2.hasField n other = true ↔
      s.hasField n other = true ∨ n = m ∧ s.Holds m ∧ other = name := by
  by_cases named : name = "type"
  · subst named
    rw [hasField_setField_type]
    refine (or_iff_left_of_imp ?_).symm
    rintro ⟨_, _, rfl⟩
    rfl
  · have written : (s.setField m name value).2 =
        s.update m fun data => { data with fields := data.fields.insert name value } := by
      simp [setField, named]
    rw [hasField_iff, written, fields_update fun fields => fields.insert name value, hasField_iff]
    by_cases target : n = m ∧ s.Holds m
    · rw [if_pos target, Fields.contains_insert]
      simp [target, or_assoc]
    · rw [if_neg target]
      simp only [← and_assoc, target, false_and, or_false]

theorem hasField_removeField (h : other ≠ "type") :
    (s.removeField m name).2.hasField n other = true ↔
      s.hasField n other = true ∧ ¬ (n = m ∧ other = name) := by
  rw [hasField_iff, removeField, fields_update fun fields => fields.erase name, hasField_iff]
  by_cases target : n = m ∧ s.Holds m
  · rw [if_pos target, Fields.contains_erase]
    simp [target, h]
  · have absent : n = m → (s.fields n).contains other ≠ true := by
      rintro rfl
      have out : ¬ s.Holds n := fun held => target ⟨rfl, held⟩
      rw [fields, data_of_not_holds out]
      exact Bool.false_ne_true
    rw [if_neg target, or_iff_right h, iff_self_and]
    exact fun listed away => absent away.1 listed

theorem holds_setField {value : Value} : (s.setField m name value).2.Holds n ↔ s.Holds n := by
  unfold setField
  split
  · split <;> simp [Holds, setKind]
  · simp [Holds]

theorem hasField_setFields {fields : List (String × Value)} (held : s.Holds m) :
    (s.setFields m fields).hasField n other = true ↔
      s.hasField n other = true ∨ n = m ∧ other ∈ Entries.names fields := by
  induction fields generalizing s with
  | nil => simp [setFields, Entries.names]
  | cons field fields ih =>
    rw [setFields, List.foldl_cons, ← setFields, ih (holds_setField.2 held), hasField_setField]
    simp only [held, true_and, Entries.names, List.map_cons, List.mem_cons]
    rw [or_assoc, ← and_or_left]

/-- The fields that a new leaf has besides those of the store. -/
theorem hasField_leaf (s : Store) (kind : String) (fields : List (String × Value)) (n : NodeId)
    (name : String) : (s.leaf kind fields).2.hasField n name = true ↔
      s.hasField n name = true ∨ n = ⟨s.size⟩ ∧ name ∈ Entries.names fields := by
  have held : (s.create kind).2.Holds (s.create kind).1 := s.holds_alloc _
  have written : (s.leaf kind fields).2 =
      (s.create kind).2.setFields (s.create kind).1 fields := rfl
  rw [written, hasField_setFields held, hasField_create]
  rfl

theorem fields_shareAll (s : Store) (members : List (String × Json)) (n : NodeId) :
    (s.shareAll members).2.fields n = s.fields n := by
  rw [fields, data, nodes_shareAll]
  rfl

theorem contains_shareAll (s : Store) (members : List (String × Json)) :
    (s.shareAll members).1.contains name = true ↔ name ∈ Entries.names members := by
  have before : (Fields.empty : Fields Value).contains name = false := rfl
  unfold shareAll
  -- the fields written so far take part in the induction
  suffices all : ∀ fields : Fields Value, (members.foldl (fun state member =>
      (state.1.insert member.1 (state.2.share member.2).1, (state.2.share member.2).2))
        (fields, s)).1.contains name = true ↔
      fields.contains name = true ∨ name ∈ Entries.names members by
    rw [all, before]
    simp
  induction members generalizing s with
  | nil => simp [Entries.names]
  | cons member members ih =>
    intro fields
    rw [List.foldl_cons, ih, Fields.contains_insert, or_assoc]
    simp [Entries.names]

end Store

theorem Entries.mem_names_put {α : Type} {name other : String} {value : α}
    {entries : List (String × α)} :
    other ∈ names (put name value entries) ↔ other ∈ names entries ∨ other = name := by
  rw [names_put]
  split
  · next old => exact (or_iff_left_of_imp fun same => same ▸ old).symm
  · simp

theorem Entries.mem_names_foldl_put {α β : Type} {f : β → α} {name : String}
    {out : List (String × α)} {entries : List (String × β)} :
    name ∈ names (entries.foldl (fun out entry => put entry.1 (f entry.2) out) out) ↔
      name ∈ names out ∨ name ∈ names entries := by
  induction entries generalizing out with
  | nil => simp [names]
  | cons entry entries ih =>
    rw [List.foldl_cons, ih, mem_names_put, or_assoc]
    simp [names]

namespace Store

variable {s : Store} {n : NodeId} {name : String}

theorem mem_names_members : name ∈ Entries.names (s.members n) ↔ s.hasField n name = true := by
  rw [members, Entries.mem_names_foldl_put, hasField_iff, Fields.contains_iff]
  simp [Entries.names, Fields.names]

/-- The names in an export are those of the fields and that of the child list. -/
theorem exists_mem_names_toJson (h : s.Grounded n) :
    ∃ members, s.toJson n = .object members ∧ ∀ name, name ∈ Entries.names members ↔
      s.hasField n name = true ∨ name = "children" ∧ s.isParent n = true := by
  refine ⟨_, toJson_eq h, fun name => ?_⟩
  split
  · next parent => simp [Entries.mem_names_put, mem_names_members, parent]
  · next leaf => simp [mem_names_members, leaf]

end Store

end TreeIndex
