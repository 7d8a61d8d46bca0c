import TreeIndex.Command
import TreeIndex.Key
import TreeIndex.Proofs.FieldNames

/-!
# A field named `children`

Nodes are meant to have no field of this name: it stands for the child list.
Importing a document never makes such a field, but leaves and parents are made,
and fields written, under any name. So in every run a node lacks the field, in
each of the ways to ask for it, exactly as long as no write of it stands; and
some run leaves a write standing.
-/
namespace TreeIndex

namespace Document

/-- Building the document gives no node a field named `children`. -/
def SparesChildren (document : Document) : Prop :=
  ∀ s n, (document.build s).2.hasField n "children" = s.hasField n "children"

theorem sparesChildren_buildAll {documents : List Document}
    (below : ∀ document ∈ documents, document.SparesChildren) (s : Store) (n : NodeId) :
    (buildAll documents s).2.hasField n "children" = s.hasField n "children" := by
  induction documents generalizing s with
  | nil => rfl
  | cons document documents ih =>
    rw [← below document (by simp) s n]
    exact ih (fun d h => below d (by simp [h])) (document.build s).2

theorem sparesChildren_buildChildren {children : Option (List Document)}
    (below : ∀ document ∈ children.getD [], document.SparesChildren) (s : Store) (n : NodeId) :
    (buildChildren children s).2.hasField n "children" = s.hasField n "children" := by
  cases children with
  | none => rfl
  | some documents => exact sparesChildren_buildAll below s n

theorem ReadFrom.sparesChildren {document : Document} {json : Json}
    (read : document.ReadFrom json) : document.SparesChildren := by
  induction document using Document.induction generalizing json with
  | node kind fields children ih =>
    obtain ⟨members, _, items, documents, rfl, _, _, below, ⟨rfl⟩⟩ := readFrom_iff.1 read
    have spares : ∀ document ∈ children.getD [], document.SparesChildren := by
      intro document here
      obtain ⟨item, _, read⟩ := Childwise.exists_of_mem below document here
      exact ih document here read
    have plain : ∀ t : Store,
        ¬ (t.shareAll (members.filter fun entry => isField entry.1)).1.contains "children" =
          true := by
      intro t written
      exact (plainNames_filter members _ ((t.contains_shareAll _).1 written)).2 rfl
    intro s n
    rw [Bool.eq_iff_iff, build, Store.hasField_alloc, or_iff_left fun written => plain _ written.2,
      Store.hasField_congr (Store.fields_shareAll _ _ n), sparesChildren_buildChildren spares]

end Document

namespace Command

open Store

/-- The command writes a field named `children` to the node. -/
def WritesChildren (s : Store) (n : NodeId) : Command → Prop
  | .leaf _ fields | .parent _ fields _ => n = ⟨s.size⟩ ∧ "children" ∈ Entries.names fields
  | .change (.setField m name _) => n = m ∧ s.Holds m ∧ "children" = name
  | _ => False

variable {s : Store} {n : NodeId}

theorem hasField_apply (command : Command) : (command.apply s).hasField n "children" = true ↔
    s.hasField n "children" = true ∧ command ≠ .change (.removeField n "children") ∨
      command.WritesChildren s n := by
  cases command with
  | importJson json =>
    cases imported : s.importJson json with
    | error error => simp [apply, imported, WritesChildren]
    | ok built =>
      obtain ⟨document, read, build⟩ := Store.importJson_eq_ok.1 imported
      have spared := read.sparesChildren s n
      rw [build] at spared
      simp [apply, imported, WritesChildren, spared]
  | create kind => simp [apply, Store.hasField_create, WritesChildren]
  | leaf kind fields => simp [apply, hasField_leaf, WritesChildren]
  | parent kind fields children =>
    simp [apply, Store.parent, hasField_leaf, WritesChildren]
  | change edit =>
    cases edit with
    | setField m name value => simp [apply, Edit.apply, hasField_setField, WritesChildren]
    | removeField m name =>
      simp [apply, Edit.apply, hasField_removeField, WritesChildren, eq_comm (a := m),
        eq_comm (a := name)]
    | _ => simp [apply, Edit.apply, WritesChildren]

/-- A command of the run writes the field to the node, and none after it takes it away. -/
def ChildrenWritten (commands : List Command) (n : NodeId) : Prop :=
  ∃ before command after, commands = before ++ command :: after ∧
    command.WritesChildren (run before .empty) n ∧ .change (.removeField n "children") ∉ after

theorem childrenWritten_append {commands : List Command} {command : Command} :
    ChildrenWritten (commands ++ [command]) n ↔
      ChildrenWritten commands n ∧ command ≠ .change (.removeField n "children") ∨
        command.WritesChildren (run commands .empty) n := by
  constructor
  · rintro ⟨before, writing, after, split, writes, kept⟩
    obtain rfl | ⟨others, last, rfl⟩ := List.eq_nil_or_concat' after
    · obtain ⟨rfl, ⟨⟩⟩ := List.append_inj' split rfl
      exact .inr writes
    · rw [← List.cons_append, ← List.append_assoc] at split
      obtain ⟨rfl, ⟨⟩⟩ := List.append_inj' split rfl
      rw [List.mem_append, List.mem_singleton, not_or] at kept
      exact .inl ⟨⟨before, writing, others, rfl, writes, kept.1⟩, Ne.symm kept.2⟩
  · rintro (⟨⟨before, writing, after, rfl, writes, kept⟩, stays⟩ | writes)
    · exact ⟨before, writing, after ++ [command], by simp, writes, by simp [kept, Ne.symm stays]⟩
    · exact ⟨commands, command, [], rfl, writes, by simp⟩

/-- By induction on the run from its end. -/
theorem hasField_run (commands : List Command) (n : NodeId) :
    (run commands .empty).hasField n "children" = true ↔ ChildrenWritten commands n := by
  induction commands using List.reverseRecOn with
  | nil =>
    have absent : Store.empty.hasField n "children" = false := by
      rw [hasField, fields, data_of_not_holds (by simp [Holds, size, Store.empty])]
      rfl
    simp [ChildrenWritten, run, absent]
  | append_singleton commands command ih =>
    rw [childrenWritten_append, ← ih, ← hasField_apply]
    simp [run]

end Command

/-- However a node is asked, it has no field named `children`; its export has
the name exactly if there is a child list. -/
structure Store.LacksChildrenField (s : Store) (n : NodeId) : Prop where
  field?_eq : s.field? n "children" = none
  hasField_eq : s.hasField n "children" = false
  key_eq : (KeySpec.field "children").key s n = .ok .missing
  exported : s.AcyclicBelow n → ∃ members, s.toJson n = .object members ∧
    ("children" ∈ Entries.names members ↔ s.isParent n = true)

theorem Store.lacksChildrenField_iff {s : Store} {n : NodeId} :
    s.LacksChildrenField n ↔ s.hasField n "children" = false := by
  refine ⟨LacksChildrenField.hasField_eq, fun absent => ?_⟩
  have unread : s.field? n "children" = none := by
    simpa [hasField, Fields.contains, field?] using absent
  refine ⟨unread, absent, by simp [KeySpec.key, unread, Key.ofOption], fun acyclic => ?_⟩
  obtain ⟨members, exported, names⟩ := exists_mem_names_toJson acyclic.grounded
  exact ⟨members, exported, by simp [names, absent]⟩

/-- A run leaves a node without a field named `children` exactly if it does not
write one to the node, or takes it away again. -/
theorem Store.lacksChildrenField_run (commands : List Command) (n : NodeId) :
    (Command.run commands .empty).LacksChildrenField n ↔ ¬ Command.ChildrenWritten commands n := by
  rw [lacksChildrenField_iff, ← Command.hasField_run, Bool.not_eq_true]

/-- A leaf with a field named like the child list that it has not. -/
def Store.mislabelled : Store :=
  Command.run [.create "a", .change (.setField ⟨0⟩ "children" (.text "x"))] .empty

/-- Nothing keeps a field from being named so, and then it is seen everywhere. -/
theorem Store.not_lacksChildrenField_mislabelled :
    ¬ mislabelled.LacksChildrenField ⟨0⟩ ∧ mislabelled.isParent ⟨0⟩ = false ∧
      mislabelled.field? ⟨0⟩ "children" = some (.text "x") ∧
      mislabelled.hasField ⟨0⟩ "children" = true ∧
      (KeySpec.field "children").key mislabelled ⟨0⟩ = .ok (.value (.text "x")) ∧
      mislabelled.toJson ⟨0⟩ = .object [("type", .string "a"), ("children", .string "x")] := by
  have seen : mislabelled.hasField ⟨0⟩ "children" = true := by decide
  refine ⟨fun lacks => ?_, rfl, rfl, seen, rfl, rfl⟩
  rw [lacks.hasField_eq] at seen
  exact Bool.false_ne_true seen

end TreeIndex
