import TreeIndex.Proofs.ChildrenField
import TreeIndex.Proofs.DocumentIndex

/-!
# Where nodes come from

A node comes into being with a kind and with fields that are written to it in
turn. An import makes one node for each node object of its value and no others:
the kind is the text under `type`, and the fields are the other members but for
the children, in their order. A node that is made singly has the kind and the
fields that it is given.
-/
namespace TreeIndex

namespace NodeData

/-- Writes under a name; only a text can be written to `type`, where it is the kind. -/
def write (data : NodeData) (name : String) (value : Value) : NodeData :=
  if name = "type" then
    match value with
    | .text kind => { data with kind := kind }
    | _ => data
  else { data with fields := data.fields.insert name value }

/-- Writes fields in turn. -/
def writeAll (data : NodeData) (fields : List (String × Value)) : NodeData :=
  fields.foldl (fun data field => data.write field.1 field.2) data

theorem write_of_ne (data : NodeData) {name : String} (other : name ≠ "type") (value : Value) :
    data.write name value = { data with fields := data.fields.insert name value } := if_neg other

/-- Sharing members one after another writes what they are read as. -/
theorem writeAll_readFrom {members : List (String × Json)}
    (plain : ∀ member ∈ members, member.1 ≠ "type") (s : Store) (data : NodeData) :
    data.writeAll (Store.readFrom s.shares members) =
      { data with fields := (members.foldl (fun state member =>
        (state.1.insert member.1 (state.2.share member.2).1, (state.2.share member.2).2))
          (data.fields, s)).1 } := by
  induction members generalizing s data with
  | nil => rfl
  | cons member members ih =>
    have first := data.write_of_ne (plain member (by simp)) (s.share member.2).1
    have rest := ih (fun other listed => plain other (by simp [listed])) (s.share member.2).2
      (data.write member.1 (s.share member.2).1)
    rw [first] at rest
    change writeAll (data.write member.1 (s.share member.2).1)
      (Store.readFrom (s.share member.2).2.shares members) = _
    rw [first]
    exact rest

end NodeData

namespace Store

variable {s t : Store} {m n : NodeId} {name : String} {value : Value}

theorem data_update_self (held : s.Holds n) (f : NodeData → NodeData) :
    (s.update n f).data n = f (s.data n) := (s.data_update n n f held).trans (if_pos rfl)

/-- Writing a field is writing to the record of the node. -/
theorem setField_eq_update (s : Store) (n : NodeId) (name : String) (value : Value) :
    (s.setField n name value).2 = s.update n fun data => data.write name value := by
  by_cases named : name = "type"
  · cases value with
    | text kind => simp [setField, setKind, NodeData.write, named]
    | _ =>
      simp only [setField, NodeData.write, named, if_true]
      exact (s.update_id n).symm
  · simp [setField, NodeData.write, named]

theorem data_setFields (held : s.Holds n) (fields : List (String × Value)) (m : NodeId) :
    (s.setFields n fields).data m = if n = m then (s.data m).writeAll fields else s.data m := by
  induction fields generalizing s with
  | nil => simp [setFields, NodeData.writeAll]
  | cons field fields ih =>
    have first := s.data_update n m (fun data => data.write field.1 field.2) held
    rw [← setField_eq_update] at first
    rw [setFields, List.foldl_cons, ← setFields, ih (holds_setField.2 held), first]
    split <;> rfl

theorem holds_setFields {fields : List (String × Value)} :
    (s.setFields n fields).Holds m ↔ s.Holds m := by
  induction fields generalizing s with
  | nil => rfl
  | cons field fields ih => rw [setFields, List.foldl_cons, ← setFields, ih, holds_setField]

theorem holds_alloc_iff (record : NodeData) :
    (s.alloc record).2.Holds m ↔ s.Holds m ∨ m = (s.alloc record).1 := by
  obtain ⟨index⟩ := m
  simp [Holds, alloc, size]
  omega

theorem holds_leaf_iff {kind : String} {fields : List (String × Value)} :
    (s.leaf kind fields).2.Holds m ↔ s.Holds m ∨ m = (s.create kind).1 :=
  holds_setFields.trans (holds_alloc_iff _)

/-- A new leaf has what is written to it, and no other node is changed. -/
theorem data_leaf (s : Store) (kind : String) (fields : List (String × Value)) (m : NodeId) :
    (s.leaf kind fields).2.data m = if m = (s.create kind).1 then
      (NodeData.ofKind kind).writeAll fields else s.data m := by
  have written := data_setFields (s.holds_alloc (.ofKind kind)) fields m
  have made := s.data_alloc (.ofKind kind) m
  refine written.trans ?_
  rw [made, create]
  by_cases here : m = (s.alloc (.ofKind kind)).1
  · subst here
    simp
  · simp [here, Ne.symm here]

theorem keptIn_leaf (s : Store) (kind : String) (fields : List (String × Value)) :
    s.KeptIn (s.leaf kind fields).2 := by
  intro m held
  have older : m ≠ (s.create kind).1 := fun same => s.not_holds_alloc (.ofKind kind) (same ▸ held)
  exact ⟨holds_leaf_iff.2 (.inl held), (s.data_leaf kind fields m).trans (if_neg older)⟩

theorem KeptIn.update_new (kept : s.KeptIn t) (new : ¬ s.Holds n) (f : NodeData → NodeData) :
    s.KeptIn (t.update n f) := by
  intro m held
  have other : n ≠ m := fun same => new (same ▸ held)
  obtain ⟨there, same⟩ := kept m held
  exact ⟨by simpa [Holds] using there, (data_update_of_ne other).trans same⟩

end Store

theorem Edit.holds_apply {s : Store} {n : NodeId} {edit : Edit} :
    (edit.apply s).Holds n ↔ s.Holds n := by
  obtain ⟨f, update, _⟩ := edit.apply_eq_update s
  rw [update, Store.Holds, Store.size_update, Store.Holds]

namespace Document

open Store

/-- Building makes no nodes but those of the tree. -/
def BuildsNoOthers (document : Document) : Prop :=
  ∀ s later : Store, (document.build s).2.KeptIn later → ∀ m, (document.build s).2.Holds m →
    s.Holds m ∨ later.Reaches (document.build s).1 m

theorem reaches_of_buildAll {documents : List Document} {m : NodeId}
    (below : ∀ document ∈ documents, document.BuildsNoOthers) (s : Store) {later : Store}
    (kept : (buildAll documents s).2.KeptIn later) (held : (buildAll documents s).2.Holds m) :
    s.Holds m ∨ ∃ child ∈ (buildAll documents s).1, later.Reaches child m := by
  induction documents generalizing s with
  | nil => exact .inl held
  | cons document documents ih =>
    have others : (document.build s).2.KeptIn (buildAll documents (document.build s).2).2 :=
      (built_buildAll (fun d _ => d.buildsTree) _).2
    obtain before | ⟨child, inside, down⟩ :=
      ih (fun d h => below d (by simp [h])) (document.build s).2 kept held
    · obtain old | down := below document (by simp) s later (others.trans kept) m before
      · exact .inl old
      · exact .inr ⟨_, List.mem_cons_self, down⟩
    · exact .inr ⟨child, List.mem_cons_of_mem _ inside, down⟩

theorem reaches_of_buildChildren {children : Option (List Document)} {m : NodeId}
    (below : ∀ document ∈ children.getD [], document.BuildsNoOthers) (s : Store) {later : Store}
    (kept : (buildChildren children s).2.KeptIn later)
    (held : (buildChildren children s).2.Holds m) :
    s.Holds m ∨ ∃ child ∈ (buildChildren children s).1.getD [], later.Reaches child m := by
  cases children with
  | none => exact .inl held
  | some documents => exact reaches_of_buildAll below s kept held

theorem buildsNoOthers (document : Document) : document.BuildsNoOthers := by
  induction document using Document.induction with
  | node kind fields children ih =>
    intro s later kept m held
    have record := KeptIn.data_new kept
    obtain before | rfl := (holds_alloc_iff _).1 held
    · have between : (buildChildren children s).2.Holds m := by
        rwa [Holds, size_shareAll] at before
      have shared : (buildChildren children s).2.KeptIn later :=
        ((keptIn_shareAll _ fields).trans (keptIn_alloc _ _)).trans kept
      obtain old | ⟨child, inside, down⟩ := reaches_of_buildChildren ih s shared between
      · exact .inl old
      · refine .inr (.head ?_ down)
        rw [Store.children]
        exact (congrArg (child ∈ NodeData.childList ·) record).mpr inside
    · exact .inr .refl

end Document

/-- An import makes only the nodes of its tree. -/
theorem Store.mem_nodesBelow_of_importJson {s t : Store} {json : Json} {m n : NodeId}
    (imported : s.importJson json = .ok (n, t)) (held : t.Holds m) (new : ¬ s.Holds m) :
    m ∈ t.nodesBelow n := by
  obtain ⟨document, read, build⟩ := importJson_eq_ok.1 imported
  have reached := document.buildsNoOthers s t
  have built := (document.buildsTree s).1
  rw [build] at reached built
  refine (mem_nodes_occurrences .forward built.grounded).2 ?_
  exact (reached (.refl t) m held).resolve_left new

namespace Command

variable {s : Store} {n : NodeId}

/-- The command makes the node with the kind and with the fields written in turn. -/
inductive Makes (s : Store) (n : NodeId) : Command → String → List (String × Value) → Prop
  | importJson {json : Json} {root : NodeId} {t : Store} {members : List (String × Json)}
    {kind : String} {id : Nat} : s.importJson json = .ok (root, t) →
    (n, .object members) ∈ (t.nodesBelow root).zip json.nodeObjects →
    Entries.find? "type" members = some (.string kind) →
    Makes s n (.importJson json) kind
      (Store.readFrom id (members.filter fun entry => Document.isField entry.1))
  | create {kind : String} : n = (s.create kind).1 → Makes s n (.create kind) kind []
  | leaf {kind : String} {fields : List (String × Value)} :
    n = (s.leaf kind fields).1 → Makes s n (.leaf kind fields) kind fields
  | parent {kind : String} {fields : List (String × Value)} {children : List NodeId} :
    n = (s.parent kind fields children).1 → Makes s n (.parent kind fields children) kind fields

theorem exists_makes_of_importJson {json : Json} {root : NodeId} {t : Store}
    (imported : s.importJson json = .ok (root, t)) (new : ¬ s.Holds n) (held : t.Holds n) :
    ∃ kind fields, Makes s n (.importJson json) kind fields ∧ ∃ children,
      t.data n = { (NodeData.ofKind kind).writeAll fields with children := children } := by
  obtain ⟨document, read, built, _⟩ := Store.built_of_importJson imported
  have stand := built.builtFrom (P := fun _ => True) (fun _ _ _ _ _ _ => trivial) trivial read
  have here := Store.mem_nodesBelow_of_importJson imported held new
  rw [← List.map_fst_zip (Nat.le_of_eq stand.length_eq)] at here
  obtain ⟨⟨m, object⟩, paired, same⟩ := List.mem_map.1 here
  obtain rfl : m = n := same
  obtain ⟨⟨members, rfl, named, u, fields⟩, _⟩ := (List.forall₂_iff_zip.1 stand).2 paired
  have plain : ∀ entry ∈ members.filter fun entry => Document.isField entry.1,
      entry.1 ≠ "type" := fun entry listed =>
    (Document.isField_eq_true.1 (List.mem_filter.1 listed).2).1
  refine ⟨_, Store.readFrom u.shares _, .importJson imported paired named, (t.data m).children, ?_⟩
  rw [NodeData.writeAll_readFrom plain]
  exact congrArg (fun fields => (⟨_, fields, _⟩ : NodeData)) fields

/-- What makes a node gives it a kind, and writes fields to it. -/
theorem exists_makes {command : Command} (new : ¬ s.Holds n) (made : (command.apply s).Holds n) :
    ∃ kind fields, Makes s n command kind fields ∧ ∃ children, (command.apply s).data n =
      { (NodeData.ofKind kind).writeAll fields with children := children } := by
  cases command with
  | importJson json =>
    cases imported : s.importJson json with
    | error error =>
      rw [apply, imported] at made
      exact absurd made new
    | ok built =>
      rw [apply, imported] at made ⊢
      exact exists_makes_of_importJson imported new made
  | create kind =>
    have here := ((Store.holds_alloc_iff _).1 made).resolve_left new
    exact ⟨kind, [], .create here, none, (s.data_alloc _ n).trans (if_pos here)⟩
  | leaf kind fields =>
    have here := (Store.holds_leaf_iff.1 made).resolve_left new
    exact ⟨kind, fields, .leaf here, _, (s.data_leaf kind fields n).trans (if_pos here)⟩
  | parent kind fields children =>
    have before : (s.leaf kind fields).2.Holds n := by
      simpa [apply, Store.parent, Store.setChildren, Store.Holds] using made
    obtain rfl := (Store.holds_leaf_iff.1 before).resolve_left new
    have record := (s.data_leaf kind fields _).trans (if_pos rfl)
    refine ⟨kind, fields, .parent rfl, some children, ?_⟩
    rw [← record]
    exact Store.data_update_self before _
  | change edit => exact absurd (Edit.holds_apply.1 made) new

/-- The nodes that are there are changed by edits only. -/
theorem keptIn_apply {command : Command} (making : ∀ edit, command ≠ .change edit) (s : Store) :
    s.KeptIn (command.apply s) := by
  cases command with
  | importJson json =>
    cases imported : s.importJson json with
    | error error =>
      rw [apply, imported]
      exact .refl s
    | ok built =>
      obtain ⟨_, _, _, kept⟩ := Store.built_of_importJson imported
      rw [apply, imported]
      exact kept
  | create kind => exact s.keptIn_alloc _
  | leaf kind fields => exact s.keptIn_leaf kind fields
  | parent kind fields children =>
    exact (s.keptIn_leaf kind fields).update_new (s.not_holds_alloc (.ofKind kind)) _
  | change edit => exact absurd rfl (making edit)

end Command
end TreeIndex
