import TreeIndex.Document
import TreeIndex.Proofs.TreeRecursion

/-!
# Trees that come from documents

An object is accepted when it has a text under `type` and, if anything, an
array of accepted objects under `children`; the other members are the fields.
Building keeps the nodes that are already there and makes a tree of the shape
of the document, whose fields have their order and whose paths all end.
-/
namespace TreeIndex
namespace Document

/-- What holds of a document when it holds of its child documents holds of all. -/
@[elab_as_elim] theorem induction {P : Document → Prop}
    (node : ∀ kind fields (children : Option (List Document)),
      (∀ below ∈ children.getD [], P below) → P (.node kind fields children))
    (document : Document) : P document := by
  refine @Document.rec P (fun children => ∀ below ∈ children.getD [], P below)
    (fun documents => ∀ below ∈ documents, P below) node ?none ?some ?nil ?cons document
  case none => simp
  case some => exact fun documents all => all
  case nil => simp
  case cons => simp_all

/-- The document is what the value is read as. -/
def ReadFrom (document : Document) (json : Json) : Prop := ofJson json = .ok document

theorem ofItems_cons_eq_ok {index : Nat} {item : Json} {items : List Json}
    {documents : List Document} :
    ofItems index (item :: items) = .ok documents ↔
      ∃ first others, ofJson item = .ok first ∧ ofItems (index + 1) items = .ok others ∧
        documents = first :: others := by
  cases read : ofJson item with
  | error error => simp [ofItems, read]
  | ok first =>
    cases rest : ofItems (index + 1) items with
    | error error => simp [ofItems, read, rest]
    | ok others => simp [ofItems, read, rest, eq_comm]

theorem ofItems_eq_ok (index : Nat) {items : List Json} {documents : List Document} :
    ofItems index items = .ok documents ↔ List.Forall₂ ReadFrom documents items := by
  induction items generalizing index documents with
  | nil => simp [ofItems, eq_comm]
  | cons item items ih =>
    simp only [ofItems_cons_eq_ok, ih, List.forall₂_cons_right_iff, ReadFrom]

theorem childrenOf_cons_of_ne {name : String} (other : name ≠ "children") (value : Json)
    (members : List (String × Json)) :
    childrenOf ((name, value) :: members) = childrenOf members := by
  cases value with
  | array items => rw [childrenOf, if_neg other]
  | _ =>
    rw [childrenOf, if_neg other]
    nofun

theorem childrenOf_array_eq_ok {items : List Json} {members : List (String × Json)}
    {documents : Option (List Document)} :
    childrenOf (("children", .array items) :: members) = .ok documents ↔
      Childwise ReadFrom documents (some items) := by
  cases read : ofItems 0 items with
  | error error =>
    cases documents with
    | none => simp [childrenOf, read]
    | some others => simp [childrenOf, read, ← ofItems_eq_ok 0]
  | ok first =>
    cases documents with
    | none => simp [childrenOf, read]
    | some others => simp [childrenOf, read, ← ofItems_eq_ok 0]

theorem childrenOf_eq_ok {members : List (String × Json)} {documents : Option (List Document)} :
    childrenOf members = .ok documents ↔
      ∃ items, Entries.find? "children" members = Option.map .array items ∧
        Childwise ReadFrom documents items := by
  induction members with
  | nil => cases documents <;> simp [childrenOf]
  | cons member members ih =>
    obtain ⟨name, value⟩ := member
    by_cases here : name = "children"
    · subst here
      cases value with
      | array items =>
        rw [childrenOf_array_eq_ok]
        constructor
        · exact fun read => ⟨some items, rfl, read⟩
        · rintro ⟨_ | others, found, read⟩ <;> simp_all [Entries.find?_cons]
      | _ => simp [childrenOf, Entries.find?_cons]
    · rw [childrenOf_cons_of_ne here, Entries.find?_cons, if_neg here, ih]

/-- What is accepted, and as what it is read. -/
theorem readFrom_iff {document : Document} {json : Json} :
    document.ReadFrom json ↔
      ∃ members kind items documents, json = .object members ∧
        Entries.find? "type" members = some (.string kind) ∧
        Entries.find? "children" members = Option.map .array items ∧
        Childwise ReadFrom documents items ∧
        document = .node kind (members.filter fun entry => isField entry.1) documents := by
  constructor
  · intro read
    unfold ReadFrom at read
    cases json with
    | object members =>
      rw [ofJson] at read
      split at read
      · rename_i kind named
        split at read
        · rename_i documents below
          obtain ⟨items, found, all⟩ := childrenOf_eq_ok.1 below
          cases read
          exact ⟨members, kind, items, documents, rfl, named, found, all, rfl⟩
        · cases read
      · cases read
    | _ => simp [ofJson] at read
  · rintro ⟨members, kind, items, documents, rfl, named, found, all, rfl⟩
    simp only [ReadFrom, ofJson, named, childrenOf_eq_ok.2 ⟨items, found, all⟩]

end Document

namespace Store

/-- The nodes of the store are nodes of the other, with the same records. -/
def KeptIn (s t : Store) : Prop := ∀ n, s.Holds n → t.Holds n ∧ t.data n = s.data n

theorem KeptIn.refl (s : Store) : s.KeptIn s := fun _ held => ⟨held, rfl⟩

theorem KeptIn.trans {s t u : Store} (first : s.KeptIn t) (second : t.KeptIn u) : s.KeptIn u := by
  intro n held
  obtain ⟨between, same⟩ := first n held
  exact ⟨(second n between).1, (second n between).2.trans same⟩

theorem not_holds_alloc (s : Store) (data : NodeData) : ¬ s.Holds (s.alloc data).1 := by
  simp [Holds, alloc, size]

theorem keptIn_alloc (s : Store) (data : NodeData) : s.KeptIn (s.alloc data).2 := by
  intro n held
  have old : n ≠ (s.alloc data).1 := by
    intro same
    subst same
    exact s.not_holds_alloc data held
  refine ⟨?_, by rw [data_alloc, if_neg old]⟩
  simp only [Holds, size, alloc, Array.size_push] at held ⊢
  omega

theorem holds_alloc (s : Store) (data : NodeData) :
    (s.alloc data).2.Holds (s.alloc data).1 := by
  simp [Holds, alloc, size]

theorem nodes_shareAll (s : Store) (members : List (String × Json)) :
    (s.shareAll members).2.nodes = s.nodes := by
  unfold shareAll
  generalize Fields.empty = fields
  induction members generalizing s fields with
  | nil => rfl
  | cons member members ih => exact ih (s.share member.2).2 _

theorem keptIn_shareAll (s : Store) (members : List (String × Json)) :
    s.KeptIn (s.shareAll members).2 := by
  intro n held
  refine ⟨?_, by rw [data, nodes_shareAll]; rfl⟩
  rwa [Holds, size, nodes_shareAll]

/-- The field holds what the member is read as, under the same name. -/
def ReadAs (field : String × Value) (member : String × Json) : Prop :=
  field.1 = member.1 ∧ ∃ id, field.2 = .ofJson id member.2

/-- What members are read as, with identities given out in turn. -/
def readFrom (id : Nat) : List (String × Json) → List (String × Value)
  | [] => []
  | (name, json) :: members => (name, .ofJson id json) :: readFrom (id + 1) members

theorem readAs_readFrom (id : Nat) (members : List (String × Json)) :
    List.Forall₂ ReadAs (readFrom id members) members := by
  induction members generalizing id with
  | nil => exact .nil
  | cons member members ih => exact .cons ⟨rfl, id, rfl⟩ (ih (id + 1))

/-- The members not yet written come after what is there. -/
theorem entries_foldl_share (s : Store) {members : List (String × Json)} (fields : Fields Value)
    (distinct : (fields.names ++ Entries.names members).Nodup) :
    (members.foldl (fun state member => (state.1.insert member.1 (state.2.share member.2).1,
      (state.2.share member.2).2)) (fields, s)).1.entries =
        fields.entries ++ readFrom s.shares members := by
  induction members generalizing s fields with
  | nil => simp [readFrom]
  | cons member members ih =>
    obtain ⟨name, json⟩ := member
    have new : name ∉ fields.names := fun old =>
      List.disjoint_of_nodup_append distinct old (by simp [Entries.names])
    have written : (fields.insert name (s.share json).1).entries =
        fields.entries ++ [(name, (s.share json).1)] := Entries.put_of_not_mem _ new
    have rest : ((fields.insert name (s.share json).1).names ++ Entries.names members).Nodup := by
      rw [Fields.names_insert, if_neg new, List.append_assoc]
      exact distinct
    rw [List.foldl_cons, ih (s.share json).2 _ rest, written, List.append_assoc]
    rfl

theorem entries_shareAll (s : Store) {members : List (String × Json)}
    (distinct : (Entries.names members).Nodup) :
    (s.shareAll members).1.entries = readFrom s.shares members :=
  s.entries_foldl_share .empty distinct

theorem names_eq_of_readAs {fields : List (String × Value)} {members : List (String × Json)}
    (read : List.Forall₂ ReadAs fields members) : Entries.names fields = Entries.names members := by
  induction read with
  | nil => rfl
  | cons here _ ih => simp_all [Entries.names, here.1]

/-- Members of different names become the fields, in their order. -/
theorem readAs_shareAll (s : Store) {members : List (String × Json)}
    (distinct : (Entries.names members).Nodup) :
    List.Forall₂ ReadAs (s.shareAll members).1.entries members := by
  rw [entries_shareAll s distinct]
  exact readAs_readFrom s.shares members

/-- The node is the root of a tree as the document tells it, all of whose nodes
are in the second store and not in the first. -/
inductive Built (old s : Store) : NodeId → Document → Prop
  | node {n : NodeId} {kind : String} {fields : List (String × Json)}
    {children : Option (List Document)} :
    ¬ old.Holds n → s.Holds n → s.kind n = kind →
    (∃ t : Store, s.fields n = (t.shareAll fields).1) →
    Option.Rel (List.Forall₂ (Built old s)) (s.data n).children children →
    Built old s n (.node kind fields children)

variable {s t : Store} {document : Document} {n : NodeId}

/-- A tree stays as it is built when nodes are kept, and was no less new before. -/
theorem Built.keep {older later : Store} (before : older.KeptIn s) (after : t.KeptIn later)
    (built : s.Built t n document) : older.Built later n document := by
  induction document using Document.induction generalizing n with
  | node kind fields children ih =>
    obtain ⟨new, held, named, read, below⟩ := built
    obtain ⟨held', same⟩ := after n held
    refine .node (fun old => new (before n old).1) held' ?_ ?_ ?_
    · rw [Store.kind, same]
      exact named
    · rw [Store.fields, same]
      exact read
    · rw [same]
      exact Childwise.imp_of_mem below fun _ _ document here => ih document here

theorem Built.grounded (built : s.Built t n document) : t.Grounded n := by
  induction document using Document.induction generalizing n with
  | node kind fields children ih =>
    obtain ⟨_, _, _, _, below⟩ := built
    refine Acc.intro n fun child here => ?_
    obtain ⟨document, inside, built⟩ := Childwise.exists_of_mem below child here
    exact ih document inside built

/-- A new node over trees that are built completes the tree of its document. -/
theorem built_alloc (kept : s.KeptIn t) {record : NodeData} {fields : List (String × Json)}
    {children : Option (List Document)}
    (read : ∃ u : Store, record.fields = (u.shareAll fields).1)
    (below : Childwise (s.Built t) record.children children) :
    s.Built (t.alloc record).2 (t.alloc record).1 (.node record.kind fields children) := by
  have written : (t.alloc record).2.data (t.alloc record).1 = record := by
    rw [data_alloc, if_pos rfl]
  refine .node (fun old => t.not_holds_alloc record (kept _ old).1) (t.holds_alloc record) ?_ ?_ ?_
  · exact congrArg NodeData.kind written
  · rw [Store.fields, written]
    exact read
  · rw [written]
    exact below.imp_of_mem fun _ _ document _ built => built.keep (.refl s) (t.keptIn_alloc record)

end Store

namespace Document

/-- Building makes the tree of the document anew and keeps the nodes that are there. -/
def BuildsTree (document : Document) : Prop :=
  ∀ s : Store, s.Built (document.build s).2 (document.build s).1 document ∧
    s.KeptIn (document.build s).2

theorem built_buildAll {documents : List Document}
    (below : ∀ document ∈ documents, document.BuildsTree) (s : Store) :
    List.Forall₂ (s.Built (buildAll documents s).2) (buildAll documents s).1 documents ∧
      s.KeptIn (buildAll documents s).2 := by
  induction documents generalizing s with
  | nil => exact ⟨.nil, .refl s⟩
  | cons document documents ih =>
    obtain ⟨first, kept⟩ := below document (by simp) s
    obtain ⟨others, keptAll⟩ := ih (fun d h => below d (by simp [h])) (document.build s).2
    refine ⟨.cons (first.keep (.refl s) keptAll) ?_, kept.trans keptAll⟩
    exact others.imp fun _ _ built => built.keep kept (.refl _)

theorem built_buildChildren {children : Option (List Document)}
    (below : ∀ document ∈ children.getD [], document.BuildsTree) (s : Store) :
    Childwise (s.Built (buildChildren children s).2) (buildChildren children s).1 children ∧
      s.KeptIn (buildChildren children s).2 := by
  cases children with
  | none => exact ⟨.none, .refl s⟩
  | some documents =>
    obtain ⟨all, kept⟩ := built_buildAll below s
    exact ⟨.some all, kept⟩

theorem buildsTree (document : Document) : document.BuildsTree := by
  induction document using Document.induction with
  | node kind fields children ih =>
    intro s
    obtain ⟨below, kept⟩ := built_buildChildren ih s
    have shared := (buildChildren children s).2.keptIn_shareAll fields
    refine ⟨Store.built_alloc (kept.trans shared) ⟨(buildChildren children s).2, rfl⟩ ?_,
      (kept.trans shared).trans (Store.keptIn_alloc _ _)⟩
    exact below.imp_of_mem fun _ _ document _ built => built.keep (.refl s) shared

end Document

theorem Store.importJson_eq_ok {s t : Store} {json : Json} {n : NodeId} :
    s.importJson json = .ok (n, t) ↔
      ∃ document, Document.ReadFrom document json ∧ document.build s = (n, t) := by
  unfold importJson Document.ReadFrom
  cases Document.ofJson json <;> simp

/-- What is imported is built new beside what is there. -/
theorem Store.built_of_importJson {s t : Store} {json : Json} {n : NodeId}
    (imported : s.importJson json = .ok (n, t)) :
    ∃ document, Document.ReadFrom document json ∧ s.Built t n document ∧ s.KeptIn t := by
  obtain ⟨document, read, build⟩ := importJson_eq_ok.1 imported
  have built := document.buildsTree s
  rw [build] at built
  exact ⟨document, read, built⟩

end TreeIndex
