import TreeIndex.Proofs.NormalForm
import TreeIndex.Proofs.PreOrder
import Mathlib.Data.List.Nodup

/-!
# The numbers that an import gives out

Nodes are told apart by their numbers, and shared objects by theirs. An import
numbers its nodes and the arrays and objects among their fields from where the
store has come to, and gives no number twice. So an import into any later store
has none of them.
-/
namespace TreeIndex

/-- Different numbers, from the first bound on and below the second. -/
structure Numbered (low high : Nat) (numbers : List Nat) : Prop where
  le : low ≤ high
  nodup : numbers.Nodup
  bounds : ∀ i ∈ numbers, low ≤ i ∧ i < high

namespace Numbered

variable {low middle high top : Nat} {numbers others : List Nat}

theorem nil (le : low ≤ high) : Numbered low high [] := ⟨le, List.nodup_nil, by simp⟩

theorem single (number : Nat) : Numbered number (number + 1) [number] :=
  ⟨by omega, by simp, by simp⟩

theorem disjoint (first : Numbered low middle numbers) (le : middle ≤ high)
    (second : Numbered high top others) : numbers.Disjoint others := by
  intro i inFirst inSecond
  have before := (first.bounds i inFirst).2
  have after := (second.bounds i inSecond).1
  omega

theorem append (first : Numbered low middle numbers) (second : Numbered middle high others) :
    Numbered low high (numbers ++ others) := by
  have apart := first.disjoint (Nat.le_refl _) second
  refine ⟨first.le.trans second.le, first.nodup.append second.nodup apart, fun i here => ?_⟩
  obtain here | here := List.mem_append.1 here
  · have := first.bounds i here
    exact ⟨this.1, Nat.lt_of_lt_of_le this.2 second.le⟩
  · have := second.bounds i here
    exact ⟨first.le.trans this.1, this.2⟩

theorem perm (h : Numbered low high numbers) (same : numbers.Perm others) :
    Numbered low high others :=
  ⟨h.le, same.nodup_iff.1 h.nodup, fun i here => h.bounds i (same.mem_iff.2 here)⟩

end Numbered

namespace Value

/-- The identity of a shared object. -/
def identity? : Value → Option Nat
  | .shared object => some object.id
  | _ => none

theorem identity?_ofJson (id : Nat) (json : Json) :
    (ofJson id json).identity? = if json.isComposite then some id else none := by
  cases json <;> rfl

end Value

namespace Store

variable {s : Store} {n : NodeId}

/-- The nodes of the tree of a node in pre-order, each as often as paths lead to it. -/
def nodesBelow (s : Store) (n : NodeId) : List NodeId :=
  (s.occurrences .forward n).map Occurrence.node

theorem map_node_occurrencesFrom {direction : Direction} (o : Occurrence) :
    (s.occurrencesFrom direction o).map Occurrence.node =
      (s.occurrences direction o.node).map Occurrence.node := by
  rw [occurrences, occurrencesFrom, occurrencesFrom]
  cases s.size <;> rfl

/-- A node comes before the nodes of its children, in turn. -/
theorem nodesBelow_eq (h : s.Grounded n) :
    s.nodesBelow n = n :: (s.children n).flatMap s.nodesBelow := by
  have grounded : s.Grounded (Occurrence.alone n).node := h
  rw [nodesBelow, occurrences, occurrencesFrom_eq grounded, List.map_cons, List.map_flatMap,
    ← map_node_occurrencesBelow, List.flatMap_map]
  simp only [map_node_occurrencesFrom]
  rfl

/-- The identities of the shared objects among the fields of a node. -/
def identities (s : Store) (n : NodeId) : List Nat :=
  (s.fields n).entries.filterMap fun field => field.2.identity?

theorem numbered_readFrom (id : Nat) (members : List (String × Json)) :
    Numbered id (id + members.length)
      ((readFrom id members).filterMap fun field => field.2.identity?) := by
  induction members generalizing id with
  | nil => exact .nil (Nat.le_refl _)
  | cons member members ih =>
    obtain ⟨name, json⟩ := member
    have first : Numbered id (id + 1) (Value.ofJson id json).identity?.toList := by
      rw [Value.identity?_ofJson]
      split
      · exact .single id
      · exact .nil (by omega)
    have later := first.append (ih (id + 1))
    rw [List.length_cons, Nat.add_comm members.length, ← Nat.add_assoc, readFrom]
    cases shared : (Value.ofJson id json).identity? <;> simpa [shared] using later

theorem shares_shareAll (s : Store) (members : List (String × Json)) :
    (s.shareAll members).2.shares = s.shares + members.length := by
  unfold shareAll
  generalize Fields.empty = fields
  induction members generalizing s fields with
  | nil => rfl
  | cons member members ih =>
    rw [List.foldl_cons, ih (s.share member.2).2, List.length_cons, Nat.add_comm members.length,
      ← Nat.add_assoc]
    rfl

theorem size_shareAll (s : Store) (members : List (String × Json)) :
    (s.shareAll members).2.size = s.size := by
  rw [size, nodes_shareAll, size]

/-- The nodes are numbered between two stores, and so are the shared objects
that the last store has in their fields. -/
structure NumberedBetween (s t later : Store) (nodes : List NodeId) : Prop where
  indexes : Numbered s.size t.size (nodes.map NodeId.index)
  identities : Numbered s.shares t.shares (nodes.flatMap later.identities)

variable {t u later : Store} {nodes others : List NodeId}

theorem NumberedBetween.append (first : NumberedBetween s t later nodes)
    (second : NumberedBetween t u later others) :
    NumberedBetween s u later (nodes ++ others) where
  indexes := by simpa using first.indexes.append second.indexes
  identities := by simpa using first.identities.append second.identities

theorem NumberedBetween.perm (h : NumberedBetween s t later nodes) (same : nodes.Perm others) :
    NumberedBetween s t later others :=
  ⟨h.indexes.perm (same.map _), h.identities.perm (same.flatMap_right _)⟩

/-- Nodes numbered later are other nodes, with other objects in their fields. -/
theorem NumberedBetween.apart {s' t' later' : Store} (h : NumberedBetween s t later nodes)
    (size : t.size ≤ s'.size) (shares : t.shares ≤ s'.shares)
    (h' : NumberedBetween s' t' later' others) :
    nodes.Disjoint others ∧
      (nodes.flatMap later.identities).Disjoint (others.flatMap later'.identities) := by
  refine ⟨fun n here there => ?_, h.identities.disjoint shares h'.identities⟩
  exact h.indexes.disjoint size h'.indexes (List.mem_map_of_mem here) (List.mem_map_of_mem there)

theorem KeptIn.data_new {record : NodeData} (kept : (s.alloc record).2.KeptIn later) :
    later.data (s.alloc record).1 = record := by
  rw [(kept _ (holds_alloc s record)).2, data_alloc, if_pos rfl]

/-- A new node takes the next number, and its fields the next identities. -/
theorem numberedBetween_alloc {fields : List (String × Json)}
    {children : Option (List NodeId)} {kind : String}
    (distinct : (Entries.names fields).Nodup)
    (kept : ((s.shareAll fields).2.alloc ⟨kind, (s.shareAll fields).1, children⟩).2.KeptIn later) :
    NumberedBetween s ((s.shareAll fields).2.alloc ⟨kind, (s.shareAll fields).1, children⟩).2 later
      [((s.shareAll fields).2.alloc ⟨kind, (s.shareAll fields).1, children⟩).1] := by
  refine ⟨?_, ?_⟩
  · have size := s.size_shareAll fields
    simp only [Store.size] at size
    simpa [Store.size, alloc, size] using Numbered.single s.nodes.size
  · have shares : ((s.shareAll fields).2.alloc
        ⟨kind, (s.shareAll fields).1, children⟩).2.shares = s.shares + fields.length :=
      s.shares_shareAll fields
    rw [shares, List.flatMap_singleton, Store.identities, Store.fields, kept.data_new,
      entries_shareAll s distinct]
    exact numbered_readFrom s.shares fields

end Store

namespace Document

open Store

/-- Building numbers the nodes of the tree and the objects in their fields. -/
def BuildsNumbered (document : Document) : Prop :=
  ∀ s later : Store, (document.build s).2.KeptIn later →
    NumberedBetween s (document.build s).2 later (later.nodesBelow (document.build s).1)

theorem numbered_buildAll {documents : List Document}
    (below : ∀ document ∈ documents, document.BuildsNumbered) (s : Store) {later : Store}
    (kept : (buildAll documents s).2.KeptIn later) :
    NumberedBetween s (buildAll documents s).2 later
      ((buildAll documents s).1.flatMap later.nodesBelow) := by
  induction documents generalizing s with
  | nil => exact ⟨.nil (Nat.le_refl _), .nil (Nat.le_refl _)⟩
  | cons document documents ih =>
    have others : (document.build s).2.KeptIn (buildAll documents (document.build s).2).2 :=
      (built_buildAll (fun d _ => d.buildsTree) _).2
    have first := below document (by simp) s later (others.trans kept)
    exact first.append (ih (fun d h => below d (by simp [h])) _ kept)

theorem numbered_buildChildren {children : Option (List Document)}
    (below : ∀ document ∈ children.getD [], document.BuildsNumbered) (s : Store) {later : Store}
    (kept : (buildChildren children s).2.KeptIn later) :
    NumberedBetween s (buildChildren children s).2 later
      (((buildChildren children s).1.getD []).flatMap later.nodesBelow) := by
  cases children with
  | none => exact ⟨.nil (Nat.le_refl _), .nil (Nat.le_refl _)⟩
  | some documents => exact numbered_buildAll below s kept

/-- By induction on the document: the nodes below come first in the numbering and
last in pre-order. -/
theorem buildsNumbered_of_readFrom {document : Document} :
    ∀ json : Json, json.Valid → document.ReadFrom json → document.BuildsNumbered := by
  induction document using Document.induction with
  | node kind fields children ih =>
    intro json valid read s later kept
    obtain ⟨items, documents, shape⟩ := Json.normalizes_of_readFrom valid read
    have record := KeptIn.data_new kept
    have grounded : later.Grounded ((Document.node kind fields children).build s).1 :=
      ((buildsTree _ s).1.keep (.refl s) kept).grounded
    have shared : (buildChildren children s).2.KeptIn later :=
      ((keptIn_shareAll _ fields).trans (keptIn_alloc _ _)).trans kept
    have below : ∀ document ∈ children.getD [], document.BuildsNumbered := by
      intro document here
      obtain ⟨item, inside, read⟩ := documents.exists_of_mem document here
      exact ih document here item (shape.items_valid item inside) read
    have first := numbered_buildChildren below s shared
    have last := numberedBetween_alloc shape.distinct kept
    have order : later.nodesBelow ((Document.node kind fields children).build s).1 =
        ((Document.node kind fields children).build s).1 ::
          ((buildChildren children s).1.getD []).flatMap later.nodesBelow := by
      rw [nodesBelow_eq grounded, Store.children]
      exact congrArg (fun data => _ :: (NodeData.childList data).flatMap later.nodesBelow) record
    rw [order]
    exact (first.append last).perm (List.perm_append_singleton _ _)

end Document

/-- The nodes of an import and the objects in their fields have numbers of their own. -/
theorem Store.numbered_of_importJson {s t : Store} {json : Json} {n : NodeId} (valid : json.Valid)
    (imported : s.importJson json = .ok (n, t)) : NumberedBetween s t t (t.nodesBelow n) := by
  obtain ⟨document, read, build⟩ := importJson_eq_ok.1 imported
  have numbered := Document.buildsNumbered_of_readFrom json valid read s t
  rw [build] at numbered
  exact numbered (.refl t)

end TreeIndex
