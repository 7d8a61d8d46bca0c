import TreeIndex.Proofs.FreshNumbers

/-!
# The export as a loop

An export is told by a recursion: the object of a node is made of its kind, its fields
and the exports of its children, written in turn. The loop goes backwards through a list
of the whole tree. Wherever it has come to, the list up to there is the trees of the
children of the next node and of nodes that wait for a parent, so the exports of the
children lie on top of the pile, and at the end only that of the root is there.
-/
namespace TreeIndex

namespace Entries

variable {α : Type} {entries members others : List (String × α)}

/-- What becomes of entries that are written in turn: a name stays where it was written
first, with the value that was written last. -/
structure WrittenInTurn (entries members : List (String × α)) : Prop where
  names_eq : names members = (names entries).eraseDups
  find?_eq : ∀ name, find? name members = find? name entries.reverse

theorem WrittenInTurn.snoc (written : WrittenInTurn entries members) (name : String) (value : α) :
    WrittenInTurn (entries ++ [(name, value)]) (put name value members) := by
  refine ⟨?_, fun other => ?_⟩
  · have once : (names (entries ++ [(name, value)])).eraseDups =
        (names entries).eraseDups ++ ([name].removeAll (names entries)).eraseDups := by
      rw [names, List.map_append, List.eraseDups_append]
      rfl
    rw [names_put, written.names_eq, once, List.cons_removeAll]
    by_cases old : name ∈ names entries
    · simp [old, List.mem_eraseDups]
    · simp [old, List.mem_eraseDups, List.eraseDups_cons]
  · rw [find?_put, written.find?_eq, List.reverse_append, List.reverse_singleton,
      List.singleton_append, find?_cons]

theorem writtenInTurn_foldl_put (entries : List (String × α)) :
    WrittenInTurn entries (entries.foldl (fun out entry => put entry.1 entry.2 out) []) := by
  induction entries using List.reverseRecOn with
  | nil => exact ⟨rfl, fun _ => rfl⟩
  | append_singleton entries entry ih =>
    rw [List.foldl_append]
    exact ih.snoc entry.1 entry.2

theorem nodup_foldl_put (entries : List (String × α)) :
    (names (entries.foldl (fun out entry => put entry.1 entry.2 out) [])).Nodup :=
  @nodup_names_foldl_put α α id [] List.nodup_nil entries

/-- Entries of the same names in the same order, each with the same value. -/
theorem eq_of_find? (distinct : (names members).Nodup) (same : names members = names others)
    (found : ∀ name, find? name members = find? name others) : members = others := by
  have long : members.length = others.length := by simpa [names] using congrArg List.length same
  refine List.ext_getElem long fun i left right => ?_
  have name : members[i].1 = others[i].1 := by
    simpa [names] using List.getElem_of_eq same (by simpa [names] using left)
  have value : some members[i].2 = some others[i].2 := by
    have here : find? members[i].1 members = some members[i].2 :=
      find?_of_mem distinct (List.getElem_mem left)
    have there : find? others[i].1 others = some others[i].2 :=
      find?_of_mem (same ▸ distinct) (List.getElem_mem right)
    rw [← here, found, name, there]
  exact Prod.ext name (Option.some.inj value)

theorem writtenInTurn_iff : WrittenInTurn entries members ↔
    members = entries.foldl (fun out entry => put entry.1 entry.2 out) [] := by
  have made := writtenInTurn_foldl_put entries
  constructor
  · intro written
    refine (eq_of_find? (nodup_foldl_put entries) ?_ fun name => ?_).symm
    · rw [made.names_eq, written.names_eq]
    · rw [made.find?_eq, written.find?_eq]
  · rintro rfl
    exact made

theorem WrittenInTurn.nodup (written : WrittenInTurn entries members) : (names members).Nodup :=
  writtenInTurn_iff.1 written ▸ nodup_foldl_put entries

end Entries

namespace Store

variable {s : Store} {n m : NodeId}

/-- The kind and the fields of a node, as they are written before its children. -/
def ownEntries (s : Store) (n : NodeId) : List (String × Json) :=
  ("type", .string (s.kind n)) :: s.fieldMembers n

/-- A node is exported as an object of its own entries, and of the exports of its children
in their order if there is a child list. -/
inductive ExportedAs (s : Store) : NodeId → Json → Prop
  | leaf {n members} : (s.data n).children = none →
    Entries.WrittenInTurn (s.ownEntries n) members → ExportedAs s n (.object members)
  | parent {n listed exported members} : (s.data n).children = some listed →
    exported.length = listed.length →
    (∀ child json, (child, json) ∈ listed.zip exported → ExportedAs s child json) →
    Entries.WrittenInTurn (s.ownEntries n ++ [("children", .array exported)]) members →
    ExportedAs s n (.object members)

theorem members_eq_foldl (s : Store) (n : NodeId) :
    s.members n = (s.ownEntries n).foldl (fun out entry => Entries.put entry.1 entry.2 out) [] := by
  rw [ownEntries, fieldMembers, List.foldl_cons, List.foldl_map]
  rfl

theorem writtenInTurn_own_iff {members : List (String × Json)} :
    Entries.WrittenInTurn (s.ownEntries n) members ↔ members = s.members n := by
  rw [Entries.writtenInTurn_iff, members_eq_foldl]

theorem writtenInTurn_children_iff {members : List (String × Json)} {exported : Json} :
    Entries.WrittenInTurn (s.ownEntries n ++ [("children", exported)]) members ↔
      members = Entries.put "children" exported (s.members n) := by
  rw [Entries.writtenInTurn_iff, members_eq_foldl, List.foldl_append]
  rfl

theorem exportedAs_iff_exists {json : Json} : s.ExportedAs n json ↔
    ∃ exported, List.Forall₂ s.ExportedAs (s.children n) exported ∧
      json = s.nodeJson n exported := by
  constructor
  · intro exports
    cases exports with
    | leaf absent written =>
      obtain rfl := writtenInTurn_own_iff.1 written
      refine ⟨[], by simp [children, NodeData.childList, absent], ?_⟩
      simp [nodeJson, isParent, absent]
    | @parent _ listed exported _ present long below written =>
      obtain rfl := writtenInTurn_children_iff.1 written
      have all : List.Forall₂ s.ExportedAs listed exported :=
        List.forall₂_iff_zip.2 ⟨long.symm, fun {child json} here => below child json here⟩
      refine ⟨exported, by simpa [children, NodeData.childList, present] using all, ?_⟩
      simp [nodeJson, isParent, present]
  · rintro ⟨exported, all, rfl⟩
    cases present : (s.data n).children with
    | none =>
      have same : s.nodeJson n exported = .object (s.members n) := by
        simp [nodeJson, isParent, present]
      exact same ▸ .leaf present (writtenInTurn_own_iff.2 rfl)
    | some listed =>
      have same : s.nodeJson n exported =
          .object (Entries.put "children" (.array exported) (s.members n)) := by
        simp [nodeJson, isParent, present]
      have children : s.children n = listed := by simp [children, NodeData.childList, present]
      obtain ⟨long, below⟩ := List.forall₂_iff_zip.1 (children ▸ all)
      exact same ▸ .parent present long.symm (fun _ _ here => below here)
        (writtenInTurn_children_iff.2 rfl)

/-- The recursion has one result on a tree that ends, and it is the export. -/
theorem exportedAs_iff (h : s.Grounded n) :
    ∀ json, s.ExportedAs n json ↔ json = s.toJson n := by
  refine h.induction fun n h ih json => ?_
  rw [exportedAs_iff_exists, toJson_eq h]
  constructor
  · rintro ⟨exported, all, rfl⟩
    have each : List.Forall₂ (fun child json => s.toJson child = json) (s.children n) exported :=
      forall₂_imp_of_mem all fun child below json _ exports =>
        ((ih child below json).1 exports).symm
    rw [← List.forall₂_map_left_iff, List.forall₂_eq_eq_eq] at each
    rw [each]
  · rintro rfl
    refine ⟨_, List.forall₂_map_right_iff.2 (List.forall₂_same.2 fun child below => ?_), rfl⟩
    exact (ih child below _).2 rfl

/-- Each pending tree leaves its export on the pile, that of the first topmost. -/
theorem foldl_backward {pending : List NodeId} (grounded : ∀ m ∈ pending, s.Grounded m)
    (pile : List Json) :
    (s.backward pending).foldl s.finish pile = pending.map s.toJson ++ pile := by
  have all := Exports.foldl_children (fun child here => (grounded child here).exports) [] pile
  rwa [List.append_nil] at all

/-- What comes before a node in the list is the trees of its children and of nodes that wait. -/
theorem split_backward {pending before after : List NodeId}
    (grounded : ∀ n ∈ pending, s.Grounded n) (split : s.backward pending = before ++ m :: after) :
    ∃ waiting, (∀ n ∈ s.children m ++ waiting, s.Grounded n) ∧
      before = s.backward (s.children m ++ waiting) := by
  induction pending, grounded using pending_induction generalizing after with
  | nil =>
    have none : s.backward [] = [] := rfl
    simp [none] at split
  | cons n pending grounded ih =>
    rw [backward_cons (grounded n List.mem_cons_self)] at split
    obtain rfl | ⟨rest, last, rfl⟩ := after.eq_nil_or_concat
    · obtain ⟨rfl, same⟩ := List.append_inj' split rfl
      obtain rfl := List.singleton_inj.1 same
      exact ⟨pending, forall_grounded_children grounded, rfl⟩
    · have longer : s.backward (s.children n ++ pending) ++ [n] =
          (before ++ m :: rest) ++ [last] := by
        simpa using split
      exact ih (List.append_inj' longer rfl).1

/-- The exports of the children lie on top of the pile wherever the loop has come to. -/
theorem foldl_split_backward {pending before after : List NodeId}
    (grounded : ∀ n ∈ pending, s.Grounded n) (split : s.backward pending = before ++ m :: after) :
    ∃ rest, before.foldl s.finish [] = (s.children m).map s.toJson ++ rest := by
  obtain ⟨waiting, ends, rfl⟩ := split_backward grounded split
  refine ⟨waiting.map s.toJson, ?_⟩
  rw [foldl_backward ends, List.append_nil, List.map_append]

/-- The list is the pre-order of the pending trees, the last node first. -/
theorem reverse_backward {pending : List NodeId} (grounded : ∀ n ∈ pending, s.Grounded n) :
    (s.backward pending).reverse = pending.flatMap s.nodesBelow := by
  induction pending, grounded using pending_induction with
  | nil => rfl
  | cons n pending grounded ih =>
    have here := grounded n List.mem_cons_self
    rw [backward_cons here, List.reverse_append, ih, List.flatMap_cons, nodesBelow_eq here,
      List.flatMap_append]
    rfl

/-- On a tree without cycles, whose nodes may stand in several places, the export is that of
the recursion, and the only such. Its loop goes backwards through the whole tree in pre-order;
at every step there are as many values on the pile as the node has children, and on top are
the exports of these; at the end the export of the root is alone there. -/
theorem toJson_isRecursive (h : s.AcyclicBelow n) :
    let order := s.preorderBack (s.pathCount n) [n] []
    order.reverse = s.nodesBelow n ∧
    (∀ json, s.ExportedAs n json ↔ json = s.toJson n) ∧
    (∀ before m after, order = before ++ m :: after →
      (s.children m).length ≤ (before.foldl s.finish []).length ∧
      ∃ rest, before.foldl s.finish [] = (s.children m).map s.toJson ++ rest) ∧
    order.foldl s.finish [] = [s.toJson n] := by
  have grounded := h.grounded
  have ends : ∀ m ∈ [n], s.Grounded m := by simpa using grounded
  have listed : s.preorderBack (s.pathCount n) [n] [] = s.backward [n] :=
    preorderBack_eq ends (by simpa [total] using s.paths_le_pathCount n)
  rw [listed]
  refine ⟨?_, exportedAs_iff grounded, fun before m after split => ?_, ?_⟩
  · rw [reverse_backward ends, List.flatMap_singleton]
  · obtain ⟨rest, pile⟩ := foldl_split_backward ends split
    refine ⟨?_, rest, pile⟩
    rw [pile, List.length_append, List.length_map]
    exact Nat.le_add_right _ _
  · exact foldl_backward ends []

/-- A parent that has a leaf twice, and a field named like the child list. -/
def overwritten : Store :=
  ⟨#[.ofKind "leaf",
    ⟨"pair", ⟨[("children", .null), ("done", .bool true)], by decide⟩, some [⟨0⟩, ⟨0⟩]⟩], 0⟩

/-- The leaf is finished twice before its parent takes both, in the place of the field. -/
theorem toJson_isRecursive_overwritten :
    let order := overwritten.preorderBack (overwritten.pathCount ⟨1⟩) [⟨1⟩] []
    let leaf := Json.object [("type", .string "leaf")]
    overwritten.AcyclicBelow ⟨1⟩ ∧ order = [⟨0⟩, ⟨0⟩] ++ ⟨1⟩ :: [] ∧
    overwritten.ExportedAs ⟨1⟩ (.object
      [("type", .string "pair"), ("children", .array [leaf, leaf]), ("done", .bool true)]) ∧
    ([⟨0⟩, ⟨0⟩].foldl overwritten.finish []).take 2 = [leaf, leaf] ∧
    order.foldl overwritten.finish [] = [overwritten.toJson ⟨1⟩] := by
  intro order leaf
  have acyclic : overwritten.AcyclicBelow ⟨1⟩ := acyclicBelow_of_ascending (by decide) _
  have split : order = [⟨0⟩, ⟨0⟩] ++ ⟨1⟩ :: [] := by decide
  obtain ⟨-, recursive, pile, last⟩ := toJson_isRecursive acyclic
  obtain ⟨-, rest, exported⟩ := pile _ _ _ split
  refine ⟨acyclic, split, (recursive _).2 rfl, ?_, last⟩
  rw [exported]
  rfl

end Store
end TreeIndex
