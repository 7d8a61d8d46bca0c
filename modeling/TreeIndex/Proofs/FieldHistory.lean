import TreeIndex.FieldEvent
import TreeIndex.Proofs.ExportLoop
import TreeIndex.Proofs.NodeOrigins

/-!
# The fields of a node as a history

What is read of a node is told by what was written to it and removed from it since
it was made. The value of a name is the one written last of those that stand, and
the names are in the order of the first ones. Nothing that happens to other nodes
is in the history.
-/
namespace TreeIndex

namespace Entries

variable {α : Type} {entries members : List (String × α)} {name other : String} {value : α}

theorem drop_put_self : drop name (put name value members) = drop name members := by
  induction members with
  | nil => simp [put, drop]
  | cons member members ih =>
    obtain ⟨own, old⟩ := member
    by_cases here : own = name
    · simp [put, drop, here]
    · simp [put, drop, here, ih]

theorem drop_put_of_ne (apart : other ≠ name) :
    drop name (put other value members) = put other value (drop name members) := by
  induction members with
  | nil => simp [put, drop, apart]
  | cons member members ih =>
    obtain ⟨own, old⟩ := member
    by_cases here : own = name
    · simp [put, drop, here, Ne.symm apart]
    · by_cases there : own = other
      · simp [put, drop, there, apart]
      · simp [put, drop, here, there, ih]

theorem drop_of_not_mem (absent : name ∉ names members) : drop name members = members := by
  induction members with
  | nil => rfl
  | cons member members ih =>
    obtain ⟨own, old⟩ := member
    simp only [names, List.map_cons, List.mem_cons, not_or] at absent ih
    simp [drop, Ne.symm absent.1, ih absent.2]

/-- A name that is dropped might as well not have been written. -/
theorem WrittenInTurn.drop (written : WrittenInTurn entries members) (name : String) :
    WrittenInTurn (entries.filter fun entry => entry.1 != name) (drop name members) := by
  rw [writtenInTurn_iff] at written ⊢
  subst written
  induction entries using List.reverseRecOn with
  | nil => rfl
  | append_singleton entries entry ih =>
    rw [List.foldl_append, List.filter_append, List.foldl_append, ← ih]
    by_cases dropped : entry.1 = name
    · simp [dropped, drop_put_self]
    · simp [dropped, drop_put_of_ne dropped]

end Entries

namespace FieldEvent

variable {history : List FieldEvent} {name : String} {value : Value}

theorem standing_append_written : standing (history ++ [.written name value]) =
    standing history ++ [(name, value)] := by
  induction history with
  | nil => rfl
  | cons event history ih =>
    cases event with
    | written other old =>
      simp only [List.cons_append, standing, List.any_append, ih]
      cases history.any (removes other) <;> simp [removes]
    | removed other => exact ih

theorem standing_append_removed : standing (history ++ [.removed name]) =
    (standing history).filter fun entry => entry.1 != name := by
  induction history with
  | nil => rfl
  | cons event history ih =>
    cases event with
    | written other old =>
      simp only [List.cons_append, standing, List.any_append, ih]
      by_cases same : other = name
      · cases history.any (removes other) <;> simp [removes, same]
      · cases history.any (removes other) <;> simp [removes, same, Ne.symm same]
    | removed other => exact ih

end FieldEvent

namespace NodeData

variable {data other : NodeData} {history : List FieldEvent} {name : String}

/-- The kind and the fields by their names. -/
def entries (data : NodeData) : List (String × Value) :=
  ("type", .text data.kind) :: data.fields.entries

/-- The record has what stands of the history. -/
def Follows (data : NodeData) (history : List FieldEvent) : Prop :=
  Entries.WrittenInTurn (FieldEvent.standing history) data.entries

theorem Follows.congr (follows : data.Follows history) (same : other.entries = data.entries) :
    other.Follows history := by
  rwa [Follows, same]

theorem follows_ofKind (kind : String) :
    (ofKind kind).Follows [.written "type" (.text kind)] := ⟨rfl, fun _ => rfl⟩

theorem Follows.write (follows : data.Follows history) (name : String) (value : Value) :
    (data.write name value).Follows (history ++ FieldEvent.writing name value) := by
  by_cases accepted : FieldEvent.accepts name value = true
  · have put : (data.write name value).entries = Entries.put name value data.entries := by
      by_cases named : name = "type"
      · subst named
        cases value with
        | text kind => rfl
        | _ => cases accepted
      · simp [write_of_ne data named, entries, Entries.put, Ne.symm named, Fields.insert]
    rw [Follows, put, FieldEvent.writing, if_pos accepted, FieldEvent.standing_append_written]
    exact follows.snoc name value
  · have kept : data.write name value = data := by
      cases value with
      | text kind => exact absurd rfl accepted
      | _ =>
        have named : name = "type" := by simpa [FieldEvent.accepts] using accepted
        simp [NodeData.write, named]
    rwa [kept, FieldEvent.writing, if_neg accepted, List.append_nil]

theorem Follows.writeAll (follows : data.Follows history) (fields : List (String × Value)) :
    (data.writeAll fields).Follows (history ++ FieldEvent.writingAll fields) := by
  induction fields generalizing data history with
  | nil => simpa [NodeData.writeAll, FieldEvent.writingAll] using follows
  | cons field fields ih =>
    have rest := ih (follows.write field.1 field.2)
    rwa [List.append_assoc] at rest

theorem Follows.erase (follows : data.Follows history) (plain : name ≠ "type") :
    { data with fields := data.fields.erase name }.Follows
      (history ++ [FieldEvent.removed name]) := by
  have kept : { data with fields := data.fields.erase name }.entries =
      Entries.drop name data.entries := by
    simp [entries, Entries.drop, Ne.symm plain, Fields.erase]
  rw [Follows, FieldEvent.standing_append_removed, kept]
  exact Entries.WrittenInTurn.drop follows name

theorem Follows.not_mem_names (follows : data.Follows history) : "type" ∉ data.fields.names :=
  (List.nodup_cons.1 follows.nodup).1

theorem Follows.erase_type (follows : data.Follows history) :
    data.fields.erase "type" = data.fields :=
  Fields.ext (Entries.drop_of_not_mem follows.not_mem_names)

end NodeData

section Runs

variable {s : Store} {n : NodeId} {history : List FieldEvent}

theorem Edit.entries_apply {edit : Edit} (children : edit.ofChildren = true) (m : NodeId) :
    ((edit.apply s).data m).entries = (s.data m).entries := by
  obtain ⟨f, update, _, kept⟩ := edit.apply_eq_update s
  rw [update]
  refine s.congr_data_update NodeData.entries fun data => ?_
  obtain ⟨kind, fields⟩ := kept children data
  rw [NodeData.entries, NodeData.entries, kind, fields]

theorem Edit.follows_apply (held : s.Holds n) (follows : (s.data n).Follows history) (edit : Edit) :
    ((edit.apply s).data n).Follows
      (history ++ if edit.target = n then edit.events else []) := by
  by_cases here : edit.target = n
  · rw [if_pos here]
    cases edit with
    | setKind m kind =>
      obtain rfl : m = n := here
      rw [apply, Store.setKind, Store.data_update_self held]
      exact follows.write "type" (.text kind)
    | setField m name value =>
      obtain rfl : m = n := here
      rw [apply, Store.setField_eq_update, Store.data_update_self held]
      exact follows.write name value
    | removeField m name =>
      obtain rfl : m = n := here
      rw [apply, Store.removeField, Store.data_update_self held, events]
      split
      · next named =>
        subst named
        simpa [follows.erase_type] using follows
      · next plain => exact follows.erase plain
    | _ => simpa only [events, List.append_nil] using follows.congr (entries_apply rfl n)
  · rwa [data_apply_of_ne here, if_neg here, List.append_nil]

namespace Command

theorem follows_run (held : s.Holds n) (follows : (s.data n).Follows history)
    (later : List Command) :
    (run later s).Holds n ∧
      ((run later s).data n).Follows (history ++ Command.history n later) := by
  induction later generalizing s history with
  | nil => simpa [run, Command.history] using ⟨held, follows⟩
  | cons command later ih =>
    -- a command that is no edit is not in the history
    have making (other : ∀ edit, command ≠ .change edit) :
        (run (command :: later) s).Holds n ∧
          ((run (command :: later) s).data n).Follows (history ++ Command.history n later) := by
      obtain ⟨kept, same⟩ := keptIn_apply other s n held
      exact ih kept (same ▸ follows)
    cases command with
    | change edit =>
      have rest := ih (Edit.holds_apply.2 held) (edit.follows_apply held follows)
      rwa [List.append_assoc] at rest
    | _ => exact making (by simp)

end Command

end Runs

namespace Store

variable {s : Store} {n : NodeId} {history : List FieldEvent}

/-- A change that leaves the record of its node alone changes nothing. -/
theorem update_eq_self {f : NodeData → NodeData} (same : f (s.data n) = s.data n) :
    s.update n f = s := by
  by_cases held : s.Holds n
  · have nodes : s.nodes.modify n.index f = s.nodes := by
      refine Array.ext (by simp) fun i _ bound => ?_
      rw [Array.getElem_modify]
      split
      · next here =>
        subst here
        simpa [data, bound] using same
      · rfl
    rw [update, nodes]
  · exact update_of_not_holds held f

/-- The kind and the fields of a node, and the answers to reads and writes of them, are those
that its history tells. The kind is a field named `type` that is listed nowhere; it can be
neither removed nor made anything but a text. Edits of other nodes leave the node alone. -/
structure Follows (s : Store) (n : NodeId) (history : List FieldEvent) : Prop where
  field?_eq : ∀ name,
    s.field? n name = Entries.find? name (FieldEvent.standing history).reverse
  hasField_eq : ∀ name, s.hasField n name = (s.field? n name).isSome
  field?_type : s.field? n "type" = some (.text (s.kind n))
  names_eq : "type" :: (s.fields n).names =
    (Entries.names (FieldEvent.standing history)).eraseDups
  get?_eq : ∀ name, (s.fields n).get? name = if name = "type" then none else s.field? n name
  setField_answer : ∀ name value, (s.setField n name value).1 =
    if FieldEvent.accepts name value then s.field? n name else none
  removeField_answer : ∀ name, (s.removeField n name).1 =
    if name = "type" then none else s.field? n name
  setField_refused : ∀ name value, FieldEvent.accepts name value = false →
    (s.setField n name value).2 = s
  removeField_type : (s.removeField n "type").2 = s
  elsewhere : ∀ edit : Edit, edit.target ≠ n → (edit.apply s).data n = s.data n

theorem setField_eq_of_refused {name : String} {value : Value}
    (refused : FieldEvent.accepts name value = false) : s.setField n name value = (none, s) := by
  cases value with
  | text kind => cases refused
  | _ =>
    have named : name = "type" := by simpa [FieldEvent.accepts] using refused
    simp [setField, named]

theorem setField_fst_of_accepted {name : String} {value : Value}
    (accepted : FieldEvent.accepts name value = true) :
    (s.setField n name value).1 = s.field? n name := by
  by_cases named : name = "type"
  · subst named
    cases value with
    | text kind => rfl
    | _ => cases accepted
  · simp [setField, field?, named]

/-- Whoever has the record that a history leaves answers as the history tells. -/
theorem follows_of_data (record : (s.data n).Follows history) : s.Follows n history := by
  have entries (name : String) : s.field? n name = Entries.find? name (s.data n).entries := by
    rw [NodeData.entries, Entries.find?_cons]
    simp only [eq_comm, field?, kind, fields, Fields.get?]
  have plain (name : String) :
      (s.fields n).get? name = if name = "type" then none else s.field? n name := by
    split
    · next named => exact Fields.get?_eq_none.2 (named ▸ record.not_mem_names)
    · next other => rw [field?, if_neg other]
  refine {
    field?_eq := fun name => (entries name).trans (record.find?_eq name)
    hasField_eq := fun name => ?_
    field?_type := rfl
    names_eq := record.names_eq
    get?_eq := plain
    setField_answer := fun name value => ?_
    removeField_answer := plain
    setField_refused := fun name value refused => by rw [setField_eq_of_refused refused]
    removeField_type := update_eq_self (by rw [record.erase_type])
    elsewhere := fun edit other => edit.data_apply_of_ne other }
  · rw [hasField, field?]
    split
    · next named => simp [named]
    · next other => simp [other, Fields.contains]
  · split
    · next accepted => exact setField_fst_of_accepted accepted
    · next refused => rw [setField_eq_of_refused (Bool.eq_false_iff.2 refused)]

/-- A node that a command makes has a kind and fields that are written to it in turn; with
them begins the history that it follows ever after. -/
theorem follows_history {command : Command} (new : ¬ s.Holds n)
    (made : (command.apply s).Holds n) : ∃ kind fields, command.Makes s n kind fields ∧
      ∀ later : List Command, (Command.run later (command.apply s)).Follows n
        (.written "type" (.text kind) :: FieldEvent.writingAll fields ++
          Command.history n later) := by
  obtain ⟨kind, fields, makes, children, record⟩ := Command.exists_makes new made
  refine ⟨kind, fields, makes, fun later => follows_of_data ?_⟩
  refine (Command.follows_run made ?_ later).2
  rw [record]
  exact ((NodeData.follows_ofKind kind).writeAll fields).congr rfl

/-- A document of a box with one thing in it. -/
def parcel : Json :=
  .object [("type", .string "box"), ("children", .array [
    .object [("size", .bool true), ("type", .string "item"), ("color", .string "red")]])]

/-- Writes over what is in the box, with a size that is removed and written anew. -/
def repacking : List Command :=
  [.leaf "label" [("type", .text "tag")], .change (.setField ⟨0⟩ "size" (.text "big")),
    .change (.removeField ⟨0⟩ "size"), .change (.setField ⟨0⟩ "type" (.text "toy")),
    .change (.setField ⟨0⟩ "size" (.text "small")), .change (.setField ⟨0⟩ "color" (.text "blue")),
    .change (.setField ⟨0⟩ "type" .null), .change (.removeField ⟨0⟩ "type"),
    .change (.setKind ⟨2⟩ "sticker"), .change (.pushChild ⟨0⟩ ⟨2⟩)]

/-- The color keeps its place before the size, which was removed. -/
theorem follows_history_repacking :
    ¬ Store.empty.Holds ⟨0⟩ ∧ ((Command.importJson parcel).apply .empty).Holds ⟨0⟩ ∧
    ∃ kind fields, (Command.importJson parcel).Makes .empty ⟨0⟩ kind fields ∧
      let packed := Command.run repacking ((Command.importJson parcel).apply .empty)
      let history := .written "type" (.text kind) :: FieldEvent.writingAll fields ++
        Command.history ⟨0⟩ repacking
      FieldEvent.standing history = [("type", .text "item"), ("color", .text "red"),
        ("type", .text "toy"), ("size", .text "small"), ("color", .text "blue")] ∧
      packed.Follows ⟨0⟩ history ∧ packed.field? ⟨0⟩ "type" = some (.text "toy") ∧
      packed.field? ⟨0⟩ "color" = some (.text "blue") ∧
      (packed.fields ⟨0⟩).names = ["color", "size"] := by
  have new : ¬ Store.empty.Holds ⟨0⟩ := by decide
  have made : ((Command.importJson parcel).apply .empty).Holds ⟨0⟩ := by decide
  obtain ⟨kind, fields, makes, follows⟩ := follows_history new made
  have packed := follows repacking
  refine ⟨new, made, kind, fields, makes, ?_⟩
  cases makes with
  | importJson imported paired named =>
    cases imported
    -- the box comes first in the tree, then the thing in it
    obtain ⟨⟨⟩⟩ | ⟨_, ⟨⟩ | ⟨_, ⟨⟩⟩⟩ := paired
    obtain rfl := Json.string.inj (Option.some.inj named)
    refine ⟨rfl, packed, packed.field?_eq "type", packed.field?_eq "color", ?_⟩
    exact (List.cons.inj packed.names_eq).2

end Store
end TreeIndex
