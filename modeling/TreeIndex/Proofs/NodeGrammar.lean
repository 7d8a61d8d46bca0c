import TreeIndex.Proofs.ImportedTree
import TreeIndex.Proofs.JsonLaws
import TreeIndex.Proofs.JsonPointer
import Mathlib.Data.List.Lex

/-!
# The grammar of nodes and its first offender

`IsNode` is the grammar of the JSON values that are accepted. What is wrong with
one value itself is its fault, in a fixed order of precedence; `faultAt?` is the
fault at the end of a way down. Ways down are compared as lists of positions: a
value comes before all that is below it, and an item with all below it before the
next item, which is pre-order. An import fails with the first fault there is.
-/
namespace TreeIndex
namespace Json

variable {json child : Json} {index : Nat}

/-- An object with a text under `type` and, if anything, an array of nodes under
`children`. -/
inductive IsNode : Json → Prop
  | leaf {members kind} :
    Entries.find? "type" members = some (.string kind) →
    Entries.find? "children" members = none →
    IsNode (.object members)
  | parent {members kind items} :
    Entries.find? "type" members = some (.string kind) →
    Entries.find? "children" members = some (.array items) →
    (∀ item ∈ items, IsNode item) →
    IsNode (.object members)

/-- What is wrong with the value itself: it is no object, or else it has no text under
`type`, or else something that is no array under `children`. -/
def fault? : Json → Option ImportFault
  | .object members =>
    match Entries.find? "type" members with
    | some (.string _) =>
      match Entries.find? "children" members with
      | none => none
      | some (.array _) => none
      | some _ => some .invalidChildren
    | _ => some .missingKind
  | _ => some .notAnObject

/-- The fault of the value at the end of a way down. -/
def faultAt? (json : Json) (path : List Nat) : Option ImportFault :=
  (json.descend? path).bind fault?

/-- The error names a fault and its place, and there is none before it in pre-order. -/
structure FirstFault (json : Json) (error : ImportError) : Prop where
  here : json.faultAt? error.path = some error.fault
  before : ∀ path < error.path, json.faultAt? path = none

theorem faultAt?_cons (json : Json) (index : Nat) (path : List Nat) :
    json.faultAt? (index :: path) =
      (json.child? index).bind fun child => child.faultAt? path := by
  rw [faultAt?, descend?, Option.bind_assoc]
  rfl

/-- What holds of a value when it holds of its children holds of all. -/
@[elab_as_elim] theorem child_induction {P : Json → Prop}
    (step : ∀ json, (∀ index child, json.child? index = some child → P child) → P json)
    (json : Json) : P json := by
  have childless : ∀ json, (∀ members, json ≠ .object members) → P json := by
    intro json other
    refine step json fun index child below => ?_
    obtain ⟨members, _, same, _⟩ := child?_eq_some.1 below
    exact absurd same (other members)
  -- children are items of a member, so items are carried along
  have all : P json ∧ ∀ items, json = .array items → ∀ item ∈ items, P item := by
    induction json using Json.induction with
    | array items ih =>
      refine ⟨childless _ (by simp), ?_⟩
      rintro _ ⟨rfl⟩ item listed
      exact (ih item listed).1
    | object members ih =>
      refine ⟨step _ fun index child below => ?_, by simp⟩
      obtain ⟨_, items, ⟨rfl⟩, listed, item⟩ := child?_eq_some.1 below
      have member := ih ("children", .array items) (Entries.mem_of_find? listed)
      exact member.2 items rfl child (List.mem_of_getElem? item)
    | _ => exact ⟨childless _ (by simp), by simp⟩
  exact all.1

theorem IsNode.fault?_eq_none (h : json.IsNode) : json.fault? = none := by
  cases h with
  | leaf named listed => simp [fault?, named, listed]
  | parent named listed all => simp [fault?, named, listed]

theorem IsNode.child_isNode (h : json.IsNode) (here : json.child? index = some child) :
    child.IsNode := by
  obtain ⟨members, items, rfl, listed, item⟩ := child?_eq_some.1 here
  cases h with
  | leaf named none => simp [none] at listed
  | parent named listed' all =>
    cases listed.symm.trans listed'
    exact all child (List.mem_of_getElem? item)

/-- There is no fault in a node, at any depth. -/
theorem IsNode.faultAt?_eq_none (h : json.IsNode) (path : List Nat) :
    json.faultAt? path = none := by
  induction path generalizing json with
  | nil => exact h.fault?_eq_none
  | cons index path ih =>
    rw [faultAt?_cons]
    exact Option.bind_eq_none_iff.2 fun child below => ih (h.child_isNode below)

theorem isNode_of_readFrom {document : Document} :
    ∀ json, document.ReadFrom json → json.IsNode := by
  induction document using Document.induction with
  | node kind fields children ih =>
    intro json read
    obtain ⟨members, name, items, documents, rfl, named, listed, all, same⟩ :=
      Document.readFrom_iff.1 read
    cases same
    cases items with
    | none => exact .leaf named listed
    | some items =>
      refine .parent named listed fun item inside => ?_
      obtain ⟨below, here, read⟩ := all.flip.exists_of_mem item inside
      exact ih below here item read

theorem IsNode.exists_readFrom (h : json.IsNode) :
    ∃ document, Document.ReadFrom document json := by
  induction h with
  | leaf named listed =>
    exact ⟨_, Document.readFrom_iff.2 ⟨_, _, none, none, rfl, named, listed, .none, rfl⟩⟩
  | @parent members kind items named listed _ ih =>
    obtain ⟨documents, all⟩ : ∃ documents, Childwise Document.ReadFrom documents (some items) :=
      exists_childwise ih
    exact ⟨_, Document.readFrom_iff.2 ⟨_, _, some items, documents, rfl, named, listed, all, rfl⟩⟩

theorem FirstFault.unique {error other : ImportError} (h : json.FirstFault error)
    (k : json.FirstFault other) : error = other := by
  obtain ⟨fault, path⟩ := error
  obtain ⟨fault', path'⟩ := other
  have same : path = path' := by
    obtain before | same | after := lt_trichotomy path path'
    · exact absurd h.here (by simp [k.before path before])
    · exact same
    · exact absurd k.here (by simp [h.before path' after])
  subst same
  have here := h.here.symm.trans k.here
  simp_all

end Json

namespace Document

/-- The items fail with the first of them that does, one step further down. -/
theorem ofItems_eq_error {start : Nat} {items : List Json} {error : ImportError}
    (h : ofItems start items = .error error) :
    ∃ index item inner, items[index]? = some item ∧ ofJson item = .error inner ∧
      error = inner.below (start + index) ∧
      ∀ earlier < index, ∀ other, items[earlier]? = some other → other.IsNode := by
  induction items generalizing start with
  | nil => simp [ofItems] at h
  | cons item items ih =>
    cases read : ofJson item with
    | error inner =>
      rw [ofItems, read] at h
      cases h
      exact ⟨0, item, inner, rfl, read, rfl, by simp⟩
    | ok document =>
      have later : ofItems (start + 1) items = .error error := by
        rw [ofItems, read] at h
        cases rest : ofItems (start + 1) items with
        | error inner => simpa [rest] using h
        | ok documents => simp [rest] at h
      obtain ⟨index, found, inner, inside, fails, same, before⟩ := ih later
      refine ⟨index + 1, found, inner, inside, fails, ?_, ?_⟩
      · rw [same, Nat.add_right_comm, Nat.add_assoc]
      · rintro (_ | earlier) less other here
        · cases here
          exact Json.isNode_of_readFrom item read
        · exact before earlier (by omega) other here

theorem childrenOf_eq_error {members : List (String × Json)} {error : ImportError}
    (h : childrenOf members = .error error) :
    ∃ value, Entries.find? "children" members = some value ∧
      ((∃ items, value = .array items ∧ ofItems 0 items = .error error) ∨
        ((∀ items, value ≠ .array items) ∧ error = ⟨.invalidChildren, []⟩)) := by
  induction members with
  | nil => simp [childrenOf] at h
  | cons member members ih =>
    obtain ⟨name, value⟩ := member
    by_cases here : name = "children"
    · subst here
      refine ⟨value, rfl, ?_⟩
      cases value with
      | array items =>
        refine .inl ⟨items, rfl, ?_⟩
        cases rest : ofItems 0 items <;> simp_all [childrenOf]
      | _ => exact .inr ⟨by simp, by simpa [childrenOf, eq_comm] using h⟩
    · rw [childrenOf_cons_of_ne here] at h
      rw [Entries.find?_cons, if_neg here]
      exact ih h

/-- A value fails with its own fault, or else with the error of the first child that
fails. -/
theorem ofJson_eq_error {json : Json} {error : ImportError} (h : ofJson json = .error error) :
    (json.fault? = some error.fault ∧ error.path = []) ∨
      (json.fault? = none ∧ ∃ index child inner, json.child? index = some child ∧
        ofJson child = .error inner ∧ error = inner.below index ∧
        ∀ earlier < index, ∀ other, json.child? earlier = some other → other.IsNode) := by
  cases json with
  | object members =>
    rw [ofJson] at h
    split at h
    next kind named =>
      have failed : childrenOf members = .error error := by
        cases read : childrenOf members <;> simp_all
      obtain ⟨value, listed, ⟨items, rfl, fails⟩ | ⟨other, rfl⟩⟩ := childrenOf_eq_error failed
      · have children : ∀ index, (Json.object members).child? index = items[index]? :=
          fun index => by rw [Json.child?, Json.member?, listed]
        obtain ⟨index, item, inner, inside, fails, same, before⟩ := ofItems_eq_error fails
        rw [Nat.zero_add] at same
        refine .inr ⟨by simp [Json.fault?, named, listed], index, item, inner, ?_, fails, same, ?_⟩
        · rw [children, inside]
        · intro earlier less other here
          exact before earlier less other (children earlier ▸ here)
      · refine .inl ⟨?_, rfl⟩
        cases value <;> simp_all [Json.fault?]
    next unnamed =>
      cases h
      exact .inl ⟨by simp only [Json.fault?], rfl⟩
  | _ =>
    cases h
    exact .inl ⟨rfl, rfl⟩

end Document

namespace Json

variable {json : Json} {error : ImportError}

/-- By induction on the children, of which the ones before the first that fails are
nodes. -/
theorem firstFault_of_ofJson : ∀ error, Document.ofJson json = .error error →
    json.FirstFault error := by
  induction json using child_induction with
  | step json ih =>
    intro error failed
    obtain ⟨here, top⟩ | ⟨none, index, child, inner, below, fails, rfl, nodes⟩ :=
      Document.ofJson_eq_error failed
    · refine ⟨by rw [top]; exact here, fun path less => ?_⟩
      rw [top] at less
      exact absurd less (List.not_lt_nil path)
    · have first := ih index child below inner fails
      have inside : ∀ path, json.faultAt? (index :: path) = child.faultAt? path := by
        intro path
        rw [faultAt?_cons, below, Option.bind_some]
      refine ⟨(inside inner.path).trans first.here, fun path less => ?_⟩
      cases path with
      | nil => exact none
      | cons earlier path =>
        obtain before | ⟨rfl, deeper⟩ := List.cons_lt_cons_iff.1 less
        · rw [faultAt?_cons]
          exact Option.bind_eq_none_iff.2 fun other here =>
            (nodes earlier before other here).faultAt?_eq_none path
        · exact (inside path).trans (first.before path deeper)

end Json

theorem Store.importJson_eq_error {s : Store} {json : Json} {error : ImportError} :
    s.importJson json = .error error ↔ Document.ofJson json = .error error := by
  unfold importJson
  cases Document.ofJson json <;> simp

/-- An import accepts the grammar of nodes. Anything else fails with its first fault in
pre-order, and the pointer of the error leads to the value that has it. -/
theorem Store.importJson_grammar (s : Store) (json : Json) :
    ((∃ n t, s.importJson json = .ok (n, t)) ↔ json.IsNode) ∧
      ∀ error, s.importJson json = .error error ↔
        ∃ value, json.resolve? error.pointer = some value ∧
          json.descend? error.path = some value ∧ value.fault? = some error.fault ∧
          ∀ path < error.path, json.faultAt? path = none := by
  have accepted : (∃ n t, s.importJson json = .ok (n, t)) ↔ json.IsNode := by
    simp only [importJson_eq_ok]
    constructor
    · rintro ⟨_, _, document, read, _⟩
      exact Json.isNode_of_readFrom json read
    · intro node
      obtain ⟨document, read⟩ := node.exists_readFrom
      exact ⟨_, _, document, read, rfl⟩
  have fails : ∀ error, s.importJson json = .error error → json.FirstFault error :=
    fun error failed => Json.firstFault_of_ofJson error (importJson_eq_error.1 failed)
  refine ⟨accepted, fun error => ⟨fun failed => ?_, ?_⟩⟩
  · obtain ⟨here, before⟩ := fails error failed
    obtain ⟨value, down, fault⟩ := Option.bind_eq_some_iff.1 here
    exact ⟨value, Json.resolve?_pointerTo down, down, fault, before⟩
  · rintro ⟨value, _, down, fault, before⟩
    have first : json.FirstFault error := ⟨Option.bind_eq_some_iff.2 ⟨value, down, fault⟩, before⟩
    cases imported : s.importJson json with
    | ok result =>
      have node : json.IsNode := accepted.1 ⟨result.1, result.2, imported⟩
      exact absurd first.here (by simp [node.faultAt?_eq_none])
    | error other => rw [(fails other imported).unique first]

end TreeIndex
