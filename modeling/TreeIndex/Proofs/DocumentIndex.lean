import TreeIndex.Proofs.FreshNumbers
import TreeIndex.Proofs.Synchronization
import Mathlib.Data.List.Forall2

/-!
# The index of a document as a grouping of its objects

The nodes of an imported document stand for its node objects, both in pre-order.
So its index by a field groups the objects by a member: those that lack it are
together, those that have a scalar are with those that have the same one, and an
object whose member is an array or an object is alone, whatever the content.
-/
namespace TreeIndex
namespace Json

mutual

/-- The node objects of a value in pre-order: an object before those of its children. -/
def nodeObjects : Json → List Json
  | .object members => .object members :: nodeObjectsBelow members
  | _ => []

def nodeObjectsBelow : List (String × Json) → List Json
  | [] => []
  | (name, value) :: members =>
    if name = "children" then
      match value with
      | .array items => nodeObjectsAmong items
      | _ => []
    else nodeObjectsBelow members

def nodeObjectsAmong : List Json → List Json
  | [] => []
  | item :: items => nodeObjects item ++ nodeObjectsAmong items

end

theorem nodeObjectsAmong_eq (items : List Json) :
    nodeObjectsAmong items = items.flatMap nodeObjects := by
  induction items with
  | nil => rfl
  | cons item items ih => rw [nodeObjectsAmong, ih, List.flatMap_cons]

theorem nodeObjectsBelow_cons_of_ne {name : String} (other : name ≠ "children") (value : Json)
    (members : List (String × Json)) :
    nodeObjectsBelow ((name, value) :: members) = nodeObjectsBelow members := by
  cases value with
  | array items => rw [nodeObjectsBelow, if_neg other]
  | _ =>
    rw [nodeObjectsBelow, if_neg other]
    nofun

theorem nodeObjects_object {members : List (String × Json)} {items : Option (List Json)}
    (found : Entries.find? "children" members = items.map .array) :
    (object members).nodeObjects = .object members :: (items.getD []).flatMap nodeObjects := by
  rw [nodeObjects]
  refine congrArg (object members :: ·) ?_
  induction members with
  | nil => cases items <;> simp_all [nodeObjectsBelow]
  | cons member members ih =>
    obtain ⟨name, value⟩ := member
    by_cases here : name = "children"
    · subst here
      cases items with
      | none => simp [Entries.find?_cons] at found
      | some items =>
        obtain rfl : value = .array items := by simpa [Entries.find?_cons] using found
        simp [nodeObjectsBelow, nodeObjectsAmong_eq]
    · rw [Entries.find?_cons, if_neg here] at found
      rw [nodeObjectsBelow_cons_of_ne here, ih found]

/-- The member by which an object is grouped; the child list is none. -/
def grouping? (name : String) (json : Json) : Option Json :=
  if name = "children" then none else json.member? name

theorem InRange.grouping? {json : Json} (h : json.InRange) (name : String) :
    ∀ content ∈ json.grouping? name, content.InRange := by
  intro content found
  unfold Json.grouping? at found
  split at found
  · cases found
  · cases json with
    | object members => exact inRange_object.1 h _ (Entries.mem_of_find? found)
    | _ => cases found

/-- The same null, truth value or text, or numbers that stand for one value as
binary64 numbers. -/
def SameScalar : Json → Json → Prop
  | .null, .null => True
  | .bool a, .bool b => a = b
  | .number a, .number b => a.toBinary64.signedUnits = b.toBinary64.signedUnits
  | .string a, .string b => a = b
  | _, _ => False

/-- Both objects lack the member, or they have the same scalar there. -/
def Together (name : String) (a b : Json) : Prop :=
  Option.Rel SameScalar (a.grouping? name) (b.grouping? name)

theorem not_together_of_isComposite {name : String} {a b content : Json}
    (found : b.grouping? name = some content) (composite : content.isComposite = true) :
    ¬ a.Together name b := by
  unfold Together
  rw [found]
  cases a.grouping? name with
  | none => exact Option.not_rel_none_some
  | some other =>
    rw [Option.rel_some_some]
    cases other <;> cases content <;> simp_all [SameScalar, isComposite]

end Json

/-- Values read from JSON are equal if they are the same scalar, as long as two
arrays or objects have different identities. -/
theorem Value.ofJson_beq_ofJson {a b : Json} {id id' : Nat} (hab : a.InRange) (hb : b.InRange)
    (apart : a.isComposite = true → b.isComposite = true → id ≠ id') :
    (ofJson id a == ofJson id' b) = true ↔ a.SameScalar b := by
  show same _ _ = true ↔ _
  cases a <;> cases b <;>
    simp_all [ofJson, same, Json.SameScalar, Json.isComposite, Shared.beq_eq]
  case number x y =>
    exact Binary64.beq_iff_signedUnits (Json.Number.isFinite_toBinary64 hab)
      (Json.Number.isFinite_toBinary64 hb)

theorem Entries.find?_filter {α : Type} (keep : String → Bool) (name : String)
    (entries : List (String × α)) :
    find? name (entries.filter fun entry => keep entry.1) =
      if keep name then find? name entries else none := by
  induction entries with
  | nil => simp
  | cons entry entries ih =>
    obtain ⟨other, value⟩ := entry
    by_cases same : other = name
    · subst same
      cases kept : keep other <;> simp_all [find?_cons]
    · cases kept : keep other <;> simp_all [find?_cons]

namespace Store

variable {s t : Store} {n m : NodeId} {name : String}

/-- The value holds what the JSON value says; an array or object has an identity. -/
def Held (value : Value) (json : Json) : Prop := ∃ id, value = .ofJson id json

/-- The node has the kind and the fields of the object, and no others. -/
structure Reads (t : Store) (n : NodeId) (object : Json) : Prop where
  kind : object.member? "type" = some (.string (t.kind n))
  fields : ∀ name, Option.Rel Held ((t.fields n).get? name)
    (if Document.isField name then object.member? name else none)

theorem rel_find?_of_readAs {fields : List (String × Value)} {members : List (String × Json)}
    (read : List.Forall₂ ReadAs fields members) (name : String) :
    Option.Rel Held (Entries.find? name fields) (Entries.find? name members) := by
  induction read with
  | nil => exact .none
  | @cons field member fields members here _ ih =>
    obtain ⟨same, held⟩ := here
    obtain ⟨own, value⟩ := field
    obtain ⟨other, json⟩ := member
    obtain rfl : own = other := same
    rw [Entries.find?_cons, Entries.find?_cons]
    split
    · exact .some held
    · exact ih

theorem Reads.grouping? {object : Json} (reads : t.Reads n object) (name : String) :
    Option.Rel Held (t.field? n name) (object.grouping? name) := by
  have held := reads.fields name
  by_cases kind : name = "type"
  · subst kind
    simpa [field?, Json.grouping?, reads.kind] using ⟨0, rfl⟩
  · by_cases children : name = "children"
    · subst children
      simpa [field?, Json.grouping?, Document.isField] using held
    · have field := Document.isField_eq_true.2 ⟨kind, children⟩
      simpa [field?, Json.grouping?, kind, children, field] using held

theorem reads_object {members : List (String × Json)} (distinct : (Entries.names members).Nodup)
    (named : Entries.find? "type" members = some (.string (t.kind n)))
    (read : ∃ u : Store, t.fields n =
      (u.shareAll (members.filter fun entry => Document.isField entry.1)).1) :
    t.Reads n (.object members) := by
  obtain ⟨u, fields⟩ := read
  refine ⟨named, fun name => ?_⟩
  have kept : (Entries.names (members.filter fun entry => Document.isField entry.1)).Nodup :=
    distinct.sublist (List.filter_sublist.map _)
  have held := rel_find?_of_readAs (u.readAs_shareAll kept) name
  rw [Entries.find?_filter] at held
  rw [fields]
  exact held

/-- The node has the kind of the object, and its fields are the other members written in turn. -/
def BuiltFrom (t : Store) (n : NodeId) (object : Json) : Prop :=
  ∃ members, object = .object members ∧
    Entries.find? "type" members = some (.string (t.kind n)) ∧
    ∃ u : Store, t.fields n =
      (u.shareAll (members.filter fun entry => Document.isField entry.1)).1

/-- The nodes of a tree that is built from a value are built from its node
objects, which have what the value hands down to them. -/
theorem Built.builtFrom {P : Json → Prop} (handedDown : ∀ members items, P (.object members) →
      Entries.find? "children" members = some (.array items) → ∀ item ∈ items, P item)
    {document : Document} : ∀ {n : NodeId} {json : Json}, P json → document.ReadFrom json →
      s.Built t n document →
      List.Forall₂ (fun m object => t.BuiltFrom m object ∧ P object) (t.nodesBelow n)
        json.nodeObjects := by
  induction document using Document.induction with
  | node kind fields documents ih =>
    intro n json here read built
    obtain ⟨members, _, items, _, rfl, named, found, below, ⟨rfl⟩⟩ := Document.readFrom_iff.1 read
    have ends := built.grounded
    obtain ⟨_, _, ⟨rfl⟩, written, children⟩ := built
    have inItems : ∀ item ∈ items.getD [], P item := by
      cases items with
      | none => simp
      | some items => exact handedDown members items here found
    have each : Childwise (fun child document => ∀ json : Json, P json →
        Document.ReadFrom document json →
          List.Forall₂ (fun m object => t.BuiltFrom m object ∧ P object) (t.nodesBelow child)
            json.nodeObjects)
        (t.data n).children documents :=
      Childwise.imp_of_mem children fun _ _ document inside built _ here read =>
        ih document inside here read built
    have trees : Childwise (fun child item =>
        List.Forall₂ (fun m object => t.BuiltFrom m object ∧ P object) (t.nodesBelow child)
          item.nodeObjects)
        (t.data n).children items := by
      refine (each.comp below).imp_of_mem fun child _ item inside both => ?_
      obtain ⟨document, stand, read⟩ := both
      exact stand item (inItems item inside) read
    rw [nodesBelow_eq ends, Json.nodeObjects_object found]
    refine .cons ⟨⟨members, rfl, named, written⟩, here⟩ ?_
    rw [Store.children, NodeData.childList]
    generalize (t.data n).children = children at trees
    cases trees with
    | none => exact .nil
    | some all => exact List.rel_flatMap all fun _ _ h => h

/-- The node stands for the object, whose numbers are in range. -/
def StandsFor (t : Store) (n : NodeId) (object : Json) : Prop :=
  t.Reads n object ∧ object.InRange

/-- The nodes of a tree that is built from a value stand for its node objects. -/
theorem Built.standFor {document : Document} {n : NodeId} {json : Json} (valid : json.Valid)
    (read : document.ReadFrom json) (built : s.Built t n document) :
    List.Forall₂ t.StandsFor (t.nodesBelow n) json.nodeObjects := by
  have handedDown : ∀ members items, (Json.object members).Valid →
      Entries.find? "children" members = some (.array items) → ∀ item ∈ items, item.Valid :=
    fun members items valid found =>
      Json.valid_array.1 ((Json.valid_object.1 valid).2 _ (Entries.mem_of_find? found))
  refine (built.builtFrom handedDown valid read).imp ?_
  rintro m _ ⟨⟨members, rfl, named, written⟩, valid⟩
  exact ⟨reads_object (Json.valid_object.1 valid).1 named written, valid.range⟩

theorem mem_identities {value : Value} {id : Nat} (here : t.field? n name = some value)
    (shared : value.identity? = some id) : id ∈ t.identities n := by
  unfold field? at here
  split at here
  · cases here
    cases shared
  · exact List.mem_filterMap.2 ⟨_, Entries.mem_of_find? here, shared⟩

theorem eq_of_mem_identities {nodes : List NodeId} {id : Nat}
    (distinct : (nodes.flatMap t.identities).Nodup) (hn : n ∈ nodes) (hm : m ∈ nodes)
    (inN : id ∈ t.identities n) (inM : id ∈ t.identities m) : n = m := by
  by_contra other
  have symmetric : Std.Symm (Function.onFun List.Disjoint t.identities) :=
    ⟨fun _ _ apart => apart.symm⟩
  exact List.Pairwise.forall (List.nodup_flatMap.1 distinct).2 hn hm other inN inM

/-- What two options hold makes equal keys if it is the same scalar, or nothing. -/
theorem ofOption_beq_ofOption {v w : Option Value} {a b : Option Json}
    (hv : Option.Rel Held v a) (hw : Option.Rel Held w b) (rangeA : ∀ json ∈ a, json.InRange)
    (rangeB : ∀ json ∈ b, json.InRange)
    (apart : ∀ id, v.bind Value.identity? = some id → w.bind Value.identity? ≠ some id) :
    (Key.ofOption v == Key.ofOption w) = true ↔ Option.Rel Json.SameScalar a b := by
  cases hv with
  | none =>
    cases hw with
    | none => exact iff_of_true rfl .none
    | some _ => exact iff_of_false nofun nofun
  | some held =>
    cases hw with
    | none => exact iff_of_false nofun nofun
    | some held' =>
      obtain ⟨id, rfl⟩ := held
      obtain ⟨id', rfl⟩ := held'
      rw [Option.rel_some_some]
      refine Value.ofJson_beq_ofJson (rangeA _ rfl) (rangeB _ rfl) fun first second same => ?_
      refine apart id ?_ ?_
      · simp [Value.identity?_ofJson, first]
      · simp [Value.identity?_ofJson, second, same]

/-- Two nodes with no identity in common have equal keys if their objects go together. -/
theorem Reads.keyBy_beq {a b : Json} (hn : t.Reads n a) (hm : t.Reads m b) (rangeA : a.InRange)
    (rangeB : b.InRange) (apart : (t.identities n).Disjoint (t.identities m)) :
    (t.keyBy name n == t.keyBy name m) = true ↔ a.Together name b := by
  refine ofOption_beq_ofOption (hn.grouping? name) (hm.grouping? name)
    (rangeA.grouping? name) (rangeB.grouping? name) fun id inN inM => ?_
  obtain ⟨v, foundN, sharedN⟩ := Option.bind_eq_some_iff.1 inN
  obtain ⟨w, foundM, sharedM⟩ := Option.bind_eq_some_iff.1 inM
  exact apart (mem_identities foundN sharedN) (mem_identities foundM sharedM)

theorem Reads.keyBy_beq_missing {a : Json} (hn : t.Reads n a) :
    (t.keyBy name n == .missing) = true ↔ a.grouping? name = none := by
  have held := hn.grouping? name
  unfold keyBy
  generalize t.field? n name = v at held ⊢
  generalize a.grouping? name = grouping at held ⊢
  cases held with
  | none => exact iff_of_true rfl rfl
  | some _ => exact iff_of_false nofun nofun

end Store

/-- The nodes, which stand for the objects in turn, are grouped by a member of these. -/
structure Index.GroupsBy (index : Index) (name : String) (nodes : List NodeId)
    (objects : List Json) : Prop where
  partitions : index.Partitions nodes
  in_order : ∀ k, (index.get k).Sublist nodes
  together_iff : ∀ p ∈ nodes.zip objects, ∀ q ∈ nodes.zip objects,
    (∃ k, p.1 ∈ index.get k ∧ q.1 ∈ index.get k) ↔ p.1 = q.1 ∨ p.2.Together name q.2
  missing_iff : ∀ p ∈ nodes.zip objects,
    p.1 ∈ index.get .missing ↔ p.2.grouping? name = none
  alone : ∀ p ∈ nodes.zip objects, ∀ content, p.2.grouping? name = some content →
    content.isComposite = true → ∃ k, index.get k = [p.1]

namespace Store

variable {s t : Store} {n : NodeId} {name : String} {nodes : List NodeId} {objects : List Json}

section Grouped

variable {p q : NodeId × Json} (stand : List.Forall₂ t.StandsFor nodes objects)
  (apart : (nodes.flatMap t.identities).Nodup)

include stand apart

theorem keyBy_beq_iff (hp : p ∈ nodes.zip objects) (hq : q ∈ nodes.zip objects) :
    (t.keyBy name p.1 == t.keyBy name q.1) = true ↔ p.1 = q.1 ∨ p.2.Together name q.2 := by
  obtain ⟨readsP, rangeP⟩ := (List.forall₂_iff_zip.1 stand).2 hp
  obtain ⟨readsQ, rangeQ⟩ := (List.forall₂_iff_zip.1 stand).2 hq
  by_cases same : p.1 = q.1
  · simp [same]
  · rw [readsP.keyBy_beq readsQ rangeP rangeQ, or_iff_right same]
    intro id inP inQ
    exact same (eq_of_mem_identities apart (List.of_mem_zip hp).1 (List.of_mem_zip hq).1 inP inQ)

/-- No other node has the key of an array or object. -/
theorem filter_keyBy_eq_singleton (distinct : nodes.Nodup) (hp : p ∈ nodes.zip objects)
    {content : Json} (found : p.2.grouping? name = some content)
    (composite : content.isComposite = true) :
    (nodes.filter fun m => t.keyBy name m == t.keyBy name p.1) = [p.1] := by
  have only : ∀ m ∈ nodes, (t.keyBy name m == t.keyBy name p.1) = (m == p.1) := by
    intro m here
    rw [← List.map_fst_zip (Nat.le_of_eq stand.length_eq)] at here
    obtain ⟨q, hq, rfl⟩ := List.mem_map.1 here
    have different : ¬ q.2.Together name p.2 := Json.not_together_of_isComposite found composite
    rw [Bool.eq_iff_iff, keyBy_beq_iff stand apart hq hp, or_iff_left different, beq_iff_eq]
  rw [List.filter_congr only, List.filter_beq,
    List.count_eq_one_of_mem distinct (List.of_mem_zip hp).1]
  rfl

/-- An index that lists the nodes with a key in their order groups their objects. -/
theorem groupsBy_of_get_eq {index : Index} (partitions : index.Partitions nodes)
    (get_eq : ∀ k, index.get k = nodes.filter fun m => t.keyBy name m == k)
    (distinct : nodes.Nodup) : index.GroupsBy name nodes objects := by
  have mem_get : ∀ k m, m ∈ index.get k ↔ m ∈ nodes ∧ t.keyBy name m == k := by
    intro k m
    rw [get_eq, List.mem_filter]
  refine ⟨partitions, fun k => ?_, fun p hp q hq => ?_, fun p hp => ?_, ?_⟩
  · rw [get_eq]
    exact List.filter_sublist
  · rw [← keyBy_beq_iff stand apart hp hq]
    constructor
    · rintro ⟨k, inP, inQ⟩
      rw [BEq.congr_right ((mem_get _ _).1 inQ).2]
      exact ((mem_get _ _).1 inP).2
    · intro same
      refine ⟨t.keyBy name q.1, (mem_get _ _).2 ⟨(List.of_mem_zip hp).1, same⟩, ?_⟩
      exact (mem_get _ _).2 ⟨(List.of_mem_zip hq).1, BEq.rfl⟩
  · have reads := ((List.forall₂_iff_zip.1 stand).2 hp).1
    rw [mem_get, reads.keyBy_beq_missing]
    exact and_iff_right (List.of_mem_zip hp).1
  · intro p hp content found composite
    refine ⟨t.keyBy name p.1, ?_⟩
    rw [get_eq, filter_keyBy_eq_singleton stand apart distinct hp found composite]

end Grouped

/-- The nodes of an imported document stand for its node objects, and its index by a
field groups these by a member. The nodes and the arrays and objects among their fields
have numbers of their own, and none that a later import gives out. -/
theorem groupsBy_importJson {json : Json} (name : String) (valid : json.Valid)
    (imported : s.importJson json = .ok (n, t)) :
    List.Forall₂ t.Reads (t.nodesBelow n) json.nodeObjects ∧
      (∃ index, Index.ofTree (.field name) (some n) .always t = .ok index ∧
        index.GroupsBy name (t.nodesBelow n) json.nodeObjects) ∧
      (t.nodesBelow n).Nodup ∧ ((t.nodesBelow n).flatMap t.identities).Nodup ∧
      ∀ (later : Store) (other : Json) (m : NodeId) (u : Store), t.size ≤ later.size →
        t.shares ≤ later.shares → other.Valid → later.importJson other = .ok (m, u) →
        (t.nodesBelow n).Disjoint (u.nodesBelow m) ∧
          ((t.nodesBelow n).flatMap t.identities).Disjoint
            ((u.nodesBelow m).flatMap u.identities) := by
  obtain ⟨document, read, built, _⟩ := built_of_importJson imported
  have numbered := numbered_of_importJson valid imported
  have stand := built.standFor valid read
  have distinct : (t.nodesBelow n).Nodup := numbered.indexes.nodup.of_map _
  refine ⟨stand.imp fun _ _ both => both.1, ?_, distinct, numbered.identities.nodup, ?_⟩
  · have acyclic := grounded_iff_acyclicBelow.1 built.grounded
    have keyed : ∀ o ∈ t.occurrences .forward n,
        ∃ key, (KeySpec.field name).key t o.node = .ok key := fun o _ => ⟨_, rfl⟩
    obtain ⟨index, made, gathers, _⟩ := Index.exists_ofTreeBy (.field name) .forward acyclic
      (fun o _ => Test.answersAt_always t o) keyed
    have partitions := gathers.partitions keyed
    have get_eq := gathers.get_eq_new
    simp only [Check.nodes_always] at partitions get_eq
    refine ⟨index, made, groupsBy_of_get_eq stand numbered.identities.nodup partitions
      (fun k => ?_) distinct⟩
    rw [get_eq, ← nodesBelow, eraseDups_of_nodup (distinct.filter _)]
    rfl
  · intro later other m u size shares valid' imported'
    exact numbered.apart size shares (numbered_of_importJson valid' imported')

/-- Leaves whose sizes are the two zeros, two integers that round to one number, two
arrays of the same content, and nothing. -/
def medley : Json :=
  let leaf (size : Json) : Json := .object [("type", .string "leaf"), ("size", size)]
  .object [("type", .string "root"), ("size", .int 0), ("children", .array [
    leaf (.number (.float ⟨Binary64.signBit⟩ rfl)), leaf (.array [.int 1]),
    leaf (.array [.int 1]), leaf (.int 9007199254740993), leaf (.int 9007199254740992),
    .object [("type", .string "leaf")]])]

/-- The zeros are one group and the two integers another; each array is alone, and so is the
leaf without a size. -/
theorem groupsBy_importJson_medley :
    medley.Valid ∧ ∃ t, Store.empty.importJson medley = .ok (⟨6⟩, t) ∧
      t.nodesBelow ⟨6⟩ = [⟨6⟩, ⟨0⟩, ⟨1⟩, ⟨2⟩, ⟨3⟩, ⟨4⟩, ⟨5⟩] ∧
      List.Forall₂ t.Reads (t.nodesBelow ⟨6⟩) medley.nodeObjects ∧
      (∃ index, Index.ofTree (.field "size") (some ⟨6⟩) .always t = .ok index ∧
        index.GroupsBy "size" (t.nodesBelow ⟨6⟩) medley.nodeObjects ∧ index.size = 5 ∧
        index.get (.value (.ofInt 0)) = [⟨6⟩, ⟨0⟩] ∧
        index.get (.value (.ofInt 9007199254740992)) = [⟨3⟩, ⟨4⟩] ∧
        index.get (.value (.shared ⟨1, .array [.int 1]⟩)) = [⟨1⟩] ∧
        index.get (.value (.shared ⟨2, .array [.int 1]⟩)) = [⟨2⟩] ∧
        index.get .missing = [⟨5⟩]) ∧
      (t.nodesBelow ⟨6⟩).Nodup ∧ ((t.nodesBelow ⟨6⟩).flatMap t.identities).Nodup ∧
      ∃ m u, t.importJson medley = .ok (m, u) ∧
        (t.nodesBelow ⟨6⟩).Disjoint (u.nodesBelow m) ∧
          ((t.nodesBelow ⟨6⟩).flatMap t.identities).Disjoint
            ((u.nodesBelow m).flatMap u.identities) := by
  have valid : medley.Valid := by
    simp [medley, Json.int, Json.valid_object, Json.valid_array, Json.valid_string,
      Json.valid_number, Entries.names, Json.Number.InRange]
  refine ⟨valid, _, rfl, by decide +kernel, ?_⟩
  obtain ⟨stand, ⟨index, made, grouped⟩, nodes, identities, apart⟩ :=
    groupsBy_importJson "size" valid rfl
  refine ⟨stand, ⟨index, made, grouped, ?_⟩, nodes, identities, _, _, rfl,
    apart _ _ _ _ (Nat.le_refl _) (Nat.le_refl _) valid rfl⟩
  obtain rfl := Except.ok.inj made
  decide +kernel

end Store
end TreeIndex
