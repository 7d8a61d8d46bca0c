import TreeIndex.Proofs.FreshNumbers
import TreeIndex.Proofs.Grouping
import TreeIndex.Proofs.TestMeaning

/-!
# Tests written as JSON

An array is a list of tests, whatever depth it has, and all else in it stands for itself.
So a value is read as a test unless a truth value or a number stands in it that way, and
the first of these is what is complained about. What is inside an object does not count.

`Describes` says what such a test means, in terms of the JSON value alone: null describes
every node, a text those of a kind, an array those that some item describes, and an object
those that have each of its members as a scalar field. Arrays and objects are no scalars,
so an object with such a member describes nothing, and neither does one whose type is no
text.
-/
namespace TreeIndex

namespace Json

mutual

/-- The value itself, or the parts of the items of an array from left to right. -/
def parts : Json → List Json
  | .array items => partsAll items
  | json => [json]

def partsAll : List Json → List Json
  | [] => []
  | item :: items => parts item ++ partsAll items

end

/-- What a value that is no test is called. -/
def refusedAs? : Json → Option String
  | .bool _ => some "boolean"
  | .number _ => some "number"
  | _ => none

end Json

theorem TestError.found_inj {error other : TestError} (h : error.found = other.found) :
    error = other := by
  cases error <;> cases other <;> first | rfl | exact absurd h (by decide)

namespace Test

variable {json : Json} {items : List Json} {s t u : Store} {o : Occurrence} {test : Test}
  {tests : List Test}

/-- What is said to be found where no test is. -/
def found? {α : Type} : Except TestError α → Option String
  | .ok _ => none
  | .error error => some error.found

theorem found?_ofItems (below : ∀ item ∈ items, ∀ s : Store,
      found? (ofJson item s) = item.parts.findSome? Json.refusedAs?) (s : Store) :
    found? (ofItems items s) = (Json.partsAll items).findSome? Json.refusedAs? := by
  induction items generalizing s with
  | nil => rfl
  | cons item items ih =>
    have here := below item (by simp) s
    rw [Json.partsAll, List.findSome?_append, ← here, ofItems]
    cases read : ofJson item s with
    | error error => rfl
    | ok result =>
      obtain ⟨test, t⟩ := result
      have rest := ih (fun item inside => below item (by simp [inside])) t
      simp only [found?, Option.none_or]
      rw [← rest]
      cases ofItems items t <;> rfl

/-- Reading fails at the first part that is refused. -/
theorem found?_ofJson (json : Json) (s : Store) :
    found? (ofJson json s) = json.parts.findSome? Json.refusedAs? := by
  induction json using Json.induction generalizing s with
  | array items ih =>
    rw [Json.parts, ← found?_ofItems ih s, ofJson]
    cases ofItems items s <;> rfl
  | _ => rfl

theorem exists_ofJson_iff : (∃ test t, ofJson json s = .ok (test, t)) ↔
    ∀ part ∈ json.parts, part.refusedAs? = none := by
  rw [← List.findSome?_eq_none_iff, ← found?_ofJson json s]
  cases ofJson json s with
  | error error => simp [found?]
  | ok result => exact iff_of_true ⟨result.1, result.2, rfl⟩ rfl

theorem ofJson_eq_error_iff {error : TestError} : ofJson json s = .error error ↔
    ∃ before part after, json.parts = before ++ part :: after ∧
      (∀ earlier ∈ before, earlier.refusedAs? = none) ∧ part.refusedAs? = some error.found := by
  have first : ofJson json s = .error error ↔
      json.parts.findSome? Json.refusedAs? = some error.found := by
    rw [← found?_ofJson json s]
    cases ofJson json s with
    | error other =>
      simp only [found?, Except.error.injEq, Option.some.injEq]
      exact ⟨congrArg _, TestError.found_inj⟩
    | ok result => simp [found?]
  rw [first, List.findSome?_eq_some_iff]
  simp only [and_comm]

/-- The test is what the value is read as. -/
def ReadFrom (test : Test) (json : Json) : Prop := ∃ s t : Store, ofJson json s = .ok (test, t)

theorem ofItems_eq_ok (read : ofItems items s = .ok (tests, t)) :
    List.Forall₂ ReadFrom tests items := by
  induction items generalizing s tests with
  | nil =>
    cases read
    exact .nil
  | cons item items ih =>
    rw [ofItems] at read
    split at read
    · cases read
    · next test t' first =>
      split at read
      · next others t'' rest =>
        cases read
        exact .cons ⟨s, t', first⟩ (ih rest)
      · cases read

theorem ReadFrom.array (read : test.ReadFrom (.array items)) :
    ∃ tests, test = .anyOf tests ∧ List.Forall₂ ReadFrom tests items := by
  obtain ⟨s, t, read⟩ := read
  rw [ofJson] at read
  split at read
  · next tests t' all =>
    cases read
    exact ⟨tests, rfl, ofItems_eq_ok all⟩
  · cases read

theorem ReadFrom.object {members : List (String × Json)} (read : test.ReadFrom (.object members)) :
    ∃ s : Store, test = .fields (s.shareAll members).1 := by
  obtain ⟨s, t, read⟩ := read
  cases read
  exact ⟨s, rfl⟩

/-- The identities of the arrays and objects among the field values in a test. -/
def identities (test : Test) : List Nat :=
  test.leaves.flatMap fun leaf =>
    match leaf with
    | .fields expected => expected.entries.filterMap fun field => field.2.identity?
    | _ => []

theorem identities_anyOf (tests : List Test) :
    (anyOf tests).identities = tests.flatMap identities := by
  rw [identities, leaves, leavesAll_eq, List.flatMap_assoc]
  rfl

end Test

theorem Json.Number.isNaN_toBinary64 (number : Json.Number) : ¬ number.toBinary64.isNaN = true := by
  rw [Binary64.isNaN_eq, decide_eq_true_eq, Nat.not_lt]
  cases number with
  | float value finite =>
    rw [Binary64.isFinite_eq, decide_eq_true_eq] at finite
    exact Nat.le_of_lt finite
  | int value =>
    have bounded : Binary64.nearest (value.natAbs * Binary64.one) 1 ≤ Binary64.infinite :=
      Nat.min_le_right _ _
    have small : Binary64.infinite < 2 ^ 63 := by decide
    rw [toBinary64, Binary64.ofInt, Binary64.magnitude_ofMagnitude _ (by omega)]
    exact bounded

namespace Json

/-- The scalar is the field value. Both zeros are one number. -/
inductive ScalarIs : Json → Value → Prop
  | null : ScalarIs .null .null
  | bool {value} : ScalarIs (.bool value) (.bool value)
  | string {value} : ScalarIs (.string value) (.text value)
  | number {number : Number} : ScalarIs (.number number) (.number number.toBinary64)
  | zero {number : Number} {x : Binary64} : number.toBinary64.magnitude = 0 → x.magnitude = 0 →
    ScalarIs (.number number) (.number x)

/-- A number is a field value if its nearest binary64 value is equal to that. -/
theorem scalarIs_number_iff {number : Number} {x : Binary64} :
    (Json.number number).ScalarIs (.number x) ↔ (number.toBinary64 == x) = true := by
  rw [Binary64.beq_iff]
  constructor
  · rintro (_ | _ | _ | _ | ⟨zero, zero'⟩)
    · exact .inl rfl
    · exact .inr (.inr ⟨zero, zero'⟩)
  · rintro (rfl | ⟨none, _⟩ | ⟨zero, zero'⟩)
    · exact .number
    · exact absurd none number.isNaN_toBinary64
    · exact .zero zero zero'

/-- An array or object has an identity that no other value has, so it is none of them. -/
theorem equals_ofJson_iff {found : Value} {json : Json} {id : Nat}
    (apart : json.isComposite = true → found.identity? ≠ some id) :
    found.Equals (.ofJson id json) ↔ json.ScalarIs found := by
  have composite (h : json.isComposite = true) (content : Json) :
      ¬ found.Equals (.shared ⟨id, content⟩) := by
    rintro (_ | _ | _ | _ | ⟨same⟩)
    exact apart h (congrArg some same)
  cases json with
  | array items => exact iff_of_false (composite rfl _) nofun
  | object members => exact iff_of_false (composite rfl _) nofun
  | null => exact ⟨fun h => by cases h; exact .null, fun h => by cases h; exact .null⟩
  | bool value => exact ⟨fun h => by cases h; exact .bool, fun h => by cases h; exact .bool⟩
  | string value => exact ⟨fun h => by cases h; exact .string, fun h => by cases h; exact .text⟩
  | number number =>
    constructor
    · rintro (_ | _ | ⟨rfl | ⟨_, none⟩ | ⟨zero, zero'⟩⟩)
      · exact .number
      · exact absurd none number.isNaN_toBinary64
      · exact .zero zero' zero
    · rintro (_ | _ | _ | _ | ⟨zero, zero'⟩)
      · exact .number (.inl rfl)
      · exact .number (.inr (.inr ⟨zero', zero⟩))

end Json

namespace Store

variable {u : Store} {n : NodeId}

/-- The node has the scalar in the field. The field `type` is the kind and no entry. -/
inductive HasScalar (u : Store) (n : NodeId) : String → Json → Prop
  | kind : HasScalar u n "type" (.string (u.kind n))
  | entry {name json value} : name ≠ "type" → (u.fields n).get? name = some value →
    json.ScalarIs value → HasScalar u n name json

theorem hasValue_iff_hasScalar {field : String × Value} {member : String × Json}
    (read : ReadAs field member) (apart : ∀ id ∈ field.2.identity?, id ∉ u.identities n) :
    u.HasValue n field.1 field.2 ↔ u.HasScalar n member.1 member.2 := by
  obtain ⟨name, value⟩ := field
  obtain ⟨other, json⟩ := member
  obtain ⟨same, id, held⟩ := read
  obtain rfl : name = other := same
  obtain rfl : value = .ofJson id json := held
  have equals {found : Value} (here : (u.fields n).get? name = some found) :
      found.Equals (.ofJson id json) ↔ json.ScalarIs found := by
    refine Json.equals_ofJson_iff fun composite same => ?_
    have shared : id ∈ (Value.ofJson id json).identity? := by
      simp [Value.identity?_ofJson, composite]
    exact apart id shared (List.mem_filterMap.2 ⟨_, Entries.mem_of_find? here, same⟩)
  constructor
  · rintro has
    generalize written : Value.ofJson id json = value at has equals
    cases has with
    | kind =>
      cases json <;> cases written
      exact .kind
    | entry other found equal => exact .entry other found ((equals found).1 equal)
  · rintro (_ | ⟨other, found, equal⟩)
    · exact .kind
    · exact .entry other found ((equals found).2 equal)

theorem HasScalar.not_composite {name : String} {json : Json} (has : u.HasScalar n name json) :
    json.isComposite = false := by
  cases has with
  | kind => rfl
  | entry _ _ equal => cases equal <;> rfl

theorem HasScalar.exists_kind {json : Json} (has : u.HasScalar n "type" json) :
    ∃ kind, json = .string kind := by
  cases has with
  | kind => exact ⟨_, rfl⟩
  | entry other _ _ => exact absurd rfl other

end Store

/-- What a test written as JSON says of a node. -/
inductive Json.Describes (u : Store) (n : NodeId) : Json → Prop
  | null : Describes u n .null
  | kind : Describes u n (.string (u.kind n))
  | fields {members} : (∀ member ∈ members, u.HasScalar n member.1 member.2) →
    Describes u n (.object members)
  | item {items item} : item ∈ items → Describes u n item → Describes u n (.array items)

namespace Json

variable {u : Store} {n : NodeId}

theorem describes_string {name : String} : (string name).Describes u n ↔ u.kind n = name := by
  constructor
  · rintro (_ | _)
    rfl
  · rintro rfl
    exact .kind

theorem describes_object {members : List (String × Json)} :
    (object members).Describes u n ↔ ∀ member ∈ members, u.HasScalar n member.1 member.2 := by
  refine ⟨?_, .fields⟩
  rintro (_ | _ | all)
  exact all

/-- One member describes the nodes that have it, if it is an entry of theirs. -/
theorem describes_field {name : String} {json : Json} {value : Value} (other : name ≠ "type")
    (found : (u.fields n).get? name = some value) :
    (object [(name, json)]).Describes u n ↔ json.ScalarIs value := by
  rw [describes_object, List.forall_mem_singleton]
  constructor
  · intro has
    cases has with
    | kind => exact absurd rfl other
    | entry _ here equal =>
      obtain rfl := Option.some.inj (found.symm.trans here)
      exact equal
  · exact .entry other found

theorem describes_array {items : List Json} :
    (array items).Describes u n ↔ ∃ item ∈ items, item.Describes u n := by
  constructor
  · rintro (_ | _ | _ | ⟨inside, h⟩)
    exact ⟨_, inside, h⟩
  · rintro ⟨item, inside, h⟩
    exact .item inside h

end Json

namespace Test

variable {json : Json} {u : Store} {o : Occurrence} {test : Test}

/-- The check answers, with yes just where the value describes the node. -/
def Decides (test : Test) (u : Store) (o : Occurrence) (json : Json) : Prop :=
  ∃ answer, test.compile.accepts u o = .ok answer ∧ (answer = true ↔ json.Describes u o.node)

theorem Decides.selects_iff (h : test.Decides u o json) :
    test.compile.selects u o = true ↔ json.Describes u o.node := by
  obtain ⟨answer, here, iff⟩ := h
  rw [Check.selects_of_ok here, iff]

theorem decides_array {tests : List Test} {items : List Json}
    (each : List.Forall₂ (fun test item => test.Decides u o item) tests items) :
    (anyOf tests).Decides u o (.array items) := by
  have answers : ∀ test ∈ tests, ∃ answer, test.compile.accepts u o = .ok answer := by
    intro test listed
    obtain ⟨_, _, answer, here, _⟩ := Childwise.exists_of_mem (.some each) test listed
    exact ⟨answer, here⟩
  have asked : (anyOf tests).compile.accepts u o =
      .ok ((tests.map compile).any fun check => check.selects u o) := by
    rw [compile, compileAll_eq]
    exact Check.firstOf_eq_any (List.forall_mem_map.2 answers)
  refine ⟨_, asked, ?_⟩
  rw [Json.describes_array, ← exists_mem_iff_of_forall₂ (each.imp fun _ _ h => h.selects_iff)]
  simp

theorem decides_object {s : Store} {members : List (String × Json)}
    (distinct : (Entries.names members).Nodup)
    (apart : (u.identities o.node).Disjoint (identities (.fields (s.shareAll members).1))) :
    (fields (s.shareAll members).1).Decides u o (.object members) := by
  refine ⟨_, rfl, ?_⟩
  have each : List.Forall₂ (fun field member =>
      u.HasValue o.node field.1 field.2 ↔ u.HasScalar o.node member.1 member.2)
      (s.shareAll members).1.entries members := by
    refine forall₂_imp_of_mem (s.readAs_shareAll distinct) fun field listed member _ read => ?_
    refine Store.hasValue_iff_hasScalar read fun id shared inside => apart inside ?_
    simpa [identities, leaves] using ⟨_, _, listed, shared⟩
  rw [Json.describes_object, ← forall_mem_iff_of_forall₂ each, List.all_eq_true]
  exact forall₂_congr fun field _ => Store.fieldIs_iff

/-- By induction on the value; only arrays have parts that are tests. -/
theorem ReadFrom.decides (read : test.ReadFrom json) (distinct : json.DistinctNames)
    (apart : (u.identities o.node).Disjoint test.identities) : test.Decides u o json := by
  induction json using Json.induction generalizing test with
  | null =>
    obtain ⟨s, t, ⟨⟩⟩ := read
    exact ⟨true, rfl, iff_of_true rfl .null⟩
  | bool value =>
    obtain ⟨s, t, ⟨⟩⟩ := read
  | number value =>
    obtain ⟨s, t, ⟨⟩⟩ := read
  | string value =>
    obtain ⟨s, t, ⟨⟩⟩ := read
    exact ⟨_, rfl, by rw [beq_iff_eq, Json.describes_string]⟩
  | array items ih =>
    obtain ⟨tests, rfl, each⟩ := read.array
    rw [Json.distinctNames_array] at distinct
    rw [identities_anyOf] at apart
    exact decides_array <| forall₂_imp_of_mem each fun test listed item inside read =>
      ih item inside read (distinct item inside) fun id here own =>
        apart here (List.mem_flatMap.2 ⟨test, listed, own⟩)
  | object members ih =>
    obtain ⟨s, rfl⟩ := read.object
    exact decides_object (Json.distinctNames_object.1 distinct).1 apart

/-- An object with an array or an object for a member, or a type that is no text. -/
def Hopeless (members : List (String × Json)) : Prop :=
  ∃ member ∈ members, member.2.isComposite = true ∨
    member.1 = "type" ∧ ∀ kind, member.2 ≠ .string kind

theorem Hopeless.not_describes {members : List (String × Json)} {n : NodeId}
    (hopeless : Hopeless members) : ¬ (Json.object members).Describes u n := by
  rw [Json.describes_object]
  intro all
  obtain ⟨⟨name, json⟩, listed, composite | ⟨named, noText⟩⟩ := hopeless
  · simp [(all _ listed).not_composite] at composite
  · obtain rfl : name = "type" := named
    obtain ⟨kind, same⟩ := (all _ listed).exists_kind
    exact noText kind same

/-- A value is read as a test unless some part is refused, and then the first such part is
named. The check answers for every node at every position, as long as the node has no array
or object of the test itself, and accepts just the nodes that the value describes. -/
theorem ofJson_describes (json : Json) (s : Store) :
    ((∃ test t, ofJson json s = .ok (test, t)) ↔ ∀ part ∈ json.parts, part.refusedAs? = none) ∧
    (∀ error, ofJson json s = .error error ↔
      ∃ before part after, json.parts = before ++ part :: after ∧
        (∀ earlier ∈ before, earlier.refusedAs? = none) ∧
        part.refusedAs? = some error.found) ∧
    ∀ test t, ofJson json s = .ok (test, t) → json.DistinctNames →
      ∀ u o, (u.identities o.node).Disjoint test.identities →
        test.Decides u o json ∧
        ∀ members, json = .object members → Hopeless members →
          test.compile.accepts u o = .ok false := by
  refine ⟨exists_ofJson_iff, fun _ => ofJson_eq_error_iff, ?_⟩
  intro test t read distinct u o apart
  have decided := ReadFrom.decides ⟨s, t, read⟩ distinct apart
  refine ⟨decided, ?_⟩
  rintro members rfl hopeless
  obtain ⟨answer, accepts, iff⟩ := decided
  cases answer with
  | false => exact accepts
  | true => exact absurd (iff.1 rfl) hopeless.not_describes

/-- Either a root, or a leaf whose size is zero, or a size that no node has. -/
def rootOrLeaf : Json :=
  .array [.string "root",
    .array [.object [("type", .string "leaf"),
      ("size", .number (.float ⟨Binary64.signBit⟩ (by decide)))]],
    .object [("size", .object [])]]

/-- A leaf whose size is `2 ^ 53`. -/
def heavy : Store := ⟨#[⟨"leaf", ⟨[("size", .number ⟨0x4340000000000000⟩)], by decide⟩, none⟩], 0⟩

/-- The nodes of a size. -/
def ofSize (size : Int) : Json := .object [("size", .int size)]

theorem ofSize_describes_iff {size : Int} : (ofSize size).Describes heavy ⟨0⟩ ↔
    (Binary64.ofInt size == ⟨0x4340000000000000⟩) = true := by
  rw [ofSize, Json.describes_field (by decide) rfl, Json.int, Json.scalarIs_number_iff]
  rfl

/-- The next integer after `2 ^ 53` is rounded to it and matches; three does not. -/
theorem ofJson_describes_braid :
    rootOrLeaf.DistinctNames ∧
    (∃ test t, ofJson rootOrLeaf Index.braid = .ok (test, t) ∧
      (Index.braid.identities ⟨0⟩).Disjoint test.identities ∧
      ∀ index parent, test.compile.accepts Index.braid ⟨⟨0⟩, index, parent⟩ = .ok true) ∧
    (∃ test t, ofJson (ofSize 9007199254740993) heavy = .ok (test, t) ∧
      test.compile.accepts heavy (.alone ⟨0⟩) = .ok true) ∧
    (∃ test t, ofJson (ofSize 3) heavy = .ok (test, t) ∧
      test.compile.accepts heavy (.alone ⟨0⟩) = .ok false) ∧
    (∃ test t, ofJson (.object [("size", .object [])]) Index.braid = .ok (test, t) ∧
      Hopeless [("size", .object [])] ∧
      test.compile.accepts Index.braid (.alone ⟨0⟩) = .ok false) ∧
    ofJson (.array [.null, .array [.object [("size", .bool true)], .bool true], .int 1])
      Index.braid = .error .boolean := by
  have distinct : rootOrLeaf.DistinctNames := by
    simp [rootOrLeaf, Json.DistinctNames, Json.DistinctNamesItems, Json.DistinctNamesMembers,
      Entries.names]
  have none : Index.braid.identities ⟨0⟩ = [] := by decide
  have described : rootOrLeaf.Describes Index.braid ⟨0⟩ := by
    refine .item (List.mem_cons_of_mem _ (List.mem_cons_self ..)) (.item (List.mem_cons_self ..) ?_)
    refine .fields (List.forall_mem_cons.2 ⟨.kind, List.forall_mem_singleton.2 ?_⟩)
    exact .entry (by decide) rfl (.zero (by decide) (by decide))
  have hopeless : Hopeless [("size", .object [])] := ⟨_, List.mem_cons_self .., .inl rfl⟩
  have weighed (size : Int) : ∃ test t, ofJson (ofSize size) heavy = .ok (test, t) ∧
      test.compile.accepts heavy (.alone ⟨0⟩) =
        .ok (Binary64.ofInt size == ⟨0x4340000000000000⟩) := by
    have single : (ofSize size).DistinctNames := by
      simp [ofSize, Json.int, Json.DistinctNames, Entries.names]
    have none : heavy.identities ⟨0⟩ = [] := by decide
    obtain ⟨_, _, leaf⟩ := ofJson_describes (ofSize size) heavy
    obtain ⟨⟨answer, accepts, iff⟩, _⟩ :=
      leaf _ _ rfl single heavy (.alone ⟨0⟩) (by simp [none, Occurrence.alone])
    refine ⟨_, _, rfl, ?_⟩
    rw [accepts, Bool.eq_iff_iff.2 (iff.trans ofSize_describes_iff)]
  have rounded : (Binary64.ofInt 9007199254740993 == ⟨0x4340000000000000⟩) = true := by
    decide +kernel
  have other : (Binary64.ofInt 3 == ⟨0x4340000000000000⟩) = false := by decide +kernel
  obtain ⟨_, _, leaf⟩ := ofJson_describes rootOrLeaf Index.braid
  obtain ⟨_, _, sized⟩ := ofJson_describes (.object [("size", .object [])]) Index.braid
  obtain ⟨_, refused, _⟩ := ofJson_describes
    (.array [.null, .array [.object [("size", .bool true)], .bool true], .int 1]) Index.braid
  refine ⟨distinct, ⟨_, _, rfl, ?_, fun index parent => ?_⟩, rounded ▸ weighed _,
    other ▸ weighed _, ⟨_, _, rfl, hopeless, ?_⟩, ?_⟩
  · simp [none]
  · obtain ⟨⟨answer, accepts, iff⟩, _⟩ :=
      leaf _ _ rfl distinct Index.braid ⟨⟨0⟩, index, parent⟩ (by simp [none])
    rw [accepts, iff.2 described]
  · have single : (Json.object [("size", .object [])]).DistinctNames := by
      simp [Json.DistinctNames, Json.DistinctNamesMembers, Entries.names]
    exact (sized _ _ rfl single Index.braid (.alone ⟨0⟩) (by simp [none, Occurrence.alone])).2 _ rfl
      hopeless
  · exact (refused .boolean).2
      ⟨[.null, .object [("size", .bool true)]], .bool true, [.int 1], rfl, by decide, rfl⟩

end Test
end TreeIndex
