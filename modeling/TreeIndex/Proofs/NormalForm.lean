import TreeIndex.Proofs.ExactNumbers
import TreeIndex.Proofs.NodeObject

/-!
# The normal form of a tree in JSON

Import and export again put the members of every node object in order, the kind
first and the children last, and write every number field as the integer it is,
if that is below `2 ^ 53` in size, or as a binary64 value. `normal` says so of
the JSON value alone; it changes nothing a second time.
-/
namespace TreeIndex
namespace Json

/-- Integers are those of 64 bits, with a sign or without. -/
def Number.InRange : Number → Prop
  | .int value => -2 ^ 63 ≤ value ∧ value < 2 ^ 64
  | .float _ _ => True

/-- The nearest binary64 value, as an integer if it is one below `2 ^ 53` in size. -/
def Number.normal (x : Number) : Number :=
  let value := x.toBinary64
  if value.signedUnits % Binary64.one = 0 ∧
      value.signedUnits.natAbs < 2 ^ 53 * Binary64.one then
    .int (value.signedUnits / Binary64.one)
  else if finite : value.isFinite = true then .float value finite
  else x

namespace Number

variable {x : Number}

theorem isFinite_toBinary64 (range : x.InRange) : x.toBinary64.isFinite = true := by
  cases x with
  | int value =>
    simp only [InRange] at range
    exact Binary64.isFinite_ofInt (by omega)
  | float value finite => exact finite

theorem normal_of_toInt? {v : Int} (h : x.toBinary64.toInt? = some v) : x.normal = .int v := by
  obtain ⟨_, exact, small⟩ := Binary64.toInt?_eq_some.1 h
  have nonzero : (Binary64.one : Int) ≠ 0 := by exact_mod_cast Binary64.one_pos.ne'
  have size : x.toBinary64.signedUnits.natAbs < 2 ^ 53 * Binary64.one := by
    rw [exact, Int.natAbs_mul, Int.natAbs_natCast]
    exact Nat.mul_lt_mul_of_pos_right small Binary64.one_pos
  rw [normal, if_pos ⟨by simp [exact], size⟩, exact, Int.mul_ediv_cancel _ nonzero]

theorem normal_of_isFinite (h : x.toBinary64.toInt? = none)
    (finite : x.toBinary64.isFinite = true) : x.normal = .float x.toBinary64 finite := by
  have other : ¬ (x.toBinary64.signedUnits % Binary64.one = 0 ∧
      x.toBinary64.signedUnits.natAbs < 2 ^ 53 * Binary64.one) := by
    rintro ⟨whole, size⟩
    have exact := (Int.ediv_mul_cancel (Int.dvd_of_emod_eq_zero whole)).symm
    rw [exact, Int.natAbs_mul, Int.natAbs_natCast] at size
    have small := Nat.lt_of_mul_lt_mul_right size
    simp [Binary64.toInt?_eq_some.2 ⟨finite, exact, small⟩] at h
  rw [normal, if_neg other]
  exact dif_pos finite

/-- A number is written in its normal form. -/
theorem ofBinary64_toBinary64 (range : x.InRange) :
    Json.ofBinary64 x.toBinary64 = .number x.normal := by
  have finite := isFinite_toBinary64 range
  cases h : x.toBinary64.toInt? with
  | some v => rw [ofBinary64_of_toInt? h, normal_of_toInt? h]
  | none => rw [ofBinary64_of_isFinite h finite, normal_of_isFinite h finite]

theorem inRange_normal (range : x.InRange) : x.normal.InRange := by
  have finite := isFinite_toBinary64 range
  cases h : x.toBinary64.toInt? with
  | some v =>
    have small := (Binary64.toInt?_eq_some.1 h).2.2
    rw [normal_of_toInt? h, InRange]
    omega
  | none =>
    rw [normal_of_isFinite h finite]
    trivial

theorem normal_normal (range : x.InRange) : x.normal.normal = x.normal := by
  have finite := isFinite_toBinary64 range
  cases h : x.toBinary64.toInt? with
  | some v =>
    have small := (Binary64.toInt?_eq_some.1 h).2.2
    rw [normal_of_toInt? h]
    exact normal_of_toInt? (Binary64.toInt?_ofInt small)
  | none =>
    rw [normal_of_isFinite h finite]
    exact normal_of_isFinite (x := .float x.toBinary64 finite) h finite

end Number

mutual

/-- All numbers are in range, at any depth. -/
def InRange : Json → Prop
  | .number value => value.InRange
  | .array items => InRangeItems items
  | .object members => InRangeMembers members
  | _ => True

def InRangeItems : List Json → Prop
  | [] => True
  | item :: items => InRange item ∧ InRangeItems items

def InRangeMembers : List (String × Json) → Prop
  | [] => True
  | (_, value) :: members => InRange value ∧ InRangeMembers members

end

/-- A field in normal form: only a number that is itself the field changes. -/
def normalField : Json → Json
  | .number value => .number value.normal
  | json => json

def normalMember (member : String × Json) : String × Json := (member.1, member.2.normalField)

mutual

/-- The normal form of a node object: the kind, the other members but the
children in their order, and the children in normal form, if they are there. -/
def normal : Json → Json
  | .object members =>
    .object (("type", (Entries.find? "type" members).getD .null) ::
      (members.filter fun member => Document.isField member.1).map normalMember ++
        normalChildren members)
  | json => json

def normalChildren : List (String × Json) → List (String × Json)
  | [] => []
  | (name, value) :: members =>
    if name = "children" then
      match value with
      | .array items => [("children", .array (normalItems items))]
      | other => [("children", other)]
    else normalChildren members

def normalItems : List Json → List Json
  | [] => []
  | item :: items => normal item :: normalItems items

end

theorem inRangeItems_iff {items : List Json} :
    InRangeItems items ↔ ∀ item ∈ items, item.InRange := by
  induction items with
  | nil => simp [InRangeItems]
  | cons item items ih => simp [InRangeItems, ih]

theorem inRangeMembers_iff {members : List (String × Json)} :
    InRangeMembers members ↔ ∀ member ∈ members, member.2.InRange := by
  induction members with
  | nil => simp [InRangeMembers]
  | cons member members ih => simp [InRangeMembers, ih]

@[simp] theorem inRange_array {items : List Json} :
    (array items).InRange ↔ ∀ item ∈ items, item.InRange := by
  rw [InRange, inRangeItems_iff]

@[simp] theorem inRange_object {members : List (String × Json)} :
    (object members).InRange ↔ ∀ member ∈ members, member.2.InRange := by
  rw [InRange, inRangeMembers_iff]

theorem normalItems_eq (items : List Json) : normalItems items = items.map normal := by
  induction items with
  | nil => rfl
  | cons item items ih => rw [normalItems, ih, List.map_cons]

theorem normalChildren_cons_of_ne {name : String} (other : name ≠ "children") (value : Json)
    (members : List (String × Json)) :
    normalChildren ((name, value) :: members) = normalChildren members := by
  cases value with
  | array items => rw [normalChildren, if_neg other]
  | _ =>
    rw [normalChildren, if_neg other]
    nofun

theorem normalChildren_eq {members : List (String × Json)} {items : Option (List Json)}
    (found : Entries.find? "children" members = items.map .array) :
    normalChildren members =
      ((items.map (List.map normal)).map fun items => ("children", array items)).toList := by
  induction members with
  | nil => cases items <;> simp_all [normalChildren]
  | cons member members ih =>
    obtain ⟨name, value⟩ := member
    by_cases here : name = "children"
    · subst here
      cases items with
      | none => simp [Entries.find?_cons] at found
      | some items =>
        obtain rfl : value = .array items := by simpa [Entries.find?_cons] using found
        simp [normalChildren, normalItems_eq]
    · rw [Entries.find?_cons, if_neg here] at found
      rw [normalChildren_cons_of_ne here, ih found]

/-- What readers promise of a value. -/
structure Valid (json : Json) : Prop where
  distinct : json.DistinctNames
  range : json.InRange

theorem valid_string (value : String) : (string value).Valid := ⟨trivial, trivial⟩

theorem valid_number {value : Number} : (number value).Valid ↔ value.InRange :=
  ⟨Valid.range, fun range => ⟨trivial, range⟩⟩

theorem valid_array {items : List Json} : (array items).Valid ↔ ∀ item ∈ items, item.Valid :=
  ⟨fun valid item here =>
    ⟨distinctNames_array.1 valid.distinct item here, inRange_array.1 valid.range item here⟩,
    fun all => ⟨distinctNames_array.2 fun item here => (all item here).distinct,
      inRange_array.2 fun item here => (all item here).range⟩⟩

theorem valid_object {members : List (String × Json)} :
    (object members).Valid ↔
      (Entries.names members).Nodup ∧ ∀ member ∈ members, member.2.Valid := by
  constructor
  · rintro ⟨distinct, range⟩
    rw [distinctNames_object] at distinct
    exact ⟨distinct.1, fun member here =>
      ⟨distinct.2 member here, inRange_object.1 range member here⟩⟩
  · rintro ⟨distinct, all⟩
    exact ⟨distinctNames_object.2 ⟨distinct, fun member here => (all member here).distinct⟩,
      inRange_object.2 fun member here => (all member here).range⟩

/-- The value has the normal form made of the kind, the fields and the items,
which are as readers promise. -/
structure Normalizes (json : Json) (kind : String) (fields : List (String × Json))
    (items : Option (List Json)) : Prop where
  normal_eq : json.normal = .node kind (fields.map normalMember) (items.map (List.map normal))
  plain : PlainNames fields
  distinct : (Entries.names fields).Nodup
  fields_valid : ∀ field ∈ fields, field.2.Valid
  items_valid : ∀ item ∈ items.getD [], item.Valid

theorem normalizes_of_readFrom {json : Json} (valid : json.Valid) {kind : String}
    {fields : List (String × Json)} {documents : Option (List Document)}
    (read : Document.ReadFrom (.node kind fields documents) json) :
    ∃ items, Childwise Document.ReadFrom documents items ∧ json.Normalizes kind fields items := by
  obtain ⟨members, _, items, _, rfl, named, found, below, ⟨rfl⟩⟩ := Document.readFrom_iff.1 read
  obtain ⟨distinct, all⟩ := valid_object.1 valid
  refine ⟨items, below, ?_, ?_, ?_, ?_, ?_⟩
  · rw [normal, named, normalChildren_eq found]
    rfl
  · exact Document.plainNames_filter members
  · exact distinct.sublist (List.filter_sublist.map _)
  · exact fun field here => all field (List.mem_of_mem_filter here)
  · cases items with
    | none => simp
    | some items => exact valid_array.1 (all _ (Entries.mem_of_find? found))

theorem normal_node {kind : String} {fields : List (String × Json)} {items : Option (List Json)}
    (plain : PlainNames fields) : (node kind fields items).normal =
      .node kind (fields.map normalMember) (items.map (List.map normal)) := by
  rw [node, normal, normalChildren_eq (Document.find?_children plain),
    Document.filter_isField plain]
  rfl

theorem names_map_normalMember (fields : List (String × Json)) :
    Entries.names (fields.map normalMember) = Entries.names fields := by
  simp [Entries.names, normalMember]

theorem plainNames_map_normalMember {fields : List (String × Json)} (plain : PlainNames fields) :
    PlainNames (fields.map normalMember) := by
  unfold PlainNames
  rw [names_map_normalMember]
  exact plain

theorem normalField_normalField {json : Json} (range : json.InRange) :
    json.normalField.normalField = json.normalField := by
  cases json with
  | number value => exact congrArg number (Number.normal_normal range)
  | _ => rfl

theorem map_normalMember_map_normalMember {fields : List (String × Json)}
    (range : ∀ field ∈ fields, field.2.InRange) :
    (fields.map normalMember).map normalMember = fields.map normalMember := by
  rw [List.map_map]
  refine List.map_congr_left fun field here => ?_
  exact congrArg (field.1, ·) (normalField_normalField (range field here))

theorem map_normal_map_normal {items : Option (List Json)}
    (again : ∀ item ∈ items.getD [], item.normal.normal = item.normal) :
    (items.map (List.map normal)).map (List.map normal) = items.map (List.map normal) := by
  cases items with
  | none => rfl
  | some items =>
    simp only [Option.map_some, List.map_map]
    exact congrArg some (List.map_congr_left again)

/-- A field is written in its normal form. -/
theorem toJson_ofJson (id : Nat) {json : Json} (range : json.InRange) :
    (Value.ofJson id json).toJson = json.normalField := by
  cases json with
  | number value => exact Number.ofBinary64_toBinary64 range
  | _ => rfl

theorem Valid.normalField {json : Json} (valid : json.Valid) : json.normalField.Valid := by
  cases json with
  | number value => exact ⟨trivial, Number.inRange_normal valid.range⟩
  | _ => exact valid

theorem valid_node {kind : String} {fields : List (String × Json)} {items : Option (List Json)}
    (plain : PlainNames fields) (distinct : (Entries.names fields).Nodup)
    (fieldsValid : ∀ field ∈ fields, field.2.Valid)
    (itemsValid : ∀ item ∈ items.getD [], item.Valid) : (node kind fields items).Valid := by
  have noType : "type" ∉ Entries.names fields := fun here => (plain "type" here).1 rfl
  have names : Entries.names (("type", Json.string kind) :: fields ++
      (items.map fun items => ("children", Json.array items)).toList) =
        "type" :: (Entries.names fields ++ (items.map fun _ => "children").toList) := by
    cases items <;> simp [Entries.names]
  refine valid_object.2 ⟨?_, fun member here => ?_⟩
  · rw [names]
    cases items with
    | none => simp [noType, distinct]
    | some items =>
      have apart : ∀ name ∈ Entries.names fields, name ≠ "children" :=
        fun name here => (plain name here).2
      simpa [List.nodup_append, noType, distinct] using apart
  · obtain here | here := List.mem_append.1 here
    · obtain rfl | here := List.mem_cons.1 here
      · exact valid_string kind
      · exact fieldsValid member here
    · cases items with
      | none => simp at here
      | some items =>
        obtain rfl := List.mem_singleton.1 here
        exact valid_array.2 itemsValid

/-- The normal form of an accepted value is accepted, and it is its own normal form. -/
theorem normal_of_readFrom {document : Document} :
    ∀ json : Json, json.Valid → document.ReadFrom json →
      (∃ again, Document.ReadFrom again json.normal) ∧ json.normal.Valid ∧
        json.normal.normal = json.normal := by
  induction document using Document.induction with
  | node kind fields documents ih =>
    intro json valid read
    obtain ⟨items, below, shape⟩ := normalizes_of_readFrom valid read
    have plain := plainNames_map_normalMember shape.plain
    have each : ∀ item ∈ items.getD [], (∃ again, Document.ReadFrom again item.normal) ∧
        item.normal.Valid ∧ item.normal.normal = item.normal := by
      intro item here
      obtain ⟨document, inside, read⟩ := below.flip.exists_of_mem item here
      exact ih document inside item (shape.items_valid item here) read
    rw [shape.normal_eq]
    refine ⟨?_, valid_node plain ?_ ?_ ?_, ?_⟩
    · obtain ⟨again, all⟩ := exists_childwise fun item here => (each item here).1
      exact ⟨_, (Document.readFrom_node plain).2 ⟨again, childwise_map_right.2 all, rfl⟩⟩
    · rw [names_map_normalMember]
      exact shape.distinct
    · intro field here
      obtain ⟨original, inside, rfl⟩ := List.mem_map.1 here
      exact (shape.fields_valid original inside).normalField
    · cases items with
      | none => simp
      | some items =>
        intro item here
        obtain ⟨original, inside, rfl⟩ := List.mem_map.1 here
        exact (each original inside).2.1
    · rw [normal_node plain,
        map_normalMember_map_normalMember fun field here => (shape.fields_valid field here).range,
        map_normal_map_normal fun item here => (each item here).2.2]

end Json

namespace Store

open Json

/-- Fields that are read from members are written as their normal forms. -/
theorem map_toJson_of_readAs {fields : List (String × Value)} {members : List (String × Json)}
    (read : List.Forall₂ ReadAs fields members) (range : ∀ member ∈ members, member.2.InRange) :
    fields.map (fun field => (field.1, field.2.toJson)) = members.map normalMember := by
  induction read with
  | nil => rfl
  | @cons field member fields members here _ ih =>
    obtain ⟨name, id, value⟩ := here
    have written : field.2.toJson = member.2.normalField := by
      rw [value]
      exact toJson_ofJson id (range member (by simp))
    rw [List.map_cons, List.map_cons, ih fun m h => range m (by simp [h]), name, written]
    rfl

/-- A tree that is built from an accepted value is written as its normal form. -/
theorem Built.toJson_eq_normal {s t : Store} {document : Document} :
    ∀ {n : NodeId} {json : Json}, json.Valid → document.ReadFrom json → s.Built t n document →
      t.toJson n = json.normal := by
  induction document using Document.induction with
  | node kind fields documents ih =>
    intro n json valid read built
    obtain ⟨items, below, shape⟩ := normalizes_of_readFrom valid read
    have ends := built.grounded
    obtain ⟨_, _, named, ⟨u, written⟩, children⟩ := built
    have read : List.Forall₂ ReadAs (t.fields n).entries fields := by
      rw [written]
      exact u.readAs_shareAll shape.distinct
    have plain : PlainNames (t.fields n).entries := by
      rw [PlainNames, names_eq_of_readAs read]
      exact shape.plain
    have members : t.fieldMembers n = fields.map normalMember :=
      map_toJson_of_readAs read fun member here => (shape.fields_valid member here).range
    have exports : Childwise (fun child item => t.toJson child = item.normal)
        (t.data n).children items := by
      have each : Childwise (fun child document => ∀ json : Json, json.Valid →
          Document.ReadFrom document json → t.toJson child = json.normal)
          (t.data n).children documents :=
        Childwise.imp_of_mem children fun _ _ document inside built _ valid read =>
          ih document inside valid read built
      refine (each.comp below).imp_of_mem ?_
      intro child _ item here both
      obtain ⟨document, written, read⟩ := both
      exact written item (shape.items_valid item here) read
    rw [toJson_eq_node ends plain, shape.normal_eq, named, members, exports.map_eq]

/-- Import and export again give the normal form, which is accepted in turn and
comes back as it is. -/
theorem toJson_importJson {s t : Store} {json : Json} {n : NodeId} (valid : json.Valid)
    (imported : s.importJson json = .ok (n, t)) :
    t.toJson n = json.normal ∧ json.normal.normal = json.normal ∧
      ∀ s' : Store, ∃ n' t', s'.importJson (t.toJson n) = .ok (n', t') ∧
        t'.toJson n' = t.toJson n := by
  obtain ⟨document, read, built, _⟩ := built_of_importJson imported
  obtain ⟨⟨again, readAgain⟩, validAgain, same⟩ := normal_of_readFrom json valid read
  have written := built.toJson_eq_normal valid read
  refine ⟨written, same, fun s' => ?_⟩
  have importedAgain : s'.importJson json.normal = .ok (again.build s') :=
    importJson_eq_ok.2 ⟨again, readAgain, rfl⟩
  rw [written]
  refine ⟨_, _, importedAgain, ?_⟩
  rw [(again.buildsTree s').1.toJson_eq_normal validAgain readAgain, same]

/-- A root with its members in an order of its own and a leaf below it. -/
def scrambled : Json :=
  .object [("size", .int 9007199254740993),
    ("children", .array [.object [("type", .string "leaf")]]),
    ("data", .array [.int 1]), ("type", .string "root")]

/-- The normal form of `scrambled`: the kind first, the children last, and the size as the
binary64 value it is rounded to, `2 ^ 53`. -/
def unscrambled : Json :=
  .object [("type", .string "root"),
    ("size", .number (.float ⟨0x4340000000000000⟩ (by decide))), ("data", .array [.int 1]),
    ("children", .array [.object [("type", .string "leaf")]])]

theorem normal_scrambled : scrambled.normal = unscrambled := by
  have rounded : (Json.Number.int 9007199254740993).normal =
      .float ⟨0x4340000000000000⟩ (by decide) := by decide +kernel
  simp [scrambled, unscrambled, normal, normalChildren, normalItems, normalMember, normalField,
    Json.int, Document.isField, Entries.find?, rounded]

theorem toJson_importJson_scrambled :
    scrambled.Valid ∧ scrambled.normal = unscrambled ∧
      ∃ n t, Store.empty.importJson scrambled = .ok (n, t) ∧
        t.toJson n = unscrambled ∧ unscrambled.normal = unscrambled ∧
        ∀ s' : Store, ∃ n' t', s'.importJson unscrambled = .ok (n', t') ∧
          t'.toJson n' = unscrambled := by
  have valid : scrambled.Valid := by
    simp [scrambled, Json.int, valid_object, valid_array, valid_string, valid_number,
      Entries.names, Number.InRange]
  obtain ⟨written, normal, again⟩ := toJson_importJson valid rfl
  rw [written, normal_scrambled] at again
  rw [normal_scrambled] at normal written
  exact ⟨valid, normal_scrambled, _, _, rfl, written, normal, again⟩

end Store
end TreeIndex
