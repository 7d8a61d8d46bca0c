import TreeIndex.Proofs.EqualContents
import TreeIndex.Proofs.ExactNumbers
import TreeIndex.Proofs.NodeObject

/-!
# Export and import again

An export is read back as a structurally equal tree exactly when all nodes of
the tree are portable: no field is named like the kind or the children, every
number is finite, and every shared object is an array or object. The copy then
has the fields in the same order and is a leaf where the original is one.
-/
namespace TreeIndex

/-- Whether the JSON of a value is read as an equal value. -/
def Value.Portable : Value → Prop
  | .number x => x.isFinite = true
  | .shared object => object.content.isComposite = true
  | _ => True

structure NodeData.Portable (data : NodeData) : Prop where
  names : PlainNames data.fields.entries
  values : ∀ field ∈ data.fields.entries, field.2.Portable

namespace Value

/-- A finite number is read back equal, any other as null. -/
theorem sameContent_ofBinary64 (id : Nat) (x : Binary64) :
    (ofJson id (.ofBinary64 x)).sameContent (.number x) = x.isFinite := by
  by_cases finite : x.isFinite = true
  · rw [finite]
    cases exact : x.toInt? with
    | some v =>
      rw [Json.ofBinary64_of_toInt? exact]
      exact Binary64.ofInt_beq_of_toInt? exact
    | none =>
      rw [Json.ofBinary64_of_isFinite exact finite]
      exact BEq.rfl (a := x)
  · rw [Json.ofBinary64_of_not_isFinite finite, Bool.eq_false_iff.2 finite]
    rfl

/-- The JSON of a portable value is read as an equal value, and no other is. -/
theorem sameContent_ofJson_toJson (id : Nat) (value : Value)
    (distinct : ∀ object, value = .shared object → object.content.DistinctNames) :
    (ofJson id value.toJson).sameContent value = true ↔ value.Portable := by
  cases value with
  | null => exact iff_of_true rfl trivial
  | bool value => exact iff_of_true BEq.rfl trivial
  | text value => exact iff_of_true BEq.rfl trivial
  | number x =>
    rw [toJson, sameContent_ofBinary64]
    rfl
  | shared object =>
    have same := object.content.same_self (distinct object rfl)
    obtain ⟨own, content⟩ := object
    cases content with
    | array items => exact iff_of_true same rfl
    | object members => exact iff_of_true same rfl
    | _ => exact iff_of_false nofun nofun

end Value

/-- What holds of every store: children are nodes of the store, and no shared
content has an object with two members of one name. -/
structure Store.Sound (s : Store) : Prop where
  closed : ∀ n, s.Holds n → ∀ child ∈ s.children n, s.Holds child
  distinct : ∀ n, ∀ field ∈ (s.fields n).entries, ∀ object,
    field.2 = .shared object → object.content.DistinctNames

namespace Store

variable {s t : Store} {copy n : NodeId}

/-- The node of the second store is built from what the export of the node of
the first is read as. -/
def Copies (s t : Store) (copy n : NodeId) : Prop :=
  ∃ document, Document.ReadFrom document (s.toJson n) ∧ s.Built t copy document

theorem Copies.grounded (copies : s.Copies t copy n) : t.Grounded copy := by
  obtain ⟨_, _, built⟩ := copies
  exact built.grounded

theorem Copies.not_holds (copies : s.Copies t copy n) : ¬ s.Holds copy := by
  obtain ⟨_, _, ⟨new, _⟩⟩ := copies
  exact new

/-- The fields of the copy never have the name of the kind or of the children. -/
theorem Copies.plainNames (copies : s.Copies t copy n) (h : s.Grounded n) :
    PlainNames (t.fields copy).entries := by
  obtain ⟨document, read, built⟩ := copies
  obtain ⟨members, exported, distinct, _⟩ := exists_toJson_eq_object h
  rw [exported, Document.readFrom_iff] at read
  obtain ⟨_, kind, items, documents, ⟨rfl⟩, _, _, _, rfl⟩ := read
  obtain ⟨_, _, _, ⟨u, fields⟩, _⟩ := built
  have kept : (Entries.names (members.filter fun entry => Document.isField entry.1)).Nodup :=
    distinct.sublist (List.filter_sublist.map _)
  rw [PlainNames, fields, names_eq_of_readAs (u.readAs_shareAll kept)]
  exact Document.plainNames_filter members

/-- If no field of the original does, the copy agrees with it part by part. -/
theorem Copies.parts (copies : s.Copies t copy n) (h : s.Grounded n)
    (plain : PlainNames (s.fields n).entries) :
    t.kind copy = s.kind n ∧
      List.Forall₂ ReadAs (t.fields copy).entries (s.fieldMembers n) ∧
      Childwise (s.Copies t) (t.data copy).children (s.data n).children := by
  obtain ⟨document, read, built⟩ := copies
  rw [toJson_eq_node h plain, Document.readFrom_node (plainNames_fieldMembers plain)] at read
  obtain ⟨documents, items, rfl⟩ := read
  obtain ⟨_, _, kind, ⟨u, fields⟩, children⟩ := built
  refine ⟨kind, ?_, ?_⟩
  · have distinct : (Entries.names (s.fieldMembers n)).Nodup := by
      rw [names_fieldMembers]
      exact (s.fields n).distinct
    rw [fields]
    exact u.readAs_shareAll distinct
  · refine (Childwise.comp children (childwise_map_right.1 items)).imp_of_mem ?_
    intro child _ original _ both
    obtain ⟨document, built, read⟩ := both
    exact ⟨document, read, built⟩

/-- Fields that are read from what others are written as have the same contents
exactly if all the values are portable. -/
theorem sameContent_iff_of_readAs {fields originals : Fields Value}
    (copies : List.Forall₂ ReadAs fields.entries
      (originals.entries.map fun field => (field.1, field.2.toJson)))
    (distinct : ∀ field ∈ originals.entries, ∀ object,
      field.2 = .shared object → object.content.DistinctNames) :
    fields.sameContent originals = true ↔ ∀ field ∈ originals.entries, field.2.Portable := by
  have found : ∀ field ∈ originals.entries, originals.get? field.1 = some field.2 :=
    fun field here => Entries.find?_of_mem originals.distinct here
  rw [List.forall₂_map_right_iff] at copies
  simp only [Fields.sameContent, Fields.size, copies.length_eq, beq_self_eq_true, Bool.true_and]
  generalize fields.entries = written at copies ⊢
  generalize originals.entries = listed at copies found distinct ⊢
  induction copies with
  | nil => simp
  | @cons field original written listed here _ ih =>
    obtain ⟨name, id, value⟩ := here
    have rest := ih (fun f h => found f (by simp [h])) fun f h => distinct f (by simp [h])
    have first := original.2.sameContent_ofJson_toJson id (distinct original (by simp))
    rw [List.all_cons, Bool.and_eq_true, List.forall_mem_cons]
    refine and_congr ?_ rest
    rw [name, found original (by simp), value]
    exact first

/-- Fields with the contents of others have all their names. -/
theorem names_subset_of_sameContent {fields others : Fields Value}
    (same : fields.sameContent others = true) : others.names ⊆ fields.names :=
  fun name => ((Fields.sameContent_iff.1 same).mem_names_iff name).2

/-- All nodes of the tree below a node are portable, the node itself among them. -/
def PortableBelow (s : Store) (n : NodeId) : Prop := ∀ m, s.Reaches n m → (s.data m).Portable

theorem PortableBelow.child {child : NodeId} (portable : s.PortableBelow n)
    (below : child ∈ s.children n) : s.PortableBelow child :=
  fun m down => portable m (.head below down)

/-- The copy of a tree of portable nodes is equal to it. -/
theorem Copies.deepEqual (sound : s.Sound) (kept : s.KeptIn t) (h : s.Grounded n) :
    ∀ copy, s.Copies t copy n → s.Holds n → s.PortableBelow n → t.deepEqual copy n = true := by
  refine h.induction fun n h ih copy copies held portable => ?_
  have here := portable n .refl
  have same : t.data n = s.data n := (kept n held).2
  have kindSame : t.kind n = s.kind n := congrArg NodeData.kind same
  have fieldsSame : t.fields n = s.fields n := congrArg NodeData.fields same
  have different : copy ≠ n := fun e => copies.not_holds (e ▸ held)
  obtain ⟨kind, fields, children⟩ := copies.parts h here.names
  rw [deepEqual_iff copies.grounded different, kindSame, fieldsSame, same]
  refine ⟨kind, ?_, children.imp_of_mem fun child _ original below copies => ?_⟩
  · exact (sameContent_iff_of_readAs fields (sound.distinct n)).2 here.values
  · exact ih original below child copies (sound.closed n held original below)
      (portable.child below)

/-- A tree that the copy is equal to has portable nodes only. -/
theorem Copies.portableBelow (sound : s.Sound) (kept : s.KeptIn t) (h : s.Grounded n) :
    ∀ copy, s.Copies t copy n → s.Holds n → t.deepEqual copy n = true → s.PortableBelow n := by
  refine h.induction fun n h ih copy copies held equal => ?_
  have same : t.data n = s.data n := (kept n held).2
  have fieldsSame : t.fields n = s.fields n := congrArg NodeData.fields same
  have different : copy ≠ n := fun e => copies.not_holds (e ▸ held)
  rw [deepEqual_iff copies.grounded different, fieldsSame, same] at equal
  obtain ⟨_, content, equalBelow⟩ := equal
  -- the copy has as many fields as the original, so it lost none to the other names
  have plain : PlainNames (s.fields n).entries := fun name inside =>
    copies.plainNames h name (names_subset_of_sameContent content inside)
  obtain ⟨_, fields, children⟩ := copies.parts h plain
  intro m down
  obtain rfl | ⟨original, below, down⟩ := down.cases_head
  · exact ⟨plain, (sameContent_iff_of_readAs fields (sound.distinct n)).1 content⟩
  · obtain ⟨child, _, equal, copies⟩ := (equalBelow.and children).flip.exists_of_mem original below
    exact ih original below child copies (sound.closed n held original below) equal m down

/-- The node at the end of a way down, told by child positions. -/
def descend? (s : Store) (n : NodeId) : List Nat → Option NodeId
  | [] => some n
  | index :: path =>
    match s.child? n index with
    | some child => descend? s child path
    | none => none

/-- The names of the fields in their order, and whether there is a child list. -/
def outline (s : Store) (n : NodeId) : List String × Bool := ((s.fields n).names, s.isParent n)

/-- The copy of a tree of portable nodes has the outline of the original everywhere. -/
theorem Copies.outline_descend? (h : s.Grounded n) (copies : s.Copies t copy n)
    (portable : s.PortableBelow n) (path : List Nat) :
    (t.descend? copy path).map t.outline = (s.descend? n path).map s.outline := by
  induction path generalizing copy n with
  | nil =>
    obtain ⟨_, fields, children⟩ := copies.parts h (portable n .refl).names
    have names : (t.fields copy).names = (s.fields n).names :=
      (names_eq_of_readAs fields).trans (s.names_fieldMembers n)
    have parent : t.isParent copy = s.isParent n := children.isSome_eq
    simp [descend?, outline, names, parent]
  | cons index path ih =>
    obtain ⟨_, _, children⟩ := copies.parts h (portable n .refl).names
    have step : Option.Rel (s.Copies t) (t.child? copy index) (s.child? n index) :=
      children.getElem? index
    simp only [descend?]
    cases down : s.child? n index with
    | none =>
      rw [down] at step
      cases up : t.child? copy index with
      | none => rfl
      | some child => simp [up] at step
    | some original =>
      rw [down] at step
      have below : original ∈ s.children n := List.mem_of_getElem? down
      cases up : t.child? copy index with
      | none => simp [up] at step
      | some child =>
        rw [up, Option.rel_some_some] at step
        exact ih (h.child below) step (portable.child below)

/-- The export of a tree of portable nodes is accepted. -/
theorem exists_readFrom_toJson (h : s.Grounded n) :
    s.PortableBelow n → ∃ document, Document.ReadFrom document (s.toJson n) := by
  refine h.induction fun n h ih portable => ?_
  have plain : PlainNames (s.fields n).entries := (portable n .refl).names
  obtain ⟨documents, items⟩ := exists_childwise fun child below =>
    ih child below (portable.child below)
  rw [toJson_eq_node h plain]
  refine ⟨.node (s.kind n) (s.fieldMembers n) documents, ?_⟩
  rw [Document.readFrom_node (plainNames_fieldMembers plain)]
  exact ⟨documents, childwise_map_right.2 items, rfl⟩

/-- The tree is written, read again without an error, and the copy is equal to it. -/
def RoundTrips (s : Store) (n : NodeId) : Prop :=
  ∃ copy t, s.importJson (s.toJson n) = .ok (copy, t) ∧ t.deepEqual copy n = true

/-- A tree without cycles comes back equal exactly when all its nodes are portable,
and then with the same order of fields and the same leaves everywhere. -/
theorem roundTrips_iff (sound : s.Sound) (held : s.Holds n) (acyclic : s.AcyclicBelow n) :
    (s.RoundTrips n ↔ s.PortableBelow n) ∧
      (s.PortableBelow n → ∀ copy t, s.importJson (s.toJson n) = .ok (copy, t) →
        ∀ path, (t.descend? copy path).map t.outline = (s.descend? n path).map s.outline) := by
  have ends : s.Grounded n := acyclic.grounded
  refine ⟨⟨?_, fun portable => ?_⟩, fun portable copy t imported => ?_⟩
  · rintro ⟨copy, t, imported, equal⟩
    obtain ⟨document, read, built, kept⟩ := built_of_importJson imported
    exact Copies.portableBelow sound kept ends copy ⟨document, read, built⟩ held equal
  · obtain ⟨document, read⟩ := exists_readFrom_toJson ends portable
    have imported : s.importJson (s.toJson n) = .ok (document.build s) :=
      importJson_eq_ok.2 ⟨document, read, rfl⟩
    obtain ⟨built, kept⟩ := document.buildsTree s
    exact ⟨_, _, imported, Copies.deepEqual sound kept ends _ ⟨document, read, built⟩ held portable⟩
  · obtain ⟨document, read, built, _⟩ := built_of_importJson imported
    exact Copies.outline_descend? ends ⟨document, read, built⟩ portable

/-- A parent that has one leaf as both its children. -/
def sharedPair : Store :=
  ⟨#[⟨"leaf", ⟨[("size", .ofInt 3), ("data", .shared ⟨0, .array [.null]⟩)], by decide⟩, none⟩,
    ⟨"pair", .empty, some [⟨0⟩, ⟨0⟩]⟩], 1⟩

theorem roundTrips_sharedPair :
    sharedPair.Sound ∧ sharedPair.Holds ⟨1⟩ ∧ sharedPair.AcyclicBelow ⟨1⟩ ∧
      sharedPair.RoundTrips ⟨1⟩ := by
  have children : ∀ n child, child ∈ sharedPair.children n → n = ⟨1⟩ ∧ child = ⟨0⟩ := by
    rintro ⟨_ | _ | index⟩ child below <;>
      simp_all [Store.children, data, sharedPair, NodeData.childList, default, NodeData.ofKind]
  have fields : ∀ n, ∀ field ∈ (sharedPair.fields n).entries,
      field = ("size", .ofInt 3) ∨ field = ("data", .shared ⟨0, .array [.null]⟩) := by
    rintro ⟨_ | _ | index⟩ field inside <;>
      simp_all [Store.fields, data, sharedPair, default, NodeData.ofKind, Fields.empty]
  have sound : sharedPair.Sound := by
    refine ⟨fun n _ child below => ?_, fun n field inside object same => ?_⟩
    · rw [(children n child below).2]
      decide
    · obtain rfl | rfl := fields n field inside
      · simp [Value.ofInt] at same
      · cases same
        exact Json.distinctNames_array.2 (by simp [Json.DistinctNames])
  have acyclic : sharedPair.AcyclicBelow ⟨1⟩ := by
    refine grounded_iff_acyclicBelow.1 (Acyclic.grounded ⟨NodeId.index, fun n child below => ?_⟩ _)
    obtain ⟨rfl, rfl⟩ := children n child below
    decide
  have portable : sharedPair.PortableBelow ⟨1⟩ := by
    refine fun m _ => ⟨fun name inside => ?_, fun field inside => ?_⟩
    · obtain ⟨field, listed, rfl⟩ := List.mem_map.1 inside
      obtain rfl | rfl := fields m field listed <;> simp
    · obtain rfl | rfl := fields m field inside
      · exact Binary64.isFinite_ofInt (by decide)
      · rfl
  exact ⟨sound, by decide, acyclic, (roundTrips_iff sound (by decide) acyclic).1.2 portable⟩

end Store
end TreeIndex
