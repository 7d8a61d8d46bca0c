import TreeIndex.Structural
import TreeIndex.Proofs.Childwise
import TreeIndex.Proofs.JsonLaws
import Mathlib.Data.List.Perm.Subperm

/-!
# Equality of contents

Entry lists without repeated names are finite maps: if one is as long as the
other and each of its entries has a partner there, then they agree name by name.
So objects are compared in whatever order their members stand, and equality of
JSON values, of field values and of fields is an equivalence, as long as no
object has two members of one name.
-/
namespace TreeIndex

namespace Entries

variable {α β γ : Type} {R : α → β → Prop} {entries : List (String × α)}
  {others : List (String × β)}

/-- Each name stands in both lists, with related values, or in neither. -/
def Agree (R : α → β → Prop) (entries : List (String × α)) (others : List (String × β)) : Prop :=
  ∀ name, Option.Rel R (find? name entries) (find? name others)

theorem Agree.imp_of_mem {S : α → β → Prop} (agree : Agree R entries others)
    (imp : ∀ entry ∈ entries, ∀ other ∈ others, R entry.2 other.2 → S entry.2 other.2) :
    Agree S entries others := fun name =>
  rel_imp_of_mem (agree name) fun value found other found' =>
    imp (name, value) (mem_of_find? found) (name, other) (mem_of_find? found')

theorem Agree.flip (agree : Agree R entries others) :
    Agree (fun b a => R a b) others entries :=
  fun name => rel_flip (agree name)

theorem Agree.comp {S : β → γ → Prop} {lasts : List (String × γ)}
    (first : Agree R entries others) (second : Agree S others lasts) :
    Agree (fun a c => ∃ b, R a b ∧ S b c) entries lasts :=
  fun name => rel_comp (first name) (second name)

theorem mem_names_iff_isSome {name : String} :
    name ∈ names entries ↔ (find? name entries).isSome = true := by
  rw [Option.isSome_iff_ne_none, ne_eq, find?_eq_none, not_not]

theorem Agree.mem_names_iff (agree : Agree R entries others) (name : String) :
    name ∈ names entries ↔ name ∈ names others := by
  rw [mem_names_iff_isSome, mem_names_iff_isSome, rel_isSome_eq (agree name)]

/-- As many entries, each of which has a partner in the other list. -/
def Matched (R : α → β → Prop) (entries : List (String × α)) (others : List (String × β)) :
    Prop :=
  entries.length = others.length ∧
    ∀ entry ∈ entries, ∃ other, find? entry.1 others = some other ∧ R entry.2 other

theorem Matched.names_subset (matched : Matched R entries others) :
    names entries ⊆ names others := by
  intro name here
  obtain ⟨entry, inside, rfl⟩ := List.mem_map.1 here
  obtain ⟨other, found, _⟩ := matched.2 entry inside
  rw [mem_names_iff_isSome, found]
  rfl

/-- There are no more names in the other list than those that are matched. -/
theorem Matched.subset_names (matched : Matched R entries others)
    (distinct : (names entries).Nodup) : names others ⊆ names entries := by
  have long : (names others).length ≤ (names entries).length := by
    simp only [names, List.length_map]
    exact Nat.le_of_eq matched.1.symm
  exact ((distinct.subperm matched.names_subset).perm_of_length_le long).symm.subset

/-- To be matched on one side is to agree. -/
theorem matched_iff (distinct : (names entries).Nodup) (distinct' : (names others).Nodup) :
    Matched R entries others ↔ Agree R entries others := by
  constructor
  · intro matched name
    by_cases here : name ∈ names entries
    · obtain ⟨entry, inside, rfl⟩ := List.mem_map.1 here
      obtain ⟨other, found, related⟩ := matched.2 entry inside
      rw [find?_of_mem distinct inside, found]
      exact .some related
    · have away : name ∉ names others := fun there =>
        here (matched.subset_names distinct there)
      rw [find?_eq_none.2 here, find?_eq_none.2 away]
      exact .none
  · intro agree
    refine ⟨?_, fun entry inside => ?_⟩
    · have same : (names entries).Perm (names others) :=
        (List.perm_ext_iff_of_nodup distinct distinct').2 agree.mem_names_iff
      simpa [names] using same.length_eq
    · have here := agree entry.1
      rw [find?_of_mem distinct inside] at here
      cases found : find? entry.1 others with
      | none => simp [found] at here
      | some other => exact ⟨other, rfl, by simpa [found] using here⟩

end Entries

namespace Json

theorem sameItems_iff {items others : List Json} :
    sameItems items others = true ↔
      List.Forall₂ (fun a b => a.same b = true) items others := by
  induction items generalizing others with
  | nil => cases others <;> simp [sameItems]
  | cons item items ih => cases others <;> simp [sameItems, ih]

theorem sameMembers_iff {members others : List (String × Json)} :
    sameMembers members others = true ↔
      ∀ member ∈ members, ∃ other, Entries.find? member.1 others = some other ∧
        member.2.same other = true := by
  induction members with
  | nil => simp [sameMembers]
  | cons member members ih =>
    cases found : Entries.find? member.1 others <;> simp [sameMembers, ih, found]

@[simp] theorem same_array {items others : List Json} :
    (array items).same (array others) = true ↔
      List.Forall₂ (fun a b => a.same b = true) items others := by
  rw [same, sameItems_iff]

theorem same_object {members others : List (String × Json)} :
    (object members).same (object others) = true ↔
      Entries.Matched (fun a b => a.same b = true) members others := by
  rw [same, Bool.and_eq_true, beq_iff_eq, sameMembers_iff, Entries.Matched]

/-- Objects are the same if they agree name by name. -/
theorem same_object_iff {members others : List (String × Json)}
    (distinct : (Entries.names members).Nodup) (distinct' : (Entries.names others).Nodup) :
    (object members).same (object others) = true ↔
      Entries.Agree (fun a b => a.same b = true) members others :=
  same_object.trans (Entries.matched_iff distinct distinct')

theorem Number.same_symm {x y : Number} (h : x.same y = true) : y.same x = true := by
  cases x <;> cases y <;> simp_all [Number.same, BEq.comm]

theorem Number.same_trans {x y z : Number} (h : x.same y = true) (k : y.same z = true) :
    x.same z = true := by
  cases x with
  | int a => cases y <;> cases z <;> simp_all [Number.same]
  | float a _ =>
    cases y with
    | int b => simp [Number.same] at h
    | float b _ =>
      cases z with
      | int c => simp [Number.same] at k
      | float c _ => exact BEq.trans (α := Binary64) h k

theorem same_symm {a : Json} : ∀ {b : Json}, a.DistinctNames → b.DistinctNames →
    a.same b = true → b.same a = true := by
  induction a using Json.induction with
  | null => intro b _ _ h; cases b <;> simp_all [same]
  | bool value => intro b _ _ h; cases b <;> simp_all [same]
  | string value => intro b _ _ h; cases b <;> simp_all [same]
  | number value =>
    intro b _ _ h
    cases b with
    | number other => exact Number.same_symm h
    | _ => simp [same] at h
  | array items ih =>
    intro b distinct distinct' h
    cases b with
    | array others =>
      rw [distinctNames_array] at distinct distinct'
      rw [same_array] at h ⊢
      exact (forall₂_imp_of_mem h fun item inside other listed same =>
        ih item inside (distinct item inside) (distinct' other listed) same).flip
    | _ => simp [same] at h
  | object members ih =>
    intro b distinct distinct' h
    cases b with
    | object others =>
      rw [distinctNames_object] at distinct distinct'
      rw [same_object_iff distinct.1 distinct'.1] at h
      rw [same_object_iff distinct'.1 distinct.1]
      exact (h.imp_of_mem fun member inside other listed same =>
        ih member inside (distinct.2 member inside) (distinct'.2 other listed) same).flip
    | _ => simp [same] at h

theorem same_trans {a : Json} : ∀ {b c : Json}, a.same b = true → b.same c = true →
    a.same c = true := by
  induction a using Json.induction with
  | null => intro b c h k; cases b <;> cases c <;> simp_all [same]
  | bool value => intro b c h k; cases b <;> cases c <;> simp_all [same]
  | string value => intro b c h k; cases b <;> cases c <;> simp_all [same]
  | number value =>
    intro b c h k
    cases b with
    | number other =>
      cases c with
      | number last => exact Number.same_trans h k
      | _ => simp [same] at k
    | _ => simp [same] at h
  | array items ih =>
    intro b c h k
    cases b with
    | array others =>
      cases c with
      | array lasts =>
        rw [same_array] at h k ⊢
        refine forall₂_imp_of_mem (forall₂_comp h k) fun item inside last _ both => ?_
        obtain ⟨other, here, there⟩ := both
        exact ih item inside here there
      | _ => simp [same] at k
    | _ => simp [same] at h
  | object members ih =>
    intro b c h k
    cases b with
    | object others =>
      cases c with
      | object lasts =>
        rw [same_object] at h k ⊢
        refine ⟨h.1.trans k.1, fun member inside => ?_⟩
        obtain ⟨other, found, here⟩ := h.2 member inside
        obtain ⟨last, found', there⟩ := k.2 (member.1, other) (Entries.mem_of_find? found)
        exact ⟨last, found', ih member inside here there⟩
      | _ => simp [same] at k
    | _ => simp [same] at h

end Json

namespace Value

/-- No object in a shared content has two members of one name. -/
def DistinctNames (value : Value) : Prop :=
  ∀ object, value = .shared object → object.content.DistinctNames

variable {a b c : Value}

theorem sameContent_self (distinct : a.DistinctNames) : a.sameContent a = true := by
  cases a with
  | shared object => exact object.content.same_self (distinct object rfl)
  | _ => exact BEq.rfl (α := Value)

theorem sameContent_symm (distinct : a.DistinctNames) (distinct' : b.DistinctNames)
    (h : a.sameContent b = true) : b.sameContent a = true := by
  cases a <;> cases b
  case shared.shared x y => exact Json.same_symm (distinct x rfl) (distinct' y rfl) h
  all_goals exact BEq.symm (α := Value) h

theorem sameContent_trans (h : a.sameContent b = true) (k : b.sameContent c = true) :
    a.sameContent c = true := by
  cases a <;> cases b
  case shared.shared x y =>
    cases c with
    | shared z => exact Json.same_trans h k
    | _ => cases k
  all_goals first
    | exact BEq.trans (α := Value) h k
    | cases h

end Value

/-- Fields have the same contents if they agree name by name. -/
theorem Fields.sameContent_iff {fields others : Fields Value} :
    fields.sameContent others = true ↔
      Entries.Agree (fun v w => v.sameContent w = true) fields.entries others.entries := by
  rw [← Entries.matched_iff fields.distinct others.distinct, Fields.sameContent,
    Bool.and_eq_true, beq_iff_eq, List.all_eq_true]
  refine and_congr_right fun _ => forall₂_congr fun field _ => ?_
  rw [Fields.get?]
  cases Entries.find? field.1 others.entries <;> simp

end TreeIndex
