import TreeIndex.Json

/-!
# JSON values by their parts

What a JSON value says of its items and members, told without recursion on
lists: an induction principle, and the equations of `DistinctNames` and `same`.
A value without repeated names is the same as itself.
-/
namespace TreeIndex

namespace Entries

variable {α : Type}

/-- An entry is found if its name stands nowhere else. -/
theorem find?_of_mem {entries : List (String × α)} (distinct : (names entries).Nodup)
    {name : String} {value : α} (here : (name, value) ∈ entries) :
    find? name entries = some value := by
  induction entries with
  | nil => simp at here
  | cons entry rest ih =>
    obtain ⟨other, old⟩ := entry
    simp only [names, List.map_cons, List.nodup_cons] at distinct
    obtain same | later := List.mem_cons.1 here
    · cases same
      simp [find?_cons]
    · have : other ≠ name := by
        rintro rfl
        exact distinct.1 (List.mem_map_of_mem later)
      rw [find?_cons, if_neg this]
      exact ih distinct.2 later

theorem mem_of_find? {entries : List (String × α)} {name : String} {value : α}
    (found : find? name entries = some value) : (name, value) ∈ entries := by
  induction entries with
  | nil => simp at found
  | cons entry rest ih =>
    obtain ⟨other, old⟩ := entry
    rw [find?_cons] at found
    split at found
    · simp_all
    · exact List.mem_cons_of_mem _ (ih found)

end Entries

namespace Json

/-- What holds of a value when it holds of its items and members holds of all. -/
@[elab_as_elim] theorem induction {P : Json → Prop} (null : P .null)
    (bool : ∀ value, P (.bool value)) (number : ∀ value, P (.number value))
    (string : ∀ value, P (.string value))
    (array : ∀ items, (∀ item ∈ items, P item) → P (.array items))
    (object : ∀ members, (∀ member ∈ members, P member.2) → P (.object members))
    (json : Json) : P json := by
  refine @Json.rec P (fun items => ∀ item ∈ items, P item)
    (fun members => ∀ member ∈ members, P member.2) (fun member => P member.2)
    null bool number string array object ?nil ?cons ?none ?more ?member json
  case nil => simp
  case cons => simp_all
  case none => simp
  case more => simp_all
  case member => exact fun _ _ h => h

theorem distinctNamesItems_iff {items : List Json} :
    DistinctNamesItems items ↔ ∀ item ∈ items, item.DistinctNames := by
  induction items with
  | nil => simp [DistinctNamesItems]
  | cons item items ih => simp [DistinctNamesItems, ih]

theorem distinctNamesMembers_iff {members : List (String × Json)} :
    DistinctNamesMembers members ↔ ∀ member ∈ members, member.2.DistinctNames := by
  induction members with
  | nil => simp [DistinctNamesMembers]
  | cons member members ih => simp [DistinctNamesMembers, ih]

@[simp] theorem distinctNames_array {items : List Json} :
    (array items).DistinctNames ↔ ∀ item ∈ items, item.DistinctNames := by
  rw [DistinctNames, distinctNamesItems_iff]

@[simp] theorem distinctNames_object {members : List (String × Json)} :
    (object members).DistinctNames ↔
      (Entries.names members).Nodup ∧ ∀ member ∈ members, member.2.DistinctNames := by
  rw [DistinctNames, distinctNamesMembers_iff]

theorem sameItems_self {items : List Json} (all : ∀ item ∈ items, item.same item = true) :
    sameItems items items = true := by
  induction items with
  | nil => rfl
  | cons item items ih => simp_all [sameItems]

/-- Members that are found in the other object with values the same as theirs. -/
theorem sameMembers_of_find? {members others : List (String × Json)}
    (all : ∀ member ∈ members, Entries.find? member.1 others = some member.2 ∧
      member.2.same member.2 = true) : sameMembers members others = true := by
  induction members with
  | nil => rfl
  | cons member members ih =>
    obtain ⟨found, same⟩ := all member (by simp)
    have rest := ih fun m here => all m (by simp [here])
    simp [sameMembers, found, same, rest]

theorem same_self (json : Json) (distinct : json.DistinctNames) : json.same json = true := by
  induction json using Json.induction with
  | null => rfl
  | bool value => simp [same]
  | number value => cases value <;> simp [same, Number.same]
  | string value => simp [same]
  | array items ih =>
    rw [distinctNames_array] at distinct
    rw [same]
    exact sameItems_self fun item here => ih item here (distinct item here)
  | object members ih =>
    rw [distinctNames_object] at distinct
    have all : sameMembers members members = true := sameMembers_of_find? fun member here =>
      ⟨Entries.find?_of_mem distinct.1 here, ih member here (distinct.2 member here)⟩
    simp [same, all]

end Json
end TreeIndex
