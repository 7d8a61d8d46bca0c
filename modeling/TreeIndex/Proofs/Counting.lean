import TreeIndex.Distinct
import Mathlib.Data.Set.Card

/-!
# Counting with lists and hash sets

A list that repeats nothing counts the set of its items. A hash set keeps one
representative of each class of equal items of a list, so its size is the number of
classes, whatever the items, if their equality is an equivalence that hashing respects.
-/
namespace TreeIndex

theorem ncard_eq_length {α : Type} {items : List α} {S : Set α} (distinct : items.Nodup)
    (members : ∀ a, a ∈ S ↔ a ∈ items) : S.ncard = items.length := by
  classical
  have listed : S = (items.toFinset : Set α) := by
    ext a
    simp [members]
  rw [listed, Set.ncard_coe_finset, List.toFinset_card_of_nodup distinct]

section Classes

variable {α : Type} [BEq α] {a b : α} {values : List α}

/-- The items equal to a given one. -/
def classOf (a : α) : Set α := {b | (a == b) = true}

/-- The classes of equal items that a list meets. -/
def classes (values : List α) : Set (Set α) := {c | ∃ a ∈ values, classOf a = c}

theorem classOf_eq_iff [EquivBEq α] : classOf a = classOf b ↔ (a == b) = true := by
  constructor
  · intro same
    have itself : b ∈ classOf b := BEq.rfl
    rwa [← same] at itself
  · intro equal
    ext c
    exact iff_of_eq (congrArg (· = true) (BEq.congr_left equal))

variable [Hashable α] [EquivBEq α] [LawfulHashable α]

/-- Those that the hash set keeps of a list. -/
def kept (values : List α) : List α := (Std.HashSet.ofList values).toList

theorem contains_kept : (kept values).contains a = values.contains a := by
  rw [kept, Std.HashSet.contains_toList, Std.HashSet.contains_ofList]

/-- What is kept meets the classes of the list. -/
theorem classes_kept : classes (kept values) = classes values := by
  have meets (list : List α) (a : α) :
      (∃ b ∈ list, classOf b = classOf a) ↔ list.contains a = true := by
    simp only [List.contains_iff_exists_mem_beq, classOf_eq_iff, BEq.comm]
  ext c
  by_cases inhabited : ∃ a, classOf a = c
  · obtain ⟨a, rfl⟩ := inhabited
    exact (meets _ a).trans ((Bool.eq_iff_iff.1 contains_kept).trans (meets _ a).symm)
  · exact iff_of_false (fun ⟨a, _, same⟩ => inhabited ⟨a, same⟩)
      (fun ⟨a, _, same⟩ => inhabited ⟨a, same⟩)

/-- It meets none of them twice. -/
theorem nodup_classOf_kept : ((kept values).map classOf).Nodup := by
  refine List.pairwise_map.2 (Std.HashSet.distinct_toList.imp fun {a b} apart same => ?_)
  rw [classOf_eq_iff, apart] at same
  cases same

theorem distinctCount_eq_ncard (values : List α) :
    distinctCount values = (classes values).ncard := by
  have members (c : Set α) : c ∈ classes values ↔ c ∈ (kept values).map classOf := by
    rw [← classes_kept, List.mem_map]
    rfl
  rw [ncard_eq_length nodup_classOf_kept members, List.length_map, kept,
    Std.HashSet.length_toList, distinctCount]

end Classes

end TreeIndex
