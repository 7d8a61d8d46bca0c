import TreeIndex.Proofs.Counting
import TreeIndex.Proofs.FreshNumbers
import TreeIndex.Proofs.RoundTrip

/-!
# Downward paths and occurrences

A downward path is told by the child positions on the way. The pre-order of a tree is a
list of the nodes at the ends of all of these, so a node is listed once for each path
that leads to it.
-/
namespace TreeIndex
namespace Store

variable {s : Store} {n : NodeId}

/-- The paths that go first to a child and then down from it. -/
def pathsThrough (s : Store) (n : NodeId) (below : NodeId → List (List Nat)) :
    List (List Nat) :=
  ((s.children n).mapIdx fun index child => (below child).map (index :: ·)).flatten

theorem mem_pathsThrough {below : NodeId → List (List Nat)} {path : List Nat} :
    path ∈ s.pathsThrough n below ↔
      ∃ index child rest, s.child? n index = some child ∧ rest ∈ below child ∧
        path = index :: rest := by
  simp only [pathsThrough, List.mem_flatten, List.mem_mapIdx, child?, List.getElem?_eq_some_iff]
  constructor
  · rintro ⟨_, ⟨index, inside, rfl⟩, listed⟩
    obtain ⟨rest, here, rfl⟩ := List.mem_map.1 listed
    exact ⟨index, _, rest, ⟨inside, rfl⟩, here, rfl⟩
  · rintro ⟨index, _, rest, ⟨inside, rfl⟩, here, rfl⟩
    exact ⟨_, ⟨index, inside, rfl⟩, List.mem_map_of_mem here⟩

theorem nodup_pathsThrough {below : NodeId → List (List Nat)}
    (distinct : ∀ child ∈ s.children n, (below child).Nodup) : (s.pathsThrough n below).Nodup := by
  refine List.nodup_flatten.2 ⟨fun paths listed => ?_, List.pairwise_iff_getElem.2 ?_⟩
  · obtain ⟨index, inside, rfl⟩ := List.mem_mapIdx.1 listed
    exact (distinct _ (List.getElem_mem inside)).map List.cons_injective
  · intro i j _ _ less path left right
    rw [List.getElem_mapIdx] at left right
    obtain ⟨_, _, rfl⟩ := List.mem_map.1 left
    obtain ⟨_, _, same⟩ := List.mem_map.1 right
    exact less.ne' (List.cons.inj same).1

theorem map_descend?_pathsThrough {below : NodeId → List (List Nat)} :
    (s.pathsThrough n below).map (s.descend? n) =
      (s.children n).flatMap fun child => (below child).map (s.descend? child) := by
  rw [pathsThrough, List.map_flatten, List.flatMap]
  refine congrArg List.flatten (List.ext_getElem (by simp) fun index _ inside => ?_)
  rw [List.length_map] at inside
  have child : s.child? n index = some (s.children n)[index] := List.getElem?_eq_getElem inside
  simp only [List.getElem_map, List.getElem_mapIdx, List.map_map]
  refine List.map_congr_left fun rest _ => ?_
  simp [descend?, child]

/-- All downward paths, each once, in the order of the nodes that they lead to. -/
theorem Grounded.exists_paths (h : s.Grounded n) :
    ∃ paths : List (List Nat), paths.Nodup ∧
      (∀ path, (s.descend? n path).isSome = true ↔ path ∈ paths) ∧
      paths.map (s.descend? n) = (s.nodesBelow n).map some := by
  refine h.induction fun n h ih => ?_
  choose! below distinct complete ends using ih
  refine ⟨[] :: s.pathsThrough n below, List.nodup_cons.2 ⟨?_, nodup_pathsThrough distinct⟩,
    fun path => ?_, ?_⟩
  · intro listed
    obtain ⟨_, _, _, _, _, empty⟩ := mem_pathsThrough.1 listed
    cases empty
  · cases path with
    | nil => simp [descend?]
    | cons index rest =>
      rw [descend?, List.mem_cons, or_iff_right (List.cons_ne_nil _ _), mem_pathsThrough]
      cases found : s.child? n index with
      | none => simp [found]
      | some child =>
        have inside : child ∈ s.children n := List.mem_of_getElem? found
        simp [found, complete child inside]
  · rw [List.map_cons, map_descend?_pathsThrough, nodesBelow_eq h, List.map_cons, List.map_flatMap]
    exact congrArg (some n :: ·) (List.flatMap_congr ends)

/-- There is one node for each path. -/
theorem Grounded.length_nodesBelow (h : s.Grounded n) :
    (s.nodesBelow n).length = {path | (s.descend? n path).isSome = true}.ncard := by
  obtain ⟨paths, distinct, complete, ends⟩ := h.exists_paths
  have counted : {path | (s.descend? n path).isSome = true}.ncard = paths.length :=
    ncard_eq_length distinct complete
  rw [counted]
  simpa using (congrArg List.length ends).symm

/-- A node is listed as often as paths lead to it. -/
theorem Grounded.count_nodesBelow (h : s.Grounded n) (m : NodeId) :
    (s.nodesBelow n).count m = {path | s.descend? n path = some m}.ncard := by
  obtain ⟨paths, distinct, complete, ends⟩ := h.exists_paths
  have members (path : List Nat) : s.descend? n path = some m ↔
      path ∈ paths.filter fun path => s.descend? n path == some m := by
    rw [List.mem_filter, ← complete, beq_iff_eq]
    exact ⟨fun leads => ⟨by simp [leads], leads⟩, And.right⟩
  have counted : {path | s.descend? n path = some m}.ncard = _ :=
    ncard_eq_length (distinct.filter _) members
  rw [counted, ← List.countP_eq_length_filter,
    ← List.count_map_of_injective _ some (Option.some_injective _), ← ends, List.count,
    List.countP_map]
  rfl

theorem length_occurrences (direction : Direction) (h : s.Grounded n) :
    (s.occurrences direction n).length = {path | (s.descend? n path).isSome = true}.ncard := by
  rw [← h.length_nodesBelow, nodesBelow, List.length_map]
  exact (occurrences_perm direction .forward n).length_eq

theorem count_occurrences (direction : Direction) (h : s.Grounded n) (m : NodeId) :
    ((s.occurrences direction n).map Occurrence.node).count m =
      {path | s.descend? n path = some m}.ncard := by
  rw [← h.count_nodesBelow]
  exact ((occurrences_perm direction .forward n).map Occurrence.node).count_eq m

end Store
end TreeIndex
