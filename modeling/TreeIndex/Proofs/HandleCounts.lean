import TreeIndex.Heap
import TreeIndex.Proofs.GroundedPaths

/-!
# Counted handles

A heap is counted for the handles held outside when each live node counts the
outside handles of it and the entries of child lists that name it, and has at
least one. Giving up a handle keeps a heap counted for the handles that are left:
a count falls by one, or the last handle goes with its node and the entries of
its child list become handles that wait to be given up.

In a counted heap without cycles every live node can be reached from an outside
handle: going up from a node, each time to one that names it, has to end.
-/
namespace TreeIndex
namespace Heap

variable {h : Heap} {m n : NodeId} {cell old : Cell} {outside pending : List NodeId}

/-- The child list of a cell; a freed node has none. -/
def childrenIn (cell : Option Cell) : List NodeId := cell.elim [] fun cell => cell.data.childList

def children (h : Heap) (n : NodeId) : List NodeId := childrenIn (h.cell? n)

/-- The entries of the child lists of all live nodes. -/
def entries (h : Heap) : List NodeId := h.cells.toList.flatMap childrenIn

/-- The count of a live node, zero for a freed one. -/
def handles (h : Heap) (n : NodeId) : Nat := (h.cell? n).elim 0 Cell.handles

theorem cell?_eq_some : h.cell? n = some cell ↔ h.cells[n.index]? = some (some cell) :=
  Option.join_eq_some_iff

theorem children_of_cell? (found : h.cell? n = some cell) :
    h.children n = cell.data.childList := by
  rw [children, found]
  rfl

theorem handles_of_cell? (found : h.cell? n = some cell) : h.handles n = cell.handles := by
  rw [handles, found]
  rfl

theorem exists_cell_of_handles_pos (pos : 0 < h.handles n) : ∃ cell, h.cell? n = some cell := by
  rw [← Option.ne_none_iff_exists']
  intro freed
  simp [handles, freed] at pos

theorem cell?_write (found : h.cell? n = some old) (cell : Option Cell) (m : NodeId) :
    (h.write n cell).cell? m = if n = m then cell else h.cell? m := by
  obtain ⟨bound, _⟩ := Array.getElem?_eq_some_iff.1 (cell?_eq_some.1 found)
  by_cases here : n = m
  · subst here
    simp [cell?, write, bound]
  · have apart : n.index ≠ m.index := fun same => here (by cases n; cases m; simp_all)
    simp [cell?, write, here, apart]

theorem mem_entries : m ∈ h.entries ↔ ∃ n, m ∈ h.children n := by
  constructor
  · intro named
    obtain ⟨cell, stored, inside⟩ := List.mem_flatMap.1 named
    obtain ⟨i, found⟩ := List.getElem?_of_mem stored
    rw [Array.getElem?_toList] at found
    exact ⟨⟨i⟩, by simpa [children, cell?, found] using inside⟩
  · rintro ⟨n, inside⟩
    cases found : h.cell? n with
    | none => simp [children, found, childrenIn] at inside
    | some cell =>
      rw [children, found] at inside
      refine List.mem_flatMap.2 ⟨some cell, ?_, inside⟩
      exact Array.mem_toList_iff.2 (Array.mem_of_getElem? (cell?_eq_some.1 found))

/-- What leaves and what enters the child lists when a cell is written. -/
theorem entries_write (found : h.cell? n = some old) (cell : Option Cell) :
    (old.data.childList ++ (h.write n cell).entries).Perm (childrenIn cell ++ h.entries) := by
  obtain ⟨bound, stored⟩ := Array.getElem?_eq_some_iff.1 (cell?_eq_some.1 found)
  have bound' : n.index < h.cells.toList.length := by simpa using bound
  have before := (List.getElem_cons_eraseIdx_perm bound').flatMap_right childrenIn
  have after := (List.set_perm_cons_eraseIdx bound' cell).flatMap_right childrenIn
  rw [List.flatMap_cons, Array.getElem_toList, stored] at before
  rw [List.flatMap_cons, ← Array.toList_setIfInBounds] at after
  have taken : old.data.childList = childrenIn (some old) := rfl
  refine (after.append_left _).trans ?_
  refine List.Perm.trans ?_ (before.append_left _)
  rw [taken, ← List.append_assoc, ← List.append_assoc]
  exact List.perm_append_comm.append_right _

/-- Each live node counts its handles, those held outside and those in child
lists, and has one; a freed node has none. -/
structure Counted (h : Heap) (outside : List NodeId) : Prop where
  handles_eq : ∀ n, h.handles n = (outside ++ h.entries).count n
  positive : ∀ n cell, h.cell? n = some cell → 0 < cell.handles

theorem Counted.exists_cell (counted : h.Counted outside) (held : n ∈ outside ++ h.entries) :
    ∃ cell, h.cell? n = some cell := by
  refine exists_cell_of_handles_pos ?_
  rw [counted.handles_eq]
  exact List.count_pos_iff.2 held

/-- A handle that is not the last is given up. -/
theorem Counted.lower (counted : h.Counted (n :: outside)) (found : h.cell? n = some cell)
    (several : 1 < cell.handles) :
    (h.write n (some { cell with handles := cell.handles - 1 })).Counted outside := by
  have same := entries_write found (some { cell with handles := cell.handles - 1 })
  have kept := (List.perm_append_left_iff _).1 same
  refine ⟨fun m => ?_, fun m other there => ?_⟩
  · have before := counted.handles_eq m
    rw [List.count_append, kept.count_eq, ← List.count_append]
    rw [List.cons_append, List.count_cons] at before
    rw [handles, cell?_write found]
    by_cases here : n = m
    · subst here
      rw [handles_of_cell? found] at before
      simp at before ⊢
      omega
    · simpa [here, handles] using before
  · rw [cell?_write found] at there
    split at there
    · obtain rfl := Option.some.inj there
      simp
      omega
    · exact counted.positive m other there

/-- The last handle of a node is given up: the entries of its child list wait. -/
theorem Counted.free (counted : h.Counted (n :: outside)) (found : h.cell? n = some cell)
    (last : cell.handles ≤ 1) :
    (h.write n none).Counted (cell.data.childList.reverse ++ outside) := by
  have moved := entries_write found none
  refine ⟨fun m => ?_, fun m other there => ?_⟩
  · have before := counted.handles_eq m
    have count := moved.count_eq m
    simp only [List.count_append, List.cons_append, List.count_cons, List.count_reverse,
      childrenIn, Option.elim_none, List.nil_append] at before count ⊢
    rw [handles, cell?_write found]
    by_cases here : n = m
    · subst here
      have positive := counted.positive n cell found
      rw [handles_of_cell? found] at before
      simp at before ⊢
      omega
    · simp [here] at before ⊢
      rw [handles] at before
      omega
  · rw [cell?_write found] at there
    split at there
    · cases there
    · exact counted.positive m other there

/-- The second node is the first or stands somewhere below it. -/
def Reaches (h : Heap) : NodeId → NodeId → Prop := (h.toStore 0).Reaches

/-- No node stands below itself. -/
def Acyclic (h : Heap) : Prop := ∀ n, ∀ child ∈ h.children n, ¬ h.Reaches child n

theorem children_toStore (h : Heap) (shares : Nat) (n : NodeId) :
    (h.toStore shares).children n = h.children n := by
  have stored : (h.toStore shares).data n = ((h.cell? n).map Cell.data).getD default := by
    cases found : h.cells[n.index]? <;> simp [Store.data, toStore, cell?, found]
  rw [Store.children, stored, children]
  cases h.cell? n <;> rfl

/-- Nothing lives that cannot be reached: by induction on how many nodes are not
below the node, which are fewer for a node that names it. -/
theorem Counted.exists_reaches (counted : h.Counted outside) (acyclic : h.Acyclic)
    (found : h.cell? n = some cell) : ∃ root ∈ outside, h.Reaches root n := by
  induction above : (h.toStore 0).size - ((h.toStore 0).spread n).card using Nat.strongRecOn
    generalizing n cell with
  | ind above ih =>
    have held : n ∈ outside ++ h.entries := by
      rw [← List.count_pos_iff, ← counted.handles_eq, handles_of_cell? found]
      exact counted.positive n cell found
    obtain root | named := List.mem_append.1 held
    · exact ⟨n, root, .refl⟩
    · obtain ⟨parent, below⟩ := mem_entries.1 named
      have below' : n ∈ (h.toStore 0).children parent := by rwa [children_toStore]
      have fewer := Store.card_spread_lt below' (acyclic parent n below)
      have bound := (h.toStore 0).card_spread_le parent
      cases stored : h.cell? parent with
      | none => simp [children, stored, childrenIn] at below
      | some cell =>
        obtain ⟨root, outer, down⟩ := ih _ (by omega) stored rfl
        exact ⟨root, outer, down.tail below'⟩

/-- A pass of counting adds to each number how often its node is listed. -/
theorem getElem?_foldl_modify (handles : List NodeId) (counts : Array Nat) (i : Nat) :
    (handles.foldl (fun counts n => counts.modify n.index (· + 1)) counts)[i]? =
      counts[i]?.map (handles.count ⟨i⟩ + ·) := by
  induction handles generalizing counts with
  | nil => simp
  | cons n handles ih =>
    rw [List.foldl_cons, ih, Array.getElem?_modify, List.count_cons]
    by_cases here : n.index = i
    · subst here
      simp [Function.comp_def, Nat.add_assoc, Nat.add_comm 1]
    · have apart : (n == ⟨i⟩) = false :=
        beq_false_of_ne fun same => here (congrArg NodeId.index same)
      simp [here, apart]

theorem cell?_ofStore {s : Store} (held : s.Holds n) : (ofStore s outside).cell? n =
    some ⟨s.data n, (outside ++ s.nodes.toList.flatMap NodeData.childList).count n⟩ := by
  have bound : n.index < s.nodes.size := held
  simp [cell?, ofStore, countHandles, getElem?_foldl_modify, bound, Store.data, Store.size,
    Nat.add_comm]

theorem cell?_ofStore_eq_none {s : Store} (out : ¬ s.Holds n) :
    (ofStore s outside).cell? n = none := by
  have bound : s.nodes.size ≤ n.index := Nat.le_of_not_lt out
  simp [cell?, ofStore, bound]

theorem entries_ofStore (s : Store) (outside : List NodeId) :
    (ofStore s outside).entries = s.nodes.toList.flatMap NodeData.childList := by
  rw [entries, List.flatMap_def, List.flatMap_def]
  refine congrArg List.flatten (List.ext_getElem? fun i => ?_)
  simp [ofStore, childrenIn, Function.comp_def]

/-- The heap of a store is counted if each node has a handle and each handle a node. -/
theorem counted_ofStore {s : Store} (held : ∀ n,
    n ∈ outside ++ s.nodes.toList.flatMap NodeData.childList ↔ s.Holds n) :
    (ofStore s outside).Counted outside := by
  refine ⟨fun n => ?_, fun n cell found => ?_⟩
  · rw [entries_ofStore]
    by_cases inside : s.Holds n
    · rw [handles_of_cell? (cell?_ofStore inside)]
    · rw [handles, cell?_ofStore_eq_none inside, List.count_eq_zero.2 (mt (held n).1 inside)]
      rfl
  · by_cases inside : s.Holds n
    · rw [cell?_ofStore inside] at found
      obtain rfl := Option.some.inj found
      exact List.count_pos_iff.2 ((held n).2 inside)
    · rw [cell?_ofStore_eq_none inside] at found
      cases found

theorem children_ofStore (s : Store) (outside : List NodeId) (n : NodeId) :
    (ofStore s outside).children n = s.children n := by
  by_cases inside : s.Holds n
  · exact children_of_cell? (cell?_ofStore inside)
  · rw [children, cell?_ofStore_eq_none inside, Store.children_eq_nil inside]
    rfl

theorem reaches_ofStore {s : Store} : (ofStore s outside).Reaches m n ↔ s.Reaches m n := by
  refine iff_of_eq (congrArg (fun r => Relation.ReflTransGen r m n) ?_)
  funext parent child
  rw [children_toStore, children_ofStore]

theorem acyclic_ofStore {s : Store} (acyclic : s.Acyclic) : (ofStore s outside).Acyclic := by
  intro n child below back
  rw [children_ofStore] at below
  exact (acyclic.grounded n).not_reaches child below (reaches_ofStore.1 back)

end Heap
end TreeIndex
