import TreeIndex.Store

/-!
# Giving up nodes

In the heap each live node has its record and a count of its handles: those held
outside and the entries of child lists that name it. When the last handle of a
node is given up the node is freed, and with its child list one handle of each
child is given up. `unlink` does this from a list of handles still to be given
up, so it ends and needs no recursion on the depth of the tree: a step frees a
node, or lowers a count and shortens the list.
-/
namespace TreeIndex

structure Cell where
  data : NodeData
  handles : Nat

/-- Live nodes have a cell, freed ones none. -/
structure Heap where
  cells : Array (Option Cell)

/-- A node freed, and what was left of its record when it was. -/
structure Freed where
  node : NodeId
  remains : NodeData

namespace Heap

def cell? (h : Heap) (n : NodeId) : Option Cell := (h.cells[n.index]?).join

def live (h : Heap) : Nat := h.cells.countP Option.isSome

def write (h : Heap) (n : NodeId) (cell : Option Cell) : Heap :=
  ⟨h.cells.setIfInBounds n.index cell⟩

theorem live_write (h : Heap) (n : NodeId) (cell : Option Cell) {old : Cell}
    (found : h.cell? n = some old) :
    (h.write n cell).live = h.live - 1 + (if cell.isSome then 1 else 0) := by
  have bound : n.index < h.cells.size := by
    by_cases k : n.index < h.cells.size
    · exact k
    · simp [cell?, k] at found
  have held : (h.cells[n.index]).isSome = true := by
    simp only [cell?, bound, getElem?_pos, Option.join_some] at found
    simp [found]
  simp [live, write, Array.setIfInBounds, bound, Array.countP_set, held]

theorem live_pos (h : Heap) (n : NodeId) {cell : Cell} (found : h.cell? n = some cell) :
    0 < h.live := by
  have bound : n.index < h.cells.size := by
    by_cases k : n.index < h.cells.size
    · exact k
    · simp [cell?, k] at found
  simp only [cell?, bound, getElem?_pos, Option.join_some] at found
  rw [live, Array.countP_pos_iff]
  exact ⟨_, Array.getElem_mem bound, by simp [found]⟩

/-- Gives up the handles in turn. The children of a freed node come before the
handles that were waiting, the last child first; their list is taken from the
record before the record goes. -/
def unlink (h : Heap) (freed : List Freed) : List NodeId → List Freed × Heap
  | [] => (freed.reverse, h)
  | n :: pending =>
    match _found : h.cell? n with
    | none => unlink h freed pending
    | some cell =>
      if cell.handles ≤ 1 then
        unlink (h.write n none) (⟨n, { cell.data with children := none }⟩ :: freed)
          (cell.data.childList.reverse ++ pending)
      else
        unlink (h.write n (some { cell with handles := cell.handles - 1 })) freed pending
termination_by pending => (h.live, pending.length)
decreasing_by
  · exact Prod.Lex.right _ (by simp)
  · have positive := h.live_pos n _found
    have fewer := h.live_write n none _found
    exact Prod.Lex.left _ _ (by simp at fewer; omega)
  · have positive := h.live_pos n _found
    have equal := h.live_write n (some { cell with handles := cell.handles - 1 }) _found
    have same : (h.write n (some { cell with handles := cell.handles - 1 })).live = h.live := by
      simp at equal; omega
    rw [same]
    exact Prod.Lex.right _ (by simp)

/-- Gives up one outside handle; the nodes freed are listed in their order. -/
def release (h : Heap) (n : NodeId) : List Freed × Heap := h.unlink [] [n]

/-- Counts one handle for each time a node is listed. -/
def countHandles (size : Nat) (handles : List NodeId) : Array Nat :=
  handles.foldl (fun counts n => counts.modify n.index (· + 1)) (Array.replicate size 0)

/-- The heap of a store, where the given handles are held outside. -/
def ofStore (s : Store) (outside : List NodeId) : Heap :=
  let counts := countHandles s.size (outside ++ s.nodes.toList.flatMap NodeData.childList)
  ⟨s.nodes.mapIdx fun index data => some ⟨data, counts[index]?.getD 0⟩⟩

/-- The store of the live nodes; a freed one reads as a nameless leaf. -/
def toStore (h : Heap) (shares : Nat) : Store :=
  ⟨h.cells.map fun cell => (cell.map Cell.data).getD default, shares⟩

end Heap
end TreeIndex
