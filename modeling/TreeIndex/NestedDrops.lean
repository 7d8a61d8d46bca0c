import TreeIndex.Heap

/-!
# Drops within drops

When the last handle of a node is given up its record is dropped, and dropping a
record unlinks what is below it: the handles of its child list are given up one
after another, and the record of a node that was held by nothing else is dropped
in its turn. `Drops` and `Unlinks` say this with the drops nested as they are.
-/
namespace TreeIndex
namespace Heap

/-- What is left of a record when its child list has been taken. -/
def taken (data : NodeData) : NodeData := { data with children := none }

/-- The loop over a worklist of handles frees nodes and leaves a heap; `depth` is
the greatest number of drops that are under way at once, the one that runs the
loop among them. A record that is freed is dropped before the loop goes on, and
its own child list is the worklist of that drop. -/
inductive Unlinks : Heap → List NodeId → Nat → List Freed → Heap → Prop
  | done {h : Heap} : Unlinks h [] 1 [] h
  | lowered {h h' : Heap} {n : NodeId} {pending : List NodeId} {cell : Cell} {depth : Nat}
    {freed : List Freed} :
    h.cell? n = some cell → 1 < cell.handles →
    Unlinks (h.write n (some { cell with handles := cell.handles - 1 })) pending depth freed h' →
    Unlinks h (n :: pending) depth freed h'
  | freed {h h₁ h' : Heap} {n : NodeId} {pending : List NodeId} {cell : Cell} {inner depth : Nat}
    {nested freed : List Freed} :
    h.cell? n = some cell → cell.handles ≤ 1 →
    Unlinks (h.write n none) (taken cell.data).childList.reverse inner nested h₁ →
    Unlinks h₁ (cell.data.childList.reverse ++ pending) depth freed h' →
    Unlinks h (n :: pending) (max (inner + 1) depth)
      (⟨n, taken cell.data⟩ :: (nested ++ freed)) h'

/-- Giving up one handle lowers the count, or drops the record if it is the last. -/
inductive Drops (h : Heap) (n : NodeId) : Nat → List Freed → Heap → Prop
  | lowered {cell : Cell} : h.cell? n = some cell → 1 < cell.handles →
    Drops h n 0 [] (h.write n (some { cell with handles := cell.handles - 1 }))
  | last {h' : Heap} {cell : Cell} {depth : Nat} {freed : List Freed} :
    h.cell? n = some cell → cell.handles ≤ 1 →
    Unlinks (h.write n none) cell.data.childList.reverse depth freed h' →
    Drops h n depth (⟨n, taken cell.data⟩ :: freed) h'

end Heap
end TreeIndex
