import TreeIndex.Value

/-!
# The store of nodes

A node is a number into an array of records: its kind, its fields and its list
of children. A node without a child list is a leaf, which differs from a node
with an empty list. A node may be the child of several nodes or several times
of one. Edits return the changed store, after the answer where there is one.
The name `type` always stands for the kind and never for an entry; `shares`
counts the identities given to shared objects so far.
-/
namespace TreeIndex

structure NodeId where
  index : Nat
  deriving DecidableEq, Hashable, Inhabited, Repr

structure NodeData where
  kind : String
  fields : Fields Value
  children : Option (List NodeId)

namespace NodeData

def ofKind (kind : String) : NodeData := ⟨kind, .empty, none⟩

instance : Inhabited NodeData := ⟨ofKind ""⟩

/-- The children, none for a leaf. -/
def childList (data : NodeData) : List NodeId := data.children.getD []

end NodeData

structure Store where
  nodes : Array NodeData
  shares : Nat

namespace Store

def empty : Store := ⟨#[], 0⟩

instance : Inhabited Store := ⟨empty⟩

def size (s : Store) : Nat := s.nodes.size

/-- Whether the node is one of the store. -/
def Holds (s : Store) (n : NodeId) : Prop := n.index < s.size

instance (s : Store) (n : NodeId) : Decidable (s.Holds n) :=
  inferInstanceAs (Decidable (n.index < s.size))

/-- The record of a node; a number that is no node reads as a nameless leaf. -/
def data (s : Store) (n : NodeId) : NodeData := s.nodes[n.index]?.getD default

def update (s : Store) (n : NodeId) (f : NodeData → NodeData) : Store :=
  { s with nodes := s.nodes.modify n.index f }

/-- A new node with the given record. -/
def alloc (s : Store) (data : NodeData) : NodeId × Store :=
  (⟨s.nodes.size⟩, { s with nodes := s.nodes.push data })

/-- The field value of a JSON value. Its identity, if it needs one, is new. -/
def share (s : Store) (json : Json) : Value × Store :=
  (.ofJson s.shares json, { s with shares := s.shares + 1 })

/-- The field values of JSON members, one after another. -/
def shareAll (s : Store) (members : List (String × Json)) : Fields Value × Store :=
  members.foldl
    (fun state member =>
      let shared := state.2.share member.2
      (state.1.insert member.1 shared.1, shared.2))
    (.empty, s)

def kind (s : Store) (n : NodeId) : String := (s.data n).kind

def setKind (s : Store) (n : NodeId) (kind : String) : Store :=
  s.update n fun data => { data with kind := kind }

def fields (s : Store) (n : NodeId) : Fields Value := (s.data n).fields

/-- The value of a field; `type` is the kind. -/
def field? (s : Store) (n : NodeId) (name : String) : Option Value :=
  if name = "type" then some (.text (s.kind n)) else (s.fields n).get? name

def hasField (s : Store) (n : NodeId) (name : String) : Bool :=
  name == "type" || (s.fields n).contains name

/-- Writes a field and gives its value before. Only a text can be written to
`type`, where it becomes the kind; any other value changes nothing. -/
def setField (s : Store) (n : NodeId) (name : String) (value : Value) : Option Value × Store :=
  if name = "type" then
    match value with
    | .text kind => (some (.text (s.kind n)), s.setKind n kind)
    | _ => (none, s)
  else
    ((s.fields n).get? name,
      s.update n fun data => { data with fields := data.fields.insert name value })

/-- Removes an entry and gives its value; the kind is no entry. -/
def removeField (s : Store) (n : NodeId) (name : String) : Option Value × Store :=
  ((s.fields n).get? name,
    s.update n fun data => { data with fields := data.fields.erase name })

def isParent (s : Store) (n : NodeId) : Bool := (s.data n).children.isSome

def children (s : Store) (n : NodeId) : List NodeId := (s.data n).childList

def child? (s : Store) (n : NodeId) (index : Nat) : Option NodeId := (s.children n)[index]?

def childCount (s : Store) (n : NodeId) : Nat := (s.children n).length

def setChildren (s : Store) (n : NodeId) (children : Option (List NodeId)) : Store :=
  s.update n fun data => { data with children := children }

/-- Appends a child; a leaf becomes a parent. -/
def pushChild (s : Store) (n child : NodeId) : Store :=
  s.update n fun data => { data with children := some (data.childList ++ [child]) }

/-- Inserts a child before the given position, or at the end for a position
past it; a leaf becomes a parent. -/
def insertChild (s : Store) (n : NodeId) (index : Nat) (child : NodeId) : Store :=
  s.update n fun data =>
    let children := data.childList.take index ++ child :: data.childList.drop index
    { data with children := some children }

/-- Removes the child at a position; past the end, and on a leaf, nothing. -/
def removeChild (s : Store) (n : NodeId) (index : Nat) : Option NodeId × Store :=
  (s.child? n index,
    s.update n fun data => { data with children := data.children.map (·.eraseIdx index) })

def create (s : Store) (kind : String) : NodeId × Store := s.alloc (.ofKind kind)

def setFields (s : Store) (n : NodeId) (fields : List (String × Value)) : Store :=
  fields.foldl (fun s field => (s.setField n field.1 field.2).2) s

/-- A new leaf. Its fields are written one after another, so `type` among them
changes the kind. -/
def leaf (s : Store) (kind : String) (fields : List (String × Value)) : NodeId × Store :=
  let (n, s) := s.create kind
  (n, s.setFields n fields)

def parent (s : Store) (kind : String) (fields : List (String × Value))
    (children : List NodeId) : NodeId × Store :=
  let (n, s) := s.leaf kind fields
  (n, s.setChildren n (some children))

/-- Wraps a node in new parents of one child each, and gives the outermost. -/
def wrap (s : Store) (kind : String) (inner : NodeId) : Nat → NodeId × Store
  | 0 => (inner, s)
  | depth + 1 =>
    let (outer, s) := s.parent kind [] [inner]
    wrap s kind outer depth

/-- No node is its own descendant: some rank falls from each node to each of
its children. -/
def Acyclic (s : Store) : Prop :=
  ∃ rank : NodeId → Nat, ∀ n, ∀ child ∈ s.children n, rank child < rank n

@[simp] theorem size_update (s : Store) (n : NodeId) (f : NodeData → NodeData) :
    (s.update n f).size = s.size := by simp [size, update]

theorem data_update (s : Store) (n m : NodeId) (f : NodeData → NodeData) (h : s.Holds n) :
    (s.update n f).data m = if n = m then f (s.data m) else s.data m := by
  simp only [Holds, size] at h
  by_cases e : n = m
  · subst e
    simp [data, update, h, Array.getElem_modify]
  · have e' : n.index ≠ m.index := fun k => e (by cases n; cases m; simp_all)
    simp [data, update, Array.getElem?_modify, e, e']

theorem data_alloc (s : Store) (data : NodeData) (m : NodeId) :
    (s.alloc data).2.data m = if m = (s.alloc data).1 then data else s.data m := by
  obtain ⟨m⟩ := m
  by_cases e : m = s.nodes.size
  · subst e; simp [alloc, Store.data]
  · simp [alloc, Store.data, Array.getElem?_push, e]

end Store
end TreeIndex
