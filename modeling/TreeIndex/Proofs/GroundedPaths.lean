import TreeIndex.Paths
import Mathlib.Data.Finset.Card
import Mathlib.Logic.Relation

/-!
# Nodes below which every path ends

A node is grounded when every way down from it ends, which it is exactly when
no cycle can be reached from it. The nodes below a child are then fewer than
those below its parent, so no path is longer than the store is large: the paths
up to that length are one more than those of the children together, and
`pathCount` is enough steps for a loop that meets the end of each of them.
-/
namespace TreeIndex
namespace Store

variable {s : Store} {n : NodeId}

/-- Every way down from the node ends. -/
def Grounded (s : Store) (n : NodeId) : Prop :=
  Acc (fun child parent => child ∈ s.children parent) n

/-- The second node is the first or stands somewhere below it. -/
def Reaches (s : Store) : NodeId → NodeId → Prop :=
  Relation.ReflTransGen fun parent child => child ∈ s.children parent

/-- No node of the tree below a node stands below itself. -/
def AcyclicBelow (s : Store) (n : NodeId) : Prop :=
  ∀ m, s.Reaches n m → ∀ child ∈ s.children m, ¬ s.Reaches child m

theorem Grounded.child {child : NodeId} (h : s.Grounded n) (below : child ∈ s.children n) :
    s.Grounded child :=
  h.inv below

theorem Grounded.reaches {m : NodeId} (h : s.Grounded n) (below : s.Reaches n m) :
    s.Grounded m := by
  induction below with
  | refl => exact h
  | tail _ below ih => exact ih.child below

/-- What holds of a node when it holds of its children holds of all grounded nodes. -/
@[elab_as_elim] theorem Grounded.induction {P : NodeId → Prop} (h : s.Grounded n)
    (step : ∀ n, s.Grounded n → (∀ child ∈ s.children n, P child) → P n) : P n := by
  induction h with
  | intro n below ih => exact step n (Acc.intro n below) ih

theorem Acyclic.grounded (h : s.Acyclic) (n : NodeId) : s.Grounded n := by
  obtain ⟨rank, falls⟩ := h
  exact Subrelation.accessible (fun below => falls _ _ below) (InvImage.accessible rank
    (Nat.lt_wfRel.wf.apply (rank n)))

/-- A node stands nowhere below its own children. -/
theorem Grounded.not_reaches (h : s.Grounded n) :
    ∀ child ∈ s.children n, ¬ s.Reaches child n := by
  refine h.induction fun n _ ih child below back => ?_
  obtain same | ⟨grandchild, down, rest⟩ := back.cases_head
  · subst same
    exact ih child below child below .refl
  · exact ih child below grandchild down (rest.tail below)

theorem data_of_not_holds (h : ¬ s.Holds n) : s.data n = default := by
  have out : s.nodes[n.index]? = none := by simpa [Holds, size] using h
  simp [data, out]

theorem children_eq_nil (h : ¬ s.Holds n) : s.children n = [] := by
  rw [children, data_of_not_holds h]
  rfl

theorem holds_of_mem_children {child : NodeId} (below : child ∈ s.children n) : s.Holds n := by
  by_contra out
  simp [children_eq_nil out] at below

/-- The indexes of the nodes below a node, itself among them. -/
noncomputable def spread (s : Store) (n : NodeId) : Finset Nat := by
  classical exact (Finset.range s.size).filter fun index => s.Reaches n ⟨index⟩

theorem mem_spread {index : Nat} :
    index ∈ s.spread n ↔ index < s.size ∧ s.Reaches n ⟨index⟩ := by
  simp [spread]

/-- A store in which every node comes after its children has no cycles. -/
theorem acyclic_of_ascending
    (ascending : ∀ index < s.size, ∀ child ∈ s.children ⟨index⟩, child.index < index) :
    s.Acyclic :=
  ⟨NodeId.index, fun m child below => ascending m.index (holds_of_mem_children below) child below⟩

theorem acyclicBelow_of_ascending
    (ascending : ∀ index < s.size, ∀ child ∈ s.children ⟨index⟩, child.index < index)
    (n : NodeId) : s.AcyclicBelow n :=
  fun _ down => (((acyclic_of_ascending ascending).grounded n).reaches down).not_reaches

theorem card_spread_le (s : Store) (n : NodeId) : (s.spread n).card ≤ s.size := by
  have := Finset.card_le_card fun index (h : index ∈ s.spread n) =>
    Finset.mem_range.2 (mem_spread.1 h).1
  simpa using this

theorem card_spread_lt {child : NodeId} (below : child ∈ s.children n)
    (apart : ¬ s.Reaches child n) : (s.spread child).card < (s.spread n).card := by
  have held : s.Holds n := holds_of_mem_children below
  refine Finset.card_lt_card (Finset.ssubset_iff_of_subset ?_ |>.2 ⟨n.index, ?_, ?_⟩)
  · intro index k
    have reached := mem_spread.1 k
    exact mem_spread.2 ⟨reached.1, .head below reached.2⟩
  · exact mem_spread.2 ⟨held, .refl⟩
  · exact fun k => apart (mem_spread.1 k).2

theorem AcyclicBelow.grounded (h : s.AcyclicBelow n) : s.Grounded n := by
  -- the nodes below become fewer with every step down
  induction count : (s.spread n).card using Nat.strongRecOn generalizing n with
  | ind count ih =>
    subst count
    refine Acc.intro n fun child below => ?_
    have fewer := card_spread_lt below (h n .refl child below)
    exact ih _ fewer (fun m down => h m (.head below down)) rfl

theorem grounded_iff_acyclicBelow : s.Grounded n ↔ s.AcyclicBelow n :=
  ⟨fun h _ down => (h.reaches down).not_reaches, AcyclicBelow.grounded⟩

theorem total_congr {α : Type} {f g : α → Nat} {items : List α}
    (h : ∀ a ∈ items, f a = g a) : total f items = total g items :=
  Nat.le_antisymm (total_le items fun a k => (h a k).le) (total_le items fun a k => (h a k).ge)

theorem total_append {α : Type} (f : α → Nat) (items others : List α) :
    total f (items ++ others) = total f items + total f others := by
  induction items with
  | nil => simp [total]
  | cons a items ih => simp [total, ih, Nat.add_assoc]

theorem total_reverse {α : Type} (f : α → Nat) (items : List α) :
    total f items.reverse = total f items := by
  induction items with
  | nil => rfl
  | cons a items ih => simp [total_append, total, ih, Nat.add_comm]

/-- By induction on the length, which bounds the nodes below. -/
theorem Grounded.pathsTo_succ {length : Nat} (h : s.Grounded n)
    (few : (s.spread n).card ≤ length) : s.pathsTo (length + 1) n = s.pathsTo length n := by
  induction length generalizing n with
  | zero =>
    have none : s.children n = [] := by
      refine List.eq_nil_iff_forall_not_mem.2 fun child below => ?_
      have := card_spread_lt below (h.not_reaches child below)
      omega
    simp [pathsTo, none, total]
  | succ length ih =>
    have same : total (s.pathsTo (length + 1)) (s.children n) =
        total (s.pathsTo length) (s.children n) := by
      refine total_congr fun child below => ih (h.child below) ?_
      have := card_spread_lt below (h.not_reaches child below)
      omega
    rw [pathsTo, same, pathsTo]

/-- The number of downward paths from a grounded node. -/
def paths (s : Store) (n : NodeId) : Nat := s.pathsTo s.size n

theorem Grounded.paths_eq (h : s.Grounded n) :
    s.paths n = total s.paths (s.children n) + 1 :=
  (h.pathsTo_succ (s.card_spread_le n)).symm

theorem Grounded.paths_pos (h : s.Grounded n) : 0 < s.paths n := by
  rw [h.paths_eq]
  exact Nat.succ_pos _

theorem total_paths_cons (h : s.Grounded n) (pending : List NodeId) :
    total s.paths (n :: pending) = total s.paths (s.children n ++ pending) + 1 := by
  rw [total, h.paths_eq, total_append]
  omega

theorem forall_grounded_children {pending : List NodeId}
    (grounded : ∀ m ∈ n :: pending, s.Grounded m) :
    ∀ m ∈ s.children n ++ pending, s.Grounded m := by
  intro m listed
  obtain below | waits := List.mem_append.1 listed
  · exact (grounded n List.mem_cons_self).child below
  · exact grounded m (List.mem_cons_of_mem n waits)

/-- Induction on what is pending, where a node is replaced by its children. -/
@[elab_as_elim] theorem pending_induction
    {P : (pending : List NodeId) → (∀ n ∈ pending, s.Grounded n) → Prop} (nil : P [] nofun)
    (cons : ∀ n pending grounded, P (s.children n ++ pending) (forall_grounded_children grounded) →
      P (n :: pending) grounded)
    (pending : List NodeId) (grounded : ∀ n ∈ pending, s.Grounded n) : P pending grounded := by
  induction steps : total s.paths pending using Nat.strongRecOn generalizing pending with
  | ind steps ih =>
    cases pending with
    | nil => exact nil
    | cons n pending =>
      have fewer := total_paths_cons (grounded n List.mem_cons_self) pending
      exact cons n pending grounded (ih _ (by omega) _ _ rfl)

theorem paths_le_pathCount (s : Store) (n : NodeId) : s.paths n ≤ s.pathCount n :=
  s.pathsTo_le_pathCount n

end Store
end TreeIndex
