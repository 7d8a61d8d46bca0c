import TreeIndex.Export
import TreeIndex.Structural
import TreeIndex.Proofs.Childwise
import TreeIndex.Proofs.GroundedPaths

/-!
# Export and structural equality as recursions

Both are loops over a list of what is still to be done. For grounded nodes the
loops have enough steps, and what they make of a node is made of what they make
of its children, whatever else is on the list: so each satisfies the equation
of a recursion on the tree.
-/
namespace TreeIndex

namespace Store

variable {s : Store}

theorem preorderBack_append_met (steps : Nat) (pending met : List NodeId) :
    s.preorderBack steps pending met = s.preorderBack steps pending [] ++ met := by
  induction steps generalizing pending met with
  | zero => rfl
  | succ steps ih =>
    cases pending with
    | nil => rfl
    | cons n pending =>
      rw [preorderBack, preorderBack, ih _ (n :: met), ih _ [n], List.append_assoc]
      rfl

/-- The trees below the pending nodes in pre-order, the last node first. -/
def backward (s : Store) (pending : List NodeId) : List NodeId :=
  s.preorderBack (total s.paths pending) pending []

theorem backward_cons {n : NodeId} (h : s.Grounded n) (pending : List NodeId) :
    s.backward (n :: pending) = s.backward (s.children n ++ pending) ++ [n] := by
  rw [backward, total_paths_cons h, preorderBack, preorderBack_append_met]
  rfl

theorem preorderBack_eq {steps : Nat} {pending : List NodeId}
    (grounded : ∀ n ∈ pending, s.Grounded n) (enough : total s.paths pending ≤ steps) :
    s.preorderBack steps pending [] = s.backward pending := by
  induction steps generalizing pending with
  | zero =>
    cases pending with
    | nil => rfl
    | cons n pending =>
      have := (grounded n (by simp)).paths_pos
      simp only [total] at enough
      omega
  | succ steps ih =>
    cases pending with
    | nil => rfl
    | cons n pending =>
      have here : s.Grounded n := grounded n (by simp)
      rw [total_paths_cons here] at enough
      rw [preorderBack, preorderBack_append_met,
        ih (forall_grounded_children grounded) (by omega), backward_cons here]

/-- Whatever is still pending, the node's export comes to lie on the pile. -/
def Exports (s : Store) (n : NodeId) (json : Json) : Prop :=
  ∀ pending pile, (s.backward (n :: pending)).foldl s.finish pile =
    json :: (s.backward pending).foldl s.finish pile

/-- The object of a node, given the exports of its children. -/
def nodeJson (s : Store) (n : NodeId) (exported : List Json) : Json :=
  .object (if s.isParent n then Entries.put "children" (.array exported) (s.members n)
    else s.members n)

theorem finish_append {n : NodeId} {exported : List Json} (pile : List Json)
    (all : exported.length = (s.children n).length) :
    s.finish (exported ++ pile) n = s.nodeJson n exported :: pile := by
  cases h : (s.data n).children with
  | none =>
    have : exported = [] := by simpa [children, NodeData.childList, h] using all
    simp [finish, nodeJson, isParent, h, this]
  | some listed =>
    have : exported.length = listed.length := by simpa [children, NodeData.childList, h] using all
    simp [finish, nodeJson, isParent, h, ← this]

theorem Exports.foldl_children {f : NodeId → Json} {listed : List NodeId}
    (below : ∀ child ∈ listed, s.Exports child (f child)) (pending : List NodeId)
    (pile : List Json) : (s.backward (listed ++ pending)).foldl s.finish pile =
      listed.map f ++ (s.backward pending).foldl s.finish pile := by
  induction listed with
  | nil => rfl
  | cons child listed ih =>
    rw [List.cons_append, below child (by simp), ih fun c h => below c (by simp [h])]
    rfl

theorem Grounded.exports_node {n : NodeId} (h : s.Grounded n) {f : NodeId → Json}
    (below : ∀ child ∈ s.children n, s.Exports child (f child)) :
    s.Exports n (s.nodeJson n ((s.children n).map f)) := by
  intro pending pile
  rw [backward_cons h, List.foldl_append, Exports.foldl_children below]
  exact finish_append _ (by simp)

theorem Exports.toJson_eq {n : NodeId} {json : Json} (exports : s.Exports n json)
    (h : s.Grounded n) : s.toJson n = json := by
  have enough : total s.paths [n] ≤ s.pathCount n := by simpa [total] using s.paths_le_pathCount n
  rw [toJson, preorderBack_eq (by simpa using h) enough, exports [] []]
  rfl

theorem Grounded.exports {n : NodeId} (h : s.Grounded n) : s.Exports n (s.toJson n) := by
  refine h.induction fun n h ih => ?_
  have exports := h.exports_node ih
  rwa [exports.toJson_eq h]

/-- A node is written with the exports of its children. -/
theorem toJson_eq {n : NodeId} (h : s.Grounded n) :
    s.toJson n = s.nodeJson n ((s.children n).map s.toJson) :=
  (h.exports_node fun _ below => (h.child below).exports).toJson_eq h

/-- The answer for the pairs, in as many steps as there are paths or more. -/
def Decides (s : Store) (pending : List (NodeId × NodeId)) (answer : Bool) : Prop :=
  ∀ steps, total s.paths (pending.map Prod.fst) ≤ steps → s.pairsEqual steps pending = answer

/-- Whatever else is pending, it decides together with the answer for the pair. -/
def Compares (s : Store) (a b : NodeId) (answer : Bool) : Prop :=
  ∀ pending others, s.Decides pending others → s.Decides ((a, b) :: pending) (answer && others)

theorem decides_nil : s.Decides [] true := by
  intro steps _
  cases steps <;> rfl

theorem Decides.self {pending : List (NodeId × NodeId)} {others : Bool}
    (decides : s.Decides pending others) {a : NodeId} (h : s.Grounded a) :
    s.Decides ((a, a) :: pending) others := by
  intro steps enough
  have positive := h.paths_pos
  simp only [List.map_cons, total] at enough
  obtain ⟨rest, rfl⟩ : ∃ rest, steps = rest + 1 := ⟨steps - 1, by omega⟩
  rw [pairsEqual, if_pos rfl]
  exact decides rest (by omega)

theorem childPairs_fst {a b : NodeId} {pairs : List (NodeId × NodeId)}
    (h : s.childPairs a b = some pairs) : pairs.map Prod.fst = s.children a := by
  simp only [childPairs] at h
  split at h
  · cases left : (s.data a).children with
    | none =>
      cases right : (s.data b).children <;> simp_all [children, NodeData.childList]
    | some listed =>
      cases right : (s.data b).children with
      | none => simp [left, right] at h
      | some others =>
        simp only [left, right, Option.ite_none_right_eq_some, Option.some.injEq] at h
        obtain ⟨same, rfl⟩ := h
        simp [children, NodeData.childList, left, List.map_fst_zip, same]
  · simp at h

theorem Decides.differ {a b : NodeId} (different : a ≠ b) (apart : s.childPairs a b = none)
    (h : s.Grounded a) (pending : List (NodeId × NodeId)) :
    s.Decides ((a, b) :: pending) false := by
  intro steps enough
  have positive := h.paths_pos
  simp only [List.map_cons, total] at enough
  obtain ⟨rest, rfl⟩ : ∃ rest, steps = rest + 1 := ⟨steps - 1, by omega⟩
  simp [pairsEqual, different, apart]

theorem Decides.children {a b : NodeId} {pairs pending : List (NodeId × NodeId)} {answer : Bool}
    (different : a ≠ b) (found : s.childPairs a b = some pairs) (h : s.Grounded a)
    (decides : s.Decides (pairs.reverse ++ pending) answer) :
    s.Decides ((a, b) :: pending) answer := by
  intro steps enough
  simp only [List.map_cons, total_paths_cons h] at enough
  obtain ⟨rest, rfl⟩ : ∃ rest, steps = rest + 1 := ⟨steps - 1, by omega⟩
  rw [pairsEqual, if_neg different, found]
  refine decides rest ?_
  rw [List.map_append, List.map_reverse, childPairs_fst found, total_append, total_reverse,
    ← total_append]
  omega

theorem Compares.decides_all {f : NodeId → NodeId → Bool} {pairs pending : List (NodeId × NodeId)}
    {others : Bool} (decides : s.Decides pending others)
    (below : ∀ pair ∈ pairs, s.Compares pair.1 pair.2 (f pair.1 pair.2)) :
    s.Decides (pairs ++ pending) ((pairs.all fun pair => f pair.1 pair.2) && others) := by
  induction pairs with
  | nil => simpa using decides
  | cons pair pairs ih =>
    have later := below pair (by simp) _ _ (ih fun p h => below p (by simp [h]))
    simpa [Bool.and_assoc] using later

/-- Whether two nodes are equal, given which of the children are. -/
def equalWith (s : Store) (f : NodeId → NodeId → Bool) (a b : NodeId) : Bool :=
  decide (a = b) || match s.childPairs a b with
    | some pairs => pairs.all fun pair => f pair.1 pair.2
    | none => false

theorem Grounded.compares_node {a : NodeId} (h : s.Grounded a) {f : NodeId → NodeId → Bool}
    (below : ∀ child ∈ s.children a, ∀ other, s.Compares child other (f child other))
    (b : NodeId) : s.Compares a b (s.equalWith f a b) := by
  intro pending others decides
  by_cases same : a = b
  · subst same
    simpa [equalWith] using decides.self h
  · cases found : s.childPairs a b with
    | none => simpa [equalWith, same, found] using Decides.differ same found h pending
    | some pairs =>
      have lefts : ∀ pair ∈ pairs, s.Compares pair.1 pair.2 (f pair.1 pair.2) := by
        intro pair here
        refine below pair.1 ?_ pair.2
        rw [← childPairs_fst found]
        exact List.mem_map_of_mem here
      refine Decides.children same found h ?_
      have all := Compares.decides_all decides fun pair here => lefts pair (List.mem_reverse.1 here)
      simpa [equalWith, same, found] using all

theorem Compares.deepEqual_eq {a b : NodeId} {answer : Bool} (compares : s.Compares a b answer) :
    s.deepEqual a b = answer := by
  have enough : total s.paths ([(a, b)].map Prod.fst) ≤ s.pathCount a := by
    simpa [total] using s.paths_le_pathCount a
  simpa [deepEqual] using compares [] true decides_nil _ enough

theorem Grounded.compares {a : NodeId} (h : s.Grounded a) :
    ∀ b, s.Compares a b (s.deepEqual a b) := by
  refine h.induction fun a h ih b => ?_
  have compares := h.compares_node ih b
  rwa [compares.deepEqual_eq]

theorem deepEqual_eq {a : NodeId} (h : s.Grounded a) (b : NodeId) :
    s.deepEqual a b = s.equalWith s.deepEqual a b :=
  (h.compares_node (fun _ below => (h.child below).compares) b).deepEqual_eq

/-- Children are left to compare if kinds, fields and child lists agree so far. -/
theorem exists_childPairs_iff {R : NodeId → NodeId → Prop} {a b : NodeId} :
    (∃ pairs, s.childPairs a b = some pairs ∧ ∀ pair ∈ pairs, R pair.1 pair.2) ↔
      s.kind a = s.kind b ∧ (s.fields a).sameContent (s.fields b) = true ∧
      Childwise R (s.data a).children (s.data b).children := by
  simp only [childPairs, kind, fields]
  by_cases agree : (s.data a).kind = (s.data b).kind ∧
      (s.data a).fields.sameContent (s.data b).fields = true
  · simp only [agree, beq_self_eq_true, Bool.and_self, if_true, true_and]
    cases left : (s.data a).children <;> cases right : (s.data b).children
    · simp
    · simp
    · simp
    · rename_i listed others
      by_cases long : listed.length = others.length
      · simp [long, List.forall₂_iff_zip]
      · simp [long, List.forall₂_iff_zip]
  · have apart : ((s.data a).kind == (s.data b).kind &&
        (s.data a).fields.sameContent (s.data b).fields) = false := by
      simpa using agree
    simp only [apart, Bool.false_eq_true, if_false, reduceCtorEq, false_and, exists_false,
      false_iff]
    exact fun same => agree ⟨same.1, same.2.1⟩

/-- Different nodes are equal when their kinds, their fields and their children are. -/
theorem deepEqual_iff {a b : NodeId} (h : s.Grounded a) (different : a ≠ b) :
    s.deepEqual a b = true ↔
      s.kind a = s.kind b ∧ (s.fields a).sameContent (s.fields b) = true ∧
      Childwise (fun child other => s.deepEqual child other = true)
        (s.data a).children (s.data b).children := by
  rw [← exists_childPairs_iff, deepEqual_eq h, equalWith, decide_eq_false different,
    Bool.false_or]
  cases s.childPairs a b <;> simp

end Store
end TreeIndex
