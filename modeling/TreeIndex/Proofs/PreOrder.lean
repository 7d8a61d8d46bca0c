import TreeIndex.Proofs.GroundedPaths
import TreeIndex.Proofs.WalkStep
import Mathlib.Data.List.Perm.Basic

/-!
# The occurrences of a tree

`occurrences` lists where the nodes of a tree stand, in pre-order: a node before
what is below it, the children from left to right or from right to left. A node
is listed once for each downward path that leads to it, so the nodes listed are
those that can be reached.

A visitor that edits nothing, and skips what is below some of them, meets just those
that are not pruned so: for it the walk is a loop over their list. If it never skips,
that is the list of all.
-/
namespace TreeIndex
namespace Store

variable {s : Store} {direction : Direction} {n m : NodeId} {o : Occurrence}

/-- An occurrence and the ones below it in pre-order, down to a depth. -/
def occurrencesTo (s : Store) (direction : Direction) : Nat → Occurrence → List Occurrence
  | 0, o => [o]
  | depth + 1, o =>
    o :: (direction.arrange (s.occurrencesBelow o.node)).flatMap
      (s.occurrencesTo direction depth)

/-- An occurrence and all below it; no path without a cycle is longer than the
store is large. -/
def occurrencesFrom (s : Store) (direction : Direction) (o : Occurrence) : List Occurrence :=
  s.occurrencesTo direction s.size o

/-- As `occurrencesTo`, but without what is below the occurrences that are pruned. -/
def unprunedTo (s : Store) (direction : Direction) (prunes : Occurrence → Bool) :
    Nat → Occurrence → List Occurrence
  | 0, o => [o]
  | depth + 1, o =>
    o :: if prunes o then [] else
      (direction.arrange (s.occurrencesBelow o.node)).flatMap (s.unprunedTo direction prunes depth)

def unpruned (s : Store) (direction : Direction) (prunes : Occurrence → Bool) (o : Occurrence) :
    List Occurrence :=
  s.unprunedTo direction prunes s.size o

/-- The occurrences of the tree of a root. -/
def occurrences (s : Store) (direction : Direction) (root : NodeId) : List Occurrence :=
  s.occurrencesFrom direction (.alone root)

theorem mem_arrange {α : Type} {a : α} {items : List α} :
    a ∈ direction.arrange items ↔ a ∈ items := by
  cases direction with
  | forward => rfl
  | reversed => exact List.mem_reverse

theorem map_arrange {α β : Type} (f : α → β) (items : List α) :
    (direction.arrange items).map f = direction.arrange (items.map f) := by
  cases direction with
  | forward => rfl
  | reversed => exact List.map_reverse

theorem total_arrange {α : Type} (f : α → Nat) (items : List α) :
    total f (direction.arrange items) = total f items := by
  cases direction with
  | forward => rfl
  | reversed => exact total_reverse f items

theorem map_node_occurrencesBelow (s : Store) (n : NodeId) :
    (s.occurrencesBelow n).map Occurrence.node = s.children n := by
  refine List.ext_getElem (by simp [occurrencesBelow]) fun i _ _ => ?_
  simp [occurrencesBelow]

theorem mem_children_iff : m ∈ s.children n ↔ ∃ o ∈ s.occurrencesBelow n, o.node = m := by
  rw [← map_node_occurrencesBelow, List.mem_map]

theorem unprunedTo_never (depth : Nat) (o : Occurrence) :
    s.unprunedTo direction (fun _ => false) depth o = s.occurrencesTo direction depth o := by
  induction depth generalizing o with
  | zero => rfl
  | succ depth ih =>
    rw [unprunedTo, occurrencesTo, if_neg Bool.false_ne_true]
    exact congrArg (o :: ·) (List.flatMap_congr fun below _ => ih below)

variable {prunes : Occurrence → Bool}

/-- By induction on the depth, which bounds the number of nodes below. -/
theorem Grounded.unprunedTo_succ {depth : Nat} (h : s.Grounded o.node)
    (few : (s.spread o.node).card ≤ depth) :
    s.unprunedTo direction prunes (depth + 1) o = s.unprunedTo direction prunes depth o := by
  induction depth generalizing o with
  | zero =>
    have leaf : s.occurrencesBelow o.node = [] := by
      refine List.eq_nil_iff_forall_not_mem.2 fun below here => ?_
      have child := mem_children_iff.2 ⟨below, here, rfl⟩
      have := card_spread_lt child (h.not_reaches _ child)
      omega
    cases direction <;> simp [unprunedTo, leaf, Direction.arrange]
  | succ depth ih =>
    have same : (direction.arrange (s.occurrencesBelow o.node)).flatMap
          (s.unprunedTo direction prunes (depth + 1)) =
        (direction.arrange (s.occurrencesBelow o.node)).flatMap
          (s.unprunedTo direction prunes depth) := by
      refine List.flatMap_congr fun below here => ?_
      have child := mem_children_iff.2 ⟨below, mem_arrange.1 here, rfl⟩
      have := card_spread_lt child (h.not_reaches _ child)
      exact ih (h.child child) (by omega)
    rw [unprunedTo, same, unprunedTo]

theorem unpruned_eq (h : s.Grounded o.node) :
    s.unpruned direction prunes o =
      o :: if prunes o then [] else
        (direction.arrange (s.occurrencesBelow o.node)).flatMap (s.unpruned direction prunes) :=
  (h.unprunedTo_succ (s.card_spread_le o.node)).symm

theorem unpruned_never (o : Occurrence) :
    s.unpruned direction (fun _ => false) o = s.occurrencesFrom direction o :=
  unprunedTo_never s.size o

/-- An occurrence comes before those of its children, in turn. -/
theorem occurrencesFrom_eq (h : s.Grounded o.node) :
    s.occurrencesFrom direction o =
      o :: (direction.arrange (s.occurrencesBelow o.node)).flatMap
        (s.occurrencesFrom direction) := by
  rw [← unpruned_never, unpruned_eq h, if_neg Bool.false_ne_true]
  exact congrArg (o :: ·) (List.flatMap_congr fun below _ => unpruned_never below)

/-- Both directions meet the same occurrences, as often. -/
theorem occurrencesTo_perm (direction other : Direction) (depth : Nat) (o : Occurrence) :
    (s.occurrencesTo direction depth o).Perm (s.occurrencesTo other depth o) := by
  induction depth generalizing o with
  | zero => exact .refl _
  | succ depth ih =>
    have arranged : (direction.arrange (s.occurrencesBelow o.node)).Perm
        (other.arrange (s.occurrencesBelow o.node)) := by
      cases direction <;> cases other
      · exact .refl _
      · exact (List.reverse_perm _).symm
      · exact List.reverse_perm _
      · exact .refl _
    exact (arranged.flatMap fun below _ => ih below).cons o

theorem occurrences_perm (direction other : Direction) (root : NodeId) :
    (s.occurrences direction root).Perm (s.occurrences other root) :=
  occurrencesTo_perm direction other s.size (.alone root)

/-- The nodes of the list are those that can be reached. -/
theorem exists_mem_occurrencesFrom (h : s.Grounded n) :
    ∀ o : Occurrence, o.node = n →
      ((∃ met ∈ s.occurrencesFrom direction o, met.node = m) ↔ s.Reaches n m) := by
  refine h.induction fun n h ih o here => ?_
  subst here
  rw [occurrencesFrom_eq h, Reaches, Relation.ReflTransGen.cases_head_iff]
  simp only [List.exists_mem_cons_iff, List.mem_flatMap, mem_arrange]
  refine or_congr_right ⟨?_, ?_⟩
  · rintro ⟨met, ⟨below, inside, listed⟩, same⟩
    have child := mem_children_iff.2 ⟨below, inside, rfl⟩
    exact ⟨below.node, child, (ih _ child below rfl).1 ⟨met, listed, same⟩⟩
  · rintro ⟨child, inside, down⟩
    obtain ⟨below, listed, rfl⟩ := mem_children_iff.1 inside
    obtain ⟨met, deeper, same⟩ := (ih _ inside below rfl).2 down
    exact ⟨met, ⟨below, listed, deeper⟩, same⟩

theorem mem_nodes_occurrences (direction : Direction) (h : s.Grounded n) :
    m ∈ (s.occurrences direction n).map Occurrence.node ↔ s.Reaches n m := by
  rw [List.mem_map]
  exact exists_mem_occurrencesFrom h (.alone n) rfl

/-- Every way down from the occurrences ends, and there are no more of these than steps. -/
structure Bounded (s : Store) (steps : Nat) (pending : List Occurrence) : Prop where
  grounded : ∀ o ∈ pending, s.Grounded o.node
  enough : total s.paths (pending.map Occurrence.node) ≤ steps

namespace Bounded

variable {steps : Nat} {pending : List Occurrence}

theorem head (h : s.Bounded steps (o :: pending)) : s.Grounded o.node := h.grounded o (by simp)

theorem not_zero (h : s.Bounded 0 (o :: pending)) : False := by
  have := h.head.paths_pos
  have := h.enough
  simp only [List.map_cons, total] at this
  omega

/-- A step goes down, and leaves as many steps as there are ways. -/
theorem descend (h : s.Bounded (steps + 1) (o :: pending)) (direction : Direction) :
    s.Bounded steps (direction.arrange (s.occurrencesBelow o.node) ++ pending) := by
  obtain ⟨here, later⟩ := List.forall_mem_cons.1 h.grounded
  refine ⟨List.forall_mem_append.2 ⟨fun below inside => ?_, later⟩, ?_⟩
  · exact here.child (mem_children_iff.2 ⟨below, mem_arrange.1 inside, rfl⟩)
  · have := h.enough
    rw [List.map_cons, total_paths_cons here, total_append] at this
    rw [List.map_append, map_arrange, map_node_occurrencesBelow, total_append, total_arrange]
    omega

theorem tail (h : s.Bounded (steps + 1) (o :: pending)) : s.Bounded steps pending := by
  refine ⟨(List.forall_mem_cons.1 h.grounded).2, ?_⟩
  have := h.head.paths_pos
  have := h.enough
  simp only [List.map_cons, total] at this
  omega

theorem alone (acyclic : s.AcyclicBelow n) (enough : s.pathCount n ≤ steps) :
    s.Bounded steps [.alone n] := by
  refine ⟨by simpa [Occurrence.alone] using acyclic.grounded, ?_⟩
  simpa [total, Occurrence.alone] using (s.paths_le_pathCount n).trans enough

end Bounded
end Store

variable {τ : Type}

/-- The visitor edits nothing, and where the check accepts it asks to skip what is below
a node just at the pruned occurrences. None is pruned where the check refuses. -/
structure Visitor.Prunes (visitor : Visitor τ) (check : Check) (s : Store)
    (prunes : Occurrence → Bool) : Prop where
  store_eq : ∀ o w, w.store = s → (visitor o w).2.store = s
  skips_iff : ∀ o w, w.store = s → check.accepts s o = .ok true →
    ((visitor o w).1 = .ok .skip ↔ prunes o = true)
  refused : ∀ o, check.accepts s o = .ok false → prunes o = false

/-- The visitor edits nothing and never asks to skip what is below a node. -/
structure Visitor.Steady (visitor : Visitor τ) : Prop where
  store_eq : ∀ o w, (visitor o w).2.store = w.store
  descends : ∀ o w, (visitor o w).1 ≠ .ok .skip

theorem Visitor.Steady.prunes {visitor : Visitor τ} (steady : visitor.Steady) (check : Check)
    (s : Store) : visitor.Prunes check s fun _ => false where
  store_eq o w same := (steady.store_eq o w).trans same
  skips_iff o w _ _ := by simp [steady.descends o w]
  refused _ _ := rfl

namespace Traversal

variable {check : Check} {visitor : Visitor τ} {o : Occurrence} {w w₁ : World τ}
  {failure : Failure} (pending : List Occurrence)

theorem inTurn_checkFails (hc : check.accepts w.store o = .error failure) :
    inTurn check visitor (o :: pending) w = (.failed failure, w) := by
  simp [inTurn, hc]

theorem inTurn_refused (hc : check.accepts w.store o = .ok false) :
    inTurn check visitor (o :: pending) w = inTurn check visitor pending w := by
  simp [inTurn, hc]

theorem inTurn_visitFails (hc : check.accepts w.store o = .ok true)
    (hv : visitor o w = (.error failure, w₁)) :
    inTurn check visitor (o :: pending) w = (.failed failure, w₁) := by
  simp [inTurn, hc, hv]

theorem inTurn_exits (hc : check.accepts w.store o = .ok true)
    (hv : visitor o w = (.ok .exit, w₁)) :
    inTurn check visitor (o :: pending) w = (.exited, w₁) := by
  simp [inTurn, hc, hv]

theorem inTurn_skips (hc : check.accepts w.store o = .ok true)
    (hv : visitor o w = (.ok .skip, w₁)) :
    inTurn check visitor (o :: pending) w = inTurn check visitor pending w₁ := by
  simp [inTurn, hc, hv]

theorem inTurn_proceeds (hc : check.accepts w.store o = .ok true)
    (hv : visitor o w = (.ok .proceed, w₁)) :
    inTurn check visitor (o :: pending) w = inTurn check visitor pending w₁ := by
  simp [inTurn, hc, hv]

end Traversal

open Store Traversal

/-- By induction on the number of steps: each step of the walk is one of the loop. -/
theorem Visitor.Prunes.walk_eq_inTurn {direction : Direction} {check : Check}
    {visitor : Visitor τ} {prunes : Occurrence → Bool} {steps : Nat} {pending : List Occurrence}
    {w : World τ} (skips : visitor.Prunes check w.store prunes)
    (bounded : w.store.Bounded steps pending) :
    walk direction check visitor steps pending w =
      inTurn check visitor (pending.flatMap (w.store.unpruned direction prunes)) w := by
  induction steps generalizing pending w with
  | zero =>
    cases pending with
    | nil => rfl
    | cons o pending => exact bounded.not_zero.elim
  | succ steps ih =>
    cases pending with
    | nil => rfl
    | cons o pending =>
      obtain ⟨rest, split, descends, skipped⟩ :
          ∃ rest, (o :: pending).flatMap (w.store.unpruned direction prunes) = o :: rest ∧
            (prunes o = false → rest =
              (direction.arrange (w.store.occurrencesBelow o.node) ++ pending).flatMap
                (w.store.unpruned direction prunes)) ∧
            (prunes o = true → rest = pending.flatMap (w.store.unpruned direction prunes)) := by
        rw [List.flatMap_cons, unpruned_eq bounded.head, List.cons_append]
        refine ⟨_, rfl, fun kept => ?_, fun pruned => ?_⟩
        · rw [kept, if_neg Bool.false_ne_true, List.flatMap_append]
        · rw [if_pos pruned, List.nil_append]
      rw [split]
      cases meeting check visitor o w with
      | checkFails failure hc => rw [walk_checkFails _ _ hc, inTurn_checkFails _ hc]
      | refused hc =>
        rw [walk_refused _ _ hc, inTurn_refused _ hc, descends (skips.refused o hc)]
        exact ih skips (bounded.descend direction)
      | visitFails failure w₁ hc hv =>
        rw [walk_visitFails _ _ hc hv, inTurn_visitFails _ hc hv]
      | exits w₁ hc hv => rw [walk_exits _ _ hc hv, inTurn_exits _ hc hv]
      | skips w₁ hc hv =>
        have same : w₁.store = w.store := by rw [← skips.store_eq o w rfl, hv]
        have pruned : prunes o = true := (skips.skips_iff o w rfl hc).1 (by rw [hv])
        have later := bounded.tail
        rw [walk_skips _ _ hc hv, inTurn_skips _ hc hv, skipped pruned, ← same]
        rw [← same] at skips later
        exact ih skips later
      | proceeds w₁ hc hv =>
        have same : w₁.store = w.store := by rw [← skips.store_eq o w rfl, hv]
        have kept : prunes o = false := by simpa [hv] using (skips.skips_iff o w rfl hc).2
        have below := bounded.descend direction
        rw [walk_proceeds _ _ hc hv, inTurn_proceeds _ hc hv, descends kept, same]
        rw [← same] at skips below ⊢
        exact ih skips below

/-- From a root without cycles below, in as many steps as there are paths or more. -/
theorem Visitor.Prunes.walk_alone {direction : Direction} {check : Check} {visitor : Visitor τ}
    {prunes : Occurrence → Bool} {root : NodeId} {w : World τ} {steps : Nat}
    (skips : visitor.Prunes check w.store prunes) (acyclic : w.store.AcyclicBelow root)
    (enough : w.store.pathCount root ≤ steps) :
    walk direction check visitor steps [.alone root] w =
      inTurn check visitor (w.store.unpruned direction prunes (.alone root)) w := by
  rw [skips.walk_eq_inTurn (.alone acyclic enough), List.flatMap_singleton]

theorem Visitor.Steady.walk_alone {direction : Direction} {check : Check} {visitor : Visitor τ}
    (steady : visitor.Steady) {root : NodeId} {w : World τ} {steps : Nat}
    (acyclic : w.store.AcyclicBelow root) (enough : w.store.pathCount root ≤ steps) :
    walk direction check visitor steps [.alone root] w =
      inTurn check visitor (w.store.occurrences direction root) w := by
  rw [(steady.prunes check w.store).walk_alone acyclic enough, unpruned_never, occurrences]

theorem Visitor.Steady.run_preOrder {direction : Direction} {check : Check}
    {visitor : Visitor τ} (steady : visitor.Steady) {root : NodeId} {w : World τ}
    (acyclic : w.store.AcyclicBelow root) :
    (preOrder direction).run check visitor root w =
      inTurn check visitor (w.store.occurrences direction root) w :=
  steady.walk_alone acyclic (Nat.le_refl _)

/-- Lists the occurrences that a walk reports. -/
def Visitor.lister : Visitor (List Occurrence) := fun o w =>
  (.ok .proceed, ⟨w.store, w.state ++ [o]⟩)

theorem Visitor.lister_steady : Visitor.lister.Steady where
  store_eq _ _ := rfl
  descends _ _ := by simp [lister]

theorem inTurn_lister (met : List Occurrence) (w : World (List Occurrence)) :
    inTurn .always Visitor.lister met w = (.completed, ⟨w.store, w.state ++ met⟩) := by
  induction met generalizing w with
  | nil => simp [inTurn]
  | cons o met ih =>
    have here : Visitor.lister o w = (.ok .proceed, ⟨w.store, w.state ++ [o]⟩) := rfl
    have all : Check.always.accepts w.store o = .ok true := rfl
    rw [inTurn_proceeds met all here, ih, List.append_assoc]
    rfl

/-- The full walk reports the occurrences of the tree. -/
theorem visit_lister {direction : Direction} {s : Store} {root : NodeId} {steps : Nat}
    (acyclic : s.AcyclicBelow root) (enough : s.pathCount root ≤ steps) :
    visit direction .always Visitor.lister steps root ⟨s, []⟩ =
      (.completed, ⟨s, s.occurrences direction root⟩) := by
  rw [visit, Visitor.lister_steady.walk_alone (w := ⟨s, []⟩) acyclic enough, Test.compile,
    inTurn_lister, List.nil_append]

end TreeIndex
