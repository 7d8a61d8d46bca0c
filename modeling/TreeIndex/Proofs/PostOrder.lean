import TreeIndex.Proofs.PrunedWalk

/-!
# The reversed walk and the post-order

The post-order lists a node after all that is below it, the children from left to right.
A walk from right to left comes to a node before all that is below it, so it meets the
post-order backwards. For a visitor that always proceeds the walks in the two directions
therefore make the same calls, as often, in another order; and each starts at the root,
if that matches.
-/
namespace TreeIndex
namespace Store

variable {s : Store} {root : NodeId} {o : Occurrence}

/-- An occurrence after the ones below it, from left to right, down to a depth. -/
def postorderTo (s : Store) : Nat → Occurrence → List Occurrence
  | 0, o => [o]
  | depth + 1, o => (s.occurrencesBelow o.node).flatMap (s.postorderTo depth) ++ [o]

def postorderFrom (s : Store) (o : Occurrence) : List Occurrence := s.postorderTo s.size o

/-- The occurrences of the tree of a root in post-order. -/
def postorder (s : Store) (root : NodeId) : List Occurrence := s.postorderFrom (.alone root)

/-- By induction on the depth, at which the children are reversed on one side and what
becomes of each on the other. -/
theorem reverse_postorderTo (depth : Nat) (o : Occurrence) :
    (s.postorderTo depth o).reverse = s.occurrencesTo .reversed depth o := by
  induction depth generalizing o with
  | zero => rfl
  | succ depth ih =>
    rw [postorderTo, List.reverse_append, List.reverse_flatMap]
    exact congrArg (o :: ·) (List.flatMap_congr fun below _ => ih below)

theorem reverse_postorderFrom (o : Occurrence) :
    (s.postorderFrom o).reverse = s.occurrencesFrom .reversed o :=
  reverse_postorderTo s.size o

/-- An occurrence comes after those of its children, in turn. -/
theorem postorderFrom_eq (h : s.Grounded o.node) :
    s.postorderFrom o = (s.occurrencesBelow o.node).flatMap s.postorderFrom ++ [o] := by
  have backwards : s.occurrencesFrom .reversed = fun o => (s.postorderFrom o).reverse :=
    funext fun o => (reverse_postorderFrom o).symm
  rw [← List.reverse_inj, reverse_postorderFrom, occurrencesFrom_eq h, backwards,
    List.reverse_append, List.reverse_flatMap]
  rfl

/-- The root is first wherever it is kept. -/
theorem head?_filter_occurrences {p : Occurrence → Bool} (direction : Direction)
    (kept : p (.alone root) = true) :
    ((s.occurrences direction root).filter p).head? = some (.alone root) := by
  unfold occurrences occurrencesFrom
  cases s.size <;> simp [occurrencesTo, kept]

/-- All but the root stand at their positions, counted from the left. -/
theorem located_of_mem_occurrencesTo {direction : Direction} {depth : Nat} {start : Occurrence}
    (listed : o ∈ s.occurrencesTo direction depth start) : o = start ∨ s.Located o := by
  induction depth generalizing start with
  | zero => exact .inl (List.mem_singleton.1 listed)
  | succ depth ih =>
    refine (List.mem_cons.1 listed).imp id fun deeper => ?_
    obtain ⟨below, child, listed⟩ := List.mem_flatMap.1 deeper
    obtain rfl | located := ih listed
    · exact located_of_mem_occurrencesBelow (mem_arrange.1 child)
    · exact located

theorem located_of_mem_occurrences {direction : Direction}
    (listed : o ∈ s.occurrences direction root) : o = .alone root ∨ s.Located o :=
  located_of_mem_occurrencesTo listed

end Store

open Store Traversal

variable {τ : Type} {visitor : Visitor τ} {check : Check}
  {w : World τ} {root : NodeId}

/-- Nothing ends the walk of a visitor that proceeds where the check answers. -/
theorem Visitor.Decides.inTurn_completed (decided : visitor.Decides fun _ => .proceed)
    {met : List Occurrence}
    (answers : ∀ o ∈ met, ∃ answer, check.accepts w.store o = .ok answer) :
    (inTurn check visitor met w).1 = .completed := by
  induction met generalizing w with
  | nil => rfl
  | cons o met ih =>
    obtain ⟨⟨answer, hc⟩, later⟩ := List.forall_mem_cons.1 answers
    cases answer with
    | false =>
      rw [inTurn_refused _ hc]
      exact ih later
    | true =>
      have hv : visitor o w = (.ok .proceed, (visitor o w).2) :=
        Prod.ext (decided.answer o w) rfl
      rw [inTurn_proceeds _ hc hv]
      refine ih ?_
      rw [decided.store_eq]
      exact later

theorem Visitor.Decides.visit_completed (decided : visitor.Decides fun _ => .proceed)
    {direction : Direction} {test : Test} {steps : Nat} (acyclic : w.store.AcyclicBelow root)
    (enough : w.store.pathCount root ≤ steps)
    (answers : ∀ o ∈ w.store.occurrences direction root, test.AnswersAt w.store o) :
    (visit direction test visitor steps root w).1 = .completed := by
  rw [decided.visit_eq acyclic enough, Check.spared_of_proceeds fun _ => rfl, map_here_trails]
  exact decided.inTurn_completed fun o listed => Test.exists_accepts (answers o listed)

/-- From right to left the calls are the reversal of those in post-order from left to
right, each at the position counted from the left; they are the calls from left to right
in another order, and both start at the root if it matches. -/
theorem visitCalls_reversed (test : Test) {visitor : Visitor τ} {steps : Nat} {root : NodeId}
    {w : World τ} (decided : visitor.Decides fun _ => .proceed)
    (acyclic : w.store.AcyclicBelow root) (enough : w.store.pathCount root ≤ steps)
    (answers : ∀ o ∈ w.store.occurrences .forward root, test.AnswersAt w.store o) :
    let forth := (visitCalls .forward test visitor steps root w).map Prod.fst
    let back := (visitCalls .reversed test visitor steps root w).map Prod.fst
    (visit .forward test visitor steps root w).1 = .completed ∧
    (visit .reversed test visitor steps root w).1 = .completed ∧
    back = ((w.store.postorder root).filter (test.compile.selects w.store)).reverse ∧
    (∀ o, w.store.Reaches root o.node → w.store.postorderFrom o =
      (w.store.occurrencesBelow o.node).flatMap w.store.postorderFrom ++ [o]) ∧
    (∀ o ∈ back, o = .alone root ∨ w.store.Located o) ∧
    back.Perm forth ∧
    (test.compile.selects w.store (.alone root) = true →
      forth.head? = some (.alone root) ∧ back.head? = some (.alone root)) := by
  have answers' : ∀ o ∈ w.store.occurrences .reversed root, test.AnswersAt w.store o :=
    fun o listed => answers o ((occurrences_perm .reversed .forward root).mem_iff.1 listed)
  intro forth back
  have forward : forth = (w.store.occurrences .forward root).filter _ :=
    decided.visitCalls_eq_filter (fun _ => rfl) acyclic enough answers
  have backward : back = (w.store.occurrences .reversed root).filter _ :=
    decided.visitCalls_eq_filter (fun _ => rfl) acyclic enough answers'
  refine ⟨decided.visit_completed acyclic enough answers,
    decided.visit_completed acyclic enough answers', ?_, fun o down => ?_, fun o called => ?_,
    ?_, fun here => ⟨?_, ?_⟩⟩
  · rw [backward, ← List.filter_reverse, postorder, reverse_postorderFrom, occurrences]
  · exact postorderFrom_eq (acyclic.grounded.reaches down)
  · rw [backward] at called
    exact located_of_mem_occurrences (List.mem_filter.1 called).1
  · rw [forward, backward]
    exact (occurrences_perm .reversed .forward root).filter _
  · rw [forward]
    exact head?_filter_occurrences .forward here
  · rw [backward]
    exact head?_filter_occurrences .reversed here

theorem visitCalls_reversed_nested :
    Visitor.lister.Decides (fun _ => .proceed) ∧ nested.AcyclicBelow ⟨3⟩ ∧
    nested.pathCount ⟨3⟩ ≤ 8 ∧
    (∀ o ∈ nested.occurrences .forward ⟨3⟩, pairOrLater.AnswersAt nested o) ∧
    pairOrLater.compile.selects nested (.alone ⟨3⟩) = true ∧
    (visitCalls .reversed pairOrLater Visitor.lister 8 ⟨3⟩ ⟨nested, []⟩).map Prod.fst =
      [.alone ⟨3⟩, ⟨⟨2⟩, some 2, some ⟨3⟩⟩, ⟨⟨1⟩, some 1, some ⟨2⟩⟩, ⟨⟨2⟩, some 1, some ⟨3⟩⟩,
        ⟨⟨1⟩, some 1, some ⟨2⟩⟩] ∧
    ((visitCalls .forward pairOrLater Visitor.lister 8 ⟨3⟩ ⟨nested, []⟩).map Prod.fst).head? =
      some (.alone ⟨3⟩) := by
  have lists : Visitor.lister.Decides fun _ => .proceed := ⟨fun _ _ => rfl, fun _ _ => rfl⟩
  have enough : nested.pathCount ⟨3⟩ ≤ 8 := by decide
  have answers := fun o (_ : o ∈ nested.occurrences .forward ⟨3⟩) =>
    pairOrLater_answersAt nested o
  have rootMatches : pairOrLater.compile.selects nested (.alone ⟨3⟩) = true := by decide
  obtain ⟨-, -, backwards, -, -, -, heads⟩ :=
    visitCalls_reversed pairOrLater (w := ⟨nested, []⟩) lists acyclicBelow_nested enough answers
  refine ⟨lists, acyclicBelow_nested, enough, answers, rootMatches, ?_, (heads rootMatches).1⟩
  rw [backwards]
  decide

end TreeIndex
