import TreeIndex.Proofs.TestLaws
import TreeIndex.Proofs.WalkPositions
import Mathlib.Data.List.TakeWhile

/-!
# What a walk leaves out of the full walk

A visitor that edits nothing decides at each occurrence whether to proceed, skip or exit.
Its calls are cut from the occurrences of the tree: what stands below a matching
occurrence at which it skips is pruned, what does not match is passed over, and nothing
follows the first call at which it exits. An occurrence is pruned by what stands above
it on its own way from the root, so the same node met on another way stays.
-/
namespace TreeIndex

variable {τ : Type}

/-- An occurrence with those above it on its way from the root, the nearest first. -/
structure Trail where
  here : Occurrence
  above : List Occurrence

namespace Store

variable {s : Store} {direction : Direction} {root : NodeId} {trail : Trail}
  {prunes : Occurrence → Bool}

def trailsTo (s : Store) (direction : Direction) : Nat → List Occurrence → Occurrence → List Trail
  | 0, above, o => [⟨o, above⟩]
  | depth + 1, above, o =>
    ⟨o, above⟩ :: (direction.arrange (s.occurrencesBelow o.node)).flatMap
      (s.trailsTo direction depth (o :: above))

/-- The occurrences of the tree of a root in pre-order, with those above each. -/
def trails (s : Store) (direction : Direction) (root : NodeId) : List Trail :=
  s.trailsTo direction s.size [] (.alone root)

theorem map_here_trailsTo (depth : Nat) (above : List Occurrence) (o : Occurrence) :
    (s.trailsTo direction depth above o).map Trail.here = s.occurrencesTo direction depth o := by
  induction depth generalizing above o with
  | zero => rfl
  | succ depth ih =>
    rw [trailsTo, occurrencesTo, List.map_cons, List.map_flatMap]
    exact congrArg (o :: ·) (List.flatMap_congr fun below _ => ih (o :: above) below)

theorem map_here_trails : (s.trails direction root).map Trail.here = s.occurrences direction root :=
  map_here_trailsTo s.size [] (.alone root)

/-- The trail starts at the root and goes on to one child at a time. -/
structure LeadsTo (s : Store) (root : NodeId) (trail : Trail) : Prop where
  chain : (trail.here :: trail.above).IsChain fun o parent => o ∈ s.occurrencesBelow parent.node
  start : [.alone root] <:+ trail.here :: trail.above

theorem leadsTo_of_mem_trailsTo {depth : Nat} {above : List Occurrence} {o : Occurrence}
    (leads : s.LeadsTo root ⟨o, above⟩) (listed : trail ∈ s.trailsTo direction depth above o) :
    s.LeadsTo root trail := by
  induction depth generalizing above o with
  | zero => exact List.mem_singleton.1 listed ▸ leads
  | succ depth ih =>
    obtain rfl | deeper := List.mem_cons.1 listed
    · exact leads
    · obtain ⟨below, child, listed⟩ := List.mem_flatMap.1 deeper
      refine ih ⟨.cons_cons (mem_arrange.1 child) leads.chain, ?_⟩ listed
      exact leads.start.trans (List.suffix_cons below _)

theorem leadsTo_of_mem_trails (listed : trail ∈ s.trails direction root) : s.LeadsTo root trail :=
  leadsTo_of_mem_trailsTo ⟨.singleton _, List.suffix_refl _⟩ listed

/-- The occurrences that stand nowhere below a pruned one. -/
def spared (prunes : Occurrence → Bool) (trails : List Trail) : List Occurrence :=
  (trails.filter fun trail => !trail.above.any prunes).map Trail.here

/-- By induction on the depth: a recursion that stops at what is pruned lists what is spared. -/
theorem spared_trailsTo (depth : Nat) (above : List Occurrence) (o : Occurrence) :
    spared prunes (s.trailsTo direction depth above o) =
      if above.any prunes then [] else s.unprunedTo direction prunes depth o := by
  induction depth generalizing above o with
  | zero => cases h : above.any prunes <;> simp [spared, trailsTo, unprunedTo, h]
  | succ depth ih =>
    have later : spared prunes ((direction.arrange (s.occurrencesBelow o.node)).flatMap
          (s.trailsTo direction depth (o :: above))) =
        (direction.arrange (s.occurrencesBelow o.node)).flatMap fun below =>
          if (o :: above).any prunes then [] else s.unprunedTo direction prunes depth below := by
      rw [spared, List.filter_flatMap, List.map_flatMap]
      exact List.flatMap_congr fun below _ => ih (o :: above) below
    have first : spared prunes (s.trailsTo direction (depth + 1) above o) =
        (if above.any prunes then [] else [o]) ++
          spared prunes ((direction.arrange (s.occurrencesBelow o.node)).flatMap
            (s.trailsTo direction depth (o :: above))) := by
      cases h : above.any prunes <;> simp [spared, trailsTo, h]
    rw [first, later, unprunedTo, List.any_cons]
    cases above.any prunes <;> cases prunes o <;> simp

theorem spared_trails :
    spared prunes (s.trails direction root) = s.unpruned direction prunes (.alone root) :=
  spared_trailsTo s.size [] (.alone root)

end Store

open Store Traversal

/-- The visitor edits nothing, and its answer depends only on where it is called. -/
structure Visitor.Decides (visitor : Visitor τ) (decides : Occurrence → Action) : Prop where
  store_eq : ∀ o w, (visitor o w).2.store = w.store
  answer : ∀ o w, (visitor o w).1 = .ok (decides o)

/-- The occurrences at which what is below them is skipped. -/
def Check.prunes (check : Check) (s : Store) (decides : Occurrence → Action) (o : Occurrence) :
    Bool :=
  check.selects s o && decides o == .skip

/-- The items up to the first that has the property, which is the last of them. -/
def upToFirst {α : Type} (p : α → Bool) (items : List α) : List α :=
  items.take (items.findIdx p + 1)

theorem upToFirst_cons {α : Type} (p : α → Bool) (a : α) (items : List α) :
    upToFirst p (a :: items) = a :: if p a then [] else upToFirst p items := by
  cases h : p a <;> simp [upToFirst, List.findIdx_cons, h]

theorem upToFirst_of_never {α : Type} {p : α → Bool} {items : List α}
    (never : ∀ a ∈ items, p a = false) : upToFirst p items = items := by
  induction items with
  | nil => rfl
  | cons a items ih =>
    obtain ⟨here, later⟩ := List.forall_mem_cons.1 never
    rw [upToFirst_cons, if_neg (by simp [here]), ih later]

namespace Check

variable {check : Check} {s : Store} {decides : Occurrence → Action} {o : Occurrence}
  {met : List Occurrence} {failure : Failure}

/-- Of some occurrences in turn, those at which the check accepts, up to the first exit.
A check that gives no answer ends it. -/
def called (check : Check) (s : Store) (decides : Occurrence → Action)
    (met : List Occurrence) : List Occurrence :=
  upToFirst (decides · == .exit)
    ((met.takeWhile fun o => (check.accepts s o).isOk).filter (check.selects s))

theorem called_fails (h : check.accepts s o = .error failure) :
    check.called s decides (o :: met) = [] := by
  simp [called, h, Except.isOk, Except.toBool, upToFirst]

theorem called_refused (h : check.accepts s o = .ok false) :
    check.called s decides (o :: met) = check.called s decides met := by
  simp [called, h, Except.isOk, Except.toBool, selects_of_ok h]

theorem called_accepted (h : check.accepts s o = .ok true) :
    check.called s decides (o :: met) =
      o :: if decides o == .exit then [] else check.called s decides met := by
  simp [called, h, Except.isOk, Except.toBool, selects_of_ok h, upToFirst_cons]

theorem spared_of_proceeds (proceeds : ∀ o, decides o = .proceed) (check : Check) (s : Store)
    (trails : List Trail) : spared (check.prunes s decides) trails = trails.map Trail.here := by
  have never : ∀ above : List Occurrence, above.any (check.prunes s decides) = false :=
    fun above => List.any_eq_false.2 fun o _ => by simp [Check.prunes, proceeds o]
  rw [spared, List.filter_eq_self.2 fun trail _ => by rw [never, Bool.not_false]]

/-- Where nothing is pruned and nothing exits, the calls are the matching occurrences. -/
theorem called_of_proceeds (proceeds : ∀ o, decides o = .proceed)
    (answers : ∀ o ∈ met, ∃ answer, check.accepts s o = .ok answer) :
    check.called s decides met = met.filter (check.selects s) := by
  have answered : met.takeWhile (fun o => (check.accepts s o).isOk) = met := by
    refine List.takeWhile_eq_self_iff.2 fun o listed => ?_
    obtain ⟨answer, h⟩ := answers o listed
    rw [h]
    rfl
  rw [called, answered, upToFirst_of_never fun o _ => by simp [proceeds o]]

end Check

namespace Visitor.Decides

variable {visitor : Visitor τ} {decides : Occurrence → Action} {check : Check}
  {direction : Direction}

theorem prunes (decided : visitor.Decides decides) (check : Check) (s : Store) :
    visitor.Prunes check s (check.prunes s decides) where
  store_eq o w same := (decided.store_eq o w).trans same
  skips_iff o w _ accepted := by
    simp [decided.answer, Check.prunes, Check.selects_of_ok accepted]
  refused o refused := by simp [Check.prunes, Check.selects_of_ok refused]

theorem noting (decided : visitor.Decides decides) {α : Type} (note : Occurrence → World τ → α) :
    (visitor.noting note).Decides decides where
  store_eq _ _ := decided.store_eq _ _
  answer _ _ := decided.answer _ _

theorem of_eq {o : Occurrence} {w w₁ : World τ} {action : Action}
    (decided : visitor.Decides decides) (hv : visitor o w = (.ok action, w₁)) :
    decides o = action ∧ w₁.store = w.store := by
  have answer := decided.answer o w
  have same := decided.store_eq o w
  rw [hv] at answer same
  exact ⟨(Except.ok.inj answer).symm, same⟩

/-- By induction on the occurrences; what is noted grows by the calls made. -/
theorem inTurn_noting (decided : visitor.Decides decides) (met : List Occurrence) (w : World τ)
    (log : List (Occurrence × World τ)) :
    (inTurn check (visitor.noting Prod.mk) met (w.noted log)).2.state.1.map Prod.fst =
      log.map Prod.fst ++ check.called w.store decides met := by
  induction met generalizing w log with
  | nil => simp [inTurn, World.noted, Check.called, upToFirst]
  | cons o met ih =>
    cases meeting check visitor o w with
    | checkFails failure hc =>
      rw [inTurn_checkFails (w := w.noted log) _ hc, Check.called_fails hc]
      simp [World.noted]
    | refused hc =>
      rw [inTurn_refused (w := w.noted log) _ hc, ih, Check.called_refused hc]
    | visitFails failure w₁ hc hv =>
      have answer := decided.answer o w
      rw [hv] at answer
      cases answer
    | exits w₁ hc hv =>
      obtain ⟨action, -⟩ := decided.of_eq hv
      rw [inTurn_exits (w := w.noted log) _ hc (noting_eq Prod.mk hv log),
        Check.called_accepted hc, action]
      simp [World.noted]
    | skips w₁ hc hv =>
      obtain ⟨action, same⟩ := decided.of_eq hv
      rw [inTurn_skips (w := w.noted log) _ hc (noting_eq Prod.mk hv log), ih, same,
        Check.called_accepted hc, action]
      simp
    | proceeds w₁ hc hv =>
      obtain ⟨action, same⟩ := decided.of_eq hv
      rw [inTurn_proceeds (w := w.noted log) _ hc (noting_eq Prod.mk hv log), ih, same,
        Check.called_accepted hc, action]
      simp

variable {test : Test} {root : NodeId} {w : World τ} {steps : Nat}

/-- The walk is a loop over what is spared. -/
theorem visit_eq (decided : visitor.Decides decides) (acyclic : w.store.AcyclicBelow root)
    (enough : w.store.pathCount root ≤ steps) :
    visit direction test visitor steps root w =
      inTurn test.compile visitor
        (spared (test.compile.prunes w.store decides) (w.store.trails direction root)) w := by
  rw [visit, (decided.prunes test.compile w.store).walk_alone acyclic enough, spared_trails]

theorem visitCalls_eq (decided : visitor.Decides decides) (acyclic : w.store.AcyclicBelow root)
    (enough : w.store.pathCount root ≤ steps) :
    (visitCalls direction test visitor steps root w).map Prod.fst =
      test.compile.called w.store decides
        (spared (test.compile.prunes w.store decides) (w.store.trails direction root)) := by
  rw [visitCalls, (decided.noting Prod.mk).visit_eq (w := w.noted []) acyclic enough]
  exact decided.inTurn_noting _ w []

/-- Without pruning and exits the calls are the matching occurrences. -/
theorem visitCalls_eq_filter (decided : visitor.Decides decides)
    (proceeds : ∀ o, decides o = .proceed) (acyclic : w.store.AcyclicBelow root)
    (enough : w.store.pathCount root ≤ steps)
    (answers : ∀ o ∈ w.store.occurrences direction root, test.AnswersAt w.store o) :
    (visitCalls direction test visitor steps root w).map Prod.fst =
      (w.store.occurrences direction root).filter (test.compile.selects w.store) := by
  rw [decided.visitCalls_eq acyclic enough, Check.spared_of_proceeds proceeds, map_here_trails]
  exact Check.called_of_proceeds proceeds fun o listed => Test.exists_accepts (answers o listed)

end Visitor.Decides

/-- The calls are cut from the full walk: pruned below matching occurrences at which the
visitor skips, filtered by the test, and ended by the first call at which it exits. -/
theorem visitCalls_cut (direction : Direction) (test : Test) {visitor : Visitor τ}
    {decides : Occurrence → Action} {steps : Nat} {root : NodeId} {w : World τ}
    (decided : visitor.Decides decides) (acyclic : w.store.AcyclicBelow root)
    (enough : w.store.pathCount root ≤ steps) :
    let trails := w.store.trails direction root
    let left := spared (test.compile.prunes w.store decides) trails
    let calls := (visitCalls direction test visitor steps root w).map Prod.fst
    (∀ trail ∈ trails, w.store.LeadsTo root trail) ∧
    visit direction .always Visitor.lister steps root ⟨w.store, []⟩ =
      (.completed, ⟨w.store, trails.map Trail.here⟩) ∧
    visit direction test visitor steps root w = inTurn test.compile visitor left w ∧
    calls = test.compile.called w.store decides left ∧
    ((∀ o, decides o = .proceed) → (∀ trail ∈ trails, test.AnswersAt w.store trail.here) →
      calls = (trails.map Trail.here).filter (test.compile.selects w.store)) := by
  intro trails left calls
  have cut : calls = test.compile.called w.store decides left :=
    decided.visitCalls_eq acyclic enough
  refine ⟨fun _ => leadsTo_of_mem_trails, ?_, decided.visit_eq acyclic enough, cut, ?_⟩
  · rw [map_here_trails]
    exact visit_lister acyclic enough
  · intro proceeds answers
    rw [map_here_trails]
    refine decided.visitCalls_eq_filter proceeds acyclic enough fun o listed => ?_
    rw [← map_here_trails] at listed
    exact List.forall_mem_map.2 answers o listed

/-- Matches pairs, and of the other nodes all but first children. -/
def pairOrLater : Test := .anyOf [.kind "pair", .predicate fun _ o => .ok (o.index != some 0)]

/-- Skips at one of the places of the shared pair, and exits at any leaf. -/
def skipOnce (o : Occurrence) : Action :=
  if o.index = some 1 ∧ o.parent = some ⟨3⟩ then .skip
  else if o.node = ⟨0⟩ ∨ o.node = ⟨1⟩ then .exit else .proceed

/-- Counts the calls. -/
def skippingOnce : Visitor Nat := fun o w => (.ok (skipOnce o), ⟨w.store, w.state + 1⟩)

theorem pairOrLater_answersAt (s : Store) (o : Occurrence) : pairOrLater.AnswersAt s o := by
  intro accepts inside
  obtain rfl := List.mem_singleton.1 inside
  exact ⟨_, rfl⟩

/-- The leaf that does not match ends nothing, and the pair is gone into where it is not
skipped. A visitor that always proceeds is called at all that matches. -/
theorem visitCalls_cut_nested :
    skippingOnce.Decides skipOnce ∧ nested.AcyclicBelow ⟨3⟩ ∧ nested.pathCount ⟨3⟩ ≤ 8 ∧
    (∀ trail ∈ nested.trails .forward ⟨3⟩, pairOrLater.AnswersAt nested trail.here) ∧
    (visitCalls .forward pairOrLater skippingOnce 8 ⟨3⟩ ⟨nested, 0⟩).map Prod.fst =
      [.alone ⟨3⟩, ⟨⟨2⟩, some 1, some ⟨3⟩⟩, ⟨⟨2⟩, some 2, some ⟨3⟩⟩, ⟨⟨1⟩, some 1, some ⟨2⟩⟩] ∧
    (visitCalls .forward pairOrLater Visitor.lister 8 ⟨3⟩ ⟨nested, []⟩).map Prod.fst =
      [.alone ⟨3⟩, ⟨⟨2⟩, some 1, some ⟨3⟩⟩, ⟨⟨1⟩, some 1, some ⟨2⟩⟩, ⟨⟨2⟩, some 2, some ⟨3⟩⟩,
        ⟨⟨1⟩, some 1, some ⟨2⟩⟩] := by
  have decided : skippingOnce.Decides skipOnce := ⟨fun _ _ => rfl, fun _ _ => rfl⟩
  have lists : Visitor.lister.Decides fun _ => .proceed := ⟨fun _ _ => rfl, fun _ _ => rfl⟩
  have enough : nested.pathCount ⟨3⟩ ≤ 8 := by decide
  have answers := fun trail (_ : trail ∈ nested.trails .forward ⟨3⟩) =>
    pairOrLater_answersAt nested trail.here
  obtain ⟨-, -, -, cut, -⟩ :=
    visitCalls_cut .forward pairOrLater (w := ⟨nested, 0⟩) decided acyclicBelow_nested enough
  obtain ⟨-, -, -, -, all⟩ :=
    visitCalls_cut .forward pairOrLater (w := ⟨nested, []⟩) lists acyclicBelow_nested enough
  refine ⟨decided, acyclicBelow_nested, enough, answers, ?_, ?_⟩
  · rw [cut]
    decide
  · rw [all (fun _ => rfl) answers]
    decide

end TreeIndex
