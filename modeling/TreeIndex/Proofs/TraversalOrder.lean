import TreeIndex.Proofs.Grouping

/-!
# Indexes of a tree by other ways

A way through a tree reports occurrences: it edits nothing and calls a visitor for them
in turn. The walks in pre-order, the way to the children only and one way after the
other are of this kind. What is indexed on such a way depends only on which
occurrences are reported: neither their order nor their repetition changes the keys or
the nodes under a key, but for the order of these. So the direction of the walk does
not matter.
-/
namespace TreeIndex

variable {τ : Type}

/-- Called for the occurrences in turn, the visitor lets the walk proceed and edits nothing. -/
inductive Visitor.Proceeds (visitor : Visitor τ) : List Occurrence → World τ → World τ → Prop
  | nil {w} : Proceeds visitor [] w w
  | cons {o met w w₁ w'} :
    visitor o w = (.ok .proceed, w₁) → w₁.store = w.store → Proceeds visitor met w₁ w' →
    Proceeds visitor (o :: met) w w'

/-- From the root the way calls any visitor for the occurrences in turn, as long as it
lets the walk proceed and edits nothing, and edits nothing itself. -/
def Traversal.Reports (way : Traversal) (s : Store) (root : NodeId) (met : List Occurrence) :
    Prop :=
  ∀ (τ : Type) (visitor : Visitor τ) (state : τ) (w' : World τ),
    visitor.Proceeds met ⟨s, state⟩ w' →
    way.run .always visitor root ⟨s, state⟩ = (.completed, w')

open Store Traversal

namespace Visitor.Proceeds

variable {visitor : Visitor τ} {met others : List Occurrence} {w w' : World τ}

theorem store_eq (h : visitor.Proceeds met w w') : w'.store = w.store := by
  induction h with
  | nil => rfl
  | cons _ same _ ih => exact ih.trans same

theorem split (h : visitor.Proceeds (met ++ others) w w') :
    ∃ w₁, visitor.Proceeds met w w₁ ∧ visitor.Proceeds others w₁ w' := by
  induction met generalizing w with
  | nil => exact ⟨w, .nil, h⟩
  | cons o met ih =>
    cases h with
    | cons hv same rest =>
      obtain ⟨w₁, first, second⟩ := ih rest
      exact ⟨w₁, .cons hv same first, second⟩

theorem inTurn_eq (h : visitor.Proceeds met w w') :
    inTurn .always visitor met w = (.completed, w') := by
  induction h with
  | nil => rfl
  | cons hv _ _ ih => rw [inTurn_proceeds _ rfl hv, ih]

/-- By induction on the number of steps, each of which calls the visitor once. -/
theorem walk_eq {direction : Direction} {steps : Nat} {pending : List Occurrence}
    (h : visitor.Proceeds (pending.flatMap (w.store.occurrencesFrom direction)) w w')
    (bounded : w.store.Bounded steps pending) :
    walk direction .always visitor steps pending w = (.completed, w') := by
  induction steps generalizing pending w with
  | zero =>
    cases pending with
    | nil =>
      cases h
      rfl
    | cons o pending => exact bounded.not_zero.elim
  | succ steps ih =>
    cases pending with
    | nil =>
      cases h
      rfl
    | cons o pending =>
      rw [List.flatMap_cons, occurrencesFrom_eq bounded.head, List.cons_append,
        ← List.flatMap_append] at h
      cases h with
      | @cons _ _ _ w₁ _ hv same rest =>
        have below := bounded.descend direction
        rw [walk_proceeds _ _ rfl hv, same]
        rw [← same] at rest below ⊢
        exact ih rest below

end Visitor.Proceeds

/-- A visitor that is steady proceeds wherever its turn completes. -/
theorem Visitor.Steady.proceeds {visitor : Visitor τ} (steady : visitor.Steady)
    {met : List Occurrence} {w w' : World τ}
    (completed : inTurn .always visitor met w = (.completed, w')) : visitor.Proceeds met w w' := by
  induction met generalizing w with
  | nil =>
    cases completed
    exact .nil
  | cons o met ih =>
    have all : Check.always.accepts w.store o = .ok true := rfl
    cases meeting .always visitor o w with
    | checkFails failure hc => cases hc
    | refused hc => cases hc
    | visitFails failure w₁ _ hv =>
      rw [inTurn_visitFails _ all hv] at completed
      cases completed
    | exits w₁ _ hv =>
      rw [inTurn_exits _ all hv] at completed
      cases completed
    | skips w₁ _ hv => exact absurd (congrArg Prod.fst hv) (steady.descends o w)
    | proceeds w₁ _ hv =>
      rw [inTurn_proceeds _ all hv] at completed
      have same : w₁.store = w.store := by rw [← steady.store_eq o w, hv]
      exact .cons hv same (ih completed)

namespace Traversal

variable {s : Store} {root : NodeId}

theorem reports_preOrder (direction : Direction) (acyclic : s.AcyclicBelow root) :
    (preOrder direction).Reports s root (s.occurrences direction root) := by
  intro τ visitor state w' proceeds
  have all : visitor.Proceeds ([Occurrence.alone root].flatMap (s.occurrencesFrom direction))
      ⟨s, state⟩ w' := by
    simpa [occurrences] using proceeds
  exact all.walk_eq (.alone acyclic (Nat.le_refl _))

theorem reports_childrenOnly : childrenOnly.Reports s root (s.occurrencesBelow root) :=
  fun _ _ _ _ proceeds => proceeds.inTurn_eq

theorem Reports.andThen {way other : Traversal} {met met' : List Occurrence}
    (h : way.Reports s root met) (h' : other.Reports s root met') :
    (way.andThen other).Reports s root (met ++ met') := by
  intro τ visitor state w' proceeds
  obtain ⟨⟨t, between⟩, first, second⟩ := proceeds.split
  have same : t = s := first.store_eq
  subst same
  simp only [Traversal.andThen, h τ visitor state _ first]
  exact h' τ visitor between w' second

end Traversal

namespace Index

variable {s : Store} {root : NodeId} {spec : KeySpec} {test : Test} {way other : Traversal}
  {met met' : List Occurrence}

/-- Both ways make an index of the tree, and the two agree. -/
def MadeAlike (spec : KeySpec) (test : Test) (s : Store) (root : NodeId)
    (way other : Traversal) : Prop :=
  ∃ index index', ofTreeBy way spec (some root) test s = .ok index ∧
    ofTreeBy other spec (some root) test s = .ok index' ∧ index.Agrees index'

/-- A way that reports collects what adding at its occurrences gathers. -/
theorem exists_ofTreeBy_reports (reports : way.Reports s root met)
    (answers : ∀ o ∈ met, test.AnswersAt s o)
    (keyed : ∀ o ∈ met, ∃ key, spec.key s o.node = .ok key) :
    ∃ index, ofTreeBy way spec (some root) test s = .ok index ∧
      Gathers test.compile s met (new spec) index := by
  obtain ⟨index, run, gathers⟩ :=
    exists_gathers (new spec) (fun o h => Test.exists_accepts (answers o h)) keyed
  rw [← inTurn_collector] at run
  have walked := reports _ _ _ _ ((collector_steady test.compile).proceeds run)
  exact ⟨index, by simp only [ofTreeBy, walked], gathers⟩

theorem Gathers.agrees {check : Check} {index index' : Index}
    (gathers : Gathers check s met (new spec) index)
    (gathers' : Gathers check s met' (new spec) index') (same : ∀ o, o ∈ met ↔ o ∈ met') :
    index.Agrees index' := by
  refine agrees_of_mem_get (gathers.distinct .nil) (gathers'.distinct .nil) fun k n => ?_
  rw [gathers.get_eq_new, gathers'.get_eq_new]
  simp only [List.mem_eraseDups, Check.nodes, List.mem_filter, List.mem_map, same]

theorem madeAlike_of_reports (reports : way.Reports s root met)
    (reports' : other.Reports s root met') (same : ∀ o, o ∈ met ↔ o ∈ met')
    (answers : ∀ o ∈ met, test.AnswersAt s o)
    (keyed : ∀ o ∈ met, ∃ key, spec.key s o.node = .ok key) :
    MadeAlike spec test s root way other := by
  obtain ⟨index, made, gathers⟩ := exists_ofTreeBy_reports reports answers keyed
  obtain ⟨index', made', gathers'⟩ := exists_ofTreeBy_reports reports'
    (fun o h => answers o ((same o).2 h)) fun o h => keyed o ((same o).2 h)
  exact ⟨index, index', made, made', gathers.agrees gathers' same⟩

/-- Two ways that report the same occurrences, in whatever order and however often, make
indexes that agree. The walks in pre-order in either direction are two such ways. -/
theorem madeAlike_inAnyOrder (spec : KeySpec) (test : Test) (s : Store) (root : NodeId) :
    (∀ (way other : Traversal) (met met' : List Occurrence),
      way.Reports s root met → other.Reports s root met' → (∀ o, o ∈ met ↔ o ∈ met') →
      (∀ o ∈ met, test.AnswersAt s o) → (∀ o ∈ met, ∃ key, spec.key s o.node = .ok key) →
      MadeAlike spec test s root way other) ∧
    (s.AcyclicBelow root → (∀ o ∈ s.occurrences .forward root, test.AnswersAt s o) →
      (∀ o ∈ s.occurrences .forward root, ∃ key, spec.key s o.node = .ok key) →
      MadeAlike spec test s root (preOrder .forward) (preOrder .reversed)) := by
  refine ⟨fun _ _ _ _ => madeAlike_of_reports, fun acyclic answers keyed => ?_⟩
  exact madeAlike_of_reports (reports_preOrder .forward acyclic)
    (reports_preOrder .reversed acyclic)
    (fun _ => (occurrences_perm .forward .reversed root).mem_iff) answers keyed

/-- To and fro over the braid, where every occurrence is reported twice. -/
theorem madeAlike_inAnyOrder_braid :
    let met := braid.occurrences .forward ⟨2⟩
    let back := braid.occurrences .reversed ⟨2⟩
    let toAndFro := (preOrder .reversed).andThen (preOrder .forward)
    (preOrder .forward).Reports braid ⟨2⟩ met ∧ toAndFro.Reports braid ⟨2⟩ (back ++ met) ∧
      (∀ o, o ∈ met ↔ o ∈ back ++ met) ∧ (∀ o ∈ met, notFirst.AnswersAt braid o) ∧
      (∀ o ∈ met, ∃ key, (KeySpec.field "size").key braid o.node = .ok key) ∧
      MadeAlike (.field "size") notFirst braid ⟨2⟩ (preOrder .forward) toAndFro ∧
      MadeAlike (.field "size") notFirst braid ⟨2⟩ (preOrder .forward) (preOrder .reversed) := by
  have acyclic := acyclicBelow_braid
  have forth := reports_preOrder .forward acyclic
  have toAndFro := (reports_preOrder .reversed acyclic).andThen forth
  have same : ∀ o, o ∈ braid.occurrences .forward ⟨2⟩ ↔
      o ∈ braid.occurrences .reversed ⟨2⟩ ++ braid.occurrences .forward ⟨2⟩ := by
    intro o
    rw [List.mem_append, (occurrences_perm .reversed .forward ⟨2⟩).mem_iff, or_self]
  have answers := fun o (_ : o ∈ braid.occurrences .forward ⟨2⟩) => notFirst_answersAt braid o
  have keyed : ∀ o ∈ braid.occurrences .forward ⟨2⟩,
      ∃ key, (KeySpec.field "size").key braid o.node = .ok key := fun o _ => ⟨_, rfl⟩
  obtain ⟨anyWays, directions⟩ := madeAlike_inAnyOrder (.field "size") notFirst braid ⟨2⟩
  exact ⟨forth, toAndFro, same, answers, keyed, anyWays _ _ _ _ forth toAndFro same answers keyed,
    directions acyclic answers keyed⟩

end Index
end TreeIndex
