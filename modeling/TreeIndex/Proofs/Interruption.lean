import TreeIndex.Script
import TreeIndex.Proofs.Grouping
import TreeIndex.Proofs.InPlace
import TreeIndex.Proofs.WalkPositions

/-!
# Walks and constructions that are interrupted

A walk with a visitor that works in steps, whatever ends it, leaves the store and the
indexes as the completed steps of its calls make them, one call after the other. When
the index of a tree cannot be made, all that is lost is the new index.
-/
namespace TreeIndex

variable {τ : Type}

open Step

namespace Script

/-- By induction on the script. -/
theorem leadTo_completed (script : Script τ) (w : World (Session Index τ)) :
    LeadTo (script.completed w.opened) w (script.follow w.opened).2 := by
  induction script generalizing w with
  | done answer => exact ⟨w, rfl, rfl⟩
  | step first rest ih =>
    rw [completed, follow, first.take_opened]
    cases here : first.perform w with
    | error failure => exact ⟨w, rfl, rfl⟩
    | ok w₁ => exact (ih w₁.opened w₁).cons here

theorem leadTo_of_visitor {body : Occurrence → World (Session OpenIndex τ) → Script τ}
    {o : Occurrence} {w : World (Session Index τ)} {answer : Except Failure Action}
    {v : World (Session OpenIndex τ)} (call : visitor body o w.opened = (answer, v)) :
    LeadTo ((body o w.opened).completed w.opened) w v := by
  have followed := (body o w.opened).leadTo_completed w
  have left : (body o w.opened).follow w.opened = (answer, v) := call
  rwa [left] at followed

end Script

/-- By induction on the calls: each takes over what the one before it left. -/
theorem CallsLead.leadTo_completed {check : Check}
    {body : Occurrence → World (Session OpenIndex τ) → Script τ}
    {v : World (Session OpenIndex τ)} {calls : List (Occurrence × World (Session OpenIndex τ))}
    {outcome : Ending × World (Session OpenIndex τ)}
    (lead : CallsLead check (Script.visitor body) v calls outcome) :
    ∀ w : World (Session Index τ), v = w.opened →
      LeadTo (calls.flatMap fun call => (body call.1 call.2).completed call.2) w outcome.2 := by
  induction lead with
  | completed => exact fun w same => ⟨w, rfl, same⟩
  | unfinished => exact fun w same => ⟨w, rfl, same⟩
  | checkFails => exact fun w same => ⟨w, rfl, same⟩
  | visitFails call =>
    rintro w rfl
    simpa using Script.leadTo_of_visitor call
  | exits call =>
    rintro w rfl
    simpa using Script.leadTo_of_visitor call
  | goesOn call _ _ ih =>
    rintro w rfl
    obtain ⟨w₁, performed, left⟩ := Script.leadTo_of_visitor call
    exact .append performed (ih w₁ left)

theorem CallsLead.store_eq {check : Check} {visitor : Visitor τ} {w : World τ}
    {calls : List (Occurrence × World τ)} {outcome : Ending × World τ}
    (steady : visitor.Steady) (lead : CallsLead check visitor w calls outcome) :
    outcome.2.store = w.store := by
  induction lead with
  | completed => rfl
  | unfinished => rfl
  | checkFails => rfl
  | visitFails call => exact (congrArg (·.2.store) call).symm.trans (steady.store_eq _ _)
  | exits call => exact (congrArg (·.2.store) call).symm.trans (steady.store_eq _ _)
  | goesOn call _ _ ih =>
    exact ih.trans ((congrArg (·.2.store) call).symm.trans (steady.store_eq _ _))

/-- A walk looks the same in a view of its world if every call of its visitor does. -/
theorem walk_view {σ : Type} {direction : Direction} {check : Check} {visitor : Visitor τ}
    {other : Visitor σ} (view : World τ → World σ) (store : ∀ w, (view w).store = w.store)
    (call : ∀ o w, other o (view w) = ((visitor o w).1, view (visitor o w).2)) (steps : Nat)
    (pending : List Occurrence) (w : World τ) :
    walk direction check other steps pending (view w) =
      ((walk direction check visitor steps pending w).1,
        view (walk direction check visitor steps pending w).2) := by
  induction steps generalizing pending w with
  | zero => cases pending <;> simp
  | succ steps ih =>
    cases pending with
    | nil => simp
    | cons o pending =>
      have seen {answer : Except Failure Action} {w₁ : World τ} (hv : visitor o w = (answer, w₁)) :
          other o (view w) = (answer, view w₁) := by rw [call, hv]
      have accepts : check.accepts (view w).store o = check.accepts w.store o := by rw [store]
      cases meeting check visitor o w with
      | checkFails failure hc =>
        rw [walk_checkFails _ _ hc, walk_checkFails _ _ (accepts.trans hc)]
      | refused hc =>
        rw [walk_refused _ _ hc, walk_refused _ _ (accepts.trans hc), store, ih]
      | visitFails failure w₁ hc hv =>
        rw [walk_visitFails _ _ hc hv, walk_visitFails _ _ (accepts.trans hc) (seen hv)]
      | exits w₁ hc hv =>
        rw [walk_exits _ _ hc hv, walk_exits _ _ (accepts.trans hc) (seen hv)]
      | skips w₁ hc hv =>
        rw [walk_skips _ _ hc hv, walk_skips _ _ (accepts.trans hc) (seen hv), ih]
      | proceeds w₁ hc hv =>
        rw [walk_proceeds _ _ hc hv, walk_proceeds _ _ (accepts.trans hc) (seen hv), store, ih]

/-- An index on its own, seen as the last one of a session. -/
def World.beside (w : World (Session Index τ)) (u : World Index) :
    World (Session OpenIndex τ) :=
  (World.withIndex { w with store := u.store } u.state).opened

theorem perform_add_last (w : World (Session Index τ)) (index : Index) (n : NodeId) :
    perform (w.withIndex index) (.add w.state.indexes.length n) =
      (index.add w.store n).map w.withIndex := by
  have last : (w.withIndex index).state.indexes[w.state.indexes.length]? = some index := by
    simp [World.withIndex]
  have placed : (w.withIndex index).setIndex w.state.indexes.length = w.withIndex := by
    funext changed
    simp [World.withIndex, World.setIndex]
  rw [perform, replaceAt, last]
  exact congrArg (fun set => (index.add w.store n).map set) placed

/-- Collecting in a session is collecting, seen there. -/
theorem visitor_collecting (check : Check) (w : World (Session Index τ)) (o : Occurrence)
    (u : World Index) :
    Script.visitor (collecting check w.state.indexes.length) o (w.beside u) =
      ((Index.collector check o u).1, w.beside (Index.collector check o u).2) := by
  have store : (w.beside u).store = u.store := rfl
  rw [Script.visitor, collecting, Index.collector, store]
  cases check.accepts u.store o with
  | error failure => rfl
  | ok answer =>
    cases answer with
    | false => rfl
    | true =>
      have added : (Step.add w.state.indexes.length o.node).take (w.beside u) =
          allOrNothing World.opened (World.withIndex { w with store := u.store } u.state)
            ((u.state.add u.store o.node).map (World.withIndex { w with store := u.store })) :=
        (take_opened _ _).trans (congrArg _ (perform_add_last _ u.state o.node))
      simp only [Script.follow, added]
      cases u.state.add u.store o.node <;> rfl

theorem run_collecting (direction : Direction) (check : Check) (root : NodeId)
    (w : World (Session Index τ)) (u : World Index) :
    (Traversal.preOrder direction).run .always
        (Script.visitor (collecting check w.state.indexes.length)) root (w.beside u) =
      (((Traversal.preOrder direction).run .always (Index.collector check) root u).1,
        w.beside ((Traversal.preOrder direction).run .always (Index.collector check) root u).2) :=
  walk_view w.beside (fun _ => rfl) (visitor_collecting check w) _ _ _

theorem store_run_collector (direction : Direction) (check : Check) (root : NodeId)
    (u : World Index) :
    ((Traversal.preOrder direction).run .always (Index.collector check) root u).2.store =
      u.store := by
  obtain ⟨_, _, lead, _⟩ := walk_noting direction .always (Index.collector check) Prod.mk
    (u.store.pathCount root) [.alone root] u
  exact lead.store_eq (Index.collector_steady check)

/-- Making the index of a tree adds it to the session, or else changes nothing. -/
theorem construct_opened (direction : Direction) (spec : KeySpec) (tree : Option NodeId)
    (test : Test) (w : World (Session Index τ)) :
    construct direction spec tree test w.opened = allOrNothing World.opened w
      ((Index.ofTreeBy (.preOrder direction) spec tree test w.store).map w.withIndex) := by
  have begun : w.opened.withIndex (Index.new spec).opened = w.beside ⟨w.store, Index.new spec⟩ :=
    (w.opened_withIndex _).symm
  have place : w.opened.state.indexes.length = w.state.indexes.length := List.length_map _
  unfold construct Index.ofTreeBy
  simp only [begun, place]
  cases tree with
  | none => rfl
  | some root =>
    simp only [run_collecting]
    have kept := store_run_collector direction test.compile root ⟨w.store, Index.new spec⟩
    generalize (Traversal.preOrder direction).run .always (Index.collector test.compile) root
      ⟨w.store, Index.new spec⟩ = outcome at kept ⊢
    obtain ⟨ending, u⟩ := outcome
    have added : w.beside u = (w.withIndex u.state).opened := by
      rw [World.beside, kept]
    have dropped : (w.beside u).upTo w.state.indexes.length = w.opened := by
      simp [added, World.upTo, World.opened, World.withIndex]
    cases ending with
    | failed failure => exact congrArg (Prod.mk (Except.error failure)) dropped
    | completed => exact congrArg (Prod.mk (Except.ok ())) added
    | exited => exact congrArg (Prod.mk (Except.ok ())) added
    | unfinished => exact congrArg (Prod.mk (Except.ok ())) added

/-- In a run of a session the steps that fail might as well be left out: it ends like the
run of the completed ones, in which none fails, and no bucket is left empty. A walk leaves
the session as the completed steps of its calls do, whatever ends it and wherever. And
the index of a tree is added to the session, or else nothing is changed. -/
theorem nothing_halfDone (w : World (Session Index τ)) :
    (∀ steps : List (Step τ), LeadTo (completed steps w.opened) w (takeAll steps w.opened) ∧
      takeAll steps w.opened = takeAll (completed steps w.opened) w.opened ∧
      ∀ index ∈ (takeAll steps w.opened).state.indexes,
        ∀ bucket ∈ index.table, bucket.nodes ≠ []) ∧
    (∀ direction test body limit root,
      CallsLead test.compile (Script.visitor body) w.opened
        (visitCalls direction test (Script.visitor body) limit root w.opened)
        (visit direction test (Script.visitor body) limit root w.opened) ∧
      LeadTo ((visitCalls direction test (Script.visitor body) limit root w.opened).flatMap
          fun call => (body call.1 call.2).completed call.2) w
        (visit direction test (Script.visitor body) limit root w.opened).2) ∧
    ∀ direction spec tree test,
      construct direction spec tree test w.opened = allOrNothing World.opened w
        ((Index.ofTreeBy (.preOrder direction) spec tree test w.store).map w.withIndex) := by
  refine ⟨fun steps => ?_, fun direction test body limit root => ?_, ?_⟩
  · have lead := leadTo_completed steps w
    exact ⟨lead, lead.takeAll_eq.symm, lead.nodes_ne_nil⟩
  · have lead := callsLead_visitCalls direction test (Script.visitor body) limit root w.opened
    exact ⟨lead, lead.leadTo_completed w rfl⟩
  · exact fun direction spec tree test => construct_opened direction spec tree test w

end TreeIndex
