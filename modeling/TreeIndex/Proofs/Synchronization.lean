import TreeIndex.Proofs.EditLaws
import TreeIndex.Proofs.Grouping
import TreeIndex.Proofs.IndexHistory

/-!
# Keeping an index in step with its tree

The index of a tree by a field can be kept up to date by hand. A node whose kind
or fields are to change is taken out before and put back after; when a child
list changes, the nodes that the root no longer reaches are taken out and those
that it reaches anew are put in. Through any number of such steps the index
agrees with the one built from the tree as it has become.

What every step keeps is that the index lists, under each key, the nodes that
the root reaches and that have this key now.
-/
namespace TreeIndex

/-- The key of a node by a field. -/
def Store.keyBy (s : Store) (name : String) (n : NodeId) : Key := .ofOption (s.field? n name)

theorem Store.keyBy_eq_of_data {s t : Store} {n : NodeId} (h : t.data n = s.data n)
    (name : String) : t.keyBy name n = s.keyBy name n := by
  simp only [keyBy, field?, kind, fields, h]

namespace Index

open Store

/-- Takes out the nodes that the root no longer reaches and puts in those that it
reaches anew, in any order. -/
structure Updates (root : NodeId) (before after : Store) (updates : List Operation) : Prop where
  remove_mem : ∀ n, .remove n ∈ updates ↔ before.Reaches root n ∧ ¬ after.Reaches root n
  add_mem : ∀ n, .add n ∈ updates ↔ after.Reaches root n ∧ ¬ before.Reaches root n
  inert : ∀ change, .change change ∉ updates

/-- The operations of one step. -/
inductive Synchronizes (root : NodeId) (s : Store) : List Operation → Prop where
  /-- Kind and fields of a node are rewritten while it is out of the index. -/
  | rewriting {n : NodeId} {edits : List Edit} (inside : s.Reaches root n)
      (here : ∀ edit ∈ edits, edit.target = n ∧ edit.ofChildren = false) :
      Synchronizes root s [.remove n, .change (Edit.applyAll edits), .add n]
  /-- A child list is edited and the index updated for what the root reaches then. -/
  | relinking {edit : Edit} {updates : List Operation} (inside : s.Reaches root edit.target)
      (linking : edit.ofChildren = true) (acyclic : (edit.apply s).AcyclicBelow root)
      (complete : Updates root s (edit.apply s) updates) :
      Synchronizes root s (.change edit.apply :: updates)
  /-- Nodes that the root does not reach are changed or made. -/
  | elsewhere {change : Store → Store}
      (apart : ∀ n, s.Reaches root n → (change s).data n = s.data n) :
      Synchronizes root s [.change change]

/-- One step leads from the first state to the second. -/
def Synchronized (root : NodeId) (before after : Index × Store) : Prop :=
  ∃ operations, Synchronizes root before.2 operations ∧ after = Operation.run operations before

/-- The index is one by a field that stores no key twice. -/
structure IsBy (index : Index) (name : String) : Prop where
  key_eq : index.key = (KeySpec.field name).key
  distinct : index.table.DistinctKeys

variable {index : Index} {name : String} {s : Store} {k : Key} {root m n : NodeId}

namespace IsBy

theorem key_ok (h : index.IsBy name) (s : Store) (n : NodeId) :
    index.key s n = .ok (s.keyBy name n) := by
  rw [h.key_eq]
  rfl

theorem apply_add (h : index.IsBy name) : (Operation.add n).apply (index, s) =
    (⟨index.key, index.table.add (s.keyBy name n) n⟩, s) := by
  simp [Operation.apply, add_of_ok (h.key_ok s n)]

theorem apply_remove (h : index.IsBy name) : (Operation.remove n).apply (index, s) =
    (⟨index.key, index.table.remove (s.keyBy name n) n⟩, s) := by
  simp [Operation.apply, Index.remove, keyOf, h.key_ok s n, Except.map]

theorem apply (h : index.IsBy name) (operation : Operation) :
    (operation.apply (index, s)).1.IsBy name := by
  cases operation with
  | add n =>
    rw [h.apply_add]
    exact ⟨h.key_eq, h.distinct.add⟩
  | remove n =>
    rw [h.apply_remove]
    exact ⟨h.key_eq, h.distinct.remove⟩
  | change edit => exact h

theorem run (h : index.IsBy name) (operations : List Operation) :
    (Operation.run operations (index, s)).1.IsBy name := by
  induction operations generalizing index s with
  | nil => exact h
  | cons operation operations ih => exact ih (h.apply operation)

theorem mem_get_add (h : index.IsBy name) :
    m ∈ ((Operation.add n).apply (index, s)).1.get k ↔
      m ∈ index.get k ∨ m = n ∧ s.keyBy name m == k := by
  rw [h.apply_add]
  refine Table.mem_get_add.trans (or_congr_right (and_congr_right fun same => ?_))
  rw [same]

theorem mem_get_remove (h : index.IsBy name) :
    m ∈ ((Operation.remove n).apply (index, s)).1.get k ↔
      m ∈ index.get k ∧ ¬ (m = n ∧ s.keyBy name m == k) := by
  rw [h.apply_remove]
  refine (Table.mem_get_remove h.distinct).trans
    (and_congr_right fun _ => not_congr (and_congr_right fun same => ?_))
  rw [same]

/-- Additions and removals of different nodes, by induction on their list. -/
theorem mem_get_run (h : index.IsBy name) {updates : List Operation}
    (inert : ∀ change, .change change ∉ updates)
    (apart : ∀ n, .add n ∈ updates → .remove n ∉ updates) :
    m ∈ (Operation.run updates (index, s)).1.get k ↔
      m ∈ index.get k ∧ ¬ (.remove m ∈ updates ∧ s.keyBy name m == k) ∨
        .add m ∈ updates ∧ s.keyBy name m == k := by
  induction updates generalizing index with
  | nil => simp [Operation.run]
  | cons operation updates ih =>
    have later := ih (h.apply operation (s := s))
      (fun change listed => inert change (by simp [listed]))
      fun n added removed => apart n (by simp [added]) (by simp [removed])
    cases operation with
    | add n =>
      have step : Operation.run (.add n :: updates) (index, s) =
          Operation.run updates (((Operation.add n).apply (index, s)).1, s) := by
        simp [Operation.run, h.apply_add]
      have kept : .remove n ∉ updates := fun removed => apart n (by simp) (by simp [removed])
      rw [step, later, h.mem_get_add]
      simp only [List.mem_cons, Operation.add.injEq, reduceCtorEq, false_or]
      by_cases same : m = n
      · subst same
        by_cases keyed : s.keyBy name m == k <;> simp [kept, keyed]
      · simp [same]
    | remove n =>
      have step : Operation.run (.remove n :: updates) (index, s) =
          Operation.run updates (((Operation.remove n).apply (index, s)).1, s) := by
        simp [Operation.run, h.apply_remove]
      rw [step, later, h.mem_get_remove]
      simp only [List.mem_cons, Operation.remove.injEq, reduceCtorEq, false_or]
      by_cases keyed : s.keyBy name m == k <;> simp [keyed, and_assoc]
    | change change => exact absurd List.mem_cons_self (inert change)

end IsBy

/-- The index lists the nodes that the root reaches under the keys they have now. -/
structure Tracks (index : Index) (name : String) (root : NodeId) (s : Store) : Prop where
  isBy : index.IsBy name
  acyclic : s.AcyclicBelow root
  mem_get : ∀ k n, n ∈ index.get k ↔ s.Reaches root n ∧ s.keyBy name n == k

namespace Tracks

variable {other : Index}

theorem agrees (h : index.Tracks name root s) (h' : other.Tracks name root s) :
    index.Agrees other :=
  agrees_of_mem_get h.isBy.distinct h'.isBy.distinct fun k n => by
    rw [h.mem_get, h'.mem_get]

/-- The nodes are those of all occurrences, each under its key. -/
theorem exists_ofTree (name : String) (acyclic : s.AcyclicBelow root) :
    ∃ index, ofTree (.field name) (some root) .always s = .ok index ∧
      index.Tracks name root s := by
  obtain ⟨index, made, gathers, _⟩ := exists_ofTreeBy (.field name) .forward acyclic
    (fun o _ => Test.answersAt_always s o) fun o _ => ⟨_, rfl⟩
  have isBy : index.IsBy name := ⟨gathers.key_eq, gathers.distinct List.Pairwise.nil⟩
  refine ⟨index, made, isBy, acyclic, fun k n => ?_⟩
  rw [gathers.get_eq_new, List.mem_eraseDups, List.mem_filter, Check.nodes_always,
    mem_nodes_occurrences .forward acyclic.grounded]
  rfl

/-- The node rewritten may change its key, as it is out of the index meanwhile. -/
theorem rewriting (h : index.Tracks name root s) {edits : List Edit} (inside : s.Reaches root n)
    (here : ∀ edit ∈ edits, edit.target = n ∧ edit.ofChildren = false) :
    (Operation.run [.remove n, .change (Edit.applyAll edits), .add n] (index, s)).1.Tracks name
      root (Edit.applyAll edits s) := by
  have children := Edit.children_applyAll (s := s) fun edit listed => (here edit listed).2
  have reaches : ∀ m, (Edit.applyAll edits s).Reaches root m ↔ s.Reaches root m :=
    fun m => reaches_iff_of_children fun m _ => children m
  refine ⟨h.isBy.run _, h.acyclic.of_children fun m _ => children m, fun k m => ?_⟩
  have steps : Operation.run [.remove n, .change (Edit.applyAll edits), .add n] (index, s) =
      (Operation.add n).apply
        (((Operation.remove n).apply (index, s)).1, Edit.applyAll edits s) := by
    simp only [Operation.run, List.foldl, h.isBy.apply_remove]
    rfl
  rw [steps, (h.isBy.apply _).mem_get_add, h.isBy.mem_get_remove, h.mem_get, reaches]
  by_cases same : m = n
  · subst same
    simp [inside]
  · have other : ∀ edit ∈ edits, edit.target ≠ m := fun edit listed there =>
      same (there.symm.trans (here edit listed).1)
    simp [same, keyBy_eq_of_data (Edit.data_applyAll_of_ne other) name]

/-- No key changes, so the nodes taken out and put in are all that changes. -/
theorem relinking (h : index.Tracks name root s) {edit : Edit} {updates : List Operation}
    (linking : edit.ofChildren = true) (acyclic : (edit.apply s).AcyclicBelow root)
    (complete : Updates root s (edit.apply s) updates) :
    (Operation.run (.change edit.apply :: updates) (index, s)).1.Tracks name root
      (edit.apply s) := by
  have key : ∀ m, (edit.apply s).keyBy name m = s.keyBy name m :=
    fun m => congrArg Key.ofOption (Edit.field?_apply linking m name)
  have apart : ∀ m, .add m ∈ updates → .remove m ∉ updates := fun m added removed =>
    ((complete.remove_mem m).1 removed).2 ((complete.add_mem m).1 added).1
  refine ⟨h.isBy.run _, acyclic, fun k m => ?_⟩
  have steps : Operation.run (.change edit.apply :: updates) (index, s) =
      Operation.run updates (index, edit.apply s) := rfl
  rw [steps, h.isBy.mem_get_run complete.inert apart, h.mem_get, complete.remove_mem,
    complete.add_mem, key]
  by_cases old : s.Reaches root m <;> by_cases keyed : s.keyBy name m == k <;> simp [old, keyed]

theorem elsewhere (h : index.Tracks name root s) {change : Store → Store}
    (apart : ∀ n, s.Reaches root n → (change s).data n = s.data n) :
    index.Tracks name root (change s) := by
  have children : ∀ m, s.Reaches root m → (change s).children m = s.children m :=
    fun m down => congrArg NodeData.childList (apart m down)
  refine ⟨h.isBy, h.acyclic.of_children children, fun k n => ?_⟩
  rw [h.mem_get, reaches_iff_of_children children]
  exact and_congr_right fun down => by rw [keyBy_eq_of_data (apart n down)]

end Tracks

variable {before after : Index × Store}

theorem Operation.store_run_of_inert {updates : List Operation}
    (inert : ∀ change, .change change ∉ updates) (start : Index × Store) :
    (Operation.run updates start).2 = start.2 := by
  induction updates generalizing start with
  | nil => rfl
  | cons operation updates ih =>
    have rest := ih (fun change listed => inert change (by simp [listed])) (operation.apply start)
    have first : (operation.apply start).2 = start.2 := by
      rw [Operation.store_apply]
      cases operation with
      | change change => exact absurd List.mem_cons_self (inert change)
      | _ => rfl
    exact rest.trans first

/-- One step, whatever of the three it is. -/
theorem Synchronized.tracks (h : before.1.Tracks name root before.2)
    (step : Synchronized root before after) : after.1.Tracks name root after.2 := by
  obtain ⟨operations, kind, rfl⟩ := step
  cases kind with
  | @rewriting n edits inside here =>
    have store : (Operation.run [.remove n, .change (Edit.applyAll edits), .add n] before).2 =
        Edit.applyAll edits before.2 := by
      simp [Operation.run, Operation.store_apply, Operation.after]
    rw [store]
    exact h.rewriting inside here
  | @relinking edit updates inside linking acyclic complete =>
    have store : (Operation.run (.change edit.apply :: updates) before).2 = edit.apply before.2 :=
      Operation.store_run_of_inert complete.inert _
    rw [store]
    exact h.relinking linking acyclic complete
  | elsewhere apart => exact h.elsewhere apart

/-- A run of steps, by induction on its length. -/
theorem tracks_run (h : before.1.Tracks name root before.2)
    (run : Relation.ReflTransGen (Synchronized root) before after) :
    after.1.Tracks name root after.2 := by
  induction run with
  | refl => exact h
  | tail _ step ih => exact step.tracks ih

/-- After any run of steps the index of a tree by a field agrees with the one
built anew. -/
theorem agrees_of_synchronized (name : String) (acyclic : s.AcyclicBelow root) :
    ∃ built, ofTree (.field name) (some root) .always s = .ok built ∧
      ∀ index t, Relation.ReflTransGen (Synchronized root) (built, s) (index, t) →
        ∃ rebuilt, ofTree (.field name) (some root) .always t = .ok rebuilt ∧
          index.Agrees rebuilt := by
  obtain ⟨built, made, tracks⟩ := Tracks.exists_ofTree name acyclic
  refine ⟨built, made, fun index t run => ?_⟩
  have kept : index.Tracks name root t := tracks_run tracks run
  obtain ⟨rebuilt, remade, tracks'⟩ := Tracks.exists_ofTree name kept.acyclic
  exact ⟨rebuilt, remade, kept.agrees tracks'⟩

/-- The edits that make the leaf of the braid a big stone. -/
def hardening : List Edit := [.setField ⟨0⟩ "size" (.text "big"), .setKind ⟨0⟩ "stone"]

def hardened : Store := Edit.applyAll hardening braid

/-- The hardened braid without the twig; the root still reaches the leaf. -/
def unbraided : Store := (Edit.removeChild ⟨2⟩ 1).apply hardened

theorem acyclicBelow_unbraided : unbraided.AcyclicBelow ⟨2⟩ :=
  acyclicBelow_of_ascending (by decide) _

theorem updates_unbraided : Updates ⟨2⟩ hardened unbraided [.remove ⟨1⟩] := by
  have acyclic : hardened.AcyclicBelow ⟨2⟩ := acyclicBelow_of_ascending (by decide) _
  have before : (hardened.occurrences .forward ⟨2⟩).map Occurrence.node =
      [⟨2⟩, ⟨0⟩, ⟨1⟩, ⟨0⟩, ⟨0⟩] := by decide
  have after : (unbraided.occurrences .forward ⟨2⟩).map Occurrence.node =
      [⟨2⟩, ⟨0⟩, ⟨0⟩] := by decide
  have reaches := fun n => mem_nodes_occurrences (m := n) .forward acyclic.grounded
  have reaches' := fun n =>
    mem_nodes_occurrences (m := n) .forward acyclicBelow_unbraided.grounded
  rw [before] at reaches
  rw [after] at reaches'
  refine ⟨fun n => ?_, fun n => ?_, by simp⟩
  · rw [← reaches, ← reaches']
    grind
  · rw [← reaches, ← reaches']
    grind

/-- The leaf is taken out, rewritten and put back. -/
theorem exists_synchronized_hardened (index : Index) :
    ∃ index', Synchronized ⟨2⟩ (index, braid) (index', hardened) := by
  have inside : braid.Reaches ⟨2⟩ ⟨0⟩ :=
    .single (show (⟨0⟩ : NodeId) ∈ braid.children ⟨2⟩ by decide)
  have step : Synchronizes ⟨2⟩ braid [.remove ⟨0⟩, .change (Edit.applyAll hardening), .add ⟨0⟩] :=
    .rewriting inside (by decide)
  refine ⟨_, _, step, Prod.ext rfl ?_⟩
  simp [Operation.run, Operation.store_apply, Operation.after, hardened]

/-- The twig is cut off and taken out. -/
theorem exists_synchronized_unbraided (index : Index) :
    ∃ index', Synchronized ⟨2⟩ (index, hardened) (index', unbraided) := by
  have step : Synchronizes ⟨2⟩ hardened [.change (Edit.removeChild ⟨2⟩ 1).apply, .remove ⟨1⟩] :=
    .relinking .refl rfl acyclicBelow_unbraided updates_unbraided
  refine ⟨_, _, step, Prod.ext rfl ?_⟩
  simp [Operation.run, Operation.store_apply, Operation.after, unbraided]

theorem agrees_of_synchronized_braid :
    braid.AcyclicBelow ⟨2⟩ ∧
    ∃ built index rebuilt, ofTree (.field "size") (some ⟨2⟩) .always braid = .ok built ∧
      Relation.ReflTransGen (Synchronized ⟨2⟩) (built, braid) (index, unbraided) ∧
      ofTree (.field "size") (some ⟨2⟩) .always unbraided = .ok rebuilt ∧
      index.Agrees rebuilt := by
  obtain ⟨built, made, agrees⟩ := agrees_of_synchronized "size" acyclicBelow_braid
  obtain ⟨between, first⟩ := exists_synchronized_hardened built
  obtain ⟨index, second⟩ := exists_synchronized_unbraided between
  have run := (Relation.ReflTransGen.single first).tail second
  obtain ⟨rebuilt, remade, agree⟩ := agrees index unbraided run
  exact ⟨acyclicBelow_braid, built, index, rebuilt, made, run, remade, agree⟩

end Index
end TreeIndex
