import TreeIndex.Proofs.DownwardPaths
import TreeIndex.Proofs.WalkPositions

/-!
# Walks end

A step of a walk takes one pending occurrence and checks it. As long as child lists stay
as they are, the downward paths from what is pending become fewer with every step. A
visitor that edits child lists can make them more again, many times over where trees are
shared; but if it does so in a limited number of calls, the walk ends: by induction on
the calls left in which it may, and between two of them on the number of paths.

If it edits none and always proceeds, each path is taken once.
-/
namespace TreeIndex
namespace Store

variable {s t : Store} {n : NodeId}

/-- All children are nodes of the store, and there is no cycle. -/
structure WellLinked (s : Store) : Prop where
  closed : ∀ n, ∀ child ∈ s.children n, s.Holds child
  acyclic : s.Acyclic

/-- No node is given up, and none has other children than before; new nodes may have any. -/
structure KeepsLinks (s t : Store) : Prop where
  grown : s.size ≤ t.size
  children_eq : ∀ n, s.Holds n → t.children n = s.children n

theorem wellLinked_of_ascending
    (ascending : ∀ index < s.size, ∀ child ∈ s.children ⟨index⟩, child.index < index) :
    s.WellLinked where
  closed n child below := by
    have held : s.Holds n := holds_of_mem_children below
    exact (ascending n.index held child below).trans held
  acyclic := acyclic_of_ascending ascending

/-- Child lists may be made anew from the children that were there. -/
theorem WellLinked.of_subset (linked : s.WellLinked) (grown : s.size ≤ t.size)
    (fewer : ∀ n, ∀ child ∈ t.children n, child ∈ s.children n) : t.WellLinked := by
  obtain ⟨rank, falls⟩ := linked.acyclic
  refine ⟨fun n child below => ?_, rank, fun n child below => falls n child (fewer n child below)⟩
  exact (linked.closed n child (fewer n child below)).trans_le grown

theorem keepsLinks_iff : s.KeepsLinks t ↔
    s.size ≤ t.size ∧ ∀ index < s.size, t.children ⟨index⟩ = s.children ⟨index⟩ :=
  ⟨fun kept => ⟨kept.grown, fun index held => kept.children_eq ⟨index⟩ held⟩,
    fun ⟨grown, same⟩ => ⟨grown, fun n held => same n.index held⟩⟩

instance : Decidable (s.KeepsLinks t) := decidable_of_iff _ keepsLinks_iff.symm

theorem KeepsLinks.refl (s : Store) : s.KeepsLinks s := ⟨Nat.le_refl _, fun _ _ => rfl⟩

theorem KeepsLinks.trans {u : Store} (first : s.KeepsLinks t) (second : t.KeepsLinks u) :
    s.KeepsLinks u where
  grown := first.grown.trans second.grown
  children_eq n held :=
    (second.children_eq n (held.trans_le first.grown)).trans (first.children_eq n held)

/-- Edits of kinds and fields keep them. -/
theorem keepsLinks_applyAll {edits : List Edit} (h : ∀ edit ∈ edits, edit.ofChildren = false) :
    s.KeepsLinks (Edit.applyAll edits s) := by
  induction edits generalizing s with
  | nil => exact .refl s
  | cons edit edits ih =>
    obtain ⟨here, later⟩ := List.forall_mem_cons.1 h
    have first : s.KeepsLinks (edit.apply s) := by
      refine ⟨?_, fun n _ => Edit.children_apply here n⟩
      obtain ⟨f, update, _⟩ := edit.apply_eq_update s
      rw [update, size_update]
    exact first.trans (ih later)

/-- As many ways lead down from a node as before. -/
theorem KeepsLinks.paths_eq (kept : s.KeepsLinks t) (linked : s.WellLinked)
    (linked' : t.WellLinked) (held : s.Holds n) : t.paths n = s.paths n := by
  refine (linked.acyclic.grounded n).induction (P := fun n => s.Holds n → t.paths n = s.paths n)
    (fun n h ih held => ?_) held
  rw [h.paths_eq, (linked'.acyclic.grounded n).paths_eq, kept.children_eq n held]
  have below : total t.paths (s.children n) = total s.paths (s.children n) :=
    total_congr fun child inside => ih child inside (linked.closed n child inside)
  rw [below]

theorem occurrencesBelow_congr (same : t.children n = s.children n) :
    t.occurrencesBelow n = s.occurrencesBelow n := by
  rw [occurrencesBelow, occurrencesBelow, same]

end Store

variable {τ : Type} {direction : Direction} {check : Check} {visitor : Visitor τ}
  {o : Occurrence} {pending next : List Occurrence} {w w₁ : World τ}

/-- A step that does not end the walk: it takes the first of the pending occurrences,
checks it, and leads to those that are pending next. -/
inductive Takes (direction : Direction) (check : Check) (visitor : Visitor τ) (o : Occurrence)
    (pending : List Occurrence) (w : World τ) : List Occurrence → World τ → Prop
  | refused : check.accepts w.store o = .ok false →
    Takes direction check visitor o pending w
      (direction.arrange (w.store.occurrencesBelow o.node) ++ pending) w
  | skips {w₁ : World τ} : check.accepts w.store o = .ok true → visitor o w = (.ok .skip, w₁) →
    Takes direction check visitor o pending w pending w₁
  | proceeds {w₁ : World τ} : check.accepts w.store o = .ok true →
    visitor o w = (.ok .proceed, w₁) →
    Takes direction check visitor o pending w
      (direction.arrange (w₁.store.occurrencesBelow o.node) ++ pending) w₁

theorem Takes.walk_eq (takes : Takes direction check visitor o pending w next w₁) (steps : Nat) :
    walk direction check visitor (steps + 1) (o :: pending) w =
      walk direction check visitor steps next w₁ := by
  cases takes with
  | refused hc => exact walk_refused _ _ hc
  | skips hc hv => exact walk_skips _ _ hc hv
  | proceeds hc hv => exact walk_proceeds _ _ hc hv

theorem ends_or_takes (direction : Direction) (check : Check) (visitor : Visitor τ)
    (o : Occurrence) (pending : List Occurrence) (w : World τ) :
    (walk direction check visitor 1 (o :: pending) w).1 ≠ .unfinished ∨
      ∃ next w₁, Takes direction check visitor o pending w next w₁ := by
  cases meeting check visitor o w with
  | checkFails failure hc => exact .inl (by simp [walk_checkFails _ _ hc])
  | refused hc => exact .inr ⟨_, _, .refused hc⟩
  | visitFails failure w₁ hc hv => exact .inl (by simp [walk_visitFails _ _ hc hv])
  | exits w₁ hc hv => exact .inl (by simp [walk_exits _ _ hc hv])
  | skips w₁ hc hv => exact .inr ⟨_, _, .skips hc hv⟩
  | proceeds w₁ hc hv => exact .inr ⟨_, _, .proceeds hc hv⟩

/-- The children of the node may have come in its place. -/
theorem Takes.next_eq (takes : Takes direction check visitor o pending w next w₁) :
    next = pending ∨
      next = direction.arrange (w₁.store.occurrencesBelow o.node) ++ pending := by
  cases takes with
  | refused => exact .inr rfl
  | skips => exact .inl rfl
  | proceeds => exact .inr rfl

/-- The visitor is not called, or called once before the calls still to come. -/
theorem Takes.unchanged_or_called (takes : Takes direction check visitor o pending w next w₁) :
    (w₁ = w ∧ ∀ calls, CallsMade direction check visitor next w₁ calls →
      CallsMade direction check visitor (o :: pending) w calls) ∨
    (w₁ = (visitor o w).2 ∧ ∀ calls, CallsMade direction check visitor next w₁ calls →
      CallsMade direction check visitor (o :: pending) w ((o, w) :: calls)) := by
  cases takes with
  | refused hc => exact .inl ⟨rfl, fun _ => .refused hc⟩
  | skips hc hv => exact .inr ⟨by rw [hv], fun _ => .skips hc hv⟩
  | proceeds hc hv => exact .inr ⟨by rw [hv], fun _ => .proceeds hc hv⟩

/-- What is true of all calls is true of those still to come. -/
theorem Takes.forall_calls {P : Occurrence × World τ → Prop}
    (takes : Takes direction check visitor o pending w next w₁)
    (all : ∀ calls, CallsMade direction check visitor (o :: pending) w calls →
      ∀ call ∈ calls, P call) :
    ∀ calls, CallsMade direction check visitor next w₁ calls → ∀ call ∈ calls, P call := by
  intro calls made
  obtain ⟨_, earlier⟩ | ⟨_, earlier⟩ := takes.unchanged_or_called
  · exact all calls (earlier calls made)
  · exact (List.forall_mem_cons.1 (all _ (earlier calls made))).2

/-- Called so, the visitor gives up no node and leaves neither cycle nor dangling child. -/
structure Visitor.Orderly (visitor : Visitor τ) (o : Occurrence) (w : World τ) : Prop where
  grown : w.store.size ≤ (visitor o w).2.store.size
  linked : (visitor o w).2.store.WellLinked

/-- Called so, the visitor edits a child list. -/
def Visitor.Relinks (visitor : Visitor τ) (o : Occurrence) (w : World τ) : Prop :=
  ¬ w.store.KeepsLinks (visitor o w).2.store

instance : Decidable (visitor.Relinks o w) := inferInstanceAs (Decidable (¬ _))

/-- The calls are orderly, and no more of them than told edit a child list. -/
structure Visitor.WithinBudget (visitor : Visitor τ) (budget : Nat)
    (calls : List (Occurrence × World τ)) : Prop where
  orderly : ∀ call ∈ calls, visitor.Orderly call.1 call.2
  few : calls.countP (fun call => visitor.Relinks call.1 call.2) ≤ budget

variable {budget more : Nat} {calls : List (Occurrence × World τ)}

namespace Visitor.WithinBudget

theorem mono (within : visitor.WithinBudget budget calls) (le : budget ≤ more) :
    visitor.WithinBudget more calls :=
  ⟨within.orderly, within.few.trans le⟩

theorem cons (within : visitor.WithinBudget budget calls) (orderly : visitor.Orderly o w) :
    visitor.WithinBudget (budget + 1) ((o, w) :: calls) := by
  refine ⟨List.forall_mem_cons.2 ⟨orderly, within.orderly⟩, ?_⟩
  have few := within.few
  rw [List.countP_cons]
  split <;> omega

theorem cons_of_keeps (within : visitor.WithinBudget budget calls)
    (orderly : visitor.Orderly o w) (keeps : ¬ visitor.Relinks o w) :
    visitor.WithinBudget budget ((o, w) :: calls) :=
  ⟨List.forall_mem_cons.2 ⟨orderly, within.orderly⟩, by simpa [keeps] using within.few⟩

theorem tail (within : visitor.WithinBudget budget ((o, w) :: calls)) :
    visitor.WithinBudget budget calls := by
  refine ⟨(List.forall_mem_cons.1 within.orderly).2, ?_⟩
  have few := within.few
  rw [List.countP_cons] at few
  omega

theorem tail_of_relinks (within : visitor.WithinBudget (budget + 1) ((o, w) :: calls))
    (relinks : visitor.Relinks o w) : visitor.WithinBudget budget calls :=
  ⟨within.tail.orderly, by simpa [relinks] using within.few⟩

theorem not_zero (relinks : visitor.Relinks o w) :
    ¬ visitor.WithinBudget 0 ((o, w) :: calls) := fun within => by
  simpa [relinks] using within.few

end Visitor.WithinBudget

/-- Every call that edits a child list costs some of what the visitor has. -/
structure Visitor.Spends (visitor : Visitor τ) (has : World τ → Nat) : Prop where
  orderly : ∀ o w, w.store.WellLinked → visitor.Orderly o w
  keeps : ∀ o w, has (visitor o w).2 ≤ has w
  spends : ∀ o w, visitor.Relinks o w → has (visitor o w).2 < has w

theorem Visitor.Spends.call {has : World τ → Nat} (spends : visitor.Spends has)
    (linked : w.store.WellLinked) (later : (visitor o w).2.store.WellLinked →
      visitor.WithinBudget (has (visitor o w).2) calls) :
    visitor.WithinBudget (has w) ((o, w) :: calls) := by
  have orderly := spends.orderly o w linked
  have within := later orderly.linked
  by_cases relinks : visitor.Relinks o w
  · exact (within.cons orderly).mono (spends.spends o w relinks)
  · exact (within.cons_of_keeps orderly relinks).mono (spends.keeps o w)

/-- Then it cannot go on for long. -/
theorem Visitor.Spends.withinBudget {has : World τ → Nat} (spends : visitor.Spends has)
    (linked : w.store.WellLinked) (made : CallsMade direction check visitor pending w calls) :
    visitor.WithinBudget (has w) calls := by
  have stopped (w : World τ) : visitor.WithinBudget (has w) [] := ⟨by simp, by simp⟩
  induction made with
  | stopped => exact stopped _
  | refused _ _ ih => exact ih linked
  | last _ => exact spends.call linked fun _ => stopped _
  | skips _ hv _ ih => exact spends.call linked (by rwa [hv])
  | proceeds _ hv _ ih => exact spends.call linked (by rwa [hv])

/-- Pending are nodes of a store without cycles. -/
structure World.Ready (w : World τ) (pending : List Occurrence) : Prop where
  linked : w.store.WellLinked
  held : ∀ o ∈ pending, w.store.Holds o.node

/-- The number of downward paths from what is pending. -/
def World.ways (w : World τ) (pending : List Occurrence) : Nat :=
  Store.total w.store.paths (pending.map Occurrence.node)

open Store

/-- A step edits nothing or is paid from the budget. -/
theorem Takes.withinBudget (takes : Takes direction check visitor o pending w next w₁)
    (linked : w.store.WellLinked)
    (within : ∀ calls, CallsMade direction check visitor (o :: pending) w calls →
      visitor.WithinBudget budget calls) :
    w.store.size ≤ w₁.store.size ∧ w₁.store.WellLinked ∧
      ∃ left, (left < budget ∨ left = budget ∧ w.store.KeepsLinks w₁.store) ∧
        ∀ calls, CallsMade direction check visitor next w₁ calls →
          visitor.WithinBudget left calls := by
  obtain ⟨rfl, earlier⟩ | ⟨rfl, earlier⟩ := takes.unchanged_or_called
  · exact ⟨Nat.le_refl _, linked, budget, .inr ⟨rfl, .refl _⟩,
      fun calls made => within calls (earlier calls made)⟩
  · have first := within _ (earlier [] .stopped)
    have orderly : visitor.Orderly o w := first.orderly (o, w) List.mem_cons_self
    refine ⟨orderly.grown, orderly.linked, ?_⟩
    by_cases relinks : visitor.Relinks o w
    · cases budget with
      | zero => exact absurd first (Visitor.WithinBudget.not_zero relinks)
      | succ left =>
        exact ⟨left, .inl (Nat.lt_succ_self left),
          fun calls made => (within _ (earlier calls made)).tail_of_relinks relinks⟩
    · exact ⟨budget, .inr ⟨rfl, not_not.1 relinks⟩,
        fun calls made => (within _ (earlier calls made)).tail⟩

theorem World.Ready.takes (ready : w.Ready (o :: pending)) (grown : w.store.size ≤ w₁.store.size)
    (linked : w₁.store.WellLinked) (takes : Takes direction check visitor o pending w next w₁) :
    w₁.Ready next := by
  have waiting : ∀ later ∈ pending, w₁.store.Holds later.node := fun later listed =>
    (ready.held later (List.mem_cons_of_mem o listed)).trans_le grown
  refine ⟨linked, ?_⟩
  obtain rfl | rfl := takes.next_eq
  · exact waiting
  · refine List.forall_mem_append.2 ⟨fun below listed => ?_, waiting⟩
    exact linked.closed o.node _ (mem_children_iff.2 ⟨below, mem_arrange.1 listed, rfl⟩)

/-- Without an edit fewer paths are left. -/
theorem World.Ready.ways_lt (ready : w.Ready (o :: pending)) (linked : w₁.store.WellLinked)
    (kept : w.store.KeepsLinks w₁.store)
    (takes : Takes direction check visitor o pending w next w₁) :
    w₁.ways next < w.ways (o :: pending) := by
  have before : w.ways (o :: pending) =
      total w₁.store.paths (w₁.store.children o.node ++ pending.map Occurrence.node) + 1 := by
    rw [← total_paths_cons (linked.acyclic.grounded o.node), ways, ← List.map_cons]
    refine total_congr fun n listed => ?_
    obtain ⟨later, here, rfl⟩ := List.mem_map.1 listed
    exact (kept.paths_eq ready.linked linked (ready.held later here)).symm
  rw [before, total_append]
  obtain rfl | rfl := takes.next_eq
  · unfold ways
    omega
  · rw [ways, List.map_append, map_arrange, map_node_occurrencesBelow, total_append, total_arrange]
    omega

/-- A walk on a limited budget of edits ends. -/
theorem exists_ended (ready : w.Ready pending)
    (within : ∀ calls, CallsMade direction check visitor pending w calls →
      visitor.WithinBudget budget calls) :
    ∃ steps, (walk direction check visitor steps pending w).1 ≠ .unfinished := by
  -- first by what is left of the budget, then by the paths that are left
  induction budget using Nat.strongRecOn generalizing pending w with
  | ind budget byBudget =>
    induction left : w.ways pending using Nat.strongRecOn generalizing pending w with
    | ind left byWays =>
      subst left
      cases pending with
      | nil => exact ⟨0, by simp⟩
      | cons o pending =>
        obtain ended | ⟨next, w₁, takes⟩ := ends_or_takes direction check visitor o pending w
        · exact ⟨1, ended⟩
        · obtain ⟨grown, linked, left, paid, within₁⟩ := takes.withinBudget ready.linked within
          have later := ready.takes grown linked takes
          obtain ⟨steps, ended⟩ :
              ∃ steps, (walk direction check visitor steps next w₁).1 ≠ .unfinished := by
            obtain less | ⟨rfl, kept⟩ := paid
            · exact byBudget left less later within₁
            · exact byWays _ (ready.ways_lt linked kept takes) later within₁ rfl
          exact ⟨steps + 1, by rwa [takes.walk_eq]⟩

/-- A run of the loop: the occurrences taken, one a step, and what is pending then. -/
inductive TakesInTurn (direction : Direction) (check : Check) (visitor : Visitor τ) :
    List Occurrence → World τ → List Occurrence → List Occurrence → World τ → Prop
  | none {pending : List Occurrence} {w : World τ} :
    TakesInTurn direction check visitor pending w [] pending w
  | step {o : Occurrence} {pending next taken rest : List Occurrence} {w w₁ w₂ : World τ} :
    Takes direction check visitor o pending w next w₁ →
    TakesInTurn direction check visitor next w₁ taken rest w₂ →
    TakesInTurn direction check visitor (o :: pending) w (o :: taken) rest w₂

variable {taken rest : List Occurrence} {w₂ : World τ}

theorem TakesInTurn.walk_eq (run : TakesInTurn direction check visitor pending w taken rest w₂)
    (steps : Nat) : walk direction check visitor (steps + taken.length) pending w =
      walk direction check visitor steps rest w₂ := by
  induction run with
  | none => rfl
  | step takes _ ih => rw [List.length_cons, ← Nat.add_assoc, takes.walk_eq, ih]

/-- With fewer steps the walk is not at its end. -/
theorem TakesInTurn.unfinished (run : TakesInTurn direction check visitor pending w taken rest w₂)
    {steps : Nat} (few : steps < taken.length) :
    (walk direction check visitor steps pending w).1 = .unfinished := by
  induction run generalizing steps with
  | none => exact absurd few (Nat.not_lt_zero _)
  | step takes _ ih =>
    cases steps with
    | zero => rfl
    | succ steps =>
      rw [takes.walk_eq]
      exact ih (Nat.lt_of_succ_lt_succ few)

/-- Called so, the visitor edits no child list and lets the walk proceed. -/
structure Visitor.Passes (visitor : Visitor τ) (o : Occurrence) (w : World τ) : Prop where
  proceeds : (visitor o w).1 = .ok .proceed
  kept : w.store.KeepsLinks (visitor o w).2.store

/-- A step that passes a node leads to its children, which are those it had at first. -/
theorem fails_or_takes {s : Store} (held : s.Holds o.node) (kept : s.KeepsLinks w.store)
    (passes : ∀ calls, CallsMade direction check visitor (o :: pending) w calls →
      ∀ call ∈ calls, visitor.Passes call.1 call.2) :
    (∃ failure, check.accepts w.store o = .error failure) ∨
      ∃ w₁, s.KeepsLinks w₁.store ∧ Takes direction check visitor o pending w
        (direction.arrange (s.occurrencesBelow o.node) ++ pending) w₁ := by
  have below {t : Store} (kept : s.KeepsLinks t) :
      t.occurrencesBelow o.node = s.occurrencesBelow o.node :=
    occurrencesBelow_congr (kept.children_eq o.node held)
  have passed (hc : check.accepts w.store o = .ok true) : visitor.Passes o w :=
    passes [(o, w)] (.last hc) (o, w) List.mem_cons_self
  cases meeting check visitor o w with
  | checkFails failure hc => exact .inl ⟨failure, hc⟩
  | refused hc => exact .inr ⟨w, kept, below kept ▸ .refused hc⟩
  | visitFails failure w₁ hc hv => exact absurd (passed hc).proceeds (by simp [hv])
  | exits w₁ hc hv => exact absurd (passed hc).proceeds (by simp [hv])
  | skips w₁ hc hv => exact absurd (passed hc).proceeds (by simp [hv])
  | proceeds w₁ hc hv =>
    have kept₁ : s.KeepsLinks w₁.store := by
      have same : (visitor o w).2 = w₁ := by rw [hv]
      exact same ▸ kept.trans (passed hc).kept
    exact .inr ⟨w₁, kept₁, below kept₁ ▸ .proceeds hc hv⟩

/-- The check of the first pending occurrence fails. -/
def FailsNext (check : Check) (pending : List Occurrence) (w : World τ) : Prop :=
  ∃ o ∈ pending.head?, ∃ failure, check.accepts w.store o = .error failure

/-- By induction on the paths that are left: each step goes down one of them, until none is
left or a check fails. -/
theorem exists_takesInTurn {s : Store} {left : Nat} (bounded : s.Bounded left pending)
    (closed : ∀ n, ∀ child ∈ s.children n, s.Holds child)
    (held : ∀ o ∈ pending, s.Holds o.node) (kept : s.KeepsLinks w.store)
    (passes : ∀ calls, CallsMade direction check visitor pending w calls →
      ∀ call ∈ calls, visitor.Passes call.1 call.2) :
    ∃ taken rest w₂, TakesInTurn direction check visitor pending w taken rest w₂ ∧
      pending.flatMap (s.occurrencesFrom direction) =
        taken ++ rest.flatMap (s.occurrencesFrom direction) ∧
      (rest = [] ∨ FailsNext check rest w₂) := by
  induction left generalizing pending w with
  | zero =>
    cases pending with
    | nil => exact ⟨[], [], w, .none, rfl, .inl rfl⟩
    | cons o pending => exact bounded.not_zero.elim
  | succ left ih =>
    cases pending with
    | nil => exact ⟨[], [], w, .none, rfl, .inl rfl⟩
    | cons o pending =>
      obtain fails | ⟨w₁, kept, takes⟩ := fails_or_takes (held o List.mem_cons_self) kept passes
      · exact ⟨[], o :: pending, w, .none, rfl, .inr ⟨o, rfl, fails⟩⟩
      · have waiting : ∀ later ∈ direction.arrange (s.occurrencesBelow o.node) ++ pending,
            s.Holds later.node := by
          refine List.forall_mem_append.2
            ⟨fun below listed => ?_, (List.forall_mem_cons.1 held).2⟩
          exact closed o.node _ (mem_children_iff.2 ⟨below, mem_arrange.1 listed, rfl⟩)
        obtain ⟨taken, rest, w₂, run, split, ends⟩ :=
          ih (bounded.descend direction) waiting kept (takes.forall_calls passes)
        refine ⟨o :: taken, rest, w₂, .step takes run, ?_, ends⟩
        rw [List.flatMap_cons, occurrencesFrom_eq bounded.head, List.cons_append,
          ← List.flatMap_append, split, List.cons_append]

/-- From the root of a store without cycles, with any check and in either direction: a
visitor that edits child lists in a limited number of its calls, and leaves no cycle after
any of them, ends its walk. If it edits none and always proceeds, the walk takes and checks
as many occurrences as there are downward paths, each node once for every path to it, in
just as many steps; unless a check fails, which ends the walk on the way. -/
theorem walk_ends (direction : Direction) (check : Check) (visitor : Visitor τ) (root : NodeId)
    (w : World τ) (linked : w.store.WellLinked) (held : w.store.Holds root) :
    ((∃ budget, ∀ calls, CallsMade direction check visitor [.alone root] w calls →
        visitor.WithinBudget budget calls) →
      ∃ steps, (walk direction check visitor steps [.alone root] w).1 ≠ .unfinished) ∧
    ((∀ calls, CallsMade direction check visitor [.alone root] w calls →
        ∀ call ∈ calls, visitor.Passes call.1 call.2) →
      ∃ taken rest w₁, TakesInTurn direction check visitor [.alone root] w taken rest w₁ ∧
        taken <+: w.store.occurrences direction root ∧
        (FailsNext check rest w₁ ∨ rest = [] ∧
          taken.length = {path | (w.store.descend? root path).isSome = true}.ncard ∧
          (∀ n, (taken.map Occurrence.node).count n =
            {path | w.store.descend? root path = some n}.ncard) ∧
          (∀ steps < taken.length,
            (walk direction check visitor steps [.alone root] w).1 = .unfinished) ∧
          walk direction check visitor taken.length [.alone root] w = (.completed, w₁))) := by
  have grounded := linked.acyclic.grounded root
  have alone : ∀ o ∈ [Occurrence.alone root], w.store.Holds o.node := by
    simpa [Occurrence.alone] using held
  constructor
  · rintro ⟨budget, within⟩
    exact exists_ended ⟨linked, alone⟩ within
  · intro passes
    have bounded : w.store.Bounded (w.store.pathCount root) [.alone root] :=
      .alone (grounded_iff_acyclicBelow.1 grounded) (Nat.le_refl _)
    obtain ⟨taken, rest, w₁, run, split, ends⟩ :=
      exists_takesInTurn bounded linked.closed alone (.refl _) passes
    rw [List.flatMap_singleton] at split
    refine ⟨taken, rest, w₁, run, ⟨_, split.symm⟩, ends.symm.imp_right ?_⟩
    rintro rfl
    obtain rfl : w.store.occurrences direction root = taken :=
      split.trans (List.append_nil taken)
    refine ⟨rfl, length_occurrences direction grounded, count_occurrences direction grounded,
      fun steps few => run.unfinished few, ?_⟩
    simpa using run.walk_eq 0

theorem mem_children_pushChild {s : Store} {n m child other : NodeId}
    (below : other ∈ (s.pushChild n child).children m) :
    other ∈ s.children m ∨ n = m ∧ other = child := by
  obtain same | ⟨here, _, changed⟩ := s.data_update_cases n m
    fun data => { data with children := some (data.childList ++ [child]) }
  · rw [pushChild, children, same] at below
    exact .inl below
  · rw [pushChild, children, changed] at below
    simpa [children, NodeData.childList, here] using below

/-- Appends to the node it is called for its first child once more, a number of times. -/
def repeatFirst : Visitor Nat := fun o w =>
  (.ok .proceed, match w.state, (w.store.children o.node).head? with
    | left + 1, some child => ⟨w.store.pushChild o.node child, left⟩
    | _, _ => w)

theorem repeatFirst_cases (o : Occurrence) (w : World Nat) :
    (repeatFirst o w).2 = w ∨ ∃ left child, w.state = left + 1 ∧ child ∈ w.store.children o.node ∧
      (repeatFirst o w).2 = ⟨w.store.pushChild o.node child, left⟩ := by
  cases state : w.state with
  | zero => exact .inl (by simp [repeatFirst, state])
  | succ left =>
    cases first : (w.store.children o.node).head? with
    | none => exact .inl (by simp [repeatFirst, state, first])
    | some child =>
      exact .inr ⟨left, child, rfl, List.mem_of_head? first, by simp [repeatFirst, state, first]⟩

theorem repeatFirst_spends : repeatFirst.Spends World.state where
  orderly o w linked := by
    obtain same | ⟨left, child, _, inside, pushed⟩ := repeatFirst_cases o w
    · constructor <;> rw [same]
      exact linked
    · have grown : w.store.size ≤ (w.store.pushChild o.node child).size := by simp [pushChild]
      constructor <;> rw [pushed]
      · exact grown
      · refine linked.of_subset grown fun n other below => ?_
        obtain old | ⟨rfl, rfl⟩ := mem_children_pushChild below
        · exact old
        · exact inside
  keeps o w := by
    obtain same | ⟨left, child, state, _, pushed⟩ := repeatFirst_cases o w
    · rw [same]
    · simp [pushed, state]
  spends o w relinks := by
    obtain same | ⟨left, child, state, _, pushed⟩ := repeatFirst_cases o w
    · rw [Visitor.Relinks, same] at relinks
      exact absurd (.refl _) relinks
    · simp [pushed, state]

theorem wellLinked_nested : nested.WellLinked := wellLinked_of_ascending (by decide)

/-- Three children more on the way; and no edit, but one step for each of the eight paths. -/
theorem walk_ends_nested :
    nested.WellLinked ∧ nested.Holds ⟨3⟩ ∧
    (∀ calls, CallsMade .forward .always repeatFirst [.alone ⟨3⟩] ⟨nested, 3⟩ calls →
      repeatFirst.WithinBudget 3 calls) ∧
    (∃ steps, (walk .forward .always repeatFirst steps [.alone ⟨3⟩] ⟨nested, 3⟩).1 ≠ .unfinished) ∧
    (∀ calls, CallsMade .reversed (Test.kind "pair").compile repeatFirst [.alone ⟨3⟩] ⟨nested, 0⟩
      calls → ∀ call ∈ calls, repeatFirst.Passes call.1 call.2) ∧
    ∃ taken w₁, TakesInTurn .reversed (Test.kind "pair").compile repeatFirst [.alone ⟨3⟩]
        ⟨nested, 0⟩ taken [] w₁ ∧
      taken.length = 8 ∧ {path | (nested.descend? ⟨3⟩ path).isSome = true}.ncard = 8 := by
  have held : nested.Holds ⟨3⟩ := by decide
  have within : ∀ calls, CallsMade .forward .always repeatFirst [.alone ⟨3⟩] ⟨nested, 3⟩ calls →
      repeatFirst.WithinBudget 3 calls :=
    fun _ made => repeatFirst_spends.withinBudget wellLinked_nested made
  have passes : ∀ calls, CallsMade .reversed (Test.kind "pair").compile repeatFirst [.alone ⟨3⟩]
      ⟨nested, 0⟩ calls → ∀ call ∈ calls, repeatFirst.Passes call.1 call.2 := by
    intro calls made call listed
    have few := (repeatFirst_spends.withinBudget wellLinked_nested made).few
    have none := List.countP_eq_zero.1 (Nat.le_zero.1 few) call listed
    exact ⟨rfl, not_not.1 fun relinks => none (decide_eq_true relinks)⟩
  refine ⟨wellLinked_nested, held, within, ?_, passes, ?_⟩
  · exact (walk_ends .forward .always repeatFirst ⟨3⟩ ⟨nested, 3⟩ wellLinked_nested held).1
      ⟨3, within⟩
  · have eight : {path | (nested.descend? ⟨3⟩ path).isSome = true}.ncard = 8 :=
      (length_occurrences .reversed acyclicBelow_nested.grounded).symm.trans (by decide)
    obtain ⟨taken, rest, w₁, run, _, ⟨o, _, failure, fails⟩ | ⟨rfl, paths, _⟩⟩ :=
      (walk_ends .reversed (Test.kind "pair").compile repeatFirst ⟨3⟩ ⟨nested, 0⟩
        wellLinked_nested held).2 passes
    · cases fails
    · exact ⟨taken, w₁, run, paths.trans eight, eight⟩

end TreeIndex
