import TreeIndex.Position
import TreeIndex.Proofs.EditLaws
import TreeIndex.Proofs.PreOrder

/-!
# Positions of visited nodes

An occurrence is pending for a long time before the walk comes to it, and the
visitor may edit the tree in the meantime. Still the parents of all pending
occurrences lie on the way from the root to the next of them, the later ones
above the earlier. So without cycles none of them is the node that is visited,
and as long as a visitor edits no child list but that of the visited node, every
pending occurrence stays where it was met.
-/
namespace TreeIndex
namespace Store

variable {s t : Store} {root n a b : NodeId} {o : Occurrence} {pending : List Occurrence}
  {direction : Direction}

/-- The occurrence has a position and a parent, and is the child of the one at the other. -/
def Located (s : Store) (o : Occurrence) : Prop :=
  ∃ parent index, o.parent = some parent ∧ o.index = some index ∧
    s.child? parent index = some o.node

/-- The node is the parent of the occurrence or stands above it. -/
def Above (s : Store) (a : NodeId) (o : Occurrence) : Prop :=
  ∃ parent, o.parent = some parent ∧ s.Reaches a parent

/-- No node but one has other children than before; what is new may have any. -/
def KeepsOthers (s t : Store) (n : NodeId) : Prop :=
  ∀ m, s.Holds m → m ≠ n → t.children m = s.children m

/-- A list of pending occurrences below a root. -/
structure Stacked (s : Store) (root : NodeId) (pending : List Occurrence) : Prop where
  located : ∀ o ∈ pending, s.Located o
  rooted : ∀ o ∈ pending, s.Above root o
  nested : pending.Pairwise fun o later => ∀ parent ∈ later.parent, s.Above parent o

theorem positionError?_of_located (h : s.Located o) : s.positionError? o = none := by
  obtain ⟨parent, index, above, position, child⟩ := h
  have inside : index < s.childCount parent := (List.getElem?_eq_some_iff.1 child).1
  simp [positionError?, above, position, inside]

theorem KeepsOthers.children_eq (kept : s.KeepsOthers t n) (other : b ≠ n)
    (below : a ∈ s.children b) : t.children b = s.children b :=
  kept b (holds_of_mem_children below) other

/-- Ways to a node that is not below the edited one do not lead through that one. -/
theorem KeepsOthers.reaches (kept : s.KeepsOthers t n) (apart : ¬ s.Reaches n b)
    (down : s.Reaches a b) : t.Reaches a b := by
  induction down using Relation.ReflTransGen.head_induction_on with
  | refl => exact .refl
  | @head a child below rest ih =>
    have other : a ≠ n := by
      rintro rfl
      exact apart (.head below rest)
    exact .head (kept.children_eq other below ▸ below) ih

variable (apart : ∀ parent ∈ o.parent, ¬ s.Reaches n parent)
include apart

theorem KeepsOthers.above (kept : s.KeepsOthers t n) (h : s.Above a o) : t.Above a o := by
  obtain ⟨parent, above, down⟩ := h
  exact ⟨parent, above, kept.reaches (apart parent above) down⟩

theorem KeepsOthers.located (kept : s.KeepsOthers t n) (h : s.Located o) : t.Located o := by
  obtain ⟨parent, index, above, position, child⟩ := h
  have other : parent ≠ n := by
    rintro rfl
    exact apart parent above .refl
  refine ⟨parent, index, above, position, ?_⟩
  rwa [child?, kept.children_eq other (List.mem_of_getElem? child)]

omit apart

theorem Above.exists_parent (located : s.Located o) (above : s.Above a o) :
    ∃ parent, s.Reaches a parent ∧ o.node ∈ s.children parent := by
  obtain ⟨parent, index, isParent, _, child⟩ := located
  obtain ⟨_, isParent', down⟩ := above
  obtain rfl : parent = _ := Option.some.inj (isParent.symm.trans isParent')
  exact ⟨parent, down, List.mem_of_getElem? child⟩

theorem Above.reaches_node (located : s.Located o) (above : s.Above a o) :
    s.Reaches a o.node := by
  obtain ⟨parent, down, child⟩ := above.exists_parent located
  exact down.tail child

/-- Without cycles nothing above an occurrence stands below its node. -/
theorem Above.not_reaches (acyclic : s.AcyclicBelow root) (located : s.Located o)
    (rooted : s.Above root o) (above : s.Above a o) : ¬ s.Reaches o.node a := by
  intro back
  obtain ⟨parent, down, child⟩ := above.exists_parent located
  have round : s.Reaches o.node parent := back.trans down
  exact acyclic parent ((rooted.reaches_node located).trans round) o.node child round

/-- The parents of all pending occurrences stand above the next one. -/
theorem Stacked.above (h : s.Stacked root (o :: pending)) :
    ∀ other ∈ o :: pending, ∀ parent ∈ other.parent, s.Above parent o := by
  intro other listed parent isParent
  obtain rfl | later := List.mem_cons.1 listed
  · exact ⟨parent, isParent, .refl⟩
  · exact List.rel_of_pairwise_cons h.nested later parent isParent

/-- So without cycles none of them is below its node, or the node itself. -/
theorem Stacked.not_reaches (h : s.Stacked root (o :: pending)) (acyclic : s.AcyclicBelow root) :
    ∀ other ∈ o :: pending, ∀ parent ∈ other.parent, ¬ s.Reaches o.node parent :=
  fun other listed parent isParent =>
    Above.not_reaches acyclic (h.located o (by simp)) (h.rooted o (by simp))
      (h.above other listed parent isParent)

/-- An edit of the node that is next leaves all pending occurrences where they are. -/
theorem Stacked.kept (h : s.Stacked root (o :: pending)) (acyclic : s.AcyclicBelow root)
    (kept : s.KeepsOthers t o.node) : t.Stacked root (o :: pending) where
  located other listed := kept.located (h.not_reaches acyclic other listed) (h.located other listed)
  rooted other listed := kept.above (h.not_reaches acyclic other listed) (h.rooted other listed)
  nested := h.nested.imp_of_mem fun {earlier _} listed _ nested parent isParent =>
    kept.above (h.not_reaches acyclic earlier listed) (nested parent isParent)

theorem Stacked.tail (h : s.Stacked root (o :: pending)) : s.Stacked root pending where
  located other listed := h.located other (by simp [listed])
  rooted other listed := h.rooted other (by simp [listed])
  nested := (List.pairwise_cons.1 h.nested).2

theorem parent_of_mem_occurrencesBelow (below : o ∈ s.occurrencesBelow n) :
    o.parent = some n := by
  obtain ⟨index, _, rfl⟩ := List.mem_mapIdx.1 below
  rfl

theorem located_of_mem_occurrencesBelow (below : o ∈ s.occurrencesBelow n) : s.Located o := by
  obtain ⟨index, inside, rfl⟩ := List.mem_mapIdx.1 below
  exact ⟨n, index, rfl, rfl, List.getElem?_eq_getElem inside⟩

/-- The children of a node below the root, in either order. -/
theorem stacked_occurrencesBelow (direction : Direction) (down : s.Reaches root n) :
    s.Stacked root (direction.arrange (s.occurrencesBelow n)) := by
  have parents : ∀ o ∈ direction.arrange (s.occurrencesBelow n), o.parent = some n :=
    fun o listed => parent_of_mem_occurrencesBelow (mem_arrange.1 listed)
  refine ⟨fun o listed => ?_, fun o listed => ⟨n, parents o listed, down⟩, ?_⟩
  · exact located_of_mem_occurrencesBelow (mem_arrange.1 listed)
  · refine List.pairwise_of_forall_mem_list fun o listed later listed' parent isParent => ?_
    obtain rfl : n = parent := Option.some.inj ((parents later listed').symm.trans isParent)
    exact ⟨n, parents o listed, .refl⟩

/-- The children of the next occurrence take its place. -/
theorem Stacked.descend (h : s.Stacked root (o :: pending)) :
    s.Stacked root (direction.arrange (s.occurrencesBelow o.node) ++ pending) := by
  have located : s.Located o := h.located o (by simp)
  have children :=
    stacked_occurrencesBelow direction ((h.rooted o (by simp)).reaches_node located)
  refine ⟨List.forall_mem_append.2 ⟨children.located, h.tail.located⟩,
    List.forall_mem_append.2 ⟨children.rooted, h.tail.rooted⟩,
    List.pairwise_append.2 ⟨children.nested, h.tail.nested, ?_⟩⟩
  intro below listed later listed' parent isParent
  refine ⟨o.node, parent_of_mem_occurrencesBelow (mem_arrange.1 listed), ?_⟩
  exact (h.above later (by simp [listed']) parent isParent).reaches_node located

end Store

variable {τ : Type} {direction : Direction} {check : Check} {visitor : Visitor τ}

/-- Called so, the visitor edits no child list but that of the node it is called for,
and leaves no cycle below the root. -/
structure Visitor.Tidy (visitor : Visitor τ) (root : NodeId) (o : Occurrence) (w : World τ) :
    Prop where
  kept : w.store.KeepsOthers (visitor o w).2.store o.node
  acyclic : (visitor o w).2.store.AcyclicBelow root

theorem Visitor.Tidy.after {root : NodeId} {o : Occurrence} {w w₁ : World τ}
    {answer : Except Failure Action} (tidy : visitor.Tidy root o w)
    (hv : visitor o w = (answer, w₁)) :
    w.store.KeepsOthers w₁.store o.node ∧ w₁.store.AcyclicBelow root := by
  obtain ⟨kept, acyclic⟩ := tidy
  rw [hv] at kept acyclic
  exact ⟨kept, acyclic⟩

/-- By induction on the calls, from the pending occurrences before each step to those
after it. -/
theorem CallsMade.located {root : NodeId} {pending : List Occurrence} {w : World τ}
    {calls : List (Occurrence × World τ)}
    (made : CallsMade direction check visitor pending w calls)
    (stacked : w.store.Stacked root pending) (acyclic : w.store.AcyclicBelow root)
    (tidy : ∀ call ∈ calls, visitor.Tidy root call.1 call.2) :
    ∀ call ∈ calls, call.2.store.Located call.1 := by
  induction made with
  | stopped => simp
  | refused hc _ ih => exact ih stacked.descend acyclic tidy
  | last hc => simpa using stacked.located _ (by simp)
  | @skips o pending w w₁ calls hc hv _ ih =>
    obtain ⟨kept, acyclic'⟩ := (tidy (o, w) (by simp)).after hv
    refine List.forall_mem_cons.2 ⟨stacked.located o (by simp), ?_⟩
    exact ih (stacked.kept acyclic kept).tail acyclic' fun call h => tidy call (by simp [h])
  | @proceeds o pending w w₁ calls hc hv _ ih =>
    obtain ⟨kept, acyclic'⟩ := (tidy (o, w) (by simp)).after hv
    refine List.forall_mem_cons.2 ⟨stacked.located o (by simp), ?_⟩
    exact ih (stacked.kept acyclic kept).descend acyclic' fun call h => tidy call (by simp [h])

theorem CallsMade.accepted {pending : List Occurrence} {w : World τ}
    {calls : List (Occurrence × World τ)}
    (made : CallsMade direction check visitor pending w calls) :
    ∀ call ∈ calls, check.accepts call.2.store call.1 = .ok true := by
  induction made with
  | stopped => simp
  | refused hc _ ih => exact ih
  | last hc => simpa using hc
  | skips hc hv _ ih => exact List.forall_mem_cons.2 ⟨hc, ih⟩
  | proceeds hc hv _ ih => exact List.forall_mem_cons.2 ⟨hc, ih⟩

/-- A walk from a root calls the visitor for the root at most once, as the first, and
then for nodes at their positions below other nodes. -/
theorem CallsMade.split {root : NodeId} {w : World τ} {calls : List (Occurrence × World τ)}
    (made : CallsMade direction check visitor [.alone root] w calls)
    (acyclic : w.store.AcyclicBelow root)
    (tidy : ∀ call ∈ calls, visitor.Tidy root call.1 call.2) :
    ∃ others, (calls = others ∨ calls = (.alone root, w) :: others) ∧
      ∀ call ∈ others, call.2.store.Located call.1 := by
  cases made with
  | stopped => exact ⟨[], .inl rfl, by simp⟩
  | refused hc made =>
    rw [List.append_nil] at made
    have later := made.located (Store.stacked_occurrencesBelow direction .refl) acyclic
    exact ⟨calls, .inl rfl, later tidy⟩
  | last hc => exact ⟨[], .inr rfl, by simp⟩
  | skips hc hv made =>
    cases made
    exact ⟨[], .inr rfl, by simp⟩
  | @proceeds _ _ _ w₁ others hc hv made =>
    rw [List.append_nil] at made
    obtain ⟨_, acyclic'⟩ := (tidy (.alone root, w) (by simp)).after hv
    have later := made.located (Store.stacked_occurrencesBelow direction .refl) acyclic'
    exact ⟨others, .inr rfl, later fun call h => tidy call (by simp [h])⟩

theorem visitCalls_eq {direction : Direction} {test : Test} {visitor : Visitor τ} {steps : Nat}
    {root : NodeId} {w : World τ} {calls : List (Occurrence × World τ)}
    {outcome : Ending × World τ}
    (noted : ∀ log,
      walk direction test.compile (visitor.noting Prod.mk) steps [.alone root] (w.noted log) =
        (outcome.1, outcome.2.noted (log ++ calls.map fun call => (call.1, call.2)))) :
    visitCalls direction test visitor steps root w = calls := by
  rw [visitCalls, visit, noted, List.nil_append, List.map_id']
  rfl

/-- They are the calls of the walk itself: taking notes of them changes nothing else. -/
theorem visit_noting (direction : Direction) (test : Test) (visitor : Visitor τ)
    (steps : Nat) (root : NodeId) (w : World τ) :
    visit direction test (visitor.noting Prod.mk) steps root (w.noted []) =
        ((visit direction test visitor steps root w).1,
          (visit direction test visitor steps root w).2.noted
            (visitCalls direction test visitor steps root w)) ∧
      CallsMade direction test.compile visitor [.alone root] w
        (visitCalls direction test visitor steps root w) := by
  obtain ⟨calls, made, _, noted⟩ :=
    walk_noting direction test.compile visitor Prod.mk steps [.alone root] w
  rw [visitCalls_eq noted]
  refine ⟨?_, made⟩
  have result := noted []
  rwa [List.nil_append, List.map_id'] at result

/-- They lead to the outcome of the walk. -/
theorem callsLead_visitCalls (direction : Direction) (test : Test) (visitor : Visitor τ)
    (steps : Nat) (root : NodeId) (w : World τ) :
    CallsLead test.compile visitor w (visitCalls direction test visitor steps root w)
      (visit direction test visitor steps root w) := by
  obtain ⟨calls, _, lead, noted⟩ :=
    walk_noting direction test.compile visitor Prod.mk steps [.alone root] w
  rw [visitCalls_eq noted]
  exact lead

/-- If every call edits no child list but that of its node and makes no cycle, then a walk
calls for the root alone at most once, as the first, and for all other nodes at positions
where they are at that moment; and there the test holds. -/
theorem visitCalls_located (direction : Direction) (test : Test) (visitor : Visitor τ)
    (steps : Nat) (root : NodeId) (w : World τ) (acyclic : w.store.AcyclicBelow root)
    (tidy : ∀ call ∈ visitCalls direction test visitor steps root w,
      visitor.Tidy root call.1 call.2) :
    ∃ others, (visitCalls direction test visitor steps root w = others ∨
        visitCalls direction test visitor steps root w = (.alone root, w) :: others) ∧
      (∀ call ∈ others, call.2.store.Located call.1) ∧
      ∀ call ∈ visitCalls direction test visitor steps root w,
        test.holdsAt call.2.store call.1 = .ok (.ok true) := by
  have made := (visit_noting direction test visitor steps root w).2
  obtain ⟨others, first, located⟩ := made.split acyclic tidy
  have positioned : ∀ call ∈ visitCalls direction test visitor steps root w,
      call.2.store.positionError? call.1 = none := by
    intro call listed
    obtain same | same := first
    · exact Store.positionError?_of_located (located call (same ▸ listed))
    · obtain rfl | later := List.mem_cons.1 (same ▸ listed)
      · rfl
      · exact Store.positionError?_of_located (located call later)
  refine ⟨others, first, located, fun call listed => ?_⟩
  rw [Test.holdsAt, positioned call listed, made.accepted call listed]

/-- A parent that has another one twice among its children. -/
def nested : Store :=
  ⟨#[.ofKind "leaf", .ofKind "leaf", ⟨"pair", .empty, some [⟨0⟩, ⟨1⟩]⟩,
    ⟨"pair", .empty, some [⟨0⟩, ⟨2⟩, ⟨2⟩]⟩], 0⟩

theorem acyclicBelow_nested : nested.AcyclicBelow ⟨3⟩ :=
  Store.acyclicBelow_of_ascending (by decide) _

/-- Takes the first child from every node it is called for. -/
def dropFirst : Visitor Unit := fun o w =>
  (.ok .proceed, ⟨(w.store.removeChild o.node 0).2, ()⟩)

theorem visitCalls_located_nested :
    nested.AcyclicBelow ⟨3⟩ ∧
      (∀ call ∈ visitCalls .forward (.kind "pair") dropFirst 9 ⟨3⟩ ⟨nested, ()⟩,
        dropFirst.Tidy ⟨3⟩ call.1 call.2) ∧
      (visitCalls .forward (.kind "pair") dropFirst 9 ⟨3⟩ ⟨nested, ()⟩).map Prod.fst =
        [.alone ⟨3⟩, ⟨⟨2⟩, some 0, some ⟨3⟩⟩, ⟨⟨2⟩, some 1, some ⟨3⟩⟩] ∧
      ∀ call ∈ (visitCalls .forward (.kind "pair") dropFirst 9 ⟨3⟩ ⟨nested, ()⟩).tail,
        call.2.store.Located call.1 := by
  have tidy : ∀ call ∈ visitCalls .forward (.kind "pair") dropFirst 9 ⟨3⟩ ⟨nested, ()⟩,
      dropFirst.Tidy ⟨3⟩ call.1 call.2 := by
    refine fun call listed => ⟨fun m _ other => ?_, Store.acyclicBelow_of_ascending ?_ _⟩
    · exact congrArg NodeData.childList (Store.data_update_of_ne other.symm)
    · revert call
      decide
  refine ⟨acyclicBelow_nested, tidy, rfl, ?_⟩
  obtain ⟨others, first, located, _⟩ := visitCalls_located .forward (.kind "pair") dropFirst 9
    ⟨3⟩ ⟨nested, ()⟩ acyclicBelow_nested tidy
  intro call listed
  obtain same | same := first <;> rw [same] at listed
  · exact located call (List.mem_of_mem_tail listed)
  · exact located call listed

end TreeIndex
