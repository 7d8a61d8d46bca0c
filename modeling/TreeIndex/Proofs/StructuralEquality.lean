import TreeIndex.Comparison
import TreeIndex.Proofs.EqualContents
import TreeIndex.Proofs.TreeRecursion

/-!
# Structural equality decided by a list of pairs

`Alike` is structural equality as a recursion on the two trees, in which no
identity of a node plays a part. The list of pairs decides it on trees without
cycles, and it would do so without its shortcut for a node compared with itself:
every value is equal to itself, NaN as well. So structural equality is an
equivalence, and a node that is shared is the same to it as equal copies.
-/
namespace TreeIndex
namespace Store

variable {s : Store} {a b c : NodeId}

/-- The same kind, fields that agree name by name in whatever order, and no child
list on either side or lists of one length with children that are alike in turn. -/
inductive Alike (s : Store) : NodeId → NodeId → Prop
  | node {a b : NodeId} :
    s.kind a = s.kind b →
    Entries.Agree (fun v w => v.sameContent w = true) (s.fields a).entries (s.fields b).entries →
    Option.Rel (List.Forall₂ (Alike s)) (s.data a).children (s.data b).children →
    Alike s a b

/-- No object in a shared content has two members of one name. -/
def DistinctContents (s : Store) : Prop :=
  ∀ n, ∀ field ∈ (s.fields n).entries, field.2.DistinctNames

theorem alike_iff : s.Alike a b ↔ s.kind a = s.kind b ∧
    Entries.Agree (fun v w => v.sameContent w = true) (s.fields a).entries (s.fields b).entries ∧
    Childwise s.Alike (s.data a).children (s.data b).children :=
  ⟨fun ⟨kind, fields, children⟩ => ⟨kind, fields, children⟩,
    fun ⟨kind, fields, children⟩ => .node kind fields children⟩

theorem alike_iff_childPairs : s.Alike a b ↔
    ∃ pairs, s.childPairs a b = some pairs ∧ ∀ pair ∈ pairs, s.Alike pair.1 pair.2 := by
  rw [exists_childPairs_iff, Fields.sameContent_iff, alike_iff]

theorem Alike.self (distinct : s.DistinctContents) (h : s.Grounded a) : s.Alike a a := by
  refine h.induction fun a _ ih => ?_
  refine .node rfl (fun name => ?_) ?_
  · cases found : Entries.find? name (s.fields a).entries with
    | none => exact .none
    | some value =>
      exact .some (Value.sameContent_self (distinct a (name, value) (Entries.mem_of_find? found)))
  · cases listed : (s.data a).children with
    | none => exact .none
    | some children =>
      refine .some (List.forall₂_same.2 fun child below => ih child ?_)
      simpa [Store.children, NodeData.childList, listed] using below

theorem Alike.symm (distinct : s.DistinctContents) (h : s.Grounded a) :
    ∀ b, s.Alike a b → s.Alike b a := by
  refine h.induction fun a _ ih b alike => ?_
  obtain ⟨kind, fields, children⟩ := alike_iff.1 alike
  refine .node kind.symm ?_ ?_
  · exact (fields.imp_of_mem fun field inside other listed same =>
      Value.sameContent_symm (distinct a field inside) (distinct b other listed) same).flip
  · exact (children.imp_of_mem fun child below other _ alike => ih child below other alike).flip

theorem Alike.trans (h : s.Grounded a) :
    ∀ b c, s.Alike a b → s.Alike b c → s.Alike a c := by
  refine h.induction fun a _ ih b c first second => ?_
  obtain ⟨kind, fields, children⟩ := alike_iff.1 first
  obtain ⟨kind', fields', children'⟩ := alike_iff.1 second
  refine .node (kind.trans kind') ?_ ?_
  · refine (fields.comp fields').imp_of_mem fun field _ last _ both => ?_
    obtain ⟨other, here, there⟩ := both
    exact Value.sameContent_trans here there
  · refine (children.comp children').imp_of_mem fun child below last _ both => ?_
    obtain ⟨other, here, there⟩ := both
    exact ih child below other last here there

theorem deepEqual_self (h : s.Grounded a) : s.deepEqual a a = true := by
  rw [deepEqual_eq h, equalWith, decide_eq_true rfl, Bool.true_or]

/-- By induction on the tree. Only for a node and itself does the list not follow
the recursion, and there both say yes. -/
theorem deepEqual_iff_alike (distinct : s.DistinctContents) (h : s.Grounded a) :
    ∀ b, s.deepEqual a b = true ↔ s.Alike a b := by
  refine h.induction fun a h ih b => ?_
  by_cases same : a = b
  · subst same
    exact iff_of_true (deepEqual_self h) (Alike.self distinct h)
  · rw [deepEqual_iff h same, Fields.sameContent_iff, alike_iff]
    refine and_congr_right fun _ => and_congr_right fun _ => ?_
    constructor
    · exact fun children => children.imp_of_mem fun child below other _ => (ih child below other).1
    · exact fun children => children.imp_of_mem fun child below other _ => (ih child below other).2

variable {shortcut answer : Bool} {turns steps : Nat} {pending pairs : List (NodeId × NodeId)}

/-- The comparison with its shortcut, given steps for all the turns of its run, has
the answer of the run. -/
theorem Compared.pairsEqual_eq (compared : s.Compared true turns pending answer)
    (enough : turns ≤ steps) : s.pairsEqual steps pending = answer := by
  induction compared generalizing steps with
  | done => cases steps <;> rfl
  | same _ _ ih =>
    obtain ⟨rest, rfl⟩ := Nat.exists_eq_add_of_le' enough
    rw [← Nat.add_assoc, pairsEqual, if_pos rfl]
    exact ih (by omega)
  | differ kept apart =>
    obtain ⟨rest, rfl⟩ := Nat.exists_eq_add_of_le' enough
    simp [pairsEqual, kept rfl, apart]
  | descend kept found _ ih =>
    obtain ⟨rest, rfl⟩ := Nat.exists_eq_add_of_le' enough
    rw [← Nat.add_assoc, pairsEqual, if_neg (kept rfl), found]
    exact ih (by omega)

/-- Before whatever else is pending, the pair takes no more turns than there are
paths down from its first node, and then the run goes on or has ended. -/
def ComparesTo (s : Store) (shortcut : Bool) (a b : NodeId) (answer : Bool) : Prop :=
  ∀ turns pending others, s.Compared shortcut turns pending others →
    ∃ all ≤ s.paths a + turns, s.Compared shortcut all ((a, b) :: pending) (answer && others)

theorem ComparesTo.append (f : NodeId → NodeId → Bool)
    (each : ∀ pair ∈ pairs, s.ComparesTo shortcut pair.1 pair.2 (f pair.1 pair.2))
    (compared : s.Compared shortcut turns pending answer) :
    ∃ all ≤ total s.paths (pairs.map Prod.fst) + turns,
      s.Compared shortcut all (pairs ++ pending)
        ((pairs.all fun pair => f pair.1 pair.2) && answer) := by
  induction pairs with
  | nil => exact ⟨turns, by simp [total], by simpa using compared⟩
  | cons pair pairs ih =>
    obtain ⟨later, few, rest⟩ := ih fun p inside => each p (by simp [inside])
    obtain ⟨all, fewer, whole⟩ := each pair (by simp) _ _ _ rest
    refine ⟨all, ?_, by simpa [Bool.and_assoc] using whole⟩
    simp only [List.map_cons, total]
    omega

/-- By induction on the tree. The children of the pair come before what is pending,
and their paths are those of the first node but one. -/
theorem comparesTo_deepEqual (distinct : s.DistinctContents) (h : s.Grounded a) :
    ∀ b, s.ComparesTo shortcut a b (s.deepEqual a b) := by
  refine h.induction fun a h ih b turns pending others compared => ?_
  have positive := h.paths_pos
  by_cases dropped : shortcut = true ∧ a = b
  · obtain ⟨short, rfl⟩ := dropped
    exact ⟨turns + 1, by omega, by simpa [deepEqual_self h] using compared.same short⟩
  · have kept : shortcut = true → a ≠ b := fun short same => dropped ⟨short, same⟩
    have decides := (deepEqual_iff_alike distinct h b).trans alike_iff_childPairs
    cases found : s.childPairs a b with
    | none =>
      have apart : s.deepEqual a b = false := by
        rw [← Bool.not_eq_true, decides, found]
        simp
      exact ⟨1, by omega, by simpa [apart] using Compared.differ kept found⟩
    | some pairs =>
      have lefts : ∀ pair ∈ pairs, pair.1 ∈ s.children a := fun pair inside =>
        childPairs_fst found ▸ List.mem_map_of_mem inside
      have all : s.deepEqual a b = pairs.reverse.all fun pair => s.deepEqual pair.1 pair.2 := by
        rw [Bool.eq_iff_iff, decides, found, List.all_reverse, List.all_eq_true]
        simp only [Option.some.injEq, exists_eq_left']
        exact forall₂_congr fun pair inside =>
          (deepEqual_iff_alike distinct (h.child (lefts pair inside)) pair.2).symm
      have each : ∀ pair ∈ pairs.reverse,
          s.ComparesTo shortcut pair.1 pair.2 (s.deepEqual pair.1 pair.2) :=
        fun pair inside => ih pair.1 (lefts pair (List.mem_reverse.1 inside)) pair.2
      obtain ⟨below, few, run⟩ := ComparesTo.append s.deepEqual each compared
      refine ⟨below + 1, ?_, by simpa [all] using Compared.descend kept found run⟩
      rw [List.map_reverse, total_reverse, childPairs_fst found] at few
      rw [h.paths_eq]
      omega

theorem exists_compared (distinct : s.DistinctContents) (h : s.Grounded a) (b : NodeId) :
    ∃ turns ≤ s.pathCount a, s.Compared shortcut turns [(a, b)] (s.deepEqual a b) := by
  obtain ⟨turns, few, run⟩ := comparesTo_deepEqual distinct h b 0 [] true .done
  have paths := s.paths_le_pathCount a
  exact ⟨turns, by omega, by simpa using run⟩

theorem equivalence_deepEqual (distinct : s.DistinctContents) :
    Equivalence fun a b : { n // s.AcyclicBelow n } => s.deepEqual a b = true := by
  have decides : ∀ a b : { n // s.AcyclicBelow n }, s.deepEqual a b = true ↔ s.Alike a b :=
    fun a b => deepEqual_iff_alike distinct a.2.grounded b
  refine ⟨fun a => deepEqual_self a.2.grounded, ?_, ?_⟩
  · intro a b same
    rw [decides] at same ⊢
    exact Alike.symm distinct a.2.grounded b same
  · intro a b c first second
    rw [decides] at first second ⊢
    exact Alike.trans a.2.grounded b c first second

/-- A node that is listed several times is the same as so many copies of it. -/
theorem deepEqual_of_copies (distinct : s.DistinctContents) (h : s.Grounded a) {child : NodeId}
    {copies : List NodeId} (kind : s.kind a = s.kind b)
    (fields : (s.fields a).sameContent (s.fields b) = true)
    (shared : (s.data a).children = some (List.replicate copies.length child))
    (listed : (s.data b).children = some copies)
    (equal : ∀ copy ∈ copies, s.deepEqual child copy = true) : s.deepEqual a b = true := by
  rw [deepEqual_iff_alike distinct h, alike_iff, shared, listed]
  refine ⟨kind, Fields.sameContent_iff.1 fields, .some ?_⟩
  refine List.forall₂_iff_zip.2 ⟨by simp, fun {left right} inside => ?_⟩
  obtain ⟨here, there⟩ := List.of_mem_zip inside
  have below : left ∈ s.children a := by
    rw [children, NodeData.childList, shared]
    exact here
  obtain rfl := List.eq_of_mem_replicate here
  exact (deepEqual_iff_alike distinct (h.child below) right).1 (equal right there)

/-- On trees without cycles the comparison ends, with its shortcut or without, has the
same answer then whatever steps it is given beyond its turns, and decides structural
equality; so it is an equivalence, and a node that is listed several times is the same
to it as so many copies. -/
theorem deepEqual_isStructural (distinct : s.DistinctContents) :
    (∀ a b, s.AcyclicBelow a →
      (∀ shortcut, ∃ turns ≤ s.pathCount a,
        s.Compared shortcut turns [(a, b)] (s.deepEqual a b)) ∧
      (∀ steps ≥ s.pathCount a, s.pairsEqual steps [(a, b)] = s.deepEqual a b) ∧
      (s.deepEqual a b = true ↔ s.Alike a b)) ∧
    Equivalence (fun a b : { n // s.AcyclicBelow n } => s.deepEqual a b = true) ∧
    ∀ a b child copies, s.AcyclicBelow a → s.kind a = s.kind b →
      (s.fields a).sameContent (s.fields b) = true →
      (s.data a).children = some (List.replicate copies.length child) →
      (s.data b).children = some copies → (∀ copy ∈ copies, s.deepEqual child copy = true) →
      s.deepEqual a b = true := by
  refine ⟨fun a b acyclic => ⟨fun shortcut => ?_, fun steps enough => ?_, ?_⟩,
    equivalence_deepEqual distinct, fun a b child copies acyclic => ?_⟩
  · exact exists_compared distinct acyclic.grounded b
  · obtain ⟨turns, few, run⟩ := exists_compared distinct acyclic.grounded b
    exact run.pairsEqual_eq (few.trans enough)
  · exact deepEqual_iff_alike distinct acyclic.grounded b
  · exact deepEqual_of_copies distinct acyclic.grounded

/-- A leaf with NaN and an object, two copies of it, and two pairs: one has the leaf
as both its children, the other the two copies. -/
def twins : Store :=
  let data : Value := .shared ⟨0, .object [("a", .null), ("b", .int 1)]⟩
  let copied : Value := .shared ⟨1, .object [("b", .int 1), ("a", .null)]⟩
  ⟨#[⟨"leaf", ⟨[("size", .number .nan), ("data", data)], by decide⟩, none⟩,
    ⟨"leaf", ⟨[("data", copied), ("size", .number .nan)], by decide⟩, none⟩,
    ⟨"leaf", ⟨[("size", .number .nan), ("data", copied)], by decide⟩, none⟩,
    ⟨"pair", .empty, some [⟨0⟩, ⟨0⟩]⟩, ⟨"pair", .empty, some [⟨1⟩, ⟨2⟩]⟩], 2⟩

theorem distinctContents_twins : twins.DistinctContents := by
  have values : ∀ n, ∀ field ∈ (twins.fields n).entries, field.2 = .number .nan ∨
      field.2 = .shared ⟨0, .object [("a", .null), ("b", .int 1)]⟩ ∨
      field.2 = .shared ⟨1, .object [("b", .int 1), ("a", .null)]⟩ := by
    rintro ⟨_ | _ | _ | _ | _ | index⟩ field inside <;>
      simp_all [fields, data, twins, default, NodeData.ofKind, Fields.empty]
    all_goals grind
  intro n field inside object here
  obtain same | same | same := values n field inside <;> rw [here] at same <;> cases same <;>
    simp [Json.DistinctNames, Json.DistinctNamesMembers, Entries.names, Json.int]

theorem deepEqual_isStructural_twins :
    twins.DistinctContents ∧ twins.AcyclicBelow ⟨3⟩ ∧ twins.AcyclicBelow ⟨4⟩ ∧
      twins.Alike ⟨3⟩ ⟨4⟩ ∧ twins.deepEqual ⟨4⟩ ⟨3⟩ = true := by
  have distinct := distinctContents_twins
  have acyclic : ∀ n, twins.AcyclicBelow n := acyclicBelow_of_ascending (by decide)
  obtain ⟨decides, equivalence, sharing⟩ := deepEqual_isStructural distinct
  have equal : twins.deepEqual ⟨3⟩ ⟨4⟩ = true :=
    sharing ⟨3⟩ ⟨4⟩ ⟨0⟩ [⟨1⟩, ⟨2⟩] (acyclic _) rfl rfl rfl rfl (by decide)
  refine ⟨distinct, acyclic _, acyclic _, ?_, ?_⟩
  · exact (decides _ _ (acyclic _)).2.2.1 equal
  · exact equivalence.symm (x := ⟨⟨3⟩, acyclic _⟩) (y := ⟨⟨4⟩, acyclic _⟩) equal

end Store
end TreeIndex
