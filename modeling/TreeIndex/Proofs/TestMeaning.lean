import TreeIndex.Proofs.ExactNumbers
import TreeIndex.Proofs.TestLaws

/-!
# What a test says

A test that is no list says one thing of a node where it is met, and a test with
lists, however deep, has such tests as its leaves. Its check asks the leaves from left
to right and stops at the first that does not refuse. Which leaves it asks can be told
from outside: a leaf is asked just when the check would fail if the leaf did.
-/
namespace TreeIndex

/-- Equal as field values: numbers that are the same, both zeros or both not numbers,
and shared objects that are one. -/
inductive Value.Equals : Value → Value → Prop
  | null : Equals .null .null
  | bool {value} : Equals (.bool value) (.bool value)
  | number {a b : Binary64} :
    a = b ∨ (a.isNaN = true ∧ b.isNaN = true) ∨ (a.magnitude = 0 ∧ b.magnitude = 0) →
    Equals (.number a) (.number b)
  | text {value} : Equals (.text value) (.text value)
  | shared {a b : Shared} : a.id = b.id → Equals (.shared a) (.shared b)

theorem Value.beq_iff_equals {a b : Value} : (a == b) = true ↔ a.Equals b := by
  show same a b = true ↔ _
  constructor
  · intro equal
    cases a <;> cases b <;> simp only [same, beq_iff_eq, Bool.false_eq_true] at equal
    case null => exact .null
    case bool => exact equal ▸ .bool
    case number => exact .number (Binary64.beq_iff.1 equal)
    case text => exact equal ▸ .text
    case shared => exact .shared (by simpa [Shared.beq_eq] using equal)
  · intro equal
    cases equal with
    | null => rfl
    | bool => exact BEq.rfl
    | number equal => exact Binary64.beq_iff.2 equal
    | text => exact BEq.rfl
    | shared one => simpa [same, Shared.beq_eq] using one

namespace Store

variable {s : Store} {n : NodeId} {name : String} {value : Value}

/-- The node has the value in the field. The field `type` is the kind and no entry. -/
inductive HasValue (s : Store) (n : NodeId) : String → Value → Prop
  | kind : HasValue s n "type" (.text (s.kind n))
  | entry {name found value} : name ≠ "type" → (s.fields n).get? name = some found →
    found.Equals value → HasValue s n name value

theorem fieldIs_iff : s.fieldIs n name value = true ↔ s.HasValue n name value := by
  unfold fieldIs field?
  by_cases named : name = "type"
  · subst named
    simp only [if_true, Value.beq_iff_equals]
    constructor
    · intro equal
      cases equal
      exact .kind
    · intro has
      cases has with
      | kind => exact .text
      | entry other _ _ => exact absurd rfl other
  · rw [if_neg named]
    constructor
    · intro equal
      cases found : (s.fields n).get? name with
      | none => simp [found] at equal
      | some old =>
        rw [found] at equal
        exact .entry named found (Value.beq_iff_equals.1 equal)
    · intro has
      cases has with
      | kind => exact absurd rfl named
      | entry _ found equal => simpa [found] using Value.beq_iff_equals.2 equal

end Store

namespace Test

/-- What a test that is no list tells of a node where it is met. -/
inductive Tells (s : Store) (o : Occurrence) : Test → Except Failure Bool → Prop
  | always : Tells s o .always (.ok true)
  | kind {name} : Tells s o (.kind name) (.ok (decide (s.kind o.node = name)))
  | fields {expected answer} :
    (answer = true ↔ ∀ field ∈ expected.entries, s.HasValue o.node field.1 field.2) →
    Tells s o (.fields expected) (.ok answer)
  | predicate {accepts} : Tells s o (.predicate accepts) (accepts s o)

/-- Tests are asked in turn up to the first that does not refuse: those that are asked,
and the answer. -/
inductive AskedInTurn (s : Store) (o : Occurrence) :
    List Test → List Test → Except Failure Bool → Prop
  | exhausted : AskedInTurn s o [] [] (.ok false)
  | refused {leaf tests asked answer} :
    Tells s o leaf (.ok false) → AskedInTurn s o tests asked answer →
    AskedInTurn s o (leaf :: tests) (leaf :: asked) answer
  | settled {leaf tests answer} :
    Tells s o leaf answer → answer ≠ .ok false →
    AskedInTurn s o (leaf :: tests) [leaf] answer

mutual

/-- The tests in a test that are no lists, from left to right. -/
def leaves : Test → List Test
  | .anyOf tests => leavesAll tests
  | test => [test]

def leavesAll : List Test → List Test
  | [] => []
  | test :: tests => leaves test ++ leavesAll tests

end

variable {s : Store} {o : Occurrence} {test leaf : Test} {tests : List Test}
  {answer : Except Failure Bool}

theorem leavesAll_eq (tests : List Test) : leavesAll tests = tests.flatMap leaves := by
  induction tests with
  | nil => rfl
  | cons test tests ih => rw [leavesAll, ih, List.flatMap_cons]

/-- The test is no list. -/
def IsLeaf (test : Test) : Prop := ∀ tests, test ≠ .anyOf tests

theorem isLeaf_of_mem_leaves : leaf ∈ test.leaves → leaf.IsLeaf := by
  induction test using Test.induction with
  | anyOf tests ih =>
    intro inside
    rw [leaves, leavesAll_eq] at inside
    obtain ⟨test, listed, below⟩ := List.mem_flatMap.1 inside
    exact ih test listed below
  | _ =>
    intro inside
    obtain rfl := List.mem_singleton.1 inside
    exact nofun

/-- The check of a leaf gives what the leaf tells, which is one thing. -/
theorem tells_iff (h : leaf.IsLeaf) :
    Tells s o leaf answer ↔ leaf.compile.accepts s o = answer := by
  cases leaf with
  | always => exact ⟨fun tells => by cases tells; rfl, fun same => same ▸ .always⟩
  | kind name =>
    have compiled : (Test.kind name).compile.accepts s o =
        .ok (decide (s.kind o.node = name)) := congrArg Except.ok (beq_eq_decide ..)
    exact ⟨fun tells => by cases tells; exact compiled, fun same => same ▸ compiled ▸ .kind⟩
  | fields expected =>
    have all : (expected.entries.all fun field => s.fieldIs o.node field.1 field.2) = true ↔
        ∀ field ∈ expected.entries, s.HasValue o.node field.1 field.2 := by
      simp only [List.all_eq_true, Store.fieldIs_iff]
    constructor
    · intro tells
      cases tells with
      | fields same => exact congrArg Except.ok (Bool.eq_iff_iff.2 (all.trans same.symm))
    · exact fun same => same ▸ .fields all
  | predicate accepts => exact ⟨fun tells => by cases tells; rfl, fun same => same ▸ .predicate⟩
  | anyOf tests => exact absurd rfl (h tests)

theorem firstOf_append (checks others : List Check) :
    Check.firstOf (checks ++ others) s o =
      match Check.firstOf checks s o with
      | .ok false => Check.firstOf others s o
      | answer => answer := by
  induction checks with
  | nil => rfl
  | cons check checks ih =>
    rw [List.cons_append, Check.firstOf, Check.firstOf]
    split
    · exact ih
    · next other => split <;> simp_all

/-- Lists within lists make no difference. -/
theorem accepts_eq_firstOf (test : Test) :
    test.compile.accepts s o = Check.firstOf (test.leaves.map compile) s o := by
  have single : ∀ check : Check, Check.firstOf [check] s o = check.accepts s o := by
    intro check
    rw [Check.firstOf]
    split <;> simp_all [Check.firstOf]
  induction test using Test.induction with
  | anyOf tests ih =>
    rw [compile, compileAll_eq, leaves, leavesAll_eq]
    induction tests with
    | nil => rfl
    | cons test tests rest =>
      have later := rest fun test inside => ih test (by simp [inside])
      rw [List.flatMap_cons, List.map_append, firstOf_append, ← ih test (by simp), ← later]
      rfl
  | _ => exact (single _).symm

/-- By induction on the tests. -/
theorem askedInTurn_iff (leaves : ∀ leaf ∈ tests, leaf.IsLeaf) :
    (∃ asked, AskedInTurn s o tests asked answer) ↔
      Check.firstOf (tests.map compile) s o = answer := by
  induction tests with
  | nil =>
    refine ⟨?_, fun same => ⟨[], same ▸ .exhausted⟩⟩
    rintro ⟨_, _ | _⟩
    rfl
  | cons leaf tests ih =>
    have tells : ∀ answer, Tells s o leaf answer ↔ leaf.compile.accepts s o = answer :=
      fun answer => tells_iff (leaves leaf (by simp))
    have rest := ih fun other inside => leaves other (by simp [inside])
    rw [List.map_cons, Check.firstOf]
    constructor
    · rintro ⟨asked, _ | ⟨refuses, later⟩ | ⟨told, settles⟩⟩
      · rw [(tells _).1 refuses]
        exact rest.1 ⟨_, later⟩
      · rw [(tells _).1 told]
        split <;> simp_all
    · split
      · next refuses =>
        intro same
        obtain ⟨asked, later⟩ := rest.2 same
        exact ⟨leaf :: asked, .refused ((tells _).2 refuses) later⟩
      · next other =>
        rintro rfl
        exact ⟨[leaf], .settled ((tells _).2 rfl) other⟩

theorem Tells.isLeaf (tells : Tells s o leaf answer) : leaf.IsLeaf := by
  cases tells <;> exact nofun

theorem Tells.unique {other : Except Failure Bool} (tells : Tells s o leaf answer)
    (again : Tells s o leaf other) : answer = other :=
  ((tells_iff tells.isLeaf).1 tells).symm.trans ((tells_iff tells.isLeaf).1 again)

namespace AskedInTurn

variable {asked asked' : List Test} {answer' : Except Failure Bool}

theorem unique (h : AskedInTurn s o tests asked answer)
    (k : AskedInTurn s o tests asked' answer') : asked = asked' ∧ answer = answer' := by
  induction h generalizing asked' answer' with
  | exhausted =>
    cases k
    exact ⟨rfl, rfl⟩
  | refused refuses _ ih =>
    cases k with
    | refused _ later =>
      obtain ⟨rfl, rfl⟩ := ih later
      exact ⟨rfl, rfl⟩
    | settled told settles => exact absurd (told.unique refuses) settles
  | settled told settles =>
    cases k with
    | refused refuses _ => exact absurd (told.unique refuses) settles
    | settled told' _ => exact ⟨rfl, told.unique told'⟩

/-- A test that fails in the place of one that is asked makes the answer fail, and one
in a later place is not noticed. -/
theorem set_fails (h : AskedInTurn s o tests asked answer) (i : Nat) (failure : Failure) :
    ∃ asked', AskedInTurn s o (tests.set i (.predicate fun _ _ => .error failure)) asked'
      (if i < asked.length then .error failure else answer) := by
  have fails : Tells s o (.predicate fun _ _ => .error failure) (.error failure) := .predicate
  induction h generalizing i with
  | exhausted => exact ⟨[], .exhausted⟩
  | @refused leaf _ _ _ refuses _ ih =>
    cases i with
    | zero => exact ⟨_, .settled fails nofun⟩
    | succ i =>
      obtain ⟨asked', later⟩ := ih i
      exact ⟨leaf :: asked', .refused refuses (by simpa using later)⟩
  | settled told settles =>
    cases i with
    | zero => exact ⟨_, .settled fails nofun⟩
    | succ i => exact ⟨_, by simpa using .settled told settles⟩

end AskedInTurn

/-- The check gives the answer of the leaves that are asked in turn in the store of the
moment. If a leaf is made to fail, the check fails with it when that leaf is among those
asked, and otherwise gives the same answer as before. -/
theorem compile_asksInTurn (test : Test) (s : Store) (o : Occurrence) :
    ∃ asked, AskedInTurn s o test.leaves asked (test.compile.accepts s o) ∧
      (∀ asked' answer, AskedInTurn s o test.leaves asked' answer →
        asked' = asked ∧ answer = test.compile.accepts s o) ∧
      (test.leaves = [] → test.compile.accepts s o = .ok false) ∧
      ∀ (i : Nat) (failure : Failure) (other : Test),
        other.leaves = test.leaves.set i (.predicate fun _ _ => .error failure) →
        other.compile.accepts s o =
          if i < asked.length then .error failure else test.compile.accepts s o := by
  have asks : ∀ test : Test, ∀ answer, (∃ asked, AskedInTurn s o test.leaves asked answer) ↔
      test.compile.accepts s o = answer := by
    intro test answer
    rw [accepts_eq_firstOf]
    exact askedInTurn_iff fun leaf inside => isLeaf_of_mem_leaves inside
  obtain ⟨asked, here⟩ := (asks test _).2 rfl
  refine ⟨asked, here, fun asked' answer again => again.unique here, fun none => ?_, ?_⟩
  · rw [none] at here
    exact (here.unique .exhausted).2
  · intro i failure other differs
    obtain ⟨asked', later⟩ := here.set_fails i failure
    exact (asks other _).1 ⟨asked', differs ▸ later⟩

/-- An empty list within lists is passed by, and a failure past the first match not met. -/
example (s : Store) (o : Occurrence) :
    (anyOf [anyOf [anyOf []], always, predicate fun _ _ => .error ⟨"late"⟩]).compile.accepts s o =
      .ok true := rfl

end Test
end TreeIndex
