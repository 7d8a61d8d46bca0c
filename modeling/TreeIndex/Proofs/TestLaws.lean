import TreeIndex.Test

/-!
# Tests by their parts

An induction principle for tests, and the predicates that stand in a test. Only
these can fail: where each of them answers, the whole test does.
-/
namespace TreeIndex

namespace Check

variable {s : Store} {o : Occurrence}

/-- Whether the check accepts the occurrence; a failure is no acceptance. -/
def selects (check : Check) (s : Store) (o : Occurrence) : Bool :=
  match check.accepts s o with
  | .ok answer => answer
  | .error _ => false

theorem selects_of_ok {check : Check} {answer : Bool} (h : check.accepts s o = .ok answer) :
    check.selects s o = answer := by
  simp [selects, h]

/-- Where all of them answer, the first that accepts is found if there is any. -/
theorem firstOf_eq_any {checks : List Check}
    (answers : ∀ check ∈ checks, ∃ answer, check.accepts s o = .ok answer) :
    firstOf checks s o = .ok (checks.any fun check => check.selects s o) := by
  induction checks with
  | nil => rfl
  | cons check checks ih =>
    obtain ⟨⟨answer, here⟩, later⟩ := List.forall_mem_cons.1 answers
    rw [List.any_cons, selects_of_ok here]
    cases answer with
    | true => simp [firstOf, here]
    | false => simp [firstOf, here, ih later]

end Check

namespace Test

/-- What holds of a test when it holds of the tests in its list holds of all. -/
@[elab_as_elim] theorem induction {P : Test → Prop} (always : P .always)
    (kind : ∀ name, P (.kind name)) (fields : ∀ expected, P (.fields expected))
    (predicate : ∀ accepts, P (.predicate accepts))
    (anyOf : ∀ tests, (∀ test ∈ tests, P test) → P (.anyOf tests)) (test : Test) : P test := by
  refine @Test.rec P (fun tests => ∀ test ∈ tests, P test) always kind fields predicate anyOf
    ?nil ?cons test
  case nil => simp
  case cons => simp_all

theorem compileAll_eq (tests : List Test) : compileAll tests = tests.map compile := by
  induction tests with
  | nil => rfl
  | cons test tests ih => rw [compileAll, ih, List.map_cons]

mutual

/-- The predicates in a test, in its lists as well. -/
def predicates : Test → List Predicate
  | .predicate accepts => [accepts]
  | .anyOf tests => predicatesAll tests
  | _ => []

def predicatesAll : List Test → List Predicate
  | [] => []
  | test :: tests => predicates test ++ predicatesAll tests

end

theorem predicatesAll_eq (tests : List Test) : predicatesAll tests = tests.flatMap predicates := by
  induction tests with
  | nil => rfl
  | cons test tests ih => rw [predicatesAll, ih, List.flatMap_cons]

/-- No predicate in the test fails at the occurrence. -/
def AnswersAt (test : Test) (s : Store) (o : Occurrence) : Prop :=
  ∀ accepts ∈ test.predicates, ∃ answer, accepts s o = .ok answer

theorem answersAt_always (s : Store) (o : Occurrence) : always.AnswersAt s o :=
  fun _ inside => absurd inside List.not_mem_nil

theorem exists_accepts {test : Test} {s : Store} {o : Occurrence} (answers : test.AnswersAt s o) :
    ∃ answer, test.compile.accepts s o = .ok answer := by
  induction test using Test.induction with
  | always => exact ⟨true, rfl⟩
  | kind name => exact ⟨_, rfl⟩
  | fields expected => exact ⟨_, rfl⟩
  | predicate accepts => exact answers accepts (by simp [predicates])
  | anyOf tests ih =>
    rw [compile, compileAll_eq]
    refine ⟨_, Check.firstOf_eq_any fun check listed => ?_⟩
    obtain ⟨test, inside, rfl⟩ := List.mem_map.1 listed
    refine ih test inside fun accepts h => answers accepts ?_
    rw [predicates, predicatesAll_eq]
    exact List.mem_flatMap.2 ⟨test, inside, h⟩

end Test
end TreeIndex
