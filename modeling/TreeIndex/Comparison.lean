import TreeIndex.Structural

/-!
# Runs of the comparison

The comparison of two trees as it runs with its shortcut for a node and itself, and
as it would run without.
-/
namespace TreeIndex
namespace Store

/-- A run of the comparison: from the pairs still to be compared, its turns and its
answer. With the shortcut a pair of one node is dropped at once; without it such a
pair is compared like any other. No bound is set to the turns. -/
inductive Compared (s : Store) (shortcut : Bool) : Nat → List (NodeId × NodeId) → Bool → Prop
  | done : Compared s shortcut 0 [] true
  | same {turns a pending answer} : shortcut = true → Compared s shortcut turns pending answer →
    Compared s shortcut (turns + 1) ((a, a) :: pending) answer
  | differ {a b pending} : (shortcut = true → a ≠ b) → s.childPairs a b = none →
    Compared s shortcut 1 ((a, b) :: pending) false
  | descend {turns a b pairs pending answer} : (shortcut = true → a ≠ b) →
    s.childPairs a b = some pairs →
    Compared s shortcut turns (pairs.reverse ++ pending) answer →
    Compared s shortcut (turns + 1) ((a, b) :: pending) answer

end Store
end TreeIndex
