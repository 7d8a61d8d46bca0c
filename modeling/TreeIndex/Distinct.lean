import Std.Data.HashSet

/-!
# Counting distinct values

The number of classes of equal values in a list, counted with a hash set.
Equality must be an equivalence that hashing respects.
-/
namespace TreeIndex

def distinctCount {α : Type} [BEq α] [Hashable α] (values : List α) : Nat :=
  (Std.HashSet.ofList values).size

end TreeIndex
