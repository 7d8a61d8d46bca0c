import TreeIndex.Store

/-!
# Counting downward paths

A loop over the tree below a node meets the end of each downward path once, so
the number of these paths is its number of steps. `pathsTo` counts the paths up
to a length. `pathCount` counts all of them without going down each: it keeps
one count a node and goes over the store until no count changes. It is never
less than the number of paths as long as the store is large, which without
cycles are all paths there are.
-/
namespace TreeIndex
namespace Store

def total {α : Type} (f : α → Nat) : List α → Nat
  | [] => 0
  | a :: items => f a + total f items

/-- The number of downward paths from a node of at most the given length. -/
def pathsTo (s : Store) : Nat → NodeId → Nat
  | 0, _ => 1
  | length + 1, n => total (s.pathsTo length) (s.children n) + 1

/-- The count kept for a node; what is no node has one path. -/
def counted (counts : Array Nat) (n : NodeId) : Nat := counts[n.index]?.getD 1

/-- Counts a node anew from the counts of its children. -/
def recount (s : Store) (counts : Array Nat) (index : Nat) : Array Nat :=
  counts.setIfInBounds index (total (counted counts) (s.children ⟨index⟩) + 1)

def sweep (s : Store) (counts : Array Nat) : Array Nat :=
  (List.range s.size).foldl s.recount counts

/-- Sweeps until a sweep changes nothing. -/
def settle (s : Store) : Nat → Array Nat → Array Nat
  | 0, counts => counts
  | rounds + 1, counts =>
    let next := s.sweep counts
    if next.toList = counts.toList then counts else settle s rounds next

/-- The number of downward paths from a node of a store without cycles. -/
def pathCount (s : Store) (n : NodeId) : Nat :=
  counted (s.settle s.size (Array.replicate s.size 1)) n

theorem total_le {α : Type} {f g : α → Nat} (items : List α) (h : ∀ a ∈ items, f a ≤ g a) :
    total f items ≤ total g items := by
  induction items with
  | nil => simp [total]
  | cons a items ih =>
    have first := h a (by simp)
    have others := ih fun b hb => h b (by simp [hb])
    simp only [total]
    omega

theorem pathsTo_le_succ (s : Store) (length : Nat) (n : NodeId) :
    s.pathsTo length n ≤ s.pathsTo (length + 1) n := by
  induction length generalizing n with
  | zero => simp [pathsTo]
  | succ length ih =>
    have := total_le (s.children n) fun child _ => ih child
    simp only [pathsTo] at this ⊢
    omega

/-- Each count is at least the number of paths of the given length. -/
def Covers (s : Store) (counts : Array Nat) (length : Nat) : Prop :=
  counts.size = s.size ∧ ∀ n, s.pathsTo length n ≤ counted counts n

theorem counted_recount (s : Store) (counts : Array Nat) (index : Nat) (n : NodeId)
    (bound : index < counts.size) :
    counted (s.recount counts index) n =
      if index = n.index then total (counted counts) (s.children ⟨index⟩) + 1
      else counted counts n := by
  by_cases h : index = n.index
  · simp [counted, recount, h, h ▸ bound]
  · simp [counted, recount, h]

/-- The nodes that a sweep has come to are covered one step further. -/
theorem covers_fold {s : Store} {length : Nat} (indexes : List Nat) (counts : Array Nat)
    (done : List Nat) (small : ∀ i ∈ indexes, i < s.size) (covers : s.Covers counts length)
    (further : ∀ n : NodeId, n.index ∈ done → s.pathsTo (length + 1) n ≤ counted counts n) :
    s.Covers (indexes.foldl s.recount counts) length ∧
      ∀ n : NodeId, n.index ∈ indexes ++ done →
        s.pathsTo (length + 1) n ≤ counted (indexes.foldl s.recount counts) n := by
  induction indexes generalizing counts done with
  | nil => exact ⟨covers, by simpa using further⟩
  | cons i indexes ih =>
    have bound : i < counts.size := covers.1 ▸ small i (by simp)
    have new : ∀ n : NodeId, n.index = i →
        s.pathsTo (length + 1) n ≤ counted (s.recount counts i) n := by
      intro n h
      have here : n = ⟨i⟩ := by cases n; simp_all
      subst here
      have := total_le (s.children ⟨i⟩) fun child _ => covers.2 child
      simp only [counted_recount s counts i ⟨i⟩ bound, pathsTo, if_true]
      omega
    have old : ∀ n : NodeId, n.index ≠ i → counted (s.recount counts i) n = counted counts n := by
      intro n h
      simp [counted_recount s counts i n bound, Ne.symm h]
    have next : s.Covers (s.recount counts i) length := by
      refine ⟨by simpa [recount] using covers.1, fun n => ?_⟩
      by_cases h : n.index = i
      · exact Nat.le_trans (pathsTo_le_succ s length n) (new n h)
      · rw [old n h]; exact covers.2 n
    have result := ih (s.recount counts i) (i :: done) (fun j hj => small j (by simp [hj])) next
      fun n h => by
        by_cases e : n.index = i
        · exact new n e
        · rw [old n e]
          exact further n (by simpa [e] using h)
    exact ⟨result.1, fun n h => result.2 n (by simpa [or_left_comm] using h)⟩

theorem covers_sweep {s : Store} {counts : Array Nat} {length : Nat}
    (covers : s.Covers counts length) : s.Covers (s.sweep counts) (length + 1) := by
  have result := covers_fold (List.range s.size) counts [] (by simp) covers (by simp)
  refine ⟨result.1.1, fun n => ?_⟩
  by_cases h : n.index < s.size
  · exact result.2 n (by simpa using h)
  · have none : s.children n = [] := by
      have out : s.nodes[n.index]? = none := by simpa [size] using h
      simp only [children, data, out]
      rfl
    have one := result.1.2 n
    have least : 1 ≤ s.pathsTo length n := by cases length <;> simp [pathsTo]
    simp only [pathsTo, none, total, sweep]
    omega

theorem covers_settle {s : Store} {counts : Array Nat} {length : Nat} (rounds : Nat)
    (covers : s.Covers counts length) :
    s.Covers (s.settle rounds counts) (length + rounds) := by
  induction rounds generalizing counts length with
  | zero => exact covers
  | succ rounds ih =>
    have next := covers_sweep covers
    by_cases h : (s.sweep counts).toList = counts.toList
    · have still : s.sweep counts = counts := Array.toList_inj.1 h
      have always : ∀ k, s.Covers counts (length + k) := by
        intro k
        induction k with
        | zero => exact covers
        | succ k more => exact still ▸ covers_sweep more
      simpa [settle, h] using always (rounds + 1)
    · have := ih next
      simpa [settle, h, Nat.add_assoc, Nat.add_comm 1 rounds] using this

theorem pathsTo_le_pathCount (s : Store) (n : NodeId) : s.pathsTo s.size n ≤ s.pathCount n := by
  have start : s.Covers (Array.replicate s.size 1) 0 := by
    refine ⟨by simp, fun n => ?_⟩
    by_cases h : n.index < s.size <;> simp [pathsTo, counted, h]
  have := (covers_settle s.size start).2 n
  simpa [pathCount] using this

end Store
end TreeIndex
