import TreeIndex.Session
import TreeIndex.Proofs.TableLaws

/-!
# Changes in place leave nothing half done

An index that is changed where it lies becomes what adding and removing make of it,
or it is as it was. So the steps of a session that fail leave nothing behind: a run
ends as if only the others had been taken.
-/
namespace TreeIndex

theorem OpenTable.push_of_absent {table : OpenTable} {key : Key} (n : NodeId)
    (absent : ∀ bucket ∈ table, (bucket.key == key) = false) : table.push key n = table := by
  have same : table.push key n = table.map id :=
    List.map_congr_left fun bucket here => if_neg (by simp [absent bucket here])
  rw [same, List.map_id]

namespace Table

variable {key : Key} {n : NodeId}

theorem opened_cons (bucket : Bucket) (table : Table) :
    opened (bucket :: table) = bucket.opened :: opened table := rfl

theorem any_opened (table : Table) :
    (table.opened.any fun bucket => bucket.key == key) =
      table.any fun bucket => bucket.key == key := by
  rw [opened, List.any_map]
  rfl

theorem opened_map_add (table : Table) :
    opened (table.map fun bucket => if bucket.key == key then bucket.add n else bucket) =
      table.opened.push key n := by
  rw [opened, opened, OpenTable.push, List.map_map, List.map_map]
  refine List.map_congr_left fun bucket _ => ?_
  by_cases same : bucket.key == key <;> by_cases old : n ∈ bucket.nodes <;>
    simp [Bucket.opened, Bucket.nodes_add, same, old]

/-- A node is added to an open bucket, which may have been opened for it. -/
theorem opened_add (table : Table) :
    opened (table.add key n) = (table.opened.entry key).push key n := by
  rw [add, OpenTable.entry, any_opened]
  split
  · exact opened_map_add table
  · next absent =>
    rw [← any_opened, Bool.not_eq_true, List.any_eq_false] at absent
    have others := OpenTable.push_of_absent n fun bucket here => by simpa using absent bucket here
    rw [OpenTable.push, List.map_cons, ← OpenTable.push, others, opened_cons]
    simp [Bucket.opened]

/-- What is left of the bucket of a key without a node, as long as it is open. -/
theorem prune_takeOut_cons (bucket : OpenBucket) (table : OpenTable) :
    OpenTable.prune key (OpenTable.takeOut key n (bucket :: table)) =
      (if bucket.key == key then
        if bucket.nodes.erase n = [] then [] else [⟨bucket.key, bucket.nodes.erase n⟩]
      else [bucket]) ++ (table.takeOut key n).prune key := by
  rw [OpenTable.takeOut, List.map_cons, ← OpenTable.takeOut, OpenTable.prune, List.filter_cons,
    ← OpenTable.prune]
  by_cases same : bucket.key == key
  · by_cases empty : bucket.nodes.erase n = [] <;> simp [same, empty]
  · simp [same]

theorem opened_remove? (bucket : Bucket) :
    opened (bucket.remove? n).toList =
      if bucket.nodes.erase n = [] then [] else [⟨bucket.key, bucket.nodes.erase n⟩] := by
  have left := bucket.nodes_remove? n
  cases rest : bucket.remove? n with
  | none =>
    rw [rest] at left
    exact (if_pos left.symm).symm
  | some rest' =>
    rw [rest] at left
    have kept : bucket.nodes.erase n = rest'.nodes := left.symm
    rw [kept, if_neg (nodes_ne_nil rest'), ← Bucket.key_remove? rest]
    rfl

/-- A node is taken out of an open bucket, which is dropped if nothing is left of it. -/
theorem opened_remove (table : Table) :
    opened (table.remove key n) = (table.opened.takeOut key n).prune key := by
  induction table with
  | nil => rfl
  | cons bucket table ih =>
    have apart (left : Option Bucket) : opened (left.toList ++ remove key n table) =
        opened left.toList ++ opened (remove key n table) := List.map_append
    rw [remove_cons, apart, ih, opened_cons, prune_takeOut_cons]
    refine congrArg (· ++ _) ?_
    by_cases same : bucket.key == key
    · rw [if_pos same, opened_remove?]
      exact (if_pos same).symm
    · rw [if_neg same]
      exact (if_neg same).symm

end Table

/-- In between the bucket of a key may be empty. -/
example : OpenTable.takeOut .missing ⟨0⟩ [⟨.missing, [⟨0⟩]⟩] = [⟨.missing, []⟩] := rfl

/-- What a result makes of a state in view, or the state as it was if there is none. -/
def allOrNothing {α β : Type} (view : α → β) (before : α) :
    Except Failure α → Except Failure Unit × β
  | .ok after => (.ok (), view after)
  | .error failure => (.error failure, view before)

namespace OpenIndex

theorem applied_rewrite (f : OpenTable → OpenTable) (index : OpenIndex) :
    applied (rewrite f) index = (.ok (), { index with table := f index.table }) := rfl

theorem applied_rewrite_bind (f : OpenTable → OpenTable) (later : Change Unit)
    (index : OpenIndex) : applied (do rewrite f; later) index =
      applied later { index with table := f index.table } := rfl

/-- Nothing is touched before there is a key. -/
theorem applied_keyOf_bind (s : Store) (n : NodeId) (later : Key → Change Unit)
    (index : OpenIndex) : applied (do later (← keyOf s n)) index =
      match index.key s n with
      | .ok key => applied (later key) index
      | .error failure => (.error failure, index) := by
  have asked : applied (do later (← keyOf s n)) index =
      applied (do later (← MonadExcept.ofExcept (index.key s n))) index := rfl
  rw [asked]
  cases index.key s n <;> rfl

/-- If a change achieves an operation once there is a key, it is done or nothing is. -/
theorem applied_keyed {later : Key → Change Unit} {operation : Key → Table → Table}
    (achieves : ∀ (key : Key) (index : Index), applied (later key) index.opened =
      (.ok (), Index.opened { index with table := operation key index.table }))
    (index : Index) (s : Store) (n : NodeId) :
    applied (do later (← keyOf s n)) index.opened =
      allOrNothing Index.opened index
        ((index.keyOf s n).map fun key => { index with table := operation key index.table }) := by
  have start : index.opened.key s n = index.keyOf s n := rfl
  rw [applied_keyOf_bind, start]
  cases index.keyOf s n with
  | error failure => rfl
  | ok key => exact achieves key index

theorem applied_add (index : Index) (s : Store) (n : NodeId) :
    applied (add s n) index.opened = allOrNothing Index.opened index (index.add s n) := by
  refine applied_keyed (fun key index => ?_) index s n
  rw [applied_rewrite_bind, applied_rewrite, Index.opened, Index.opened, Table.opened_add]

theorem applied_remove (index : Index) (s : Store) (n : NodeId) :
    applied (remove s n) index.opened = allOrNothing Index.opened index (index.remove s n) := by
  refine applied_keyed (fun key index => ?_) index s n
  rw [applied_rewrite_bind, applied_rewrite, Index.opened, Index.opened, Table.opened_remove]

end OpenIndex

namespace World

variable {ι τ : Type}

theorem opened_setIndex (w : World (Session Index τ)) (place : Nat) (index : Index) :
    (w.setIndex place index).opened = w.opened.setIndex place index.opened := by
  simp [opened, setIndex, List.map_set]

theorem opened_withIndex (w : World (Session Index τ)) (index : Index) :
    (w.withIndex index).opened = w.opened.withIndex index.opened := by
  simp [opened, withIndex]

theorem setIndex_of_getElem? {w : World (Session ι τ)} {place : Nat} {index : ι}
    (here : w.state.indexes[place]? = some index) : w.setIndex place index = w := by
  obtain ⟨inside, rfl⟩ := List.getElem?_eq_some_iff.1 here
  simp [setIndex]

end World

namespace Step

variable {τ : Type}

theorem changeAt_opened {change : OpenIndex.Change Unit}
    {operation : Index → Except Failure Index}
    (achieves : ∀ index : Index, OpenIndex.applied change index.opened =
      allOrNothing Index.opened index (operation index))
    (place : Nat) (w : World (Session Index τ)) :
    changeAt place change w.opened = allOrNothing World.opened w (replaceAt place operation w) := by
  have listed : w.opened.state.indexes[place]? = w.state.indexes[place]?.map Index.opened :=
    List.getElem?_map
  rw [changeAt, replaceAt, listed]
  cases here : w.state.indexes[place]? with
  | none => rfl
  | some index =>
    simp only [Option.map_some, achieves]
    cases operation index with
    | ok changed => exact congrArg (Prod.mk (Except.ok ())) (w.opened_setIndex place changed).symm
    | error failure =>
      have kept := World.setIndex_of_getElem? (listed.trans (congrArg _ here))
      exact congrArg (Prod.mk (Except.error failure)) kept

/-- A step is done or it leaves nothing behind. -/
theorem take_opened (step : Step τ) (w : World (Session Index τ)) :
    step.take w.opened = allOrNothing World.opened w (step.perform w) := by
  cases step with
  | edit change => rfl
  | keep change => rfl
  | create spec => exact congrArg (Prod.mk (Except.ok ())) (w.opened_withIndex _).symm
  | add place n => exact changeAt_opened (fun index => OpenIndex.applied_add index _ n) place w
  | remove place n =>
    exact changeAt_opened (fun index => OpenIndex.applied_remove index _ n) place w

/-- The steps, none of which fails, lead from a world to the other. -/
def LeadTo (steps : List (Step τ)) (w : World (Session Index τ))
    (v : World (Session OpenIndex τ)) : Prop :=
  ∃ w₁, performAll steps w = .ok w₁ ∧ v = w₁.opened

variable {steps others : List (Step τ)} {w w₁ : World (Session Index τ)}
  {v : World (Session OpenIndex τ)}

theorem LeadTo.cons {step : Step τ} (first : step.perform w = .ok w₁)
    (later : LeadTo steps w₁ v) : LeadTo (step :: steps) w v := by
  obtain ⟨w₂, performed, rfl⟩ := later
  exact ⟨w₂, by rw [performAll, first]; exact performed, rfl⟩

theorem LeadTo.append (first : performAll steps w = .ok w₁) (later : LeadTo others w₁ v) :
    LeadTo (steps ++ others) w v := by
  induction steps generalizing w with
  | nil =>
    cases first
    exact later
  | cons step steps ih =>
    cases here : step.perform w with
    | error failure => simp [performAll, here] at first
    | ok w₂ =>
      simp only [performAll, here] at first
      exact (ih first).cons here

/-- To take such steps in place leads there too. -/
theorem LeadTo.takeAll_eq (h : LeadTo steps w v) : takeAll steps w.opened = v := by
  obtain ⟨w₁, performed, rfl⟩ := h
  induction steps generalizing w with
  | nil =>
    cases performed
    rfl
  | cons step steps ih =>
    cases here : step.perform w with
    | error failure => simp [performAll, here] at performed
    | ok w₂ =>
      simp only [performAll, here] at performed
      rw [takeAll, List.foldl_cons, step.take_opened, here]
      exact ih performed

/-- Between steps no bucket is empty. -/
theorem LeadTo.nodes_ne_nil (h : LeadTo steps w v) :
    ∀ index ∈ v.state.indexes, ∀ bucket ∈ index.table, bucket.nodes ≠ [] := by
  obtain ⟨w₁, _, rfl⟩ := h
  intro _ listed _ stored
  obtain ⟨index, _, rfl⟩ := List.mem_map.1 listed
  obtain ⟨bucket, _, rfl⟩ := List.mem_map.1 stored
  exact Table.nodes_ne_nil bucket

/-- A run ends like the run of its completed steps, in which none fails. -/
theorem leadTo_completed (steps : List (Step τ)) (w : World (Session Index τ)) :
    LeadTo (completed steps w.opened) w (takeAll steps w.opened) := by
  induction steps generalizing w with
  | nil => exact ⟨w, rfl, rfl⟩
  | cons step steps ih =>
    rw [takeAll, List.foldl_cons, completed, step.take_opened]
    cases here : step.perform w with
    | error failure => exact ih w
    | ok w₁ => exact (ih w₁).cons here

end Step
end TreeIndex
