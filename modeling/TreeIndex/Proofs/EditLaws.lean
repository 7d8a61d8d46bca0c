import TreeIndex.Edit
import TreeIndex.Proofs.GroundedPaths

/-!
# What an edit changes

Every edit changes one record, that of its target, and of this record either the
child list or the kind and the fields, never both. What can be reached from a
node, and that it has no cycles below, depends only on the child lists of the
nodes that can be reached.
-/
namespace TreeIndex

namespace Store

variable {s t : Store} {n m root : NodeId} {f : NodeData → NodeData}

theorem update_of_not_holds (h : ¬ s.Holds n) (f : NodeData → NodeData) : s.update n f = s := by
  have out : s.nodes.size ≤ n.index := by simpa [Holds, size] using h
  have same : s.nodes.modify n.index f = s.nodes := by
    refine Array.ext (by simp) fun i _ bound => ?_
    have : n.index ≠ i := by omega
    simp [Array.getElem_modify, this]
  rw [update, same]

theorem update_id (s : Store) (n : NodeId) : s.update n id = s := by
  have same : s.nodes.modify n.index id = s.nodes :=
    Array.ext (by simp) fun i _ _ => by simp [Array.getElem_modify]
  rw [update, same]

/-- An update changes at most the record of its node, and that one as told. -/
theorem data_update_cases (s : Store) (n m : NodeId) (f : NodeData → NodeData) :
    (s.update n f).data m = s.data m ∨
      n = m ∧ s.Holds n ∧ (s.update n f).data m = f (s.data m) := by
  by_cases held : s.Holds n
  · rw [data_update s n m f held]
    by_cases here : n = m
    · exact .inr ⟨here, held, if_pos here⟩
    · exact .inl (if_neg here)
  · exact .inl (by rw [update_of_not_holds held])

theorem data_update_of_ne (h : n ≠ m) : (s.update n f).data m = s.data m := by
  obtain same | ⟨here, _⟩ := s.data_update_cases n m f
  · exact same
  · exact absurd here h

/-- What the change of a record keeps, the update keeps of every record. -/
theorem congr_data_update {α : Type} (g : NodeData → α) (kept : ∀ data, g (f data) = g data) :
    g ((s.update n f).data m) = g (s.data m) := by
  obtain same | ⟨_, _, changed⟩ := s.data_update_cases n m f
  · rw [same]
  · rw [changed, kept]

/-- The same nodes are reached if those reached have the same children. -/
theorem reaches_iff_of_children (same : ∀ m, s.Reaches root m → t.children m = s.children m) :
    t.Reaches root n ↔ s.Reaches root n := by
  constructor
  · intro down
    induction down with
    | refl => exact .refl
    | tail _ below ih => exact ih.tail (by rwa [← same _ ih])
  · intro down
    induction down with
    | refl => exact .refl
    | tail up below ih => exact ih.tail (by rwa [same _ up])

theorem AcyclicBelow.of_children (h : s.AcyclicBelow root)
    (same : ∀ m, s.Reaches root m → t.children m = s.children m) : t.AcyclicBelow root := by
  have grounded : s.Grounded root := h.grounded
  refine grounded_iff_acyclicBelow.1 ?_
  refine grounded.induction (P := fun n => (∀ m, s.Reaches n m → t.children m = s.children m) →
    t.Grounded n) (fun n _ ih same => Acc.intro n fun child below => ?_) same
  have here : child ∈ s.children n := by rwa [← same n .refl]
  exact ih child here fun m down => same m (.head here down)

end Store

namespace Edit

variable {s : Store} {edit : Edit} {m : NodeId}

/-- An edit is an update of its target that keeps one half of the record. -/
theorem apply_eq_update (edit : Edit) (s : Store) :
    ∃ f, edit.apply s = s.update edit.target f ∧
      (edit.ofChildren = false → ∀ data, (f data).children = data.children) ∧
      (edit.ofChildren = true → ∀ data, (f data).kind = data.kind ∧
        (f data).fields = data.fields) := by
  cases edit with
  | setKind n kind => exact ⟨_, rfl, fun _ _ => rfl, nofun⟩
  | setField n name value =>
    by_cases named : name = "type"
    · cases value with
      | text kind =>
        refine ⟨fun data => { data with kind := kind }, ?_, fun _ _ => rfl, nofun⟩
        simp [apply, Store.setField, Store.setKind, target, named]
      | _ =>
        refine ⟨id, ?_, fun _ _ => rfl, nofun⟩
        simp [apply, Store.setField, Store.update_id, named]
    · refine ⟨fun data => { data with fields := data.fields.insert name value }, ?_,
        fun _ _ => rfl, nofun⟩
      simp [apply, Store.setField, target, named]
  | removeField n name => exact ⟨_, rfl, fun _ _ => rfl, nofun⟩
  | pushChild n child => exact ⟨_, rfl, nofun, fun _ _ => ⟨rfl, rfl⟩⟩
  | insertChild n index child => exact ⟨_, rfl, nofun, fun _ _ => ⟨rfl, rfl⟩⟩
  | removeChild n index => exact ⟨_, rfl, nofun, fun _ _ => ⟨rfl, rfl⟩⟩
  | setChildren n children => exact ⟨_, rfl, nofun, fun _ _ => ⟨rfl, rfl⟩⟩

/-- An edit leaves every other node alone. -/
theorem data_apply_of_ne (h : edit.target ≠ m) : (edit.apply s).data m = s.data m := by
  obtain ⟨f, update, _⟩ := edit.apply_eq_update s
  rw [update, Store.data_update_of_ne h]

theorem children_apply (h : edit.ofChildren = false) (m : NodeId) :
    (edit.apply s).children m = s.children m := by
  obtain ⟨f, update, kept, _⟩ := edit.apply_eq_update s
  have same := s.congr_data_update (n := edit.target) (m := m) NodeData.children (kept h)
  rw [update, Store.children, NodeData.childList, same]
  rfl

theorem field?_apply (h : edit.ofChildren = true) (m : NodeId) (name : String) :
    (edit.apply s).field? m name = s.field? m name := by
  obtain ⟨f, update, _, kept⟩ := edit.apply_eq_update s
  have kind := s.congr_data_update (n := edit.target) (m := m) NodeData.kind
    fun data => (kept h data).1
  have fields := s.congr_data_update (n := edit.target) (m := m) NodeData.fields
    fun data => (kept h data).2
  rw [update, Store.field?, Store.kind, Store.fields, kind, fields]
  rfl

variable {edits : List Edit}

theorem data_applyAll_of_ne (h : ∀ edit ∈ edits, edit.target ≠ m) :
    (applyAll edits s).data m = s.data m := by
  induction edits generalizing s with
  | nil => rfl
  | cons edit edits ih =>
    have rest := ih (s := edit.apply s) fun e listed => h e (by simp [listed])
    rw [applyAll, List.foldl_cons, ← applyAll, rest, data_apply_of_ne (h edit (by simp))]

theorem children_applyAll (h : ∀ edit ∈ edits, edit.ofChildren = false) (m : NodeId) :
    (applyAll edits s).children m = s.children m := by
  induction edits generalizing s with
  | nil => rfl
  | cons edit edits ih =>
    have rest := ih (s := edit.apply s) fun e listed => h e (by simp [listed])
    rw [applyAll, List.foldl_cons, ← applyAll, rest, children_apply (h edit (by simp))]

end Edit
end TreeIndex
