import TreeIndex.Proofs.PreOrder
import TreeIndex.Proofs.TableLaws
import TreeIndex.Proofs.TestLaws

/-!
# The index of a tree as a grouping

The index of a tree groups the nodes met in pre-order: under each key it lists
the nodes with that key that match the test where they are met, each once, by
the first place where it matches. So its buckets divide the matching nodes among
themselves. It is the index that one gets by walking with the test itself and
adding every node reported.

Looked up by the value of a field, it gives what a walk finds by the test for
that value.
-/
namespace TreeIndex

/-- Whether the node has a key equal to the given one. -/
def KeyFunction.assigns (key : KeyFunction) (s : Store) (k : Key) (n : NodeId) : Bool :=
  match key s n with
  | .ok own => own == k
  | .error _ => false

theorem KeyFunction.assigns_of_ok {key : KeyFunction} {s : Store} {n : NodeId} {own : Key}
    (h : key s n = .ok own) (k : Key) : key.assigns s k n = (own == k) := by
  simp [KeyFunction.assigns, h]

theorem KeyFunction.beq_of_assigns {key : KeyFunction} {s : Store} {n : NodeId} {k k' : Key}
    (h : key.assigns s k n = true) (h' : key.assigns s k' n = true) : (k == k') = true := by
  cases own : key s n with
  | error failure => simp [KeyFunction.assigns, own] at h
  | ok own' =>
    rw [KeyFunction.assigns_of_ok own] at h h'
    rwa [← BEq.congr_left h]

/-- The nodes at the occurrences that the check accepts, as often as it does. -/
def Check.nodes (check : Check) (s : Store) (met : List Occurrence) : List NodeId :=
  (met.filter (check.selects s)).map Occurrence.node

namespace Check

variable {check : Check} {s : Store} {o : Occurrence} (met : List Occurrence)

theorem nodes_refused (h : check.accepts s o = .ok false) :
    check.nodes s (o :: met) = check.nodes s met := by
  simp [nodes, selects_of_ok h]

theorem nodes_accepted (h : check.accepts s o = .ok true) :
    check.nodes s (o :: met) = o.node :: check.nodes s met := by
  simp [nodes, selects_of_ok h]

theorem nodes_always : Test.always.compile.nodes s met = met.map Occurrence.node := by
  have all : ∀ o ∈ met, Test.always.compile.selects s o = true := fun _ _ => rfl
  rw [nodes, List.filter_eq_self.2 all]

end Check

namespace Table

variable {table : Table} {key k k' : Key} {n : NodeId}

theorem get_congr (h : k == k') : get k table = get k' table := by
  induction table with
  | nil => rfl
  | cons bucket table ih => rw [get_cons, get_cons, BEq.congr_right h, ih]

/-- Adding a node gives its key one more node at the end, unless it was there. -/
theorem eraseDups_get_add (key : Key) (n : NodeId) (table : Table) (later : List NodeId) :
    (get k (add key n table) ++ later).eraseDups =
      (get k table ++ ((if key == k then [n] else []) ++ later)).eraseDups := by
  rw [get_add]
  by_cases same : key == k
  · by_cases old : n ∈ get k table
    · simp [same, old, List.eraseDups_append, List.cons_removeAll]
    · simp [same, old]
  · simp [same]

end Table

theorem eraseDups_of_nodup {nodes : List NodeId} (h : nodes.Nodup) : nodes.eraseDups = nodes := by
  induction nodes with
  | nil => rfl
  | cons n nodes ih =>
    obtain ⟨new, rest⟩ := List.nodup_cons.1 h
    have kept : (nodes.filter fun m => !m == n) = nodes :=
      List.filter_eq_self.2 fun m here => by simpa using fun same : m = n => new (same ▸ here)
    rw [List.eraseDups_cons, kept, ih rest]

open Traversal Store

namespace Index

variable {s : Store} {check : Check} {index : Index} {o : Occurrence} {w : World Index}

theorem add_of_ok {n : NodeId} {key : Key} (h : index.key s n = .ok key) :
    index.add s n = .ok ⟨index.key, index.table.add key n⟩ := by
  simp [Index.add, keyOf, h, Except.map]

theorem adder_steady : adder.Steady where
  store_eq o w := by
    unfold adder
    split <;> rfl
  descends o w := by
    unfold adder
    split <;> simp

theorem collector_of_accepts (h : check.accepts w.store o = .ok true) :
    collector check o w = adder o w := by
  cases added : w.state.add w.store o.node <;> simp [collector, adder, h, added]

theorem collector_steady (check : Check) : (collector check).Steady where
  store_eq o w := by
    cases h : check.accepts w.store o with
    | error failure => simp [collector, h]
    | ok answer =>
      cases answer with
      | false => simp [collector, h]
      | true => rw [collector_of_accepts h, adder_steady.store_eq]
  descends o w := by
    cases h : check.accepts w.store o with
    | error failure => simp [collector, h]
    | ok answer =>
      cases answer with
      | false => simp [collector, h]
      | true =>
        rw [collector_of_accepts h]
        exact adder_steady.descends o w

/-- Collecting on a walk that accepts all is adding on a walk that asks the check. -/
theorem inTurn_collector (met : List Occurrence) (w : World Index) :
    inTurn .always (collector check) met w = inTurn check adder met w := by
  induction met generalizing w with
  | nil => rfl
  | cons o met ih =>
    have all : Check.always.accepts w.store o = .ok true := rfl
    cases meeting check adder o w with
    | checkFails failure hc =>
      have hv : collector check o w = (.error failure, w) := by simp [collector, hc]
      rw [inTurn_checkFails _ hc, inTurn_visitFails _ all hv]
    | refused hc =>
      have hv : collector check o w = (.ok .proceed, w) := by simp [collector, hc]
      rw [inTurn_refused _ hc, inTurn_proceeds _ all hv, ih]
    | visitFails failure w₁ hc hv =>
      rw [inTurn_visitFails _ hc hv,
        inTurn_visitFails _ all ((collector_of_accepts hc).trans hv)]
    | exits w₁ hc hv =>
      rw [inTurn_exits _ hc hv, inTurn_exits _ all ((collector_of_accepts hc).trans hv)]
    | skips w₁ hc hv => exact absurd (congrArg Prod.fst hv) (adder_steady.descends o w)
    | proceeds w₁ hc hv =>
      rw [inTurn_proceeds _ hc hv, inTurn_proceeds _ all ((collector_of_accepts hc).trans hv), ih]

/-- What adding the nodes of some occurrences makes of an index. -/
structure Gathers (check : Check) (s : Store) (met : List Occurrence) (index gathered : Index) :
    Prop where
  key_eq : gathered.key = index.key
  distinct : index.table.DistinctKeys → gathered.table.DistinctKeys
  get_eq : ∀ k, gathered.get k =
    (index.get k ++ (check.nodes s met).filter (index.key.assigns s k)).eraseDups

/-- By induction on the occurrences. -/
theorem exists_gathers (index : Index) {met : List Occurrence}
    (answers : ∀ o ∈ met, ∃ answer, check.accepts s o = .ok answer)
    (keyed : ∀ o ∈ met, ∃ key, index.key s o.node = .ok key) :
    ∃ gathered, inTurn check adder met ⟨s, index⟩ = (.completed, ⟨s, gathered⟩) ∧
      Gathers check s met index gathered := by
  induction met generalizing index with
  | nil =>
    refine ⟨index, rfl, rfl, id, fun k => ?_⟩
    have once : (index.get k).Nodup := Table.nodup_get
    simpa [Check.nodes] using (eraseDups_of_nodup once).symm
  | cons o met ih =>
    obtain ⟨answer, hc⟩ := answers o (by simp)
    have later := fun b (h : b ∈ met) => answers b (by simp [h])
    cases answer with
    | false =>
      obtain ⟨gathered, run, result⟩ := ih index later fun b h => keyed b (by simp [h])
      refine ⟨gathered, by rw [inTurn_refused _ hc, run], result.key_eq, result.distinct, ?_⟩
      rw [Check.nodes_refused met hc]
      exact result.get_eq
    | true =>
      obtain ⟨key, hk⟩ := keyed o (by simp)
      have hv : adder o ⟨s, index⟩ =
          (.ok .proceed, ⟨s, ⟨index.key, index.table.add key o.node⟩⟩) := by
        simp [adder, add_of_ok hk]
      obtain ⟨gathered, run, result⟩ :=
        ih ⟨index.key, index.table.add key o.node⟩ later
          fun b h => keyed b (by simp [h])
      refine ⟨gathered, by rw [inTurn_proceeds _ hc hv, run], result.key_eq, ?_, fun k => ?_⟩
      · exact fun distinct => result.distinct distinct.add
      · have here : (check.nodes s (o :: met)).filter (index.key.assigns s k) =
            (if key == k then [o.node] else []) ++
              (check.nodes s met).filter (index.key.assigns s k) := by
          rw [Check.nodes_accepted met hc, List.filter_cons, KeyFunction.assigns_of_ok hk]
          split <;> rfl
        rw [result.get_eq, here]
        exact Table.eraseDups_get_add key o.node index.table _

/-- A walk in either direction collects what adding at its occurrences gathers. -/
theorem exists_ofTreeBy (spec : KeySpec) {test : Test} {root : NodeId} (direction : Direction)
    (acyclic : s.AcyclicBelow root)
    (answers : ∀ o ∈ s.occurrences direction root, test.AnswersAt s o)
    (keyed : ∀ o ∈ s.occurrences direction root, ∃ key, spec.key s o.node = .ok key) :
    ∃ index, ofTreeBy (.preOrder direction) spec (some root) test s = .ok index ∧
      Gathers test.compile s (s.occurrences direction root) (new spec) index ∧
      ∀ steps, s.pathCount root ≤ steps →
        visit direction test adder steps root ⟨s, new spec⟩ = (.completed, ⟨s, index⟩) := by
  obtain ⟨index, run, gathers⟩ := exists_gathers (new spec)
    (fun o h => Test.exists_accepts (answers o h)) keyed
  refine ⟨index, ?_, gathers, fun steps enough => ?_⟩
  · simp only [ofTreeBy, (collector_steady _).run_preOrder (w := ⟨s, new spec⟩) acyclic,
      inTurn_collector, run]
  · rw [visit, adder_steady.walk_alone (w := ⟨s, new spec⟩) acyclic enough, run]

/-- The buckets have all the nodes, each in one of them. -/
structure Partitions (index : Index) (nodes : List NodeId) : Prop where
  covers : ∀ n, (∃ k ∈ index.keys, n ∈ index.get k) ↔ n ∈ nodes
  apart : index.keys.Pairwise fun a b => (index.get a).Disjoint (index.get b)
  occupied : ∀ k ∈ index.keys, index.get k ≠ []

theorem Gathers.get_eq_new {met : List Occurrence} {spec : KeySpec}
    (gathers : Gathers check s met (new spec) index) (k : Key) :
    index.get k = ((check.nodes s met).filter (spec.key.assigns s k)).eraseDups := by
  simpa [new, Index.get] using gathers.get_eq k

theorem exists_key_iff {k : Key} : (∃ stored ∈ index.keys, stored == k) ↔ index.get k ≠ [] := by
  rw [Index.get, ← Table.exists_key_iff]
  simp [keys]

theorem get_congr {k k' : Key} (h : k == k') : index.get k = index.get k' := Table.get_congr h

theorem Gathers.partitions {met : List Occurrence} {spec : KeySpec}
    (gathers : Gathers check s met (new spec) index)
    (keyed : ∀ o ∈ met, ∃ key, spec.key s o.node = .ok key) :
    index.Partitions (check.nodes s met) := by
  have mem_get : ∀ k n, n ∈ index.get k ↔
      n ∈ check.nodes s met ∧ spec.key.assigns s k n = true := by
    intro k n
    rw [gathers.get_eq_new, List.mem_eraseDups, List.mem_filter]
  refine ⟨fun n => ⟨?_, fun here => ?_⟩, ?_, fun k stored => ?_⟩
  · rintro ⟨k, _, inside⟩
    exact ((mem_get k n).1 inside).1
  · obtain ⟨o, listed, rfl⟩ := List.mem_map.1 here
    obtain ⟨own, hk⟩ := keyed o (List.mem_filter.1 listed).1
    have inside : o.node ∈ index.get own := by
      rw [mem_get, KeyFunction.assigns_of_ok hk]
      exact ⟨here, BEq.rfl⟩
    obtain ⟨stored, listed, same⟩ := exists_key_iff.2 (List.ne_nil_of_mem inside)
    refine ⟨stored, listed, ?_⟩
    rwa [get_congr same]
  · refine List.pairwise_map.2 ((gathers.distinct List.Pairwise.nil).imp ?_)
    intro a b different n inA inB
    obtain ⟨_, first⟩ := (mem_get _ _).1 inA
    obtain ⟨_, second⟩ := (mem_get _ _).1 inB
    simp [KeyFunction.beq_of_assigns first second] at different
  · exact exists_key_iff.1 ⟨k, stored, BEq.rfl⟩

/-- The index of a tree lists under each key the matching nodes with that key by
their first matching occurrence; its buckets divide the matching nodes; and it is
the index got by adding all that a walk with the test reports. -/
theorem ofTree_groups {spec : KeySpec} {test : Test} {root : NodeId}
    (acyclic : s.AcyclicBelow root)
    (answers : ∀ o ∈ s.occurrences .forward root, test.AnswersAt s o)
    (keyed : ∀ o ∈ s.occurrences .forward root, ∃ key, spec.key s o.node = .ok key) :
    ∃ index, ofTree spec (some root) test s = .ok index ∧
      (∀ k, index.get k = ((test.compile.nodes s (s.occurrences .forward root)).filter
        (spec.key.assigns s k)).eraseDups) ∧
      index.Partitions (test.compile.nodes s (s.occurrences .forward root)) ∧
      ∀ steps, s.pathCount root ≤ steps →
        visit .forward test adder steps root ⟨s, new spec⟩ = (.completed, ⟨s, index⟩) := by
  obtain ⟨index, made, gathers, added⟩ := exists_ofTreeBy spec .forward acyclic answers keyed
  exact ⟨index, made, gathers.get_eq_new, gathers.partitions keyed, added⟩

/-- The two have equal keys, and under each key the same nodes in some order. -/
structure Agrees (index other : Index) : Prop where
  keys : ∀ k, (∃ stored ∈ index.keys, stored == k) ↔ ∃ stored ∈ other.keys, stored == k
  size_eq : index.size = other.size
  perm : ∀ k, (index.get k).Perm (other.get k)

theorem mem_tokens_keys_iff {k : Key} :
    k.tokens ∈ index.keys.map Key.tokens ↔ ∃ stored ∈ index.keys, stored == k := by
  simp [Key.beq_iff_tokens]

theorem nodup_tokens_keys (h : index.table.DistinctKeys) :
    (index.keys.map Key.tokens).Nodup := by
  refine List.pairwise_map.2 (List.pairwise_map.2 (h.imp ?_))
  intro a b apart same
  simp [(Key.beq_iff_tokens _ _).2 same] at apart

/-- Indexes that store no key twice agree if they list the same nodes. -/
theorem agrees_of_mem_get {other : Index} (distinct : index.table.DistinctKeys)
    (distinct' : other.table.DistinctKeys) (same : ∀ k n, n ∈ index.get k ↔ n ∈ other.get k) :
    index.Agrees other := by
  have stored : ∀ k, (∃ stored ∈ index.keys, stored == k) ↔ ∃ stored ∈ other.keys, stored == k := by
    intro k
    rw [exists_key_iff, exists_key_iff]
    simp only [ne_eq, List.eq_nil_iff_forall_not_mem, same]
  have tokens : (index.keys.map Key.tokens).Perm (other.keys.map Key.tokens) := by
    refine (List.perm_ext_iff_of_nodup (nodup_tokens_keys distinct)
      (nodup_tokens_keys distinct')).2 fun written => ⟨fun h => ?_, fun h => ?_⟩
    · obtain ⟨k, _, rfl⟩ := List.mem_map.1 h
      exact mem_tokens_keys_iff.2 ((stored k).1 (mem_tokens_keys_iff.1 h))
    · obtain ⟨k, _, rfl⟩ := List.mem_map.1 h
      exact mem_tokens_keys_iff.2 ((stored k).2 (mem_tokens_keys_iff.1 h))
  refine ⟨stored, by simpa [keys, size] using tokens.length_eq, fun k => ?_⟩
  exact (List.perm_ext_iff_of_nodup Table.nodup_get Table.nodup_get).2 (same k)

/-- A root that has a leaf as its first and its last child, and once more below
the child between them, whose size is the negative zero. -/
def braid : Store :=
  ⟨#[⟨"leaf", ⟨[("size", .ofInt 0)], by decide⟩, none⟩,
    ⟨"twig", ⟨[("size", .number ⟨Binary64.signBit⟩)], by decide⟩, some [⟨0⟩]⟩,
    ⟨"root", .empty, some [⟨0⟩, ⟨1⟩, ⟨0⟩]⟩], 0⟩

/-- Matches all but first children. -/
def notFirst : Test := .predicate fun _ o => .ok (o.index != some 0)

theorem acyclicBelow_braid : braid.AcyclicBelow ⟨2⟩ :=
  braid.acyclicBelow_of_ascending (by decide) ⟨2⟩

theorem notFirst_answersAt (s : Store) (o : Occurrence) : notFirst.AnswersAt s o := by
  intro accepts inside
  obtain rfl := List.mem_singleton.1 inside
  exact ⟨_, rfl⟩

theorem ofTree_groups_braid :
    braid.AcyclicBelow ⟨2⟩ ∧
    (∀ o ∈ braid.occurrences .forward ⟨2⟩, notFirst.AnswersAt braid o) ∧
    (∀ o ∈ braid.occurrences .forward ⟨2⟩,
      ∃ key, (KeySpec.field "size").key braid o.node = .ok key) ∧
    ∃ index, ofTree (.field "size") (some ⟨2⟩) notFirst braid = .ok index ∧
      index.get (.value (.ofInt 0)) = [⟨1⟩, ⟨0⟩] ∧ index.get .missing = [⟨2⟩] ∧
      index.Partitions [⟨2⟩, ⟨1⟩, ⟨0⟩] ∧
      ∀ steps, braid.pathCount ⟨2⟩ ≤ steps →
        visit .forward notFirst adder steps ⟨2⟩ ⟨braid, new (.field "size")⟩ =
          (.completed, ⟨braid, index⟩) := by
  have answers := fun o (_ : o ∈ braid.occurrences .forward ⟨2⟩) => notFirst_answersAt braid o
  have keyed : ∀ o ∈ braid.occurrences .forward ⟨2⟩,
      ∃ key, (KeySpec.field "size").key braid o.node = .ok key := fun o _ => ⟨_, rfl⟩
  have matching : notFirst.compile.nodes braid (braid.occurrences .forward ⟨2⟩) =
      [⟨2⟩, ⟨1⟩, ⟨0⟩] := by decide
  obtain ⟨index, made, groups, divided, added⟩ := ofTree_groups acyclicBelow_braid answers keyed
  rw [matching] at groups divided
  exact ⟨acyclicBelow_braid, answers, keyed, index, made, by rw [groups]; decide,
    by rw [groups]; decide, divided, added⟩

/-- Matches the nodes that have the value in the field. -/
def valueTest (name : String) (value : Value) : Test := .fields (.ofList [(name, value)])

/-- The key by a field is the one looked up just when the test for the value
accepts the node, and then both are hashed alike. -/
def FindsAsTested (name : String) (value : Value) (s : Store) (o : Occurrence) : Prop :=
  ∃ own, (KeySpec.field name).key s o.node = .ok own ∧
    (valueTest name value).compile.accepts s o = .ok (own == .value value) ∧
    ((own == .value value) = true ↔ own.tokens = (Key.value value).tokens)

theorem findsAsTested (name : String) (value : Value) (s : Store) (o : Occurrence) :
    FindsAsTested name value s o := by
  refine ⟨_, rfl, ?_, Key.beq_iff_tokens _ _⟩
  have listed : (Fields.ofList [(name, value)]).entries = [(name, value)] := rfl
  rw [valueTest, Test.compile, listed]
  cases h : s.field? o.node name with
  | none => simp [Store.fieldIs, h, Key.ofOption]; rfl
  | some found => simp [Store.fieldIs, h, Key.ofOption]; rfl

theorem assigns_field (name : String) (value : Value) (s : Store) (o : Occurrence) :
    (KeySpec.field name).key.assigns s (.value value) o.node =
      (valueTest name value).compile.selects s o := by
  obtain ⟨own, hk, tested, _⟩ := findsAsTested name value s o
  rw [KeyFunction.assigns_of_ok hk, Check.selects_of_ok tested]

/-- Looking up a value in the index by a field gives the nodes that a full walk
reports where the test of the index and the test for the value both match, each
by its first such place. -/
theorem get_ofTree_field {test : Test} {root : NodeId} (name : String) (value : Value)
    (acyclic : s.AcyclicBelow root)
    (answers : ∀ o ∈ s.occurrences .forward root, test.AnswersAt s o) :
    ∃ index reported, ofTree (.field name) (some root) test s = .ok index ∧
      (∀ steps, s.pathCount root ≤ steps →
        visit .forward .always Visitor.lister steps root ⟨s, []⟩ = (.completed, ⟨s, reported⟩)) ∧
      index.get (.value value) = ((reported.filter fun o => test.compile.selects s o &&
        (valueTest name value).compile.selects s o).map Occurrence.node).eraseDups ∧
      ∀ o, FindsAsTested name value s o := by
  obtain ⟨index, made, gathers, _⟩ :=
    exists_ofTreeBy (.field name) .forward acyclic answers fun o _ => ⟨_, rfl⟩
  refine ⟨index, s.occurrences .forward root, made, fun steps => visit_lister acyclic, ?_,
    findsAsTested name value s⟩
  rw [gathers.get_eq_new, Check.nodes, List.filter_map, List.filter_filter]
  refine congrArg (fun met => (List.map Occurrence.node met).eraseDups) ?_
  refine List.filter_congr fun o _ => ?_
  rw [Function.comp_apply, assigns_field, Bool.and_comm]

theorem get_ofTree_field_braid :
    braid.AcyclicBelow ⟨2⟩ ∧
    (∀ o ∈ braid.occurrences .forward ⟨2⟩, notFirst.AnswersAt braid o) ∧
    ∃ index reported, ofTree (.field "size") (some ⟨2⟩) notFirst braid = .ok index ∧
      (∀ steps, braid.pathCount ⟨2⟩ ≤ steps →
        visit .forward .always Visitor.lister steps ⟨2⟩ ⟨braid, []⟩ =
          (.completed, ⟨braid, reported⟩)) ∧
      index.get (.value (.ofInt 0)) = ((reported.filter fun o => notFirst.compile.selects braid o &&
        (valueTest "size" (.ofInt 0)).compile.selects braid o).map Occurrence.node).eraseDups ∧
      index.get (.value (.ofInt 0)) = [⟨1⟩, ⟨0⟩] := by
  have answers := fun o (_ : o ∈ braid.occurrences .forward ⟨2⟩) => notFirst_answersAt braid o
  obtain ⟨index, reported, made, walked, found, _⟩ :=
    get_ofTree_field "size" (.ofInt 0) acyclicBelow_braid answers
  refine ⟨acyclicBelow_braid, answers, index, reported, made, walked, found, ?_⟩
  have listed : reported = braid.occurrences .forward ⟨2⟩ := by
    have := (walked _ (Nat.le_refl _)).symm.trans (visit_lister acyclicBelow_braid (Nat.le_refl _))
    simpa using this
  rw [found, listed]
  decide

end Index
end TreeIndex
