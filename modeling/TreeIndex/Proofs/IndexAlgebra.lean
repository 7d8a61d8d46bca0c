import TreeIndex.Proofs.Grouping
import TreeIndex.Proofs.IndexHistory

/-!
# What additions and removals do to one another

On an index that some run has led to, and a store that does not change meanwhile:
doing the same twice is doing it once, an addition is undone by the removal of its
node, and a removal followed by the addition of its node moves the node to the end of
its bucket. Additions and removals of two nodes can change places. Only two additions
that both append to one bucket show which came first, in the last two nodes of it.

Each event acts on the nodes of every key by itself, so what holds of the lists of
nodes holds of the index.
-/
namespace TreeIndex

namespace Bucket

variable {bucket : Bucket} {key : Key} {n : NodeId}

theorem add_of_mem (h : n ∈ bucket.nodes) : bucket.add n = bucket := by
  simp [add, n.listed_iff, List.mem_reverse.1 h]

theorem remove?_of_not_mem (h : n ∉ bucket.nodes) : bucket.remove? n = some bucket := by
  have old : bucket.recent.erase n = bucket.recent :=
    List.erase_of_not_mem fun there => h (List.mem_reverse.2 there)
  simp [remove?, old, bucket.inhabited]

/-- The node that was appended last is the first in the list. -/
theorem remove?_add (h : n ∉ bucket.nodes) : (bucket.add n).remove? n = some bucket := by
  have new : ¬ n.listed bucket.recent = true := fun there =>
    h (List.mem_reverse.2 ((n.listed_iff _).1 there))
  simp [remove?, add, new, bucket.inhabited]

theorem remove?_single : (single key n).remove? n = none := by
  simp [remove?, single]

end Bucket

namespace Table

variable {table : Table} {bucket : Bucket} {key k : Key} {n : NodeId}

/-- A key that is stored gives the nodes of its one bucket. -/
theorem DistinctKeys.nodes_eq_get (h : table.DistinctKeys) (stored : bucket ∈ table)
    (same : bucket.key == key) : bucket.nodes = get key table := by
  induction table with
  | nil => cases stored
  | cons first table ih =>
    obtain ⟨apart, others⟩ := List.pairwise_cons.1 h
    rw [get_cons]
    obtain rfl | later := List.mem_cons.1 stored
    · rw [if_pos same]
    · have other : (first.key == key) = false := by
        rw [← BEq.congr_right same]
        exact apart bucket later
      rw [other]
      exact ih others later

/-- A node that is there is not added again. -/
theorem add_of_mem (distinct : table.DistinctKeys) (h : n ∈ get key table) :
    add key n table = table := by
  have stored : (table.any fun bucket => bucket.key == key) = true := by
    rw [List.any_eq_true]
    exact exists_key_iff.2 (List.ne_nil_of_mem h)
  have same : (table.map fun bucket => if bucket.key == key then bucket.add n else bucket) =
      table.map id := by
    refine List.map_congr_left fun bucket here => ?_
    by_cases own : bucket.key == key
    · rw [if_pos own, Bucket.add_of_mem (distinct.nodes_eq_get here own ▸ h), id]
    · rw [if_neg own, id]
  rw [add, if_pos stored, same, List.map_id]

/-- A node that is not there is not missed. -/
theorem remove_of_not_mem (distinct : table.DistinctKeys) (h : n ∉ get key table) :
    remove key n table = table := by
  have same : ∀ bucket ∈ table,
      (if bucket.key == key then bucket.remove? n else some bucket) = some bucket := by
    intro bucket here
    by_cases own : bucket.key == key
    · rw [if_pos own, Bucket.remove?_of_not_mem (distinct.nodes_eq_get here own ▸ h)]
    · rw [if_neg own]
  rw [remove, List.filterMap_congr same, List.filterMap_some]

theorem remove?_ite_add (new : bucket.key == key → n ∉ bucket.nodes) :
    let changed := if bucket.key == key then bucket.add n else bucket
    (if changed.key == key then changed.remove? n else some changed) = some bucket := by
  intro changed
  have own : changed.key = bucket.key := key_ite_add
  rw [own]
  by_cases same : bucket.key == key
  · simp [changed, same, Bucket.remove?_add (new same)]
  · simp [changed, same]

/-- A removal leaves nothing of the addition before it, nor of a bucket made for that. -/
theorem remove_add (distinct : table.DistinctKeys) (h : n ∉ get key table) :
    remove key n (add key n table) = table := by
  unfold add
  split
  · rw [remove, List.filterMap_map]
    refine Eq.trans (List.filterMap_congr fun bucket here => ?_) List.filterMap_some
    exact remove?_ite_add fun own => distinct.nodes_eq_get here own ▸ h
  · rw [remove_cons, Bucket.key_single, if_pos BEq.rfl, Bucket.remove?_single,
      remove_of_not_mem distinct h]
    rfl

theorem get_remove_add (distinct : table.DistinctKeys) : get k (add key n (remove key n table)) =
    if key == k then (get k table).erase n ++ [n] else get k table := by
  have gone : n ∉ (get k table).erase n := nodup_get.not_mem_erase
  rw [get_add]
  by_cases same : key == k
  · simp [get_remove distinct, same, gone]
  · simp [get_remove distinct, same]

/-- The stored keys are those that keep nodes, and the given one if it kept none. -/
theorem mem_keys_remove_add (distinct : table.DistinctKeys) :
    k ∈ (add key n (remove key n table)).map Bucket.key ↔
      (k ∈ table.map Bucket.key ∧ (if key == k then (get k table).erase n else get k table) ≠ []) ∨
        k = key ∧ (get key table).erase n = [] := by
  rw [mem_keys_add, mem_keys_remove distinct, get_remove distinct, get_remove distinct,
    if_pos (BEq.rfl : key == key)]

end Table

namespace Index

variable {index moved : Index} {spec : KeySpec} {s u : Store} {table : Table} {k key ka kb : Key}
  {a b n : NodeId} {nodes : List NodeId}

namespace Event

variable {e e' : Event}

/-- The nodes of a key after the event. -/
def onNodes (k : Key) : Event → List NodeId → List NodeId
  | .added key n, nodes => if key == k ∧ n ∉ nodes then nodes ++ [n] else nodes
  | .removed key n, nodes => if key == k then nodes.erase n else nodes

/-- The event gives a key a node that was not there. -/
def Appends (k : Key) (nodes : List NodeId) : Event → Prop
  | .added key n => key == k ∧ n ∉ nodes
  | .removed _ _ => False

theorem get_applyTo (e : Event) (distinct : table.DistinctKeys) :
    Table.get k (e.applyTo table) = e.onNodes k (Table.get k table) := by
  cases e with
  | added key n => exact Table.get_add
  | removed key n => exact Table.get_remove distinct

theorem distinctKeys_applyTo (e : Event) (distinct : table.DistinctKeys) :
    (e.applyTo table).DistinctKeys := by
  cases e with
  | added key n => exact distinct.add
  | removed key n => exact distinct.remove

theorem onNodes_of_appends (h : (added key n).Appends k nodes) :
    (added key n).onNodes k nodes = nodes ++ [n] :=
  if_pos h

theorem onNodes_of_not_appends (h : ¬ (added key n).Appends k nodes) :
    (added key n).onNodes k nodes = nodes :=
  if_neg h

theorem appends_concat (other : a ≠ b) :
    (added ka a).Appends k (nodes ++ [b]) ↔ (added ka a).Appends k nodes := by
  simp [Appends, other]

theorem appends_erase (other : a ≠ b) :
    (added ka a).Appends k (nodes.erase b) ↔ (added ka a).Appends k nodes := by
  simp [Appends, List.mem_erase_of_ne other]

theorem onNodes_added_removed (other : a ≠ b) :
    (removed kb b).onNodes k ((added ka a).onNodes k nodes) =
      (added ka a).onNodes k ((removed kb b).onNodes k nodes) := by
  by_cases here : kb == k
  · have erased : ∀ nodes, (removed kb b).onNodes k nodes = nodes.erase b := fun _ => if_pos here
    rw [erased, erased]
    by_cases appended : (added ka a).Appends k nodes
    · rw [onNodes_of_appends appended, onNodes_of_appends ((appends_erase other).2 appended),
        List.erase_append]
      split
      · rfl
      · next absent => simp [List.erase_of_not_mem absent, other]
    · rw [onNodes_of_not_appends appended,
        onNodes_of_not_appends (mt (appends_erase other).1 appended)]
  · have kept : ∀ nodes, (removed kb b).onNodes k nodes = nodes := fun _ => if_neg here
    rw [kept, kept]

theorem onNodes_added_added (other : a ≠ b)
    (once : ¬ ((added ka a).Appends k nodes ∧ (added kb b).Appends k nodes)) :
    (added kb b).onNodes k ((added ka a).onNodes k nodes) =
      (added ka a).onNodes k ((added kb b).onNodes k nodes) := by
  by_cases first : (added ka a).Appends k nodes
  · have second : ¬ (added kb b).Appends k nodes := fun second => once ⟨first, second⟩
    rw [onNodes_of_not_appends second, onNodes_of_appends first,
      onNodes_of_not_appends (mt (appends_concat other.symm).1 second)]
  · rw [onNodes_of_not_appends first]
    by_cases second : (added kb b).Appends k nodes
    · rw [onNodes_of_appends second, onNodes_of_not_appends (mt (appends_concat other).1 first)]
    · rw [onNodes_of_not_appends second, onNodes_of_not_appends first]

/-- Events of two nodes can change places, unless both append to the nodes of the key. -/
theorem onNodes_comm (other : e.node ≠ e'.node)
    (once : ¬ (e.Appends k nodes ∧ e'.Appends k nodes)) :
    e'.onNodes k (e.onNodes k nodes) = e.onNodes k (e'.onNodes k nodes) := by
  cases e with
  | added ka a =>
    cases e' with
    | added kb b => exact onNodes_added_added other once
    | removed kb b => exact onNodes_added_removed other
  | removed ka a =>
    cases e' with
    | added kb b => exact (onNodes_added_removed (Ne.symm other)).symm
    | removed kb b =>
      simp only [onNodes]
      split <;> split
      · exact List.erase_comm ..
      · rfl
      · rfl
      · rfl

/-- Two that both append do so in their order. -/
theorem onNodes_added_added_of_new (other : a ≠ b) (same : ka == kb)
    (newA : ka == k → a ∉ nodes) (newB : kb == k → b ∉ nodes) :
    (added kb b).onNodes k ((added ka a).onNodes k nodes) =
      if ka == k then nodes ++ [a, b] else nodes := by
  have alike : (kb == k) = (ka == k) := (BEq.congr_left same).symm
  rw [alike] at newB
  by_cases here : ka == k
  · simp [onNodes, alike, here, newA here, newB here, other.symm]
  · simp [onNodes, alike, here]

/-- In either order the same nodes are left. -/
theorem mem_onNodes_comm {m : NodeId} (other : e.node ≠ e'.node) :
    m ∈ e'.onNodes k (e.onNodes k nodes) ↔ m ∈ e.onNodes k (e'.onNodes k nodes) := by
  by_cases both : e.Appends k nodes ∧ e'.Appends k nodes
  · cases e with
    | removed ka a => cases both.1
    | added ka a =>
      cases e' with
      | removed kb b => cases both.2
      | added kb b =>
        have later : (added kb b).Appends k (nodes ++ [a]) :=
          (appends_concat (Ne.symm other)).2 both.2
        have later' : (added ka a).Appends k (nodes ++ [b]) := (appends_concat other).2 both.1
        rw [onNodes_of_appends both.1, onNodes_of_appends later, onNodes_of_appends both.2,
          onNodes_of_appends later']
        simp [or_comm]
  · rw [onNodes_comm other both]

end Event

namespace Operation

variable {operation first second : Operation} {e e' : Event}

theorem apply_of_event (h : operation.event? index.key s = some e) :
    operation.apply (index, s) = (⟨index.key, e.applyTo index.table⟩, s) := by
  have same : operation.after s = s := by
    cases operation with
    | change edit => cases h
    | _ => rfl
  rw [apply_eq, h, same]
  cases e <;> rfl

theorem run_single (h : first.event? index.key s = some e) :
    run [first] (index, s) = (⟨index.key, e.applyTo index.table⟩, s) :=
  apply_of_event h

theorem run_pair (h : first.event? index.key s = some e)
    (h' : second.event? index.key s = some e') :
    run [first, second] (index, s) = (⟨index.key, e'.applyTo (e.applyTo index.table)⟩, s) := by
  have start : run [first, second] (index, s) = second.apply (first.apply (index, s)) := rfl
  rw [start, apply_of_event h]
  exact apply_of_event h'

/-- The two operations that add or remove a node. -/
def onNode (n : NodeId) : List Operation := [add n, remove n]

theorem event?_add (h : index.key s n = .ok key) :
    (add n).event? index.key s = some (.added key n) := by
  simp [event?, h]

theorem event?_remove (h : index.key s n = .ok key) :
    (remove n).event? index.key s = some (.removed key n) := by
  simp [event?, h]

/-- Both have an event under the key of the node, and only an addition appends. -/
theorem exists_event (h : index.key s n = .ok key) (listed : first ∈ onNode n) :
    ∃ e, first.event? index.key s = some e ∧ e.node = n ∧
      ∀ k nodes, e.Appends k nodes → first = add n ∧ key == k ∧ n ∉ nodes := by
  obtain rfl | rfl : first = add n ∨ first = remove n := by simpa [onNode] using listed
  · exact ⟨.added key n, event?_add h, rfl, fun k nodes appends => ⟨rfl, appends⟩⟩
  · exact ⟨.removed key n, event?_remove h, rfl, fun k nodes => False.elim⟩

theorem get_run_pair (distinct : index.table.DistinctKeys)
    (h : first.event? index.key s = some e) (h' : second.event? index.key s = some e') (k : Key) :
    (run [first, second] (index, s)).1.get k = e'.onNodes k (e.onNodes k (index.get k)) := by
  rw [run_pair h h', Index.get, Event.get_applyTo e' (e.distinctKeys_applyTo distinct),
    Event.get_applyTo e distinct, Index.get]

theorem distinctKeys_run_pair (distinct : index.table.DistinctKeys)
    (h : first.event? index.key s = some e) (h' : second.event? index.key s = some e') :
    (run [first, second] (index, s)).1.table.DistinctKeys := by
  rw [run_pair h h']
  exact e'.distinctKeys_applyTo (e.distinctKeys_applyTo distinct)

end Operation

/-- The nodes are the same, but that `n` is the last under its key. A bucket that had
no other node is made anew, under the key that is computed now. -/
structure MovesToEnd (index moved : Index) (key : Key) (n : NodeId) : Prop where
  agrees : moved.Agrees index
  get_eq : ∀ k, moved.get k = if key == k then (index.get k).erase n ++ [n] else index.get k
  keys_kept : index.get key ≠ [n] → ∀ k, k ∈ moved.keys ↔ k ∈ index.keys
  keys_renewed : index.get key = [n] → ∀ k, k ∈ moved.keys ↔
    k = key ∨ k ∈ index.keys ∧ (key == k) = false

theorem get_ne_nil_of_mem_keys (stored : k ∈ index.keys) : index.get k ≠ [] :=
  exists_key_iff.1 ⟨k, stored, BEq.rfl⟩

theorem movesToEnd (distinct : index.table.DistinctKeys) (there : n ∈ index.get key) :
    index.MovesToEnd ⟨index.key, (index.table.remove key n).add key n⟩ key n := by
  have get_eq : ∀ k, Table.get k ((index.table.remove key n).add key n) =
      if key == k then (index.get k).erase n ++ [n] else index.get k :=
    fun _ => Table.get_remove_add distinct
  have keys : ∀ k, k ∈ ((index.table.remove key n).add key n).map Bucket.key ↔
      (k ∈ index.keys ∧ (if key == k then (index.get k).erase n else index.get k) ≠ []) ∨
        k = key ∧ (index.get key).erase n = [] :=
    fun _ => Table.mem_keys_remove_add distinct
  refine ⟨agrees_of_mem_get distinct.remove.add distinct fun k m => ?_, get_eq,
    fun others k => (keys k).trans ?_, fun alone k => (keys k).trans ?_⟩
  · rw [Index.get, get_eq]
    split
    · next same =>
      have : n ∈ index.get k := get_congr same ▸ there
      by_cases own : m = n
      · simp [own, this]
      · simp [own, List.mem_erase_of_ne own]
    · rfl
  · have left : (index.get key).erase n ≠ [] := by
      simp [List.erase_eq_nil_iff, others, List.ne_nil_of_mem there]
    by_cases same : key == k
    · simp [same, ← get_congr same, left]
    · simpa [same, left] using get_ne_nil_of_mem_keys
  · have none : (index.get key).erase n = [] := by simp [alone]
    by_cases same : key == k
    · simp [same, ← get_congr same, none]
    · have occupied : k ∈ index.keys ∧ index.get k ≠ [] ↔ k ∈ index.keys :=
        and_iff_left_of_imp get_ne_nil_of_mem_keys
      simp [same, none, occupied, or_comm]

open Operation in
/-- What additions and removals of one node come to. -/
structure Settles (index : Index) (s : Store) (n : NodeId) (key : Key) : Prop where
  add_twice : run [.add n, .add n] (index, s) = run [.add n] (index, s)
  remove_twice : run [.remove n, .remove n] (index, s) = run [.remove n] (index, s)
  undone : n ∉ index.get key → run [.add n, .remove n] (index, s) = (index, s)
  moved : n ∈ index.get key → index.MovesToEnd (run [.remove n, .add n] (index, s)).1 key n

theorem settles (distinct : index.table.DistinctKeys) (h : index.key s n = .ok key) :
    index.Settles s n key := by
  have added := Operation.event?_add h
  have removed := Operation.event?_remove h
  have once : n ∈ Table.get key (index.table.add key n) :=
    Table.mem_get_add.2 (.inr ⟨rfl, BEq.rfl⟩)
  have never : n ∉ Table.get key (index.table.remove key n) := fun there =>
    ((Table.mem_get_remove distinct).1 there).2 ⟨rfl, BEq.rfl⟩
  refine ⟨?_, ?_, fun absent => ?_, fun there => ?_⟩
  · rw [Operation.run_pair added added, Operation.run_single added, Event.applyTo, Event.applyTo,
      Table.add_of_mem distinct.add once]
  · rw [Operation.run_pair removed removed, Operation.run_single removed, Event.applyTo,
      Event.applyTo, Table.remove_of_not_mem distinct.remove never]
  · rw [Operation.run_pair added removed, Event.applyTo, Event.applyTo,
      Table.remove_add distinct absent]
  · rw [Operation.run_pair removed added]
    exact movesToEnd distinct there

/-- Adding either node gives the one bucket of both a node that it did not have. -/
def BothNew (index : Index) (a b : NodeId) (ka kb : Key) : Prop :=
  ka == kb ∧ a ∉ index.get ka ∧ b ∉ index.get kb

open Operation in
/-- What comes of operations on two nodes in one order and in the other. -/
structure Exchanges (index : Index) (s : Store) (a b : NodeId) (ka kb : Key) : Prop where
  agrees : ∀ first ∈ onNode a, ∀ second ∈ onNode b,
    (run [first, second] (index, s)).1.Agrees (run [second, first] (index, s)).1
  get_eq : ∀ first ∈ onNode a, ∀ second ∈ onNode b,
    ¬ (first = .add a ∧ second = .add b ∧ index.BothNew a b ka kb) →
    ∀ k, (run [first, second] (index, s)).1.get k = (run [second, first] (index, s)).1.get k
  appended : index.BothNew a b ka kb → ∀ k,
    (run [.add a, .add b] (index, s)).1.get k =
      (if ka == k then index.get k ++ [a, b] else index.get k) ∧
    (run [.add b, .add a] (index, s)).1.get k =
      (if ka == k then index.get k ++ [b, a] else index.get k)

theorem BothNew.symm (h : index.BothNew a b ka kb) : index.BothNew b a kb ka :=
  ⟨BEq.symm h.1, h.2.2, h.2.1⟩

theorem BothNew.get_run (h : index.BothNew a b ka kb) (distinct : index.table.DistinctKeys)
    (ha : index.key s a = .ok ka) (hb : index.key s b = .ok kb) (other : a ≠ b) (k : Key) :
    (Operation.run [.add a, .add b] (index, s)).1.get k =
      if ka == k then index.get k ++ [a, b] else index.get k := by
  obtain ⟨same, newA, newB⟩ := h
  rw [Operation.get_run_pair distinct (Operation.event?_add ha) (Operation.event?_add hb)]
  refine Event.onNodes_added_added_of_new other same (fun here => ?_) fun here => ?_
  · rwa [← get_congr here]
  · rwa [← get_congr here]

theorem exchanges (distinct : index.table.DistinctKeys) (ha : index.key s a = .ok ka)
    (hb : index.key s b = .ok kb) (other : a ≠ b) : index.Exchanges s a b ka kb := by
  refine ⟨fun first onA second onB => ?_, fun first onA second onB notBoth k => ?_,
    fun new k => ⟨new.get_run distinct ha hb other k, ?_⟩⟩
  · obtain ⟨e, h, rfl, -⟩ := Operation.exists_event ha onA
    obtain ⟨e', h', rfl, -⟩ := Operation.exists_event hb onB
    refine agrees_of_mem_get (Operation.distinctKeys_run_pair distinct h h')
      (Operation.distinctKeys_run_pair distinct h' h) fun k m => ?_
    rw [Operation.get_run_pair distinct h h', Operation.get_run_pair distinct h' h]
    exact Event.mem_onNodes_comm other
  · obtain ⟨e, h, rfl, appends⟩ := Operation.exists_event ha onA
    obtain ⟨e', h', rfl, appends'⟩ := Operation.exists_event hb onB
    rw [Operation.get_run_pair distinct h h', Operation.get_run_pair distinct h' h]
    refine Event.onNodes_comm other fun both => notBoth ?_
    obtain ⟨isAdd, same, newA⟩ := appends k _ both.1
    obtain ⟨isAdd', same', newB⟩ := appends' k _ both.2
    refine ⟨isAdd, isAdd', BEq.trans same (BEq.symm same'), ?_, ?_⟩
    · rwa [get_congr same]
    · rwa [get_congr same']
  · rw [new.symm.get_run distinct hb ha other.symm, BEq.congr_left new.1]

/-- The laws of additions and removals in any index that a run has led to. -/
theorem settles_and_exchanges {operations : List Operation}
    (reached : Operation.run operations (new spec, s) = (index, u))
    (ha : spec.key u a = .ok ka) (hb : spec.key u b = .ok kb) :
    index.Settles u a ka ∧ (a ≠ b → index.Exchanges u a b ka kb) := by
  have start : (new spec).table.Follows [] := Table.Follows.nil
  obtain ⟨key_eq, follows⟩ := Operation.follows_run (s := s) operations start
  rw [reached] at key_eq follows
  have keyA : index.key u a = .ok ka := by rw [key_eq]; exact ha
  have keyB : index.key u b = .ok kb := by rw [key_eq]; exact hb
  exact ⟨settles follows.distinct keyA, exchanges follows.distinct keyA keyB⟩

/-- The sizes of the first two nodes are equal keys, though not the same number. -/
theorem settles_and_exchanges_braid : ∃ index,
    Operation.run [.add ⟨2⟩] (new (.field "size"), braid) = (index, braid) ∧
    (KeySpec.field "size").key braid ⟨0⟩ = .ok (.value (.ofInt 0)) ∧
    (KeySpec.field "size").key braid ⟨1⟩ = .ok (.value (.number ⟨Binary64.signBit⟩)) ∧
    index.BothNew ⟨0⟩ ⟨1⟩ (.value (.ofInt 0)) (.value (.number ⟨Binary64.signBit⟩)) ∧
    index.Settles braid ⟨0⟩ (.value (.ofInt 0)) ∧
    index.Exchanges braid ⟨0⟩ ⟨1⟩ (.value (.ofInt 0)) (.value (.number ⟨Binary64.signBit⟩)) ∧
    (Operation.run [.add ⟨1⟩, .add ⟨0⟩] (index, braid)).1.get (.value (.ofInt 0)) =
      [⟨1⟩, ⟨0⟩] := by
  let index := (Operation.run [.add ⟨2⟩] (new (.field "size"), braid)).1
  have reached : Operation.run [.add ⟨2⟩] (new (.field "size"), braid) = (index, braid) := rfl
  have bothNew : index.BothNew ⟨0⟩ ⟨1⟩ (.value (.ofInt 0))
      (.value (.number ⟨Binary64.signBit⟩)) := ⟨by decide, by decide, by decide⟩
  obtain ⟨settled, exchanged⟩ := settles_and_exchanges (a := ⟨0⟩) (b := ⟨1⟩) reached rfl rfl
  have apart := exchanged (by decide)
  refine ⟨index, reached, rfl, rfl, bothNew, settled, apart, ?_⟩
  rw [(apart.appended bothNew _).2]
  rfl

end Index
end TreeIndex
