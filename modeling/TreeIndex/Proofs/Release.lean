import TreeIndex.NestedDrops
import TreeIndex.Proofs.HandleCounts

/-!
# What giving up a handle frees

As a record loses its child list before it is dropped, no drop nests deeper than
one in the loop of another, and `release` computes what nested drops do.

Main statement: of a counted heap without cycles exactly those nodes are freed
that can no longer be reached from a handle held outside.
-/
namespace TreeIndex
namespace Heap

variable {h h₁ h' : Heap} {m n : NodeId} {cell : Cell} {outside pending : List NodeId}
  {freed others : List Freed} {depth : Nat}

theorem unlink_nil (h : Heap) (before : List Freed) :
    h.unlink before [] = (before.reverse, h) := by rw [unlink]

theorem unlink_of_last (before : List Freed) (found : h.cell? n = some cell)
    (last : cell.handles ≤ 1) : h.unlink before (n :: pending) =
      (h.write n none).unlink (⟨n, taken cell.data⟩ :: before)
        (cell.data.childList.reverse ++ pending) := by
  rw [unlink]
  split <;> simp_all [taken]

theorem unlink_of_several (before : List Freed) (found : h.cell? n = some cell)
    (several : 1 < cell.handles) : h.unlink before (n :: pending) =
      (h.write n (some { cell with handles := cell.handles - 1 })).unlink before pending := by
  rw [unlink]
  split
  · simp_all
  · simp_all

/-- By induction on the loop, where a handle always finds its node alive. -/
theorem Counted.exists_unlinks (before : List Freed) (counted : h.Counted (pending ++ outside)) :
    ∃ depth freed h', h.Unlinks pending depth freed h' := by
  induction h, before, pending using unlink.induct with
  | case1 h before => exact ⟨1, [], h, .done⟩
  | case2 h before n pending gone ih =>
    obtain ⟨cell, found⟩ := counted.exists_cell (n := n) (by simp)
    rw [gone] at found
    cases found
  | case3 h before n pending cell found last ih =>
    have counted : h.Counted (n :: (pending ++ outside)) := counted
    have rest := counted.free found last
    rw [← List.append_assoc] at rest
    obtain ⟨depth, freed, h', unlinks⟩ := ih rest
    exact ⟨_, _, h', .freed found last .done unlinks⟩
  | case4 h before n pending cell found several ih =>
    have others : 1 < cell.handles := by omega
    obtain ⟨depth, freed, h', unlinks⟩ := ih (counted.lower found others)
    exact ⟨depth, freed, h', .lowered found others unlinks⟩

/-- A record that lost its child list has nothing to unlink, so drops nest no
deeper than in the loop, which is the one of `unlink`. -/
theorem Unlinks.unlink_eq (unlinks : h.Unlinks pending depth freed h') :
    depth ≤ 2 ∧ (pending = [] → depth = 1) ∧
      ∀ before, h.unlink before pending = (before.reverse ++ freed, h') := by
  induction unlinks with
  | done => exact ⟨by omega, fun _ => rfl, fun before => by simp [unlink_nil]⟩
  | lowered found several _ ih =>
    refine ⟨ih.1, by simp, fun before => ?_⟩
    rw [unlink_of_several before found several, ih.2.2]
  | freed found last _ _ nestedIh ih =>
    obtain ⟨_, alone, nothing⟩ := nestedIh
    have inner := alone rfl
    have same := (unlink_nil _ []).symm.trans (nothing [])
    obtain ⟨rfl, rfl⟩ := Prod.mk.inj same
    refine ⟨by have := ih.1; omega, by simp, fun before => ?_⟩
    rw [unlink_of_last before found last, ih.2.2]
    simp

theorem Drops.release_eq (drops : h.Drops n depth freed h') :
    depth ≤ 2 ∧ h.release n = (freed, h') := by
  cases drops with
  | lowered found several =>
    refine ⟨by omega, ?_⟩
    rw [release, unlink_of_several [] found several, unlink_nil]
    rfl
  | last found last unlinks =>
    obtain ⟨shallow, _, result⟩ := unlinks.unlink_eq
    refine ⟨shallow, ?_⟩
    rw [release, unlink_of_last [] found last, List.append_nil, result]
    rfl

theorem Counted.exists_drops (counted : h.Counted (n :: outside)) :
    ∃ depth freed h', h.Drops n depth freed h' := by
  obtain ⟨cell, found⟩ := counted.exists_cell (n := n) (by simp)
  by_cases last : cell.handles ≤ 1
  · obtain ⟨depth, freed, h', unlinks⟩ := (counted.free found last).exists_unlinks []
    exact ⟨depth, _, h', .last found last unlinks⟩
  · exact ⟨0, [], _, .lowered found (by omega)⟩

def data? (h : Heap) (n : NodeId) : Option NodeData := (h.cell? n).map Cell.data

/-- The second heap is the first without the freed nodes. -/
structure Frees (h : Heap) (freed : List Freed) (h' : Heap) : Prop where
  nodup : (freed.map Freed.node).Nodup
  remains_eq : ∀ f ∈ freed, ∃ data, h.data? f.node = some data ∧ f.remains = taken data
  data?_eq : ∀ m, h'.data? m = if m ∈ freed.map Freed.node then none else h.data? m

theorem Frees.refl (h : Heap) : h.Frees [] h := ⟨by simp, by simp, by simp⟩

theorem data?_write (found : h.cell? n = some cell) (new : Option Cell) (m : NodeId) :
    (h.write n new).data? m = if n = m then new.map Cell.data else h.data? m := by
  rw [data?, cell?_write found, apply_ite (Option.map Cell.data), data?]

theorem frees_lower (found : h.cell? n = some cell) (count : Nat) :
    h.Frees [] (h.write n (some { cell with handles := count })) := by
  refine ⟨by simp, by simp, fun m => ?_⟩
  rw [data?_write found]
  by_cases here : n = m
  · subst here
    simp [data?, found]
  · simp [here]

theorem frees_last (found : h.cell? n = some cell) :
    h.Frees [⟨n, taken cell.data⟩] (h.write n none) := by
  refine ⟨by simp, by simp [data?, found], fun m => ?_⟩
  rw [data?_write found]
  simp [eq_comm (a := n)]

theorem Frees.trans (first : h.Frees freed h₁) (second : h₁.Frees others h') :
    h.Frees (freed ++ others) h' := by
  have live : ∀ m ∈ others.map Freed.node, (h₁.data? m).isSome := by
    intro m listed
    obtain ⟨f, inside, rfl⟩ := List.mem_map.1 listed
    obtain ⟨data, found, _⟩ := second.remains_eq f inside
    simp [found]
  refine ⟨?_, fun f listed => ?_, fun m => ?_⟩
  · rw [List.map_append]
    refine first.nodup.append second.nodup fun m early late => ?_
    have found := live m late
    simp [first.data?_eq, early] at found
  · obtain early | late := List.mem_append.1 listed
    · exact first.remains_eq f early
    · obtain ⟨data, between, rest⟩ := second.remains_eq f late
      refine ⟨data, ?_, rest⟩
      rw [first.data?_eq] at between
      split at between
      · cases between
      · exact between
  · rw [second.data?_eq, first.data?_eq, List.map_append]
    by_cases late : m ∈ others.map Freed.node <;> simp [late]

theorem Unlinks.frees (unlinks : h.Unlinks pending depth freed h') : h.Frees freed h' := by
  induction unlinks with
  | done => exact .refl _
  | lowered found _ _ ih => exact (frees_lower found _).trans ih
  | freed found _ _ _ nestedIh ih => exact (frees_last found).trans (nestedIh.trans ih)

/-- The handles that wait besides those of the worklist are still counted after the loop. -/
theorem Unlinks.counted (unlinks : h.Unlinks pending depth freed h')
    (counted : h.Counted (pending ++ outside)) : h'.Counted outside := by
  induction unlinks generalizing outside with
  | done => exact counted
  | lowered found several _ ih => exact ih (Counted.lower counted found several)
  | freed found last _ _ nestedIh ih =>
    have between := nestedIh (Counted.free counted found last)
    exact ih (by rwa [List.append_assoc])

theorem Drops.frees (drops : h.Drops n depth freed h') : h.Frees freed h' := by
  cases drops with
  | lowered found _ => exact frees_lower found _
  | last found _ unlinks => exact (frees_last found).trans unlinks.frees

theorem Drops.counted (drops : h.Drops n depth freed h') (counted : h.Counted (n :: outside)) :
    h'.Counted outside := by
  cases drops with
  | lowered found several => exact counted.lower found several
  | last found last unlinks => exact unlinks.counted (counted.free found last)

theorem children_eq_data? (h : Heap) (n : NodeId) :
    h.children n = (h.data? n).elim [] NodeData.childList := by
  rw [children, data?, childrenIn, Option.elim_map]
  rfl

/-- A node that is not freed keeps its children, and a freed one has none. -/
theorem Frees.children_eq (frees : h.Frees freed h') (n : NodeId) :
    h'.children n = if n ∈ freed.map Freed.node then [] else h.children n := by
  rw [children_eq_data?, frees.data?_eq, children_eq_data?]
  split <;> rfl

theorem Frees.reaches_of_reaches (frees : h.Frees freed h') {root : NodeId}
    (down : h'.Reaches root m) : h.Reaches root m := by
  refine Relation.ReflTransGen.mono (fun n m below => ?_) _ _ down
  rw [children_toStore] at below ⊢
  rw [frees.children_eq] at below
  split at below
  · cases below
  · exact below

theorem Frees.acyclic (frees : h.Frees freed h') (acyclic : h.Acyclic) : h'.Acyclic := by
  intro n child below back
  rw [frees.children_eq] at below
  split at below
  · cases below
  · exact acyclic n child below (frees.reaches_of_reaches back)

/-- What a handle that is held reaches is not freed, and is still reached. -/
theorem Frees.reaches (frees : h.Frees freed h') (counted : h'.Counted outside) {root : NodeId}
    (held : root ∈ outside) (down : h.Reaches root m) :
    h'.Reaches root m ∧ m ∉ freed.map Freed.node := by
  have spared : ∀ n ∈ outside ++ h'.entries, n ∉ freed.map Freed.node := by
    intro n named gone
    obtain ⟨cell, found⟩ := counted.exists_cell named
    have none_left := frees.data?_eq n
    simp [data?, found, gone] at none_left
  induction down with
  | refl => exact ⟨.refl, spared root (List.mem_append_left _ held)⟩
  | tail _ below ih =>
    obtain ⟨down, kept⟩ := ih
    have below' := below
    rw [children_toStore, ← (frees.children_eq _).trans (if_neg kept)] at below'
    refine ⟨down.tail (by rwa [children_toStore]), spared _ ?_⟩
    exact List.mem_append_right _ (mem_entries.2 ⟨_, below'⟩)

/-- Exactly the nodes that no outside handle reaches are freed, each once and
without its child list; the others keep kind, fields and children, and count the
handles that are left. -/
structure FreesUnreachable (h : Heap) (outside : List NodeId) (freed : List Freed) (h' : Heap) :
    Prop extends h.Frees freed h' where
  mem_iff : ∀ m, m ∈ freed.map Freed.node ↔
    (h.data? m).isSome ∧ ∀ root ∈ outside, ¬ h.Reaches root m
  counted : h'.Counted outside

theorem Frees.unreachable (frees : h.Frees freed h') (counted : h'.Counted outside)
    (acyclic : h.Acyclic) : h.FreesUnreachable outside freed h' := by
  refine ⟨frees, fun m => ⟨fun gone => ?_, fun ⟨live, unreached⟩ => ?_⟩, counted⟩
  · obtain ⟨f, listed, rfl⟩ := List.mem_map.1 gone
    obtain ⟨data, found, _⟩ := frees.remains_eq f listed
    exact ⟨by simp [found], fun root held down => (frees.reaches counted held down).2 gone⟩
  · by_contra kept
    have left := frees.data?_eq m
    rw [if_neg kept] at left
    obtain ⟨data, found⟩ := Option.isSome_iff_exists.1 live
    obtain ⟨cell, there, _⟩ := Option.map_eq_some_iff.1 (left.trans found)
    obtain ⟨root, held, down⟩ := counted.exists_reaches (frees.acyclic acyclic) there
    exact unreached root held (frees.reaches_of_reaches down)

/-- Giving up a handle ends, with at most one drop nested in another, and frees
what only that handle kept. -/
theorem release_frees_unreachable (counted : h.Counted (n :: outside)) (acyclic : h.Acyclic) :
    h.FreesUnreachable outside (h.release n).1 (h.release n).2 ∧
      (∃ depth, h.Drops n depth (h.release n).1 (h.release n).2) ∧
      ∀ depth freed h', h.Drops n depth freed h' → depth ≤ 2 ∧ h.release n = (freed, h') := by
  obtain ⟨depth, freed, h', drops⟩ := counted.exists_drops
  have result := drops.release_eq.2
  rw [result]
  refine ⟨drops.frees.unreachable (drops.counted counted) acyclic, ⟨depth, drops⟩, ?_⟩
  intro depth freed h' drops
  rw [← result]
  exact drops.release_eq

/-- A root with one child twice and another once. The second stands twice below the
first, next to a node that is held outside, and these two have the same leaf. -/
def woven : Store :=
  ⟨#[.ofKind "leaf", ⟨"kept", .empty, some [⟨0⟩, ⟨0⟩]⟩, ⟨"lost", .empty, some [⟨0⟩]⟩,
    ⟨"twice", .empty, some [⟨2⟩, ⟨1⟩, ⟨2⟩]⟩, ⟨"root", .empty, some [⟨3⟩, ⟨2⟩, ⟨3⟩]⟩], 0⟩

/-- The heap of these nodes, where the root and the node further down are held. -/
def wovenHeap : Heap := ⟨#[some ⟨woven.data ⟨0⟩, 3⟩, some ⟨woven.data ⟨1⟩, 2⟩,
  some ⟨woven.data ⟨2⟩, 3⟩, some ⟨woven.data ⟨3⟩, 2⟩, some ⟨woven.data ⟨4⟩, 1⟩]⟩

/-- What is left when the root is given up. -/
def unwovenHeap : Heap :=
  ⟨#[some ⟨woven.data ⟨0⟩, 2⟩, some ⟨woven.data ⟨1⟩, 1⟩, none, none, none]⟩

/-- The nodes that are come to several times are dropped at the last. -/
theorem release_frees_unreachable_woven :
    wovenHeap.Counted [⟨4⟩, ⟨1⟩] ∧ wovenHeap.Acyclic ∧
      ∃ freed, freed.map Freed.node = [⟨4⟩, ⟨3⟩, ⟨2⟩] ∧ wovenHeap.Drops ⟨4⟩ 2 freed unwovenHeap ∧
        wovenHeap.release ⟨4⟩ = (freed, unwovenHeap) ∧
        wovenHeap.FreesUnreachable [⟨1⟩] freed unwovenHeap := by
  have ofStore : ofStore woven [⟨4⟩, ⟨1⟩] = wovenHeap := rfl
  have counted : wovenHeap.Counted [⟨4⟩, ⟨1⟩] := by
    rw [← ofStore]
    refine counted_ofStore ?_
    rintro ⟨i⟩
    simp [woven, Store.Holds, Store.size, NodeData.childList, NodeData.ofKind]
    omega
  have acyclic : wovenHeap.Acyclic := by
    rw [← ofStore]
    exact acyclic_ofStore (Store.acyclic_of_ascending (by decide))
  have drops : ∃ depth freed h', wovenHeap.Drops ⟨4⟩ depth freed h' ∧ depth = 2 ∧
      freed.map Freed.node = [⟨4⟩, ⟨3⟩, ⟨2⟩] ∧ h' = unwovenHeap :=
    ⟨_, _, _, .last rfl (by decide) <| .lowered rfl (by decide) <|
      .lowered rfl (by decide) <| .freed rfl (by decide) .done <| .lowered rfl (by decide) <|
      .lowered rfl (by decide) <| .freed rfl (by decide) .done <|
      .lowered rfl (by decide) .done, rfl, rfl, rfl⟩
  obtain ⟨_, freed, _, drops, rfl, nodes, rfl⟩ := drops
  obtain ⟨frees, _, only⟩ := release_frees_unreachable counted acyclic
  have result := (only _ _ _ drops).2
  rw [result] at frees
  exact ⟨counted, acyclic, freed, nodes, drops, result, frees⟩

end Heap
end TreeIndex
