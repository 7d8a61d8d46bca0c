import TreeIndex.Proofs.WalkStep

/-!
# The walk as a recursion

`Descends` tells a walk by recursion on the tree: the check is asked, the
visitor is called, and the children that the node has afterwards are gone
through in turn, until one of them does not complete. It lists the calls of the
visitor, in their order. A run may be cut before any node, with the ending
`unfinished`: a walk that never ends is known by its cut runs.

The list of pending occurrences does the same: what it does within some number
of steps is what the recursion does, call by call, and conversely.
-/
namespace TreeIndex

variable {τ : Type}

mutual

/-- From a node met in a world, the calls made, the ending and the last world. -/
inductive Descends (direction : Direction) (check : Check) (visitor : Visitor τ) :
    Occurrence → World τ → List Occurrence → Ending → World τ → Prop
  | cut {o w} : Descends direction check visitor o w [] .unfinished w
  | checkFails {o w failure} :
    check.accepts w.store o = .error failure →
    Descends direction check visitor o w [] (.failed failure) w
  | refused {o w calls ending w'} :
    check.accepts w.store o = .ok false →
    DescendsAll direction check visitor (direction.arrange (w.store.occurrencesBelow o.node)) w
      calls ending w' →
    Descends direction check visitor o w calls ending w'
  | visitFails {o w failure w'} :
    check.accepts w.store o = .ok true → visitor o w = (.error failure, w') →
    Descends direction check visitor o w [o] (.failed failure) w'
  | exits {o w w'} :
    check.accepts w.store o = .ok true → visitor o w = (.ok .exit, w') →
    Descends direction check visitor o w [o] .exited w'
  | skips {o w w'} :
    check.accepts w.store o = .ok true → visitor o w = (.ok .skip, w') →
    Descends direction check visitor o w [o] .completed w'
  | proceeds {o w w₁ calls ending w'} :
    check.accepts w.store o = .ok true → visitor o w = (.ok .proceed, w₁) →
    DescendsAll direction check visitor (direction.arrange (w₁.store.occurrencesBelow o.node)) w₁
      calls ending w' →
    Descends direction check visitor o w (o :: calls) ending w'

/-- The same from several nodes in turn, up to the first that does not complete. -/
inductive DescendsAll (direction : Direction) (check : Check) (visitor : Visitor τ) :
    List Occurrence → World τ → List Occurrence → Ending → World τ → Prop
  | nil {w} : DescendsAll direction check visitor [] w [] .completed w
  | next {o os w calls w₁ others ending w'} :
    Descends direction check visitor o w calls .completed w₁ →
    DescendsAll direction check visitor os w₁ others ending w' →
    DescendsAll direction check visitor (o :: os) w (calls ++ others) ending w'
  | stops {o os w calls ending w'} :
    Descends direction check visitor o w calls ending w' → ending ≠ .completed →
    DescendsAll direction check visitor (o :: os) w calls ending w'

end

variable {direction : Direction} {check : Check} {visitor : Visitor τ}

/-- What a recorded walk comes to within some number of steps. -/
def Outcome (direction : Direction) (check : Check) (visitor : Visitor τ)
    (pending : List Occurrence) (w : World (List Occurrence × τ))
    (result : Ending × World (List Occurrence × τ)) : Prop :=
  ∃ steps, walk direction check visitor.recorded steps pending w = result

/-- The walk does to the first of its pending occurrences what a run of the
recursion does: if that run completes, the walk goes on after it, and otherwise
it ends as the run does. -/
def Realizes (direction : Direction) (check : Check) (visitor : Visitor τ)
    (os : List Occurrence) (w : World τ) (calls : List Occurrence) (ending : Ending)
    (w' : World τ) : Prop :=
  ∀ pending log result,
    (if ending = .completed
      then Outcome direction check visitor pending (w'.noted (log ++ calls)) result
      else result = (ending, w'.noted (log ++ calls))) →
    Outcome direction check visitor (os ++ pending) (w.noted log) result

/-- By induction on the run. Each rule but `cut` is one step of the walk, which
takes the occurrence from the list and puts the children in its place. -/
theorem Descends.realizes {o : Occurrence} {w w' : World τ} {calls : List Occurrence}
    {ending : Ending} (h : Descends direction check visitor o w calls ending w') :
    Realizes direction check visitor [o] w calls ending w' := by
  refine @Descends.rec τ direction check visitor
    (fun o w calls ending w' _ => Realizes direction check visitor [o] w calls ending w')
    (fun os w calls ending w' _ => Realizes direction check visitor os w calls ending w')
    ?cut ?checkFails ?refused ?visitFails ?exits ?skips ?proceeds ?nil ?next ?stops
    o w calls ending w' h
  case cut =>
    intro o w pending log result h
    exact ⟨0, by simpa [eq_comm] using h⟩
  case checkFails =>
    intro o w failure hc pending log result h
    refine ⟨1, ?_⟩
    rw [List.singleton_append, noting_checkFails _ _ _ hc]
    simpa [eq_comm] using h
  case refused =>
    intro o w calls ending w' hc _ ih pending log result h
    obtain ⟨steps, later⟩ := ih pending log result h
    refine ⟨steps + 1, ?_⟩
    rw [List.singleton_append, noting_refused _ _ _ hc]
    exact later
  case visitFails =>
    intro o w failure w' hc hv pending log result h
    refine ⟨1, ?_⟩
    rw [List.singleton_append, noting_visitFails _ _ _ hc hv]
    simpa [eq_comm] using h
  case exits =>
    intro o w w' hc hv pending log result h
    refine ⟨1, ?_⟩
    rw [List.singleton_append, noting_exits _ _ _ hc hv]
    simpa [eq_comm] using h
  case skips =>
    intro o w w' hc hv pending log result h
    obtain ⟨steps, later⟩ : Outcome direction check visitor pending _ result := by simpa using h
    refine ⟨steps + 1, ?_⟩
    rw [List.singleton_append, noting_skips _ _ _ hc hv]
    exact later
  case proceeds =>
    intro o w w₁ calls ending w' hc hv _ ih pending log result h
    obtain ⟨steps, later⟩ := ih pending (log ++ [o]) result (by simpa using h)
    refine ⟨steps + 1, ?_⟩
    rw [List.singleton_append, noting_proceeds _ _ _ hc hv]
    exact later
  case nil =>
    intro w pending log result h
    simpa using h
  case next =>
    intro o os w calls w₁ others ending w' _ _ first rest pending log result h
    have later := rest pending (log ++ calls) result (by simpa using h)
    exact first (os ++ pending) log result (by simpa using later)
  case stops =>
    intro o os w calls ending w' _ stopped ih pending log result h
    exact ih (os ++ pending) log result (by simpa [stopped] using h)

/-- A run over two lists in turn is a run over the first that completes before
one over the second, or a run over the first that does not complete. -/
theorem DescendsAll.split {os others : List Occurrence} {w w' : World τ} {calls : List Occurrence}
    {ending : Ending}
    (h : DescendsAll direction check visitor (os ++ others) w calls ending w') :
    (∃ before w₁ after, DescendsAll direction check visitor os w before .completed w₁ ∧
      DescendsAll direction check visitor others w₁ after ending w' ∧ calls = before ++ after) ∨
    (ending ≠ .completed ∧ DescendsAll direction check visitor os w calls ending w') := by
  induction os generalizing w calls with
  | nil => exact .inl ⟨[], w, calls, .nil, h, rfl⟩
  | cons o os ih =>
    cases h with
    | next first rest =>
      rcases ih rest with ⟨before, w₁, after, hb, ha, rfl⟩ | ⟨stopped, hr⟩
      · exact .inl ⟨_, w₁, after, .next first hb, ha, by simp⟩
      · exact .inr ⟨stopped, .next first hr⟩
    | stops first stopped => exact .inr ⟨stopped, .stops first stopped⟩

/-- If the children of an occurrence come before the pending ones, then it comes
before them itself, with the run that `below` makes of one over the children. -/
theorem DescendsAll.ofBelow {o : Occurrence} {children pending calls : List Occurrence}
    {w w₁ w' : World τ} {ending : Ending} (made : List Occurrence)
    (below : ∀ {calls ending w'}, DescendsAll direction check visitor children w₁ calls ending w' →
      Descends direction check visitor o w (made ++ calls) ending w')
    (h : DescendsAll direction check visitor (children ++ pending) w₁ calls ending w') :
    DescendsAll direction check visitor (o :: pending) w (made ++ calls) ending w' := by
  rcases h.split with ⟨before, w₂, after, hb, ha, rfl⟩ | ⟨stopped, hb⟩
  · rw [← List.append_assoc]
    exact .next (below hb) ha
  · exact .stops (below hb) stopped

/-- By induction on the number of steps: each step of the recorded walk is a
rule of the recursion, applied to the first of the pending occurrences. -/
theorem descendsAll_of_walk {steps : Nat} {pending log : List Occurrence} {w : World τ}
    {ending : Ending} {final : World (List Occurrence × τ)}
    (h : walk direction check visitor.recorded steps pending (w.noted log) = (ending, final)) :
    ∃ calls w', final = w'.noted (log ++ calls) ∧
      DescendsAll direction check visitor pending w calls ending w' := by
  induction steps generalizing pending log w with
  | zero =>
    cases pending with
    | nil =>
      obtain ⟨rfl, rfl⟩ := Prod.mk.inj h
      exact ⟨[], w, by simp, .nil⟩
    | cons o pending =>
      obtain ⟨rfl, rfl⟩ := Prod.mk.inj h
      exact ⟨[], w, by simp, .stops .cut (by simp)⟩
  | succ steps ih =>
    cases pending with
    | nil =>
      obtain ⟨rfl, rfl⟩ := Prod.mk.inj h
      exact ⟨[], w, by simp, .nil⟩
    | cons o pending =>
      cases meeting check visitor o w with
      | checkFails failure hc =>
        rw [noting_checkFails _ _ _ hc] at h
        obtain ⟨rfl, rfl⟩ := Prod.mk.inj h
        exact ⟨[], w, by simp, .stops (.checkFails hc) (by simp)⟩
      | refused hc =>
        rw [noting_refused _ _ _ hc] at h
        obtain ⟨calls, w', hf, hd⟩ := ih h
        exact ⟨calls, w', hf, hd.ofBelow [] (.refused hc)⟩
      | visitFails failure w₁ hc hv =>
        rw [noting_visitFails _ _ _ hc hv] at h
        obtain ⟨rfl, rfl⟩ := Prod.mk.inj h
        exact ⟨[o], w₁, rfl, .stops (.visitFails hc hv) (by simp)⟩
      | exits w₁ hc hv =>
        rw [noting_exits _ _ _ hc hv] at h
        obtain ⟨rfl, rfl⟩ := Prod.mk.inj h
        exact ⟨[o], w₁, rfl, .stops (.exits hc hv) (by simp)⟩
      | skips w₁ hc hv =>
        rw [noting_skips _ _ _ hc hv] at h
        obtain ⟨calls, w', hf, hd⟩ := ih h
        exact ⟨o :: calls, w', by simpa using hf, .next (.skips hc hv) hd⟩
      | proceeds w₁ hc hv =>
        rw [noting_proceeds _ _ _ hc hv] at h
        obtain ⟨calls, w', hf, hd⟩ := ih h
        exact ⟨o :: calls, w', by simpa using hf, hd.ofBelow [o] (.proceeds hc hv)⟩

theorem exists_walk_recorded_iff {o : Occurrence} {w w' : World τ} {calls : List Occurrence}
    {ending : Ending} :
    (∃ steps, walk direction check visitor.recorded steps [o] (w.noted []) =
      (ending, w'.noted calls)) ↔ Descends direction check visitor o w calls ending w' := by
  constructor
  · rintro ⟨steps, h⟩
    obtain ⟨calls', w₁, hf, hd⟩ := descendsAll_of_walk h
    obtain ⟨rfl, rfl⟩ := World.noted_inj hf
    cases hd with
    | next first rest => cases rest; simpa using first
    | stops first _ => exact first
  · intro h
    refine h.realizes [] [] (ending, w'.noted calls) ?_
    split
    · next completed => exact ⟨0, by simp [completed]⟩
    · rfl

/-- Two runs of the recursion that have ended are the same run. -/
theorem Descends.unique {o : Occurrence} {w w₁ w₂ : World τ} {calls₁ calls₂ : List Occurrence}
    {ending₁ ending₂ : Ending} (h₁ : Descends direction check visitor o w calls₁ ending₁ w₁)
    (h₂ : Descends direction check visitor o w calls₂ ending₂ w₂)
    (ended₁ : ending₁ ≠ .unfinished) (ended₂ : ending₂ ≠ .unfinished) :
    calls₁ = calls₂ ∧ ending₁ = ending₂ ∧ w₁ = w₂ := by
  obtain ⟨steps₁, e₁⟩ := exists_walk_recorded_iff.2 h₁
  obtain ⟨steps₂, e₂⟩ := exists_walk_recorded_iff.2 h₂
  have more₁ := walk_add (by rw [e₁]; exact ended₁) steps₂
  have more₂ := walk_add (by rw [e₂]; exact ended₂) steps₁
  rw [Nat.add_comm, more₂, e₁, e₂] at more₁
  obtain ⟨rfl, h⟩ := Prod.mk.inj more₁
  obtain ⟨rfl, rfl⟩ := World.noted_inj h
  exact ⟨rfl, rfl, rfl⟩

/-- The walk from a root and the recursion from it: within some number of steps
the walk comes to an ending and a world, by the given calls of the visitor, just
when a run of the recursion does. Runs that were cut are among them. -/
theorem walk_iff_descends (direction : Direction) (check : Check) (visitor : Visitor τ)
    (root : NodeId) (w : World τ) (calls : List Occurrence) (ending : Ending) (w' : World τ) :
    (∃ steps, walk direction check visitor steps [.alone root] w = (ending, w') ∧
      walk direction check visitor.recorded steps [.alone root] (w.noted []) =
        (ending, w'.noted calls)) ↔
    Descends direction check visitor (.alone root) w calls ending w' := by
  rw [← exists_walk_recorded_iff]
  constructor
  · rintro ⟨steps, _, h⟩
    exact ⟨steps, h⟩
  · rintro ⟨steps, h⟩
    refine ⟨steps, ?_, h⟩
    obtain ⟨made, _, _, noted⟩ :=
      walk_noting direction check visitor (fun o _ => o) steps [.alone root] w
    rw [noted] at h
    obtain ⟨he, hw⟩ := Prod.mk.inj h
    exact Prod.ext he (World.noted_inj hw).1

/-- A root with a leaf and a twig, which has the same leaf. -/
def ladder : Store :=
  ⟨#[.ofKind "leaf", ⟨"twig", .empty, some [⟨0⟩]⟩, ⟨"root", .empty, some [⟨0⟩, ⟨1⟩]⟩], 0⟩

/-- Counts its calls, and gives the twig one more leaf when it is there. -/
def growing : Visitor Nat := fun o w =>
  (.ok .proceed, ⟨if o.node = ⟨1⟩ then w.store.pushChild ⟨1⟩ ⟨0⟩ else w.store, w.state + 1⟩)

/-- The children of the twig are read after the visitor was there. The last run is cut. -/
theorem walk_iff_descends_ladder :
    Descends .forward .always growing (.alone ⟨2⟩) ⟨ladder, 0⟩
      [⟨⟨2⟩, none, none⟩, ⟨⟨0⟩, some 0, some ⟨2⟩⟩, ⟨⟨1⟩, some 1, some ⟨2⟩⟩,
        ⟨⟨0⟩, some 0, some ⟨1⟩⟩, ⟨⟨0⟩, some 1, some ⟨1⟩⟩]
      .completed ⟨ladder.pushChild ⟨1⟩ ⟨0⟩, 5⟩ ∧
    Descends .reversed .always growing (.alone ⟨2⟩) ⟨ladder, 0⟩
      [⟨⟨2⟩, none, none⟩, ⟨⟨1⟩, some 1, some ⟨2⟩⟩, ⟨⟨0⟩, some 1, some ⟨1⟩⟩,
        ⟨⟨0⟩, some 0, some ⟨1⟩⟩, ⟨⟨0⟩, some 0, some ⟨2⟩⟩]
      .completed ⟨ladder.pushChild ⟨1⟩ ⟨0⟩, 5⟩ ∧
    Descends .reversed .always growing (.alone ⟨2⟩) ⟨ladder, 0⟩
      [⟨⟨2⟩, none, none⟩, ⟨⟨1⟩, some 1, some ⟨2⟩⟩]
      .unfinished ⟨ladder.pushChild ⟨1⟩ ⟨0⟩, 2⟩ :=
  ⟨(walk_iff_descends ..).1 ⟨5, rfl, rfl⟩, (walk_iff_descends ..).1 ⟨5, rfl, rfl⟩,
    (walk_iff_descends ..).1 ⟨2, rfl, rfl⟩⟩

end TreeIndex
