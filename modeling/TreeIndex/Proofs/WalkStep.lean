import TreeIndex.Calls

/-!
# One step of a walk

`Meeting` lists what can happen when a walk comes to an occurrence; each case
has its equation for the step. From these come the two facts on whole walks
below: further steps change no walk that has ended, and a visitor that also
takes notes of its calls walks as the visitor does.
-/
namespace TreeIndex

variable {τ : Type}

/-- What can happen when a walk comes to an occurrence. -/
inductive Meeting (check : Check) (visitor : Visitor τ) (o : Occurrence) (w : World τ) : Prop
  | checkFails (failure : Failure) (hc : check.accepts w.store o = .error failure)
  | refused (hc : check.accepts w.store o = .ok false)
  | visitFails (failure : Failure) (w₁ : World τ) (hc : check.accepts w.store o = .ok true)
    (hv : visitor o w = (.error failure, w₁))
  | exits (w₁ : World τ) (hc : check.accepts w.store o = .ok true)
    (hv : visitor o w = (.ok .exit, w₁))
  | skips (w₁ : World τ) (hc : check.accepts w.store o = .ok true)
    (hv : visitor o w = (.ok .skip, w₁))
  | proceeds (w₁ : World τ) (hc : check.accepts w.store o = .ok true)
    (hv : visitor o w = (.ok .proceed, w₁))

theorem meeting (check : Check) (visitor : Visitor τ) (o : Occurrence) (w : World τ) :
    Meeting check visitor o w := by
  cases hc : check.accepts w.store o with
  | error failure => exact .checkFails failure hc
  | ok accepted =>
    cases accepted with
    | false => exact .refused hc
    | true =>
      cases hv : visitor o w with
      | mk answer w₁ =>
        cases answer with
        | error failure => exact .visitFails failure w₁ hc hv
        | ok action =>
          cases action with
          | proceed => exact .proceeds w₁ hc hv
          | skip => exact .skips w₁ hc hv
          | exit => exact .exits w₁ hc hv

section Step

variable {direction : Direction} {check : Check} {visitor : Visitor τ} {o : Occurrence}
  {w w₁ : World τ} {failure : Failure} (steps : Nat) (pending : List Occurrence)

@[simp] theorem walk_nil : walk direction check visitor steps [] w = (.completed, w) := by
  cases steps <;> rfl

@[simp] theorem walk_zero :
    walk direction check visitor 0 (o :: pending) w = (.unfinished, w) := rfl

theorem walk_checkFails (hc : check.accepts w.store o = .error failure) :
    walk direction check visitor (steps + 1) (o :: pending) w = (.failed failure, w) := by
  simp [walk, hc]

theorem walk_refused (hc : check.accepts w.store o = .ok false) :
    walk direction check visitor (steps + 1) (o :: pending) w =
      walk direction check visitor steps
        (direction.arrange (w.store.occurrencesBelow o.node) ++ pending) w := by
  simp [walk, hc]

theorem walk_visitFails (hc : check.accepts w.store o = .ok true)
    (hv : visitor o w = (.error failure, w₁)) :
    walk direction check visitor (steps + 1) (o :: pending) w = (.failed failure, w₁) := by
  simp [walk, hc, hv]

theorem walk_exits (hc : check.accepts w.store o = .ok true)
    (hv : visitor o w = (.ok .exit, w₁)) :
    walk direction check visitor (steps + 1) (o :: pending) w = (.exited, w₁) := by
  simp [walk, hc, hv]

theorem walk_skips (hc : check.accepts w.store o = .ok true)
    (hv : visitor o w = (.ok .skip, w₁)) :
    walk direction check visitor (steps + 1) (o :: pending) w =
      walk direction check visitor steps pending w₁ := by
  simp [walk, hc, hv]

theorem walk_proceeds (hc : check.accepts w.store o = .ok true)
    (hv : visitor o w = (.ok .proceed, w₁)) :
    walk direction check visitor (steps + 1) (o :: pending) w =
      walk direction check visitor steps
        (direction.arrange (w₁.store.occurrencesBelow o.node) ++ pending) w₁ := by
  simp [walk, hc, hv]

/-- A walk that has ended is not changed by further steps. -/
theorem walk_add {pending : List Occurrence} {steps : Nat}
    (ended : (walk direction check visitor steps pending w).1 ≠ .unfinished) (more : Nat) :
    walk direction check visitor (steps + more) pending w =
      walk direction check visitor steps pending w := by
  induction steps generalizing pending w with
  | zero => cases pending <;> simp_all
  | succ steps ih =>
    cases pending with
    | nil => simp
    | cons o pending =>
      rw [Nat.add_right_comm]
      cases meeting check visitor o w with
      | checkFails failure hc => simp only [walk_checkFails _ _ hc]
      | refused hc =>
        simp only [walk_refused _ _ hc] at ended ⊢
        exact ih ended
      | visitFails failure w₁ hc hv => simp only [walk_visitFails _ _ hc hv]
      | exits w₁ hc hv => simp only [walk_exits _ _ hc hv]
      | skips w₁ hc hv =>
        simp only [walk_skips _ _ hc hv] at ended ⊢
        exact ih ended
      | proceeds w₁ hc hv =>
        simp only [walk_proceeds _ _ hc hv] at ended ⊢
        exact ih ended

end Step

section Notes

variable {direction : Direction} {check : Check} {visitor : Visitor τ} {α : Type}

@[simp] theorem World.store_noted (w : World τ) (notes : List α) :
    (w.noted notes).store = w.store := rfl

theorem World.noted_inj {w w' : World τ} {notes notes' : List α}
    (h : w.noted notes = w'.noted notes') : w = w' ∧ notes = notes' := by
  cases w
  cases w'
  simp_all [World.noted]

theorem Visitor.noting_eq {o : Occurrence} {w w₁ : World τ} {answer : Except Failure Action}
    (note : Occurrence → World τ → α) (hv : visitor o w = (answer, w₁)) (log : List α) :
    visitor.noting note o (w.noted log) = (answer, w₁.noted (log ++ [note o w])) := by
  have : visitor o ⟨w.store, w.state⟩ = (answer, w₁) := hv
  simp [Visitor.noting, World.noted, this]

section NotedStep

variable {o : Occurrence} {w w₁ : World τ} {failure : Failure} {note : Occurrence → World τ → α}
  (steps : Nat) (pending : List Occurrence) (log : List α)

theorem noting_checkFails (hc : check.accepts w.store o = .error failure) :
    walk direction check (visitor.noting note) (steps + 1) (o :: pending) (w.noted log) =
      (.failed failure, w.noted log) :=
  walk_checkFails (w := w.noted log) steps pending hc

theorem noting_refused (hc : check.accepts w.store o = .ok false) :
    walk direction check (visitor.noting note) (steps + 1) (o :: pending) (w.noted log) =
      walk direction check (visitor.noting note) steps
        (direction.arrange (w.store.occurrencesBelow o.node) ++ pending) (w.noted log) := by
  rw [walk_refused (w := w.noted log) steps pending hc, World.store_noted]

theorem noting_visitFails (hc : check.accepts w.store o = .ok true)
    (hv : visitor o w = (.error failure, w₁)) :
    walk direction check (visitor.noting note) (steps + 1) (o :: pending) (w.noted log) =
      (.failed failure, w₁.noted (log ++ [note o w])) :=
  walk_visitFails (w := w.noted log) steps pending hc (Visitor.noting_eq note hv log)

theorem noting_exits (hc : check.accepts w.store o = .ok true)
    (hv : visitor o w = (.ok .exit, w₁)) :
    walk direction check (visitor.noting note) (steps + 1) (o :: pending) (w.noted log) =
      (.exited, w₁.noted (log ++ [note o w])) :=
  walk_exits (w := w.noted log) steps pending hc (Visitor.noting_eq note hv log)

theorem noting_skips (hc : check.accepts w.store o = .ok true)
    (hv : visitor o w = (.ok .skip, w₁)) :
    walk direction check (visitor.noting note) (steps + 1) (o :: pending) (w.noted log) =
      walk direction check (visitor.noting note) steps pending (w₁.noted (log ++ [note o w])) :=
  walk_skips (w := w.noted log) steps pending hc (Visitor.noting_eq note hv log)

theorem noting_proceeds (hc : check.accepts w.store o = .ok true)
    (hv : visitor o w = (.ok .proceed, w₁)) :
    walk direction check (visitor.noting note) (steps + 1) (o :: pending) (w.noted log) =
      walk direction check (visitor.noting note) steps
        (direction.arrange (w₁.store.occurrencesBelow o.node) ++ pending)
        (w₁.noted (log ++ [note o w])) := by
  rw [walk_proceeds (w := w.noted log) steps pending hc (Visitor.noting_eq note hv log),
    World.store_noted]

end NotedStep

/-- Taking notes changes nothing else, and there is one note for each call made. -/
theorem walk_noting (direction : Direction) (check : Check) (visitor : Visitor τ)
    (note : Occurrence → World τ → α) (steps : Nat) (pending : List Occurrence) (w : World τ) :
    ∃ calls, CallsMade direction check visitor pending w calls ∧
      CallsLead check visitor w calls (walk direction check visitor steps pending w) ∧
      ∀ log, walk direction check (visitor.noting note) steps pending (w.noted log) =
        ((walk direction check visitor steps pending w).1,
          (walk direction check visitor steps pending w).2.noted
            (log ++ calls.map fun call => note call.1 call.2)) := by
  induction steps generalizing pending w with
  | zero =>
    cases pending with
    | nil => exact ⟨[], .stopped, .completed, fun log => by simp⟩
    | cons o pending => exact ⟨[], .stopped, .unfinished, fun log => by simp⟩
  | succ steps ih =>
    cases pending with
    | nil => exact ⟨[], .stopped, .completed, fun log => by simp⟩
    | cons o pending =>
      cases meeting check visitor o w with
      | checkFails failure hc =>
        refine ⟨[], .stopped, walk_checkFails _ _ hc ▸ .checkFails hc, fun log => ?_⟩
        rw [noting_checkFails _ _ _ hc, walk_checkFails _ _ hc]
        simp
      | refused hc =>
        obtain ⟨calls, made, lead, later⟩ :=
          ih (direction.arrange (w.store.occurrencesBelow o.node) ++ pending) w
        refine ⟨calls, .refused hc made, walk_refused _ _ hc ▸ lead, fun log => ?_⟩
        rw [noting_refused _ _ _ hc, walk_refused _ _ hc]
        exact later log
      | visitFails failure w₁ hc hv =>
        refine ⟨[(o, w)], .last hc, walk_visitFails _ _ hc hv ▸ .visitFails hv, fun log => ?_⟩
        rw [noting_visitFails _ _ _ hc hv, walk_visitFails _ _ hc hv]
        rfl
      | exits w₁ hc hv =>
        refine ⟨[(o, w)], .last hc, walk_exits _ _ hc hv ▸ .exits hv, fun log => ?_⟩
        rw [noting_exits _ _ _ hc hv, walk_exits _ _ hc hv]
        rfl
      | skips w₁ hc hv =>
        obtain ⟨calls, made, lead, later⟩ := ih pending w₁
        refine ⟨(o, w) :: calls, .skips hc hv made,
          walk_skips _ _ hc hv ▸ .goesOn hv nofun lead, fun log => ?_⟩
        rw [noting_skips _ _ _ hc hv, walk_skips _ _ hc hv, later]
        simp
      | proceeds w₁ hc hv =>
        obtain ⟨calls, made, lead, later⟩ :=
          ih (direction.arrange (w₁.store.occurrencesBelow o.node) ++ pending) w₁
        refine ⟨(o, w) :: calls, .proceeds hc hv made,
          walk_proceeds _ _ hc hv ▸ .goesOn hv nofun lead, fun log => ?_⟩
        rw [noting_proceeds _ _ _ hc hv, walk_proceeds _ _ hc hv]
        exact (later _).trans (by simp)

end Notes

end TreeIndex
