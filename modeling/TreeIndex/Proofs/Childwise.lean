import Mathlib.Data.List.Forall2

/-!
# Child lists item by item

Two child lists, each of which may be absent, correspond under a relation when
both are absent or the items of one are related to those of the other in turn.
Before them stand the like facts on any two values that may be absent.
-/
namespace TreeIndex

/-- No child list on either side, or two lists whose items are related in turn. -/
abbrev Childwise {α β : Type} (R : α → β → Prop) : Option (List α) → Option (List β) → Prop :=
  Option.Rel (List.Forall₂ R)

variable {α β γ : Type}

theorem forall₂_imp_of_mem {R S : α → β → Prop} {left : List α} {right : List β}
    (all : List.Forall₂ R left right) (imp : ∀ a ∈ left, ∀ b ∈ right, R a b → S a b) :
    List.Forall₂ S left right := by
  obtain ⟨long, all⟩ := List.forall₂_iff_zip.1 all
  refine List.forall₂_iff_zip.2 ⟨long, fun {a b} here => ?_⟩
  obtain ⟨inLeft, inRight⟩ := List.of_mem_zip here
  exact imp a inLeft b inRight (all here)

theorem forall_mem_iff_of_forall₂ {P : α → Prop} {Q : β → Prop} {left : List α} {right : List β}
    (all : List.Forall₂ (fun a b => P a ↔ Q b) left right) :
    (∀ a ∈ left, P a) ↔ ∀ b ∈ right, Q b := by
  induction all with
  | nil => simp
  | cons here _ ih => simp [here, ih]

theorem exists_mem_iff_of_forall₂ {P : α → Prop} {Q : β → Prop} {left : List α} {right : List β}
    (all : List.Forall₂ (fun a b => P a ↔ Q b) left right) :
    (∃ a ∈ left, P a) ↔ ∃ b ∈ right, Q b := by
  induction all with
  | nil => simp
  | cons here _ ih => simp [here, ih]

theorem rel_imp_of_mem {R S : α → β → Prop} {left : Option α} {right : Option β}
    (h : Option.Rel R left right) (imp : ∀ a ∈ left, ∀ b ∈ right, R a b → S a b) :
    Option.Rel S left right := by
  cases h with
  | none => exact .none
  | some here => exact .some (imp _ rfl _ rfl here)

theorem rel_flip {R : α → β → Prop} {left : Option α} {right : Option β}
    (h : Option.Rel R left right) : Option.Rel (fun b a => R a b) right left := by
  cases h with
  | none => exact .none
  | some here => exact .some here

theorem rel_comp {R : α → β → Prop} {S : β → γ → Prop} {left : Option α} {middle : Option β}
    {right : Option γ} (first : Option.Rel R left middle) (second : Option.Rel S middle right) :
    Option.Rel (fun a c => ∃ b, R a b ∧ S b c) left right := by
  cases first with
  | none =>
    cases second
    exact .none
  | some here =>
    cases second with
    | some there => exact .some ⟨_, here, there⟩

theorem rel_isSome_eq {R : α → β → Prop} {left : Option α} {right : Option β}
    (h : Option.Rel R left right) : left.isSome = right.isSome := by
  cases h <;> rfl

theorem rel_or {R : α → β → Prop} {first second : Option α} {left right : Option β}
    (h : Option.Rel R first left) (k : Option.Rel R second right) :
    Option.Rel R (first.or second) (left.or right) := by
  cases h with
  | none => simpa using k
  | some here => exact .some here

theorem rel_map {δ : Type} {R : α → β → Prop} {f : γ → α} {g : δ → β} {left : Option γ}
    {right : Option δ} :
    Option.Rel R (left.map f) (right.map g) ↔
      Option.Rel (fun c d => R (f c) (g d)) left right := by
  cases left <;> cases right <;> simp

theorem Childwise.imp_of_mem {R S : α → β → Prop} {left : Option (List α)}
    {right : Option (List β)} (h : Childwise R left right)
    (imp : ∀ a ∈ left.getD [], ∀ b ∈ right.getD [], R a b → S a b) : Childwise S left right := by
  cases h with
  | none => exact .none
  | some all => exact .some (forall₂_imp_of_mem all imp)

theorem Childwise.exists_of_mem {R : α → β → Prop} {left : Option (List α)}
    {right : Option (List β)} (h : Childwise R left right) :
    ∀ a ∈ left.getD [], ∃ b ∈ right.getD [], R a b := by
  cases h with
  | none => simp
  | some all =>
    induction all with
    | nil => simp
    | cons here _ ih => simp_all

theorem Childwise.flip {R : α → β → Prop} {left : Option (List α)}
    {right : Option (List β)} (h : Childwise R left right) :
    Childwise (fun b a => R a b) right left := by
  cases h with
  | none => exact .none
  | some all => exact .some all.flip

theorem Childwise.isSome_eq {R : α → β → Prop} {left : Option (List α)}
    {right : Option (List β)} (h : Childwise R left right) : left.isSome = right.isSome :=
  rel_isSome_eq h

theorem Childwise.and {R S : α → β → Prop} {left : Option (List α)} {right : Option (List β)}
    (h : Childwise R left right) (k : Childwise S left right) :
    Childwise (fun a b => R a b ∧ S a b) left right := by
  cases h with
  | none => exact .none
  | some all =>
    obtain others | _ := k
    exact .some (List.Forall₂.mp (fun _ _ => And.intro) all others)

theorem exists_childwise {R : α → β → Prop} {right : Option (List β)}
    (all : ∀ b ∈ right.getD [], ∃ a, R a b) : ∃ left, Childwise R left right := by
  cases right with
  | none => exact ⟨none, .none⟩
  | some items =>
    obtain ⟨found, here⟩ : ∃ found, List.Forall₂ R found items := by
      simp only [Option.getD_some] at all
      induction items with
      | nil => exact ⟨[], .nil⟩
      | cons b items ih =>
        obtain ⟨a, first⟩ := all b (by simp)
        obtain ⟨found, rest⟩ := ih fun b h => all b (by simp [h])
        exact ⟨a :: found, .cons first rest⟩
    exact ⟨some found, .some here⟩

theorem Childwise.getElem? {R : α → β → Prop} {left : Option (List α)}
    {right : Option (List β)} (h : Childwise R left right) (index : Nat) :
    Option.Rel R (left.getD [])[index]? (right.getD [])[index]? := by
  cases h with
  | none => simp
  | some all =>
    simp only [Option.getD_some]
    induction all generalizing index with
    | nil => simp
    | cons here _ ih => cases index <;> simp [here, ih]

theorem forall₂_comp {R : α → β → Prop} {S : β → γ → Prop} {left : List α}
    {middle : List β} {right : List γ} (first : List.Forall₂ R left middle)
    (second : List.Forall₂ S middle right) :
    List.Forall₂ (fun a c => ∃ b, R a b ∧ S b c) left right := by
  induction first generalizing right with
  | nil =>
    cases second
    exact .nil
  | cons here _ ih =>
    obtain _ | ⟨there, rest⟩ := second
    exact .cons ⟨_, here, there⟩ (ih rest)

theorem Childwise.comp {R : α → β → Prop} {S : β → γ → Prop}
    {left : Option (List α)} {middle : Option (List β)} {right : Option (List γ)}
    (first : Childwise R left middle) (second : Childwise S middle right) :
    Childwise (fun a c => ∃ b, R a b ∧ S b c) left right := by
  cases first with
  | none =>
    cases second
    exact .none
  | some all =>
    obtain others | _ := second
    exact .some (forall₂_comp all others)

theorem Childwise.map_eq {f : α → γ} {g : β → γ} {left : Option (List α)}
    {right : Option (List β)} (h : Childwise (fun a b => f a = g b) left right) :
    left.map (List.map f) = right.map (List.map g) := by
  cases h with
  | none => rfl
  | some all =>
    refine congrArg some ?_
    induction all with
    | nil => rfl
    | cons here _ ih => rw [List.map_cons, List.map_cons, here, ih]

theorem childwise_map_right {R : α → β → Prop} {f : γ → β}
    {left : Option (List α)} {right : Option (List γ)} :
    Childwise R left (right.map (List.map f)) ↔ Childwise (fun a c => R a (f c)) left right := by
  cases left <;> cases right <;> simp

end TreeIndex
