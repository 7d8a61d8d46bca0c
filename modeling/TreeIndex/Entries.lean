/-!
# Named entries in order

An entry list pairs names with values in the order in which the names were
first written. Writing a name that is present keeps its place, and dropping one
keeps the order of the others. `Fields` is such a list with its invariant: no
name stands twice.
-/
namespace TreeIndex
namespace Entries

variable {α : Type}

def names (entries : List (String × α)) : List String := entries.map Prod.fst

def find? (name : String) : List (String × α) → Option α
  | [] => none
  | (other, value) :: rest => if other = name then some value else find? name rest

/-- Writes a value in the place of its name, at the end for a new name. -/
def put (name : String) (value : α) : List (String × α) → List (String × α)
  | [] => [(name, value)]
  | (other, old) :: rest =>
    if other = name then (name, value) :: rest else (other, old) :: put name value rest

/-- Removes the entry of a name. -/
def drop (name : String) : List (String × α) → List (String × α)
  | [] => []
  | (other, old) :: rest =>
    if other = name then rest else (other, old) :: drop name rest

@[simp] theorem find?_nil (name : String) : find? name ([] : List (String × α)) = none := rfl

theorem find?_cons (name other : String) (value : α) (rest : List (String × α)) :
    find? name ((other, value) :: rest) =
      if other = name then some value else find? name rest := rfl

theorem find?_put (name other : String) (value : α) (entries : List (String × α)) :
    find? other (put name value entries) =
      if name = other then some value else find? other entries := by
  induction entries with
  | nil => simp [put, find?_cons]
  | cons entry rest ih =>
    obtain ⟨key, old⟩ := entry
    by_cases h : key = name
    · subst h; by_cases k : key = other <;> simp [put, find?_cons, k]
    · by_cases k : key = other
      · subst k; simp [put, find?_cons, h, Ne.symm h]
      · simp [put, find?_cons, h, k, ih]

theorem names_put (name : String) (value : α) (entries : List (String × α)) :
    names (put name value entries) =
      if name ∈ names entries then names entries else names entries ++ [name] := by
  induction entries with
  | nil => simp [put, names]
  | cons entry rest ih =>
    obtain ⟨key, old⟩ := entry
    by_cases h : key = name
    · subst h; simp [put, names]
    · simp only [names] at ih
      by_cases k : name ∈ rest.map Prod.fst <;> simp [put, names, h, Ne.symm h, ih, k]

/-- A new name is written at the end. -/
theorem put_of_not_mem {name : String} (value : α) {entries : List (String × α)}
    (new : name ∉ names entries) : put name value entries = entries ++ [(name, value)] := by
  induction entries with
  | nil => rfl
  | cons entry rest ih =>
    obtain ⟨key, old⟩ := entry
    simp only [names, List.map_cons, List.mem_cons, not_or] at new ih
    simp [put, Ne.symm new.1, ih new.2]

theorem nodup_names_put (name : String) (value : α) {entries : List (String × α)}
    (h : (names entries).Nodup) : (names (put name value entries)).Nodup := by
  rw [names_put]
  by_cases k : name ∈ names entries
  · simpa [k] using h
  · simpa [k, List.nodup_append] using ⟨h, fun a ha e => k (e ▸ ha)⟩

theorem names_drop (name : String) (entries : List (String × α)) :
    names (drop name entries) = (names entries).erase name := by
  induction entries with
  | nil => simp [drop, names]
  | cons entry rest ih =>
    obtain ⟨key, old⟩ := entry
    by_cases h : key = name
    · subst h; simp [drop, names]
    · simp only [names] at ih
      have h' : (key == name) = false := by simpa using h
      simp [drop, names, h, h', ih]

theorem find?_eq_none {name : String} {entries : List (String × α)} :
    find? name entries = none ↔ name ∉ names entries := by
  induction entries with
  | nil => simp [names]
  | cons entry rest ih =>
    obtain ⟨key, old⟩ := entry
    by_cases h : key = name
    · subst h; simp [find?_cons, names]
    · simp only [names] at ih
      simp [find?_cons, names, h, Ne.symm h, ih]

theorem find?_drop (name other : String) {entries : List (String × α)}
    (h : (names entries).Nodup) :
    find? other (drop name entries) = if name = other then none else find? other entries := by
  induction entries with
  | nil => simp [drop]
  | cons entry rest ih =>
    obtain ⟨key, old⟩ := entry
    simp only [names, List.map_cons, List.nodup_cons] at h
    by_cases e : key = name
    · subst e
      by_cases k : key = other
      · subst k; simpa [drop] using find?_eq_none.2 h.1
      · simp [drop, find?_cons, k]
    · by_cases k : key = other
      · subst k; simp [drop, find?_cons, e, Ne.symm e]
      · simp [drop, find?_cons, e, k, ih h.2]

end Entries

structure Fields (α : Type) where
  entries : List (String × α)
  distinct : (Entries.names entries).Nodup

namespace Fields

variable {α : Type}

def empty : Fields α := ⟨[], by simp [Entries.names]⟩

instance : Inhabited (Fields α) := ⟨empty⟩

def names (fields : Fields α) : List String := Entries.names fields.entries

def size (fields : Fields α) : Nat := fields.entries.length

def get? (fields : Fields α) (name : String) : Option α := Entries.find? name fields.entries

def contains (fields : Fields α) (name : String) : Bool := (fields.get? name).isSome

def insert (fields : Fields α) (name : String) (value : α) : Fields α :=
  ⟨Entries.put name value fields.entries, Entries.nodup_names_put name value fields.distinct⟩

def erase (fields : Fields α) (name : String) : Fields α :=
  ⟨Entries.drop name fields.entries, by rw [Entries.names_drop]; exact fields.distinct.erase name⟩

/-- A repeated name keeps its first place and its last value. -/
def ofList (entries : List (String × α)) : Fields α :=
  entries.foldl (fun fields entry => fields.insert entry.1 entry.2) empty

@[simp] theorem get?_empty (name : String) : (empty : Fields α).get? name = none := rfl

theorem get?_insert (fields : Fields α) (name other : String) (value : α) :
    (fields.insert name value).get? other =
      if name = other then some value else fields.get? other :=
  Entries.find?_put name other value fields.entries

theorem get?_erase (fields : Fields α) (name other : String) :
    (fields.erase name).get? other = if name = other then none else fields.get? other :=
  Entries.find?_drop name other fields.distinct

theorem names_insert (fields : Fields α) (name : String) (value : α) :
    (fields.insert name value).names =
      if name ∈ fields.names then fields.names else fields.names ++ [name] :=
  Entries.names_put name value fields.entries

theorem names_erase (fields : Fields α) (name : String) :
    (fields.erase name).names = fields.names.erase name :=
  Entries.names_drop name fields.entries

theorem get?_eq_none {fields : Fields α} {name : String} :
    fields.get? name = none ↔ name ∉ fields.names := Entries.find?_eq_none

@[ext] theorem ext {fields others : Fields α} (h : fields.entries = others.entries) :
    fields = others := by
  cases fields; cases others; cases h; rfl

end Fields
end TreeIndex
