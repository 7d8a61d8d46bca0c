import TreeIndex.Document
import Mathlib.Data.List.Basic

/-!
# Values at pointers

A pointer is a text of reference tokens, each after a slash; in a token `~1` is
a slash and `~0` a tilde. A token leads to the member of its name in an object,
and in an array to the item whose position it is the numeral of. The pointer of
an import error leads to the value at its child positions.
-/
namespace TreeIndex
namespace Json

/-- What a reference token stands for; none if a tilde is followed by anything else. -/
def unescape? : List Char → Option (List Char)
  | [] => some []
  | '~' :: '0' :: rest => (unescape? rest).map ('~' :: ·)
  | '~' :: '1' :: rest => (unescape? rest).map ('/' :: ·)
  | c :: rest => if c = '~' then none else (unescape? rest).map (c :: ·)

/-- The number that the token is the decimal numeral of, without leading zeros. -/
def index? (token : List Char) : Option Nat :=
  let index := Nat.ofDigitChars 10 token 0
  if Nat.toDigits 10 index = token then some index else none

/-- The member or item that a token, already without escapes, leads to. -/
def part? (token : List Char) : Json → Option Json
  | .object members => Entries.find? (String.ofList token) members
  | .array items => (index? token).bind fun index => items[index]?
  | _ => none

def follow? : List (List Char) → Json → Option Json
  | [], json => some json
  | token :: tokens, json =>
    (unescape? token).bind fun name => (part? name json).bind (follow? tokens)

/-- The value that a pointer leads to. -/
def resolve? (json : Json) (pointer : String) : Option Json :=
  match pointer.toList.splitOn '/' with
  | [] :: tokens => follow? tokens json
  | _ => none

/-- The child at a position, which is an item under `children`. -/
def child? (index : Nat) (json : Json) : Option Json :=
  match json.member? "children" with
  | some (.array items) => items[index]?
  | _ => none

/-- The value at the end of a way down, told by child positions. -/
def descend? : List Nat → Json → Option Json
  | [], json => some json
  | index :: path, json => (child? index json).bind (descend? path)

theorem unescape?_of_not_mem {token : List Char} (plain : '~' ∉ token) :
    unescape? token = some token := by
  induction token with
  | nil => rfl
  | cons c rest ih =>
    rw [List.mem_cons, not_or] at plain
    rw [unescape?, if_neg (Ne.symm plain.1), ih plain.2]
    · rfl
    · rintro _ rfl
      exact absurd rfl plain.1
    · rintro _ rfl
      exact absurd rfl plain.1

theorem index?_toDigits (index : Nat) : index? (Nat.toDigits 10 index) = some index := by
  simp [index?, Nat.ofDigitChars_ten_toDigits]

theorem not_mem_toDigits {c : Char} (other : c.isDigit = false) (index : Nat) :
    c ∉ Nat.toDigits 10 index := by
  intro inside
  have digit := Nat.isDigit_of_mem_toDigits (by decide) (by decide) inside
  simp [other] at digit

/-- The reference tokens of child positions. -/
def tokens : List Nat → List (List Char)
  | [] => []
  | index :: path => "children".toList :: Nat.toDigits 10 index :: tokens path

theorem intercalate_cons {α : Type} (between first : List α) (others : List (List α)) :
    between.intercalate (first :: others) = first ++ between.intercalate ([] :: others) := by
  cases others <;> simp [List.intercalate_singleton, List.intercalate_cons_cons]

theorem toList_pointerTo (path : List Nat) :
    (ImportError.pointerTo path).toList = ['/'].intercalate ([] :: tokens path) := by
  induction path with
  | nil => rfl
  | cons index path ih =>
    have slashes : "/children/".toList = '/' :: ("children".toList ++ ['/']) := rfl
    rw [ImportError.pointerTo, String.toList_append, String.toList_append, slashes, ih,
      Nat.toString_eq_ofList_toDigits, String.toList_ofList, tokens, List.intercalate_cons_cons,
      List.intercalate_cons_cons, intercalate_cons _ (Nat.toDigits 10 index)]
    simp

theorem not_mem_tokens {c : Char} (outside : c ∉ "children".toList) (other : c.isDigit = false)
    (path : List Nat) : ∀ token ∈ tokens path, c ∉ token := by
  induction path with
  | nil => simp [tokens]
  | cons index path ih =>
    have digits := not_mem_toDigits other index
    exact List.forall_mem_cons.2 ⟨outside, List.forall_mem_cons.2 ⟨digits, ih⟩⟩

theorem splitOn_pointerTo (path : List Nat) :
    (ImportError.pointerTo path).toList.splitOn '/' = [] :: tokens path := by
  have slashless := not_mem_tokens (c := '/') (by decide) rfl path
  rw [toList_pointerTo]
  exact List.splitOn_intercalate '/' (List.forall_mem_cons.2 ⟨by simp, slashless⟩) (by simp)

theorem child?_eq_some {index : Nat} {json child : Json} : json.child? index = some child ↔
    ∃ members items, json = .object members ∧
      Entries.find? "children" members = some (.array items) ∧ items[index]? = some child := by
  constructor
  · intro h
    unfold child? at h
    split at h
    next items listed =>
      cases json with
      | object members => exact ⟨members, items, rfl, listed, h⟩
      | _ => cases listed
    next => cases h
  · rintro ⟨members, items, rfl, listed, item⟩
    rw [child?, member?, listed]
    exact item

theorem follow?_child {index : Nat} {json child : Json} (h : json.child? index = some child)
    (rest : List (List Char)) :
    json.follow? ("children".toList :: Nat.toDigits 10 index :: rest) = child.follow? rest := by
  obtain ⟨members, items, rfl, listed, item⟩ := child?_eq_some.1 h
  have list : part? "children".toList (.object members) = some (.array items) := listed
  have digits : part? (Nat.toDigits 10 index) (.array items) = some child := by
    rw [part?, index?_toDigits]
    exact item
  rw [follow?, unescape?_of_not_mem (by decide), Option.bind_some, list, Option.bind_some,
    follow?, unescape?_of_not_mem (not_mem_toDigits rfl index), Option.bind_some, digits,
    Option.bind_some]

theorem follow?_tokens {path : List Nat} {json value : Json}
    (down : json.descend? path = some value) : json.follow? (tokens path) = some value := by
  induction path generalizing json with
  | nil => exact down
  | cons index path ih =>
    obtain ⟨child, here, rest⟩ := Option.bind_eq_some_iff.1 down
    rw [tokens, follow?_child here]
    exact ih rest

/-- The pointer of a way down leads to the value at its end. -/
theorem resolve?_pointerTo {path : List Nat} {json value : Json}
    (down : json.descend? path = some value) :
    json.resolve? (ImportError.pointerTo path) = some value := by
  rw [resolve?, splitOn_pointerTo]
  exact follow?_tokens down

/-- Pointers beyond those of import errors: escapes, an empty name, items, and numerals
that are none. -/
example :
    let items := Json.array [.string "bar", .string "baz"]
    let json := Json.object [("foo", items), ("", int 0), ("a/b", int 1), ("m~n", int 8)]
    json.resolve? "/foo" = some items ∧ json.resolve? "/foo/1" = some (.string "baz") ∧
      json.resolve? "/" = some (int 0) ∧ json.resolve? "/a~1b" = some (int 1) ∧
      json.resolve? "/m~0n" = some (int 8) ∧ json.resolve? "/foo/01" = none ∧
      json.resolve? "/foo/-" = none ∧ json.resolve? "foo" = none :=
  ⟨rfl, rfl, rfl, rfl, rfl, rfl, rfl, rfl⟩

end Json
end TreeIndex
