import TreeIndex.Decimal
import TreeIndex.Json

/-!
# Compact JSON text

No blanks between tokens, members in their order. In strings only the quote,
the backslash and the control characters below the blank are escaped, with the
short forms where there is one; everything else stands for itself. The writer
appends to a text that is already there, so a value is written in one pass.
-/
namespace TreeIndex
namespace JsonText

/-- The lower-case hexadecimal digits of a number, at least one. -/
def hexadecimal (n : Nat) : String := String.ofList (Nat.toDigits 16 n)

def escaped (c : Char) : String :=
  match c with
  | '"' => "\\\""
  | '\\' => "\\\\"
  | '\n' => "\\n"
  | '\r' => "\\r"
  | '\t' => "\\t"
  | '\x08' => "\\b"
  | '\x0c' => "\\f"
  | c =>
    if c.toNat < 32 then
      (("\\u00".push (Nat.digitChar (c.toNat / 16))).push (Nat.digitChar (c.toNat % 16)))
    else c.toString

def appendString (out text : String) : String :=
  (text.foldl (fun out c => out ++ escaped c) (out.push '"')).push '"'

def numberText : Json.Number → String
  | .int value => toString value
  | .float value _ => Decimal.interchange.text value

mutual

def append (out : String) : Json → String
  | .null => out ++ "null"
  | .bool true => out ++ "true"
  | .bool false => out ++ "false"
  | .number value => out ++ numberText value
  | .string value => appendString out value
  | .array [] => out ++ "[]"
  | .array (item :: items) => (appendItems (append (out.push '[') item) items).push ']'
  | .object [] => out ++ "\x7b\x7d"
  | .object ((name, value) :: members) =>
    let first := append ((appendString (out.push '\x7b') name).push ':') value
    (appendMembers first members).push '\x7d'

/-- The items after the first, each behind a comma. -/
def appendItems (out : String) : List Json → String
  | [] => out
  | item :: items => appendItems (append (out.push ',') item) items

/-- The members after the first, each behind a comma. -/
def appendMembers (out : String) : List (String × Json) → String
  | [] => out
  | (name, value) :: members =>
    appendMembers (append ((appendString (out.push ',') name).push ':') value) members

end

end JsonText

def Json.compact (value : Json) : String := JsonText.append "" value

end TreeIndex
