import TreeIndex.JsonText
import TreeIndex.Unprintable

/-!
# Layout of debugging text

A dump is an atom, a pair written with a colon, or a group of dumps between
brackets. It is written in one line, or with each member of a group on lines of
its own, indented by four blanks and closed by a comma. An empty group is
written in one line either way. Atoms stand as they are; `quoted` makes one of
a text.
-/
namespace TreeIndex

/-- The brackets of a group, in one line and around lines of their own. -/
structure Brackets where
  opener : String
  closer : String
  above : String
  below : String

inductive Dump where
  | atom (text : String)
  | pair (left right : Dump)
  | group (brackets : Brackets) (members : List Dump)

namespace Dump

def indent (text : String) : String :=
  text.foldl (fun out c => if c = '\n' then out ++ "\n    " else out.push c) "    "

mutual

def flat : Dump → String
  | .atom text => text
  | .pair left right => flat left ++ ": " ++ flat right
  | .group brackets members =>
    brackets.opener ++ String.intercalate ", " (flatAll members) ++ brackets.closer

def flatAll : List Dump → List String
  | [] => []
  | member :: members => flat member :: flatAll members

end

mutual

def lines : Dump → String
  | .atom text => text
  | .pair left right => lines left ++ ": " ++ lines right
  | .group brackets [] => brackets.opener ++ brackets.closer
  | .group brackets (member :: members) =>
    brackets.above ++ "\n" ++ indent (lines member ++ ",") ++ "\n" ++ linesAll members
      ++ brackets.below

def linesAll : List Dump → String
  | [] => ""
  | member :: members => indent (lines member ++ ",") ++ "\n" ++ linesAll members

end

/-- The text in one line, or spread over lines. -/
def text (spread : Bool) (dump : Dump) : String :=
  if spread then dump.lines else dump.flat

def list (members : List Dump) : Dump := .group ⟨"[", "]", "[", "]"⟩ members

def map (pairs : List Dump) : Dump := .group ⟨"\x7b", "\x7d", "\x7b", "\x7d"⟩ pairs

def tuple (name : String) (members : List Dump) : Dump :=
  .group ⟨name ++ "(", ")", name ++ "(", ")"⟩ members

def record (name : String) (fields : List (String × Dump)) : Dump :=
  .group ⟨name ++ " \x7b ", " \x7d", name ++ " \x7b", "\x7d"⟩
    (fields.map fun field => .pair (.atom field.1) field.2)

/-- A record with more fields than those written. -/
def openRecord (name : String) (fields : List (String × Dump)) : Dump :=
  .group ⟨name ++ " \x7b ", ", .. \x7d", name ++ " \x7b", "    ..\n\x7d"⟩
    (fields.map fun field => .pair (.atom field.1) field.2)

def escaped (c : Char) : String :=
  match c with
  | '"' => "\\\""
  | '\\' => "\\\\"
  | '\n' => "\\n"
  | '\r' => "\\r"
  | '\t' => "\\t"
  | '\x00' => "\\0"
  | c => if isPrintable c then c.toString else "\\u\x7b" ++ JsonText.hexadecimal c.toNat ++ "\x7d"

/-- A text between quotes; what is not seen by itself stands as its code. -/
def quoted (text : String) : Dump :=
  .atom ((text.foldl (fun out c => out ++ escaped c) "\"").push '"')

end Dump
end TreeIndex
