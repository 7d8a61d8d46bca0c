import TreeIndex.Json

/-!
# Reading JSON text

The reader takes one character at a time, so it is a fold over the text and
ends with it. Its state is the list of open containers, what may come next, and
the string or word that is being read. A number without point and exponent that
fits 64 bits is an integer; every other number is the nearest finite binary64
value, and `-0` is one of those. A name that is repeated in an object keeps its
first place and its last value.
-/
namespace TreeIndex
namespace JsonReader

/-- An open container with what it holds so far, the last item first. An object
also holds the name whose value is read next. -/
inductive Frame where
  | array (items : List Json)
  | object (members : List (String × Json)) (name : String)

/-- What may come next between tokens. -/
inductive Expect where
  | value
  | valueOrEnd
  | name
  | nameOrEnd
  | colon
  | commaOrEnd
  deriving DecidableEq

/-- Where a string stands: after a backslash, or inside a code of four digits. -/
inductive Escape where
  | plain
  | backslash
  | code (left value : Nat)

inductive Token where
  | between
  | word (chars : List Char)
  | string (text : String) (escape : Escape) (high : Option Nat)

structure State where
  frames : List Frame
  expect : Expect
  token : Token
  result : Option Json

def State.start : State := ⟨[], .value, .between, none⟩

def isBlank (c : Char) : Bool := c == ' ' || c == '\n' || c == '\r' || c == '\t'

def isWordChar (c : Char) : Bool := c.isAlphanum || c == '+' || c == '-' || c == '.'

def natOf (digits : List Char) : Nat := digits.foldl (fun n c => n * 10 + (c.toNat - 48)) 0

/-- The fraction digits, and what follows them. A point needs a digit behind it. -/
def fraction? : List Char → Option (Option (List Char) × List Char)
  | '.' :: rest =>
    let digits := rest.takeWhile Char.isDigit
    if digits.isEmpty then none else some (some digits, rest.dropWhile Char.isDigit)
  | rest => some (none, rest)

/-- The exponent, if one is written, up to the end of the word. -/
def exponent? : List Char → Option (Option Int)
  | [] => some none
  | e :: rest =>
    if e = 'e' ∨ e = 'E' then
      let (negative, digits) := match rest with
        | '-' :: digits => (true, digits)
        | '+' :: digits => (false, digits)
        | digits => (false, digits)
      if digits.isEmpty || !digits.all Char.isDigit then none
      else some (some (if negative then -(natOf digits : Int) else natOf digits))
    else none

def float? (negative : Bool) (digits : Nat) (exponent : Int) : Option Json.Number :=
  let x := Binary64.ofDecimal negative digits exponent
  if h : x.isFinite = true then some (.float x h) else none

def unsigned? (negative : Bool) (chars : List Char) : Option Json.Number := do
  let digits := chars.takeWhile Char.isDigit
  if digits.isEmpty then none
  if digits.head? = some '0' ∧ 1 < digits.length then none
  let (places, rest) ← fraction? (chars.dropWhile Char.isDigit)
  let exponent ← exponent? rest
  match places, exponent with
  | none, none =>
    let n := natOf digits
    if negative then
      if 0 < n ∧ n ≤ 0x8000000000000000 then some (.int (-n)) else float? true n 0
    else
      if n < 0x10000000000000000 then some (.int n) else float? false n 0
  | _, _ =>
    let places := places.getD []
    float? negative (natOf (digits ++ places)) (exponent.getD 0 - places.length)

def number? : List Char → Option Json.Number
  | '-' :: rest => unsigned? true rest
  | chars => unsigned? false chars

def word? (chars : List Char) : Option Json :=
  if chars = ['n', 'u', 'l', 'l'] then some .null
  else if chars = ['t', 'r', 'u', 'e'] then some (.bool true)
  else if chars = ['f', 'a', 'l', 's', 'e'] then some (.bool false)
  else (number? chars).map .number

/-- Puts a finished value into the innermost open container. -/
def State.deliver (state : State) (value : Json) : State :=
  match state.frames with
  | [] => ⟨[], .commaOrEnd, .between, some value⟩
  | .array items :: frames =>
    ⟨.array (value :: items) :: frames, .commaOrEnd, .between, none⟩
  | .object members name :: frames =>
    ⟨.object (Entries.put name value members) name :: frames, .commaOrEnd, .between, none⟩

/-- A finished string is a value or the name of a member. -/
def State.deliverString (state : State) (text : String) : Option State :=
  match state.expect, state.frames with
  | .name, .object members _ :: frames
  | .nameOrEnd, .object members _ :: frames =>
    some ⟨.object members text :: frames, .colon, .between, none⟩
  | .value, _ => some (state.deliver (.string text))
  | .valueOrEnd, _ => some (state.deliver (.string text))
  | _, _ => none

def State.awaitsValue (state : State) : Bool :=
  state.result.isNone && (state.expect == .value || state.expect == .valueOrEnd)

/-- A character between tokens. -/
def State.mark (state : State) (c : Char) : Option State :=
  if isBlank c then some state
  else match c, state.expect, state.frames with
    | '"', _, _ =>
      if state.result.isSome then none else some { state with token := .string "" .plain none }
    | '[', _, frames =>
      if state.awaitsValue then some ⟨.array [] :: frames, .valueOrEnd, .between, none⟩ else none
    | '\x7b', _, frames =>
      if state.awaitsValue then some ⟨.object [] "" :: frames, .nameOrEnd, .between, none⟩ else none
    | ']', .valueOrEnd, .array items :: frames
    | ']', .commaOrEnd, .array items :: frames =>
      some ({ state with frames := frames }.deliver (.array items.reverse))
    | '\x7d', .nameOrEnd, .object members _ :: frames
    | '\x7d', .commaOrEnd, .object members _ :: frames =>
      some ({ state with frames := frames }.deliver (.object members))
    | ',', .commaOrEnd, .array _ :: _ => some { state with expect := .value }
    | ',', .commaOrEnd, .object _ _ :: _ => some { state with expect := .name }
    | ':', .colon, _ => some { state with expect := .value }
    | c, _, _ =>
      if isWordChar c && state.awaitsValue then some { state with token := .word [c] } else none

def isHigh (code : Nat) : Bool := 0xD800 ≤ code && code < 0xDC00

def isLow (code : Nat) : Bool := 0xDC00 ≤ code && code < 0xE000

def hexValue? (c : Char) : Option Nat :=
  if c.isDigit then some (c.toNat - 48)
  else if 'a' ≤ c ∧ c ≤ 'f' then some (c.toNat - 87)
  else if 'A' ≤ c ∧ c ≤ 'F' then some (c.toNat - 55)
  else none

def simpleEscape? : Char → Option Char
  | '"' => some '"'
  | '\\' => some '\\'
  | '/' => some '/'
  | 'b' => some '\x08'
  | 'f' => some '\x0c'
  | 'n' => some '\n'
  | 'r' => some '\r'
  | 't' => some '\t'
  | _ => none

/-- A finished code of four digits: a character, or half of a pair. -/
def codeToken? (text : String) (high : Option Nat) (code : Nat) : Option Token :=
  match high with
  | some first =>
    if isLow code then
      let point := 0x10000 + (first - 0xD800) * 1024 + (code - 0xDC00)
      some (.string (text.push (Char.ofNat point)) .plain none)
    else none
  | none =>
    if isHigh code then some (.string text .plain (some code))
    else if isLow code then none
    else some (.string (text.push (Char.ofNat code)) .plain none)

/-- A character inside a string. -/
def State.inString (state : State) (c : Char) (text : String) (escape : Escape)
    (high : Option Nat) : Option State :=
  match escape with
  | .plain =>
    if c = '\\' then some { state with token := .string text .backslash high }
    else if high.isSome then none
    else if c = '"' then { state with token := .between }.deliverString text
    else if c.toNat < 32 then none
    else some { state with token := .string (text.push c) .plain none }
  | .backslash =>
    if c = 'u' then some { state with token := .string text (.code 4 0) high }
    else if high.isSome then none
    else (simpleEscape? c).map fun c => { state with token := .string (text.push c) .plain none }
  | .code left value => do
    let digit ← hexValue? c
    let value := value * 16 + digit
    if left ≤ 1 then
      let token ← codeToken? text high value
      some { state with token := token }
    else some { state with token := .string text (.code (left - 1) value) high }

def State.step (state : State) (c : Char) : Option State :=
  match state.token with
  | .between => state.mark c
  | .string text escape high => state.inString c text escape high
  | .word chars =>
    if isWordChar c then some { state with token := .word (c :: chars) }
    else do
      let value ← word? chars.reverse
      (state.deliver value).mark c

/-- The value that was read, if the text ends with it. -/
def State.finish (state : State) : Option Json :=
  match state.token with
  | .between => state.result
  | .word chars => (word? chars.reverse).bind fun value => (state.deliver value).result
  | .string _ _ _ => none

end JsonReader

/-- The value of a text that is one JSON value between blanks. -/
def Json.parse? (text : String) : Option Json :=
  (text.toList.foldlM JsonReader.State.step JsonReader.State.start).bind JsonReader.State.finish

end TreeIndex
