import HeapImage.Json.Basic

/-!
# Writing JSON

Values are written without blanks, members and elements in their order.

* `Json.natural`, `Json.text`, `Json.record`: values to be written.
* `Json.quote`: a text between quotation marks.
* `Json.render`: the text of a value.
-/

namespace HeapImage

namespace Json

/-- A whole number. -/
def natural (n : Nat) : Json := number (toString n)

/-- A text. -/
def text (s : String) : Json := string (some s)

/-- An object with the given members. -/
def record (members : List (String × Json)) : Json :=
  object (members.map fun (name, value) => (some name, value))

/-- A list of values, each made by `write`. -/
def list {α : Type} (write : α → Json) (xs : List α) : Json := array (xs.map write)

/-- What `write` makes of a value that may be missing; null stands for a missing one. -/
def optional {α : Type} (write : α → Json) : Option α → Json
  | some x => write x
  | none => null

/-! ### Text -/

/-- The letter that stands for a control character behind a backslash, if there is one. -/
def escapeLetter? (c : Char) : Option Char :=
  if c = '\n' then some 'n'
  else if c = '\r' then some 'r'
  else if c = '\t' then some 't'
  else if c = '\x08' then some 'b'
  else if c = '\x0c' then some 'f'
  else if c = '"' ∨ c = '\\' then some c
  else none

/-- Appends a character of a string. -/
def writeChar (out : String) (c : Char) : String :=
  match escapeLetter? c with
  | some letter => (out.push '\\').push letter
  | none =>
    if c.toNat < 0x20 then
      ((out ++ "\\u00").push (Nat.digitChar (c.toNat / 16))).push (Nat.digitChar (c.toNat % 16))
    else out.push c

/-- Appends a string between quotation marks; one without a text is written as half a character. -/
def quote (out : String) : Option String → String
  | some s => (s.foldl writeChar (out.push '"')).push '"'
  | none => out ++ "\"\\ud800\""

mutual

/-- Appends the text of a value. -/
def write (out : String) : Json → String
  | null => out ++ "null"
  | bool true => out ++ "true"
  | bool false => out ++ "false"
  | number literal => out ++ literal
  | string text => quote out text
  | array [] => out ++ "[]"
  | array (v :: vs) => (writeElements (write (out.push '[') v) vs).push ']'
  | object [] => out ++ "\x7b\x7d"
  | object ((name, v) :: ms) =>
    (writeMembers (write ((quote (out.push '\x7b') name).push ':') v) ms).push '\x7d'

/-- Appends the elements that follow another one. -/
def writeElements (out : String) : List Json → String
  | [] => out
  | v :: vs => writeElements (write (out.push ',') v) vs

/-- Appends the members that follow another one. -/
def writeMembers (out : String) : List (Option String × Json) → String
  | [] => out
  | (name, v) :: ms => writeMembers (write ((quote (out.push ',') name).push ':') v) ms

end

/-- The text of a value. -/
def render (value : Json) : String := write "" value

end Json

end HeapImage
