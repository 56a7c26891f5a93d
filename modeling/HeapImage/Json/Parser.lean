import HeapImage.Json.Basic

/-!
# Reading JSON

The grammar is the strict one: no trailing commas, no leading zeros, no bare control characters in
strings, and nothing but blanks after the value.

* `JsonParser.string`, `JsonParser.number`: the two tokens with a grammar of their own.
* `JsonParser.value`, `JsonParser.elements`, `JsonParser.members`: a value and what is in it.
* `Json.parse?`: the value that a text stands for.
-/

namespace HeapImage

namespace JsonParser

/-- The characters that may stand between tokens. -/
def isSpace (c : Char) : Bool := c = ' ' || c = '\n' || c = '\r' || c = '\t'

/-- The characters from the first token on. -/
def skipSpace (cs : List Char) : List Char := cs.dropWhile isSpace

/-! ### Strings -/

/-- The value of a hexadecimal digit. -/
def hexValue? (c : Char) : Option Nat :=
  if '0' ≤ c ∧ c ≤ '9' then some (c.toNat - '0'.toNat)
  else if 'a' ≤ c ∧ c ≤ 'f' then some (c.toNat - 'a'.toNat + 10)
  else if 'A' ≤ c ∧ c ≤ 'F' then some (c.toNat - 'A'.toNat + 10)
  else none

/-- The value of four hexadecimal digits. -/
def hexUnit? (a b c d : Char) : Option Nat := do
  return (((← hexValue? a) * 16 + (← hexValue? b)) * 16 + (← hexValue? c)) * 16 + (← hexValue? d)

/-- The character after a backslash stands for another one. -/
def escape? (c : Char) : Option Char :=
  match c with
  | '"' | '\\' | '/' => some c
  | 'b' => some '\x08'
  | 'f' => some '\x0c'
  | 'n' => some '\n'
  | 'r' => some '\r'
  | 't' => some '\t'
  | _ => none

/-- What a string stands for as far as it is read. -/
structure Text where
  /-- The characters read, last one first; none once half a character stood alone. -/
  reversed : Option (List Char)
  /-- The first half of a character, waiting for the second. -/
  pending : Option Nat

namespace Text

/-- The text before the first character. -/
def empty : Text := ⟨some [], none⟩

/-- One more character. -/
def push (t : Text) (c : Char) : Text :=
  match t.pending with
  | none => ⟨t.reversed.map (c :: ·), none⟩
  | some _ => ⟨none, none⟩

/-- A half character of the first kind. -/
def isHigh (n : Nat) : Bool := 0xD800 ≤ n && n < 0xDC00

/-- A half character of the second kind. -/
def isLow (n : Nat) : Bool := 0xDC00 ≤ n && n < 0xE000

/-- One more unit of 16 bits: a character, or half of one. -/
def pushUnit (t : Text) (n : Nat) : Text :=
  match t.pending with
  | some high =>
    if isLow n then
      let c := Char.ofNat (0x10000 + (high - 0xD800) * 0x400 + (n - 0xDC00))
      ⟨t.reversed.map (c :: ·), none⟩
    else ⟨none, none⟩
  | none =>
    if isHigh n then ⟨t.reversed, some n⟩
    -- A second half without a first one is no character.
    else if isLow n then ⟨none, none⟩
    else t.push (Char.ofNat n)

/-- The text, if no half character stood alone. -/
def finish (t : Text) : Option String :=
  match t.pending with
  | some _ => none
  | none => t.reversed.map fun cs => String.ofList cs.reverse

end Text

/-- Reads the rest of a string behind its opening quote. -/
def string : List Char → Text → Option (Option String × List Char)
  | [], _ => none
  | '"' :: cs, t => some (t.finish, cs)
  | '\\' :: 'u' :: a :: b :: c :: d :: cs, t =>
    match hexUnit? a b c d with
    | some n => string cs (t.pushUnit n)
    | none => none
  | '\\' :: c :: cs, t =>
    match escape? c with
    | some c => string cs (t.push c)
    | none => none
  | c :: cs, t => if c = '\\' ∨ c.toNat < 0x20 then none else string cs (t.push c)

/-! ### Numbers -/

/-- The digits at the front, of which there has to be one. -/
def digits? (cs : List Char) : Option (List Char × List Char) :=
  let front := cs.takeWhile Char.isDigit
  if front.isEmpty then none else some (front, cs.dropWhile Char.isDigit)

/-- The whole part of a number: a zero alone, or digits that do not start with one. -/
def wholePart? : List Char → Option (List Char × List Char)
  | '0' :: cs => some (['0'], cs)
  | cs => digits? cs

/-- A fraction, if there is a point. -/
def fraction? : List Char → Option (List Char × List Char)
  | '.' :: cs => (digits? cs).map fun (front, rest) => ('.' :: front, rest)
  | cs => some ([], cs)

/-- The sign in front of an exponent, if there is one. -/
def sign : List Char → List Char × List Char
  | '+' :: cs => (['+'], cs)
  | '-' :: cs => (['-'], cs)
  | cs => ([], cs)

/-- An exponent, if there is its letter. -/
def exponent? : List Char → Option (List Char × List Char)
  | c :: cs =>
    if c = 'e' ∨ c = 'E' then
      let (mark, rest) := sign cs
      (digits? rest).map fun (front, rest) => (c :: mark ++ front, rest)
    else some ([], c :: cs)
  | [] => some ([], [])

/-- Reads a number. -/
def number (cs : List Char) : Option (String × List Char) := do
  let (minus, cs) := match cs with
    | '-' :: rest => (['-'], rest)
    | cs => ([], cs)
  let (whole, cs) ← wholePart? cs
  let (fraction, cs) ← fraction? cs
  let (exponent, cs) ← exponent? cs
  return (String.ofList (minus ++ whole ++ fraction ++ exponent), cs)

/-! ### Values -/

/-- The characters behind a word that stands at the front. -/
def word? (word : String) (cs : List Char) : Option (List Char) :=
  if word.toList.isPrefixOf cs then some (cs.drop word.length) else none

mutual

/-- Reads a value. -/
def value : (fuel : Nat) → List Char → Option (Json × List Char)
  | 0, _ => none
  | fuel + 1, cs =>
    match skipSpace cs with
    | '{' :: rest =>
      match skipSpace rest with
      | '}' :: rest => some (.object [], rest)
      | rest => members fuel [] rest
    | '[' :: rest =>
      match skipSpace rest with
      | ']' :: rest => some (.array [], rest)
      | rest => elements fuel [] rest
    | '"' :: rest => (string rest .empty).map fun (text, rest) => (.string text, rest)
    | 'n' :: rest => (word? "ull" rest).map fun rest => (.null, rest)
    | 't' :: rest => (word? "rue" rest).map fun rest => (.bool true, rest)
    | 'f' :: rest => (word? "alse" rest).map fun rest => (.bool false, rest)
    | rest => (number rest).map fun (literal, rest) => (.number literal, rest)

/-- Reads the elements of an array up to its end, after those read before, last one first. -/
def elements : (fuel : Nat) → List Json → List Char → Option (Json × List Char)
  | 0, _, _ => none
  | fuel + 1, before, cs =>
    match value fuel cs with
    | none => none
    | some (v, rest) =>
      match skipSpace rest with
      | ',' :: rest => elements fuel (v :: before) rest
      | ']' :: rest => some (.array (v :: before).reverse, rest)
      | _ => none

/-- Reads the members of an object up to its end, after those read before, last one first. -/
def members : (fuel : Nat) → List (Option String × Json) → List Char → Option (Json × List Char)
  | 0, _, _ => none
  | fuel + 1, before, cs =>
    match skipSpace cs with
    | '"' :: rest =>
      match string rest .empty with
      | none => none
      | some (name, rest) =>
        match skipSpace rest with
        | ':' :: rest =>
          match value fuel rest with
          | none => none
          | some (v, rest) =>
            match skipSpace rest with
            | ',' :: rest => members fuel ((name, v) :: before) rest
            | '}' :: rest => some (.object ((name, v) :: before).reverse, rest)
            | _ => none
        | _ => none
    | _ => none

end

end JsonParser

/-- The value that a text stands for. Every other call consumes a character, which bounds the
calls. -/
def Json.parse? (text : String) : Option Json :=
  let cs := text.toList
  match JsonParser.value (2 * cs.length + 2) cs with
  | some (v, rest) => if (JsonParser.skipSpace rest).isEmpty then some v else none
  | none => none

end HeapImage
