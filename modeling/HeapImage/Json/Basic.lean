import HeapImage.Text.Numeral

/-!
# JSON values

* `Json`: a value as it was written: numbers keep their digits, objects their repeated members.
* `Json.natural?`, `Json.text?`, `Json.array?`: values of one kind.
* `Json.members?`: the members of an object in the order of the given names.
* `Json.record?`: the same, or the elements of an array in their place.
* `Json.variant?`: the name and the value of a choice.
-/

namespace HeapImage

/-- A JSON value. -/
inductive Json where
  | null
  | bool (value : Bool)
  /-- A number with its digits as written. -/
  | number (literal : String)
  /-- A string, without a text if its escapes stand for half a character. -/
  | string (text : Option String)
  | array (elements : List Json)
  | object (members : List (Option String × Json))
  deriving Inhabited

namespace Json

/-- The value of a whole number below `limit` that is written without sign, fraction and
exponent. -/
def natural? (limit : Nat) : Json → Option Nat
  | number literal =>
    let digits := literal.toList
    if digits.all Char.isDigit && decimalValue digits < limit then some (decimalValue digits)
    else none
  | _ => none

/-- The text of a string. -/
def text? : Json → Option String
  | string text => text
  | _ => none

/-- The elements of an array. -/
def array? : Json → Option (List Json)
  | array elements => some elements
  | _ => none

/-- `none` for null, and otherwise what `read` makes of the value. -/
def nullable? {α : Type} (read : Json → Option α) : Json → Option (Option α)
  | null => some none
  | value => (read value).map some

/-- What `read` makes of every element of an array. -/
def list? {α : Type} (read : Json → Option α) (value : Json) : Option (List α) := do
  (← value.array?).mapM read

/-! ### Records and choices -/

/-- The value of the only member with a name; `some none` if there is none, `none` if there are
several. -/
def unique? (members : List (Option String × Json)) (name : String) : Option (Option Json) :=
  match members.filter fun m => m.1 == some name with
  | [] => some none
  | [m] => some (some m.2)
  | _ => none

/-- The values of the named members of an object, in the order of the names. Members with other
names do not matter, but every name has to be a text. -/
def members? (names : List String) : Json → Option (List (Option Json))
  | object members =>
    if members.all fun m => m.1.isSome then names.mapM (unique? members) else none
  | _ => none

/-- The values of the named members of an object, or the elements of an array in the order of the
names. An array may be shorter than the list of names but not longer. -/
def record? (names : List String) : Json → Option (List (Option Json))
  | array elements =>
    if elements.length ≤ names.length then
      some (elements.map some ++ List.replicate (names.length - elements.length) none)
    else none
  | value => value.members? names

/-- The name of a choice and its value: a string stands for a choice without a value, and an object
with one member for a choice with one. -/
def variant? : Json → Option (String × Option Json)
  | string (some name) => some (name, none)
  | object [(some name, value)] => some (name, some value)
  | _ => none

/-- The value of a choice without a value may be left out or be null. -/
def isUnit : Option Json → Bool
  | none | some null => true
  | _ => false

end Json

end HeapImage
