import HeapImage.Bytes

/-!
# Numerals in messages and listings

* `hexNumeral n`: `0x` and the lowercase hexadecimal digits of `n`, without padding.
* `hexOfBytes b`: two lowercase hexadecimal digits for every byte, without a mark in front.
* `bracketed ns`: a list of decimal numerals in square brackets.
* `readNat? limit s`: the value of a decimal numeral below `limit`.
-/

namespace HeapImage

/-- The hexadecimal numeral of `n` with its mark, as in `0x1f`. -/
def hexNumeral (n : Nat) : String := "0x" ++ String.ofList (Nat.toDigits 16 n)

/-- The hexadecimal digit of a number below sixteen. -/
def hexDigit (n : Nat) : Char := Nat.digitChar n

/-- Two hexadecimal digits per byte, in byte order. -/
def hexOfBytes (b : ByteArray) : String :=
  b.foldl (fun s x => (s.push (hexDigit (x.toNat / 16))).push (hexDigit (x.toNat % 16))) ""

/-- Decimal numerals separated by commas inside square brackets, as in `[16, 24]`. -/
def bracketed (ns : List Nat) : String :=
  "[" ++ ", ".intercalate (ns.map fun n => toString n) ++ "]"

/-- The value of a run of decimal digits, most significant first. -/
def decimalValue (digits : List Char) : Nat :=
  digits.foldl (fun n c => 10 * n + (c.toNat - '0'.toNat)) 0

/-- Reads an unsigned decimal numeral below `limit`; one leading plus sign is allowed. -/
def readNat? (limit : Nat) (s : String) : Option Nat :=
  let digits := match s.toList with
    | '+' :: rest => rest
    | cs => cs
  if digits.isEmpty || !digits.all Char.isDigit then none
  else
    let n := decimalValue digits
    if n < limit then some n else none

end HeapImage
