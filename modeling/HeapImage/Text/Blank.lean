/-!
# Blank characters and letter case

Settings read from the environment are compared without surrounding blanks and without regard to
the case of ASCII letters.

* `isBlank c`: `c` has the Unicode property `White_Space`.
* `trimBlanks s`: `s` without the blanks at either end.
* `foldAscii s`: `s` with ASCII capitals turned into small letters; all else is kept.
-/

namespace HeapImage

/-- The characters with the Unicode property `White_Space`. -/
def isBlank (c : Char) : Bool :=
  let n := c.toNat
  (9 ≤ n && n ≤ 13) || n == 0x20 || n == 0x85 || n == 0xA0 || n == 0x1680 ||
    (0x2000 ≤ n && n ≤ 0x200A) || n == 0x2028 || n == 0x2029 || n == 0x202F || n == 0x205F ||
    n == 0x3000

/-- `s` without blanks at its ends. -/
def trimBlanks (s : String) : String :=
  String.ofList ((((s.toList.dropWhile isBlank).reverse).dropWhile isBlank).reverse)

/-- `s` with its ASCII capitals in lower case. -/
def foldAscii (s : String) : String := s.map Char.toLower

end HeapImage
