/-
Blank characters and trimming.

A character is blank if it has the Unicode property White_Space. There are twenty-five of
them, in ten ranges; the list is closed under the property, so nothing else is trimmed.
-/
import Scripting.Text.CodeRange

set_option autoImplicit false

namespace Scripting.Text

/-- The code points with the property White_Space. -/
def blankRanges : CodeRanges :=
  [(0x9, 0xd), (0x20, 0x20), (0x85, 0x85), (0xa0, 0xa0), (0x1680, 0x1680), (0x2000, 0x200a),
    (0x2028, 0x2029), (0x202f, 0x202f), (0x205f, 0x205f), (0x3000, 0x3000)]

/-- Whether a character is blank. -/
def isBlank (c : Char) : Bool := blankRanges.has c

/-- Text without the blanks at its two ends. -/
def trimmed (text : List Char) : List Char :=
  ((text.dropWhile isBlank).reverse.dropWhile isBlank).reverse

end Scripting.Text
