/-! Blank characters and trimming. Everything that separates words in a script, in a parameter list
or in a displayed name is one of the twenty-nine characters of `isBlank`; the zero-width space, the
word joiner and the byte order mark are not among them. -/

namespace VbOutline.Text

/-- White space: the ASCII blanks and separator controls, the next-line control and the space, line
and paragraph separators of Unicode. -/
def isBlank (c : Char) : Bool :=
  let n := c.toNat
  (0x09 ≤ n && n ≤ 0x0D) || (0x1C ≤ n && n ≤ 0x20) || n == 0x85 || n == 0xA0 || n == 0x1680
    || (0x2000 ≤ n && n ≤ 0x200A) || n == 0x2028 || n == 0x2029 || n == 0x202F || n == 0x205F
    || n == 0x3000

/-- Whether a text has no character but blanks. -/
def allBlank (text : List Char) : Bool := text.all isBlank

/-- The number of blanks a text starts with. -/
def indent (text : List Char) : Nat := (text.takeWhile isBlank).length

/-- A text without the blanks it starts with. -/
def trimStart (text : List Char) : List Char := text.dropWhile isBlank

/-- A text without the blanks it ends with. -/
def trimEnd (text : List Char) : List Char := (text.reverse.dropWhile isBlank).reverse

/-- A text without the blanks at its two ends. -/
def trim (text : List Char) : List Char := trimEnd (trimStart text)

/-- A string without the blanks at its two ends. -/
def trimmed (text : String) : String := String.ofList (trim text.toList)

end VbOutline.Text
