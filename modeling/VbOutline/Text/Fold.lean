/-! Letter case. Keywords and names are compared up to `fold`, which identifies the two cases of an
ASCII letter and, with them, the four letters outside ASCII whose case maps into ASCII: the dotted
capital I and the dotless small i (U+0130, U+0131), the long s (U+017F) and the Kelvin sign (U+212A).
`lower` and `capitalize` are the full case mappings on this same repertoire; they do not agree with
`fold` on all of it. -/

namespace VbOutline.Text

/-- The caseless form of a letter; every other character is its own. -/
def fold (c : Char) : Char :=
  if c = '\u0130' ∨ c = '\u0131' then 'i'
  else if c = '\u017F' then 's'
  else if c = '\u212A' then 'k'
  else c.toLower

/-- The caseless form of a text. -/
def folded (text : List Char) : List Char := text.map fold

/-- The lower case of a letter. The dotted capital I becomes an i followed by a combining dot; the
long s and the dotless i are lower case already. -/
def lowerChar (c : Char) : List Char :=
  if c = '\u0130' then ['i', '\u0307']
  else if c = '\u212A' then ['k']
  else [c.toLower]

/-- The title case of a letter. -/
def titleChar (c : Char) : Char :=
  if c = '\u0131' then 'I'
  else if c = '\u017F' then 'S'
  else c.toUpper

/-- A text in lower case. -/
def lower (text : List Char) : List Char := text.flatMap lowerChar

/-- A text with its first letter in title case and the others in lower case. -/
def capitalize : List Char → List Char
  | [] => []
  | c :: rest => titleChar c :: lower rest

/-! ### Letters of names -/

/-- Which letters a name is made of: `folding` takes every letter whose caseless form is an ASCII
letter, `plain` the ASCII letters alone. -/
inductive Alphabet where
  | folding
  | plain
deriving DecidableEq

namespace Alphabet

/-- A letter of the alphabet, as the ASCII letter it stands for. -/
def letter : Alphabet → Char → Char
  | folding, c => fold c
  | plain, c => c

/-- Whether a name may start with this character: a letter or an underscore. -/
def isNameStart (a : Alphabet) (c : Char) : Bool := (a.letter c).isAlpha || c == '_'

/-- Whether a name may go on with this character: a letter, an ASCII digit or an underscore. -/
def isNameChar (a : Alphabet) (c : Char) : Bool := (a.letter c).isAlphanum || c == '_'

end Alphabet

end VbOutline.Text
