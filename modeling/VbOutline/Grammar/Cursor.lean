import VbOutline.Grammar.Keyword
import VbOutline.Text.Fold
import VbOutline.Text.Lexeme

/-! Reading a text from left to right. A `Cursor` is the unread rest of a text with the offset where
it starts; each reader either takes something from its front and moves on, or declines. -/

namespace VbOutline.Grammar

open Text

/-- The unread rest of a text. -/
structure Cursor where
  offset : Nat
  rest : List Char
deriving DecidableEq

/-- A keyword and the way it was written. -/
structure Spelled where
  keyword : Keyword
  written : Lexeme
deriving DecidableEq

namespace Cursor

/-- Moves over the next `n` characters. -/
def advance (n : Nat) (c : Cursor) : Cursor := ⟨c.offset + n, c.rest.drop n⟩

/-- Whether nothing but blanks is left. -/
def atEnd (c : Cursor) : Bool := allBlank c.rest

/-- Moves over blanks, if there are any. -/
def skipBlanks (c : Cursor) : Cursor := c.advance (indent c.rest)

/-- Moves over one blank or more. -/
def blanks? (c : Cursor) : Option Cursor :=
  if indent c.rest = 0 then none else some c.skipBlanks

/-- Moves over one given character. -/
def char? (expected : Char) (c : Cursor) : Option Cursor :=
  if c.rest.head? = some expected then some (c.advance 1) else none

/-- Takes a keyword in any letter case. Nothing is asked of the character after it. -/
def keyword? (keyword : Keyword) (c : Cursor) : Option (Spelled × Cursor) :=
  let written := c.rest.take keyword.letters.length
  if folded written = keyword.letters then
    some (⟨keyword, ⟨c.offset, written⟩⟩, c.advance keyword.letters.length)
  else none

/-- Takes the first of the given keywords that stands here. -/
def oneOf? (keywords : List Keyword) (c : Cursor) : Option (Spelled × Cursor) :=
  keywords.findSome? fun keyword => c.keyword? keyword

/-- Takes one of the given keywords and the blanks that have to follow it. -/
def word? (keywords : List Keyword) (c : Cursor) : Option (Spelled × Cursor) := do
  let (spelled, c) ← c.oneOf? keywords
  let c ← c.blanks?
  pure (spelled, c)

/-- Takes one of the given keywords with the blanks after it, if it stands here. -/
def optionalWord (keywords : List Keyword) (c : Cursor) : Option Spelled × Cursor :=
  match c.word? keywords with
  | some (spelled, next) => (some spelled, next)
  | none => (none, c)

/-- Takes the longest name that starts here. -/
def name? (alphabet : Alphabet) (c : Cursor) : Option (Lexeme × Cursor) :=
  match c.rest with
  | [] => none
  | first :: rest =>
    if alphabet.isNameStart first then
      let text := first :: rest.takeWhile alphabet.isNameChar
      some (⟨c.offset, text⟩, c.advance text.length)
    else none

end Cursor

end VbOutline.Grammar
