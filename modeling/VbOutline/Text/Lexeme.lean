import VbOutline.Text.Blank

/-! Lexemes: pieces of a text that remember where they stand in it. A text is cut into the pieces
between separators (`Lexeme.pieces`); its words are the pieces between blanks that hold something
(`Lexeme.words`). -/

namespace VbOutline.Text

/-- A piece of a text together with the offset of its first character. -/
structure Lexeme where
  start : Nat
  text : List Char
deriving DecidableEq

namespace Lexeme

/-- The offset just after the last character. -/
def stop (l : Lexeme) : Nat := l.start + l.text.length

/-- The characters as a string. -/
def spelling (l : Lexeme) : String := String.ofList l.text

/-- The pieces of a text between separators, from left to right, for a text that starts at the given
offset. There is one piece more than there are separators. -/
def piecesFrom (isSeparator : Char → Bool) (start : Nat) : List Char → List Lexeme
  | [] => [⟨start, []⟩]
  | c :: rest =>
    let later := piecesFrom isSeparator (start + 1) rest
    if isSeparator c then ⟨start, []⟩ :: later
    else match later with
      | [] => [⟨start, [c]⟩]
      | piece :: pieces => ⟨start, c :: piece.text⟩ :: pieces

/-- The pieces of a lexeme between separators. -/
def pieces (isSeparator : Char → Bool) (l : Lexeme) : List Lexeme :=
  piecesFrom isSeparator l.start l.text

/-- The maximal runs of characters that are not blank. -/
def words (l : Lexeme) : List Lexeme := (l.pieces isBlank).filter fun piece => !piece.text.isEmpty

end Lexeme

end VbOutline.Text
