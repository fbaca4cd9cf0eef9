import VbOutline.Grammar.Header

/-! The statements that declare without opening a block: fields, lists of variables and constants.
Each form fills a whole statement, blanks at its two ends apart. -/

namespace VbOutline.Grammar

open Text

/-! ### Fields -/

/-- The keywords that a field cannot have as its name. -/
def reservedForFields : List Keyword :=
  [.functionKw, .subKw, .propertyKw, .constKw, .defaultKw, .dimKw, .classKw]

/-- The declaration of a field. -/
structure FieldDeclaration where
  visibility : Lexeme
  name : Lexeme
deriving DecidableEq

/-- Reads a statement as the declaration of a field, `public|private name`. -/
def FieldDeclaration.read? (c : Cursor) : Option FieldDeclaration := do
  let (visibility, c) ← c.skipBlanks.word? visibilities
  let (name, c) ← c.name? .folding
  if c.atEnd ∧ folded name.text ∉ reservedForFields.map Keyword.letters then
    some ⟨visibility.written, name⟩
  else none

/-! ### Variables -/

/-- One item of a list of variables: its name, and where the item ends with its array bounds. -/
structure DimItem where
  name : Lexeme
  stop : Nat
deriving DecidableEq

namespace Cursor

/-- Moves over array bounds, if they stand here: blanks, then a text in parentheses that holds no
other parentheses. -/
def skipBounds (c : Cursor) : Cursor :=
  match c.skipBlanks.char? '(' with
  | none => c
  | some inner =>
    let after := inner.advance (inner.rest.takeWhile fun x => x ≠ '(' && x ≠ ')').length
    (after.char? ')').getD c

/-- Takes a name with its array bounds. -/
def dimItem? (alphabet : Alphabet) (c : Cursor) : Option (DimItem × Cursor) := do
  let (name, c) ← c.name? alphabet
  let c := c.skipBounds
  pure (⟨name, c.offset⟩, c)

/-- Moves over a comma with the blanks around it. -/
def comma? (c : Cursor) : Option Cursor := (c.skipBlanks.char? ',').map skipBlanks

/-- Takes the items of a list after the first, as many as there are; the number of characters left
bounds their number. -/
def dimTail : Nat → Cursor → List DimItem × Cursor
  | 0, c => ([], c)
  | fuel + 1, c =>
    match c.comma?.bind (dimItem? .folding) with
    | none => ([], c)
    | some (item, next) =>
      let (items, last) := dimTail fuel next
      (item :: items, last)

end Cursor

/-- The declaration of a list of variables. -/
structure DimDeclaration where
  keyword : Lexeme
  /-- The items as the statement's form takes them. -/
  items : List DimItem
  /-- The text from the first item to the last. -/
  list : Lexeme
deriving DecidableEq

/-- Reads a statement as a list of variables, `dim item, item, …`. -/
def DimDeclaration.read? (c : Cursor) : Option DimDeclaration := do
  let (keyword, c) ← c.skipBlanks.word? [.dimKw]
  let (first, next) ← c.dimItem? .folding
  let (items, last) := next.dimTail next.rest.length
  if last.atEnd then
    some ⟨keyword.written, first :: items, ⟨c.offset, c.rest.take (last.offset - c.offset)⟩⟩
  else none

/-- The items found anywhere in a text, from left to right, by their ASCII names: what is neither a
name nor the bounds of one is passed over. -/
def scanItems : Nat → Cursor → List DimItem
  | 0, _ => []
  | fuel + 1, c =>
    match c.dimItem? .plain with
    | some (item, next) => item :: scanItems fuel next
    | none => if c.rest.isEmpty then [] else scanItems fuel (c.advance 1)

/-- The variables that a list declares. The list is scanned by ASCII letters alone, so a name is cut at
any other letter in it. -/
def DimDeclaration.declared (d : DimDeclaration) : List DimItem :=
  scanItems d.list.text.length ⟨d.list.start, d.list.text⟩

/-! ### Constants -/

/-- The declaration of a constant; its value is not read. -/
structure ConstDeclaration where
  visibility : Option Lexeme
  name : Lexeme
deriving DecidableEq

/-- Reads a statement as the declaration of a constant, `[public|private] const name = value`. The value
is any text on one line. -/
def ConstDeclaration.read? (c : Cursor) : Option ConstDeclaration := do
  let (visibility, c) := c.skipBlanks.optionalWord visibilities
  let (_, c) ← c.word? [.constKw]
  let (name, c) ← c.name? .folding
  let value ← c.skipBlanks.char? '='
  if '\n' ∉ value.rest.dropLast then some ⟨visibility.map Spelled.written, name⟩ else none

end VbOutline.Grammar
