import VbOutline.Grammar.Cursor

/-! The statements that open and close blocks: headers of methods, properties and classes, and the
`end` statements. Each form fills a whole statement, blanks at its two ends apart. -/

namespace VbOutline.Grammar

open Text

/-- The two kinds of members that hold statements of their own. -/
inductive MemberKind where
  | method
  | property
deriving DecidableEq

/-- The keywords a visibility is written with. -/
def visibilities : List Keyword := [.publicKw, .privateKw]

/-- The keywords that tell the members of a kind apart. -/
def MemberKind.keywords : MemberKind → List Keyword
  | .method => [.functionKw, .subKw]
  | .property => [.letKw, .setKw, .getKw]

/-- The header of a method or a property. -/
structure MemberHeader where
  visibility : Option Lexeme
  keyword : Spelled
  name : Lexeme
  /-- What stands between the first and the last parenthesis, if the header has them. -/
  parameters : Option Lexeme
deriving DecidableEq

namespace Cursor

/-- Takes a text in parentheses that goes on to the end of the statement: the opening parenthesis
stands here, the closing one is the last character that is not blank, and there is no line feed
between them. -/
def parenthesized? (c : Cursor) : Option Lexeme := do
  let inner ← c.char? '('
  let text := trimEnd inner.rest
  if text.getLast? = some ')' ∧ '\n' ∉ text.dropLast then some ⟨inner.offset, text.dropLast⟩ else none

/-- Takes the end of a header: nothing, or a text in parentheses. -/
def parameters? (c : Cursor) : Option (Option Lexeme) :=
  if c.atEnd then some none else c.skipBlanks.parenthesized?.map some

/-- Takes the visibility of a member, which may be marked as the default member. -/
def memberVisibility (c : Cursor) : Option Lexeme × Cursor :=
  match c.optionalWord visibilities with
  | (some visibility, next) => (some visibility.written, (next.optionalWord [.defaultKw]).2)
  | (none, next) => (none, next)

/-- Takes the keyword of a member of the given kind; that of a property follows the word
`property`. -/
def memberKeyword? (kind : MemberKind) (c : Cursor) : Option (Spelled × Cursor) :=
  match kind with
  | .method => c.word? kind.keywords
  | .property => do
    let (_, c) ← c.word? [.propertyKw]
    c.word? kind.keywords

end Cursor

/-- Reads a statement as the header of a member:
`[public|private [default]] keyword name [(parameters)]`. -/
def MemberHeader.read? (kind : MemberKind) (c : Cursor) : Option MemberHeader := do
  let (visibility, c) := c.skipBlanks.memberVisibility
  let (keyword, c) ← c.memberKeyword? kind
  let (name, c) ← c.name? .folding
  let parameters ← c.parameters?
  pure ⟨visibility, keyword, name, parameters⟩

/-- Reads a statement as the header of a class, `class name`, and gives the name. -/
def readClassHeader? (c : Cursor) : Option Lexeme := do
  let (_, c) ← c.skipBlanks.word? [.classKw]
  let (name, c) ← c.name? .folding
  if c.atEnd then some name else none

/-- Reads a statement as the end of a block, `end keyword`, for one of the given keywords. -/
def readEnd? (keywords : List Keyword) (c : Cursor) : Option Spelled := do
  let (_, c) ← c.skipBlanks.word? [.endKw]
  let (keyword, c) ← c.oneOf? keywords
  if c.atEnd then some keyword else none

end VbOutline.Grammar
