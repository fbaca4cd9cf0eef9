import VbOutline.Grammar.Cursor

/-! Physical lines. A document is cut at line feeds, each with the carriage return before it if there
is one. The `code` of a line is what is read of it: the insides of its string literals are blanked, so
that nothing in them counts, and its comment is dropped. Neither step moves a character, so columns of
the code are columns of the document. -/

namespace VbOutline.Source

open Text Grammar

/-- The lines of a document. A carriage return without a line feed does not end a line. -/
def physicalLines : List Char → List (List Char)
  | [] => [[]]
  | '\n' :: rest => [] :: physicalLines rest
  | '\r' :: '\n' :: rest => [] :: physicalLines rest
  | c :: rest =>
    match physicalLines rest with
    | [] => [[c]]
    | line :: lines => (c :: line) :: lines

/-! ### String literals -/

/-- Where in a line a character stands: outside string literals, inside of one, or inside of one as
the second half of a doubled quote. -/
inductive Quoting where
  | outside
  | inside
  | doubled
deriving DecidableEq

/-- Blanks the insides of string literals, from the given state on. A quote opens a literal only if a
later quote closes it, and a doubled quote belongs to a literal only if a later quote closes it. -/
def blankLiteralsFrom : Quoting → List Char → List Char
  | _, [] => []
  | .outside, c :: rest =>
    c :: blankLiteralsFrom (if c = '"' ∧ '"' ∈ rest then .inside else .outside) rest
  | .inside, c :: rest =>
    if c ≠ '"' then ' ' :: blankLiteralsFrom .inside rest
    else if rest.head? = some '"' ∧ '"' ∈ rest.tail then ' ' :: blankLiteralsFrom .doubled rest
    else c :: blankLiteralsFrom .outside rest
  | .doubled, _ :: rest => ' ' :: blankLiteralsFrom .inside rest

/-- A line with the inside of every string literal blanked and its quotes kept. -/
def blankLiterals (line : List Char) : List Char := blankLiteralsFrom .outside line

/-! ### Comments -/

/-- Whether a whole line is a remark: its first word is the remark keyword. -/
def isRemark (line : List Char) : Bool :=
  match (Cursor.mk 0 line).skipBlanks.keyword? .remKw with
  | some (_, after) => after.rest.head?.all isBlank
  | none => false

/-- A line without its comment, for a line whose string literals are blanked. -/
def dropComment (line : List Char) : List Char :=
  if isRemark line then [] else line.takeWhile (· ≠ '\'')

/-- What is read of a line. -/
def code (line : List Char) : List Char := dropComment (blankLiterals line)

/-! ### Continuation markers -/

/-- Whether a line goes on in the next one: its last word is an underscore. -/
def isContinued (line : List Char) : Bool :=
  let text := trimEnd line
  text.getLast? == some '_' && text.dropLast.getLast?.all isBlank

/-- A line with its continuation marker, if it has one, replaced by a space. -/
def blankMarker (line : List Char) : List Char :=
  if isContinued line then
    let text := trimEnd line
    text.dropLast ++ ' ' :: line.drop text.length
  else line

end VbOutline.Source
