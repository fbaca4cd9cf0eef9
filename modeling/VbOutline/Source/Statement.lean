import VbOutline.Grammar.Cursor
import VbOutline.Source.LogicalLine

/-! Statements: the parts of a logical line between colons. A statement keeps the offsets of its
logical line, as if the text before it were blank, so that all statements of a line share its
segments. -/

namespace VbOutline.Source

open Text Grammar

/-- A statement of a logical line. -/
structure Statement where
  /-- How many blanks stand for the part of the line before the statement. -/
  margin : Nat
  body : List Char
  segments : List Segment
  /-- Where the statement starts in its line; this decides its line if it is blank. -/
  start : Int
deriving DecidableEq

namespace Statement

/-- The statement with its margin. -/
def text (s : Statement) : List Char := List.replicate s.margin ' ' ++ s.body

/-- Whether the statement has no character but blanks. -/
def isBlank (s : Statement) : Bool := allBlank s.body

/-- The offset of the first character that is not blank. -/
def begins (s : Statement) : Nat := s.margin + indent s.body

/-- The offset just after the last character that is not blank. -/
def ends (s : Statement) : Nat := s.margin + (trimEnd s.body).length

/-- Reading starts at the front of the body. -/
def cursor (s : Statement) : Cursor := ⟨s.margin, s.body⟩

/-- The number of the segment's line that holds an offset, or of the last line. -/
def lineOf (otherwise : Int) : List Segment → Int → Int
  | [], _ => otherwise
  | segment :: rest, offset =>
    if offset < segment.length then segment.line
    else lineOf segment.line rest (offset - segment.length)

/-- The physical line of the first character that is not blank. -/
def line (s : Statement) : Int :=
  lineOf 0 s.segments (if s.isBlank then s.start else s.begins)

/-- A statement read on its own, without a line around it. -/
def alone (text : List Char) (segments : List Segment) (start : Int) : Statement :=
  ⟨0, text, segments, start⟩

end Statement

/-- The statements of a logical line, from left to right. -/
def LogicalLine.statements (l : LogicalLine) : List Statement :=
  (Lexeme.pieces (· == ':') ⟨0, l.text⟩).map fun piece =>
    ⟨piece.start, piece.text, l.segments, piece.start⟩

end VbOutline.Source
