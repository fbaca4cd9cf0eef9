import VbOutline.Position
import VbOutline.Problem
import VbOutline.Source.Statement

/-! From offsets in a statement back to positions in the document. An offset on the boundary of two
lines belongs to the later one, unless it ends a span; the offset after the last character is the end
of the last line; any other offset has no position. -/

namespace VbOutline.Source

/-- Finds the position of a non-negative offset. -/
def Segment.locate : List Segment → Int → Option Position
  | [], _ => none
  | [last], offset =>
    if offset ≤ last.length then some ⟨last.line, last.column + offset⟩ else none
  | segment :: rest, offset =>
    if offset < segment.length then some ⟨segment.line, segment.column + offset⟩
    else locate rest (offset - segment.length)

namespace Statement

/-- The position of an offset. -/
def position? (s : Statement) (offset : Int) : Option Position :=
  if offset < 0 then none else Segment.locate s.segments offset

/-- The position of an offset that ends a span: just after the last character of the span. -/
def endPosition? (s : Statement) (offset : Int) : Option Position :=
  if offset ≤ 0 then s.position? offset
  else (s.position? (offset - 1)).map fun p => ⟨p.line, p.character + 1⟩

/-- The range of the span from `start` up to `stop`; a span without characters is a point. -/
def range? (s : Statement) (start stop : Int) : Option Range := do
  let first ← s.position? start
  let last ← if start < stop then s.endPosition? stop else some first
  pure ⟨first, last⟩

/-! ### Positions in any case -/

/-- The position that stands for one that cannot be found. -/
def fallback (s : Statement) : Position := ⟨s.line, 0⟩

/-- Notes a finding on the line of the statement. -/
def note (s : Statement) (finding : Finding) : Noted Unit := Noted.note (finding.onLine s.line)

/-- The position of an offset; a missing one is noted and replaced. -/
def position (s : Statement) (offset : Int) : Noted Position :=
  match s.position? offset with
  | some p => pure p
  | none => do
    s.note (.unmappedOffset offset)
    pure s.fallback

/-- The range of a span; a missing one is noted and replaced by a point. -/
def range (s : Statement) (start stop : Int) : Noted Range :=
  match s.range? start stop with
  | some r => pure r
  | none => do
    s.note (.unmappedSpan start stop)
    pure ⟨s.fallback, s.fallback⟩

/-- The range of a lexeme of the statement. -/
def rangeOf (s : Statement) (l : Text.Lexeme) : Noted Range := s.range l.start l.stop

end Statement

end VbOutline.Source
