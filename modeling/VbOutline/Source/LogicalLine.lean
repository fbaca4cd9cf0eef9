import VbOutline.Source.Line

/-! Logical lines. Physical lines that end in a continuation marker are joined with the lines that
follow them; each physical line leaves a `Segment` behind, from which positions in the document are
found again. -/

namespace VbOutline.Source

/-- The share of one physical line in a logical line. -/
structure Segment where
  /-- The number of the physical line. -/
  line : Int
  /-- Where the share starts in the logical line. -/
  offset : Int
  length : Int
  /-- The column of the share's first character. -/
  column : Int := 0
deriving DecidableEq

/-- The code of a physical line, with its continuation marker blanked. -/
structure Piece where
  number : Nat
  text : List Char
  /-- Whether the line had a continuation marker. -/
  continued : Bool
deriving DecidableEq

namespace Piece

/-- The piece that a physical line contributes. -/
def ofLine (number : Nat) (line : List Char) : Piece :=
  let text := code line
  ⟨number, blankMarker text, isContinued text⟩

/-- The pieces of a document, one for each physical line. -/
def ofText (text : List Char) : List Piece :=
  (physicalLines text).zipIdx.map fun (line, number) => ofLine number line

/-- Joins each continued piece with the next; the last piece ends its group in any case. -/
def group : List Piece → List (List Piece)
  | [] => []
  | piece :: rest =>
    match group rest with
    | [] => [[piece]]
    | pieces :: groups =>
      if piece.continued then (piece :: pieces) :: groups else [piece] :: pieces :: groups

/-- The segments of joined pieces, the first of which starts at the given offset. -/
def segmentsFrom (offset : Nat) : List Piece → List Segment
  | [] => []
  | piece :: rest =>
    ⟨piece.number, offset, piece.text.length, 0⟩ :: segmentsFrom (offset + piece.text.length) rest

end Piece

/-- One or more physical lines read as one. -/
structure LogicalLine where
  text : List Char
  segments : List Segment
deriving DecidableEq

namespace LogicalLine

/-- The logical line of joined pieces. -/
def ofPieces (pieces : List Piece) : LogicalLine :=
  ⟨pieces.flatMap Piece.text, Piece.segmentsFrom 0 pieces⟩

/-- The number of the first physical line. -/
def firstLine (l : LogicalLine) : Int := (l.segments.head?.map Segment.line).getD 0

/-- The logical lines of a document. -/
def ofText (text : List Char) : List LogicalLine := (Piece.group (Piece.ofText text)).map ofPieces

end LogicalLine

end VbOutline.Source
