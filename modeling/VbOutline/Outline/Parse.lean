import VbOutline.Outline.Reading

/-! Reading a whole document: its logical lines, their statements, and the symbols and problems they
lead to. -/

namespace VbOutline.Outline

open Source

/-- What is found in a document, in the order it was completed. -/
structure Parse where
  symbols : List Symbol := []
  problems : List Problem := []
deriving DecidableEq

/-- The statements of a document that are not blank. -/
def statements (text : List Char) : List Statement :=
  ((LogicalLine.ofText text).flatMap LogicalLine.statements).filter fun s => !s.isBlank

/-- Reads a document from its start to its end. -/
def read (settings : Settings) (text : List Char) : Reading :=
  ((Reading.start settings).consumeAll (statements text)).conclude

/-- The symbols and problems of a document. -/
def parse (settings : Settings) (text : String) : Parse :=
  let r := read settings text.toList
  ⟨r.symbols.toList, r.log.kept.toList⟩

end VbOutline.Outline
