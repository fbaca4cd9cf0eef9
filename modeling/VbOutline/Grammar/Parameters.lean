import VbOutline.Text.Lexeme

/-! Parameter lists. A list is cut at its commas. A pair of parentheses with nothing but blanks between
them marks an array and is read as blanks; a list with any other parenthesis is not read at all. -/

namespace VbOutline.Grammar

open Text

/-- One parameter of a list, by its words. If there are several words the first is a passing mode. -/
structure Parameter where
  first : Lexeme
  others : List Lexeme
deriving DecidableEq

/-- The length of the pair of parentheses a text starts with, if there are only blanks between
them. -/
def emptyPair? (text : List Char) : Option Nat :=
  match text with
  | '(' :: rest => if (trimStart rest).head? = some ')' then some (indent rest + 2) else none
  | _ => none

/-- Replaces each pair of parentheses without content by as many spaces; `owed` of them are still to be
written for a pair that was met before. -/
def blankPairsFrom : Nat → List Char → List Char
  | _, [] => []
  | owed + 1, _ :: rest => ' ' :: blankPairsFrom owed rest
  | 0, c :: rest =>
    match emptyPair? (c :: rest) with
    | some length => ' ' :: blankPairsFrom (length - 1) rest
    | none => c :: blankPairsFrom 0 rest

/-- A parameter list with its array marks blanked. -/
def blankPairs (text : List Char) : List Char := blankPairsFrom 0 text

/-- Whether a parameter list can be read: it has no parentheses but array marks. -/
def isSupported (text : List Char) : Bool := !(blankPairs text).any fun c => c == '(' || c == ')'

namespace Parameter

/-- The parameter that consists of some words. -/
def ofWords? : List Lexeme → Option Parameter
  | [] => none
  | first :: others => some ⟨first, others⟩

/-- The words that name the parameter. -/
def named (p : Parameter) : List Lexeme := if p.others.isEmpty then [p.first] else p.others

/-- The name of the parameter: its naming words with a space between them. -/
def name (p : Parameter) : String := " ".intercalate (p.named.map Lexeme.spelling)

/-- The offset of the first naming word. -/
def nameStart (p : Parameter) : Nat := (p.others.headD p.first).start

/-- The offset just after the last word. -/
def stop (p : Parameter) : Nat := (p.others.getLastD p.first).stop

end Parameter

/-- The parameters of a list, from left to right, or none if the list cannot be read. Places without a
word between two commas declare nothing. -/
def readParameters? (text : List Char) : Option (List Parameter) :=
  if isSupported text then
    some (((Lexeme.mk 0 (blankPairs text)).pieces (· == ',')).filterMap fun piece =>
      Parameter.ofWords? piece.words)
  else none

end VbOutline.Grammar
