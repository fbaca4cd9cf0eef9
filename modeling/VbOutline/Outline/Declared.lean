import VbOutline.Grammar.Declaration
import VbOutline.Grammar.Parameters
import VbOutline.Outline.Blocks
import VbOutline.Source.Location

/-! Symbols of the simple declarations: parameters, fields, variables and constants. -/

namespace VbOutline.Outline

open Grammar Source

/-- The variable of one parameter, for a parameter list that starts at the given offset of the
statement. -/
def parameterSymbol (s : Statement) (offset : Int) (owner : String) (p : Parameter) : Noted Symbol := do
  let declaredRange ← s.range (offset + p.first.start) (offset + p.stop)
  let nameRange ← s.range (offset + p.nameStart) (offset + p.stop)
  pure
    { kind := .variableDef, name := p.name, declaredRange := declaredRange, nameRange := nameRange,
      parent := some owner }

/-- The variables of a parameter list. A list that cannot be read is noted and has none. -/
def parameterSymbols (s : Statement) (text : List Char) (offset : Int) (owner : String) :
    Noted (List Symbol) :=
  match readParameters? text with
  | some parameters => parameters.mapM (parameterSymbol s offset owner)
  | none => do
    s.note (.nestedParentheses owner)
    pure []

/-- The symbol of a field, which belongs to the open class. -/
def fieldSymbol (b : OpenBlocks) (s : Statement) (d : FieldDeclaration) : Noted Symbol := do
  let declaredRange ← s.range d.visibility.start d.name.stop
  let nameRange ← s.rangeOf d.name
  pure
    { kind := .field, name := d.name.spelling, visibility := some d.visibility.spelling,
      declaredRange := declaredRange, nameRange := nameRange, parent := b.className }

/-- The symbol of one variable whose declaration starts at the given offset. -/
def variableSymbol (b : OpenBlocks) (s : Statement) (start : Nat) (e : DimItem) : Noted Symbol := do
  let declaredRange ← s.range start e.stop
  let nameRange ← s.rangeOf e.name
  pure
    { kind := .variableDef, name := e.name.spelling, declaredRange := declaredRange,
      nameRange := nameRange, parent := b.nearestName }

/-- The symbols of a list of variables: the declaration of the first starts at the keyword, that of any
other at its name. -/
def variableSymbols (b : OpenBlocks) (s : Statement) (d : DimDeclaration) : Noted (List Symbol) :=
  match d.declared with
  | [] => pure []
  | first :: others => do
    let head ← variableSymbol b s d.keyword.start first
    let tail ← others.mapM fun e => variableSymbol b s e.name.start e
    pure (head :: tail)

/-- The symbol of a constant, whose declaration is the whole statement. -/
def constantSymbol (b : OpenBlocks) (s : Statement) (d : ConstDeclaration) : Noted Symbol := do
  let declaredRange ← s.range s.begins s.ends
  let nameRange ← s.rangeOf d.name
  pure
    { kind := .constant, name := d.name.spelling, visibility := d.visibility.map Text.Lexeme.spelling,
      declaredRange := declaredRange, nameRange := nameRange, parent := b.nearestName }

end VbOutline.Outline
