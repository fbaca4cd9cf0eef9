import VbOutline.Outline.Closing

/-! The rules that statements are read by. A rule consumes the statements of its form, and answers with
the blocks that are open afterwards and the symbols that are complete; it declines any other statement.
The rules are tried in a fixed order. -/

namespace VbOutline.Outline

open Grammar Source

/-! ### Simple declarations -/

/-- Fields are declared anywhere. -/
def applyField (b : OpenBlocks) (s : Statement) : Noted (Option Change) :=
  match FieldDeclaration.read? s.cursor with
  | none => pure none
  | some d => do
    let symbol ← fieldSymbol b s d
    pure (some { blocks := b, symbols := [symbol] })

/-- Variables are declared anywhere. -/
def applyDim (b : OpenBlocks) (s : Statement) : Noted (Option Change) :=
  match DimDeclaration.read? s.cursor with
  | none => pure none
  | some d => do
    let symbols ← variableSymbols b s d
    pure (some { blocks := b, symbols := symbols })

/-- Constants are declared outside members; inside of one the statement is declined. -/
def applyConstant (b : OpenBlocks) (s : Statement) : Noted (Option Change) :=
  match ConstDeclaration.read? s.cursor with
  | none => pure none
  | some d =>
    if b.openMember.isSome then pure none
    else do
      let symbol ← constantSymbol b s d
      pure (some { blocks := b, symbols := [symbol] })

/-! ### The table of rules -/

/-- The rules. -/
inductive Rule where
  | methodOpen
  | methodClose
  | propertyOpen
  | propertyClose
  | classOpen
  | classClose
  | field
  | dim
  | constant
deriving DecidableEq

namespace Rule

/-- The rules in the order they are tried. -/
def all : List Rule :=
  [methodOpen, methodClose, propertyOpen, propertyClose, classOpen, classClose, field, dim,
    constant]

/-- The name of a rule. -/
def name : Rule → String
  | methodOpen => "method-open"
  | methodClose => "method-close"
  | propertyOpen => "property-open"
  | propertyClose => "property-close"
  | classOpen => "class-open"
  | classClose => "class-close"
  | field => "field"
  | dim => "variable"
  | constant => "constant"

/-- The rule of a name. -/
def ofName? (name : String) : Option Rule := all.find? fun rule => rule.name == name

end Rule

/-- What a rule makes of a statement; nothing if it declines the statement. -/
def Rule.apply : Rule → OpenBlocks → Statement → Noted (Option Change)
  | .methodOpen => applyMemberOpen .method
  | .methodClose => applyMethodClose
  | .propertyOpen => applyMemberOpen .property
  | .propertyClose => applyPropertyClose
  | .classOpen => applyClassOpen
  | .classClose => applyClassClose
  | .field => applyField
  | .dim => applyDim
  | .constant => applyConstant

/-- Tries rules in their order until one consumes the statement. -/
def consumeWith : List Rule → OpenBlocks → Statement → Noted (Option (Rule × Change))
  | [], _, _ => pure none
  | rule :: rules, b, s => do
    match ← rule.apply b s with
    | some change => pure (some (rule, change))
    | none => consumeWith rules b s

/-- Tries all rules. -/
def consume : OpenBlocks → Statement → Noted (Option (Rule × Change)) := consumeWith Rule.all

end VbOutline.Outline
