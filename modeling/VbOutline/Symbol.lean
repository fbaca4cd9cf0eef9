import VbOutline.Position
import VbOutline.Text.Blank

/-! Symbols: the declarations that a document's outline is made of. -/

namespace VbOutline

/-- What a symbol declares. Parameters are variables. -/
inductive SymbolKind where
  | classDef
  | method
  | property
  | field
  | variableDef
  | constant
deriving DecidableEq

namespace SymbolKind

/-- The name a kind is shown under. -/
def name : SymbolKind → String
  | classDef => "Class"
  | method => "Method"
  | property => "Property"
  | field => "Field"
  | variableDef => "Variable"
  | constant => "Constant"

/-- The kind shown under a name; letter case counts. -/
def ofName? : String → Option SymbolKind
  | "Class" => some classDef
  | "Method" => some method
  | "Property" => some property
  | "Field" => some field
  | "Variable" => some variableDef
  | "Constant" => some constant
  | _ => none

/-- Whether symbols of this kind take parameters. -/
def isCallable : SymbolKind → Bool
  | method | property => true
  | _ => false

end SymbolKind

/-- One declaration of a document. -/
structure Symbol where
  kind : SymbolKind
  name : String
  /-- The visibility keyword as it was written, if there was one. -/
  visibility : Option String := none
  /-- The keyword that declares a method or a property, in title case. -/
  declaredType : String := ""
  /-- The text between the parentheses of a method or a property, as it was written. -/
  parameterText : String := ""
  declaredRange : Range
  nameRange : Range
  /-- The name of the block the symbol belongs to; none at the level of the file. -/
  parent : Option String := none
deriving DecidableEq

namespace Symbol

/-- The name as outlines show it: methods and properties are followed by their parameters. -/
def rendered (s : Symbol) : String :=
  if s.kind.isCallable then s.name ++ " (" ++ Text.trimmed s.parameterText ++ ")" else s.name

/-- Whether a symbol is a method declared outside any class. -/
def isFunction (s : Symbol) : Bool := s.kind == .method && s.parent.isNone

end Symbol

end VbOutline
