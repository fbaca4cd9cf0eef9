import VbOutline.Symbol

/-! Symbols as an editor shows them: entries of an outline and completion candidates. The numbers are
those of the Language Server Protocol for its symbol kinds and its completion item kinds. -/

namespace VbOutline.Editor

/-- The number an outline shows a symbol under; a method outside any class is a function. -/
def outlineNumber (s : Symbol) : Nat :=
  if s.isFunction then 12
  else match s.kind with
    | .classDef => 5
    | .method => 6
    | .property => 7
    | .field => 8
    | .variableDef => 13
    | .constant => 14

/-- The number a completion list shows a symbol under; a method outside any class is a function. -/
def completionNumber (s : Symbol) : Nat :=
  if s.isFunction then 3
  else match s.kind with
    | .classDef => 7
    | .method => 2
    | .property => 10
    | .field => 5
    | .variableDef => 6
    | .constant => 21

/-- An entry of an outline. -/
structure OutlineEntry where
  rendered : String
  kind : SymbolKind
  declaredRange : Range
  nameRange : Range
  parent : Option String
  detail : String
  number : Nat
  /-- The document of the symbol, in outlines of several documents. -/
  document : Option String
deriving DecidableEq

/-- The entry of a symbol. -/
def OutlineEntry.ofSymbol (document : Option String) (s : Symbol) : OutlineEntry :=
  ⟨s.rendered, s.kind, s.declaredRange, s.nameRange, s.parent, s.declaredType, outlineNumber s, document⟩

/-- A candidate for completion. -/
structure Completion where
  label : String
  kind : SymbolKind
  documentation : Option String
  number : Nat
deriving DecidableEq

/-- A string without the blanks at its two ends, unless that leaves nothing. -/
def nonblank? (text : String) : Option String :=
  let text := Text.trimmed text
  if text.isEmpty then none else some text

/-- A method or a property on one line: visibility, keyword, and the name with its parameters. -/
def documentation? (s : Symbol) : Option String :=
  if s.kind.isCallable then
    let call := s.name ++ "(" ++ Text.trimmed s.parameterText ++ ")"
    let words := (s.visibility.bind nonblank?).toList ++ (nonblank? s.declaredType).toList ++ [call]
    some (" ".intercalate words)
  else none

/-- The candidate of a symbol. -/
def Completion.ofSymbol (s : Symbol) : Completion :=
  ⟨s.name, s.kind, documentation? s, completionNumber s⟩

end VbOutline.Editor
