import VbOutline.Symbol

/-! Scopes: the symbols of a document nested by their declared ranges, and what is visible at a
position. A symbol is visible if it stands at the level of the file or directly inside a symbol around
the position. -/

namespace VbOutline

/-- Symbols with the symbols nested in them, from left to right. -/
inductive Scope where
  | nil
  | cons (symbol : Symbol) (inner : Scope) (next : Scope)

namespace Scope

/-! ### Building -/

/-- The order symbols are nested in: by start and, from the same start, the larger range first. -/
def precedes (a b : Symbol) : Bool :=
  let r := a.declaredRange
  let t := b.declaredRange
  r.start < t.start || (r.start == t.start && t.stop ≤ r.stop)

/-- The symbols in the order they are nested in; symbols with the same range keep their order. -/
def sorted (symbols : List Symbol) : List Symbol := symbols.mergeSort precedes

/-- Cuts a scope before the first of its symbols that a range does not cover. -/
def cut (r : Range) : Scope → Scope × Scope
  | nil => (nil, nil)
  | cons symbol inner next =>
    if r.covers symbol.declaredRange then
      let (covered, rest) := cut r next
      (cons symbol inner covered, rest)
    else (nil, cons symbol inner next)

/-- Puts a symbol in front of a scope; the symbols it covers, up to the first that it does not, are
nested in it. -/
def enclose (symbol : Symbol) (scope : Scope) : Scope :=
  let (covered, rest) := scope.cut symbol.declaredRange
  cons symbol covered rest

/-- The scope of a document's symbols. -/
def ofSymbols (symbols : List Symbol) : Scope := (sorted symbols).foldr enclose nil

/-! ### Looking up -/

/-- All symbols, each before those nested in it. -/
def toList : Scope → List Symbol
  | nil => []
  | cons symbol inner next => symbol :: (inner.toList ++ next.toList)

/-- The symbols that are not nested in others. -/
def top : Scope → List Symbol
  | nil => []
  | cons symbol _ next => symbol :: next.top

/-- The symbols around a position, the outermost first. -/
def path (p : Position) : Scope → List Symbol
  | nil => []
  | cons symbol inner next =>
    if symbol.declaredRange.contains p then symbol :: inner.path p else next.path p

/-- The symbols nested directly in those around a position, level by level. -/
def nested (p : Position) : Scope → List Symbol
  | nil => []
  | cons symbol inner next =>
    if symbol.declaredRange.contains p then inner.top ++ inner.nested p else next.nested p

/-- The symbols visible at a position: those of the file's level first, then level by level inward. -/
def visible (scope : Scope) (p : Position) : List Symbol := scope.top ++ scope.nested p

end Scope

end VbOutline
