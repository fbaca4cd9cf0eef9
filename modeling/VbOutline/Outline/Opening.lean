import VbOutline.Outline.Declared

/-! Statements that open blocks. Where no block may open, a header is noted and declined. -/

namespace VbOutline.Outline

open Grammar Source Text

/-- What a consumed statement leads to. -/
structure Change where
  blocks : OpenBlocks
  symbols : List Symbol := []
deriving DecidableEq

/-- The variables of a header's parameters; a header without parentheses has none. -/
def headerParameters (s : Statement) (h : MemberHeader) : Noted (List Symbol) :=
  match h.parameters with
  | some list => parameterSymbols s list.text list.start h.name.spelling
  | none => pure []

/-- The member that a header opens. -/
def openMember (kind : MemberKind) (s : Statement) (h : MemberHeader) : Noted OpenMember := do
  let start ← s.position s.begins
  let nameRange ← s.rangeOf h.name
  let parameters ← headerParameters s h
  pure
    { kind := kind
      keyword := String.ofList (lower h.keyword.written.text)
      name := h.name.spelling
      start := start
      nameRange := nameRange
      line := s.line
      visibility := h.visibility.map Lexeme.spelling
      parameterText := (h.parameters.map Lexeme.spelling).getD ""
      declaredType := String.ofList (capitalize h.keyword.written.text)
      parameters := parameters }

/-- A member opens if no other one is open. -/
def applyMemberOpen (kind : MemberKind) (b : OpenBlocks) (s : Statement) : Noted (Option Change) :=
  match MemberHeader.read? kind s.cursor with
  | none => pure none
  | some h =>
    match b.memberName with
    | some current => do
      s.note (.memberInside h.name.spelling current)
      pure none
    | none => do
      let member ← openMember kind s h
      pure (some { blocks := { b with openMember := some member } })

/-- A class opens if no block is open. -/
def applyClassOpen (b : OpenBlocks) (s : Statement) : Noted (Option Change) :=
  match readClassHeader? s.cursor with
  | none => pure none
  | some name =>
    match b.outermostName with
    | some current => do
      s.note (.classInside name.spelling current)
      pure none
    | none => do
      let start ← s.position s.begins
      let nameRange ← s.rangeOf name
      pure (some { blocks := { b with openClass := some ⟨name.spelling, start, nameRange, s.line⟩ } })

end VbOutline.Outline
