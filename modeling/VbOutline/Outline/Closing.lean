import VbOutline.Outline.Opening

/-! Statements that close blocks. An end without its block is noted and consumed all the same. A block
becomes a symbol when it is closed, with the range from its header to its end. -/

namespace VbOutline.Outline

open Grammar Source Text

/-- The range of a block that starts at a position and ends with a statement. -/
def closedRange (start : Position) (s : Statement) : Noted Range := do
  let last ← s.range s.begins s.ends
  pure ⟨start, last.stop⟩

/-- Closes the open member: its symbol, then those of its parameters. -/
def closeMember (b : OpenBlocks) (s : Statement) (m : OpenMember) : Noted Change := do
  let declaredRange ← closedRange m.start s
  let head : Symbol :=
    { kind := symbolKind m.kind
      name := m.name
      visibility := m.visibility
      declaredType := m.declaredType
      parameterText := m.parameterText
      declaredRange := declaredRange
      nameRange := m.nameRange
      parent := b.className }
  pure { blocks := { b with openMember := none }, symbols := head :: m.parameters }

/-- Notes the end of a method that names another keyword than its header. -/
def noteMismatch (s : Statement) (keyword : String) (m : OpenMember) : Noted Unit :=
  if keyword = m.keyword then pure () else s.note (.methodEndMismatch keyword m.keyword m.name)

/-- The end of a method closes the open method, whichever of the two keywords it names. -/
def applyMethodClose (b : OpenBlocks) (s : Statement) : Noted (Option Change) :=
  match readEnd? MemberKind.method.keywords s.cursor with
  | none => pure none
  | some closer =>
    let keyword := String.ofList (lower closer.written.text)
    match b.memberOf .method with
    | none => do
      s.note (.strayMethodEnd keyword)
      pure (some { blocks := b })
    | some m => do
      noteMismatch s keyword m
      let change ← closeMember b s m
      pure (some change)

/-- The end of a property closes the open property. -/
def applyPropertyClose (b : OpenBlocks) (s : Statement) : Noted (Option Change) :=
  match readEnd? [.propertyKw] s.cursor with
  | none => pure none
  | some _ =>
    match b.memberOf .property with
    | none => do
      s.note .strayPropertyEnd
      pure (some { blocks := b })
    | some m => do
      let change ← closeMember b s m
      pure (some change)

/-- Notes the member that is still open when its class ends, on the line of the member's header. -/
def noteOpenMember (b : OpenBlocks) (owner : OpenClass) : Noted Unit :=
  match b.openMember with
  | some m => Noted.note ((Finding.openAtClassEnd m.keyword m.name owner.name).onLine m.line)
  | none => pure ()

/-- The end of a class closes the open class; a member still open in it is dropped. -/
def applyClassClose (b : OpenBlocks) (s : Statement) : Noted (Option Change) :=
  match readEnd? [.classKw] s.cursor with
  | none => pure none
  | some _ =>
    match b.openClass with
    | none => do
      s.note .strayClassEnd
      pure (some { blocks := b })
    | some c => do
      noteOpenMember b c
      let declaredRange ← closedRange c.start s
      let symbol : Symbol :=
        { kind := .classDef, name := c.name, declaredRange := declaredRange, nameRange := c.nameRange }
      pure (some { blocks := {}, symbols := [symbol] })

end VbOutline.Outline
