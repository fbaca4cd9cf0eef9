import VbOutline.Grammar.Header
import VbOutline.Problem
import VbOutline.Symbol

/-! Open blocks: the class and the member whose end has not been met yet. At most one of each is open;
the member, if there is one, is the inner of the two. -/

namespace VbOutline.Outline

open Grammar (MemberKind)

/-- A class whose end has not been met. -/
structure OpenClass where
  name : String
  start : Position
  nameRange : Range
  line : Int
deriving DecidableEq

/-- A method or a property whose end has not been met. -/
structure OpenMember where
  kind : MemberKind
  /-- The keyword it was opened with, in lower case. -/
  keyword : String
  name : String
  start : Position
  nameRange : Range
  line : Int
  visibility : Option String
  parameterText : String
  /-- The keyword it was opened with, in title case. -/
  declaredType : String
  parameters : List Symbol
deriving DecidableEq

/-- The blocks that are open at some point of a document. -/
structure OpenBlocks where
  openClass : Option OpenClass := none
  openMember : Option OpenMember := none
deriving DecidableEq

/-- The kind of symbol that a member becomes. -/
def symbolKind : MemberKind → SymbolKind
  | .method => .method
  | .property => .property

namespace OpenBlocks

/-- The open member, if it is of the given kind. -/
def memberOf (b : OpenBlocks) (kind : MemberKind) : Option OpenMember :=
  b.openMember.filter fun m => m.kind == kind

/-- The name of the open class. -/
def className (b : OpenBlocks) : Option String := b.openClass.map OpenClass.name

/-- The name of the open member. -/
def memberName (b : OpenBlocks) : Option String := b.openMember.map OpenMember.name

/-- The name of the innermost open block. -/
def nearestName (b : OpenBlocks) : Option String := b.memberName <|> b.className

/-- The name of the outermost open block. -/
def outermostName (b : OpenBlocks) : Option String := b.className <|> b.memberName

/-- The problems of open blocks that nothing closes any more, the member first. -/
def neverClosed (b : OpenBlocks) : List Problem :=
  let members := b.openMember.toList.map fun m =>
    (Finding.neverClosed m.keyword m.name).onLine m.line
  let classes := b.openClass.toList.map fun c =>
    (Finding.neverClosed "class" c.name).onLine c.line
  members ++ classes

end OpenBlocks

end VbOutline.Outline
