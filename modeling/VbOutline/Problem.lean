/-! Problems noticed while a document is read. None of them stops the reading: each is a `Finding`
with its place, and a `ProblemLog` keeps the first of them up to a limit and counts the others.
`Noted` pairs a value with the problems met while computing it, in the order they were met. -/

namespace VbOutline

/-- The classes of problems. -/
inductive Category where
  | structuralMismatch
  | danglingOpen
  | positionMappingFailure
  | unsupportedParameterList
deriving DecidableEq

namespace Category

/-- The name a category is shown under. -/
def name : Category → String
  | structuralMismatch => "StructuralMismatch"
  | danglingOpen => "DanglingOpen"
  | positionMappingFailure => "PositionMappingFailure"
  | unsupportedParameterList => "UnsupportedParameterList"

/-- The category shown under a name. -/
def ofName? : String → Option Category
  | "StructuralMismatch" => some structuralMismatch
  | "DanglingOpen" => some danglingOpen
  | "PositionMappingFailure" => some positionMappingFailure
  | "UnsupportedParameterList" => some unsupportedParameterList
  | _ => none

end Category

/-- A problem as it is shown. -/
structure Problem where
  category : Category
  message : String
  line : Int
deriving DecidableEq

/-- What can be wrong with a statement or with a block. -/
inductive Finding where
  /-- A method or property header inside the member `current`. -/
  | memberInside (name current : String)
  /-- A class header inside the class or member `current`. -/
  | classInside (name current : String)
  /-- The end of a method while none is open. -/
  | strayMethodEnd (keyword : String)
  /-- The end of a method that was opened with another keyword. -/
  | methodEndMismatch (keyword opener name : String)
  /-- The end of a property while none is open. -/
  | strayPropertyEnd
  /-- The end of a class while none is open. -/
  | strayClassEnd
  /-- A member still open at the end of its class. -/
  | openAtClassEnd (keyword name owner : String)
  /-- A block still open at the end of the document. -/
  | neverClosed (keyword name : String)
  /-- An offset outside the lines of its statement. -/
  | unmappedOffset (offset : Int)
  /-- A span that reaches outside the lines of its statement. -/
  | unmappedSpan (start stop : Int)
  /-- Parentheses in a parameter list that are not an array suffix. -/
  | nestedParentheses (owner : String)
deriving DecidableEq

namespace Finding

/-- The class of problems a finding belongs to. -/
def category : Finding → Category
  | memberInside .. | classInside .. | strayMethodEnd .. | methodEndMismatch .. | strayPropertyEnd
  | strayClassEnd => .structuralMismatch
  | openAtClassEnd .. | neverClosed .. => .danglingOpen
  | unmappedOffset .. | unmappedSpan .. => .positionMappingFailure
  | nestedParentheses .. => .unsupportedParameterList

/-- The wording of a finding. -/
def message : Finding → String
  | memberInside name current => s!"'{name}' opened while '{current}' is still open"
  | classInside name current => s!"class '{name}' opened while '{current}' is still open"
  | strayMethodEnd keyword => s!"'end {keyword}' without an open function or sub"
  | methodEndMismatch keyword opener name => s!"'end {keyword}' closes {opener} '{name}'"
  | strayPropertyEnd => "'end property' without an open property"
  | strayClassEnd => "'end class' without an open class"
  | openAtClassEnd keyword name owner => s!"{keyword} '{name}' still open when class '{owner}' closes"
  | neverClosed keyword name => s!"{keyword} '{name}' is never closed"
  | unmappedOffset offset => s!"offset {offset} cannot be mapped"
  | unmappedSpan start stop => s!"span {start}-{stop} cannot be mapped"
  | nestedParentheses owner => s!"nested parentheses in parameter list of '{owner}'"

/-- The finding as a problem of a line. -/
def onLine (f : Finding) (line : Int) : Problem := ⟨f.category, f.message, line⟩

end Finding

/-! ### Values with problems -/

/-- A value and the problems met on the way to it. -/
structure Noted (α : Type) where
  value : α
  problems : List Problem

namespace Noted

instance : Monad Noted where
  pure a := ⟨a, []⟩
  bind x f := ⟨(f x.value).value, x.problems ++ (f x.value).problems⟩

/-- Notes one problem. -/
def note (problem : Problem) : Noted Unit := ⟨(), [problem]⟩

@[simp] theorem value_pure {α : Type} (a : α) : (pure a : Noted α).value = a := rfl

@[simp] theorem problems_pure {α : Type} (a : α) : (pure a : Noted α).problems = [] := rfl

@[simp] theorem value_bind {α β : Type} (x : Noted α) (f : α → Noted β) :
    (x >>= f).value = (f x.value).value := rfl

@[simp] theorem problems_bind {α β : Type} (x : Noted α) (f : α → Noted β) :
    (x >>= f).problems = x.problems ++ (f x.value).problems := rfl

@[simp] theorem problems_note (problem : Problem) : (note problem).problems = [problem] := rfl

/-- A computation without problems changes none of those around it, and problems keep their order
however computations are grouped. -/
instance : LawfulMonad Noted :=
  LawfulMonad.mk' Noted
    (fun x => by
      show (⟨x.value, x.problems ++ []⟩ : Noted _) = x
      rw [List.append_nil])
    (fun a f => by
      show (⟨(f a).value, [] ++ (f a).problems⟩ : Noted _) = f a
      rw [List.nil_append])
    (fun x f g => by
      show (⟨_, (x.problems ++ (f x.value).problems) ++ _⟩ : Noted _) = ⟨_, x.problems ++ (_ ++ _)⟩
      rw [List.append_assoc]
      rfl)

end Noted

/-! ### Keeping problems -/

/-- The settings of the reader. -/
structure Settings where
  /-- How many problems are kept for each document; a number below one keeps none. -/
  maxProblems : Int := 100
deriving DecidableEq

/-- The problems kept so far, and how many more there were. -/
structure ProblemLog where
  limit : Int
  kept : Array Problem := #[]
  dropped : Nat := 0

namespace ProblemLog

/-- Keeps a problem while there is room for it and counts it otherwise. -/
def add (log : ProblemLog) (problem : Problem) : ProblemLog :=
  if log.limit ≤ log.kept.size then { log with dropped := log.dropped + 1 }
  else { log with kept := log.kept.push problem }

/-- Adds problems in their order. -/
def addAll (log : ProblemLog) (problems : List Problem) : ProblemLog := problems.foldl add log

end ProblemLog

end VbOutline
