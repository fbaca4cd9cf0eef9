import VbOutline.Outline.Rule

/-! A document that is being read: the blocks open at this point, the symbols that are complete and the
problems kept so far. -/

namespace VbOutline.Outline

open Source

/-- How far a document has been read. -/
structure Reading where
  blocks : OpenBlocks := {}
  symbols : Array Symbol := #[]
  log : ProblemLog

namespace Reading

/-- Reading starts with nothing open. -/
def start (settings : Settings) : Reading := { log := { limit := settings.maxProblems } }

/-- Gives the value of a computation and logs its problems. -/
def absorb {α : Type} (r : Reading) (noted : Noted α) : α × Reading :=
  (noted.value, { r with log := r.log.addAll noted.problems })

/-- Goes on with the blocks of a change and adds its symbols. -/
def accept (r : Reading) (change : Change) : Reading :=
  { r with blocks := change.blocks, symbols := r.symbols ++ change.symbols.toArray }

/-- Applies one rule and tells whether it consumed the statement. -/
def applyRule (r : Reading) (rule : Rule) (s : Statement) : Bool × Reading :=
  match r.absorb (rule.apply r.blocks s) with
  | (some change, r) => (true, r.accept change)
  | (none, r) => (false, r)

/-- Reads a statement and tells which rule consumed it. -/
def consume (r : Reading) (s : Statement) : Option Rule × Reading :=
  match r.absorb (Outline.consume r.blocks s) with
  | (some (rule, change), r) => (some rule, r.accept change)
  | (none, r) => (none, r)

/-- Reads statements one after the other. -/
def consumeAll (r : Reading) (statements : List Statement) : Reading :=
  statements.foldl (fun r s => (r.consume s).2) r

/-- Logs one problem. -/
def report (r : Reading) (problem : Problem) : Reading := { r with log := r.log.add problem }

/-- Reading ends: blocks still open are logged, the member first, and dropped. -/
def conclude (r : Reading) : Reading :=
  { r with blocks := {}, log := r.log.addAll r.blocks.neverClosed }

end Reading

end VbOutline.Outline
