/-! Positions in a document and the ranges between them. Lines and characters are counted from zero
and positions are ordered by line, then by character. Both counts are integers: a position may come
from outside and need not lie in any document. -/

namespace VbOutline

/-- A line and a character in it, both counted from zero. -/
structure Position where
  line : Int
  character : Int
deriving DecidableEq, Inhabited

namespace Position

instance : LE Position where
  le p q := p.line < q.line ∨ p.line = q.line ∧ p.character ≤ q.character

instance : LT Position where
  lt p q := p.line < q.line ∨ p.line = q.line ∧ p.character < q.character

instance (p q : Position) : Decidable (p ≤ q) :=
  inferInstanceAs (Decidable (p.line < q.line ∨ p.line = q.line ∧ p.character ≤ q.character))

instance (p q : Position) : Decidable (p < q) :=
  inferInstanceAs (Decidable (p.line < q.line ∨ p.line = q.line ∧ p.character < q.character))

end Position

/-- The stretch from one position up to another. -/
structure Range where
  start : Position
  stop : Position
deriving DecidableEq, Inhabited

namespace Range

/-- Whether a position lies in a range; both ends belong to it. -/
def contains (r : Range) (p : Position) : Bool := r.start ≤ p && p ≤ r.stop

/-- Whether both ends of another range lie in a range. -/
def covers (r other : Range) : Bool := r.contains other.start && r.contains other.stop

end Range

end VbOutline
