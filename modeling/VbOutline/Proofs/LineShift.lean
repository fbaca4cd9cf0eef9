import VbOutline.Proofs.Steps

/-! Documents that are moved down by some lines. Nothing that a statement leads to depends on where its lines
stand: moving the statements, together with the blocks that are open, moves the positions in symbols and
the lines of problems, and changes nothing else. -/

namespace VbOutline

/-- A position some lines further down, at the same character. -/
def Position.down (n : Int) (p : Position) : Position := ⟨p.line + n, p.character⟩

/-- A range with both of its ends moved down. -/
def Range.down (n : Int) (r : Range) : Range := ⟨r.start.down n, r.stop.down n⟩

/-- A symbol with its two ranges moved down. -/
def Symbol.down (n : Int) (x : Symbol) : Symbol :=
  { x with declaredRange := x.declaredRange.down n, nameRange := x.nameRange.down n }

/-- A problem reported some lines further down. -/
def Problem.down (n : Int) (p : Problem) : Problem := { p with line := p.line + n }

namespace Noted

variable {α β γ δ : Type} {n : Int}

/-- A value that is moved by `f`, with its problems moved down. -/
def down (n : Int) (f : α → β) (x : Noted α) : Noted β := ⟨f x.value, x.problems.map (Problem.down n)⟩

/-- Computations that are moved down step by step are moved down as a whole. -/
theorem down_bind {f : α → β} {g : γ → δ} {x : Noted α} {y : Noted β} {k : α → Noted γ} {l : β → Noted δ}
    (hx : y = x.down n f) (hk : ∀ a, l (f a) = (k a).down n g) : y >>= l = (x >>= k).down n g := by
  subst hx
  show (⟨(l (f x.value)).value, x.problems.map _ ++ (l (f x.value)).problems⟩ : Noted δ) =
    ⟨g (k x.value).value, (x.problems ++ (k x.value).problems).map _⟩
  rw [hk, List.map_append]
  rfl

theorem down_mapM {f : α → Noted γ} {f' : α → Noted δ} {g : γ → δ} (h : ∀ a, f' a = (f a).down n g)
    (l : List α) : l.mapM f' = (l.mapM f).down n (List.map g) := by
  induction l with
  | nil => rfl
  | cons a l ih =>
      rw [List.mapM_cons, List.mapM_cons]
      exact down_bind (h a) fun _ => down_bind ih fun _ => rfl

end Noted

namespace Source

/-! ### Statements -/

/-- A segment of a line further down; neither its column nor its length changes. -/
def Segment.down (n : Int) (s : Segment) : Segment := { s with line := s.line + n }

/-- A statement with the same text, whose segments stand further down. -/
def Statement.down (n : Int) (s : Statement) : Statement :=
  { s with segments := s.segments.map (Segment.down n) }

/-- An offset is located at the same character of a line further down. -/
theorem Segment.locate_down (n : Int) (segments : List Segment) (offset : Int) :
    locate (segments.map (down n)) offset = (locate segments offset).map (Position.down n) := by
  induction segments generalizing offset with
  | nil => rfl
  | cons segment rest ih =>
      cases rest with
      | nil =>
          simp only [List.map_cons, List.map_nil, locate, down]
          split <;> rfl
      | cons next rest =>
          simp only [List.map_cons, locate, down] at ih ⊢
          split
          · rfl
          · exact ih _

theorem Statement.lineOf_down (n otherwise : Int) (segments : List Segment) (offset : Int) :
    lineOf (otherwise + n) (segments.map (Segment.down n)) offset = lineOf otherwise segments offset + n := by
  induction segments generalizing otherwise offset with
  | nil => rfl
  | cons segment rest ih =>
      simp only [List.map_cons, lineOf, Segment.down]
      split
      · rfl
      · exact ih segment.line _

namespace Statement

variable {s : Statement}

/-- The line of a statement moves with it, as long as it has a segment: without one it is always line zero. -/
theorem line_down (hs : s.segments ≠ []) (n : Int) : (s.down n).line = s.line + n := by
  -- with a segment there, the line does not fall back on the number that is given
  have hany : ∀ offset, lineOf (0 + n) (s.down n).segments offset = lineOf 0 (s.down n).segments offset := by
    intro offset
    cases hsegments : s.segments with
    | nil => exact absurd hsegments hs
    | cons segment rest =>
        simp only [down, hsegments, List.map_cons, lineOf]
  exact (hany _).symm.trans (lineOf_down n 0 s.segments _)

theorem cursor_down (s : Statement) (n : Int) : (s.down n).cursor = s.cursor := rfl

theorem position?_down (s : Statement) (n offset : Int) :
    (s.down n).position? offset = (s.position? offset).map (Position.down n) := by
  rw [position?, position?]
  split
  · rfl
  · exact Segment.locate_down n s.segments offset

/-- A range that can be resolved is moved down, and one that cannot stays so. -/
theorem range?_down (s : Statement) (n start stop : Int) :
    (s.down n).range? start stop = (s.range? start stop).map (Range.down n) := by
  have hstop : (s.down n).endPosition? stop = (s.endPosition? stop).map (Position.down n) := by
    rw [endPosition?, endPosition?]
    split
    · exact s.position?_down n stop
    · rw [position?_down, Option.map_map, Option.map_map]
      rfl
  rw [range?, range?, position?_down, hstop]
  cases s.position? start with
  | none => rfl
  | some first =>
      by_cases h : start < stop
      · simp only [if_pos h]
        cases s.endPosition? stop <;> rfl
      · simp only [if_neg h]
        rfl

theorem note_down (hs : s.segments ≠ []) (n : Int) (finding : Finding) :
    (s.down n).note finding = (s.note finding).down n id := by
  rw [note, line_down hs]
  rfl

/-- The range used where none can be resolved goes by the line of the statement, so it moves too. -/
theorem fallback_down (hs : s.segments ≠ []) (n : Int) : (s.down n).fallback = s.fallback.down n := by
  rw [fallback, line_down hs]
  rfl

theorem position_down (hs : s.segments ≠ []) (n offset : Int) :
    (s.down n).position offset = (s.position offset).down n (Position.down n) := by
  rw [position, position, position?_down]
  cases s.position? offset with
  | some p => rfl
  | none =>
      refine Noted.down_bind (note_down hs n _) fun _ => ?_
      rw [fallback_down hs]
      rfl

theorem range_down (hs : s.segments ≠ []) (n start stop : Int) :
    (s.down n).range start stop = (s.range start stop).down n (Range.down n) := by
  rw [range, range, range?_down]
  cases s.range? start stop with
  | some r => rfl
  | none =>
      refine Noted.down_bind (note_down hs n _) fun _ => ?_
      rw [fallback_down hs]
      rfl

end Statement

end Source

namespace Outline

open Grammar Source

/-! ### Blocks -/

/-- An open class whose header stands further down. -/
def OpenClass.down (n : Int) (c : OpenClass) : OpenClass :=
  { c with start := c.start.down n, nameRange := c.nameRange.down n, line := c.line + n }

/-- An open member whose header, with its parameters, stands further down. -/
def OpenMember.down (n : Int) (m : OpenMember) : OpenMember :=
  { m with start := m.start.down n, nameRange := m.nameRange.down n, line := m.line + n,
           parameters := m.parameters.map (Symbol.down n) }

/-- Open blocks whose headers stand further down. -/
def OpenBlocks.down (n : Int) (b : OpenBlocks) : OpenBlocks :=
  ⟨b.openClass.map (OpenClass.down n), b.openMember.map (OpenMember.down n)⟩

/-- The open blocks and the symbols of a change, moved down. -/
def Change.down (n : Int) (change : Change) : Change :=
  ⟨change.blocks.down n, change.symbols.map (Symbol.down n)⟩

namespace OpenBlocks

theorem className_down (n : Int) (b : OpenBlocks) : (b.down n).className = b.className := by
  rw [className, down, Option.map_map]
  rfl

theorem memberName_down (n : Int) (b : OpenBlocks) : (b.down n).memberName = b.memberName := by
  rw [memberName, down, Option.map_map]
  rfl

theorem nearestName_down (n : Int) (b : OpenBlocks) : (b.down n).nearestName = b.nearestName := by
  rw [nearestName, className_down, memberName_down, nearestName]

theorem outermostName_down (n : Int) (b : OpenBlocks) : (b.down n).outermostName = b.outermostName := by
  rw [outermostName, className_down, memberName_down, outermostName]

theorem memberOf_down (n : Int) (b : OpenBlocks) (kind : MemberKind) :
    (b.down n).memberOf kind = (b.memberOf kind).map (OpenMember.down n) := by
  rw [memberOf, memberOf, down, Option.filter_map]
  rfl

/-- Blocks that are never closed are reported on the lines of their headers, which moved. -/
theorem neverClosed_down (n : Int) (b : OpenBlocks) :
    (b.down n).neverClosed = b.neverClosed.map (Problem.down n) := by
  obtain ⟨openClass, openMember⟩ := b
  cases openClass <;> cases openMember <;> rfl

end OpenBlocks

/-! ### Declarations -/

section Statements

variable {b : OpenBlocks} {s : Statement} (hs : s.segments ≠ []) (n : Int)
include hs

theorem parameterSymbol_down (offset : Int) (owner : String) (p : Parameter) :
    parameterSymbol (s.down n) offset owner p = (parameterSymbol s offset owner p).down n (Symbol.down n) :=
  Noted.down_bind (Statement.range_down hs n _ _) fun _ =>
    Noted.down_bind (Statement.range_down hs n _ _) fun _ => rfl

/-- The parameters of a list are moved down, and so is the problem of a list that cannot be read. -/
theorem parameterSymbols_down (text : List Char) (offset : Int) (owner : String) :
    parameterSymbols (s.down n) text offset owner =
      (parameterSymbols s text offset owner).down n (List.map (Symbol.down n)) := by
  rw [parameterSymbols, parameterSymbols]
  cases readParameters? text with
  | some parameters => exact Noted.down_mapM (parameterSymbol_down hs n offset owner) parameters
  | none => exact Noted.down_bind (Statement.note_down hs n _) fun _ => rfl

theorem fieldSymbol_down (d : FieldDeclaration) :
    fieldSymbol (b.down n) (s.down n) d = (fieldSymbol b s d).down n (Symbol.down n) := by
  refine Noted.down_bind (Statement.range_down hs n _ _) fun _ => ?_
  refine Noted.down_bind (Statement.range_down hs n _ _) fun _ => ?_
  rw [b.className_down]
  rfl

theorem variableSymbol_down (start : Nat) (e : DimItem) :
    variableSymbol (b.down n) (s.down n) start e = (variableSymbol b s start e).down n (Symbol.down n) := by
  refine Noted.down_bind (Statement.range_down hs n _ _) fun _ => ?_
  refine Noted.down_bind (Statement.range_down hs n _ _) fun _ => ?_
  rw [b.nearestName_down]
  rfl

/-- All variables of one declaration are moved down. -/
theorem variableSymbols_down (d : DimDeclaration) :
    variableSymbols (b.down n) (s.down n) d = (variableSymbols b s d).down n (List.map (Symbol.down n)) := by
  rw [variableSymbols, variableSymbols]
  cases d.declared with
  | nil => rfl
  | cons first others =>
      refine Noted.down_bind (variableSymbol_down hs n _ first) fun _ => ?_
      refine Noted.down_bind (Noted.down_mapM (fun e => variableSymbol_down hs n _ e) others) fun _ => ?_
      rfl

theorem constantSymbol_down (d : ConstDeclaration) :
    constantSymbol (b.down n) (s.down n) d = (constantSymbol b s d).down n (Symbol.down n) := by
  refine Noted.down_bind (Statement.range_down hs n _ _) fun _ => ?_
  refine Noted.down_bind (Statement.range_down hs n _ _) fun _ => ?_
  rw [b.nearestName_down]
  rfl

/-! ### Blocks that open and close -/

/-- The member that a header opens moves with the header. -/
theorem openMember_down (kind : MemberKind) (h : MemberHeader) :
    openMember kind (s.down n) h = (openMember kind s h).down n (OpenMember.down n) := by
  have hparameters : headerParameters (s.down n) h =
      (headerParameters s h).down n (List.map (Symbol.down n)) := by
    rw [headerParameters, headerParameters]
    cases h.parameters with
    | some list => exact parameterSymbols_down hs n _ _ _
    | none => rfl
  refine Noted.down_bind (Statement.position_down hs n _) fun _ => ?_
  refine Noted.down_bind (Statement.range_down hs n _ _) fun _ => ?_
  refine Noted.down_bind hparameters fun _ => ?_
  rw [Statement.line_down hs]
  rfl

/-- Whether a header is accepted depends on the names of open blocks only, not on where they stand. -/
theorem applyMemberOpen_down (kind : MemberKind) :
    applyMemberOpen kind (b.down n) (s.down n) =
      (applyMemberOpen kind b s).down n (Option.map (Change.down n)) := by
  rw [applyMemberOpen, applyMemberOpen, b.memberName_down, s.cursor_down]
  cases MemberHeader.read? kind s.cursor with
  | none => rfl
  | some h =>
      cases b.memberName with
      | some current => exact Noted.down_bind (Statement.note_down hs n _) fun _ => rfl
      | none => exact Noted.down_bind (openMember_down hs n kind h) fun _ => rfl

theorem applyClassOpen_down :
    applyClassOpen (b.down n) (s.down n) = (applyClassOpen b s).down n (Option.map (Change.down n)) := by
  rw [applyClassOpen, applyClassOpen, b.outermostName_down, s.cursor_down]
  cases readClassHeader? s.cursor with
  | none => rfl
  | some name =>
      cases b.outermostName with
      | some current => exact Noted.down_bind (Statement.note_down hs n _) fun _ => rfl
      | none =>
          refine Noted.down_bind (Statement.position_down hs n _) fun _ => ?_
          refine Noted.down_bind (Statement.range_down hs n _ _) fun _ => ?_
          rw [Statement.line_down hs]
          rfl

/-- A block whose start and whose end are moved down covers a range further down. -/
theorem closedRange_down (start : Position) :
    closedRange (start.down n) (s.down n) = (closedRange start s).down n (Range.down n) :=
  Noted.down_bind (Statement.range_down hs n _ _) fun _ => rfl

theorem closeMember_down (m : OpenMember) :
    closeMember (b.down n) (s.down n) (m.down n) = (closeMember b s m).down n (Change.down n) := by
  refine Noted.down_bind (closedRange_down hs n m.start) fun _ => ?_
  rw [b.className_down]
  rfl

theorem noteMismatch_down (keyword : String) (m : OpenMember) :
    noteMismatch (s.down n) keyword (m.down n) = (noteMismatch s keyword m).down n id := by
  rw [noteMismatch, noteMismatch]
  change (if keyword = m.keyword then _ else _) = _
  split
  · rfl
  · exact Statement.note_down hs n _

theorem applyMethodClose_down :
    applyMethodClose (b.down n) (s.down n) = (applyMethodClose b s).down n (Option.map (Change.down n)) := by
  rw [applyMethodClose, applyMethodClose, b.memberOf_down, s.cursor_down]
  cases readEnd? MemberKind.method.keywords s.cursor with
  | none => rfl
  | some closer =>
      cases b.memberOf .method with
      | none => exact Noted.down_bind (Statement.note_down hs n _) fun _ => rfl
      | some m =>
          refine Noted.down_bind (noteMismatch_down hs n _ m) fun _ => ?_
          exact Noted.down_bind (closeMember_down hs n m) fun _ => rfl

theorem applyPropertyClose_down :
    applyPropertyClose (b.down n) (s.down n) =
      (applyPropertyClose b s).down n (Option.map (Change.down n)) := by
  rw [applyPropertyClose, applyPropertyClose, b.memberOf_down, s.cursor_down]
  cases readEnd? [.propertyKw] s.cursor with
  | none => rfl
  | some closer =>
      cases b.memberOf .property with
      | none => exact Noted.down_bind (Statement.note_down hs n _) fun _ => rfl
      | some m => exact Noted.down_bind (closeMember_down hs n m) fun _ => rfl

/-- The end of a class drops the open member and reports it on its own line, which moved as well. -/
theorem applyClassClose_down :
    applyClassClose (b.down n) (s.down n) = (applyClassClose b s).down n (Option.map (Change.down n)) := by
  rw [applyClassClose, applyClassClose, s.cursor_down]
  cases readEnd? [.classKw] s.cursor with
  | none => rfl
  | some closer =>
      obtain ⟨openClass, openMember⟩ := b
      cases openClass with
      | none => exact Noted.down_bind (Statement.note_down hs n _) fun _ => rfl
      | some c =>
          have hnote : noteOpenMember (OpenBlocks.down n ⟨some c, openMember⟩) (c.down n) =
              (noteOpenMember ⟨some c, openMember⟩ c).down n id := by
            cases openMember <;> rfl
          refine Noted.down_bind hnote fun _ => ?_
          exact Noted.down_bind (closedRange_down hs n c.start) fun _ => rfl

/-! ### Steps -/

/-- A rule does the same to a statement further down, while the blocks that are open stand further down. -/
theorem apply_down (rule : Rule) :
    rule.apply (b.down n) (s.down n) = (rule.apply b s).down n (Option.map (Change.down n)) := by
  cases rule with
  | methodOpen => exact applyMemberOpen_down hs n .method
  | methodClose => exact applyMethodClose_down hs n
  | propertyOpen => exact applyMemberOpen_down hs n .property
  | propertyClose => exact applyPropertyClose_down hs n
  | classOpen => exact applyClassOpen_down hs n
  | classClose => exact applyClassClose_down hs n
  | field =>
      show applyField _ _ = (applyField b s).down n _
      rw [applyField, applyField, s.cursor_down]
      cases FieldDeclaration.read? s.cursor with
      | none => rfl
      | some d => exact Noted.down_bind (fieldSymbol_down hs n d) fun _ => rfl
  | dim =>
      show applyDim _ _ = (applyDim b s).down n _
      rw [applyDim, applyDim, s.cursor_down]
      cases DimDeclaration.read? s.cursor with
      | none => rfl
      | some d => exact Noted.down_bind (variableSymbols_down hs n d) fun _ => rfl
  | constant =>
      show applyConstant _ _ = (applyConstant b s).down n _
      rw [applyConstant, applyConstant, s.cursor_down]
      cases ConstDeclaration.read? s.cursor with
      | none => rfl
      | some d =>
          have hopen : (b.down n).openMember.isSome = b.openMember.isSome := Option.isSome_map
          simp only [hopen]
          split
          · rfl
          · exact Noted.down_bind (constantSymbol_down hs n d) fun _ => rfl

/-- The same rule consumes a statement further down. -/
theorem consumeWith_down (rules : List Rule) :
    consumeWith rules (b.down n) (s.down n) =
      (consumeWith rules b s).down n (Option.map (Prod.map id (Change.down n))) := by
  induction rules with
  | nil => rfl
  | cons rule rules ih =>
      refine Noted.down_bind (apply_down hs n rule) fun change => ?_
      cases change with
      | none => exact ih
      | some change => rfl

/-- A statement further down leads to the same change, moved down. -/
theorem step_down : step (b.down n) (s.down n) = (step b s).down n (Change.down n) := by
  refine Noted.down_bind (consumeWith_down hs n Rule.all) fun found => ?_
  cases found with
  | none => rfl
  | some found => rfl

theorem extend_down (t : Noted Change) :
    extend (t.down n (Change.down n)) (s.down n) = (extend t s).down n (Change.down n) := by
  have hstep := step_down (b := t.value.blocks) hs n
  rw [extend, extend]
  simp only [Noted.down, Change.down, List.map_append] at hstep ⊢
  rw [hstep]

end Statements

/-- Statements that are moved down lead to the same, moved down. -/
theorem trace_down (n : Int) {ss : List Statement} (hss : ∀ s ∈ ss, s.segments ≠ []) :
    trace (ss.map (Statement.down n)) = (trace ss).down n (Change.down n) := by
  have h : ∀ (rest : List Statement) (t : Noted Change), (∀ s ∈ rest, s.segments ≠ []) →
      (rest.map (Statement.down n)).foldl extend (t.down n (Change.down n)) =
        (rest.foldl extend t).down n (Change.down n) := by
    intro rest
    induction rest with
    | nil => exact fun t _ => rfl
    | cons s rest ih =>
        intro t hrest
        rw [List.map_cons, List.foldl_cons, extend_down (hrest s List.mem_cons_self)]
        exact ih _ fun r hr => hrest r (List.mem_cons_of_mem s hr)
  exact h ss ⟨{ blocks := {} }, []⟩ hss

end Outline

end VbOutline
