import Mathlib.Data.List.Forall2
import VbOutline.Proofs.Composition
import VbOutline.Proofs.Uncased

/-! Documents that differ in letter case alone. Such documents have the same lines, statements and places, and
their statements have the same forms, so reading them goes on in step: the same symbols of the same
kinds are found in the same places, with names that differ in letter case alone, and the same
problems are met on the same lines. -/

namespace VbOutline

namespace Source

open Text Grammar

/-! ### Lines -/

/-- Lines end at the same characters, none of which is a letter. -/
theorem physicalLines_uncased (text : List Char) :
    physicalLines (uncased text) = (physicalLines text).map uncased := by
  fun_induction physicalLines text with
  | case1 => rfl
  | case2 rest ih => exact congrArg ([] :: ·) ih
  | case3 rest ih => exact congrArg ([] :: ·) ih
  | case4 c rest hfeed hreturn hrest ih => exact absurd hrest (physicalLines_ne_nil rest)
  | case5 c rest hfeed hreturn line lines hrest ih =>
      rw [hrest] at ih
      refine physicalLines_cons (mt (toLower_eq_iff (by decide) c).1 hfeed) (fun hc hhead => ?_) ih
      obtain ⟨rest', rfl⟩ := List.head?_eq_some_iff.1 ((head?_uncased (by decide)).1 hhead)
      exact hreturn rest' ((toLower_eq_iff (by decide) c).1 hc) rfl

/-- The insides of the same literals are blanked: quotes have no case. -/
theorem blankLiteralsFrom_uncased (state : Quoting) (line : List Char) :
    blankLiteralsFrom state (uncased line) = uncased (blankLiteralsFrom state line) := by
  induction line generalizing state with
  | nil => cases state <;> rfl
  | cons c rest ih =>
      have hquote : c.toLower = '"' ↔ c = '"' := toLower_eq_iff (by decide) c
      have hmem : '"' ∈ uncased rest ↔ '"' ∈ rest := mem_uncased (by decide)
      have hhead : (uncased rest).head? = some '"' ↔ rest.head? = some '"' := head?_uncased (by decide)
      have htail : '"' ∈ (uncased rest).tail ↔ '"' ∈ rest.tail := by
        rw [uncased, ← List.map_tail]
        exact mem_uncased (by decide)
      show blankLiteralsFrom state (c.toLower :: uncased rest) = _
      cases state with
      | outside =>
          simp only [blankLiteralsFrom, hquote, hmem, ih]
          rfl
      | inside =>
          simp only [blankLiteralsFrom, ne_eq, hquote, hhead, htail, ih]
          split
          · rfl
          · split <;> rfl
      | doubled =>
          simp only [blankLiteralsFrom, ih]
          rfl

/-- A line is a remark in whatever case its keyword is written. -/
theorem isRemark_uncased (line : List Char) : isRemark (uncased line) = isRemark line := by
  have hread : (Cursor.mk 0 (uncased line)).skipBlanks.keyword? .remKw =
      ((Cursor.mk 0 line).skipBlanks.keyword? .remKw).map (Prod.map Spelled.uncased Cursor.uncased) := by
    rw [← Cursor.keyword?_uncased, ← Cursor.skipBlanks_uncased]
    rfl
  rw [isRemark, isRemark, hread]
  cases (Cursor.mk 0 line).skipBlanks.keyword? .remKw with
  | none => rfl
  | some found =>
      obtain ⟨spelled, offset, rest⟩ := found
      cases rest with
      | nil => rfl
      | cons c rest => exact isBlank_toLower c

/-- What is read of a line is the same, in small letters. -/
theorem code_uncased (line : List Char) : code (uncased line) = uncased (code line) := by
  have happ : ∀ c : Char, decide (c.toLower ≠ '\'') = decide (c ≠ '\'') := by
    intro c
    simp only [ne_eq, toLower_eq_iff (x := '\'') (by decide)]
  rw [code, code, blankLiterals, blankLiterals, blankLiteralsFrom_uncased, dropComment, dropComment,
    isRemark_uncased, takeWhile_uncased happ]
  split <;> rfl

/-- A line goes on in the next one or not, whatever its letters. -/
theorem isContinued_uncased (line : List Char) : isContinued (uncased line) = isContinued line := by
  have hlast : ((uncased (trimEnd line)).getLast? == some '_') = ((trimEnd line).getLast? == some '_') := by
    rw [Bool.eq_iff_iff, beq_iff_eq, beq_iff_eq]
    exact getLast?_uncased (by decide)
  simp only [isContinued, trimEnd_uncased, dropLast_uncased, hlast]
  rw [uncased, List.getLast?_map]
  cases (trimEnd line).dropLast.getLast? with
  | none => rfl
  | some c => simp only [Option.map_some, Option.all_some, isBlank_toLower]

theorem blankMarker_uncased (line : List Char) : blankMarker (uncased line) = uncased (blankMarker line) := by
  rw [blankMarker, blankMarker, isContinued_uncased]
  split
  · simp only [trimEnd_uncased, dropLast_uncased, length_uncased, drop_uncased, uncased_append]
    rfl
  · rfl

/-! ### Statements -/

/-- A line of the document in small letters, at its place. -/
def Piece.uncased (piece : Piece) : Piece := { piece with text := Text.uncased piece.text }

/-- A statement in small letters. Its margin and its segments, which hold no text, stay. -/
def Statement.uncased (s : Statement) : Statement := { s with body := Text.uncased s.body }

namespace Piece

theorem ofLine_uncased (number : Nat) (line : List Char) :
    ofLine number (Text.uncased line) = (ofLine number line).uncased := by
  simp only [ofLine, code_uncased, blankMarker_uncased, isContinued_uncased]
  rfl

/-- The lines of a document in small letters are its lines in small letters. -/
theorem ofText_uncased (text : List Char) : ofText (Text.uncased text) = (ofText text).map uncased := by
  rw [ofText, ofText, physicalLines_uncased, List.zipIdx_map, List.map_map, List.map_map]
  refine List.map_congr_left ?_
  rintro ⟨line, number⟩ -
  exact ofLine_uncased number line

/-- Segments go by the lengths of lines, which stay. -/
theorem segmentsFrom_uncased (offset : Nat) (pieces : List Piece) :
    segmentsFrom offset (pieces.map uncased) = segmentsFrom offset pieces := by
  induction pieces generalizing offset with
  | nil => rfl
  | cons piece rest ih =>
      simp only [List.map_cons, segmentsFrom, uncased, length_uncased]
      exact congrArg _ (ih _)

end Piece

/-- Statements are cut at the same colons. -/
theorem LogicalLine.statements_uncased (pieces : List Piece) :
    (ofPieces (pieces.map Piece.uncased)).statements = (ofPieces pieces).statements.map Statement.uncased := by
  have htext : (pieces.map Piece.uncased).flatMap Piece.text = Text.uncased (pieces.flatMap Piece.text) := by
    rw [List.flatMap_map, Text.uncased, List.map_flatMap]
    rfl
  have hcolon : ∀ c : Char, (c.toLower == ':') = (c == ':') := by
    intro c
    rw [Bool.eq_iff_iff, beq_iff_eq, beq_iff_eq]
    exact toLower_eq_iff (by decide) c
  rw [ofPieces, htext, Piece.segmentsFrom_uncased, statements, statements, Lexeme.pieces,
    Lexeme.piecesFrom_uncased hcolon, List.map_map, List.map_map]
  rfl

namespace Statement

variable (s : Statement)

theorem isBlank_uncased : s.uncased.isBlank = s.isBlank := allBlank_uncased s.body

/-- A statement begins at the same offset. -/
theorem begins_uncased : s.uncased.begins = s.begins := congrArg (s.margin + ·) (indent_uncased s.body)

theorem ends_uncased : s.uncased.ends = s.ends := by
  show s.margin + (trimEnd (Text.uncased s.body)).length = _
  rw [trimEnd_uncased, length_uncased]
  rfl

/-- A statement is reported on the same line. -/
theorem line_uncased : s.uncased.line = s.line := by
  rw [line, isBlank_uncased, begins_uncased]
  rfl

theorem note_uncased (finding : Finding) : s.uncased.note finding = s.note finding := by
  rw [note, line_uncased, note]

/-- Where no range can be resolved, the same one is used instead. -/
theorem fallback_uncased : s.uncased.fallback = s.fallback := by rw [fallback, line_uncased, fallback]

theorem position_uncased (offset : Int) : s.uncased.position offset = s.position offset := by
  have hfound : s.uncased.position? offset = s.position? offset := rfl
  rw [position, hfound, note_uncased, fallback_uncased, position]

/-- A range of a statement does not depend on its letters. -/
theorem range_uncased (start stop : Int) : s.uncased.range start stop = s.range start stop := by
  have hfound : s.uncased.range? start stop = s.range? start stop := rfl
  rw [range, hfound, note_uncased, fallback_uncased, range]

/-- A lexeme has the same range as its small letters. -/
theorem rangeOf_uncased (l : Lexeme) : s.uncased.rangeOf l.uncased = s.rangeOf l := by
  rw [rangeOf, range_uncased, Lexeme.stop_uncased]
  rfl

end Statement

end Source

/-! ### Computations -/

/-- What a problem says without its wording. -/
def Problem.site (p : Problem) : Category × Int := (p.category, p.line)

namespace Noted

variable {α β γ δ : Type}

/-- The second computation gives the value of the first, changed by `f`, and meets the same problems in other
words. -/
structure Alike (f : α → β) (x : Noted α) (y : Noted β) : Prop where
  value_eq : y.value = f x.value
  sites_eq : y.problems.map Problem.site = x.problems.map Problem.site

theorem Alike.pure {f : α → β} {a : α} {b : β} (h : b = f a) : Alike f (Pure.pure a) (Pure.pure b) := ⟨h, rfl⟩

theorem Alike.of_eq {x y : Noted α} (h : y = x) : Alike id x y := by
  subst h
  exact ⟨rfl, rfl⟩

/-- Computations that are alike step by step are alike as a whole. -/
theorem Alike.bind {f : α → β} {g : γ → δ} {x : Noted α} {y : Noted β} {k : α → Noted γ} {l : β → Noted δ}
    (hx : Alike f x y) (hk : ∀ a, Alike g (k a) (l (f a))) : Alike g (x >>= k) (y >>= l) := by
  have hnext := hk x.value
  constructor
  · rw [value_bind, value_bind, hx.value_eq, hnext.value_eq]
  · rw [problems_bind, problems_bind, List.map_append, List.map_append, hx.sites_eq, hx.value_eq, hnext.sites_eq]

/-- A computation for each of some items is alike if it is so for every item. -/
theorem Alike.mapM {h : α → β} {g : γ → δ} {k : α → Noted γ} {l : β → Noted δ}
    (hk : ∀ a, Alike g (k a) (l (h a))) (items : List α) :
    Alike (List.map g) (items.mapM k) ((items.map h).mapM l) := by
  induction items with
  | nil => exact .pure rfl
  | cons a items ih =>
      rw [List.map_cons, List.mapM_cons, List.mapM_cons]
      exact (hk a).bind fun _ => ih.bind fun _ => .pure rfl

end Noted

open Noted

/-- A finding of the same category is noted on the same line, in other words. -/
theorem Source.Statement.note_alike (s : Statement) {f g : Finding} (h : g.category = f.category) :
    Alike id (s.note f) (s.uncased.note g) := by
  rw [note_uncased]
  exact ⟨rfl, congrArg (fun category => [(category, s.line)]) h⟩

/-- A symbol with the ASCII letters of what was written made small. -/
def Symbol.uncased (x : Symbol) : Symbol :=
  { x with
    name := x.name.toLower
    visibility := x.visibility.map String.toLower
    parameterText := x.parameterText.toLower
    parent := x.parent.map String.toLower }

/-- A symbol without parameter text has nothing to make small in it. -/
theorem Symbol.uncased_of_empty {x : Symbol} (h : x.parameterText = "") :
    x.uncased =
      { x with
        name := x.name.toLower
        visibility := x.visibility.map String.toLower
        parent := x.parent.map String.toLower } := by
  rw [uncased, h, Text.toLower_empty, ← h]

/-- Two symbols that differ in nothing but the case of what was written. -/
structure Symbol.SameButCase (x y : Symbol) : Prop where
  kind_eq : x.kind = y.kind
  declaredType_eq : x.declaredType = y.declaredType
  declaredRange_eq : x.declaredRange = y.declaredRange
  nameRange_eq : x.nameRange = y.nameRange
  name_eq : x.name.toLower = y.name.toLower
  visibility_eq : x.visibility.map String.toLower = y.visibility.map String.toLower
  parameterText_eq : x.parameterText.toLower = y.parameterText.toLower
  parent_eq : x.parent.map String.toLower = y.parent.map String.toLower

/-- Symbols that are the same in small letters differ in nothing but case. -/
theorem Symbol.sameButCase_of_uncased {x y : Symbol} (h : x.uncased = y.uncased) : x.SameButCase y where
  kind_eq := (congrArg Symbol.kind h :)
  declaredType_eq := (congrArg Symbol.declaredType h :)
  declaredRange_eq := (congrArg Symbol.declaredRange h :)
  nameRange_eq := (congrArg Symbol.nameRange h :)
  name_eq := (congrArg Symbol.name h :)
  visibility_eq := (congrArg Symbol.visibility h :)
  parameterText_eq := (congrArg Symbol.parameterText h :)
  parent_eq := (congrArg Symbol.parent h :)

namespace Outline

open Grammar Source Text

/-- A document in small letters has the same statements, in small letters. -/
theorem statements_uncased (text : List Char) :
    statements (uncased text) = (statements text).map Statement.uncased := by
  have hlines : LogicalLine.ofText (uncased text) =
      ((Piece.group (Piece.ofText text)).map (List.map Piece.uncased)).map LogicalLine.ofPieces := by
    rw [LogicalLine.ofText, Piece.ofText_uncased, Piece.group_map (f := Piece.uncased) fun _ => rfl]
  have hblank : (fun s : Statement => !s.isBlank) ∘ Statement.uncased = fun s => !s.isBlank :=
    funext fun s => congrArg not s.isBlank_uncased
  rw [statements, statements, hlines, ← hblank, ← List.filter_map, List.map_flatMap, LogicalLine.ofText, hblank,
    List.map_map, List.flatMap_map, List.flatMap_map]
  simp only [Function.comp, LogicalLine.statements_uncased]

/-! ### Blocks -/

/-- An open class with its name in small letters. -/
def OpenClass.uncased (c : OpenClass) : OpenClass := { c with name := c.name.toLower }

/-- An open member in small letters. The two forms of its keyword that are kept do not show its case. -/
def OpenMember.uncased (m : OpenMember) : OpenMember :=
  { m with
    name := m.name.toLower
    visibility := m.visibility.map String.toLower
    parameterText := m.parameterText.toLower
    parameters := m.parameters.map Symbol.uncased }

/-- Open blocks with their names in small letters. -/
def OpenBlocks.uncased (b : OpenBlocks) : OpenBlocks :=
  ⟨b.openClass.map OpenClass.uncased, b.openMember.map OpenMember.uncased⟩

/-- The open blocks and the symbols of a change, in small letters. -/
def Change.uncased (change : Change) : Change := ⟨change.blocks.uncased, change.symbols.map Symbol.uncased⟩

namespace OpenBlocks

variable (b : OpenBlocks)

theorem className_uncased : b.uncased.className = b.className.map String.toLower := by
  rw [className, className, uncased, Option.map_map, Option.map_map]
  rfl

theorem memberName_uncased : b.uncased.memberName = b.memberName.map String.toLower := by
  rw [memberName, memberName, uncased, Option.map_map, Option.map_map]
  rfl

theorem nearestName_uncased : b.uncased.nearestName = b.nearestName.map String.toLower := by
  rw [nearestName, nearestName, className_uncased, memberName_uncased]
  cases b.memberName <;> rfl

theorem outermostName_uncased : b.uncased.outermostName = b.outermostName.map String.toLower := by
  rw [outermostName, outermostName, className_uncased, memberName_uncased]
  cases b.className <;> rfl

/-- The open member is of the same kind. -/
theorem memberOf_uncased (kind : MemberKind) :
    b.uncased.memberOf kind = (b.memberOf kind).map OpenMember.uncased := by
  rw [memberOf, memberOf, uncased, Option.filter_map]
  rfl

/-- The same blocks are reported as never closed, on the same lines. -/
theorem neverClosed_uncased : b.uncased.neverClosed.map Problem.site = b.neverClosed.map Problem.site := by
  obtain ⟨openClass, openMember⟩ := b
  cases openClass <;> cases openMember <;> rfl

end OpenBlocks

/-! ### Declarations -/

section Statements

variable (b : OpenBlocks) (s : Statement)

theorem parameterSymbol_alike (offset : Int) (owner : String) (p : Parameter) :
    Alike Symbol.uncased (parameterSymbol s offset owner p)
      (parameterSymbol s.uncased offset owner.toLower p.uncased) := by
  rw [parameterSymbol, parameterSymbol, p.nameStart_uncased, p.stop_uncased, p.name_uncased]
  refine (Alike.of_eq (s.range_uncased _ _)).bind fun _ => ?_
  refine (Alike.of_eq (s.range_uncased _ _)).bind fun _ => .pure ?_
  exact .symm (Symbol.uncased_of_empty rfl)

/-- The same parameters are found in a list, or it is reported. -/
theorem parameterSymbols_alike (text : List Char) (offset : Int) (owner : String) :
    Alike (List.map Symbol.uncased) (parameterSymbols s text offset owner)
      (parameterSymbols s.uncased (uncased text) offset owner.toLower) := by
  rw [parameterSymbols, parameterSymbols, readParameters?_uncased]
  cases readParameters? text with
  | some parameters => exact .mapM (parameterSymbol_alike s offset owner) parameters
  | none => exact Alike.bind (s.note_alike rfl) fun _ => .pure rfl

theorem fieldSymbol_alike (d : FieldDeclaration) :
    Alike Symbol.uncased (fieldSymbol b s d) (fieldSymbol b.uncased s.uncased d.uncased) := by
  have hrange : s.uncased.range d.uncased.visibility.start d.uncased.name.stop =
      s.range d.visibility.start d.name.stop := by
    rw [s.range_uncased, FieldDeclaration.uncased, Lexeme.stop_uncased]
    rfl
  refine (Alike.of_eq hrange).bind fun _ => ?_
  refine (Alike.of_eq (s.rangeOf_uncased d.name)).bind fun _ => .pure ?_
  rw [b.className_uncased, FieldDeclaration.uncased, Lexeme.spelling_uncased, Lexeme.spelling_uncased]
  exact .symm (Symbol.uncased_of_empty rfl)

theorem variableSymbol_alike (start : Nat) (e : DimItem) :
    Alike Symbol.uncased (variableSymbol b s start e) (variableSymbol b.uncased s.uncased start e.uncased) := by
  refine (Alike.of_eq (s.range_uncased _ _)).bind fun _ => ?_
  refine (Alike.of_eq (s.rangeOf_uncased e.name)).bind fun _ => .pure ?_
  rw [b.nearestName_uncased, DimItem.uncased, Lexeme.spelling_uncased]
  exact .symm (Symbol.uncased_of_empty rfl)

/-- The same variables are declared, in the same places. -/
theorem variableSymbols_alike (d : DimDeclaration) :
    Alike (List.map Symbol.uncased) (variableSymbols b s d)
      (variableSymbols b.uncased s.uncased d.uncased) := by
  rw [variableSymbols, variableSymbols, d.declared_uncased]
  cases d.declared with
  | nil => exact .pure rfl
  | cons first others =>
      refine (variableSymbol_alike b s d.keyword.start first).bind fun _ => ?_
      exact (Alike.mapM (fun e => variableSymbol_alike b s e.name.start e) others).bind fun _ => .pure rfl

/-- A statement covers the same range, from its first character that is not blank to its last. -/
theorem wholeRange_uncased : s.uncased.range s.uncased.begins s.uncased.ends = s.range s.begins s.ends := by
  rw [s.range_uncased, s.begins_uncased, s.ends_uncased]

theorem spellings_uncased (l : Option Lexeme) :
    (l.map Lexeme.uncased).map Lexeme.spelling = (l.map Lexeme.spelling).map String.toLower := by
  rw [Option.map_map, Option.map_map]
  exact congrArg (Option.map · l) (funext Lexeme.spelling_uncased)

theorem constantSymbol_alike (d : ConstDeclaration) :
    Alike Symbol.uncased (constantSymbol b s d) (constantSymbol b.uncased s.uncased d.uncased) := by
  refine (Alike.of_eq (wholeRange_uncased s)).bind fun _ => ?_
  refine (Alike.of_eq (s.rangeOf_uncased d.name)).bind fun _ => .pure ?_
  rw [b.nearestName_uncased, ConstDeclaration.uncased, Lexeme.spelling_uncased, spellings_uncased]
  exact .symm (Symbol.uncased_of_empty rfl)

/-! ### Blocks that open and close -/

theorem headerParameters_alike (h : MemberHeader) :
    Alike (List.map Symbol.uncased) (headerParameters s h) (headerParameters s.uncased h.uncased) := by
  rw [headerParameters, headerParameters, MemberHeader.uncased, Lexeme.spelling_uncased]
  cases h.parameters with
  | some list => exact parameterSymbols_alike s list.text list.start h.name.spelling
  | none => exact .pure rfl

theorem start_uncased : s.uncased.position s.uncased.begins = s.position s.begins := by
  rw [s.position_uncased, s.begins_uncased]

/-- The same member is opened. -/
theorem openMember_alike (kind : MemberKind) (h : MemberHeader) :
    Alike OpenMember.uncased (openMember kind s h) (openMember kind s.uncased h.uncased) := by
  refine (Alike.of_eq (start_uncased s)).bind fun _ => ?_
  refine (Alike.of_eq (s.rangeOf_uncased h.name)).bind fun _ => ?_
  refine (headerParameters_alike s h).bind fun _ => .pure ?_
  -- the keyword is kept in lower case and in title case, so how it was written is lost
  have hkeyword : lower h.uncased.keyword.written.text = lower h.keyword.written.text := lower_uncased _
  have htype : capitalize h.uncased.keyword.written.text = capitalize h.keyword.written.text :=
    capitalize_uncased _
  have htext : ((h.parameters.map Lexeme.uncased).map Lexeme.spelling).getD "" =
      ((h.parameters.map Lexeme.spelling).getD "").toLower := by
    rw [spellings_uncased]
    cases h.parameters with
    | none => exact toLower_empty.symm
    | some list => rfl
  rw [hkeyword, htype, s.line_uncased, MemberHeader.uncased, htext, spellings_uncased, Lexeme.spelling_uncased]
  rfl

/-- A header is accepted or rejected alike: that a block is open counts, not its name. -/
theorem applyMemberOpen_alike (kind : MemberKind) :
    Alike (Option.map Change.uncased) (applyMemberOpen kind b s) (applyMemberOpen kind b.uncased s.uncased) := by
  have hread : MemberHeader.read? kind s.uncased.cursor = _ := MemberHeader.read?_uncased kind s.cursor
  rw [applyMemberOpen, applyMemberOpen, b.memberName_uncased, hread]
  cases MemberHeader.read? kind s.cursor with
  | none => exact .pure rfl
  | some h =>
      cases b.memberName with
      | some current => exact Alike.bind (s.note_alike rfl) fun _ => .pure rfl
      | none => exact (openMember_alike s kind h).bind fun _ => .pure rfl

theorem applyClassOpen_alike :
    Alike (Option.map Change.uncased) (applyClassOpen b s) (applyClassOpen b.uncased s.uncased) := by
  have hread : readClassHeader? s.uncased.cursor = _ := readClassHeader?_uncased s.cursor
  rw [applyClassOpen, applyClassOpen, b.outermostName_uncased, hread]
  cases readClassHeader? s.cursor with
  | none => exact .pure rfl
  | some name =>
      cases b.outermostName with
      | some current => exact Alike.bind (s.note_alike rfl) fun _ => .pure rfl
      | none =>
          refine (Alike.of_eq (start_uncased s)).bind fun _ => ?_
          refine (Alike.of_eq (s.rangeOf_uncased name)).bind fun _ => .pure ?_
          rw [s.line_uncased, Lexeme.spelling_uncased]
          rfl

theorem closedRange_uncased (start : Position) : closedRange start s.uncased = closedRange start s := by
  rw [closedRange, closedRange, wholeRange_uncased]

/-- The same member is closed, under the same class. -/
theorem closeMember_alike (m : OpenMember) :
    Alike Change.uncased (closeMember b s m) (closeMember b.uncased s.uncased m.uncased) := by
  refine (Alike.of_eq (closedRange_uncased s m.start)).bind fun _ => .pure ?_
  rw [b.className_uncased]
  rfl

/-- An end names another keyword than its header in both texts or in none. -/
theorem noteMismatch_alike (keyword : String) (m : OpenMember) :
    Alike id (noteMismatch s keyword m) (noteMismatch s.uncased keyword m.uncased) := by
  rw [noteMismatch, noteMismatch]
  change Alike id _ (if keyword = m.keyword then _ else _)
  split
  · exact .pure rfl
  · exact s.note_alike rfl

theorem applyMethodClose_alike :
    Alike (Option.map Change.uncased) (applyMethodClose b s) (applyMethodClose b.uncased s.uncased) := by
  have hread : readEnd? MemberKind.method.keywords s.uncased.cursor = _ := readEnd?_uncased _ s.cursor
  rw [applyMethodClose, applyMethodClose, b.memberOf_uncased, hread]
  cases readEnd? MemberKind.method.keywords s.cursor with
  | none => exact .pure rfl
  | some closer =>
      have hkeyword : lower closer.uncased.written.text = lower closer.written.text := lower_uncased _
      dsimp only [Option.map_some]
      rw [hkeyword]
      cases b.memberOf .method with
      | none => exact Alike.bind (s.note_alike rfl) fun _ => .pure rfl
      | some m =>
          refine (noteMismatch_alike s _ m).bind fun _ => ?_
          exact (closeMember_alike b s m).bind fun _ => .pure rfl

theorem applyPropertyClose_alike :
    Alike (Option.map Change.uncased) (applyPropertyClose b s) (applyPropertyClose b.uncased s.uncased) := by
  have hread : readEnd? [.propertyKw] s.uncased.cursor = _ := readEnd?_uncased _ s.cursor
  rw [applyPropertyClose, applyPropertyClose, b.memberOf_uncased, hread]
  cases readEnd? [.propertyKw] s.cursor with
  | none => exact .pure rfl
  | some closer =>
      cases b.memberOf .property with
      | none => exact Alike.bind (s.note_alike rfl) fun _ => .pure rfl
      | some m => exact (closeMember_alike b s m).bind fun _ => .pure rfl

theorem applyClassClose_alike :
    Alike (Option.map Change.uncased) (applyClassClose b s) (applyClassClose b.uncased s.uncased) := by
  have hread : readEnd? [.classKw] s.uncased.cursor = _ := readEnd?_uncased _ s.cursor
  rw [applyClassClose, applyClassClose, hread]
  cases readEnd? [.classKw] s.cursor with
  | none => exact .pure rfl
  | some closer =>
      obtain ⟨openClass, openMember⟩ := b
      cases openClass with
      | none => exact Alike.bind (s.note_alike rfl) fun _ => .pure rfl
      | some c =>
          have hnote : Alike id (noteOpenMember ⟨some c, openMember⟩ c)
              (noteOpenMember (OpenBlocks.uncased ⟨some c, openMember⟩) c.uncased) := by
            cases openMember <;> exact ⟨rfl, rfl⟩
          refine hnote.bind fun _ => ?_
          refine (Alike.of_eq (closedRange_uncased s c.start)).bind fun _ => .pure ?_
          refine congrArg (fun x => some (Change.mk {} [x])) ?_
          exact .symm (Symbol.uncased_of_empty rfl)

/-! ### Steps -/

/-- A rule does the same, whatever the case of the statement and of the names of open blocks. -/
theorem apply_alike (rule : Rule) :
    Alike (Option.map Change.uncased) (rule.apply b s) (rule.apply b.uncased s.uncased) := by
  cases rule with
  | methodOpen => exact applyMemberOpen_alike b s .method
  | methodClose => exact applyMethodClose_alike b s
  | propertyOpen => exact applyMemberOpen_alike b s .property
  | propertyClose => exact applyPropertyClose_alike b s
  | classOpen => exact applyClassOpen_alike b s
  | classClose => exact applyClassClose_alike b s
  | field =>
      have hread : FieldDeclaration.read? s.uncased.cursor = _ := FieldDeclaration.read?_uncased s.cursor
      rw [Rule.apply, applyField, applyField, hread]
      cases FieldDeclaration.read? s.cursor with
      | none => exact .pure rfl
      | some d => exact (fieldSymbol_alike b s d).bind fun _ => .pure rfl
  | dim =>
      have hread : DimDeclaration.read? s.uncased.cursor = _ := DimDeclaration.read?_uncased s.cursor
      rw [Rule.apply, applyDim, applyDim, hread]
      cases DimDeclaration.read? s.cursor with
      | none => exact .pure rfl
      | some d => exact (variableSymbols_alike b s d).bind fun _ => .pure rfl
  | constant =>
      have hread : ConstDeclaration.read? s.uncased.cursor = _ := ConstDeclaration.read?_uncased s.cursor
      have hopen : b.uncased.openMember.isSome = b.openMember.isSome := Option.isSome_map
      rw [Rule.apply, applyConstant, applyConstant, hread, hopen]
      cases ConstDeclaration.read? s.cursor with
      | none => exact .pure rfl
      | some d =>
          dsimp only [Option.map_some]
          split
          · exact .pure rfl
          · exact (constantSymbol_alike b s d).bind fun _ => .pure rfl

/-- The same rule consumes the statement. -/
theorem consumeWith_alike (rules : List Rule) :
    Alike (Option.map (Prod.map id Change.uncased)) (consumeWith rules b s)
      (consumeWith rules b.uncased s.uncased) := by
  induction rules with
  | nil => exact .pure rfl
  | cons rule rules ih =>
      refine (apply_alike b s rule).bind fun change => ?_
      cases change with
      | none => exact ih
      | some change => exact .pure rfl

/-- One statement leads to the same change, in small letters. -/
theorem step_alike : Alike Change.uncased (step b s) (step b.uncased s.uncased) := by
  rw [step, step, consume]
  refine (consumeWith_alike b s Rule.all).bind fun found => ?_
  cases found with
  | none => exact .pure rfl
  | some found => exact .pure rfl

end Statements

theorem extend_alike {t t' : Noted Change} (h : Alike Change.uncased t t') (s : Statement) :
    Alike Change.uncased (extend t s) (extend t' s.uncased) := by
  have hstep := step_alike t.value.blocks s
  have hblocks : t'.value.blocks = t.value.blocks.uncased := congrArg Change.blocks h.value_eq
  have hsymbols : t'.value.symbols = t.value.symbols.map Symbol.uncased := congrArg Change.symbols h.value_eq
  constructor
  · simp only [extend, Change.uncased, hblocks, hsymbols, hstep.value_eq, List.map_append]
  · simp only [extend, hblocks, List.map_append, h.sites_eq, hstep.sites_eq]

/-- Statements without their case lead to the same, without its case. -/
theorem trace_alike (ss : List Statement) : Alike Change.uncased (trace ss) (trace (ss.map Statement.uncased)) := by
  have h : ∀ (rest : List Statement) (t t' : Noted Change), Alike Change.uncased t t' →
      Alike Change.uncased (rest.foldl extend t) ((rest.map Statement.uncased).foldl extend t') := by
    intro rest
    induction rest with
    | nil => exact fun t t' ht => ht
    | cons s rest ih =>
        intro t t' ht
        rw [List.map_cons, List.foldl_cons, List.foldl_cons]
        exact ih _ _ (extend_alike ht s)
  exact h ss _ _ ⟨rfl, rfl⟩

/-! ### Documents -/

/-- A document in small letters has the same symbols, in small letters. -/
theorem symbols_uncased (text : List Char) :
    (trace (statements (uncased text))).value.symbols =
      (trace (statements text)).value.symbols.map Symbol.uncased := by
  rw [statements_uncased]
  exact congrArg Change.symbols (trace_alike (statements text)).value_eq

/-- A document in small letters has the same problems, on the same lines. -/
theorem reports_uncased (text : List Char) :
    (reports (uncased text)).map Problem.site = (reports text).map Problem.site := by
  have htrace := trace_alike (statements text)
  have hblocks : (trace ((statements text).map Statement.uncased)).value.blocks =
      (trace (statements text)).value.blocks.uncased :=
    congrArg Change.blocks htrace.value_eq
  simp only [reports, statements_uncased, List.map_append, htrace.sites_eq, hblocks,
    OpenBlocks.neverClosed_uncased]

theorem forall₂_of_map_eq {α β : Type} {f : α → β} {l l' : List α} (h : l.map f = l'.map f) :
    List.Forall₂ (fun a b => f a = f b) l l' := by
  rw [← List.forall₂_map_right_iff, ← List.forall₂_map_left_iff, List.forall₂_eq_eq_eq]
  exact h

/-- Letter case has no meaning: documents that differ in the case of ASCII letters alone, which are the letters that
`String.toLower` changes, have the same symbols in the same places, named alike but for case, and the same problems
on the same lines. -/
theorem parse_caseless (settings : Settings) {t u : String} (h : t.toLower = u.toLower) :
    List.Forall₂ Symbol.SameButCase (parse settings t).symbols (parse settings u).symbols ∧
      List.Forall₂ (fun p q => p.category = q.category ∧ p.line = q.line)
        (parse settings t).problems (parse settings u).problems := by
  have htext : uncased t.toList = uncased u.toList := by rw [← toList_toLower, h, toList_toLower]
  constructor
  · rw [parse_symbols, parse_symbols]
    refine (forall₂_of_map_eq (f := Symbol.uncased) ?_).imp fun x y hxy => Symbol.sameButCase_of_uncased hxy
    rw [← symbols_uncased t.toList, ← symbols_uncased u.toList, htext]
  · rw [parse_problems, parse_problems]
    refine (forall₂_of_map_eq (f := Problem.site) ?_).imp fun p q hpq => Prod.ext_iff.1 hpq
    rw [List.map_take, List.map_take, ← reports_uncased t.toList, ← reports_uncased u.toList, htext]

/-- A document in capitals: a joined line, an end that does not fit its header and a stray one. -/
def loud : String := "PUBLIC DEFAULT FUNCTION F(BYVAL X)\nDIM A _\n(1), B\nEND SUB : REM END CLASS\nEND CLASS"

/-- The same document in small letters, but for some capitals. -/
def quiet : String := "Public default Function f(ByVal x)\ndim a _\n(1), b\nend Sub : rem end class\nend class"

theorem parse_caseless_loud :
    loud.toLower = quiet.toLower ∧
      List.Forall₂ Symbol.SameButCase (parse {} loud).symbols (parse {} quiet).symbols ∧
      List.Forall₂ (fun p q => p.category = q.category ∧ p.line = q.line)
        (parse {} loud).problems (parse {} quiet).problems ∧
      (parse {} quiet).symbols.length = 4 ∧ (parse {} quiet).problems.length = 2 := by
  have h : loud.toLower = quiet.toLower := by
    rw [← String.toList_inj, toList_toLower, toList_toLower]
    decide +kernel
  obtain ⟨hsymbols, hproblems⟩ := parse_caseless {} h
  exact ⟨h, hsymbols, hproblems, by decide +kernel, by decide +kernel⟩

end Outline

end VbOutline
