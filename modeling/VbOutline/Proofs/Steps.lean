import VbOutline.Outline.Parse

/-! What reading a document does, step by step. `trace` reads statements and keeps every problem; the
reader's log of a document is that list of problems cut at the limit, and its symbols are the trace's. -/

namespace VbOutline.ProblemLog

theorem addAll_append (log : ProblemLog) (ps qs : List Problem) :
    log.addAll (ps ++ qs) = (log.addAll ps).addAll qs :=
  List.foldl_append

/-- A log keeps the first problems up to its limit. -/
theorem kept_addAll (limit : Int) (ps : List Problem) :
    (addAll { limit := limit } ps).kept.toList = ps.take limit.toNat := by
  have h : ∀ (qs : List Problem) (log : ProblemLog) (done : List Problem), log.limit = limit →
      log.kept.toList = done.take limit.toNat →
        (log.addAll qs).kept.toList = (done ++ qs).take limit.toNat := by
    intro qs
    induction qs with
    | nil =>
        intro log done _ hkept
        rw [List.append_nil]
        exact hkept
    | cons q qs ih =>
        intro log done hlimit hkept
        have hsize : log.kept.size = min limit.toNat done.length := by
          rw [← Array.length_toList, hkept, List.length_take]
        rw [← List.singleton_append, ← List.append_assoc]
        show ((log.add q).addAll qs).kept.toList = _
        apply ih
        · rw [add]
          split <;> exact hlimit
        · rw [add, hlimit, hsize]
          split
          · next hfull => rw [List.take_append_of_le_length (by omega), hkept]
          · next hroom =>
              rw [List.take_of_length_le (by simp; omega), Array.toList_push, hkept,
                List.take_of_length_le (by omega)]
  have hall := h ps { limit := limit } [] rfl (by simp)
  simpa using hall

end VbOutline.ProblemLog

namespace VbOutline.Outline

open Grammar Source

/-! ### Reading without a limit -/

/-- What a statement leads to; one that no rule consumes leads to nothing. -/
def step (b : OpenBlocks) (s : Statement) : Noted Change := do
  match ← consume b s with
  | some (_, change) => pure change
  | none => pure { blocks := b }

theorem step_of_some {b : OpenBlocks} {s : Statement} {rule : Rule} {change : Change}
    (h : (consume b s).value = some (rule, change)) : step b s = ⟨change, (consume b s).problems⟩ := by
  show (⟨_, _ ++ _⟩ : Noted Change) = _
  rw [h]
  exact congrArg (Noted.mk change) (List.append_nil _)

theorem step_of_none {b : OpenBlocks} {s : Statement} (h : (consume b s).value = none) :
    step b s = ⟨{ blocks := b }, (consume b s).problems⟩ := by
  show (⟨_, _ ++ _⟩ : Noted Change) = _
  rw [h]
  exact congrArg (Noted.mk _) (List.append_nil _)

/-- Goes on with one more statement. -/
def extend (t : Noted Change) (s : Statement) : Noted Change :=
  ⟨⟨(step t.value.blocks s).value.blocks, t.value.symbols ++ (step t.value.blocks s).value.symbols⟩,
    t.problems ++ (step t.value.blocks s).problems⟩

/-- The blocks open after some statements, the symbols complete by then and every problem met. -/
def trace (ss : List Statement) : Noted Change := ss.foldl extend ⟨{ blocks := {} }, []⟩

/-- Every problem of a document, in the order they were met. -/
def reports (text : List Char) : List Problem :=
  let t := trace (statements text)
  t.problems ++ t.value.blocks.neverClosed

/-- What holds at the start and is kept by each statement holds at the end. -/
theorem trace_induction {I : Noted Change → List Statement → Prop} {ss : List Statement}
    (start : I ⟨{ blocks := {} }, []⟩ ss) (keep : ∀ t s rest, I t (s :: rest) → I (extend t s) rest) :
    I (trace ss) [] := by
  have h : ∀ (rest : List Statement) (t : Noted Change), I t rest → I (rest.foldl extend t) [] := by
    intro rest
    induction rest with
    | nil => exact fun t ht => ht
    | cons s rest ih => exact fun t ht => ih _ (keep t s rest ht)
  exact h ss _ start

/-! ### The reader's log -/

/-- A reading has got as far as a trace. -/
structure Tracks (settings : Settings) (r : Reading) (t : Noted Change) : Prop where
  blocks_eq : r.blocks = t.value.blocks
  symbols_eq : r.symbols.toList = t.value.symbols
  log_eq : r.log = ProblemLog.addAll { limit := settings.maxProblems } t.problems

theorem step_problems (b : OpenBlocks) (s : Statement) : (step b s).problems = (consume b s).problems := by
  cases hvalue : (consume b s).value with
  | none => rw [step_of_none hvalue]
  | some found =>
      obtain ⟨rule, change⟩ := found
      rw [step_of_some hvalue]

/-- A reading goes on as the statement's step says. -/
theorem consume_eq (r : Reading) (s : Statement) :
    r.consume s = ((consume r.blocks s).value.map Prod.fst,
      ⟨(step r.blocks s).value.blocks, r.symbols ++ (step r.blocks s).value.symbols.toArray,
        r.log.addAll (consume r.blocks s).problems⟩) := by
  rw [Reading.consume, Reading.absorb]
  cases hvalue : (consume r.blocks s).value with
  | none =>
      rw [step_of_none hvalue]
      simp
  | some found =>
      obtain ⟨rule, change⟩ := found
      rw [step_of_some hvalue]
      rfl

theorem Tracks.consume {settings : Settings} {r : Reading} {t : Noted Change} (h : Tracks settings r t)
    (s : Statement) : Tracks settings (r.consume s).2 (extend t s) := by
  rw [consume_eq, h.blocks_eq]
  refine ⟨rfl, ?_, ?_⟩
  · rw [extend, ← h.symbols_eq]
    exact Array.toList_append
  · rw [extend, step_problems, ProblemLog.addAll_append, ← h.log_eq]

theorem consumeAll_tracks (settings : Settings) (ss : List Statement) :
    Tracks settings ((Reading.start settings).consumeAll ss) (trace ss) := by
  have h : ∀ (rest : List Statement) (r : Reading) (t : Noted Change), Tracks settings r t →
      Tracks settings (r.consumeAll rest) (rest.foldl extend t) := by
    intro rest
    induction rest with
    | nil => exact fun r t ht => ht
    | cons s rest ih => exact fun r t ht => ih _ _ (ht.consume s)
  exact h ss _ _ ⟨rfl, rfl, rfl⟩

/-- The symbols of a document do not depend on the settings. -/
theorem parse_symbols (settings : Settings) (text : String) :
    (parse settings text).symbols = (trace (statements text.toList)).value.symbols := by
  have h := consumeAll_tracks settings (statements text.toList)
  simp only [parse, read, Reading.conclude, h.symbols_eq]

theorem read_log (settings : Settings) (text : List Char) :
    (read settings text).log = ProblemLog.addAll { limit := settings.maxProblems } (reports text) := by
  have h := consumeAll_tracks settings (statements text)
  simp only [reports, ProblemLog.addAll_append, ← h.log_eq, ← h.blocks_eq, read, Reading.conclude]

/-- The problems kept of a document are the first of all its problems. -/
theorem parse_problems (settings : Settings) (text : String) :
    (parse settings text).problems = (reports text.toList).take settings.maxProblems.toNat := by
  rw [parse, read_log, ProblemLog.kept_addAll]

/-! ### What statements declare and complete -/

/-- The symbols of a statement that declares without opening a block. -/
inductive Declaration (b : OpenBlocks) (s : Statement) : List Symbol → Prop
  | field {d : FieldDeclaration} (h : FieldDeclaration.read? s.cursor = some d) :
      Declaration b s [(fieldSymbol b s d).value]
  | dim {d : DimDeclaration} (h : DimDeclaration.read? s.cursor = some d) :
      Declaration b s (variableSymbols b s d).value
  | constant {d : ConstDeclaration} (h : ConstDeclaration.read? s.cursor = some d)
      (hfree : b.openMember = none) : Declaration b s [(constantSymbol b s d).value]

/-- The class that a header opens. -/
def openedClass (s : Statement) (name : Text.Lexeme) : OpenClass :=
  ⟨name.spelling, (s.position s.begins).value, (s.rangeOf name).value, s.line⟩

/-- The symbol of a member that a statement closes. -/
def closedMember (b : OpenBlocks) (s : Statement) (m : OpenMember) : Symbol :=
  { kind := symbolKind m.kind
    name := m.name
    visibility := m.visibility
    declaredType := m.declaredType
    parameterText := m.parameterText
    declaredRange := (closedRange m.start s).value
    nameRange := m.nameRange
    parent := b.className }

/-- The symbol of a class that a statement closes. -/
def closedClass (s : Statement) (c : OpenClass) : Symbol :=
  { kind := .classDef, name := c.name, declaredRange := (closedRange c.start s).value,
    nameRange := c.nameRange }

variable {b : OpenBlocks} {s : Statement} {change : Change}

theorem outermostName_eq_none : b.outermostName = none ↔ b.openClass = none ∧ b.openMember = none := by
  obtain ⟨openClass, openMember⟩ := b
  cases openClass <;> cases openMember <;>
    simp [OpenBlocks.outermostName, OpenBlocks.className, OpenBlocks.memberName]

theorem openMember_of_memberOf {kind : MemberKind} {m : OpenMember} (h : b.memberOf kind = some m) :
    b.openMember = some m :=
  (Option.filter_eq_some_iff.1 h).1

theorem apply_declaration {rule : Rule} (hrule : rule ∈ [Rule.field, .dim, .constant])
    (h : (rule.apply b s).value = some change) : change.blocks = b ∧ Declaration b s change.symbols := by
  cases rule with
  | field =>
      simp only [Rule.apply, applyField] at h
      split at h
      · cases h
      · next d hread =>
          cases h
          exact ⟨rfl, .field hread⟩
  | dim =>
      simp only [Rule.apply, applyDim] at h
      split at h
      · cases h
      · next d hread =>
          cases h
          exact ⟨rfl, .dim hread⟩
  | constant =>
      simp only [Rule.apply, applyConstant] at h
      split at h
      · cases h
      · next d hread =>
          split at h
          · cases h
          · next hfree =>
              cases h
              exact ⟨rfl, .constant hread (by simpa using hfree)⟩
  | methodOpen | methodClose | propertyOpen | propertyClose | classOpen | classClose =>
      exact absurd hrule (by decide)

/-- The rule that consumes a statement is one of those tried. -/
theorem consumeWith_some {rules : List Rule} {rule : Rule}
    (h : (consumeWith rules b s).value = some (rule, change)) :
    rule ∈ rules ∧ (rule.apply b s).value = some change := by
  induction rules with
  | nil => cases h
  | cons first rules ih =>
      rw [consumeWith, Noted.value_bind] at h
      split at h
      · next found hfound =>
          cases h
          exact ⟨List.mem_cons_self, hfound⟩
      · next hfound =>
          obtain ⟨hmem, happly⟩ := ih h
          exact ⟨List.mem_cons_of_mem first hmem, happly⟩

end VbOutline.Outline
