import VbOutline.Proofs.Composition
import VbOutline.Proofs.Standing

/-! The problems of a document. The limit decides how many of them are kept and about nothing else: whatever
it is, the same symbols are found, the first problems up to it are kept and the others are counted. No
problem is about a place that could not be found, since every span that is asked for lies in its
statement. -/

namespace VbOutline

/-! ### The limit -/

/-- A log counts the problems that are beyond its limit. -/
theorem ProblemLog.dropped_addAll (limit : Int) (ps : List Problem) :
    (addAll { limit := limit } ps).dropped = (ps.drop limit.toNat).length := by
  have hsize := size_addAll { limit := limit } ps
  have hkept := congrArg List.length (kept_addAll limit ps)
  rw [Array.length_toList, List.length_take] at hkept
  simp only [List.size_toArray, List.length_nil] at hsize
  rw [List.length_drop]
  omega

namespace Outline

open Grammar Source Text

/-- Where nothing was dropped, the kept problems are all the reports. -/
theorem reports_eq_of_dropped {settings : Settings} {text : String}
    (h : (read settings text.toList).log.dropped = 0) : (parse settings text).problems = reports text.toList := by
  rw [read_log] at h
  rw [parse_problems, List.take_of_length_le (ProblemLog.length_le_of_dropped h)]

/-- The limit only cuts the list of problems: with one that is never reached all of them are kept, and any other
keeps the first of these and counts the rest. The symbols are the same for all limits. -/
theorem parse_limited (text : String) :
    (∃ m : Int, (read ⟨m⟩ text.toList).log.dropped = 0) ∧
      ∀ n m : Int, (parse ⟨n⟩ text).symbols = (parse ⟨m⟩ text).symbols ∧
        ((read ⟨m⟩ text.toList).log.dropped = 0 →
          (parse ⟨n⟩ text).problems = (parse ⟨m⟩ text).problems.take (max n 0).toNat ∧
            (read ⟨n⟩ text.toList).log.dropped = ((parse ⟨m⟩ text).problems.drop (max n 0).toNat).length) := by
  refine ⟨⟨(reports text.toList).length, ?_⟩, fun n m => ⟨?_, fun hm => ?_⟩⟩
  · rw [read_log, ProblemLog.dropped_addAll]
    simp
  · rw [parse_symbols, parse_symbols]
  · have hlimit : (max n 0).toNat = n.toNat := by omega
    rw [reports_eq_of_dropped hm, parse_problems, read_log, ProblemLog.dropped_addAll, hlimit]
    exact ⟨rfl, rfl⟩

theorem parse_limited_one :
    (parse ⟨1⟩ "End Sub\nDim a\nEnd Class\nSub f").symbols = (parse ⟨3⟩ "End Sub\nDim a\nEnd Class\nSub f").symbols ∧
      (parse ⟨1⟩ "End Sub\nDim a\nEnd Class\nSub f").problems =
        (parse ⟨3⟩ "End Sub\nDim a\nEnd Class\nSub f").problems.take 1 ∧
      (read ⟨1⟩ "End Sub\nDim a\nEnd Class\nSub f".toList).log.dropped = 2 := by
  obtain ⟨hsymbols, hlimit⟩ := (parse_limited "End Sub\nDim a\nEnd Class\nSub f").2 1 3
  obtain ⟨hproblems, hdropped⟩ := hlimit (by decide +kernel)
  exact ⟨hsymbols, hproblems, hdropped.trans (by decide +kernel)⟩

end Outline

/-! ### Places that are found -/

namespace Noted

variable {α β : Type}

/-- No place was missing. -/
def Located (x : Noted α) : Prop := ∀ p ∈ x.problems, p.category ≠ .positionMappingFailure

theorem Located.pure (a : α) : Located (Pure.pure a : Noted α) := by
  rintro p ⟨⟩

/-- A computation is located when its first part is and its continuation is at the value that part gives. -/
theorem Located.bind {x : Noted α} {f : α → Noted β} (hx : x.Located) (hf : (f x.value).Located) :
    (x >>= f).Located := by
  intro p hp
  rw [problems_bind] at hp
  rcases List.mem_append.1 hp with hp | hp
  · exact hx p hp
  · exact hf p hp

theorem Located.mapM {f : α → Noted β} {l : List α} (hf : ∀ a ∈ l, (f a).Located) : (l.mapM f).Located := by
  induction l with
  | nil => exact .pure []
  | cons a l ih =>
      rw [List.mapM_cons]
      refine (hf a List.mem_cons_self).bind ?_
      exact (ih fun b hb => hf b (List.mem_cons_of_mem a hb)).bind (.pure _)

end Noted

open Noted

namespace Source.Statement

variable {s : Statement}

/-- A finding of any other category is noted without a mapping failure. -/
theorem note_located (s : Statement) {finding : Finding} (h : finding.category ≠ .positionMappingFailure) :
    (s.note finding).Located := by
  intro p hp
  rw [List.mem_singleton.1 hp]
  exact h

/-- Every offset up to the end of the text has a position. -/
theorem Placed.position_located (hs : s.Placed) {offset : Nat} (h : offset ≤ s.text.length) :
    (s.position offset).Located := by
  rw [position, hs.position?_eq h]
  exact .pure _

theorem Placed.range_located (hs : s.Placed) {a b : Nat} (hab : a < b) (hb : b ≤ s.text.length) :
    (s.range a b).Located := by
  rw [hs.range_eq hab hb]
  exact .pure _

/-- A word of the text always has a range. -/
theorem Placed.rangeOf_located (hs : s.Placed) {l : Text.Lexeme} (hl : l.IsWord s.text) : (s.rangeOf l).Located :=
  hs.range_located hl.start_lt_stop hl.within.stop_le

end Source.Statement

namespace Outline

open Grammar Source Text

variable {b : OpenBlocks} {s : Statement}

/-- So has the span in which a symbol stands. -/
theorem Stands.range_located (hs : s.Placed) {x : Symbol} {start stop : Nat} (h : Stands s x start stop) :
    (s.range start stop).Located :=
  hs.range_located h.start_lt_stop h.stop_le_length

/-! ### Declarations -/

theorem fieldSymbol_located (hs : s.Placed) {d : FieldDeclaration} (h : FieldDeclaration.read? s.cursor = some d) :
    (fieldSymbol b s d).Located := by
  obtain ⟨-, hname, -⟩ := FieldDeclaration.read?_words (cursor_in s) h
  refine ((fieldSymbol_stands (b := b) hs h).range_located hs).bind ?_
  exact (hs.rangeOf_located hname).bind (.pure _)

theorem variableSymbols_located (hs : s.Placed) {d : DimDeclaration}
    (h : DimDeclaration.read? s.cursor = some d) : (variableSymbols b s d).Located := by
  obtain ⟨hkeyword, hitems, -⟩ := DimDeclaration.declared_stand (cursor_in s) h
  have hitem : ∀ e ∈ d.declared, ∀ start, s.begins ≤ start → start ≤ e.name.start →
      (variableSymbol b s start e).Located := by
    intro e he start hbegins hstart
    have hstands := (hitems e he).1
    refine ((variableSymbol_stands (b := b) hs hstands hbegins hstart).range_located hs).bind ?_
    exact (hs.rangeOf_located hstands.name_isWord).bind (.pure _)
  rw [variableSymbols]
  split
  · exact .pure _
  · next first others hdeclared =>
      rw [hdeclared] at hitem hitems
      have hlt := (hitems first List.mem_cons_self).2
      have := hkeyword.start_lt_stop
      refine (hitem first List.mem_cons_self _ (Statement.begins_le_word hkeyword) (by omega)).bind ?_
      refine Located.bind (.mapM fun e he => ?_) (.pure _)
      have hmem := List.mem_cons_of_mem first he
      exact hitem e hmem _ (Statement.begins_le_word (hitems e hmem).1.name_isWord) (Nat.le_refl _)

theorem constantSymbol_located (hs : s.Placed) (hproper : s.begins < s.ends) {d : ConstDeclaration}
    (h : ConstDeclaration.read? s.cursor = some d) : (constantSymbol b s d).Located := by
  refine (hs.range_located hproper s.ends_le_length).bind ?_
  exact (hs.rangeOf_located (ConstDeclaration.read?_word (cursor_in s) h)).bind (.pure _)

/-! ### Blocks -/

theorem parameterSymbol_located (hs : s.Placed) {list : Lexeme} (hlist : list.In s.text) {p : Parameter}
    (hp : p.StandsIn list.text) (owner : String) : (parameterSymbol s list.start owner p).Located := by
  have hstands := parameterSymbol_stands hs hlist hp owner
  obtain ⟨first, others, hnamed, hstart, -, hsuffix⟩ := Parameter.named_eq p
  have hname := hp.start_lt_stop first (hsuffix.subset (hnamed ▸ List.mem_cons_self))
  have hdeclared := hstands.range_located hs
  have hnameRange := hs.range_located (a := list.start + p.nameStart) (by omega) hstands.stop_le_length
  simp only [Int.natCast_add] at hdeclared hnameRange
  exact hdeclared.bind (hnameRange.bind (.pure _))

/-- The parameters of a header lie inside its list, so none of their ranges fails. -/
theorem headerParameters_located (hs : s.Placed) {kind : MemberKind} {h : MemberHeader}
    (hread : MemberHeader.read? kind s.cursor = some h) : (headerParameters s h).Located := by
  have hlist := (MemberHeader.read?_words (cursor_in s) hread).2
  rw [headerParameters]
  split
  · next list hparameters =>
      rw [parameterSymbols]
      split
      · next ps hps =>
          refine .mapM fun p hp => ?_
          exact parameterSymbol_located hs (hlist list hparameters).1 (readParameters?_stand hps p hp) _
      · exact (s.note_located (by rintro ⟨⟩)).bind (.pure _)
  · exact .pure _

theorem begins_le_length (hproper : s.begins < s.ends) : s.begins ≤ s.text.length :=
  hproper.le.trans s.ends_le_length

theorem openMember_located (hs : s.Placed) (hproper : s.begins < s.ends) {kind : MemberKind} {h : MemberHeader}
    (hread : MemberHeader.read? kind s.cursor = some h) : (openMember kind s h).Located := by
  refine (hs.position_located (begins_le_length hproper)).bind ?_
  refine (hs.rangeOf_located (MemberHeader.read?_words (cursor_in s) hread).1).bind ?_
  exact (headerParameters_located hs hread).bind (.pure _)

/-- The end of a closing statement always has a position. -/
theorem closedRange_located (hs : s.Placed) (hproper : s.begins < s.ends) (start : Position) :
    (closedRange start s).Located :=
  (hs.range_located hproper s.ends_le_length).bind (.pure _)

theorem closeMember_located (hs : s.Placed) (hproper : s.begins < s.ends) (m : OpenMember) :
    (closeMember b s m).Located :=
  (closedRange_located hs hproper m.start).bind (.pure _)

/-! ### Rules -/

theorem applyMemberOpen_located (hs : s.Placed) (hproper : s.begins < s.ends) (kind : MemberKind) :
    (applyMemberOpen kind b s).Located := by
  rw [applyMemberOpen]
  split
  · exact .pure _
  · next h hread =>
      split
      · exact (s.note_located (by rintro ⟨⟩)).bind (.pure _)
      · exact (openMember_located hs hproper hread).bind (.pure _)

theorem applyMethodClose_located (hs : s.Placed) (hproper : s.begins < s.ends) :
    (applyMethodClose b s).Located := by
  rw [applyMethodClose]
  split
  · exact .pure _
  · dsimp only
    split
    · exact (s.note_located (by rintro ⟨⟩)).bind (.pure _)
    · next m hm =>
        refine Located.bind ?_ ((closeMember_located hs hproper m).bind (.pure _))
        rw [noteMismatch]
        split
        · exact .pure _
        · exact s.note_located (by rintro ⟨⟩)

theorem applyPropertyClose_located (hs : s.Placed) (hproper : s.begins < s.ends) :
    (applyPropertyClose b s).Located := by
  rw [applyPropertyClose]
  split
  · exact .pure _
  · split
    · exact (s.note_located (by rintro ⟨⟩)).bind (.pure _)
    · exact (closeMember_located hs hproper _).bind (.pure _)

theorem applyClassOpen_located (hs : s.Placed) (hproper : s.begins < s.ends) : (applyClassOpen b s).Located := by
  rw [applyClassOpen]
  split
  · exact .pure _
  · next name hread =>
      split
      · exact (s.note_located (by rintro ⟨⟩)).bind (.pure _)
      · refine (hs.position_located (begins_le_length hproper)).bind ?_
        exact (hs.rangeOf_located (readClassHeader?_word (cursor_in s) hread)).bind (.pure _)

theorem applyClassClose_located (hs : s.Placed) (hproper : s.begins < s.ends) : (applyClassClose b s).Located := by
  rw [applyClassClose]
  split
  · exact .pure _
  · split
    · exact (s.note_located (by rintro ⟨⟩)).bind (.pure _)
    · next c hc =>
        refine Located.bind ?_ ((closedRange_located hs hproper c.start).bind (.pure _))
        rw [noteOpenMember]
        split
        · intro p hp
          rw [List.mem_singleton.1 hp]
          rintro ⟨⟩
        · exact .pure _

/-- No rule reports a mapping failure on a placed statement that is not blank. -/
theorem apply_located (hs : s.Placed) (hproper : s.begins < s.ends) (rule : Rule) : (rule.apply b s).Located := by
  cases rule with
  | methodOpen => exact applyMemberOpen_located hs hproper .method
  | methodClose => exact applyMethodClose_located hs hproper
  | propertyOpen => exact applyMemberOpen_located hs hproper .property
  | propertyClose => exact applyPropertyClose_located hs hproper
  | classOpen => exact applyClassOpen_located hs hproper
  | classClose => exact applyClassClose_located hs hproper
  | field =>
      rw [Rule.apply, applyField]
      split
      · exact .pure _
      · next d hread => exact (fieldSymbol_located hs hread).bind (.pure _)
  | dim =>
      rw [Rule.apply, applyDim]
      split
      · exact .pure _
      · next d hread => exact (variableSymbols_located hs hread).bind (.pure _)
  | constant =>
      rw [Rule.apply, applyConstant]
      split
      · exact .pure _
      · next d hread =>
          split
          · exact .pure _
          · exact (constantSymbol_located hs hproper hread).bind (.pure _)

/-- Nor does any table of rules. -/
theorem consumeWith_located (hs : s.Placed) (hproper : s.begins < s.ends) (rules : List Rule) :
    (consumeWith rules b s).Located := by
  induction rules with
  | nil => exact .pure none
  | cons rule rules ih =>
      refine (apply_located hs hproper rule).bind ?_
      split
      · exact .pure _
      · exact ih

/-- The reports of the end of the text are of blocks left open. -/
theorem neverClosed_located (b : OpenBlocks) : ∀ p ∈ b.neverClosed, p.category ≠ .positionMappingFailure := by
  intro p hp
  rcases List.mem_append.1 hp with hp | hp
  · obtain ⟨m, -, rfl⟩ := List.mem_map.1 hp
    rintro ⟨⟩
  · obtain ⟨c, -, rfl⟩ := List.mem_map.1 hp
    rintro ⟨⟩

/-- No problem of a document is about a place that could not be found. -/
theorem reports_located (text : List Char) : ∀ p ∈ reports text, p.category ≠ .positionMappingFailure := by
  have htrace : (trace (statements text)).Located := by
    refine (trace_induction (I := fun t rest => rest <:+ statements text ∧ t.Located) ?_ ?_).2
    · exact ⟨List.suffix_rfl, by rintro p ⟨⟩⟩
    · rintro t s rest ⟨hsuffix, h⟩
      refine ⟨(List.suffix_cons s rest).trans hsuffix, fun p hp => ?_⟩
      have hs := hsuffix.subset List.mem_cons_self
      rcases List.mem_append.1 hp with hp | hp
      · exact h p hp
      · rw [step_problems] at hp
        exact consumeWith_located (placed_of_mem hs) (begins_lt_ends_of_mem hs) Rule.all p hp
  intro p hp
  rcases List.mem_append.1 hp with hp | hp
  · exact htrace p hp
  · exact neverClosed_located _ p hp

end Outline

end VbOutline
