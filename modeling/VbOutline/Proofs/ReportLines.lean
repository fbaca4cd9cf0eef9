import VbOutline.Proofs.Pairing
import VbOutline.Proofs.Partition

/-! The lines of problems. A problem of a statement is on the physical line where its first character stands,
blanks apart, and a problem about a block that was left open is on the line where the block starts. So all
problems are on lines of the document, and those of statements come in the order of their lines. -/

namespace VbOutline

open Grammar Source Outline

/-! ### Problems on the line of a statement -/

namespace Noted

variable {α β : Type} {line : Int}

/-- Every problem is on a line, those of blocks that were left open apart. -/
def OnLine (line : Int) (x : Noted α) : Prop := ∀ p ∈ x.problems, p.category ≠ .danglingOpen → p.line = line

theorem OnLine.pure (a : α) : OnLine line (Pure.pure a : Noted α) := by
  rintro p ⟨⟩

theorem OnLine.bind {x : Noted α} {f : α → Noted β} (hx : x.OnLine line) (hf : ∀ a, (f a).OnLine line) :
    (x >>= f).OnLine line := by
  intro p hp
  rw [problems_bind] at hp
  rcases List.mem_append.1 hp with hp | hp
  · exact hx p hp
  · exact hf x.value p hp

theorem OnLine.mapM {f : α → Noted β} (hf : ∀ a, (f a).OnLine line) (l : List α) : (l.mapM f).OnLine line := by
  induction l with
  | nil => exact .pure []
  | cons a l ih =>
      rw [List.mapM_cons]
      exact (hf a).bind fun _ => ih.bind fun _ => .pure _

end Noted

open Noted

namespace Outline

variable {b : OpenBlocks} {s : Statement}

theorem note_onLine (s : Statement) (finding : Finding) : (s.note finding).OnLine s.line := by
  intro p hp _
  rw [List.mem_singleton.1 hp]
  rfl

theorem position_onLine (s : Statement) (offset : Int) : (s.position offset).OnLine s.line := by
  rw [Statement.position]
  split
  · exact .pure _
  · exact (note_onLine s _).bind fun _ => .pure _

theorem range_onLine (s : Statement) (start stop : Int) : (s.range start stop).OnLine s.line := by
  rw [Statement.range]
  split
  · exact .pure _
  · exact (note_onLine s _).bind fun _ => .pure _

/-- A computation that maps two spans and builds something from them. -/
theorem ranges_onLine {α : Type} (s : Statement) (a b c d : Int) (f : Range → Range → α) :
    Noted.OnLine s.line (do
      let first ← s.range a b
      let second ← s.range c d
      pure (f first second)) :=
  (range_onLine s a b).bind fun _ => (range_onLine s c d).bind fun _ => .pure _

theorem headerParameters_onLine (s : Statement) (h : MemberHeader) : (headerParameters s h).OnLine s.line := by
  rw [headerParameters]
  split
  · rw [parameterSymbols]
    split
    · exact .mapM (fun p => ranges_onLine s _ _ _ _ _) _
    · exact (note_onLine s _).bind fun _ => .pure _
  · exact .pure _

theorem openMember_onLine (kind : MemberKind) (s : Statement) (h : MemberHeader) :
    (openMember kind s h).OnLine s.line :=
  (position_onLine s _).bind fun _ => (range_onLine s _ _).bind fun _ =>
    (headerParameters_onLine s h).bind fun _ => .pure _

theorem closedRange_onLine (start : Position) (s : Statement) : (closedRange start s).OnLine s.line :=
  (range_onLine s _ _).bind fun _ => .pure _

theorem closeMember_onLine (b : OpenBlocks) (s : Statement) (m : OpenMember) :
    (closeMember b s m).OnLine s.line :=
  (closedRange_onLine m.start s).bind fun _ => .pure _

theorem variableSymbols_onLine (b : OpenBlocks) (s : Statement) (d : DimDeclaration) :
    (variableSymbols b s d).OnLine s.line := by
  have hitem : ∀ start e, (variableSymbol b s start e).OnLine s.line := fun start e =>
    ranges_onLine s _ _ _ _ _
  rw [variableSymbols]
  split
  · exact .pure _
  · exact (hitem _ _).bind fun _ => (OnLine.mapM (fun e => hitem _ e) _).bind fun _ => .pure _

/-! ### Rules -/

theorem applyMemberOpen_onLine (kind : MemberKind) : (applyMemberOpen kind b s).OnLine s.line := by
  rw [applyMemberOpen]
  split
  · exact .pure _
  · split
    · exact (note_onLine s _).bind fun _ => .pure _
    · exact (openMember_onLine kind s _).bind fun _ => .pure _

theorem applyMethodClose_onLine : (applyMethodClose b s).OnLine s.line := by
  rw [applyMethodClose]
  split
  · exact .pure _
  · dsimp only
    split
    · exact (note_onLine s _).bind fun _ => .pure _
    · refine OnLine.bind ?_ fun _ => (closeMember_onLine b s _).bind fun _ => .pure _
      rw [noteMismatch]
      split
      · exact .pure _
      · exact note_onLine s _

theorem applyPropertyClose_onLine : (applyPropertyClose b s).OnLine s.line := by
  rw [applyPropertyClose]
  split
  · exact .pure _
  · split
    · exact (note_onLine s _).bind fun _ => .pure _
    · exact (closeMember_onLine b s _).bind fun _ => .pure _

theorem applyClassOpen_onLine : (applyClassOpen b s).OnLine s.line := by
  rw [applyClassOpen]
  split
  · exact .pure _
  · split
    · exact (note_onLine s _).bind fun _ => .pure _
    · exact (position_onLine s _).bind fun _ => (range_onLine s _ _).bind fun _ => .pure _

theorem applyClassClose_onLine : (applyClassClose b s).OnLine s.line := by
  rw [applyClassClose]
  split
  · exact .pure _
  · split
    · exact (note_onLine s _).bind fun _ => .pure _
    · next c hc =>
        refine OnLine.bind ?_ fun _ => (closedRange_onLine c.start s).bind fun _ => .pure _
        -- the member left open is reported on its own line
        rw [noteOpenMember]
        split
        · intro p hp hcategory
          rw [List.mem_singleton.1 hp] at hcategory
          exact absurd rfl hcategory
        · exact .pure _

theorem apply_onLine (rule : Rule) : (rule.apply b s).OnLine s.line := by
  cases rule with
  | methodOpen => exact applyMemberOpen_onLine .method
  | methodClose => exact applyMethodClose_onLine
  | propertyOpen => exact applyMemberOpen_onLine .property
  | propertyClose => exact applyPropertyClose_onLine
  | classOpen => exact applyClassOpen_onLine
  | classClose => exact applyClassClose_onLine
  | field =>
      rw [Rule.apply, applyField]
      split
      · exact .pure _
      · exact (ranges_onLine s _ _ _ _ _).bind fun _ => .pure _
  | dim =>
      rw [Rule.apply, applyDim]
      split
      · exact .pure _
      · exact (variableSymbols_onLine b s _).bind fun _ => .pure _
  | constant =>
      rw [Rule.apply, applyConstant]
      split
      · exact .pure _
      · split
        · exact .pure _
        · exact (ranges_onLine s _ _ _ _ _).bind fun _ => .pure _

theorem consumeWith_onLine (rules : List Rule) : (consumeWith rules b s).OnLine s.line := by
  induction rules with
  | nil => exact .pure none
  | cons rule rules ih =>
      refine (apply_onLine rule).bind fun change => ?_
      cases change with
      | some change => exact .pure _
      | none => exact ih

end Outline

/-! ### The line of a statement -/

namespace Source

open Text

/-- The line of an offset is that of its position. -/
theorem lineOf_eq {segments : List Segment} {offset : Int} {p : Position}
    (hoffset : offset < Segment.total segments) (hp : Segment.locate segments offset = some p) (otherwise : Int) :
    Statement.lineOf otherwise segments offset = p.line := by
  induction segments generalizing offset otherwise with
  | nil => cases hp
  | cons segment rest ih =>
      rw [Segment.total] at hoffset
      rw [Statement.lineOf]
      by_cases hrest : rest = []
      · subst hrest
        have hlt : offset < segment.length := by
          rw [Segment.total] at hoffset
          omega
        rw [Segment.locate, if_pos hlt.le] at hp
        rw [if_pos hlt, ← Option.some.inj hp]
      · rw [Segment.locate_cons hrest] at hp
        split
        · next hlt =>
            rw [if_pos hlt] at hp
            rw [← Option.some.inj hp]
        · next hge =>
            rw [if_neg hge] at hp
            exact ih (by omega) hp segment.line

/-- Behind its indent a text that is not blank has a character that is not. -/
theorem getElem?_indent {text : List Char} (h : allBlank text = false) :
    ∃ c, text[indent text]? = some c ∧ isBlank c = false := by
  induction text with
  | nil => cases h
  | cons x rest ih =>
      cases hx : isBlank x with
      | false => exact ⟨x, by simp [indent, hx], hx⟩
      | true =>
          obtain ⟨c, hc, hblank⟩ := ih (by simpa [allBlank, hx] using h)
          refine ⟨c, ?_, hblank⟩
          simp only [indent] at hc ⊢
          rw [List.takeWhile_cons_of_pos hx, List.length_cons, List.getElem?_cons_succ, hc]

/-- A statement that is not blank begins with a character that is not. -/
theorem Statement.inkAt_begins {s : Statement} (h : s.isBlank = false) : s.InkAt s.begins := by
  obtain ⟨c, hc, hblank⟩ := getElem?_indent h
  exact ⟨c, (s.text_getElem? _).trans hc, hblank⟩

variable {text : List Char} {s t : Statement}

/-- The physical line where the first character of a statement stands, blanks apart. -/
def BeginsOn (text : List Char) (s : Statement) (n : Nat) : Prop :=
  ∃ (k column : Nat) (row : List Char) (c : Char), s.text[k]? = some c ∧ isBlank c = false ∧
    (∀ j < k, ¬ s.InkAt j) ∧ s.position? k = some ⟨n, column⟩ ∧ (physicalLines text)[n]? = some row ∧
    row[column]? = some c

theorem BeginsOn.lt_length {n : Nat} (h : BeginsOn text s n) : n < (physicalLines text).length := by
  obtain ⟨-, -, row, -, -, -, -, -, hrow, -⟩ := h
  exact (List.getElem?_eq_some_iff.1 hrow).1

/-- The line of a statement and the line it starts on are found in different ways and are the same. -/
theorem exists_beginsOn (hs : s ∈ Outline.statements text) :
    ∃ n : Nat, BeginsOn text s n ∧ s.line = n ∧ (s.place s.begins).line = n := by
  obtain ⟨-, -, -, hblank⟩ := mem_statements hs
  have hlt := (Statement.inkAt_begins hblank).lt_length
  obtain ⟨c, hc, hink⟩ := Statement.inkAt_begins hblank
  have hplaced := placed_of_mem hs
  obtain ⟨n, column, row, hposition, hrow, hchar⟩ := char_stands hs hc hink
  have hplace : s.place s.begins = ⟨n, column⟩ := by
    rw [hplaced.position?_eq hlt.le] at hposition
    exact Option.some.inj hposition
  refine ⟨n, ⟨s.begins, column, row, c, hc, hink, ?_, hposition, hrow, hchar⟩, ?_, by rw [hplace]⟩
  · rintro j hj ⟨d, hd, hdink⟩
    exact absurd (Statement.begins_le hd hdink) (Nat.not_le.2 hj)
  · have hfits := hplaced.fits
    rw [Statement.line, hblank, if_neg Bool.false_ne_true,
      lineOf_eq (by omega) (hplaced.locate_eq hlt.le), hplace]

/-- An earlier statement is on no later line. -/
theorem line_le_of_before (hs : s ∈ Outline.statements text) (ht : t ∈ Outline.statements text)
    (h : s.extent.Before t.extent) : s.line ≤ t.line := by
  obtain ⟨-, -, -, hsblank⟩ := mem_statements hs
  obtain ⟨-, -, -, htblank⟩ := mem_statements ht
  obtain ⟨n, -, hsline, hsplace⟩ := exists_beginsOn hs
  obtain ⟨m, -, htline, htplace⟩ := exists_beginsOn ht
  have hlt := place_lt_of_before (placed_of_mem hs) (placed_of_mem ht) (Statement.inkAt_begins hsblank)
    (Statement.inkAt_begins htblank) h
  rw [Position.lt_iff, hsplace, htplace] at hlt
  omega

end Source

/-! ### The lines of the problems of a document -/

namespace Outline

section Reports

variable {settings : Settings} {ss : List Statement} {i : Nat} {p : Problem}

/-- Behind the last statement only blocks that were left open are reported. -/
theorem category_of_mem_conclusion (hs : ss[i]? = none) (hp : p ∈ reportsAt settings ss i) :
    p.category = .danglingOpen := by
  rw [reportsAt, hs] at hp
  dsimp only at hp
  rw [← dangling_neverClosed] at hp
  exact of_decide_eq_true (List.mem_filter.1 hp).2

/-- Every other problem is on the line of its statement. -/
theorem exists_statement_of_mem_reportsAt (hp : p ∈ reportsAt settings ss i)
    (hcategory : p.category ≠ .danglingOpen) : ∃ s, ss[i]? = some s ∧ p.line = s.line := by
  cases hs : ss[i]? with
  | none => exact absurd (category_of_mem_conclusion hs hp) hcategory
  | some s =>
      rw [reportsAt_eq hs] at hp
      exact ⟨s, rfl, consumeWith_onLine Rule.all p hp hcategory⟩

/-- The end of the reading logs its own problems behind those of the statements. -/
theorem log_conclude (settings : Settings) (ss : List Statement) :
    (readingAt settings ss ss.length).conclude.log = ProblemLog.addAll { limit := settings.maxProblems }
      ((List.range (ss.length + 1)).flatMap (reportsAt settings ss)) := by
  have hreports : reportsAt settings ss ss.length = (readingAt settings ss ss.length).blocks.neverClosed := by
    rw [reportsAt, List.getElem?_eq_none_iff.2 (Nat.le_refl _)]
  rw [List.range_succ, List.flatMap_append, List.flatMap_singleton, ProblemLog.addAll_append,
    ← log_readingAt (Nat.le_refl _), hreports]
  rfl

/-- A problem about a block that is dropped, and the position where the block starts: the statement with number
`j` opened it, and it is dropped at the one with number `i` or, if there is none, at the end. -/
inductive DropReport (settings : Settings) (ss : List Statement) (i j : Nat) : Position → Problem → Prop
  | member {kind : MemberKind} {m : OpenMember} {p : Problem} (hopened : MemberAt ss (kind, j) m)
      (hdropped : MemberDropped settings ss i (kind, j)) (hreport : MemberReport settings ss i (kind, j) p) :
      DropReport settings ss i j m.start p
  | owner {c : OpenClass} {p : Problem} (hopened : ClassAt ss j c) (hdropped : ClassDropped settings ss i j)
      (hreport : ClassReport ss j p) : DropReport settings ss i j c.start p

end Reports

section Documents

variable {settings : Settings} {text : String} {i j : Nat} {p : Problem}

theorem line_of_memberAt {x : MemberKind × Nat} {m : OpenMember} (h : MemberAt (statements text.toList) x m) :
    ∃ (s : Statement) (n : Nat), (statements text.toList)[x.2]? = some s ∧ BeginsOn text.toList s n ∧
      m.line = n ∧ m.start.line = n := by
  obtain ⟨s, header, hs, -, rfl⟩ := h
  obtain ⟨n, hbegins, hline, hplace⟩ := exists_beginsOn (List.mem_of_getElem? hs)
  exact ⟨s, n, hs, hbegins, hline, hplace⟩

theorem line_of_classAt {c : OpenClass} (h : ClassAt (statements text.toList) j c) :
    ∃ (s : Statement) (n : Nat), (statements text.toList)[j]? = some s ∧ BeginsOn text.toList s n ∧
      c.line = n ∧ c.start.line = n := by
  obtain ⟨s, name, hs, -, rfl⟩ := h
  obtain ⟨n, hbegins, hline, hplace⟩ := exists_beginsOn (List.mem_of_getElem? hs)
  exact ⟨s, n, hs, hbegins, hline, hplace⟩

/-- The line of a block that was dropped is the one where its header begins. -/
theorem exists_dropReport (hi : i ≤ (statements text.toList).length)
    (hp : p ∈ reportsAt settings (statements text.toList) i) (hcategory : p.category = .danglingOpen) :
    ∃ (j : Nat) (s : Statement) (start : Position) (n : Nat), (statements text.toList)[j]? = some s ∧
      DropReport settings (statements text.toList) i j start p ∧ BeginsOn text.toList s n ∧ start.line = n ∧
      p.line = start.line := by
  obtain ⟨member, owner, hreports, hmember, howner⟩ := dangling_reportsAt hi
  have hmem : p ∈ dangling (reportsAt settings (statements text.toList) i) :=
    List.mem_filter.2 ⟨hp, decide_eq_true hcategory⟩
  rw [hreports, List.mem_append, Option.mem_toList, Option.mem_toList] at hmem
  rcases hmem with rfl | rfl
  · obtain ⟨x, hreport, honly⟩ := hmember
    obtain ⟨m, hopened, hp⟩ := id hreport
    obtain ⟨s, n, hs, hbegins, hline, hstart⟩ := line_of_memberAt hopened
    refine ⟨x.2, s, m.start, n, hs, .member hopened ((honly x).2 rfl) hreport, hbegins, hstart, ?_⟩
    rw [hstart, ← hline]
    rcases hp with ⟨-, rfl⟩ | ⟨-, -, -, -, rfl⟩
    · rfl
    · rfl
  · obtain ⟨j, hreport, honly⟩ := howner
    obtain ⟨c, hopened, hp⟩ := id hreport
    obtain ⟨s, n, hs, hbegins, hline, hstart⟩ := line_of_classAt hopened
    refine ⟨j, s, c.start, n, hs, .owner hopened ((honly j).2 rfl) hreport, hbegins, hstart, ?_⟩
    rw [hstart, ← hline, hp]
    rfl

/-- Every problem is on a line of the document. -/
theorem exists_line_of_mem_reportsAt (hi : i ≤ (statements text.toList).length)
    (hp : p ∈ reportsAt settings (statements text.toList) i) :
    ∃ n : Nat, n < (physicalLines text.toList).length ∧ p.line = n := by
  by_cases hcategory : p.category = .danglingOpen
  · obtain ⟨_, _, _, n, -, -, hbegins, hstart, hline⟩ := exists_dropReport hi hp hcategory
    exact ⟨n, hbegins.lt_length, hline.trans hstart⟩
  · obtain ⟨s, hs, hpline⟩ := exists_statement_of_mem_reportsAt hp hcategory
    obtain ⟨n, hbegins, hline, -⟩ := exists_beginsOn (List.mem_of_getElem? hs)
    exact ⟨n, hbegins.lt_length, hpline.trans hline⟩

/-- The problems of a document are those of its statements and those at its end, up to the limit. -/
theorem problems_eq_reportsAt (settings : Settings) (text : String) :
    (parse settings text).problems =
      ((List.range ((statements text.toList).length + 1)).flatMap
        (reportsAt settings (statements text.toList))).take settings.maxProblems.toNat := by
  rw [parse, read, ← readingAt_length, log_conclude, ProblemLog.kept_addAll]

/-- Problems of earlier statements are on no later lines. -/
theorem line_le_of_le {k : Nat} {q : Problem} (hp : p ∈ reportsAt settings (statements text.toList) i)
    (hq : q ∈ reportsAt settings (statements text.toList) k) (hpcategory : p.category ≠ .danglingOpen)
    (hqcategory : q.category ≠ .danglingOpen) (hle : i ≤ k) : p.line ≤ q.line := by
  obtain ⟨s, hs, hpline⟩ := exists_statement_of_mem_reportsAt hp hpcategory
  obtain ⟨t, ht, hqline⟩ := exists_statement_of_mem_reportsAt hq hqcategory
  rw [hpline, hqline]
  rcases Nat.lt_or_eq_of_le hle with hlt | rfl
  · obtain ⟨hi, rfl⟩ := List.getElem?_eq_some_iff.1 hs
    obtain ⟨hk, rfl⟩ := List.getElem?_eq_some_iff.1 ht
    exact line_le_of_before (List.getElem_mem hi) (List.getElem_mem hk)
      (List.pairwise_iff_getElem.1 (statements_pairwise text.toList) i k hi hk hlt)
  · cases hs.symm.trans ht
    exact Int.le_refl _

end Documents

/-- The lines of the problems of a document. -/
structure OnTheirLines (settings : Settings) (text : String) : Prop where
  /-- The problems are those of the statements, one after the other, and those at the end, up to the limit. -/
  problems_eq : (parse settings text).problems =
    ((List.range ((statements text.toList).length + 1)).flatMap
      (reportsAt settings (statements text.toList))).take settings.maxProblems.toNat
  /-- A problem of a statement is on the line where the statement begins. -/
  caused : ∀ i s, (statements text.toList)[i]? = some s →
    ∀ p ∈ reportsAt settings (statements text.toList) i, p.category ≠ .danglingOpen →
      ∃ n : Nat, BeginsOn text.toList s n ∧ p.line = n
  /-- A problem about a block that was left open is on the line where the block starts. -/
  dropped : ∀ i ≤ (statements text.toList).length,
    ∀ p ∈ reportsAt settings (statements text.toList) i, p.category = .danglingOpen →
      ∃ (j : Nat) (s : Statement) (start : Position) (n : Nat), (statements text.toList)[j]? = some s ∧
        DropReport settings (statements text.toList) i j start p ∧ BeginsOn text.toList s n ∧ start.line = n ∧
        p.line = start.line
  /-- At the end there are no problems but of blocks that were left open. -/
  concluded : ∀ p ∈ reportsAt settings (statements text.toList) (statements text.toList).length,
    p.category = .danglingOpen
  within : ∀ p ∈ (parse settings text).problems, 0 ≤ p.line ∧ p.line < (physicalLines text.toList).length
  ordered : ((parse settings text).problems.filter fun p => p.category ≠ .danglingOpen).Pairwise
    fun p q => p.line ≤ q.line

theorem problems_on_lines (settings : Settings) (text : String) : OnTheirLines settings text := by
  constructor
  case problems_eq => exact problems_eq_reportsAt settings text
  case caused =>
    intro i s hs p hp hcategory
    obtain ⟨t, ht, hpline⟩ := exists_statement_of_mem_reportsAt hp hcategory
    cases hs.symm.trans ht
    obtain ⟨n, hbegins, hline, -⟩ := exists_beginsOn (List.mem_of_getElem? hs)
    exact ⟨n, hbegins, hpline.trans hline⟩
  case dropped => exact fun i hi p hp => exists_dropReport hi hp
  case concluded =>
    exact fun p hp => category_of_mem_conclusion (List.getElem?_eq_none_iff.2 (Nat.le_refl _)) hp
  case within =>
    intro p hp
    rw [problems_eq_reportsAt] at hp
    obtain ⟨i, hi, hmem⟩ := List.mem_flatMap.1 (List.mem_of_mem_take hp)
    obtain ⟨n, hn, hline⟩ := exists_line_of_mem_reportsAt (Nat.le_of_lt_succ (List.mem_range.1 hi)) hmem
    omega
  case ordered =>
    rw [problems_eq_reportsAt, List.pairwise_filter]
    refine List.Pairwise.sublist (List.take_sublist _ _) (List.pairwise_flatMap.2 ⟨fun i _ => ?_, ?_⟩)
    · refine List.pairwise_of_forall_mem_list fun p hp q hq hpcategory hqcategory => ?_
      exact line_le_of_le hp hq (of_decide_eq_true hpcategory) (of_decide_eq_true hqcategory) (Nat.le_refl i)
    · refine List.pairwise_lt_range.imp fun hlt p hp q hq hpcategory hqcategory => ?_
      exact line_le_of_le hp hq (of_decide_eq_true hpcategory) (of_decide_eq_true hqcategory) hlt.le

example : (parse {} "Sub f : x = 1 _\n  : End Class").problems.map Problem.line = [1, 0] := by
  decide +kernel

end Outline

end VbOutline
