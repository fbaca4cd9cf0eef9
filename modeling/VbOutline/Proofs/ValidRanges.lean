import VbOutline.Proofs.Reports

/-! Ranges in the lines of a document. Every character of a statement has a place in one of the document's
lines, so every span of it has both ends there. A symbol that one statement declares has two such spans,
the one of its name inside of the other; a block has its name in its header, and its range goes from the
start of the header to the end of a later statement. -/

namespace VbOutline

/-- A position in some lines: in one of them or just at its end. -/
def Position.Within (lines : List (List Char)) (p : Position) : Prop :=
  ∃ (n column : Nat) (line : List Char), p = ⟨n, column⟩ ∧ lines[n]? = some line ∧ column ≤ line.length

/-- A range that starts and ends in some lines. -/
structure Range.Within (lines : List (List Char)) (r : Range) : Prop where
  start : r.start.Within lines
  stop : r.stop.Within lines

/-- The ranges of a symbol are those of some lines: neither is empty, and the name lies in the declaration. -/
structure Symbol.Valid (lines : List (List Char)) (x : Symbol) : Prop where
  declared_within : x.declaredRange.Within lines
  name_within : x.nameRange.Within lines
  declared_proper : x.declaredRange.Proper
  name_proper : x.nameRange.Proper
  covers : x.declaredRange.covers x.nameRange = true

/-! ### Places of characters -/

namespace Source

/-- An offset of joined pieces has its place in one of them. -/
theorem Piece.locate_segmentsFrom (pieces : List Piece) (offset : Nat) {k : Nat}
    (hk : k < (pieces.flatMap Piece.text).length) :
    ∃ piece ∈ pieces, ∃ column < piece.text.length,
      Segment.locate (segmentsFrom offset pieces) k = some ⟨piece.number, column⟩ := by
  induction pieces generalizing offset k with
  | nil => simp at hk
  | cons piece rest ih =>
      rw [List.flatMap_cons, List.length_append] at hk
      by_cases hlt : k < piece.text.length
      · refine ⟨piece, List.mem_cons_self, k, hlt, ?_⟩
        cases rest with
        | nil =>
            rw [segmentsFrom, segmentsFrom, Segment.locate, if_pos (by dsimp only; omega)]
            simp
        | cons next rest =>
            rw [segmentsFrom, Segment.locate_cons (by simp [segmentsFrom]), if_pos (by dsimp only; omega)]
            simp
      · have hrest : rest ≠ [] := by
          rintro rfl
          simp at hk
          omega
        obtain ⟨found, hmem, column, hcolumn, hlocate⟩ :=
          ih (offset + piece.text.length) (k := k - piece.text.length) (by omega)
        refine ⟨found, List.mem_cons_of_mem piece hmem, column, hcolumn, ?_⟩
        rw [segmentsFrom, Segment.locate_cons (segmentsFrom_ne_nil hrest _), if_neg (by dsimp only; omega),
          ← hlocate]
        congr 1
        dsimp only
        omega

variable {text : List Char} {s : Statement}

theorem place_in_line (hs : s ∈ Outline.statements text) {k : Nat} (hk : k < s.text.length) :
    ∃ (n column : Nat) (line : List Char), s.place k = ⟨n, column⟩ ∧ (physicalLines text)[n]? = some line ∧
      column < line.length := by
  obtain ⟨pieces, hg, hmem, -⟩ := mem_statements hs
  have hlen := (LogicalLine.statement_shows hmem).length_le
  obtain ⟨piece, hp, column, hcolumn, hlocate⟩ :=
    Piece.locate_segmentsFrom pieces 0 (Nat.lt_of_lt_of_le hk hlen)
  obtain ⟨line, hline, hpiece⟩ := Piece.mem_ofText (mem_ofText_of_group hg hp)
  have hplace := (placed_of_mem hs).locate_eq hk.le
  rw [segments_of_mem_line hmem, hlocate] at hplace
  refine ⟨piece.number, column, line, (Option.some.inj hplace).symm, hline, hcolumn.trans_le ?_⟩
  rw [hpiece]
  exact (Piece.ofLine_shows _ line).length_le

theorem place_within (hs : s ∈ Outline.statements text) {k : Nat} (hk : k < s.text.length) :
    (s.place k).Within (physicalLines text) := by
  obtain ⟨n, column, line, hplace, hline, hlt⟩ := place_in_line hs hk
  exact ⟨n, column, line, hplace, hline, hlt.le⟩

theorem next_place_within (hs : s ∈ Outline.statements text) {k : Nat} (hk : k < s.text.length) :
    (s.place k).next.Within (physicalLines text) := by
  obtain ⟨n, column, line, hplace, hline, hlt⟩ := place_in_line hs hk
  exact ⟨n, column + 1, line, by rw [hplace]; rfl, hline, hlt⟩

theorem span_within (hs : s ∈ Outline.statements text) {a b : Nat} (hab : a < b) (hb : b ≤ s.text.length) :
    (s.span a b).Within (physicalLines text) :=
  ⟨place_within hs (by omega), next_place_within hs (by omega)⟩

end Source

namespace Outline

open Grammar Source Text

section Statements

variable {text : List Char} {s : Statement}

/-- The words of a name, and the span of a statement from the first to the last of them. -/
theorem Naming.exists_span {words : List Lexeme} {name : String} {range : Range} (h : Naming s words name range)
    {start stop : Nat} (hwords : ∀ word ∈ words, start ≤ word.start ∧ word.stop ≤ stop) :
    ∃ first last, start ≤ first ∧ first < last ∧ last ≤ stop ∧ range = s.span first last := by
  obtain ⟨first, last, hfirst, hlast, hlt, hrange⟩ := h.range_eq
  have hstart := (hwords first (List.mem_of_head? hfirst)).1
  have hstop := (hwords last (List.mem_of_getLast? hlast)).2
  exact ⟨first.start, last.stop, hstart, hlt, hstop, hrange⟩

theorem Stands.valid (hs : s ∈ statements text) {x : Symbol} {start stop : Nat} (h : Stands s x start stop) :
    x.Valid (physicalLines text) := by
  have hplaced := placed_of_mem hs
  have hlen := h.stop_le_length
  obtain ⟨words, hnaming, hwords⟩ := h.named
  obtain ⟨first, last, hfirst, hlt, hlast, hname⟩ := hnaming.exists_span hwords
  have hproper : x.nameRange.Proper := by
    rw [hname]
    exact hplaced.span_proper hlt (by omega)
  refine ⟨?_, ?_, h.proper hplaced, hproper, (Range.covers_iff hproper).2 ?_⟩
  · rw [h.declaredRange_eq]
    exact span_within hs h.start_lt_stop hlen
  · rw [hname]
    exact span_within hs hlt (by omega)
  · rw [h.declaredRange_eq, hname]
    exact ⟨hplaced.place_le hfirst (by omega), hplaced.span_stop_le hlast hlt hlen⟩

end Statements

/-! ### Blocks -/

/-- A block was opened: it starts in the lines, and its name stands behind the start and before the statements
ahead. -/
structure Headed (lines : List (List Char)) (rest : List Statement) (start : Position) (nameRange : Range) :
    Prop where
  start_within : start.Within lines
  name_within : nameRange.Within lines
  name_proper : nameRange.Proper
  start_le : start ≤ nameRange.start
  past : ∀ s ∈ rest, nameRange.stop < s.extent.start

section Blocks

variable {text : List Char} {s : Statement} {rest : List Statement} {lines : List (List Char)}
  {start : Position} {nameRange : Range}

theorem Headed.tail (h : Headed lines (s :: rest) start nameRange) : Headed lines rest start nameRange :=
  ⟨h.start_within, h.name_within, h.name_proper, h.start_le, fun r hr => h.past r (List.mem_cons_of_mem s hr)⟩

/-- A header names its block. -/
theorem headed_of_word (hs : s ∈ statements text) (hrest : ∀ r ∈ rest, s.extent.Before r.extent) {name : Lexeme}
    (hname : name.IsWord s.text) :
    Headed (physicalLines text) rest (s.position s.begins).value (s.rangeOf name).value := by
  have hplaced := placed_of_mem hs
  have hends := begins_lt_ends_of_mem hs
  have hlen := s.ends_le_length
  have hlt := hname.start_lt_stop
  have hstop := hname.within.stop_le
  rw [rangeOf_value hplaced hname]
  refine ⟨place_within hs (by omega), span_within hs hlt hstop, hplaced.span_proper hlt hstop,
    hplaced.place_le (Statement.begins_le_word hname) (by omega), fun r hr => ?_⟩
  exact (hplaced.span_stop_le (Statement.word_le_ends hname) hlt hlen).trans_lt (hrest r hr)

/-- A block that a later statement closes goes around its name. -/
theorem Headed.valid (hs : s ∈ statements text) (h : Headed (physicalLines text) (s :: rest) start nameRange)
    {x : Symbol} (hdeclared : x.declaredRange = (closedRange start s).value) (hname : x.nameRange = nameRange) :
    x.Valid (physicalLines text) := by
  have hends := begins_lt_ends_of_mem hs
  have hlen := s.ends_le_length
  have hproper := extent_proper_of_mem hs
  have hpast := h.past s List.mem_cons_self
  rw [closedRange_value (placed_of_mem hs) hends] at hdeclared
  subst hname
  have hstop : x.nameRange.stop < s.extent.stop := hpast.trans hproper
  refine ⟨?_, h.name_within, ?_, h.name_proper, (Range.covers_iff h.name_proper).2 ?_⟩
  · rw [hdeclared]
    exact ⟨h.start_within, next_place_within hs (by omega)⟩
  · rw [hdeclared]
    exact h.start_le.trans_lt (h.name_proper.trans hstop)
  · rw [hdeclared]
    exact ⟨h.start_le, hstop.le⟩

end Blocks

/-! ### Reading a document -/

/-- Every symbol is valid, and what is open is headed. -/
structure Sound (lines : List (List Char)) (change : Change) (rest : List Statement) : Prop where
  symbols : ∀ x ∈ change.symbols, x.Valid lines
  openClass : ∀ c, change.blocks.openClass = some c → Headed lines rest c.start c.nameRange
  openMember : ∀ m, change.blocks.openMember = some m →
    Headed lines rest m.start m.nameRange ∧ ∀ x ∈ m.parameters, x.Valid lines

section Steps

variable {text : List Char} {s : Statement} {rest : List Statement} {lines : List (List Char)} {b : OpenBlocks}
  {done : List Symbol}

theorem Sound.tail (h : Sound lines ⟨b, done⟩ (s :: rest)) : Sound lines ⟨b, done⟩ rest :=
  ⟨h.symbols, fun c hc => (h.openClass c hc).tail,
    fun m hm => ⟨(h.openMember m hm).1.tail, (h.openMember m hm).2⟩⟩

theorem Sound.append {symbols : List Symbol} (h : Sound lines ⟨b, done⟩ rest)
    (hsymbols : ∀ x ∈ symbols, x.Valid lines) : Sound lines ⟨b, done ++ symbols⟩ rest := by
  refine ⟨fun x hx => ?_, h.openClass, h.openMember⟩
  rcases List.mem_append.1 hx with hx | hx
  · exact h.symbols x hx
  · exact hsymbols x hx

theorem Sound.step (hs : s ∈ statements text) (hrest : ∀ r ∈ rest, s.extent.Before r.extent)
    (h : Sound (physicalLines text) ⟨b, done⟩ (s :: rest)) {problems : List Problem} {change : Change}
    (ho : Outcome b s problems change) :
    Sound (physicalLines text) ⟨change.blocks, done ++ change.symbols⟩ rest := by
  have hplaced := placed_of_mem hs
  cases ho with
  | idle => exact h.tail.append (by simp)
  | declared hd =>
      refine h.tail.append fun x hx => ?_
      obtain ⟨start, stop, hx⟩ := (hd.declares hplaced (begins_lt_ends_of_mem hs)).stands x hx
      exact hx.valid hs
  | memberOpened hread hfree =>
      refine Sound.append ⟨h.symbols, h.tail.openClass, ?_⟩ (by simp)
      rintro m ⟨⟩
      refine ⟨headed_of_word hs hrest (MemberHeader.read?_words (cursor_in s) hread).1, fun x hx => ?_⟩
      obtain ⟨start, stop, hx, -⟩ := (openMember_parameters hplaced hread).stands x hx
      exact hx.valid hs
  | classOpened hread hfree hfree' =>
      refine Sound.append ⟨h.symbols, ?_, h.tail.openMember⟩ (by simp)
      rintro c ⟨⟩
      exact headed_of_word hs hrest (readClassHeader?_word (cursor_in s) hread)
  | memberClosed hm =>
      obtain ⟨hheaded, hparameters⟩ := h.openMember _ hm
      refine Sound.append ⟨h.symbols, h.tail.openClass, by rintro m ⟨⟩⟩ fun x hx => ?_
      rcases List.mem_cons.1 hx with rfl | hx
      · exact hheaded.valid hs rfl rfl
      · exact hparameters x hx
  | classClosed hc =>
      refine Sound.append ⟨h.symbols, by rintro c ⟨⟩, by rintro m ⟨⟩⟩ fun x hx => ?_
      rw [List.mem_singleton.1 hx]
      exact (h.openClass _ hc).valid hs rfl rfl

end Steps

theorem trace_sound (text : List Char) : Sound (physicalLines text) (trace (statements text)).value [] := by
  refine document_induction (I := fun change _ rest => Sound (physicalLines text) change rest) ?_ ?_
  · exact ⟨by simp, by rintro c ⟨⟩, by rintro m ⟨⟩⟩
  · intro b done noted s rest problems change hs hrest ho h
    exact h.step hs hrest ho

/-- No problem that is met, kept or not, is about a missing place, and the ranges of the symbols are ranges of the
document's lines, with each name in its declaration. -/
theorem ranges_valid (settings : Settings) (text : String) :
    (read settings text.toList).log = ProblemLog.addAll { limit := settings.maxProblems } (reports text.toList) ∧
      (∀ p ∈ reports text.toList, p.category ≠ .positionMappingFailure) ∧
      ∀ x ∈ (parse settings text).symbols, x.Valid (physicalLines text.toList) := by
  refine ⟨read_log settings text.toList, reports_located text.toList, fun x hx => ?_⟩
  rw [parse_symbols] at hx
  exact (trace_sound text.toList).symbols x hx

/-- A document whose last line goes on, into nothing. -/
def trailingMarker : String := "Sub f(x) : Dim a _\n\nEnd Sub _"

theorem ranges_valid_trailing :
    Symbol.Valid (physicalLines trailingMarker.toList)
      { kind := .method, name := "f", declaredType := "Sub", parameterText := "x"
        declaredRange := ⟨⟨0, 0⟩, ⟨2, 7⟩⟩, nameRange := ⟨⟨0, 4⟩, ⟨0, 5⟩⟩ } :=
  (ranges_valid {} trailingMarker).2.2 _ (by decide +kernel)

end Outline

end VbOutline
