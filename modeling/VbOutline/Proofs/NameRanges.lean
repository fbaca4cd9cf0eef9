import VbOutline.Proofs.Standing

/-! Name ranges. Every symbol of a document points at its own name in the document's lines: the first word
of the name starts where the range starts and the last one ends where it ends. A name without a space
lies on one line and is what the range cuts out of it. -/

namespace VbOutline.Outline

open Grammar Source Text

/-! ### Pointing at a name -/

/-- A word starts at a position. -/
def StartsAt (lines : List (List Char)) (word : List Char) (p : Position) : Prop :=
  ∃ (n column : Nat) (line : List Char), p = ⟨n, column⟩ ∧ lines[n]? = some line ∧
    line.extract column (column + word.length) = word

/-- A word ends at a position. -/
def EndsAt (lines : List (List Char)) (word : List Char) (p : Position) : Prop :=
  ∃ (n column : Nat) (line : List Char), p = ⟨n, (column + word.length : Nat)⟩ ∧ lines[n]? = some line ∧
    line.extract column (column + word.length) = word

/-- A range points at a name in the lines of a document. -/
structure PointsAt (lines : List (List Char)) (name : String) (range : Range) : Prop where
  first : ∃ word, (name.toList.splitOn ' ').head? = some word ∧ word ≠ [] ∧ StartsAt lines word range.start
  last : ∃ word, (name.toList.splitOn ' ').getLast? = some word ∧ word ≠ [] ∧ EndsAt lines word range.stop
  single : ' ' ∉ name.toList → ∃ (n start stop : Nat) (line : List Char),
    range = ⟨⟨n, start⟩, ⟨n, stop⟩⟩ ∧ lines[n]? = some line ∧ line.extract start stop = name.toList

theorem extract_of_in {l : Lexeme} {line : List Char} (h : l.In line) :
    line.extract l.start (l.start + l.text.length) = l.text := by
  obtain ⟨front, back, rfl, hfront⟩ := h
  rw [List.extract_eq_take_drop, ← hfront, Nat.add_sub_cancel_left, List.drop_left, List.take_left]

section Words

variable {text : List Char} {s : Statement}

/-- Where a word of a statement starts and ends in the document. -/
theorem span_of_word (h : s ∈ statements text) {l : Lexeme} (hl : l.IsWord s.text) :
    ∃ (n column : Nat) (line : List Char), (physicalLines text)[n]? = some line ∧
      line.extract column (column + l.text.length) = l.text ∧
      s.span l.start l.stop = ⟨⟨n, column⟩, ⟨n, (column + l.text.length : Nat)⟩⟩ := by
  obtain ⟨n, column, line, hline, hin, hplace⟩ := word_stands h hl
  have hlen : 0 < l.text.length := List.length_pos_iff.2 hl.nonempty
  refine ⟨n, column, line, hline, extract_of_in hin, ?_⟩
  have hfirst := hplace 0 hlen
  have hlast := hplace (l.text.length - 1) (by omega)
  rw [← Nat.add_sub_assoc hlen] at hlast
  rw [Statement.span, Lexeme.stop, hlast, Position.next, ← Nat.add_zero l.start, hfirst]
  simp only [Nat.add_zero, Range.mk.injEq, Position.mk.injEq, true_and]
  omega

theorem not_mem_of_isWord {l : Lexeme} {text : List Char} (hl : l.IsWord text) : ' ' ∉ l.text := by
  intro hmem
  have hsolid := hl.solid ' ' hmem
  rw [isBlank_space] at hsolid
  cases hsolid

/-- Words with a space between any two are told apart again. -/
theorem splitOn_spelled {words : List Lexeme} (hne : words ≠ []) (hwords : ∀ word ∈ words, ' ' ∉ word.text) :
    (" ".intercalate (words.map Lexeme.spelling)).toList.splitOn ' ' = words.map Lexeme.text := by
  have htoList : (" ".intercalate (words.map Lexeme.spelling)).toList =
      [' '].intercalate (words.map Lexeme.text) := by
    rw [String.toList_intercalate, List.map_map]
    congr 1
    exact List.map_congr_left fun word _ => String.toList_ofList
  rw [htoList]
  refine List.splitOn_intercalate ' ' ?_ fun hnil => hne (List.map_eq_nil_iff.1 hnil)
  intro word hword
  obtain ⟨l, hl, rfl⟩ := List.mem_map.1 hword
  exact hwords l hl

theorem Naming.splitOn_eq {words : List Lexeme} {name : String} {range : Range}
    (h : Naming s words name range) : name.toList.splitOn ' ' = words.map Lexeme.text := by
  obtain ⟨first, last, hfirst, -⟩ := h.range_eq
  rw [h.name_eq]
  refine splitOn_spelled ?_ fun word hw => not_mem_of_isWord (h.isWord word hw)
  rintro rfl
  cases hfirst

/-- Words of a statement that make a name are where the name's range says. -/
theorem Naming.pointsAt (hs : s ∈ statements text) {words : List Lexeme} {name : String} {range : Range}
    (h : Naming s words name range) : PointsAt (physicalLines text) name range := by
  obtain ⟨first, last, hfirst, hlast, -, hrange⟩ := h.range_eq
  have hfirstWord := h.isWord first (List.mem_of_head? hfirst)
  have hlastWord := h.isWord last (List.mem_of_getLast? hlast)
  refine ⟨⟨first.text, ?_, hfirstWord.nonempty, ?_⟩, ⟨last.text, ?_, hlastWord.nonempty, ?_⟩, ?_⟩
  · rw [h.splitOn_eq, List.head?_map, hfirst]
    rfl
  · obtain ⟨n, column, line, hline, hextract, hspan⟩ := span_of_word hs hfirstWord
    refine ⟨n, column, line, ?_, hline, hextract⟩
    rw [hrange]
    exact congrArg Range.start hspan
  · rw [h.splitOn_eq, List.getLast?_map, hlast]
    rfl
  · obtain ⟨n, column, line, hline, hextract, hspan⟩ := span_of_word hs hlastWord
    refine ⟨n, column, line, ?_, hline, hextract⟩
    rw [hrange]
    exact congrArg Range.stop hspan
  · intro hspace
    -- without a space the name is one word, so the range starts and ends with the same word
    have hone : words.map Lexeme.text = [name.toList] := by
      rw [← h.splitOn_eq, List.splitOn_eq_singleton hspace]
    obtain ⟨word, rfl, hword⟩ := List.map_eq_singleton_iff.1 hone
    cases hfirst
    cases hlast
    obtain ⟨n, column, line, hline, hextract, hspan⟩ := span_of_word hs hfirstWord
    exact ⟨n, column, _, line, hrange.trans hspan, hline, hextract.trans hword⟩

end Words

/-! ### Every symbol points at its name -/

/-- Every symbol points at its name, and so does what is open. -/
structure Pointing (lines : List (List Char)) (change : Change) : Prop where
  symbols : ∀ x ∈ change.symbols, PointsAt lines x.name x.nameRange
  openClass : ∀ c, change.blocks.openClass = some c → PointsAt lines c.name c.nameRange
  openMember : ∀ m, change.blocks.openMember = some m →
    PointsAt lines m.name m.nameRange ∧ ∀ x ∈ m.parameters, PointsAt lines x.name x.nameRange

/-- With nothing open, only the symbols count. -/
theorem Pointing.of_symbols {lines : List (List Char)} {symbols : List Symbol}
    (h : ∀ x ∈ symbols, PointsAt lines x.name x.nameRange) : Pointing lines ⟨{}, symbols⟩ := by
  refine ⟨h, ?_, ?_⟩
  · rintro c ⟨⟩
  · rintro m ⟨⟩

theorem Pointing.append {lines : List (List Char)} {b : OpenBlocks} {done symbols : List Symbol}
    (h : Pointing lines ⟨b, done⟩) (hsymbols : ∀ x ∈ symbols, PointsAt lines x.name x.nameRange) :
    Pointing lines ⟨b, done ++ symbols⟩ := by
  refine ⟨?_, h.openClass, h.openMember⟩
  intro x hx
  rcases List.mem_append.1 hx with hx | hx
  · exact h.symbols x hx
  · exact hsymbols x hx

section Steps

variable {text : List Char} {s : Statement} {b : OpenBlocks} {done : List Symbol}

theorem Stands.pointsAt (hs : s ∈ statements text) {x : Symbol} {start stop : Nat}
    (h : Stands s x start stop) : PointsAt (physicalLines text) x.name x.nameRange := by
  obtain ⟨words, hwords, -⟩ := h.named
  exact hwords.pointsAt hs

theorem Pointing.step (hs : s ∈ statements text) (h : Pointing (physicalLines text) ⟨b, done⟩)
    {problems : List Problem} {change : Change} (ho : Outcome b s problems change) :
    Pointing (physicalLines text) ⟨change.blocks, done ++ change.symbols⟩ := by
  have hplaced := placed_of_mem hs
  cases ho with
  | idle => exact h.append (by simp)
  | declared hd =>
      refine h.append fun x hx => ?_
      obtain ⟨start, stop, hx⟩ := (hd.declares hplaced (begins_lt_ends_of_mem hs)).stands x hx
      exact hx.pointsAt hs
  | memberOpened hread hfree =>
      refine Pointing.append ⟨h.symbols, h.openClass, ?_⟩ (by simp)
      rintro m ⟨⟩
      refine ⟨(openMember_naming hplaced hread).pointsAt hs, fun x hx => ?_⟩
      obtain ⟨start, stop, hx, -⟩ := (openMember_parameters hplaced hread).stands x hx
      exact hx.pointsAt hs
  | classOpened hread hfree hfree' =>
      refine Pointing.append ⟨h.symbols, ?_, h.openMember⟩ (by simp)
      rintro c ⟨⟩
      exact (openedClass_naming hplaced hread).pointsAt hs
  | memberClosed hm =>
      obtain ⟨hname, hparameters⟩ := h.openMember _ hm
      refine Pointing.append ⟨h.symbols, h.openClass, by rintro m ⟨⟩⟩ fun x hx => ?_
      rcases List.mem_cons.1 hx with rfl | hx
      · exact hname
      · exact hparameters x hx
  | classClosed hc =>
      refine (Pointing.of_symbols h.symbols).append fun x hx => ?_
      rw [List.mem_singleton.1 hx]
      exact h.openClass _ hc

end Steps

theorem trace_pointing (text : List Char) :
    Pointing (physicalLines text) (trace (statements text)).value := by
  refine document_induction (I := fun change _ _ => Pointing (physicalLines text) change) ?_ ?_
  · exact Pointing.of_symbols (by simp)
  · intro b done noted s rest problems change hs _ ho h
    exact h.step hs ho

/-- Every symbol of a document points at its own name in the document's lines. -/
theorem nameRange_pointsAt (settings : Settings) (text : String) :
    ∀ x ∈ (parse settings text).symbols, PointsAt (physicalLines text.toList) x.name x.nameRange := by
  intro x hx
  rw [parse_symbols] at hx
  exact (trace_pointing text.toList).symbols x hx

/-- A header after a literal, with a parameter whose name goes over two continued lines. -/
def continuedHeader : String := "s = \"Dim q\" : Sub f( _\r\n ByRef a  b _\n c, d) 'e\nend sub"

/-- The parameter of that header with a name of three words. -/
def continuedParameter : Symbol :=
  { kind := .variableDef, name := "a b c", declaredRange := ⟨⟨1, 1⟩, ⟨2, 2⟩⟩,
    nameRange := ⟨⟨1, 7⟩, ⟨2, 2⟩⟩, parent := some "f" }

theorem nameRange_pointsAt_continued :
    continuedParameter ∈ (parse {} continuedHeader).symbols ∧
      PointsAt (physicalLines continuedHeader.toList) "a b c" ⟨⟨1, 7⟩, ⟨2, 2⟩⟩ :=
  ⟨by decide +kernel, nameRange_pointsAt {} continuedHeader continuedParameter (by decide +kernel)⟩

end VbOutline.Outline
