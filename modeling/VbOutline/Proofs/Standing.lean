import VbOutline.Proofs.Forms
import VbOutline.Proofs.Parameters
import VbOutline.Proofs.Statements
import VbOutline.Proofs.Turns

/-! Where symbols stand in their statements. A symbol that a statement declares covers a span of it and
is named by words of it; the symbols of one statement follow each other. A block that a statement opens
starts where the statement does, and one that it closes ends where the statement does. -/

namespace VbOutline.Outline

open Grammar Source Text

variable {b : OpenBlocks} {s : Statement}

/-- The values of a sequence of computations are those of its parts. -/
theorem value_mapM {α β : Type} (f : α → Noted β) (l : List α) :
    (l.mapM f).value = l.map fun a => (f a).value := by
  induction l with
  | nil => rfl
  | cons a l ih =>
      rw [List.mapM_cons]
      simp only [Noted.value_bind, Noted.value_pure, List.map_cons, ih]

theorem problems_mapM {α β : Type} (f : α → Noted β) (l : List α) :
    (l.mapM f).problems = l.flatMap fun a => (f a).problems := by
  induction l with
  | nil => rfl
  | cons a l ih =>
      rw [List.mapM_cons]
      simp only [Noted.problems_bind, Noted.problems_pure, List.append_nil, List.flatMap_cons, ih]

/-- Words of a statement make a name, and a range goes from the first of them to the last. -/
structure Naming (s : Statement) (words : List Lexeme) (name : String) (range : Range) : Prop where
  isWord : ∀ word ∈ words, word.IsWord s.text
  name_eq : name = " ".intercalate (words.map Lexeme.spelling)
  range_eq : ∃ first last, words.head? = some first ∧ words.getLast? = some last ∧
    first.start < last.stop ∧ range = s.span first.start last.stop

/-- A symbol stands in a statement: it covers the span between two offsets, and its name is there. -/
structure Stands (s : Statement) (x : Symbol) (start stop : Nat) : Prop where
  begins_le : s.begins ≤ start
  start_lt_stop : start < stop
  stop_le : stop ≤ s.ends
  declaredRange_eq : x.declaredRange = s.span start stop
  named : ∃ words, Naming s words x.name x.nameRange ∧
    ∀ word ∈ words, start ≤ word.start ∧ word.stop ≤ stop

section Spans

variable {x y : Symbol} {start stop start' stop' : Nat}

theorem Stands.stop_le_length (h : Stands s x start stop) : stop ≤ s.text.length :=
  h.stop_le.trans s.ends_le_length

/-- What stands in a placed statement has a proper range. -/
theorem Stands.proper (hs : s.Placed) (h : Stands s x start stop) : x.declaredRange.Proper := by
  rw [h.declaredRange_eq]
  exact hs.span_proper h.start_lt_stop h.stop_le_length

/-- It starts no earlier than the statement. -/
theorem Stands.extent_start_le (hs : s.Placed) (h : Stands s x start stop) :
    s.extent.start ≤ x.declaredRange.start := by
  have := h.start_lt_stop
  have := h.stop_le_length
  rw [h.declaredRange_eq]
  exact hs.place_le h.begins_le (by omega)

theorem Stands.extent_start_lt (hs : s.Placed) (h : Stands s x start stop) (hlt : s.begins < start) :
    s.extent.start < x.declaredRange.start := by
  have := h.start_lt_stop
  have := h.stop_le_length
  rw [h.declaredRange_eq]
  exact hs.place_lt hlt (by omega)

theorem Stands.stop_le_extent (hs : s.Placed) (h : Stands s x start stop) :
    x.declaredRange.stop ≤ s.extent.stop := by
  rw [h.declaredRange_eq]
  exact hs.span_stop_le h.stop_le h.start_lt_stop s.ends_le_length

/-- Of two spans of one statement, one before the other, the ranges are so too. -/
theorem Stands.before (hs : s.Placed) (hx : Stands s x start stop) (hy : Stands s y start' stop')
    (hlt : stop < start') : x.declaredRange.Before y.declaredRange := by
  have := hy.start_lt_stop
  have := hy.stop_le_length
  rw [hx.declaredRange_eq, hy.declaredRange_eq]
  exact hs.span_before hx.start_lt_stop hlt (by omega)

end Spans

/-! ### Simple declarations -/

/-- The range of a word is its span. -/
theorem rangeOf_value (hs : s.Placed) {l : Lexeme} (hl : l.IsWord s.text) :
    (s.rangeOf l).value = s.span l.start l.stop := by
  have hstop := hl.within.stop_le
  rw [Statement.rangeOf, hs.range_eq hl.start_lt_stop hstop]
  rfl

/-- One word names by itself. -/
theorem naming_word (hs : s.Placed) {l : Lexeme} (hl : l.IsWord s.text) :
    Naming s [l] l.spelling (s.rangeOf l).value := by
  refine ⟨?_, ?_, l, l, rfl, rfl, hl.start_lt_stop, rangeOf_value hs hl⟩
  · intro word hw
    rw [List.mem_singleton.1 hw]
    exact hl
  · rw [List.map_singleton, String.intercalate_singleton]

theorem cursor_in (s : Statement) : s.cursor.In s.text :=
  ⟨List.replicate s.margin ' ', [], by simp [Statement.text, Statement.cursor], by simp [Statement.cursor]⟩

theorem fieldSymbol_stands (hs : s.Placed) {d : FieldDeclaration}
    (h : FieldDeclaration.read? s.cursor = some d) :
    Stands s (fieldSymbol b s d).value d.visibility.start d.name.stop := by
  obtain ⟨hvisibility, hname, hlt⟩ := FieldDeclaration.read?_words (cursor_in s) h
  have hstart := hvisibility.start_lt_stop
  have hstop := hname.start_lt_stop
  have hspan : d.visibility.start < d.name.stop := by omega
  refine ⟨Statement.begins_le_word hvisibility, hspan, Statement.word_le_ends hname, ?_, ?_⟩
  · show (s.range d.visibility.start d.name.stop).value = _
    rw [hs.range_eq hspan hname.within.stop_le]
    rfl
  · refine ⟨[d.name], naming_word hs hname, ?_⟩
    intro word hw
    rw [List.mem_singleton.1 hw]
    omega

/-- A variable stands from the start it is given, its keyword or its name, to the end of its entry. -/
theorem variableSymbol_stands (hs : s.Placed) {e : DimItem} (he : e.StandsIn s.text) {start : Nat}
    (hbegins : s.begins ≤ start) (hstart : start ≤ e.name.start) :
    Stands s (variableSymbol b s start e).value start e.stop := by
  have hname := he.name_isWord.start_lt_stop
  have hle := he.name_stop_le
  have hspan : start < e.stop := by omega
  have hends : e.stop ≤ s.ends := by
    obtain ⟨x, hx, hblank⟩ := he.last
    have := Statement.lt_ends hx hblank
    omega
  refine ⟨hbegins, hspan, hends, ?_, ?_⟩
  · show (s.range start e.stop).value = _
    rw [hs.range_eq hspan (hends.trans s.ends_le_length)]
    rfl
  · refine ⟨[e.name], naming_word hs he.name_isWord, ?_⟩
    intro word hw
    rw [List.mem_singleton.1 hw]
    omega

/-- A constant takes up its whole statement. -/
theorem constantSymbol_stands (hs : s.Placed) (hproper : s.begins < s.ends) {d : ConstDeclaration}
    (h : ConstDeclaration.read? s.cursor = some d) :
    Stands s (constantSymbol b s d).value s.begins s.ends := by
  have hname := ConstDeclaration.read?_word (cursor_in s) h
  refine ⟨Nat.le_refl _, hproper, Nat.le_refl _, ?_, ?_⟩
  · show (s.range s.begins s.ends).value = _
    rw [hs.range_eq hproper s.ends_le_length]
    rfl
  · refine ⟨[d.name], naming_word hs hname, ?_⟩
    intro word hw
    rw [List.mem_singleton.1 hw]
    exact ⟨Statement.begins_le_word hname, Statement.word_le_ends hname⟩

/-- What is common to the symbols that a statement declares by itself. -/
structure Declares (b : OpenBlocks) (s : Statement) (symbols : List Symbol) : Prop where
  stands : ∀ x ∈ symbols, ∃ start stop, Stands s x start stop
  ordered : symbols.Pairwise fun x y => x.declaredRange.Before y.declaredRange
  parent : ∀ x ∈ symbols, x.kind = .field ∧ x.parent = b.className ∨
    (x.kind = .variableDef ∨ x.kind = .constant) ∧ x.parent = b.nearestName

theorem variableSymbols_declares (hs : s.Placed) {d : DimDeclaration}
    (h : DimDeclaration.read? s.cursor = some d) : Declares b s (variableSymbols b s d).value := by
  obtain ⟨hkeyword, hitems, hordered⟩ := DimDeclaration.declared_stand (cursor_in s) h
  rw [variableSymbols]
  split
  · exact ⟨by simp, .nil, by simp⟩
  · next first others hdeclared =>
      rw [hdeclared] at hitems hordered
      obtain ⟨hfirst, hothers⟩ := List.pairwise_cons.1 hordered
      have hhead : Stands s (variableSymbol b s d.keyword.start first).value d.keyword.start first.stop := by
        obtain ⟨hstands, hlt⟩ := hitems first List.mem_cons_self
        have := hkeyword.start_lt_stop
        exact variableSymbol_stands hs hstands (Statement.begins_le_word hkeyword) (by omega)
      have htail : ∀ e ∈ others, Stands s (variableSymbol b s e.name.start e).value e.name.start e.stop := by
        intro e he
        have hstands := (hitems e (List.mem_cons_of_mem first he)).1
        exact variableSymbol_stands hs hstands (Statement.begins_le_word hstands.name_isWord) (Nat.le_refl _)
      simp only [Noted.value_bind, Noted.value_pure, value_mapM]
      refine ⟨?_, ?_, ?_⟩
      · intro x hx
        rcases List.mem_cons.1 hx with rfl | hx
        · exact ⟨_, _, hhead⟩
        · obtain ⟨e, he, rfl⟩ := List.mem_map.1 hx
          exact ⟨_, _, htail e he⟩
      · refine List.pairwise_cons.2 ⟨?_, ?_⟩
        · intro x hx
          obtain ⟨e, he, rfl⟩ := List.mem_map.1 hx
          exact hhead.before hs (htail e he) (hfirst e he)
        · rw [List.pairwise_map]
          exact hothers.imp_of_mem fun he hf hlt => (htail _ he).before hs (htail _ hf) hlt
      · intro x hx
        right
        rcases List.mem_cons.1 hx with rfl | hx
        · exact ⟨Or.inl rfl, rfl⟩
        · obtain ⟨e, he, rfl⟩ := List.mem_map.1 hx
          exact ⟨Or.inl rfl, rfl⟩

/-- Whatever a declaration emits stands in it, owned by the blocks around it. -/
theorem Declaration.declares (hs : s.Placed) (hproper : s.begins < s.ends) {symbols : List Symbol}
    (h : Declaration b s symbols) : Declares b s symbols := by
  have single : ∀ {x : Symbol} {start stop : Nat}, Stands s x start stop →
      (x.kind = .field ∧ x.parent = b.className ∨
        (x.kind = .variableDef ∨ x.kind = .constant) ∧ x.parent = b.nearestName) → Declares b s [x] := by
    intro x start stop hx hparent
    refine ⟨?_, List.pairwise_singleton _ _, ?_⟩
    · intro y hy
      rw [List.mem_singleton.1 hy]
      exact ⟨_, _, hx⟩
    · intro y hy
      rw [List.mem_singleton.1 hy]
      exact hparent
  cases h with
  | field hread => exact single (fieldSymbol_stands hs hread) (Or.inl ⟨rfl, rfl⟩)
  | dim hread => exact variableSymbols_declares hs hread
  | constant hread hfree =>
      exact single (constantSymbol_stands hs hproper hread) (Or.inr ⟨Or.inr rfl, rfl⟩)

/-! ### Blocks -/

/-- The span of a parameter, in a list that stands in the statement. -/
theorem parameterSymbol_stands (hs : s.Placed) {list : Lexeme} (hlist : list.In s.text) {p : Parameter}
    (hp : p.StandsIn list.text) (owner : String) :
    Stands s (parameterSymbol s list.start owner p).value (list.start + p.first.start)
      (list.start + p.stop) := by
  obtain ⟨first, others, hnamed, hstart, hnamedLast, hsuffix⟩ := Parameter.named_eq p
  obtain ⟨last, hlast, hstop⟩ := Parameter.stop_eq p
  have hshift : ∀ word ∈ p.words, (word.shift list.start).IsWord s.text := fun word hw =>
    (hp.isWord word hw).shift hlist
  have hnames : ∀ word ∈ p.named, word ∈ p.words := fun word hw => hsuffix.subset hw
  have hends : list.start + p.stop ≤ s.ends := by
    have := Statement.word_le_ends (hshift last (List.mem_of_getLast? hlast))
    rwa [Lexeme.shift_stop, ← hstop] at this
  have hlen := hends.trans s.ends_le_length
  have hspan := hp.start_lt_stop p.first List.mem_cons_self
  have hname := hp.start_lt_stop first (hnames first (hnamed ▸ List.mem_cons_self))
  refine ⟨Statement.begins_le_word (hshift p.first List.mem_cons_self), by omega, hends, ?_, ?_⟩
  · show (s.range ((list.start : Int) + p.first.start) (list.start + p.stop)).value = _
    rw [← Int.natCast_add, ← Int.natCast_add, hs.range_eq (by omega) hlen]
    rfl
  · refine ⟨p.named.map (Lexeme.shift list.start), ⟨?_, ?_, ?_⟩, ?_⟩
    · intro word hw
      obtain ⟨w, hmem, rfl⟩ := List.mem_map.1 hw
      exact hshift w (hnames w hmem)
    · rw [List.map_map]
      rfl
    · refine ⟨first.shift list.start, last.shift list.start, by rw [hnamed]; rfl, ?_, ?_, ?_⟩
      · rw [List.getLast?_map, hnamedLast, hlast]
        rfl
      · rw [Lexeme.shift_stop, ← hstop]
        simp only [Lexeme.shift]
        omega
      · show (s.range ((list.start : Int) + p.nameStart) (list.start + p.stop)).value = _
        rw [← Int.natCast_add, ← Int.natCast_add, hstart, hs.range_eq (by omega) hlen, Lexeme.shift_stop,
          ← hstop]
        rfl
    · intro word hw
      obtain ⟨w, hmem, rfl⟩ := List.mem_map.1 hw
      have hfirst := hp.first_le w (hnames w hmem)
      have hlast := hp.stop_le w (hnames w hmem)
      rw [Lexeme.shift_stop]
      simp only [Lexeme.shift]
      omega

/-- The variables of a header are those of the parameters in its list. -/
theorem exists_of_mem_headerParameters {h : MemberHeader} {x : Symbol} (hx : x ∈ (headerParameters s h).value) :
    ∃ list ps p, h.parameters = some list ∧ readParameters? list.text = some ps ∧ p ∈ ps ∧
      x = (parameterSymbol s list.start h.name.spelling p).value := by
  rw [headerParameters] at hx
  split at hx
  · next list hlist =>
      rw [parameterSymbols] at hx
      split at hx
      · next ps hps =>
          rw [value_mapM] at hx
          obtain ⟨p, hp, rfl⟩ := List.mem_map.1 hx
          exact ⟨list, ps, p, hlist, hps, hp, rfl⟩
      · cases hx
  · cases hx

/-- Every parameter is a variable of the member whose header lists it. -/
theorem headerParameters_owned {h : MemberHeader} {x : Symbol} (hx : x ∈ (headerParameters s h).value) :
    x.kind = .variableDef ∧ x.parent = some h.name.spelling := by
  obtain ⟨list, ps, p, -, -, -, rfl⟩ := exists_of_mem_headerParameters hx
  exact ⟨rfl, rfl⟩

/-- What is common to the parameters of a member that a statement opens. -/
structure Parameters (s : Statement) (owner : String) (symbols : List Symbol) : Prop where
  stands : ∀ x ∈ symbols, ∃ start stop, Stands s x start stop ∧ s.begins < start
  ordered : symbols.Pairwise fun x y => x.declaredRange.Before y.declaredRange
  kind : ∀ x ∈ symbols, x.kind = .variableDef
  parent : ∀ x ∈ symbols, x.parent = some owner

theorem openMember_parameters (hs : s.Placed) {kind : MemberKind} {h : MemberHeader}
    (hread : MemberHeader.read? kind s.cursor = some h) :
    Parameters s h.name.spelling (openMember kind s h).value.parameters := by
  obtain ⟨hname, hlist⟩ := MemberHeader.read?_words (cursor_in s) hread
  have hstands : ∀ {list ps p}, h.parameters = some list → readParameters? list.text = some ps → p ∈ ps →
      Stands s (parameterSymbol s list.start h.name.spelling p).value (list.start + p.first.start)
        (list.start + p.stop) := fun hparameters hps hp =>
    parameterSymbol_stands hs (hlist _ hparameters).1 (readParameters?_stand hps _ hp) _
  show Parameters s h.name.spelling (headerParameters s h).value
  constructor
  case stands =>
    intro x hx
    obtain ⟨list, ps, p, hparameters, hps, hp, rfl⟩ := exists_of_mem_headerParameters hx
    have hbegins := Statement.begins_le_word hname
    have hstart := hname.start_lt_stop
    have hlt := (hlist list hparameters).2
    exact ⟨_, _, hstands hparameters hps hp, by omega⟩
  case ordered =>
    rw [headerParameters]
    split
    · next list hparameters =>
        rw [parameterSymbols]
        split
        · next ps hps =>
            rw [value_mapM, List.pairwise_map]
            exact (readParameters?_pairwise hps).imp_of_mem fun hp hq hlt =>
              (hstands hparameters hps hp).before hs (hstands hparameters hps hq) (by omega)
        · exact .nil
    · exact .nil
  case kind => exact fun x hx => (headerParameters_owned hx).1
  case parent => exact fun x hx => (headerParameters_owned hx).2

theorem openMember_naming (hs : s.Placed) {kind : MemberKind} {h : MemberHeader}
    (hread : MemberHeader.read? kind s.cursor = some h) :
    Naming s [h.name] (openMember kind s h).value.name (openMember kind s h).value.nameRange :=
  naming_word hs (MemberHeader.read?_words (cursor_in s) hread).1

theorem openedClass_naming (hs : s.Placed) {name : Lexeme} (hread : readClassHeader? s.cursor = some name) :
    Naming s [name] (openedClass s name).name (openedClass s name).nameRange :=
  naming_word hs (readClassHeader?_word (cursor_in s) hread)

/-- A block ends where its closing statement does. -/
theorem closedRange_value (hs : s.Placed) (hproper : s.begins < s.ends) (start : Position) :
    (closedRange start s).value = ⟨start, s.extent.stop⟩ := by
  show (⟨start, (s.range s.begins s.ends).value.stop⟩ : Range) = _
  rw [hs.range_eq hproper s.ends_le_length]
  rfl

/-! ### Whole documents -/

theorem extent_proper_of_mem {text : List Char} (h : s ∈ statements text) : s.extent.Proper :=
  (placed_of_mem h).span_proper (begins_lt_ends_of_mem h) s.ends_le_length

/-- What holds at the start of a document and is kept by each of its statements holds at its end. -/
theorem document_induction {text : List Char} {I : Change → List Problem → List Statement → Prop}
    (start : I { blocks := {} } [] (statements text))
    (keep : ∀ {b done noted s rest problems change}, s ∈ statements text →
      (∀ r ∈ rest, s.extent.Before r.extent) → Outcome b s problems change → I ⟨b, done⟩ noted (s :: rest) →
        I ⟨change.blocks, done ++ change.symbols⟩ (noted ++ problems) rest) :
    I (trace (statements text)).value (trace (statements text)).problems [] := by
  refine (trace_induction (I := fun t rest => rest <:+ statements text ∧ I t.value t.problems rest) ?_ ?_).2
  · exact ⟨List.suffix_rfl, start⟩
  · rintro t s rest ⟨hsuffix, h⟩
    have hordered := (statements_pairwise text).sublist hsuffix.sublist
    refine ⟨(List.suffix_cons s rest).trans hsuffix, ?_⟩
    exact keep (hsuffix.subset List.mem_cons_self) (List.pairwise_cons.1 hordered).1
      (step_outcome t.value.blocks s) h

end VbOutline.Outline
