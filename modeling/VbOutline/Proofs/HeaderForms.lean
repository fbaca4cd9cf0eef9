import VbOutline.Proofs.RuleOrder
import VbOutline.Proofs.Spelling

/-! The form of headers. The grammar of headers is written down as relations between a text and its parts with their
places in it: `[public|private [default]] keyword name [(parameters)]`, with blanks between the parts and around them.
Headers are read exactly where a text has this form, and the parts that are read are the only ones it has: the name
goes on as long as it can, and the parameters are what stands between the first parenthesis behind it and the last one
of the text. -/

namespace VbOutline

namespace Grammar

open Text

/-! ### The grammar of headers -/

/-- The visibility of a member: none, or a keyword, behind which the default member may be marked. -/
inductive VisibilityForm (start : Nat) : Option Lexeme → List Char → Prop
  | absent : VisibilityForm start none []
  | present {sp : Spelled} {t : List Char} (h : WordForm visibilities start sp t) :
      VisibilityForm start (some sp.written) t
  | marked {sp mark : Spelled} {t u : List Char} (h : WordForm visibilities start sp t)
      (hmark : WordForm [.defaultKw] (start + t.length) mark u) : VisibilityForm start (some sp.written) (t ++ u)

/-- The keyword of a member; that of a property follows the word `property`. -/
inductive KeywordForm (start : Nat) (sp : Spelled) : MemberKind → List Char → Prop
  | method {t : List Char} (h : WordForm MemberKind.method.keywords start sp t) : KeywordForm start sp .method t
  | property {lead : Spelled} {t u : List Char} (hlead : WordForm [.propertyKw] start lead t)
      (h : WordForm MemberKind.property.keywords (start + t.length) sp u) : KeywordForm start sp .property (t ++ u)

/-- The parameters of a member: none, or any text without a line feed in parentheses. -/
inductive ParameterForm (start : Nat) : Option Lexeme → List Char → Prop
  | absent : ParameterForm start none []
  | present {inner : List Char} (h : '\n' ∉ inner) :
      ParameterForm start (some ⟨start + 1, inner⟩) ('(' :: (inner ++ [')']))

/-- The header of a member, with the places of its parts in the text. -/
inductive HeaderForm (kind : MemberKind) : MemberHeader → List Char → Prop
  | intro {lead v k name gap p trail : List Char} {visibility : Option Lexeme} {keyword : Spelled}
      {parameters : Option Lexeme} (hlead : Blanks lead) (hvisibility : VisibilityForm lead.length visibility v)
      (hkeyword : KeywordForm (lead ++ v).length keyword kind k) (hname : IsName .folding name) (hgap : Blanks gap)
      (hparameters : ParameterForm (lead ++ v ++ k ++ name ++ gap).length parameters p) (htrail : Blanks trail) :
      HeaderForm kind ⟨visibility, keyword, ⟨(lead ++ v ++ k).length, name⟩, parameters⟩
        (lead ++ v ++ k ++ name ++ gap ++ p ++ trail)

theorem VisibilityForm.inked {start : Nat} {visibility : Option Lexeme} {t u : List Char}
    (h : VisibilityForm start visibility t) (hu : Inked u) : Inked (t ++ u) := by
  cases h with
  | absent => exact hu
  | present hfirst => exact hfirst.inked
  | marked hfirst hmark =>
      rw [List.append_assoc]
      exact hfirst.inked

theorem KeywordForm.inked {start : Nat} {sp : Spelled} {kind : MemberKind} {t u : List Char}
    (h : KeywordForm start sp kind t) : Inked (t ++ u) := by
  cases h with
  | method hform => exact hform.inked
  | property hlead hform =>
      rw [List.append_assoc]
      exact hlead.inked

/-- What follows a name in a header does not go on with the name. -/
theorem ParameterForm.head_not_isNameChar {start : Nat} {parameters : Option Lexeme} {gap p trail : List Char}
    (h : ParameterForm start parameters p) (hgap : Blanks gap) (htrail : Blanks trail) :
    ∀ x ∈ (gap ++ p ++ trail).head?, Alphabet.folding.isNameChar x = false := by
  intro x hx
  cases gap with
  | cons y gap =>
      rw [← Option.some.inj hx]
      exact isNameChar_of_isBlank (hgap y List.mem_cons_self)
  | nil =>
      cases h with
      | absent => exact isNameChar_of_isBlank (htrail x (List.mem_of_mem_head? hx))
      | present hline =>
          rw [← Option.some.inj hx]
          decide

namespace Cursor

variable {c d : Cursor} {t : List Char} {kind : MemberKind} {sp : Spelled}

/-! ### Visibilities -/

theorem memberVisibility_form (c : Cursor) :
    ∃ t, VisibilityForm c.offset c.memberVisibility.1 t ∧ c.Reads t c.memberVisibility.2 := by
  cases hword : c.word? visibilities with
  | none =>
      rw [memberVisibility, optionalWord_of_none hword]
      exact ⟨[], .absent, .refl c⟩
  | some found =>
      obtain ⟨sp, d⟩ := found
      obtain ⟨t, hform, hread⟩ := word?_form hword
      rw [memberVisibility, optionalWord_of_some hword]
      dsimp only
      cases hmark : d.word? [.defaultKw] with
      | none =>
          rw [optionalWord_of_none hmark]
          exact ⟨t, .present hform, hread⟩
      | some found =>
          obtain ⟨mark, e⟩ := found
          obtain ⟨u, hmarked, hread'⟩ := word?_form hmark
          rw [optionalWord_of_some hmark]
          rw [hread.offset_eq] at hmarked
          exact ⟨t ++ u, .marked hform hmarked, hread.trans hread'⟩

/-- A visibility is read up to the word of the member, which is neither a visibility nor the mark of the default
member. -/
theorem memberVisibility_eq {visibility : Option Lexeme} (hform : VisibilityForm c.offset visibility t)
    (h : c.Reads t d) (hd : Inked d.rest) (hword : ∃ k ∈ kind.words, d.nextWord = k.letters) :
    c.memberVisibility = (visibility, d) := by
  have hapart : ∀ k ∈ kind.words, k ∉ visibilities ∧ k ∉ [Keyword.defaultKw] := by
    cases kind <;> decide
  have hvisibility : d.word? visibilities = none := word?_eq_none hword fun k hk => (hapart k hk).1
  have hdefault : d.word? [.defaultKw] = none := word?_eq_none hword fun k hk => (hapart k hk).2
  cases hform with
  | absent =>
      have hsame : d = c := h.eq_advance
      rw [memberVisibility, ← hsame, optionalWord_of_none hvisibility]
  | present hfirst =>
      rw [memberVisibility, optionalWord_of_some (word?_eq hfirst h hd)]
      dsimp only
      rw [optionalWord_of_none hdefault]
  | marked hfirst hmark =>
      obtain ⟨e, hread, hread'⟩ := h.split
      rw [← hread.offset_eq] at hmark
      have he : Inked e.rest := hread'.inked hmark.inked
      rw [memberVisibility, optionalWord_of_some (word?_eq hfirst hread he)]
      dsimp only
      rw [optionalWord_of_some (word?_eq hmark hread' hd)]

/-! ### Keywords of members -/

theorem memberKeyword?_form (h : c.memberKeyword? kind = some (sp, d)) :
    ∃ t, KeywordForm c.offset sp kind t ∧ c.Reads t d := by
  cases kind with
  | method =>
      obtain ⟨t, hform, hread⟩ := word?_form h
      exact ⟨t, .method hform, hread⟩
  | property =>
      simp only [memberKeyword?, Option.bind_eq_bind, Option.bind_eq_some_iff, Prod.exists] at h
      obtain ⟨lead, e, hlead, hkeyword⟩ := h
      obtain ⟨t, hform, hread⟩ := word?_form hlead
      obtain ⟨u, hform', hread'⟩ := word?_form hkeyword
      rw [hread.offset_eq] at hform'
      exact ⟨t ++ u, .property hform hform', hread.trans hread'⟩

theorem memberKeyword?_eq (hform : KeywordForm c.offset sp kind t) (h : c.Reads t d) (hd : Inked d.rest) :
    c.memberKeyword? kind = some (sp, d) ∧ ∃ k ∈ kind.words, c.nextWord = k.letters := by
  cases hform with
  | method hform =>
      have hword := word?_eq hform h hd
      exact ⟨hword, nextWord_of_word? hword⟩
  | property hlead hform =>
      obtain ⟨e, hread, hread'⟩ := h.split
      rw [← hread.offset_eq] at hform
      have he : Inked e.rest := hread'.inked hform.inked
      have hword := word?_eq hlead hread he
      refine ⟨?_, nextWord_of_word? hword⟩
      rw [memberKeyword?, hword]
      exact word?_eq hform hread' hd

/-! ### Parameters -/

theorem parameters?_form {parameters : Option Lexeme} (h : c.parameters? = some parameters) :
    ∃ gap p trail, c.rest = gap ++ p ++ trail ∧ Blanks gap ∧ Blanks trail ∧
      ParameterForm (c.offset + gap.length) parameters p := by
  rw [parameters?] at h
  split at h
  · next hend =>
      cases h
      refine ⟨[], [], c.rest, rfl, nofun, fun x hx => List.all_eq_true.1 hend x hx, .absent⟩
  · obtain ⟨list, hparen, rfl⟩ := Option.map_eq_some_iff.1 h
    simp only [parenthesized?, Option.bind_eq_bind, Option.bind_eq_some_iff] at hparen
    obtain ⟨inner, hopen, hclosed⟩ := hparen
    split at hclosed
    · next hform =>
        cases hclosed
        obtain ⟨hlast, hline⟩ := hform
        have hread := (skipBlanks_reads c).trans (char?_reads hopen)
        obtain ⟨front, hfront⟩ := List.getLast?_eq_some_iff.1 hlast
        rw [hfront, List.dropLast_concat] at hline ⊢
        obtain ⟨trail, htrim, htrail⟩ := exists_trimEnd_append inner.rest
        rw [hfront] at htrim
        refine ⟨c.rest.takeWhile isBlank, '(' :: (front ++ [')']), trail, ?_,
          fun x hx => isBlank_of_mem_takeWhile hx, htrail, ?_⟩
        · have hrest := hread.rest_eq
          rw [htrim] at hrest
          simpa using hrest
        · have hoffset : inner.offset = c.offset + (c.rest.takeWhile isBlank).length + 1 := by
            rw [hread.offset_eq, List.length_append, Nat.add_assoc]
            rfl
          rw [hoffset]
          exact .present hline
    · cases hclosed

theorem parameters?_eq {gap p trail : List Char} {parameters : Option Lexeme}
    (hrest : c.rest = gap ++ p ++ trail) (hgap : Blanks gap) (htrail : Blanks trail)
    (hform : ParameterForm (c.offset + gap.length) parameters p) : c.parameters? = some parameters := by
  cases hform with
  | absent =>
      have hend : c.atEnd = true := by
        rw [atEnd, allBlank, hrest, List.append_nil, List.all_append, Bool.and_eq_true]
        exact ⟨List.all_eq_true.2 hgap, List.all_eq_true.2 htrail⟩
      rw [parameters?, if_pos hend]
  | @present inner hline =>
      have hopen : c.Reads (gap ++ ['(']) ⟨c.offset + gap.length + 1, inner ++ [')'] ++ trail⟩ := by
        refine ⟨?_, ?_⟩
        · rw [hrest]
          simp
        · rw [List.length_append, ← Nat.add_assoc]
          rfl
      obtain ⟨d, hblanks, hparen⟩ := hopen.split
      have hink : Inked d.rest := hparen.inked (inked_cons (by decide))
      have hgoing : ¬ c.atEnd = true := by
        intro hend
        have hall := List.all_eq_true.1 hend '(' (by rw [hrest]; simp)
        exact absurd hall (by decide)
      have htext : trimEnd (inner ++ [')'] ++ trail) = inner ++ [')'] := by
        refine trimEnd_append (fun x hx => ?_) htrail
        rw [List.getLast?_concat] at hx
        rw [← Option.some.inj hx]
        decide
      rw [parameters?, if_neg hgoing, skipBlanks_eq hblanks hgap hink, parenthesized?, char?_eq hparen]
      simp only [Option.bind_eq_bind, Option.bind_some, htext, List.getLast?_concat, List.dropLast_concat]
      rw [if_pos ⟨trivial, hline⟩]
      rfl

end Cursor

/-! ### Headers -/

variable {kind : MemberKind} {header : MemberHeader} {text : List Char}

/-- What is read as a header has the form of one. -/
theorem MemberHeader.read?_form (h : MemberHeader.read? kind ⟨0, text⟩ = some header) :
    HeaderForm kind header text := by
  simp only [MemberHeader.read?, Option.bind_eq_bind, Option.bind_eq_some_iff, Prod.exists] at h
  obtain ⟨keyword, d, hkeyword, ⟨start, name⟩, e, hname, parameters, hparameters, hpure⟩ := h
  cases hpure
  obtain ⟨lead, hblank, hlead⟩ := (Cursor.mk 0 text).skipBlanks_form
  generalize (Cursor.mk 0 text).skipBlanks = c at hkeyword hlead ⊢
  obtain ⟨v, hvisibility, hv⟩ := c.memberVisibility_form
  obtain ⟨k, hform, hk⟩ := Cursor.memberKeyword?_form hkeyword
  have hn := Cursor.name?_reads hname
  obtain ⟨gap, p, trail, hrest, hgap, htrail, hlist⟩ := Cursor.parameters?_form hparameters
  have hnamed := ((hlead.trans hv).trans hk).trans hn.reads
  have htext : text = lead ++ v ++ k ++ name ++ gap ++ p ++ trail := by
    have hall := hnamed.rest_eq
    rw [hrest] at hall
    simpa using hall
  have hstart : start = (lead ++ v ++ k).length := by
    rw [show start = d.offset from hn.start_eq, ((hlead.trans hv).trans hk).offset_eq, Nat.zero_add]
  rw [hlead.offset_eq, Nat.zero_add] at hvisibility
  rw [(hlead.trans hv).offset_eq, Nat.zero_add] at hform
  rw [hnamed.offset_eq, Nat.zero_add, ← List.length_append] at hlist
  rw [htext, hstart]
  exact .intro hblank hvisibility hform hn.isName hgap hlist htrail

/-- A text that has the form of a header is read as it. -/
theorem HeaderForm.read?_eq (h : HeaderForm kind header text) : MemberHeader.read? kind ⟨0, text⟩ = some header := by
  cases h with
  | @intro lead v k name gap p trail visibility keyword parameters hlead hvisibility hkeyword hname hgap hparameters
      htrail =>
      have hall : (Cursor.mk 0 (lead ++ v ++ k ++ name ++ gap ++ p ++ trail)).Reads (lead ++ v ++ k ++ name)
          ⟨(lead ++ v ++ k ++ name).length, gap ++ p ++ trail⟩ :=
        ⟨by simp, by simp⟩
      generalize hc : (Cursor.mk 0 (lead ++ v ++ k ++ name ++ gap ++ p ++ trail)) = c at hall ⊢
      have hzero : c.offset = 0 := by rw [← hc]
      obtain ⟨named, hfront, hread⟩ := hall.split
      obtain ⟨worded, hfront', hk⟩ := hfront.split
      obtain ⟨seen, hblanks, hv⟩ := hfront'.split
      -- Each part is read up to the next one, which starts with a letter.
      have hnamed : Inked named.rest := hread.inked hname.inked
      have hworded : Inked worded.rest := hk.inked hkeyword.inked
      have hseen : Inked seen.rest := hv.inked (hvisibility.inked hworded)
      rw [← Nat.zero_add lead.length, ← hzero, ← hblanks.offset_eq] at hvisibility
      rw [← Nat.zero_add (lead ++ v).length, ← hzero, ← hfront'.offset_eq] at hkeyword
      rw [List.length_append] at hparameters
      obtain ⟨hword, hnext⟩ := Cursor.memberKeyword?_eq hkeyword hk hnamed
      have hstart : named.offset = (lead ++ v ++ k).length := by rw [hfront.offset_eq, hzero, Nat.zero_add]
      rw [MemberHeader.read?, Cursor.skipBlanks_eq hblanks hlead hseen,
        Cursor.memberVisibility_eq hvisibility hv hworded hnext]
      simp only [hword, Option.bind_eq_bind, Option.bind_some,
        Cursor.name?_eq hname hread (hparameters.head_not_isNameChar hgap htrail),
        Cursor.parameters?_eq (c := ⟨_, gap ++ p ++ trail⟩) rfl hgap htrail hparameters, hstart]
      rfl

/-- Statements are read as headers exactly where they have the form of one. -/
theorem MemberHeader.read?_iff_form (kind : MemberKind) (s : Source.Statement) (header : MemberHeader) :
    MemberHeader.read? kind s.cursor = some header ↔ HeaderForm kind header s.text := by
  have htext : MemberHeader.read? kind s.cursor = MemberHeader.read? kind ⟨0, s.text⟩ := by
    rw [MemberHeader.read?, MemberHeader.read?, Cursor.skipBlanks_text]
  rw [htext]
  exact ⟨MemberHeader.read?_form, HeaderForm.read?_eq⟩

/-! ### Where the parts are cut -/

/-- How the name and the parameters of a header are cut out of its text, which goes on before and after the name. -/
structure MemberHeader.CutAt (header : MemberHeader) (before after : List Char) : Prop where
  name_start : header.name.start = before.length
  name_first : ∀ x ∈ before.getLast?, isBlank x = true
  name_longest : ∀ x ∈ after.head?, Alphabet.folding.isNameChar x = false
  parameters_absent : header.parameters = none → Blanks after
  parameters_outermost : ∀ list, header.parameters = some list → ∃ gap trail,
    after = gap ++ '(' :: (list.text ++ ')' :: trail) ∧ '(' ∉ gap ∧ ')' ∉ trail ∧
      list.start = header.name.stop + gap.length + 1

theorem WordForm.getLast?_isBlank {ks : List Keyword} {start : Nat} {sp : Spelled} {t u : List Char}
    (h : WordForm ks start sp t) : ∀ x ∈ (u ++ t).getLast?, isBlank x = true := by
  intro x hx
  obtain ⟨gap, hne, hgap, rfl⟩ := h.gap
  rw [← List.append_assoc, List.getLast?_append, List.getLast?_eq_some_getLast hne] at hx
  rw [← Option.some.inj hx]
  exact hgap _ (List.getLast_mem hne)

theorem KeywordForm.getLast?_isBlank {start : Nat} {sp : Spelled} {t u : List Char}
    (h : KeywordForm start sp kind t) : ∀ x ∈ (u ++ t).getLast?, isBlank x = true := by
  cases h with
  | method hform => exact hform.getLast?_isBlank
  | property hlead hform =>
      rw [← List.append_assoc]
      exact hform.getLast?_isBlank

theorem Blanks.not_mem {t : List Char} (h : Blanks t) {x : Char} (hx : isBlank x = false) : x ∉ t := by
  intro hmem
  rw [h x hmem] at hx
  cases hx

theorem HeaderForm.cutAt (h : HeaderForm kind header text) :
    ∃ before after, text = before ++ header.name.text ++ after ∧ header.CutAt before after := by
  cases h with
  | @intro lead v k name gap p trail visibility keyword parameters hlead hvisibility hkeyword hname hgap hparameters
      htrail =>
      refine ⟨lead ++ v ++ k, gap ++ p ++ trail, by simp only [List.append_assoc], rfl, hkeyword.getLast?_isBlank,
        hparameters.head_not_isNameChar hgap htrail, ?_, ?_⟩
      · rintro rfl
        cases hparameters
        intro x hx
        rw [List.append_nil] at hx
        exact (List.mem_append.1 hx).elim (hgap x) (htrail x)
      · rintro list rfl
        cases hparameters with
        | @present inner hline =>
            refine ⟨gap, trail, by simp, hgap.not_mem (by decide), htrail.not_mem (by decide), ?_⟩
            simp only [Lexeme.stop, List.length_append]

end Grammar

namespace Outline

open Grammar Source Text

variable {kind : MemberKind} {s : Statement}

/-! ### What is kept of a header -/

/-- What a member keeps of the header that opened it. -/
structure OpenMember.Keeps (m : OpenMember) (kind : MemberKind) (header : MemberHeader) : Prop where
  kind_eq : m.kind = kind
  name_eq : m.name = header.name.spelling
  visibility_eq : m.visibility = header.visibility.map Lexeme.spelling
  parameterText_eq : m.parameterText = (header.parameters.map Lexeme.spelling).getD ""
  keyword_eq : m.keyword = String.ofList (lower header.keyword.written.text)
  declaredType_eq : m.declaredType = String.ofList (capitalize header.keyword.written.text)

theorem openMember_keeps (kind : MemberKind) (s : Statement) (header : MemberHeader) :
    (openMember kind s header).value.Keeps kind header :=
  ⟨rfl, rfl, rfl, rfl, rfl, rfl⟩

namespace Reading

variable {r : Reading}

/-- Where no member is open, the rule for a header takes the statements of its form and opens a member that keeps what
is written in the header. -/
theorem opened_by_header (hfree : r.blocks.openMember = none) {header : MemberHeader}
    (hform : HeaderForm kind header s.text) :
    (r.applyRule (opener kind) s).1 = true ∧ r.consume s = (some (opener kind), (r.applyRule (opener kind) s).2) ∧
      ∃ m : OpenMember, (r.applyRule (opener kind) s).2.blocks = { r.blocks with openMember := some m } ∧
        m.Keeps kind header := by
  have happly := (apply_opener_free ((MemberHeader.read?_iff_form kind s header).2 hform) hfree).1
  refine ⟨?_, consume_of_value happly, (openMember kind s header).value, ?_, openMember_keeps kind s header⟩
  · rw [applyRule_of_value happly]
  · rw [applyRule_of_value happly]
    rfl

/-- Headers are read exactly where a statement has their form, in the one way in which it has it, and a member that is
opened keeps the parts of its header as they are written. -/
theorem header_recovered (kind : MemberKind) (s : Statement) :
    (∀ header, MemberHeader.read? kind s.cursor = some header ↔ HeaderForm kind header s.text) ∧
    (∀ header header', HeaderForm kind header s.text → HeaderForm kind header' s.text → header = header') ∧
    (∀ header, HeaderForm kind header s.text →
      ∃ before after, s.text = before ++ header.name.text ++ after ∧ header.CutAt before after) ∧
    ∀ r : Reading, r.blocks.openMember = none →
      ((r.applyRule (opener kind) s).1 = true ↔ ∃ header, HeaderForm kind header s.text) ∧
      ∀ header, HeaderForm kind header s.text →
        r.consume s = (some (opener kind), (r.applyRule (opener kind) s).2) ∧
        ∃ m : OpenMember, (r.applyRule (opener kind) s).2.blocks = { r.blocks with openMember := some m } ∧
          m.Keeps kind header := by
  refine ⟨MemberHeader.read?_iff_form kind s, ?_, fun header => HeaderForm.cutAt, fun r hfree => ⟨⟨?_, ?_⟩, ?_⟩⟩
  · intro header header' h h'
    exact Option.some.inj (h.read?_eq.symm.trans h'.read?_eq)
  · intro htaken
    by_cases hreads : (opener kind).Reads s
    · obtain ⟨header, hread⟩ := Option.isSome_iff_exists.1 ((reads_opener kind).1 hreads)
      exact ⟨header, (MemberHeader.read?_iff_form kind s header).1 hread⟩
    · rw [applyRule_of_not_reads hreads] at htaken
      cases htaken
  · rintro ⟨header, hform⟩
    exact (opened_by_header hfree hform).1
  · intro header hform
    exact (opened_by_header hfree hform).2

/-- The header of a default property whose parameters have parentheses of their own. -/
theorem header_recovered_property :
    let s := Statement.alone "Public default PROPERTY get Item ( x(), (y) ) ".toList [] 0
    let r := start {}
    let header : MemberHeader :=
      ⟨some ⟨0, "Public".toList⟩, ⟨.getKw, ⟨24, "get".toList⟩⟩, ⟨28, "Item".toList⟩, some ⟨34, " x(), (y) ".toList⟩⟩
    r.blocks.openMember = none ∧ HeaderForm .property header s.text ∧ (r.applyRule (opener .property) s).1 = true ∧
      ∃ m : OpenMember, (r.applyRule (opener .property) s).2.blocks = { r.blocks with openMember := some m } ∧
        m.name = "Item" ∧ m.visibility = some "Public" ∧ m.parameterText = " x(), (y) " ∧ m.keyword = "get" ∧
        m.declaredType = "Get" := by
  intro s r header
  have hfree : r.blocks.openMember = none := rfl
  obtain ⟨hread, -, -, hopened⟩ := header_recovered .property s
  have hform : HeaderForm .property header s.text := (hread header).1 (by decide +kernel)
  obtain ⟨htaken, hkept⟩ := hopened r hfree
  obtain ⟨-, m, hblocks, hm⟩ := hkept header hform
  refine ⟨hfree, hform, htaken.2 ⟨header, hform⟩, m, hblocks, ?_, ?_, ?_, ?_, ?_⟩
  · rw [hm.name_eq]
    decide +kernel
  · rw [hm.visibility_eq]
    decide +kernel
  · rw [hm.parameterText_eq]
    decide +kernel
  · rw [hm.keyword_eq]
    decide +kernel
  · rw [hm.declaredType_eq]
    decide +kernel

end Reading

end Outline

end VbOutline
