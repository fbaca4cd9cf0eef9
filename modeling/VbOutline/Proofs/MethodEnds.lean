import Mathlib.Data.List.Sections
import VbOutline.Proofs.Pairing
import VbOutline.Proofs.Uncased

/-! How the end of a method is compared with its header. Both keywords are read by their caseless form, but what is
compared is their lower case, and outside ASCII two words with one caseless form can have different lower cases. So a
method that is closed with another keyword than it was opened with is always reported, and one that is closed with
the same keyword is reported as well if the two words differ by more than the case of ASCII letters. -/

namespace VbOutline

namespace Text

/-- The characters with a given caseless form, up to the case of ASCII letters. -/
def variants (x : Char) : List Char :=
  if x = 'i' then ['i', '\u0130', '\u0131']
  else if x = 's' then ['s', '\u017F']
  else if x = 'k' then ['k', '\u212A']
  else [x]

theorem mem_variants_self (x : Char) : x ∈ variants x := by
  unfold variants
  split_ifs with hi hs hk
  · exact hi ▸ List.mem_cons_self
  · exact hs ▸ List.mem_cons_self
  · exact hk ▸ List.mem_cons_self
  · exact List.mem_cons_self

theorem toLower_mem_variants (c : Char) : c.toLower ∈ variants (fold c) := by
  unfold fold
  split_ifs with hi hs hk
  · rcases hi with rfl | rfl <;> decide
  · rw [hs]
    decide
  · rw [hk]
    decide
  · exact mem_variants_self _

/-- In ASCII the caseless form is the lower case. -/
theorem folded_of_ascii {text : List Char} (h : ∀ c ∈ text, c.toNat < 128) : folded text = uncased text := by
  refine List.map_congr_left fun c hc => ?_
  have hne : ∀ x : Char, 128 ≤ x.toNat → c ≠ x := by
    rintro x hx rfl
    have := h c hc
    omega
  rw [fold, if_neg (not_or.2 ⟨hne _ (by decide), hne _ (by decide)⟩), if_neg (hne _ (by decide)),
    if_neg (hne _ (by decide))]

end Text

namespace Grammar

open Text

/-! ### Spellings -/

/-- The words that are read as a keyword, up to the case of ASCII letters. -/
def Keyword.spellings (k : Keyword) : List (List Char) := (k.letters.map variants).sections

theorem uncased_mem_spellings {k : Keyword} {t : List Char} (h : folded t = k.letters) : uncased t ∈ k.spellings := by
  rw [Keyword.spellings, ← h, List.mem_sections, folded, List.map_map, uncased, List.forall₂_map_left_iff,
    List.forall₂_map_right_iff, List.forall₂_same]
  exact fun c _ => toLower_mem_variants c

/-- The lower case tells all words apart that are read as a keyword of methods. -/
theorem lower_injOn_spellings : ∀ t ∈ MemberKind.method.keywords.flatMap Keyword.spellings,
    ∀ u ∈ MemberKind.method.keywords.flatMap Keyword.spellings, lower t = lower u → t = u := by
  decide

variable {sp sp' : Spelled}

/-- A keyword of methods was read. -/
structure SpellsMethod (sp : Spelled) : Prop where
  keyword_mem : sp.keyword ∈ MemberKind.method.keywords
  letters_eq : folded sp.written.text = sp.keyword.letters

theorem MemberHeader.read?_spellsMethod {c : Cursor} {header : MemberHeader}
    (h : MemberHeader.read? .method c = some header) : SpellsMethod header.keyword := by
  simp only [MemberHeader.read?, Option.bind_eq_bind, Option.bind_eq_some_iff, Prod.exists] at h
  obtain ⟨keyword, d, hkeyword, name, e, -, parameters, -, heq⟩ := h
  cases heq
  obtain ⟨hmem, _, hread, -⟩ := Cursor.word?_reads hkeyword
  exact ⟨hmem, hread.letters_eq⟩

theorem readEnd?_spellsMethod {c : Cursor} (h : readEnd? MemberKind.method.keywords c = some sp) : SpellsMethod sp := by
  simp only [readEnd?, Option.bind_eq_bind, Option.bind_eq_some_iff, Prod.exists] at h
  obtain ⟨_, d, -, sp', e, hone, h⟩ := h
  split at h
  · cases h
    obtain ⟨hmem, hread⟩ := Cursor.oneOf?_reads hone
    exact ⟨hmem, hread.letters_eq⟩
  · cases h

theorem SpellsMethod.uncased_mem (h : SpellsMethod sp) :
    uncased sp.written.text ∈ MemberKind.method.keywords.flatMap Keyword.spellings :=
  List.mem_flatMap.2 ⟨sp.keyword, h.keyword_mem, uncased_mem_spellings h.letters_eq⟩

/-- Two words have the same lower case exactly if they differ in nothing but the case of ASCII letters. -/
theorem SpellsMethod.lower_eq_iff (h : SpellsMethod sp) (h' : SpellsMethod sp') :
    lower sp.written.text = lower sp'.written.text ↔ uncased sp.written.text = uncased sp'.written.text := by
  rw [← lower_uncased sp.written.text, ← lower_uncased sp'.written.text]
  exact ⟨lower_injOn_spellings _ h.uncased_mem _ h'.uncased_mem, congrArg lower⟩

theorem SpellsMethod.keyword_eq (h : SpellsMethod sp) (h' : SpellsMethod sp')
    (heq : uncased sp.written.text = uncased sp'.written.text) : sp.keyword = sp'.keyword := by
  apply Keyword.letters_injective
  rw [← h.letters_eq, ← h'.letters_eq, ← folded_uncased sp.written.text, heq, folded_uncased]

theorem SpellsMethod.uncased_eq_iff (h : SpellsMethod sp) (h' : SpellsMethod sp')
    (hascii : ∀ c ∈ sp.written.text ++ sp'.written.text, c.toNat < 128) :
    uncased sp.written.text = uncased sp'.written.text ↔ sp.keyword = sp'.keyword := by
  refine ⟨h.keyword_eq h', fun heq => ?_⟩
  rw [← folded_of_ascii fun c hc => hascii c (List.mem_append_left _ hc),
    ← folded_of_ascii fun c hc => hascii c (List.mem_append_right _ hc), h.letters_eq, h'.letters_eq, heq]

end Grammar

namespace Outline

open Grammar Source Text

/-! ### The end of a method -/

/-- The end of a method closes it and reports the two words if their lower cases differ, and nothing else. -/
theorem consume_methodClose {b : OpenBlocks} {s : Statement} {m : OpenMember} {closing : Spelled} (hs : s.Placed)
    (hproper : s.begins < s.ends) (hread : readEnd? MemberKind.method.words s.cursor = some closing)
    (hm : b.memberOf .method = some m) :
    consume b s = ⟨some (.methodClose, ⟨{ b with openMember := none }, closedMember b s m :: m.parameters⟩),
      if String.ofList (lower closing.written.text) = m.keyword then []
      else [(Finding.methodEndMismatch (String.ofList (lower closing.written.text)) m.keyword m.name).onLine
        s.line]⟩ := by
  have hsome := Option.isSome_of_eq_some hread
  have hclose : (closeMember b s m).problems = [] := by
    simp only [closeMember, closedRange, hs.range_eq hproper s.ends_le_length]
    rfl
  rw [consume_of_reads (closer_mem .method) ((reads_closer .method).2 hsome),
    proceed_of_some (apply_closer_open hsome hm).1]
  refine congrArg (Noted.mk _) ?_
  show (applyMethodClose b s).problems = _
  rw [applyMethodClose, show readEnd? MemberKind.method.keywords s.cursor = some closing from hread]
  simp only [hm, Noted.problems_bind, Noted.problems_pure, hclose, List.append_nil]
  rw [noteMismatch]
  split <;> rfl

/-- What the end of a method reports: its word and that of the header, if they differ by more than the case of ASCII
letters. -/
def mismatchReports (header : MemberHeader) (closing : Spelled) (s : Statement) : List Problem :=
  if uncased closing.written.text = uncased header.keyword.written.text then []
  else [(Finding.methodEndMismatch (String.ofList (lower closing.written.text))
    (String.ofList (lower header.keyword.written.text)) header.name.spelling).onLine s.line]

/-- A mismatch is reported. -/
def Mismatched (reports : List Problem) : Prop := ∃ p ∈ reports, p.category = .structuralMismatch

theorem mismatched_iff {header : MemberHeader} {closing : Spelled} {s : Statement} :
    Mismatched (mismatchReports header closing s) ↔
      uncased closing.written.text ≠ uncased header.keyword.written.text := by
  rw [mismatchReports]
  split_ifs with heq
  · exact ⟨nofun, fun hne => absurd heq hne⟩
  · exact ⟨fun _ => heq, fun _ => ⟨_, List.mem_singleton_self _, rfl⟩⟩

/-- How the reports for the end of a method come from the words that it and the header are written with. -/
structure ReportsEnd (header : MemberHeader) (closing : Spelled) (s : Statement) (reports : List Problem) : Prop where
  reports_eq : reports = mismatchReports header closing s
  of_other_keyword : closing.keyword ≠ header.keyword.keyword → Mismatched reports
  iff_of_ascii : (∀ c ∈ closing.written.text ++ header.keyword.written.text, c.toNat < 128) →
    (Mismatched reports ↔ closing.keyword ≠ header.keyword.keyword)

theorem reportsEnd_of_eq {header : MemberHeader} {closing : Spelled} {s : Statement} {reports : List Problem}
    (hheader : SpellsMethod header.keyword) (hclosing : SpellsMethod closing)
    (h : reports = mismatchReports header closing s) : ReportsEnd header closing s reports := by
  refine ⟨h, fun hother => ?_, fun hascii => ?_⟩
  · rw [h, mismatched_iff]
    exact fun heq => hother (hclosing.keyword_eq hheader heq)
  · rw [h, mismatched_iff, ne_eq, hclosing.uncased_eq_iff hheader hascii]

/-- Every end of a method that closes one in a document: it is reported exactly if its keyword and that of the header
differ by more than the case of ASCII letters. The method is complete with what its header says in any case, and no
member is open afterwards. -/
theorem method_closed (settings : Settings) (text : String) {n i : Nat}
    (h : MemberClosed settings (statements text.toList) n (.method, i)) :
    ∃ s₀ header s closing x, (statements text.toList)[i]? = some s₀ ∧
      MemberHeader.read? .method s₀.cursor = some header ∧ (statements text.toList)[n]? = some s ∧
      readEnd? MemberKind.method.keywords s.cursor = some closing ∧
      ReportsEnd header closing s (reportsAt settings (statements text.toList) n) ∧
      (readingAt settings (statements text.toList) (n + 1)).symbols.toList =
        (readingAt settings (statements text.toList) n).symbols.toList ++ x :: (headerParameters s₀ header).value ∧
      x.kind = .method ∧ x.name = header.name.spelling ∧
      x.declaredType = String.ofList (capitalize header.keyword.written.text) ∧
      (readingAt settings (statements text.toList) (n + 1)).blocks.openMember = none := by
  obtain ⟨hopen, s, hs, hread⟩ := h
  obtain ⟨m, hm, hmade⟩ := (inStep settings (statements text.toList) n).openMember.of_isOpen hopen
  obtain ⟨s₀, header, hs₀, hheader, rfl⟩ := hmade
  obtain ⟨closing, hclosing⟩ := Option.isSome_iff_exists.1 hread
  have hmem : s ∈ statements text.toList := List.mem_of_getElem? hs
  have hconsume := consume_methodClose (placed_of_mem hmem) (begins_lt_ends_of_mem hmem) hclosing (memberOf_eq_some hm)
  have hstep := step_of_some (congrArg Noted.value hconsume)
  have hspelled := MemberHeader.read?_spellsMethod hheader
  have hspelled' := readEnd?_spellsMethod hclosing
  refine ⟨s₀, header, s, closing, closedMember (readingAt settings (statements text.toList) n).blocks s
    (openMember .method s₀ header).value, hs₀, hheader, hs, hclosing, reportsEnd_of_eq hspelled hspelled' ?_, ?_, rfl, rfl,
    rfl, ?_⟩
  · rw [reportsAt_eq hs, hconsume, mismatchReports]
    simp only [openMember, Noted.value_bind, Noted.value_pure, String.ofList_inj, hspelled'.lower_eq_iff hspelled]
  · rw [symbols_succ hs, hstep]
    rfl
  · rw [blocks_succ hs, hstep]

theorem method_closed_otherwise :
    ∃ header closing s, closing.keyword = .subKw ∧ header.keyword.keyword = .functionKw ∧
      ReportsEnd header closing s (reportsAt {} (statements "Function f\nEnd Sub".toList) 1) ∧
      (readingAt {} (statements "Function f\nEnd Sub".toList) 2).blocks.openMember = none := by
  have hclosed : MemberClosed {} (statements "Function f\nEnd Sub".toList) 1 (.method, 0) := by
    refine ⟨⟨by decide +kernel, by decide, fun k hk hlt => by omega⟩, ?_⟩
    exact ⟨⟨0, "End Sub".toList, [⟨1, 0, 7, 0⟩], 0⟩, by decide +kernel, by decide +kernel⟩
  obtain ⟨s₀, header, s, closing, x, hs₀, hheader, hs, hclosing, hend, -, -, -, -, hfree⟩ :=
    method_closed {} "Function f\nEnd Sub" hclosed
  refine ⟨header, closing, s, ?_, ?_, hend, hfree⟩
  · have hread : ((statements "Function f\nEnd Sub".toList)[1]?.bind fun s =>
        (readEnd? MemberKind.method.keywords s.cursor).map Spelled.keyword) = some .subKw := by decide +kernel
    rw [hs, Option.bind_some, hclosing] at hread
    exact Option.some.inj hread
  · have hread : ((statements "Function f\nEnd Sub".toList)[0]?.bind fun s =>
        (MemberHeader.read? .method s.cursor).map fun h => h.keyword.keyword) = some .functionKw := by decide +kernel
    rw [hs₀, Option.bind_some, hheader] at hread
    exact Option.some.inj hread

/-- A header with a long s opens a sub, and the end of a sub that closes it is reported all the same. -/
theorem long_s_reported :
    ((statements "ſub f\nEnd Sub".toList)[0]?.bind fun s =>
        (MemberHeader.read? .method s.cursor).map fun h => h.keyword.keyword) = some .subKw ∧
      ((statements "ſub f\nEnd Sub".toList)[1]?.bind fun s =>
        (readEnd? MemberKind.method.keywords s.cursor).map Spelled.keyword) = some .subKw ∧
      (parse {} "ſub f\nEnd Sub").problems = [(Finding.methodEndMismatch "sub" "ſub" "f").onLine 1] := by
  decide +kernel

end Outline

end VbOutline
