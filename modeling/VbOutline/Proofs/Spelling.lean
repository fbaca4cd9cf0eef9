import VbOutline.Proofs.BlockForms

/-! What is written is read. Where a text has a keyword, a gap or a name in front, the reader for it takes just that:
the converse of what readers take. Keywords are told apart at once, as none of them is the beginning of another. -/

namespace VbOutline.Grammar

open Text

/-! ### Pieces of a text -/

/-- A run of blanks, which may be empty. -/
def Blanks (t : List Char) : Prop := ∀ x ∈ t, isBlank x = true

/-- A text that does not start with a blank. -/
def Inked (t : List Char) : Prop := ∀ x ∈ t.head?, isBlank x = false

/-- A text that is a name of an alphabet. -/
structure IsName (alphabet : Alphabet) (t : List Char) : Prop where
  head : ∃ x tail, t = x :: tail ∧ alphabet.isNameStart x = true
  isNameChar : ∀ x ∈ t, alphabet.isNameChar x = true

/-- One of some keywords, in any letter case, with the blanks that have to follow it. -/
structure WordForm (ks : List Keyword) (start : Nat) (sp : Spelled) (t : List Char) : Prop where
  keyword_mem : sp.keyword ∈ ks
  start_eq : sp.written.start = start
  letters_eq : folded sp.written.text = sp.keyword.letters
  gap : ∃ gap, gap ≠ [] ∧ Blanks gap ∧ t = sp.written.text ++ gap

/-- No keyword begins another. -/
theorem Keyword.eq_of_prefix {k k' : Keyword} (h : k.letters <+: k'.letters) : k = k' := by
  revert h
  cases k <;> cases k' <;> decide

theorem inked_cons {x : Char} {t : List Char} (h : isBlank x = false) : Inked (x :: t) := by
  intro y hy
  rw [← Option.some.inj hy]
  exact h

/-- A name starts with a character that is not blank. -/
theorem IsName.inked {alphabet : Alphabet} {t u : List Char} (h : IsName alphabet t) : Inked (t ++ u) := by
  obtain ⟨x, tail, rfl, -⟩ := h.head
  exact inked_cons (not_isBlank_of_isNameChar (h.isNameChar x List.mem_cons_self))

theorem WordForm.inked {ks : List Keyword} {start : Nat} {sp : Spelled} {t u : List Char}
    (h : WordForm ks start sp t) : Inked (t ++ u) := by
  obtain ⟨gap, -, -, rfl⟩ := h.gap
  have hletters := h.letters_eq
  cases htext : sp.written.text with
  | nil =>
      rw [htext] at hletters
      exact absurd hletters.symm (letters_ne_nil _)
  | cons x tail => exact inked_cons (not_isBlank_of_folded hletters x (htext ▸ List.mem_cons_self))

/-- Trimming takes exactly the blanks behind a text that does not end in one. -/
theorem trimEnd_append {t u : List Char} (ht : ∀ x ∈ t.getLast?, isBlank x = false) (hu : Blanks u) :
    trimEnd (t ++ u) = t := by
  have hblank : ∀ x ∈ u.reverse, isBlank x = true := fun x hx => hu x (List.mem_reverse.1 hx)
  have hkept : t.reverse.dropWhile isBlank = t.reverse := by
    cases hrev : t.reverse with
    | nil => rfl
    | cons x rest =>
        have hx := ht x (by rw [← List.head?_reverse, hrev]; rfl)
        rw [List.dropWhile_cons_of_neg (by simp [hx])]
  rw [trimEnd, List.reverse_append, List.dropWhile_append_of_pos hblank, hkept, List.reverse_reverse]

namespace Cursor

variable {c d e : Cursor} {t u : List Char}

theorem Reads.eq_advance (h : c.Reads t d) : d = c.advance t.length := by
  obtain ⟨offset, rest⟩ := d
  rw [advance, h.rest_eq, List.drop_left, ← h.offset_eq]

/-- A reading of two texts is a reading of the one and then of the other. -/
theorem Reads.split (h : c.Reads (t ++ u) e) : ∃ d, c.Reads t d ∧ d.Reads u e := by
  refine ⟨⟨c.offset + t.length, u ++ e.rest⟩, ⟨?_, rfl⟩, ⟨rfl, ?_⟩⟩
  · rw [h.rest_eq, List.append_assoc]
  · rw [h.offset_eq, List.length_append, Nat.add_assoc]

theorem Reads.inked (h : c.Reads t d) (ht : Inked (t ++ d.rest)) : Inked c.rest := h.rest_eq ▸ ht

/-! ### Blanks and single characters -/

/-- Skipping stops where the blanks end. -/
theorem skipBlanks_eq (h : c.Reads t d) (ht : Blanks t) (hd : Inked d.rest) : c.skipBlanks = d := by
  rw [skipBlanks, indent, h.rest_eq, takeWhile_append_stop ht hd, ← h.eq_advance]

theorem skipBlanks_inked (c : Cursor) : Inked c.skipBlanks.rest := by
  intro x hx
  rw [skipBlanks_rest] at hx
  have hhead := List.head?_dropWhile_not isBlank c.rest
  rw [hx] at hhead
  simpa using hhead

theorem skipBlanks_form (c : Cursor) : ∃ lead, Blanks lead ∧ c.Reads lead c.skipBlanks :=
  ⟨_, fun _ hx => isBlank_of_mem_takeWhile hx, skipBlanks_reads c⟩

theorem skipBlanks_of_blanks (h : Blanks c.rest) : c.skipBlanks.rest = [] := by
  have hread : c.Reads c.rest ⟨c.offset + c.rest.length, []⟩ := ⟨(List.append_nil _).symm, rfl⟩
  rw [skipBlanks_eq hread h nofun]

/-- The margin of a statement is read over. -/
theorem skipBlanks_text (s : Source.Statement) : (Cursor.mk 0 s.text).skipBlanks = s.cursor.skipBlanks := by
  have hmargin : (Cursor.mk 0 s.text).Reads (List.replicate s.margin ' ') s.cursor :=
    ⟨rfl, by rw [List.length_replicate]; exact (Nat.zero_add s.margin).symm⟩
  refine skipBlanks_eq (hmargin.trans (skipBlanks_reads s.cursor)) (fun x hx => ?_) (skipBlanks_inked _)
  rcases List.mem_append.1 hx with hx | hx
  · rw [List.eq_of_mem_replicate hx]
    decide
  · exact isBlank_of_mem_takeWhile hx

theorem blanks?_eq (h : c.Reads t d) (ht : Blanks t) (hne : t ≠ []) (hd : Inked d.rest) : c.blanks? = some d := by
  have hindent : indent c.rest ≠ 0 := by
    rw [indent, h.rest_eq, takeWhile_append_stop ht hd]
    exact fun hzero => hne (List.length_eq_zero_iff.1 hzero)
  rw [blanks?, if_neg hindent, skipBlanks_eq h ht hd]

theorem char?_eq {x : Char} (h : c.Reads [x] d) : c.char? x = some d := by
  have hhead : c.rest.head? = some x := by rw [h.rest_eq]; rfl
  rw [char?, if_pos hhead, h.eq_advance]
  rfl

/-! ### Keywords -/

/-- A keyword that stands there in any spelling is read. -/
theorem keyword?_eq {sp : Spelled} (h : c.ReadsKeyword sp d) : c.keyword? sp.keyword = some (sp, d) := by
  have hlength : sp.keyword.letters.length = sp.written.text.length := by
    rw [← h.letters_eq, folded, List.length_map]
  have htake : c.rest.take sp.keyword.letters.length = sp.written.text := by
    rw [hlength, h.reads.rest_eq, List.take_left]
  have hsame : Spelled.mk sp.keyword ⟨c.offset, sp.written.text⟩ = sp := by rw [← h.start_eq]
  simp only [keyword?]
  rw [htake, if_pos h.letters_eq, hlength, ← h.reads.eq_advance, hsame]

/-- Two keywords that stand at one place are the same. -/
theorem ReadsKeyword.keyword_eq {sp sp' : Spelled} (h : c.ReadsKeyword sp d) (h' : c.ReadsKeyword sp' e) :
    sp.keyword = sp'.keyword := by
  have hfront : ∀ {sp : Spelled} {d : Cursor}, c.ReadsKeyword sp d → sp.keyword.letters <+: folded c.rest := by
    intro sp d h
    rw [← h.letters_eq, h.reads.rest_eq, folded, folded, List.map_append]
    exact List.prefix_append _ _
  rcases List.prefix_or_prefix_of_prefix (hfront h) (hfront h') with hprefix | hprefix
  · exact Keyword.eq_of_prefix hprefix
  · exact (Keyword.eq_of_prefix hprefix).symm

/-- Among several keywords the one that stands there is read: no other begins it. -/
theorem oneOf?_eq {ks : List Keyword} {sp : Spelled} (hmem : sp.keyword ∈ ks) (h : c.ReadsKeyword sp d) :
    c.oneOf? ks = some (sp, d) := by
  induction ks with
  | nil => cases hmem
  | cons k ks ih =>
      rw [oneOf?, List.findSome?_cons]
      cases hk : c.keyword? k with
      | none =>
          have hother : sp.keyword ≠ k := by
            rintro rfl
            rw [keyword?_eq h] at hk
            cases hk
          exact ih ((List.mem_cons.1 hmem).resolve_left hother)
      | some found =>
          -- No other keyword can stand here, so the first that is found is the one that is written.
          obtain ⟨hkeyword, hread⟩ := keyword?_reads hk
          have hsame : k = sp.keyword := hkeyword.symm.trans (hread.keyword_eq h)
          rw [hsame, keyword?_eq h] at hk
          exact hk.symm

/-- What reads a word has read its form. -/
theorem word?_form {ks : List Keyword} {sp : Spelled} (h : c.word? ks = some (sp, e)) :
    ∃ t, WordForm ks c.offset sp t ∧ c.Reads t e := by
  obtain ⟨hmem, d, hread, hblanks⟩ := word?_reads h
  obtain ⟨gap, hne, hgap, hreads⟩ := blanks?_reads hblanks
  exact ⟨_, ⟨hmem, hread.start_eq, hread.letters_eq, gap, hne, hgap, rfl⟩, hread.reads.trans hreads⟩

/-- And a word of that form is read. -/
theorem word?_eq {ks : List Keyword} {sp : Spelled} (hform : WordForm ks c.offset sp t) (h : c.Reads t e)
    (he : Inked e.rest) : c.word? ks = some (sp, e) := by
  obtain ⟨gap, hne, hgap, rfl⟩ := hform.gap
  obtain ⟨d, hword, hread⟩ := h.split
  have hkeyword : c.ReadsKeyword sp d := ⟨hform.start_eq, hform.letters_eq, hword⟩
  rw [word?, oneOf?_eq hform.keyword_mem hkeyword]
  simp only [Option.bind_eq_bind, Option.bind_some, blanks?_eq hread hgap hne he]
  rfl

/-! ### Names -/

theorem ReadsName.isName {alphabet : Alphabet} {name : Lexeme} (h : c.ReadsName alphabet name d) :
    IsName alphabet name.text :=
  ⟨h.head_isNameStart, h.isNameChar⟩

/-- A name is read to its end where no name character follows. -/
theorem name?_eq {alphabet : Alphabet} (hname : IsName alphabet t) (h : c.Reads t d)
    (hd : ∀ x ∈ d.rest.head?, alphabet.isNameChar x = false) : c.name? alphabet = some (⟨c.offset, t⟩, d) := by
  obtain ⟨x, tail, rfl, hstart⟩ := hname.head
  have htail : (tail ++ d.rest).takeWhile alphabet.isNameChar = tail :=
    takeWhile_append_stop (fun y hy => hname.isNameChar y (List.mem_cons_of_mem x hy)) hd
  rw [name?, h.rest_eq, List.cons_append]
  dsimp only
  rw [if_pos hstart, htail, ← h.eq_advance]

end Cursor

end VbOutline.Grammar
