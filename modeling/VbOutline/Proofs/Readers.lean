import VbOutline.Grammar.Declaration
import VbOutline.Proofs.Lexemes

/-! What readers take from the front of a text. Each moves its cursor over the characters it takes and
over nothing else, so keywords and names are lexemes of the text, and neither holds a blank. -/

namespace VbOutline.Grammar

open Text

/-! ### Blanks, letters and names -/

/-- The blank characters one by one. -/
def blankChars : List Char :=
  ['\u0009', '\u000A', '\u000B', '\u000C', '\u000D', '\u001C', '\u001D', '\u001E', '\u001F', '\u0020',
    '\u0085', '\u00A0', '\u1680', '\u2000', '\u2001', '\u2002', '\u2003', '\u2004', '\u2005', '\u2006',
    '\u2007', '\u2008', '\u2009', '\u200A', '\u2028', '\u2029', '\u202F', '\u205F', '\u3000']

theorem mem_of_toNat_mem {c : Char} {l : List Char} (h : c.toNat ∈ l.map Char.toNat) : c ∈ l := by
  obtain ⟨d, hd, heq⟩ := List.mem_map.1 h
  have hcd : d = c := by
    rw [← Char.ofNat_toNat d, heq, Char.ofNat_toNat]
  exact hcd ▸ hd

/-- The blanks are finitely many, so facts about them can be decided. -/
theorem mem_blankChars {c : Char} (h : isBlank c = true) : c ∈ blankChars := by
  apply mem_of_toNat_mem
  simp only [isBlank, Bool.or_eq_true, Bool.and_eq_true, decide_eq_true_eq, beq_iff_eq] at h
  simp [blankChars]
  omega

/-- Folding leaves blanks alone. -/
theorem fold_of_isBlank {c : Char} (h : isBlank c = true) : fold c = c := by
  have hall : blankChars.all (fun d => fold d == d) = true := by decide
  exact eq_of_beq (List.all_eq_true.1 hall c (mem_blankChars h))

/-- Blanks and name characters are apart in both alphabets. -/
theorem not_isBlank_of_isNameChar {alphabet : Alphabet} {c : Char} (h : alphabet.isNameChar c = true) :
    isBlank c = false := by
  have hall : blankChars.all (fun d => !alphabet.isNameChar d) = true := by
    cases alphabet <;> decide
  cases hb : isBlank c with
  | false => rfl
  | true =>
      have hc := List.all_eq_true.1 hall c (mem_blankChars hb)
      rw [h] at hc
      cases hc

theorem isNameChar_of_isBlank {alphabet : Alphabet} {c : Char} (h : isBlank c = true) :
    alphabet.isNameChar c = false := by
  cases hchar : alphabet.isNameChar c with
  | false => rfl
  | true =>
      rw [not_isBlank_of_isNameChar hchar] at h
      cases h

theorem isNameChar_of_isNameStart {alphabet : Alphabet} {c : Char} (h : alphabet.isNameStart c = true) :
    alphabet.isNameChar c = true := by
  simp only [Alphabet.isNameStart, Alphabet.isNameChar, Char.isAlphanum, Bool.or_eq_true] at h ⊢
  rcases h with h | h
  · exact Or.inl (Or.inl h)
  · exact Or.inr h

theorem letters_ne_nil (k : Keyword) : k.letters ≠ [] := by
  cases k <;> simp [Keyword.letters]

/-- No spelling of a keyword holds a blank. -/
theorem not_isBlank_of_folded {written : List Char} {k : Keyword} (h : folded written = k.letters) :
    ∀ c ∈ written, isBlank c = false := by
  intro c hc
  have hletter : fold c ∈ k.letters := h ▸ List.mem_map_of_mem hc
  have hall : k.letters.all (fun d => !isBlank d) = true := by cases k <;> decide
  cases hb : isBlank c with
  | false => rfl
  | true =>
      rw [fold_of_isBlank hb] at hletter
      have hc := List.all_eq_true.1 hall c hletter
      rw [hb] at hc
      cases hc

/-- Taking characters of a class stops at the first that is not of it. -/
theorem takeWhile_append_stop {p : Char → Bool} {t u : List Char} (ht : ∀ x ∈ t, p x = true)
    (hu : ∀ x ∈ u.head?, p x = false) : (t ++ u).takeWhile p = t := by
  have hstop : u.takeWhile p = [] := by
    cases u with
    | nil => rfl
    | cons x u => rw [List.takeWhile_cons_of_neg (by simp [hu x rfl])]
  rw [List.takeWhile_append_of_pos ht, hstop, List.append_nil]

/-! ### Cursors -/

namespace Cursor

variable {c d e : Cursor} {t u text : List Char}

/-- Reading takes some characters from the front and moves on behind them. -/
structure Reads (c : Cursor) (taken : List Char) (next : Cursor) : Prop where
  rest_eq : c.rest = taken ++ next.rest
  offset_eq : next.offset = c.offset + taken.length

/-- A cursor stands in a text: what is unread is a part of it. -/
def In (c : Cursor) (text : List Char) : Prop := (Lexeme.mk c.offset c.rest).In text

theorem Reads.refl (c : Cursor) : c.Reads [] c := ⟨rfl, rfl⟩

/-- Two readings, one after the other, read the two texts joined. -/
theorem Reads.trans (h : c.Reads t d) (h' : d.Reads u e) : c.Reads (t ++ u) e := by
  refine ⟨?_, ?_⟩
  · rw [h.rest_eq, h'.rest_eq, List.append_assoc]
  · rw [h'.offset_eq, h.offset_eq, List.length_append, Nat.add_assoc]

/-- A cursor that stands in a text still stands in it after a reading. -/
theorem In.reads (h : c.In text) (hr : c.Reads t d) : d.In text := by
  obtain ⟨before, after, rfl, hlen⟩ := h
  refine ⟨before ++ t, after, ?_, ?_⟩
  · simp [hr.rest_eq]
  · rw [List.length_append, hlen, hr.offset_eq]

/-- What was read is a lexeme of the text. -/
theorem In.lexeme (h : c.In text) (hr : c.Reads t d) : (Lexeme.mk c.offset t).In text := by
  obtain ⟨before, after, rfl, hlen⟩ := h
  exact ⟨before, d.rest ++ after, by simp [hr.rest_eq], hlen⟩

theorem advance_reads {n : Nat} (h : n ≤ c.rest.length) : c.Reads (c.rest.take n) (c.advance n) :=
  ⟨(List.take_append_drop n c.rest).symm, by rw [advance, List.length_take, Nat.min_eq_left h]⟩

theorem isBlank_of_mem_takeWhile {x : Char} (h : x ∈ t.takeWhile isBlank) : isBlank x = true :=
  List.all_eq_true.1 List.all_takeWhile x h

theorem skipBlanks_reads (c : Cursor) : c.Reads (c.rest.takeWhile isBlank) c.skipBlanks := by
  have hprefix : c.rest.takeWhile isBlank <+: c.rest := List.takeWhile_prefix _
  have hread := advance_reads (c := c) (n := indent c.rest) hprefix.length_le
  rwa [indent, ← List.prefix_iff_eq_take.1 hprefix] at hread

theorem skipBlanks_rest (c : Cursor) : c.skipBlanks.rest = c.rest.dropWhile isBlank := by
  have hcut : c.rest.takeWhile isBlank ++ c.rest.dropWhile isBlank = c.rest := List.takeWhile_append_dropWhile
  exact (List.append_cancel_left (hcut.trans (skipBlanks_reads c).rest_eq)).symm

/-- The required blanks are read as a run that is not empty. -/
theorem blanks?_reads (h : c.blanks? = some d) : ∃ t, t ≠ [] ∧ (∀ x ∈ t, isBlank x = true) ∧ c.Reads t d := by
  rw [blanks?] at h
  split at h
  · cases h
  · next hpos =>
      cases h
      refine ⟨c.rest.takeWhile isBlank, ?_, ?_, skipBlanks_reads c⟩
      · intro hnil
        exact hpos (by rw [indent, hnil]; rfl)
      · exact fun x hx => isBlank_of_mem_takeWhile hx

theorem char?_reads {x : Char} (h : c.char? x = some d) : c.Reads [x] d := by
  rw [char?] at h
  split at h
  · next hhead =>
      cases h
      obtain ⟨tail, hrest⟩ := List.head?_eq_some_iff.1 hhead
      exact ⟨by simp [advance, hrest], rfl⟩
  · cases h

/-- A keyword was read: its letters, in any case, stand in front. -/
structure ReadsKeyword (c : Cursor) (spelled : Spelled) (next : Cursor) : Prop where
  start_eq : spelled.written.start = c.offset
  letters_eq : folded spelled.written.text = spelled.keyword.letters
  reads : c.Reads spelled.written.text next

theorem keyword?_reads {k : Keyword} {sp : Spelled} (h : c.keyword? k = some (sp, d)) :
    sp.keyword = k ∧ c.ReadsKeyword sp d := by
  simp only [keyword?] at h
  split at h
  · next hletters =>
      cases h
      refine ⟨rfl, rfl, hletters, advance_reads ?_⟩
      have hlen := congrArg List.length hletters
      simp only [folded, List.length_map, List.length_take] at hlen
      omega
  · cases h

theorem oneOf?_reads {ks : List Keyword} {sp : Spelled} (h : c.oneOf? ks = some (sp, d)) :
    sp.keyword ∈ ks ∧ c.ReadsKeyword sp d := by
  obtain ⟨k, hk, hread⟩ := List.exists_of_findSome?_eq_some h
  obtain ⟨hkeyword, hread⟩ := keyword?_reads hread
  exact ⟨hkeyword ▸ hk, hread⟩

/-- A word is a keyword with blanks behind it. -/
theorem word?_reads {ks : List Keyword} {sp : Spelled} (h : c.word? ks = some (sp, e)) :
    sp.keyword ∈ ks ∧ ∃ d, c.ReadsKeyword sp d ∧ d.blanks? = some e := by
  simp only [word?, Option.bind_eq_bind, Option.bind_eq_some_iff, Prod.exists] at h
  obtain ⟨sp', d, hone, e', hblanks, hpure⟩ := h
  cases hpure
  obtain ⟨hmem, hread⟩ := oneOf?_reads hone
  exact ⟨hmem, d, hread, hblanks⟩

/-- A name was read: the longest that starts here. -/
structure ReadsName (c : Cursor) (alphabet : Alphabet) (name : Lexeme) (next : Cursor) : Prop where
  start_eq : name.start = c.offset
  reads : c.Reads name.text next
  head_isNameStart : ∃ x tail, name.text = x :: tail ∧ alphabet.isNameStart x = true
  isNameChar : ∀ x ∈ name.text, alphabet.isNameChar x = true
  longest : ∀ x, next.rest.head? = some x → alphabet.isNameChar x = false

/-- A name is read whole: what follows it is no name character. -/
theorem name?_reads {alphabet : Alphabet} {name : Lexeme} (h : c.name? alphabet = some (name, d)) :
    c.ReadsName alphabet name d := by
  rw [name?] at h
  split at h
  · cases h
  · next first rest hrest =>
      split at h
      · next hstart =>
          cases h
          have hcut : rest.takeWhile alphabet.isNameChar ++ rest.dropWhile alphabet.isNameChar = rest :=
            List.takeWhile_append_dropWhile
          have hdrop : rest.drop (rest.takeWhile alphabet.isNameChar).length =
              rest.dropWhile alphabet.isNameChar := by
            have hdropped := congrArg (List.drop (rest.takeWhile alphabet.isNameChar).length) hcut
            rwa [List.drop_left, eq_comm] at hdropped
          have hnext : c.rest.drop ((rest.takeWhile alphabet.isNameChar).length + 1) =
              rest.dropWhile alphabet.isNameChar := by
            rw [hrest, List.drop_succ_cons, hdrop]
          refine ⟨rfl, ⟨?_, rfl⟩, ⟨first, _, rfl, hstart⟩, ?_, ?_⟩
          · show c.rest = first :: rest.takeWhile alphabet.isNameChar ++
              c.rest.drop ((rest.takeWhile alphabet.isNameChar).length + 1)
            rw [hnext, List.cons_append, hcut, hrest]
          · intro x hx
            rcases List.mem_cons.1 hx with rfl | hx
            · exact isNameChar_of_isNameStart hstart
            · exact List.all_eq_true.1 List.all_takeWhile x hx
          · intro x hx
            simp only [advance, List.length_cons, hnext] at hx
            have hhead := List.head?_dropWhile_not alphabet.isNameChar rest
            rw [hx] at hhead
            simpa using hhead
      · cases h

theorem ReadsKeyword.isWord {sp : Spelled} (hc : c.In text) (h : c.ReadsKeyword sp d) :
    sp.written.IsWord text := by
  refine ⟨?_, ?_, not_isBlank_of_folded h.letters_eq⟩
  · have hin := hc.lexeme h.reads
    rwa [← h.start_eq] at hin
  · intro hnil
    have hletters := h.letters_eq
    rw [hnil] at hletters
    exact letters_ne_nil _ hletters.symm

theorem ReadsName.isWord {alphabet : Alphabet} {name : Lexeme} (hc : c.In text)
    (h : c.ReadsName alphabet name d) : name.IsWord text := by
  refine ⟨?_, ?_, fun x hx => not_isBlank_of_isNameChar (h.isNameChar x hx)⟩
  · have hin := hc.lexeme h.reads
    rwa [← h.start_eq] at hin
  · obtain ⟨x, tail, htext, -⟩ := h.head_isNameStart
    rw [htext]
    simp

end Cursor

end VbOutline.Grammar
