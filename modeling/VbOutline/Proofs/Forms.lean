import Mathlib.Data.List.Chain
import VbOutline.Proofs.Readers

/-! Where the parts of a statement stand. Whatever form a statement has, the names it declares are
words of its text, a parameter list comes after the name of its member, and the items of a list of
variables follow each other with a character between any two. -/

namespace VbOutline.Grammar

open Text

variable {c d : Cursor} {text : List Char}

/-! ### Headers -/

theorem Cursor.optionalWord_in (hc : c.In text) (keywords : List Keyword) :
    (c.optionalWord keywords).2.In text := by
  rw [optionalWord]
  split
  · next spelled next h =>
      obtain ⟨-, d, hkeyword, hblanks⟩ := word?_reads h
      obtain ⟨t, -, -, hread⟩ := blanks?_reads hblanks
      exact (hc.reads hkeyword.reads).reads hread
  · exact hc

theorem Cursor.memberVisibility_in (hc : c.In text) : c.memberVisibility.2.In text := by
  have hnext := optionalWord_in hc visibilities
  rw [memberVisibility]
  split
  · next visibility next h =>
      rw [h] at hnext
      exact optionalWord_in hnext [.defaultKw]
  · next next h =>
      rw [h] at hnext
      exact hnext

theorem Cursor.word?_in {keywords : List Keyword} {spelled : Spelled} (hc : c.In text)
    (h : c.word? keywords = some (spelled, d)) : d.In text := by
  obtain ⟨-, e, hkeyword, hblanks⟩ := word?_reads h
  obtain ⟨t, -, -, hread⟩ := blanks?_reads hblanks
  exact (hc.reads hkeyword.reads).reads hread

theorem Cursor.memberKeyword?_in {kind : MemberKind} {spelled : Spelled} (hc : c.In text)
    (h : c.memberKeyword? kind = some (spelled, d)) : d.In text := by
  cases kind with
  | method => exact word?_in hc h
  | property =>
      simp only [memberKeyword?, Option.bind_eq_bind, Option.bind_eq_some_iff, Prod.exists] at h
      obtain ⟨_, e, hproperty, hkeyword⟩ := h
      exact word?_in (word?_in hc hproperty) hkeyword

/-- A parameter list stands in the text, behind an opening parenthesis. -/
theorem Cursor.parameters?_in {list : Lexeme} (hc : c.In text) (h : c.parameters? = some (some list)) :
    list.In text ∧ c.offset < list.start := by
  rw [parameters?] at h
  split at h
  · cases h
  · obtain ⟨list', h, heq⟩ := Option.map_eq_some_iff.1 h
    cases heq
    simp only [parenthesized?, Option.bind_eq_bind, Option.bind_eq_some_iff] at h
    obtain ⟨inner, hopen, h⟩ := h
    split at h
    · cases h
      have hread := (skipBlanks_reads c).trans (char?_reads hopen)
      obtain ⟨before, after, htext, hlen⟩ := hc.reads hread
      obtain ⟨tail, htrim, -⟩ := exists_trimEnd_append inner.rest
      obtain ⟨back, hback⟩ := List.dropLast_prefix (trimEnd inner.rest)
      refine ⟨⟨before, back ++ tail ++ after, ?_, hlen⟩, ?_⟩
      · rw [htext]
        conv_lhs => rw [htrim, ← hback]
        simp
      · rw [hread.offset_eq, List.length_append]
        simp
    · cases h

/-- The name of a header is a word, and its list stands behind it. -/
theorem MemberHeader.read?_words {kind : MemberKind} {h : MemberHeader} (hc : c.In text)
    (hread : MemberHeader.read? kind c = some h) :
    h.name.IsWord text ∧ ∀ list, h.parameters = some list → list.In text ∧ h.name.stop < list.start := by
  simp only [MemberHeader.read?, Option.bind_eq_bind, Option.bind_eq_some_iff, Prod.exists] at hread
  obtain ⟨keyword, d, hkeyword, name, e, hname, parameters, hparameters, heq⟩ := hread
  cases heq
  have hd := Cursor.memberKeyword?_in (Cursor.memberVisibility_in (hc.reads (Cursor.skipBlanks_reads c)))
    hkeyword
  have hn := Cursor.name?_reads hname
  refine ⟨hn.isWord hd, ?_⟩
  rintro list rfl
  obtain ⟨hin, hlt⟩ := Cursor.parameters?_in (hd.reads hn.reads) hparameters
  refine ⟨hin, ?_⟩
  rw [Lexeme.stop, hn.start_eq, ← hn.reads.offset_eq]
  exact hlt

theorem readClassHeader?_word {name : Lexeme} (hc : c.In text) (h : readClassHeader? c = some name) :
    name.IsWord text := by
  simp only [readClassHeader?, Option.bind_eq_bind, Option.bind_eq_some_iff, Prod.exists] at h
  obtain ⟨_, d, hkeyword, name', e, hname, h⟩ := h
  split at h
  · cases h
    exact (Cursor.name?_reads hname).isWord (Cursor.word?_in (hc.reads (Cursor.skipBlanks_reads c)) hkeyword)
  · cases h

/-! ### Fields and constants -/

/-- A field has its visibility before its name, both words. -/
theorem FieldDeclaration.read?_words {f : FieldDeclaration} (hc : c.In text)
    (h : FieldDeclaration.read? c = some f) :
    f.visibility.IsWord text ∧ f.name.IsWord text ∧ f.visibility.stop < f.name.start := by
  simp only [FieldDeclaration.read?, Option.bind_eq_bind, Option.bind_eq_some_iff, Prod.exists] at h
  obtain ⟨visibility, d, hvisibility, name, e, hname, h⟩ := h
  split at h
  · cases h
    have hc' := hc.reads (Cursor.skipBlanks_reads c)
    obtain ⟨-, d', hkeyword, hblanks⟩ := Cursor.word?_reads hvisibility
    obtain ⟨t, hne, -, hread⟩ := Cursor.blanks?_reads hblanks
    have hn := Cursor.name?_reads hname
    refine ⟨hkeyword.isWord hc', hn.isWord (Cursor.word?_in hc' hvisibility), ?_⟩
    have hpos := List.length_pos_iff.2 hne
    rw [Lexeme.stop, hkeyword.start_eq, hn.start_eq, hread.offset_eq, hkeyword.reads.offset_eq]
    dsimp only
    omega
  · cases h

theorem ConstDeclaration.read?_word {k : ConstDeclaration} (hc : c.In text)
    (h : ConstDeclaration.read? c = some k) : k.name.IsWord text := by
  simp only [ConstDeclaration.read?, Option.bind_eq_bind, Option.bind_eq_some_iff, Prod.exists] at h
  obtain ⟨_, d, hkeyword, name, e, hname, value, -, h⟩ := h
  split at h
  · cases h
    have hv := Cursor.optionalWord_in (hc.reads (Cursor.skipBlanks_reads c)) visibilities
    exact (Cursor.name?_reads hname).isWord (Cursor.word?_in hv hkeyword)
  · cases h

/-! ### Lists of variables -/

/-- Array bounds as they are read: nothing, or a text in parentheses after blanks that holds no other parentheses. -/
def IsBounds (bounds : List Char) : Prop :=
  bounds = [] ∨ ∃ blanks inner, bounds = blanks ++ '(' :: (inner ++ [')']) ∧
    (∀ x ∈ blanks, isBlank x = true) ∧ ∀ x ∈ inner, x ≠ '(' ∧ x ≠ ')'

/-- Moves over whatever stands before the next parenthesis. -/
theorem Cursor.bounded_reads (c : Cursor) :
    ∃ inner, (∀ x ∈ inner, x ≠ '(' ∧ x ≠ ')') ∧
      c.Reads inner (c.advance (c.rest.takeWhile fun x => x ≠ '(' && x ≠ ')').length) := by
  have hprefix := List.takeWhile_prefix (l := c.rest) fun x => decide (x ≠ '(') && decide (x ≠ ')')
  have hread := advance_reads hprefix.length_le
  rw [← List.prefix_iff_eq_take.1 hprefix] at hread
  refine ⟨_, fun x hx => ?_, hread⟩
  have hx' := List.all_eq_true.1 List.all_takeWhile x hx
  simpa only [Bool.and_eq_true, decide_eq_true_eq] using hx'

/-- What is skipped behind a name are bounds. -/
theorem Cursor.skipBounds_reads (c : Cursor) : ∃ bounds, IsBounds bounds ∧ c.Reads bounds c.skipBounds := by
  rw [skipBounds]
  split
  · exact ⟨[], Or.inl rfl, .refl c⟩
  · next start hopen =>
      obtain ⟨inner, hinner, hread⟩ := bounded_reads start
      dsimp only
      cases hclose : Cursor.char? ')'
          (start.advance (start.rest.takeWhile fun x => x ≠ '(' && x ≠ ')').length) with
      | none => exact ⟨[], Or.inl rfl, .refl c⟩
      | some last =>
          have h := ((skipBlanks_reads c).trans (char?_reads hopen)).trans
            (hread.trans (char?_reads hclose))
          refine ⟨c.rest.takeWhile isBlank ++ '(' :: (inner ++ [')']), Or.inr ?_, by simpa using h⟩
          exact ⟨_, inner, rfl, fun x hx => isBlank_of_mem_takeWhile hx, hinner⟩

/-- An item was read: a name and then its bounds. -/
theorem Cursor.dimItem?_reads {alphabet : Alphabet} {item : DimItem}
    (h : c.dimItem? alphabet = some (item, d)) :
    ∃ after bounds, c.ReadsName alphabet item.name after ∧ IsBounds bounds ∧ after.Reads bounds d ∧
      item.stop = d.offset := by
  simp only [dimItem?, Option.bind_eq_bind, Option.bind_eq_some_iff, Prod.exists] at h
  obtain ⟨name, after, hname, hpure⟩ := h
  cases hpure
  obtain ⟨bounds, hbounds, hread⟩ := skipBounds_reads after
  exact ⟨after, bounds, name?_reads hname, hbounds, hread, rfl⟩

theorem Cursor.comma?_reads (h : c.comma? = some d) :
    ∃ blanks blanks', (∀ x ∈ blanks, isBlank x = true) ∧ (∀ x ∈ blanks', isBlank x = true) ∧
      c.Reads (blanks ++ ',' :: blanks') d := by
  obtain ⟨after, hcomma, rfl⟩ := Option.map_eq_some_iff.1 h
  have hread := ((skipBlanks_reads c).trans (char?_reads hcomma)).trans (skipBlanks_reads after)
  exact ⟨c.rest.takeWhile isBlank, after.rest.takeWhile isBlank, fun x hx => isBlank_of_mem_takeWhile hx,
    fun x hx => isBlank_of_mem_takeWhile hx, by simpa using hread⟩

/-- No name starts right after a closing parenthesis. -/
def Spaced (t : List Char) : Prop :=
  t.IsChain fun x y => x = ')' → Alphabet.plain.isNameStart y = false

theorem spaced_of_not_mem {t : List Char} (h : ∀ x ∈ t, x ≠ ')') : Spaced t := by
  induction t with
  | nil => exact .nil
  | cons x t ih =>
      rw [Spaced, List.isChain_cons]
      refine ⟨fun y _ hx => absurd hx (h x List.mem_cons_self), ?_⟩
      exact ih fun y hy => h y (List.mem_cons_of_mem x hy)

/-- A text that is spaced goes on spaced where it does not end in a closing parenthesis, or where what
follows does not start with a name. -/
theorem Spaced.append {t u : List Char} (ht : Spaced t) (hu : Spaced u)
    (h : (∀ x ∈ t.getLast?, x ≠ ')') ∨ ∀ y ∈ u.head?, Alphabet.plain.isNameStart y = false) :
    Spaced (t ++ u) := by
  refine List.isChain_append.2 ⟨ht, hu, fun x hx y hy hclose => ?_⟩
  rcases h with h | h
  · exact absurd hclose (h x hx)
  · exact h y hy

theorem isNameStart_of_isBlank {alphabet : Alphabet} {x : Char} (h : isBlank x = true) :
    alphabet.isNameStart x = false := by
  cases hs : alphabet.isNameStart x with
  | false => rfl
  | true =>
      rw [not_isBlank_of_isNameChar (isNameChar_of_isNameStart hs)] at h
      cases h

theorem IsBounds.spaced {bounds : List Char} (h : IsBounds bounds) : Spaced bounds := by
  rcases h with rfl | ⟨blanks, inner, rfl, hblanks, hinner⟩
  · exact .nil
  · have hfront : ∀ x ∈ blanks ++ '(' :: inner, x ≠ ')' := by
      intro x hx
      rcases List.mem_append.1 hx with hx | hx
      · rintro rfl
        exact absurd (hblanks _ hx) (by decide)
      · rcases List.mem_cons.1 hx with rfl | hx
        · decide
        · exact (hinner x hx).2
    have h := (spaced_of_not_mem hfront).append (u := [')']) (.singleton _)
      (Or.inl fun x hx => hfront x (List.mem_of_getLast? hx))
    simpa using h

theorem Cursor.ReadsName.spaced {alphabet : Alphabet} {name : Lexeme} (h : c.ReadsName alphabet name d) :
    ∀ x ∈ name.text, x ≠ ')' := by
  rintro x hx rfl
  have hchar := h.isNameChar _ hx
  cases alphabet <;> exact absurd hchar (by decide)

theorem Cursor.dimItem?_spaced {alphabet : Alphabet} {item : DimItem}
    (h : c.dimItem? alphabet = some (item, d)) : ∃ t, Spaced t ∧ c.Reads t d := by
  obtain ⟨after, bounds, hname, hbounds, hread, -⟩ := dimItem?_reads h
  refine ⟨item.name.text ++ bounds, ?_, hname.reads.trans hread⟩
  exact (spaced_of_not_mem hname.spaced).append hbounds.spaced
    (Or.inl fun x hx => hname.spaced x (List.mem_of_getLast? hx))

/-- The items after the first take a text that is spaced and starts with a blank or a comma. -/
theorem Cursor.dimTail_reads (fuel : Nat) (c : Cursor) :
    ∃ t, Spaced t ∧ (∀ y ∈ t.head?, Alphabet.plain.isNameStart y = false) ∧
      c.Reads t (c.dimTail fuel).2 := by
  induction fuel generalizing c with
  | zero => exact ⟨[], .nil, by simp, .refl c⟩
  | succ fuel ih =>
      rw [dimTail]
      split
      · exact ⟨[], .nil, by simp, .refl c⟩
      · next item next h =>
          obtain ⟨start, hcomma, hitem⟩ := Option.bind_eq_some_iff.1 h
          obtain ⟨blanks, blanks', hb, hb', hread⟩ := comma?_reads hcomma
          obtain ⟨t, ht, hreadItem⟩ := dimItem?_spaced hitem
          obtain ⟨u, hu, huhead, hreadTail⟩ := ih next
          have hcommaText : ∀ x ∈ blanks ++ ',' :: blanks', x ≠ ')' := by
            rintro x hx rfl
            rcases List.mem_append.1 hx with hx | hx
            · exact absurd (hb _ hx) (by decide)
            · rcases List.mem_cons.1 hx with hx | hx
              · exact absurd hx (by decide)
              · exact absurd (hb' _ hx) (by decide)
          refine ⟨(blanks ++ ',' :: blanks') ++ (t ++ u), ?_, ?_, ?_⟩
          · exact (spaced_of_not_mem hcommaText).append (ht.append hu (Or.inr huhead))
              (Or.inl fun x hx => hcommaText x (List.mem_of_getLast? hx))
          · intro y hy
            cases blanks with
            | nil =>
                rw [← Option.some.inj hy]
                decide
            | cons x blanks =>
                rw [← Option.some.inj hy]
                exact isNameStart_of_isBlank (hb x List.mem_cons_self)
          · exact hread.trans (hreadItem.trans hreadTail)

/-- An item stands in a text: its name is a word of it, and it ends at the name or at a parenthesis
behind it. -/
structure DimItem.StandsIn (item : DimItem) (text : List Char) : Prop where
  name_isWord : item.name.IsWord text
  name_stop_le : item.name.stop ≤ item.stop
  last : ∃ x, text[item.stop - 1]? = some x ∧ isBlank x = false

/-- An entry stands in the text from where the cursor was to where it is. -/
theorem Cursor.dimItem?_stands {alphabet : Alphabet} {item : DimItem} (hc : c.In text)
    (h : c.dimItem? alphabet = some (item, d)) :
    item.StandsIn text ∧ item.name.start = c.offset ∧ item.stop = d.offset ∧ d.In text := by
  obtain ⟨after, bounds, hname, hbounds, hread, hstop⟩ := dimItem?_reads h
  have hword := hname.isWord hc
  have hafter := hc.reads hname.reads
  have hnameStop : item.name.stop = after.offset := by
    rw [Lexeme.stop, hname.start_eq, hname.reads.offset_eq]
  refine ⟨⟨hword, ?_, ?_⟩, hname.start_eq, hstop, hafter.reads hread⟩
  · rw [hnameStop, hstop, hread.offset_eq]
    omega
  · rcases hbounds with rfl | ⟨blanks, inner, rfl, -, -⟩
    · have hsame : item.stop = item.name.stop := by
        rw [hnameStop, hstop, hread.offset_eq, List.length_nil, Nat.add_zero]
      rw [hsame]
      exact hword.last
    · refine ⟨')', ?_, by decide⟩
      have hin := hafter.lexeme hread
      have hi : (blanks ++ '(' :: inner).length < (blanks ++ '(' :: (inner ++ [')'])).length := by simp
      have hget := hin.getElem? hi
      have hlast : item.stop - 1 = after.offset + (blanks ++ '(' :: inner).length := by
        rw [hstop, hread.offset_eq]
        simp
        omega
      rw [hlast, hget]
      simp

theorem Spaced.right {t u : List Char} (h : Spaced (t ++ u)) : Spaced u := (List.isChain_append.1 h).2.1

/-- Where an item of a spaced text ends, no other starts. -/
theorem Cursor.dimItem?_next {item : DimItem} (hs : Spaced c.rest)
    (h : c.dimItem? .plain = some (item, d)) :
    Spaced d.rest ∧ ∀ y ∈ d.rest.head?, Alphabet.plain.isNameStart y = false := by
  obtain ⟨after, bounds, hname, hbounds, hread, -⟩ := dimItem?_reads h
  rw [hname.reads.rest_eq] at hs
  have hs := hs.right
  rw [hread.rest_eq] at hs
  refine ⟨hs.right, fun y hy => ?_⟩
  rcases hbounds with rfl | ⟨blanks, inner, rfl, -, -⟩
  · cases hstart : Alphabet.plain.isNameStart y with
    | false => rfl
    | true =>
        have hlongest := hname.longest y (by rw [hread.rest_eq]; exact hy)
        rw [isNameChar_of_isNameStart hstart] at hlongest
        cases hlongest
  · have hlast : (blanks ++ '(' :: (inner ++ [')'])).getLast? = some ')' := by
      rw [← List.cons_append, ← List.append_assoc, List.getLast?_concat]
    exact (List.isChain_append.1 hs).2.2 ')' hlast y hy rfl

theorem scanItems_stand (fuel : Nat) (hc : c.In text) :
    ∀ e ∈ scanItems fuel c, e.StandsIn text ∧ c.offset ≤ e.name.start := by
  induction fuel generalizing c with
  | zero => simp [scanItems]
  | succ fuel ih =>
      intro e he
      rw [scanItems] at he
      split at he
      · next item next h =>
          obtain ⟨hitem, hstart, hstop, hnext⟩ := Cursor.dimItem?_stands hc h
          rcases List.mem_cons.1 he with rfl | he
          · exact ⟨hitem, hstart.ge⟩
          · obtain ⟨hstands, hle⟩ := ih hnext e he
            have hlt := hitem.name_isWord.start_lt_stop
            have hle' := hitem.name_stop_le
            exact ⟨hstands, by omega⟩
      · split at he
        · simp at he
        · next hne =>
            have hpos : 1 ≤ c.rest.length := List.length_pos_iff.2 (by simpa using hne)
            obtain ⟨hstands, hle⟩ := ih (hc.reads (Cursor.advance_reads hpos)) e he
            exact ⟨hstands, (Nat.le_add_right _ 1).trans hle⟩

/-- Where no name starts, the first item comes later. -/
theorem scanItems_lt {fuel : Nat} (hc : c.In text)
    (hhead : ∀ y ∈ c.rest.head?, Alphabet.plain.isNameStart y = false) :
    ∀ e ∈ scanItems fuel c, c.offset < e.name.start := by
  intro e he
  cases fuel with
  | zero => simp [scanItems] at he
  | succ fuel =>
      rw [scanItems] at he
      split at he
      · next item next h =>
          obtain ⟨after, -, hname, -⟩ := Cursor.dimItem?_reads h
          obtain ⟨x, tail, htext, hx⟩ := hname.head_isNameStart
          rw [hhead x (by rw [hname.reads.rest_eq, htext]; rfl)] at hx
          cases hx
      · split at he
        · simp at he
        · next hne =>
            have hpos : 1 ≤ c.rest.length := List.length_pos_iff.2 (by simpa using hne)
            exact (scanItems_stand fuel (hc.reads (Cursor.advance_reads hpos)) e he).2

/-- The entries of a list stand apart and in order. -/
theorem scanItems_pairwise (fuel : Nat) (hc : c.In text) (hs : Spaced c.rest) :
    (scanItems fuel c).Pairwise fun e f => e.stop < f.name.start := by
  induction fuel generalizing c with
  | zero => simp [scanItems]
  | succ fuel ih =>
      rw [scanItems]
      split
      · next item next h =>
          obtain ⟨-, -, hstop, hnext⟩ := Cursor.dimItem?_stands hc h
          obtain ⟨hspaced, hhead⟩ := Cursor.dimItem?_next hs h
          refine List.pairwise_cons.2 ⟨fun e he => ?_, ih hnext hspaced⟩
          rw [hstop]
          exact scanItems_lt hnext hhead e he
      · split
        · exact .nil
        · next hne =>
            have hpos : 1 ≤ c.rest.length := List.length_pos_iff.2 (by simpa using hne)
            have hread := Cursor.advance_reads hpos
            rw [hread.rest_eq] at hs
            exact ih (hc.reads hread) hs.right

/-- The variables of a list stand behind its keyword and follow each other with a character between
any two. -/
theorem DimDeclaration.declared_stand {l : DimDeclaration} (hc : c.In text)
    (h : DimDeclaration.read? c = some l) :
    l.keyword.IsWord text ∧ (∀ e ∈ l.declared, e.StandsIn text ∧ l.keyword.stop < e.name.start) ∧
      l.declared.Pairwise fun e f => e.stop < f.name.start := by
  simp only [DimDeclaration.read?, Option.bind_eq_bind, Option.bind_eq_some_iff, Prod.exists] at h
  obtain ⟨keyword, start, hkeyword, first, next, hfirst, h⟩ := h
  split at h
  · cases h
    have hc' := hc.reads (Cursor.skipBlanks_reads c)
    have hstart := Cursor.word?_in hc' hkeyword
    obtain ⟨-, after, hkw, hblanks⟩ := Cursor.word?_reads hkeyword
    obtain ⟨blanks, hne, -, hread⟩ := Cursor.blanks?_reads hblanks
    obtain ⟨t, ht, hreadItem⟩ := Cursor.dimItem?_spaced hfirst
    obtain ⟨u, hu, huhead, hreadTail⟩ := Cursor.dimTail_reads next.rest.length next
    have hlist := hreadItem.trans hreadTail
    have htake : start.rest.take ((next.dimTail next.rest.length).2.offset - start.offset) = t ++ u := by
      rw [hlist.offset_eq, Nat.add_sub_cancel_left, hlist.rest_eq, List.take_left]
    have hin : (Cursor.mk start.offset (t ++ u)).In text := hstart.lexeme hlist
    have hspaced : Spaced (t ++ u) := ht.append hu (Or.inr huhead)
    have hpos := List.length_pos_iff.2 hne
    have hbehind : keyword.written.stop < start.offset := by
      rw [Lexeme.stop, hkw.start_eq, hread.offset_eq, hkw.reads.offset_eq]
      omega
    refine ⟨hkw.isWord hc', ?_, ?_⟩
    · intro e he
      rw [DimDeclaration.declared, htake] at he
      obtain ⟨hstands, hle⟩ := scanItems_stand _ hin e he
      exact ⟨hstands, hbehind.trans_le hle⟩
    · rw [DimDeclaration.declared, htake]
      exact scanItems_pairwise _ hin hspaced
  · cases h

end VbOutline.Grammar
