import VbOutline.Proofs.Parameters
import VbOutline.Proofs.Spelling

/-! Array marks in parameter lists: pairs of parentheses with nothing but blanks between them. A pair holds no other
parenthesis and no comma, so two of them never overlap and each lies between two commas: it makes no difference
whether a list is blanked as a whole or token by token. What is left of a token after the blanking are its words, the
runs of characters that are neither blank nor part of a pair. -/

namespace VbOutline

namespace Text.Lexeme

variable {isSeparator : Char → Bool}

/-! ### Cutting a text -/

/-- A text is cut at its separators into pieces, the first of which starts at an offset. -/
inductive Cut (isSeparator : Char → Bool) : Nat → List Char → List Lexeme → Prop
  | last {start : Nat} {t : List Char} (ht : ∀ x ∈ t, isSeparator x = false) : Cut isSeparator start t [⟨start, t⟩]
  | cons {start : Nat} {t rest : List Char} {c : Char} {pieces : List Lexeme} (ht : ∀ x ∈ t, isSeparator x = false)
      (hc : isSeparator c = true) (hrest : Cut isSeparator (start + t.length + 1) rest pieces) :
      Cut isSeparator start (t ++ c :: rest) (⟨start, t⟩ :: pieces)

variable (isSeparator) in
theorem cut_piecesFrom (start : Nat) (text : List Char) :
    Cut isSeparator start text (piecesFrom isSeparator start text) := by
  induction text generalizing start with
  | nil => exact .last nofun
  | cons c rest ih =>
      have hcut := ih (start + 1)
      by_cases hc : isSeparator c = true
      · rw [piecesFrom_cons_of_sep hc]
        exact .cons (t := []) nofun hc hcut
      · have hcf : isSeparator c = false := Bool.not_eq_true _ ▸ hc
        obtain ⟨piece, pieces, hpieces, hcons⟩ := piecesFrom_cons_of_not hcf start rest
        rw [hpieces] at hcut
        rw [hcons]
        -- the first piece of the rest gets the character in front
        generalize hnext : start + 1 = next at hcut
        cases hcut with
        | last ht => exact .last (List.forall_mem_cons.2 ⟨hcf, ht⟩)
        | @cons _ t rest d _ ht hd hrest =>
            refine .cons (t := c :: t) (List.forall_mem_cons.2 ⟨hcf, ht⟩) hd ?_
            rwa [List.length_cons, show start + (t.length + 1) + 1 = next + t.length + 1 by omega]

/-- Every character but the separators is in some piece. -/
theorem Cut.exists_mem {start : Nat} {text : List Char} {pieces : List Lexeme} (h : Cut isSeparator start text pieces)
    {k : Nat} {c : Char} (hk : text[k]? = some c) (hc : isSeparator c = false) :
    ∃ piece ∈ pieces, piece.start ≤ start + k ∧ start + k < piece.stop := by
  induction h generalizing k with
  | @last start t ht =>
      have hlt := (List.getElem?_eq_some_iff.1 hk).1
      exact ⟨_, List.mem_singleton_self _, Nat.le_add_right _ _, Nat.add_lt_add_left hlt start⟩
  | @cons start t rest d pieces ht hd hrest ih =>
      rcases Nat.lt_trichotomy k t.length with hlt | rfl | hgt
      · exact ⟨_, List.mem_cons_self, Nat.le_add_right _ _, Nat.add_lt_add_left hlt start⟩
      · rw [List.getElem?_append_right (Nat.le_refl _), Nat.sub_self] at hk
        rw [← Option.some.inj hk, hd] at hc
        cases hc
      · obtain ⟨j, rfl⟩ : ∃ j, k = t.length + (j + 1) := ⟨k - t.length - 1, by omega⟩
        rw [List.getElem?_append_right (Nat.le_add_right _ _), Nat.add_sub_cancel_left, List.getElem?_cons_succ] at hk
        obtain ⟨piece, hmem, hstart, hstop⟩ := ih hk
        exact ⟨piece, List.mem_cons_of_mem _ hmem, by omega, by omega⟩

theorem exists_mem_words {text : List Char} {k : Nat} {c : Char} (hk : text[k]? = some c) (hc : isBlank c = false) :
    ∃ word ∈ (Lexeme.mk 0 text).words, word.start ≤ k ∧ k < word.stop := by
  obtain ⟨piece, hmem, hstart, hstop⟩ := (cut_piecesFrom isBlank 0 text).exists_mem hk hc
  rw [Nat.zero_add] at hstart hstop
  refine ⟨piece, List.mem_filter.2 ⟨hmem, ?_⟩, hstart, hstop⟩
  have hpos : 0 < piece.text.length := by
    rw [stop] at hstop
    omega
  simpa using List.length_pos_iff.1 hpos

/-- A text with no separator in front is cut as the rest is, the first piece being longer. -/
theorem piecesFrom_append_of_not {front : List Char} (hfront : ∀ x ∈ front, isSeparator x = false) (start : Nat)
    (rest : List Char) :
    ∃ piece pieces, piecesFrom isSeparator (start + front.length) rest = piece :: pieces ∧
      piecesFrom isSeparator start (front ++ rest) = ⟨start, front ++ piece.text⟩ :: pieces := by
  induction front generalizing start with
  | nil =>
      obtain ⟨piece, pieces, h⟩ := List.exists_cons_of_ne_nil (piecesFrom_ne_nil isSeparator start rest)
      refine ⟨piece, pieces, h, ?_⟩
      rw [List.nil_append, List.nil_append, h, ← start_of_piecesFrom h]
  | cons c front ih =>
      obtain ⟨hc, hfront⟩ := List.forall_mem_cons.1 hfront
      obtain ⟨piece, pieces, hrest, hcut⟩ := ih hfront (start + 1)
      obtain ⟨first, others, hnext, hcons⟩ := piecesFrom_cons_of_not hc start (front ++ rest)
      cases hcut.symm.trans hnext
      refine ⟨piece, pieces, ?_, hcons⟩
      rw [← hrest, List.length_cons, show start + (front.length + 1) = start + 1 + front.length by omega]

/-- A text that starts further to the right is cut in the same way. -/
theorem piecesFrom_add (k start : Nat) (text : List Char) :
    piecesFrom isSeparator (k + start) text = (piecesFrom isSeparator start text).map (shift k) := by
  induction text generalizing start with
  | nil => rfl
  | cons c rest ih =>
      have hrest := ih (start + 1)
      rw [← Nat.add_assoc] at hrest
      simp only [piecesFrom, hrest]
      split
      · rfl
      · cases piecesFrom isSeparator (start + 1) rest <;> rfl

theorem words_shift (k : Nat) (l : Lexeme) : (l.shift k).words = l.words.map (shift k) := by
  rw [words, pieces, shift, piecesFrom_add, words, pieces, List.filter_map]
  rfl

end Text.Lexeme

namespace Grammar

open Text

/-! ### Pairs -/

/-- A pair stands in a text: two parentheses with nothing but blanks between them. -/
structure IsPair (pair : Lexeme) (text : List Char) : Prop where
  within : pair.In text
  form : ∃ w, Blanks w ∧ pair.text = '(' :: (w ++ [')'])

/-- A place of a text that belongs to a pair. -/
def InPair (text : List Char) (k : Nat) : Prop := ∃ pair, IsPair pair text ∧ pair.start ≤ k ∧ k < pair.stop

/-- A parenthesis that belongs to no pair. -/
def Stray (text : List Char) (k : Nat) : Prop := (text[k]? = some '(' ∨ text[k]? = some ')') ∧ ¬ InPair text k

/-- A character that counts: it is neither blank nor part of a pair. -/
def Counts (text : List Char) (k : Nat) : Prop := ∃ c, text[k]? = some c ∧ isBlank c = false ∧ ¬ InPair text k

/-- A text that starts with a pair. -/
def StartsWithPair (text : List Char) : Prop := ∃ w rest, Blanks w ∧ text = '(' :: (w ++ ')' :: rest)

theorem emptyPair?_pair {w : List Char} (hw : Blanks w) (rest : List Char) :
    emptyPair? ('(' :: (w ++ ')' :: rest)) = some (w.length + 2) := by
  have hclose : ∀ x ∈ (')' :: rest).head?, isBlank x = false := by
    intro x hx
    rw [← Option.some.inj hx]
    decide
  have htake : (w ++ ')' :: rest).takeWhile isBlank = w := takeWhile_append_stop hw hclose
  have hdrop : (w ++ ')' :: rest).dropWhile isBlank = ')' :: rest := by
    rw [List.dropWhile_append_of_pos hw, List.dropWhile_cons_of_neg (by decide)]
  rw [emptyPair?, trimStart, hdrop, indent, htake]
  rfl

theorem startsWithPair_of_emptyPair? {text : List Char} {n : Nat} (h : emptyPair? text = some n) :
    StartsWithPair text := by
  unfold emptyPair? at h
  split at h
  · next rest =>
      split at h
      · next hhead =>
          obtain ⟨tail, htail⟩ := List.head?_eq_some_iff.1 hhead
          refine ⟨rest.takeWhile isBlank, tail, fun x hx => Cursor.isBlank_of_mem_takeWhile hx, ?_⟩
          rw [← htail, trimStart, List.takeWhile_append_dropWhile]
      · cases h
  · cases h

theorem emptyPair?_of_not {text : List Char} (h : ¬ StartsWithPair text) : emptyPair? text = none := by
  cases hpair : emptyPair? text with
  | none => rfl
  | some n => exact absurd (startsWithPair_of_emptyPair? hpair) h

/-- A text is gone through pair by pair and, where no pair starts, character by character. -/
theorem pairs_induction {motive : List Char → Prop} (nil : motive [])
    (pair : ∀ w rest, Blanks w → motive rest → motive ('(' :: (w ++ ')' :: rest)))
    (char : ∀ c rest, ¬ StartsWithPair (c :: rest) → motive rest → motive (c :: rest)) (text : List Char) :
    motive text := by
  induction hlength : text.length using Nat.strongRecOn generalizing text with
  | _ n ih =>
      cases text with
      | nil => exact nil
      | cons c rest =>
          rw [List.length_cons] at hlength
          by_cases hpair : StartsWithPair (c :: rest)
          · obtain ⟨w, tail, hw, htext⟩ := hpair
            cases htext
            rw [List.length_append, List.length_cons] at hlength
            exact pair w tail hw (ih tail.length (by omega) tail rfl)
          · exact char c rest hpair (ih rest.length (by omega) rest rfl)

/-! ### Blanking -/

theorem blankPairsFrom_length (front rest : List Char) :
    blankPairsFrom front.length (front ++ rest) = List.replicate front.length ' ' ++ blankPairs rest := by
  induction front with
  | nil => rfl
  | cons c front ih =>
      rw [List.length_cons, List.cons_append, blankPairsFrom, ih, List.replicate_succ, List.cons_append]

theorem blankPairs_pair {w : List Char} (hw : Blanks w) (rest : List Char) :
    blankPairs ('(' :: (w ++ ')' :: rest)) = List.replicate (w.length + 2) ' ' ++ blankPairs rest := by
  have hlength : w.length + 2 - 1 = (w ++ [')']).length := by simp
  have htext : w ++ ')' :: rest = (w ++ [')']) ++ rest := by simp
  rw [blankPairs, blankPairsFrom, emptyPair?_pair hw]
  simp only [hlength, htext]
  rw [blankPairsFrom_length, List.replicate_succ, List.length_append]
  rfl

theorem blankPairs_char {c : Char} {rest : List Char} (h : ¬ StartsWithPair (c :: rest)) :
    blankPairs (c :: rest) = c :: blankPairs rest := by
  rw [blankPairs, blankPairsFrom, emptyPair?_of_not h]
  rfl

theorem IsPair.getElem?_start {pair : Lexeme} {text : List Char} (h : IsPair pair text) :
    text[pair.start]? = some '(' := by
  obtain ⟨w, -, hform⟩ := h.form
  have hchar := h.within.getElem? (i := 0) (by rw [hform]; exact Nat.succ_pos _)
  rwa [Nat.add_zero, hform] at hchar

/-- A pair of the rest of a text is a pair of the text. -/
theorem InPair.append {rest : List Char} {k : Nat} (h : InPair rest k) (front : List Char) :
    InPair (front ++ rest) (front.length + k) := by
  obtain ⟨pair, ⟨⟨before, after, htext, hbefore⟩, hform⟩, hstart, hstop⟩ := h
  refine ⟨pair.shift front.length, ⟨⟨front ++ before, after, ?_, ?_⟩, hform⟩, ?_, ?_⟩
  · rw [htext, List.append_assoc]
    rfl
  · rw [List.length_append, hbefore]
    rfl
  · exact Nat.add_le_add_left hstart _
  · rw [Lexeme.shift_stop]
    omega

/-- A pair that starts behind the front of a text is a pair of the rest. -/
theorem IsPair.of_append {pair : Lexeme} {front rest : List Char} (h : IsPair pair (front ++ rest))
    (hstart : front.length ≤ pair.start) {k : Nat} (hk : pair.start ≤ k) (hk' : k < pair.stop) :
    ∃ j, k = front.length + j ∧ InPair rest j := by
  obtain ⟨⟨before, after, htext, hbefore⟩, hform⟩ := h
  obtain ⟨middle, hmiddle⟩ := List.prefix_of_prefix_length_le ⟨rest, rfl⟩ ⟨_, htext.symm⟩ (by omega)
  have hrest : rest = middle ++ (pair.text ++ after) := by
    rw [← hmiddle, List.append_assoc] at htext
    exact List.append_cancel_left htext
  have hlength := congrArg List.length hmiddle
  rw [List.length_append] at hlength
  rw [Lexeme.stop] at hk'
  refine ⟨k - front.length, by omega, ⟨middle.length, pair.text⟩, ⟨⟨middle, after, hrest, rfl⟩, hform⟩, ?_, ?_⟩
  · show middle.length ≤ _
    omega
  · show _ < middle.length + pair.text.length
    omega

theorem inPair_char {c : Char} {rest : List Char} (h : ¬ StartsWithPair (c :: rest)) {k : Nat}
    (hk : InPair (c :: rest) k) : ∃ j, k = 1 + j ∧ InPair rest j := by
  obtain ⟨pair, hpair, hstart, hstop⟩ := hk
  rcases Nat.eq_zero_or_pos pair.start with hzero | hpos
  · -- a pair at the very start is what the text does not start with
    obtain ⟨⟨before, after, htext, hbefore⟩, w, hw, hform⟩ := hpair
    rw [hzero] at hbefore
    rw [List.length_eq_zero_iff.1 hbefore, hform] at htext
    exact absurd ⟨w, after, hw, by simpa using htext⟩ h
  · rw [← List.singleton_append] at hpair
    exact hpair.of_append hpos hstart hstop

theorem inPair_pair {w rest : List Char} (hw : Blanks w) {k : Nat} (hk : InPair ('(' :: (w ++ ')' :: rest)) k) :
    k < w.length + 2 ∨ ∃ j, k = w.length + 2 + j ∧ InPair rest j := by
  obtain ⟨pair, hpair, hstart, hstop⟩ := hk
  have hfront : '(' :: (w ++ ')' :: rest) = ('(' :: (w ++ [')'])) ++ rest := by simp
  have hlength : ('(' :: (w ++ [')'])).length = w.length + 2 := by simp
  rcases Nat.lt_or_ge pair.start (w.length + 2) with hlt | hge
  · left
    have hopen := hpair.getElem?_start
    rw [hfront, List.getElem?_append_left (by omega)] at hopen
    -- the only opening parenthesis up to here is the first character
    have hzero : pair.start = 0 := by
      rcases Nat.eq_zero_or_pos pair.start with hzero | hpos
      · exact hzero
      · obtain ⟨i, hi⟩ : ∃ i, pair.start = i + 1 := ⟨pair.start - 1, by omega⟩
        rw [hi, List.getElem?_cons_succ] at hopen
        rcases List.mem_append.1 (List.mem_of_getElem? hopen) with hmem | hmem
        · exact absurd (hw _ hmem) (by decide)
        · exact absurd (List.mem_singleton.1 hmem) (by decide)
    obtain ⟨w', hw', hform⟩ := hpair.form
    have hle : w'.length ≤ w.length := by
      rcases Nat.lt_or_ge w.length w'.length with hlong | hle
      · have hchar := hpair.within.getElem? (i := w.length + 1) (by rw [hform]; simp; omega)
        rw [hzero, Nat.zero_add, hform, hfront, List.getElem?_append_left (by omega), List.getElem?_cons_succ,
          List.getElem?_cons_succ, List.getElem?_append_right (Nat.le_refl _), Nat.sub_self,
          List.getElem?_append_left hlong] at hchar
        exact absurd (hw' _ (List.mem_of_getElem? hchar.symm)) (by decide)
      · exact hle
    rw [Lexeme.stop, hzero, hform] at hstop
    simp at hstop
    omega
  · right
    rw [hfront] at hpair
    obtain ⟨j, hj, hin⟩ := hpair.of_append (by omega) hstart hstop
    exact ⟨j, by omega, hin⟩

/-- Blanking leaves exactly the characters that are in no pair. -/
theorem blankPairs_getElem?_iff {text : List Char} {c : Char} (hc : isBlank c = false) {k : Nat} :
    (blankPairs text)[k]? = some c ↔ text[k]? = some c ∧ ¬ InPair text k := by
  induction text using pairs_induction generalizing k with
  | nil => simp [blankPairs, blankPairsFrom]
  | pair w rest hw ih =>
      have hfront : '(' :: (w ++ ')' :: rest) = ('(' :: (w ++ [')'])) ++ rest := by simp
      have hlength : ('(' :: (w ++ [')'])).length = w.length + 2 := by simp
      rw [blankPairs_pair hw]
      rcases Nat.lt_or_ge k (w.length + 2) with hlt | hge
      · have hin : InPair ('(' :: (w ++ ')' :: rest)) k :=
          ⟨⟨0, '(' :: (w ++ [')'])⟩, ⟨⟨[], rest, by simp, rfl⟩, w, hw, rfl⟩, Nat.zero_le k, by
            rw [Lexeme.stop, hlength]
            omega⟩
        rw [List.getElem?_append_left (by simpa using hlt), List.getElem?_replicate, if_pos hlt]
        refine ⟨fun h => ?_, fun h => absurd hin h.2⟩
        rw [← Option.some.inj h, isBlank_space] at hc
        cases hc
      · obtain ⟨j, rfl⟩ : ∃ j, k = w.length + 2 + j := ⟨k - (w.length + 2), by omega⟩
        have hleft : (List.replicate (w.length + 2) ' ' ++ blankPairs rest)[w.length + 2 + j]? =
            (blankPairs rest)[j]? := by
          rw [List.getElem?_append_right (by simp), List.length_replicate, Nat.add_sub_cancel_left]
        have hright : ('(' :: (w ++ ')' :: rest))[w.length + 2 + j]? = rest[j]? := by
          rw [hfront, List.getElem?_append_right (by omega), hlength, Nat.add_sub_cancel_left]
        rw [hleft, hright, ih]
        refine and_congr_right fun _ => not_congr ⟨fun h => ?_, fun h => ?_⟩
        · rw [hfront, ← hlength]
          exact h.append _
        · rcases inPair_pair hw h with hlt | ⟨i, hi, hin⟩
          · omega
          · rwa [show j = i by omega]
  | char x rest hx ih =>
      rw [blankPairs_char hx]
      cases k with
      | zero =>
          have hout : ¬ InPair (x :: rest) 0 := by
            intro h
            obtain ⟨j, hj, -⟩ := inPair_char hx h
            omega
          simp [hout]
      | succ k =>
          rw [List.getElem?_cons_succ, List.getElem?_cons_succ, ih]
          refine and_congr_right fun _ => not_congr ⟨fun h => ?_, fun h => ?_⟩
          · rw [Nat.add_comm]
            exact h.append [x]
          · obtain ⟨j, hj, hin⟩ := inPair_char hx h
            rwa [show k = j by omega]

theorem isSupported_iff {text : List Char} : isSupported text = true ↔ ∀ k, ¬ Stray text k := by
  have hopen : isBlank '(' = false := by decide
  have hclose : isBlank ')' = false := by decide
  rw [isSupported, Bool.not_eq_true', List.any_eq_false]
  constructor
  · rintro h k ⟨hparen, hout⟩
    rcases hparen with hparen | hparen
    · exact h _ (List.mem_of_getElem? ((blankPairs_getElem?_iff hopen).2 ⟨hparen, hout⟩)) rfl
    · exact h _ (List.mem_of_getElem? ((blankPairs_getElem?_iff hclose).2 ⟨hparen, hout⟩)) rfl
  · intro h c hmem hc
    obtain ⟨k, hk⟩ := List.mem_iff_getElem?.1 hmem
    rcases Bool.or_eq_true_iff.1 hc with heq | heq <;> rw [eq_of_beq heq] at hk
    · obtain ⟨hparen, hout⟩ := (blankPairs_getElem?_iff hopen).1 hk
      exact h k ⟨Or.inl hparen, hout⟩
    · obtain ⟨hparen, hout⟩ := (blankPairs_getElem?_iff hclose).1 hk
      exact h k ⟨Or.inr hparen, hout⟩

/-! ### Tokens -/

/-- What separates the tokens of a list. -/
def isComma (c : Char) : Bool := c == ','

/-- A token with its pairs blanked. -/
def blankToken (token : Lexeme) : Lexeme := ⟨token.start, blankPairs token.text⟩

/-- A list that is blanked is cut as the list is, each token blanked by itself. -/
theorem piecesFrom_blankPairs (start : Nat) (text : List Char) :
    Lexeme.piecesFrom isComma start (blankPairs text) =
      (Lexeme.piecesFrom isComma start text).map blankToken := by
  induction text using pairs_induction generalizing start with
  | nil => rfl
  | pair w rest hw ih =>
      have hfront : '(' :: (w ++ ')' :: rest) = ('(' :: (w ++ [')'])) ++ rest := by simp
      have hlength : (List.replicate (w.length + 2) ' ').length = ('(' :: (w ++ [')'])).length := by simp
      have hmark : ∀ x ∈ '(' :: (w ++ [')']), isComma x = false := by
        intro x hx
        rw [isComma, beq_eq_false_iff_ne]
        rintro rfl
        rcases List.mem_cons.1 hx with hx | hx
        · exact absurd hx (by decide)
        · rcases List.mem_append.1 hx with hx | hx
          · exact absurd (hw _ hx) (by decide)
          · exact absurd (List.mem_singleton.1 hx) (by decide)
      have hspaces : ∀ x ∈ List.replicate (w.length + 2) ' ', isComma x = false := by
        intro x hx
        rw [List.eq_of_mem_replicate hx]
        decide
      obtain ⟨token, tokens, hrest, hcut⟩ := Lexeme.piecesFrom_append_of_not hmark start rest
      obtain ⟨piece, pieces, hrest', hcut'⟩ := Lexeme.piecesFrom_append_of_not hspaces start (blankPairs rest)
      rw [hlength, ih, hrest, List.map_cons] at hrest'
      cases hrest'
      rw [blankPairs_pair hw, hcut', hfront, hcut, List.map_cons, blankToken, blankToken]
      congr 2
      rw [List.cons_append, List.append_assoc]
      exact (blankPairs_pair hw token.text).symm
  | char c rest hc ih =>
      rw [blankPairs_char hc]
      by_cases hcomma : isComma c = true
      · rw [Lexeme.piecesFrom_cons_of_sep hcomma, Lexeme.piecesFrom_cons_of_sep hcomma, ih]
        rfl
      · have hother : isComma c = false := Bool.not_eq_true _ ▸ hcomma
        obtain ⟨token, tokens, hrest, hcut⟩ := Lexeme.piecesFrom_cons_of_not hother start rest
        obtain ⟨piece, pieces, hrest', hcut'⟩ := Lexeme.piecesFrom_cons_of_not hother start (blankPairs rest)
        rw [ih, hrest, List.map_cons] at hrest'
        cases hrest'
        -- a pair at the start of the token would be one at the start of the text
        have hnot : ¬ StartsWithPair (c :: token.text) := by
          rintro ⟨w, tail, hw, htail⟩
          obtain ⟨⟨before, after, htext, hbefore⟩, -⟩ := Lexeme.mem_piecesFrom (hrest ▸ List.mem_cons_self)
          rw [Lexeme.start_of_piecesFrom hrest, Nat.add_eq_left] at hbefore
          rw [List.length_eq_zero_iff.1 hbefore, List.nil_append] at htext
          refine hc ⟨w, tail ++ after, hw, ?_⟩
          rw [htext, ← List.cons_append, htail]
          simp
        rw [hcut', hcut, List.map_cons, blankToken, blankToken, blankPairs_char hnot]

/-- The words of a token: runs of characters that count, with a gap between any two, and together all of them. -/
structure TokenWords (text : List Char) (words : List Lexeme) : Prop where
  isWord : ∀ word ∈ words, word.IsWord text
  counts : ∀ word ∈ words, ∀ k, word.start ≤ k → k < word.stop → Counts text k
  complete : ∀ k, Counts text k → ∃ word ∈ words, word.start ≤ k ∧ k < word.stop
  ordered : words.Pairwise fun a b => a.stop < b.start

theorem tokenWords_words (text : List Char) : TokenWords text (Lexeme.mk 0 (blankPairs text)).words := by
  have hin : (Lexeme.mk 0 (blankPairs text)).In (blankPairs text) := ⟨[], [], by simp, rfl⟩
  refine ⟨fun word hw => ?_, fun word hw k hstart hstop => ?_, fun k hk => ?_, Lexeme.words_pairwise _⟩
  · exact (hin.words hw).of_shows (blankPairsFrom_shows 0 text)
  · have hword := hin.words hw
    rw [Lexeme.stop] at hstop
    obtain ⟨i, rfl⟩ : ∃ i, k = word.start + i := ⟨k - word.start, by omega⟩
    have hi : i < word.text.length := by omega
    have hchar := hword.within.getElem? hi
    rw [List.getElem?_eq_getElem hi] at hchar
    have hsolid := hword.solid _ (List.getElem_mem hi)
    obtain ⟨hk, hout⟩ := (blankPairs_getElem?_iff hsolid).1 hchar
    exact ⟨_, hk, hsolid, hout⟩
  · obtain ⟨c, hc, hblank, hout⟩ := hk
    exact Lexeme.exists_mem_words ((blankPairs_getElem?_iff hblank).2 ⟨hc, hout⟩) hblank

/-- The words of a token that is read hold neither parentheses nor commas. -/
theorem TokenWords.clean {text : List Char} {words : List Lexeme} (h : TokenWords text words)
    (hstray : ∀ k, ¬ Stray text k) (hcomma : ∀ c ∈ text, isComma c = false) :
    ∀ word ∈ words, ∀ c ∈ word.text, c ≠ '(' ∧ c ≠ ')' ∧ c ≠ ',' := by
  intro word hw c hc
  obtain ⟨i, hi, rfl⟩ := List.getElem_of_mem hc
  have hget := (h.isWord word hw).within.getElem? hi
  rw [List.getElem?_eq_getElem hi] at hget
  have hstop : word.start + i < word.stop := Nat.add_lt_add_left hi _
  obtain ⟨-, -, -, hout⟩ := h.counts word hw _ (Nat.le_add_right _ _) hstop
  refine ⟨fun heq => ?_, fun heq => ?_, fun heq => ?_⟩
  · exact hstray _ ⟨.inl (heq ▸ hget), hout⟩
  · exact hstray _ ⟨.inr (heq ▸ hget), hout⟩
  · have hother := hcomma _ (List.mem_of_getElem? hget)
    rw [heq] at hother
    cases hother

/-! ### Lists that are read -/

/-- The tokens of a list that is read are read by themselves. -/
theorem isSupported_of_mem {text : List Char} {token : Lexeme} {start : Nat} (h : isSupported text = true)
    (ht : token ∈ Lexeme.piecesFrom isComma start text) : isSupported token.text = true := by
  have hblanked : blankToken token ∈ Lexeme.piecesFrom isComma start (blankPairs text) := by
    rw [piecesFrom_blankPairs]
    exact List.mem_map_of_mem ht
  obtain ⟨⟨before, after, htext, -⟩, -⟩ := Lexeme.mem_piecesFrom hblanked
  rw [isSupported, Bool.not_eq_true', List.any_eq_false] at h ⊢
  intro c hc
  refine h c ?_
  rw [htext]
  exact List.mem_append_right _ (List.mem_append_left _ hc)

theorem readParameters?_of_isSupported {text : List Char} (h : isSupported text = true) :
    readParameters? text = some ((Lexeme.piecesFrom isComma 0 text).filterMap fun token =>
      Parameter.ofWords? (blankToken token).words) := by
  rw [readParameters?, if_pos h]
  show some (List.filterMap _ (Lexeme.piecesFrom isComma 0 (blankPairs text))) = _
  rw [piecesFrom_blankPairs, List.filterMap_map]
  rfl

/-- The words of a token by their places in the list. -/
theorem words_blankToken (token : Lexeme) :
    (blankToken token).words = (Lexeme.mk 0 (blankPairs token.text)).words.map (Lexeme.shift token.start) :=
  Lexeme.words_shift token.start ⟨0, blankPairs token.text⟩

end Grammar

end VbOutline
