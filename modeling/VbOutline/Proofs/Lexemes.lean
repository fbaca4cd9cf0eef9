import VbOutline.Text.Lexeme

/-! Where lexemes stand. A text shows another one if it has the same characters at the same places, up
to characters replaced by spaces and an end left out; whatever is read of a line shows the line. A
lexeme that stands in a text and holds no blank therefore stands, at the same offset, in every text
that this one shows. The pieces of a text between separators stand in it from left to right, with a
separator between any two. -/

namespace VbOutline.Text

theorem isBlank_space : isBlank ' ' = true := by decide

/-! ### Blanks at the ends of a text -/

/-- What is cut off at the end of a text is blank. -/
theorem exists_trimEnd_append (text : List Char) :
    ∃ tail, text = trimEnd text ++ tail ∧ ∀ c ∈ tail, isBlank c = true := by
  refine ⟨(text.reverse.takeWhile isBlank).reverse, ?_, ?_⟩
  · rw [trimEnd, ← List.reverse_append, List.takeWhile_append_dropWhile, List.reverse_reverse]
  · intro c hc
    have hall := List.all_takeWhile (l := text.reverse) (p := isBlank)
    exact List.all_eq_true.1 hall c (List.mem_reverse.1 hc)

theorem lt_length_trimEnd {text : List Char} {i : Nat} {c : Char} (hc : text[i]? = some c)
    (hblank : isBlank c = false) : i < (trimEnd text).length := by
  obtain ⟨tail, htext, htail⟩ := exists_trimEnd_append text
  rcases Nat.lt_or_ge i (trimEnd text).length with h | h
  · exact h
  · rw [htext, List.getElem?_append_right h] at hc
    rw [htail c (List.mem_of_getElem? hc)] at hblank
    cases hblank

theorem indent_le {text : List Char} {i : Nat} {c : Char} (hc : text[i]? = some c)
    (hblank : isBlank c = false) : indent text ≤ i := by
  induction text generalizing i with
  | nil => exact Nat.zero_le i
  | cons x text ih =>
      cases i with
      | zero =>
          have hx : x = c := by simpa using hc
          simp [indent, hx, hblank]
      | succ i =>
          have hrest := ih (i := i) (by simpa using hc)
          simp only [indent, List.takeWhile_cons] at hrest ⊢
          split
          · simpa using hrest
          · simp

/-- A text whose last character is blank. -/
def EndsBlank (text : List Char) : Prop := ∃ c, text.getLast? = some c ∧ isBlank c = true

/-! ### Showing -/

/-- One text shows another: each of its characters is the one at the same place there, or a space. -/
inductive Shows : List Char → List Char → Prop
  | nil (raw : List Char) : Shows [] raw
  | same (c : Char) {shown raw : List Char} (h : Shows shown raw) : Shows (c :: shown) (c :: raw)
  | blank (c : Char) {shown raw : List Char} (h : Shows shown raw) : Shows (' ' :: shown) (c :: raw)

namespace Shows

theorem refl (text : List Char) : Shows text text := by
  induction text with
  | nil => exact nil []
  | cons c text ih => exact same c ih

theorem trans {a b c : List Char} (hab : Shows a b) (hbc : Shows b c) : Shows a c := by
  induction hab generalizing c with
  | nil raw => exact nil c
  | same x hab ih =>
      cases hbc with
      | same _ hbc => exact same x (ih hbc)
      | blank y hbc => exact blank y (ih hbc)
  | blank x hab ih =>
      cases hbc with
      | same _ hbc => exact blank x (ih hbc)
      | blank y hbc => exact blank y (ih hbc)

theorem length_le {shown raw : List Char} (h : Shows shown raw) : shown.length ≤ raw.length := by
  induction h with
  | nil raw => exact Nat.zero_le _
  | same c h ih => exact Nat.succ_le_succ ih
  | blank c h ih => exact Nat.succ_le_succ ih

theorem of_append (front back : List Char) : Shows front (front ++ back) := by
  induction front with
  | nil => exact nil back
  | cons c front ih => exact same c ih

theorem append_same {shown raw : List Char} (front : List Char) (h : Shows shown raw) :
    Shows (front ++ shown) (front ++ raw) := by
  induction front with
  | nil => exact h
  | cons c front ih => exact same c ih

/-- A margin of spaces shows whatever stands in its place. -/
theorem append_margin {shown raw : List Char} (front : List Char) (h : Shows shown raw) :
    Shows (List.replicate front.length ' ' ++ shown) (front ++ raw) := by
  induction front with
  | nil => exact h
  | cons c front ih => exact blank c ih

/-- What is shown and is not blank is really there. -/
theorem getElem?_eq {shown raw : List Char} (h : Shows shown raw) {i : Nat} {c : Char}
    (hc : shown[i]? = some c) (hblank : isBlank c = false) : raw[i]? = some c := by
  induction h generalizing i with
  | nil raw => simp at hc
  | same x h ih =>
      cases i with
      | zero => simpa using hc
      | succ i => simpa using ih (by simpa using hc)
  | blank x h ih =>
      cases i with
      | zero =>
          have hx : ' ' = c := by simpa using hc
          rw [← hx, isBlank_space] at hblank
          cases hblank
      | succ i => simpa using ih (by simpa using hc)

end Shows

namespace Lexeme

/-- A lexeme stands in a text. -/
def In (l : Lexeme) (text : List Char) : Prop :=
  ∃ before after, text = before ++ (l.text ++ after) ∧ before.length = l.start

/-- A word of a text: a lexeme of it that holds something and no blank. -/
structure IsWord (l : Lexeme) (text : List Char) : Prop where
  within : l.In text
  nonempty : l.text ≠ []
  solid : ∀ c ∈ l.text, isBlank c = false

theorem In.stop_le {l : Lexeme} {text : List Char} (h : l.In text) : l.stop ≤ text.length := by
  obtain ⟨before, after, rfl, hstart⟩ := h
  simp only [stop, List.length_append]
  omega

theorem In.getElem? {l : Lexeme} {text : List Char} (h : l.In text) {i : Nat} (hi : i < l.text.length) :
    text[l.start + i]? = l.text[i]? := by
  obtain ⟨before, after, rfl, hstart⟩ := h
  rw [← hstart, List.getElem?_append_right (by omega), Nat.add_sub_cancel_left,
    List.getElem?_append_left hi]

/-- A lexeme stands where the text agrees with it character by character. -/
theorem in_of_getElem? {l : Lexeme} {text : List Char} (hne : l.text ≠ [])
    (h : ∀ i, i < l.text.length → text[l.start + i]? = l.text[i]?) : l.In text := by
  have hlen : l.start < text.length := by
    have h0 := h 0 (List.length_pos_iff.2 hne)
    rw [List.getElem?_eq_getElem (List.length_pos_iff.2 hne)] at h0
    exact (List.getElem?_eq_some_iff.1 h0).1
  refine ⟨text.take l.start, text.drop l.stop, ?_, by simp; omega⟩
  have hmid : l.text = (text.drop l.start).take l.text.length := by
    apply List.ext_getElem?
    intro i
    by_cases hi : i < l.text.length
    · rw [List.getElem?_take_of_lt hi, List.getElem?_drop, h i hi]
    · rw [List.getElem?_eq_none (by omega), List.getElem?_eq_none (by simp; omega)]
  have hdrop : text.drop l.stop = (text.drop l.start).drop l.text.length := by
    rw [List.drop_drop, stop]
  calc text = text.take l.start ++ text.drop l.start := (List.take_append_drop _ _).symm
    _ = text.take l.start ++ ((text.drop l.start).take l.text.length ++
          (text.drop l.start).drop l.text.length) := by rw [List.take_append_drop l.text.length]
    _ = text.take l.start ++ (l.text ++ text.drop l.stop) := by rw [← hmid, hdrop]

theorem IsWord.start_lt_stop {l : Lexeme} {text : List Char} (h : l.IsWord text) : l.start < l.stop := by
  have := List.length_pos_iff.2 h.nonempty
  simp only [stop]
  omega

theorem IsWord.first {l : Lexeme} {text : List Char} (h : l.IsWord text) :
    ∃ c, text[l.start]? = some c ∧ isBlank c = false := by
  have hpos := List.length_pos_iff.2 h.nonempty
  have hfirst := h.within.getElem? hpos
  rw [List.getElem?_eq_getElem hpos] at hfirst
  exact ⟨_, hfirst, h.solid _ (List.getElem_mem hpos)⟩

theorem IsWord.last {l : Lexeme} {text : List Char} (h : l.IsWord text) :
    ∃ c, text[l.stop - 1]? = some c ∧ isBlank c = false := by
  have hpos := List.length_pos_iff.2 h.nonempty
  have hi : l.text.length - 1 < l.text.length := by omega
  have hlast := h.within.getElem? hi
  have hstop : l.start + (l.text.length - 1) = l.stop - 1 := by
    rw [stop]
    omega
  rw [List.getElem?_eq_getElem hi, hstop] at hlast
  exact ⟨_, hlast, h.solid _ (List.getElem_mem hi)⟩

/-- A word of what a text shows is a word of the text. -/
theorem IsWord.of_shows {l : Lexeme} {shown raw : List Char} (hs : Shows shown raw)
    (h : l.IsWord shown) : l.IsWord raw := by
  refine ⟨in_of_getElem? h.nonempty fun i hi => ?_, h.nonempty, h.solid⟩
  have hshown := h.within.getElem? hi
  rw [List.getElem?_eq_getElem hi] at hshown ⊢
  exact hs.getElem?_eq hshown (h.solid _ (List.getElem_mem hi))

/-- A word of two joined texts lies in one of them if the first ends in a blank. -/
theorem IsWord.of_append {l : Lexeme} {front back : List Char} (hend : EndsBlank front)
    (h : l.IsWord (front ++ back)) :
    l.IsWord front ∨ ∃ start, l.start = front.length + start ∧ (Lexeme.mk start l.text).IsWord back := by
  by_cases hlt : l.start < front.length
  · left
    -- the blank at the end of the front is no character of the word
    have hstop : l.stop ≤ front.length := by
      rcases Nat.lt_or_ge front.length l.stop with hover | hle
      · obtain ⟨c, hlast, hc⟩ := hend
        rw [stop] at hover
        have hi : front.length - 1 - l.start < l.text.length := by omega
        have hchar := h.within.getElem? hi
        rw [show l.start + (front.length - 1 - l.start) = front.length - 1 by omega,
          List.getElem?_append_left (by omega), ← List.getLast?_eq_getElem?, hlast,
          List.getElem?_eq_getElem hi] at hchar
        have hsolid := h.solid _ (List.getElem_mem hi)
        rw [← Option.some.inj hchar, hc] at hsolid
        cases hsolid
      · exact hle
    rw [stop] at hstop
    refine ⟨in_of_getElem? h.nonempty fun i hi => ?_, h.nonempty, h.solid⟩
    rw [← h.within.getElem? hi, List.getElem?_append_left (by omega)]
  · right
    refine ⟨l.start - front.length, by omega, ?_, h.nonempty, h.solid⟩
    refine in_of_getElem? h.nonempty fun i hi => ?_
    rw [← h.within.getElem? hi, List.getElem?_append_right (by omega)]
    congr 1
    dsimp only
    omega

/-- The same lexeme further to the right. -/
def shift (k : Nat) (l : Lexeme) : Lexeme := ⟨k + l.start, l.text⟩

theorem shift_stop (k : Nat) (l : Lexeme) : (l.shift k).stop = k + l.stop := by
  simp only [shift, stop]
  omega

/-- A lexeme of a lexeme of a text stands in the text. -/
theorem In.shift {l outer : Lexeme} {text : List Char} (h : l.In outer.text) (ho : outer.In text) :
    (l.shift outer.start).In text := by
  obtain ⟨before, after, htext, hstart⟩ := ho
  obtain ⟨front, back, hinner, hfront⟩ := h
  refine ⟨before ++ front, back ++ after, ?_, ?_⟩
  · rw [htext, hinner]
    simp [Lexeme.shift]
  · rw [List.length_append, hstart, hfront]
    rfl

theorem IsWord.shift {l outer : Lexeme} {text : List Char} (h : l.IsWord outer.text)
    (ho : outer.In text) : (l.shift outer.start).IsWord text :=
  ⟨h.within.shift ho, h.nonempty, h.solid⟩

/-! ### Pieces between separators -/

section Pieces

variable {isSeparator : Char → Bool}

variable (isSeparator) in
theorem piecesFrom_ne_nil (start : Nat) (text : List Char) : piecesFrom isSeparator start text ≠ [] := by
  cases text with
  | nil => simp [piecesFrom]
  | cons c rest =>
      simp only [piecesFrom]
      split
      · simp
      · split <;> simp

/-- A text without separators in front is cut as the rest is, the first piece being longer. -/
theorem piecesFrom_cons_of_not {c : Char} (hc : isSeparator c = false) (start : Nat) (rest : List Char) :
    ∃ piece pieces, piecesFrom isSeparator (start + 1) rest = piece :: pieces ∧
      piecesFrom isSeparator start (c :: rest) = ⟨start, c :: piece.text⟩ :: pieces := by
  obtain ⟨piece, pieces, h⟩ :=
    List.exists_cons_of_ne_nil (piecesFrom_ne_nil isSeparator (start + 1) rest)
  exact ⟨piece, pieces, h, by simp [piecesFrom, hc, h]⟩

theorem piecesFrom_cons_of_sep {c : Char} (hc : isSeparator c = true) (start : Nat) (rest : List Char) :
    piecesFrom isSeparator start (c :: rest) = ⟨start, []⟩ :: piecesFrom isSeparator (start + 1) rest := by
  simp [piecesFrom, hc]

/-- The first piece starts with the text. -/
theorem start_of_piecesFrom {start : Nat} {text : List Char} {piece : Lexeme} {pieces : List Lexeme}
    (h : piecesFrom isSeparator start text = piece :: pieces) : piece.start = start := by
  cases text with
  | nil =>
      simp only [piecesFrom, List.cons.injEq] at h
      rw [← h.1]
  | cons c rest =>
      by_cases hc : isSeparator c = true
      · rw [piecesFrom_cons_of_sep hc, List.cons.injEq] at h
        rw [← h.1]
      · obtain ⟨p, ps, -, h'⟩ := piecesFrom_cons_of_not (Bool.not_eq_true _ ▸ hc) start rest
        rw [h', List.cons.injEq] at h
        rw [← h.1]

theorem start_le_of_mem_piecesFrom {start : Nat} {text : List Char} {piece : Lexeme}
    (h : piece ∈ piecesFrom isSeparator start text) : start ≤ piece.start := by
  induction text generalizing start with
  | nil =>
      simp only [piecesFrom, List.mem_singleton] at h
      exact Nat.le_of_eq (h ▸ rfl)
  | cons c rest ih =>
      by_cases hc : isSeparator c = true
      · rw [piecesFrom_cons_of_sep hc] at h
        rcases List.mem_cons.1 h with rfl | h
        · exact Nat.le_refl _
        · have := ih h
          omega
      · obtain ⟨p, ps, hp, h'⟩ := piecesFrom_cons_of_not (Bool.not_eq_true _ ▸ hc) start rest
        rw [h'] at h
        rcases List.mem_cons.1 h with rfl | h
        · exact Nat.le_refl _
        · have := ih (hp ▸ List.mem_cons_of_mem p h)
          omega

/-- Pieces stand from left to right with a separator between any two. -/
theorem piecesFrom_pairwise (start : Nat) (text : List Char) :
    (piecesFrom isSeparator start text).Pairwise fun a b => a.stop < b.start := by
  induction text generalizing start with
  | nil => simp [piecesFrom]
  | cons c rest ih =>
      by_cases hc : isSeparator c = true
      · rw [piecesFrom_cons_of_sep hc]
        refine List.pairwise_cons.2 ⟨fun piece h => ?_, ih (start + 1)⟩
        have := start_le_of_mem_piecesFrom h
        simp only [stop, List.length_nil]
        omega
      · obtain ⟨p, ps, hp, h'⟩ := piecesFrom_cons_of_not (Bool.not_eq_true _ ▸ hc) start rest
        have hrest := ih (start + 1)
        rw [hp] at hrest
        rw [h']
        refine List.pairwise_cons.2 ⟨fun piece h => ?_, (List.pairwise_cons.1 hrest).2⟩
        have hlt := (List.pairwise_cons.1 hrest).1 piece h
        have hstart := start_of_piecesFrom hp
        simp only [stop, List.length_cons] at hlt ⊢
        omega

/-- A piece stands in the text it was cut from and holds no separator. -/
theorem mem_piecesFrom {start : Nat} {text : List Char} {piece : Lexeme}
    (h : piece ∈ piecesFrom isSeparator start text) :
    (∃ before after, text = before ++ (piece.text ++ after) ∧ start + before.length = piece.start) ∧
      ∀ c ∈ piece.text, isSeparator c = false := by
  induction text generalizing start piece with
  | nil =>
      simp only [piecesFrom, List.mem_singleton] at h
      subst h
      exact ⟨⟨[], [], rfl, rfl⟩, by simp⟩
  | cons c rest ih =>
      by_cases hc : isSeparator c = true
      · rw [piecesFrom_cons_of_sep hc] at h
        rcases List.mem_cons.1 h with rfl | h
        · exact ⟨⟨[], c :: rest, rfl, rfl⟩, by simp⟩
        · obtain ⟨⟨before, after, htext, hstart⟩, hsep⟩ := ih h
          exact ⟨⟨c :: before, after, by simp [htext], by simp; omega⟩, hsep⟩
      · have hcf : isSeparator c = false := Bool.not_eq_true _ ▸ hc
        obtain ⟨p, ps, hp, h'⟩ := piecesFrom_cons_of_not hcf start rest
        rw [h'] at h
        rcases List.mem_cons.1 h with rfl | h
        · obtain ⟨⟨before, after, htext, hstart⟩, hsep⟩ := ih (hp ▸ List.mem_cons_self)
          have hbefore : before = [] := by
            have := start_of_piecesFrom hp
            exact List.length_eq_zero_iff.1 (by omega)
          subst hbefore
          refine ⟨⟨[], after, by simpa using htext, rfl⟩, ?_⟩
          intro x hx
          rcases List.mem_cons.1 hx with rfl | hx
          · exact hcf
          · exact hsep x hx
        · obtain ⟨⟨before, after, htext, hstart⟩, hsep⟩ := ih (hp ▸ List.mem_cons_of_mem p h)
          exact ⟨⟨c :: before, after, by simp [htext], by simp; omega⟩, hsep⟩

theorem In.pieces {l piece : Lexeme} {text : List Char} (h : l.In text)
    (hp : piece ∈ l.pieces isSeparator) : piece.In text := by
  obtain ⟨before, after, rfl, hstart⟩ := h
  obtain ⟨⟨front, back, htext, hfront⟩, -⟩ := mem_piecesFrom hp
  exact ⟨before ++ front, back ++ after, by simp [htext], by simp; omega⟩

theorem pieces_pairwise (l : Lexeme) :
    (l.pieces isSeparator).Pairwise fun a b => a.stop < b.start :=
  piecesFrom_pairwise l.start l.text

/-- A piece stays between the two ends of what was cut. -/
theorem pieces_bounds {l piece : Lexeme} (hp : piece ∈ l.pieces isSeparator) :
    l.start ≤ piece.start ∧ piece.stop ≤ l.stop := by
  obtain ⟨⟨front, back, htext, hfront⟩, -⟩ := mem_piecesFrom hp
  have hlen := congrArg List.length htext
  simp only [List.length_append] at hlen
  simp only [stop]
  omega

end Pieces

/-! ### Words -/

theorem In.words {l word : Lexeme} {text : List Char} (h : l.In text) (hw : word ∈ l.words) :
    word.IsWord text := by
  obtain ⟨hp, hne⟩ := List.mem_filter.1 hw
  exact ⟨h.pieces hp, by simpa using hne, (mem_piecesFrom hp).2⟩

theorem words_pairwise (l : Lexeme) : l.words.Pairwise fun a b => a.stop < b.start :=
  (pieces_pairwise l).filter _

theorem words_bounds {l word : Lexeme} (hw : word ∈ l.words) :
    l.start ≤ word.start ∧ word.stop ≤ l.stop :=
  pieces_bounds (List.mem_filter.1 hw).1

/-- Of words from left to right the last one ends last. -/
theorem stop_le_last {words : List Lexeme} {text : List Char} (hw : ∀ word ∈ words, word.IsWord text)
    (ho : words.Pairwise fun a b => a.stop < b.start) {last : Lexeme} (hlast : words.getLast? = some last) :
    ∀ word ∈ words, word.stop ≤ last.stop := by
  obtain ⟨front, rfl⟩ := List.getLast?_eq_some_iff.1 hlast
  intro word hmem
  rcases List.mem_append.1 hmem with hmem | hmem
  · have hlt := (List.pairwise_append.1 ho).2.2 word hmem last (List.mem_singleton_self last)
    have := (hw last (List.mem_append_right _ (List.mem_singleton_self last))).start_lt_stop
    omega
  · exact Nat.le_of_eq (List.mem_singleton.1 hmem ▸ rfl)

end Lexeme

end VbOutline.Text
