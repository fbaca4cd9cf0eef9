import VbOutline.Grammar.Declaration
import VbOutline.Grammar.Parameters

/-! Reading without regard to letter case. Making the ASCII letters of a text small moves no character and
changes no blank, no separator and no keyword. Every reader therefore takes from the changed text what it
takes from the text, changed in the same way; each definition of the grammar has one such lemma here. -/

namespace VbOutline

namespace Text

/-! ### Characters -/

/-- The capital letters of ASCII. -/
def capitals : List Char :=
  ['A', 'B', 'C', 'D', 'E', 'F', 'G', 'H', 'I', 'J', 'K', 'L', 'M', 'N', 'O', 'P', 'Q', 'R', 'S', 'T', 'U', 'V',
    'W', 'X', 'Y', 'Z']

/-- Making letters small changes the capitals only. -/
theorem toLower_eq_self {c : Char} (h : c ∉ capitals) : c.toLower = c := by
  have hrange : ¬ (c.val ≥ 'A'.val ∧ c.val ≤ 'Z'.val) := by
    rintro ⟨hlow, hhigh⟩
    have hlow : 65 ≤ c.toNat := hlow
    have hhigh : c.toNat ≤ 90 := hhigh
    have hmem : c.toNat ∈ capitals.map Char.toNat := by
      simp [capitals]
      omega
    obtain ⟨d, hd, heq⟩ := List.mem_map.1 hmem
    have hcd : d = c := by rw [← Char.ofNat_toNat d, heq, Char.ofNat_toNat]
    exact h (hcd ▸ hd)
  exact dif_neg hrange

/-- What does not tell a capital letter from its small one does not tell case at all. -/
theorem apply_toLower {α : Type} {f : Char → α} (h : capitals.map (fun c => f c.toLower) = capitals.map f)
    (c : Char) : f c.toLower = f c := by
  by_cases hc : c ∈ capitals
  · exact List.map_inj_left.1 h c hc
  · rw [toLower_eq_self hc]

theorem isAlpha_toLower (c : Char) : c.toLower.isAlpha = c.isAlpha := apply_toLower (by decide) c

/-- No blank is a letter. -/
theorem isBlank_toLower (c : Char) : isBlank c.toLower = isBlank c := apply_toLower (by decide) c

/-- Characters are compared in their folded form, which a capital shares with its small letter. -/
theorem fold_toLower (c : Char) : fold c.toLower = fold c := apply_toLower (by decide) c

theorem lowerChar_toLower (c : Char) : lowerChar c.toLower = lowerChar c := apply_toLower (by decide) c

/-- A letter has one capital, whether it is small or not. -/
theorem titleChar_toLower (c : Char) : titleChar c.toLower = titleChar c := apply_toLower (by decide) c

/-- A capital may start a name exactly if its small letter may. -/
theorem isNameStart_toLower (a : Alphabet) (c : Char) : a.isNameStart c.toLower = a.isNameStart c :=
  apply_toLower (by cases a <;> decide) c

theorem isNameChar_toLower (a : Alphabet) (c : Char) : a.isNameChar c.toLower = a.isNameChar c :=
  apply_toLower (by cases a <;> decide) c

/-- A character that is no letter has no case. -/
theorem toLower_eq_iff {x : Char} (hx : x.isAlpha = false) (c : Char) : c.toLower = x ↔ c = x := by
  by_cases hc : c ∈ capitals
  · have hletters : capitals.all Char.isAlpha = true := by decide
    have hcapital := List.all_eq_true.1 hletters c hc
    constructor
    · rintro rfl
      rw [isAlpha_toLower, hcapital] at hx
      cases hx
    · rintro rfl
      rw [hcapital] at hx
      cases hx
  · rw [toLower_eq_self hc]

/-! ### Texts -/

/-- A text with its ASCII letters made small. -/
def uncased (text : List Char) : List Char := text.map Char.toLower

theorem length_uncased (text : List Char) : (uncased text).length = text.length := List.length_map ..

theorem uncased_append (front back : List Char) : uncased (front ++ back) = uncased front ++ uncased back :=
  List.map_append

theorem take_uncased (n : Nat) (text : List Char) : (uncased text).take n = uncased (text.take n) :=
  List.map_take.symm

theorem drop_uncased (n : Nat) (text : List Char) : (uncased text).drop n = uncased (text.drop n) :=
  List.map_drop.symm

theorem dropLast_uncased (text : List Char) : (uncased text).dropLast = uncased text.dropLast :=
  List.map_dropLast.symm

/-- A scan that does not tell case stops at the same character. -/
theorem takeWhile_uncased {p : Char → Bool} (hp : ∀ c, p c.toLower = p c) (text : List Char) :
    (uncased text).takeWhile p = uncased (text.takeWhile p) := by
  rw [uncased, List.takeWhile_map, show p ∘ Char.toLower = p from funext hp]
  rfl

theorem dropWhile_uncased {p : Char → Bool} (hp : ∀ c, p c.toLower = p c) (text : List Char) :
    (uncased text).dropWhile p = uncased (text.dropWhile p) := by
  rw [uncased, List.dropWhile_map, show p ∘ Char.toLower = p from funext hp]
  rfl

/-- A character that is no letter stands in a text exactly if it stands in the changed one. -/
theorem mem_uncased {x : Char} (hx : x.isAlpha = false) {text : List Char} : x ∈ uncased text ↔ x ∈ text := by
  simp [uncased, toLower_eq_iff hx]

/-- What a text starts with is told by a character that is no letter in both texts alike. -/
theorem head?_uncased {x : Char} (hx : x.isAlpha = false) {text : List Char} :
    (uncased text).head? = some x ↔ text.head? = some x := by
  cases text with
  | nil => rfl
  | cons c text => simpa [uncased] using toLower_eq_iff hx c

theorem getLast?_uncased {x : Char} (hx : x.isAlpha = false) {text : List Char} :
    (uncased text).getLast? = some x ↔ text.getLast? = some x := by
  rw [← List.head?_reverse, ← List.head?_reverse, uncased, ← List.map_reverse]
  exact head?_uncased hx

theorem indent_uncased (text : List Char) : indent (uncased text) = indent text := by
  rw [indent, takeWhile_uncased isBlank_toLower, length_uncased, indent]

theorem allBlank_uncased (text : List Char) : allBlank (uncased text) = allBlank text := by
  rw [allBlank, uncased, List.all_map, show isBlank ∘ Char.toLower = isBlank from funext isBlank_toLower, allBlank]

theorem trimStart_uncased (text : List Char) : trimStart (uncased text) = uncased (trimStart text) :=
  dropWhile_uncased isBlank_toLower text

/-- Blanks at the end are cut off alike. -/
theorem trimEnd_uncased (text : List Char) : trimEnd (uncased text) = uncased (trimEnd text) := by
  rw [trimEnd, uncased, ← List.map_reverse, ← uncased, dropWhile_uncased isBlank_toLower, uncased,
    ← List.map_reverse]
  rfl

/-- The folded form of a text, by which keywords are told, does not show its case. -/
theorem folded_uncased (text : List Char) : folded (uncased text) = folded text := by
  rw [folded, uncased, List.map_map]
  exact List.map_congr_left fun c _ => fold_toLower c

theorem lower_uncased (text : List Char) : lower (uncased text) = lower text := by
  rw [lower, uncased, List.flatMap_map]
  exact congrArg (List.flatMap · text) (funext lowerChar_toLower)

/-- A keyword is written in title case in the same way, however it was spelled. -/
theorem capitalize_uncased (text : List Char) : capitalize (uncased text) = capitalize text := by
  cases text with
  | nil => rfl
  | cons c rest =>
      show titleChar c.toLower :: lower (uncased rest) = titleChar c :: lower rest
      rw [titleChar_toLower, lower_uncased]

theorem toList_toLower (s : String) : s.toLower.toList = uncased s.toList := String.toList_map

theorem ofList_uncased (text : List Char) : String.ofList (uncased text) = (String.ofList text).toLower := by
  rw [← String.toList_inj, toList_toLower, String.toList_ofList, String.toList_ofList]

theorem toLower_empty : String.toLower "" = "" := by
  rw [← String.toList_inj, toList_toLower]
  rfl

theorem toLower_append (s t : String) : (s ++ t).toLower = s.toLower ++ t.toLower := by
  simp only [← String.toList_inj, toList_toLower, String.toList_append, uncased_append]

/-- Parts put together with a separator that has no case may be made small one by one. -/
theorem toLower_intercalate {sep : String} (hsep : sep.toLower = sep) (parts : List String) :
    (sep.intercalate parts).toLower = sep.intercalate (parts.map String.toLower) := by
  induction parts with
  | nil => rw [List.map_nil, String.intercalate_nil, toLower_empty]
  | cons part rest ih =>
      cases rest with
      | nil => rw [List.map_singleton, String.intercalate_singleton, String.intercalate_singleton]
      | cons next rest =>
          rw [List.map_cons, List.map_cons, String.intercalate_cons_cons, String.intercalate_cons_cons,
            toLower_append, toLower_append, hsep, ih, List.map_cons]

namespace Lexeme

/-- A lexeme with its ASCII letters made small. -/
def uncased (l : Lexeme) : Lexeme := ⟨l.start, Text.uncased l.text⟩

/-- No character moves, so a lexeme ends where it did. -/
theorem stop_uncased (l : Lexeme) : l.uncased.stop = l.stop := by
  rw [stop, uncased, length_uncased, stop]

/-- A lexeme is spelled with small letters. -/
theorem spelling_uncased (l : Lexeme) : l.uncased.spelling = l.spelling.toLower := ofList_uncased l.text

/-- A text is cut into pieces at the same places, if no letter separates them. -/
theorem piecesFrom_uncased {p : Char → Bool} (hp : ∀ c, p c.toLower = p c) (start : Nat) (text : List Char) :
    piecesFrom p start (Text.uncased text) = (piecesFrom p start text).map uncased := by
  induction text generalizing start with
  | nil => rfl
  | cons c rest ih =>
      show piecesFrom p start (c.toLower :: Text.uncased rest) = _
      simp only [piecesFrom, hp, ih]
      split
      · rfl
      · cases piecesFrom p (start + 1) rest <;> rfl

/-- A lexeme has the same words, in small letters. -/
theorem words_uncased (l : Lexeme) : l.uncased.words = l.words.map uncased := by
  rw [words, pieces, uncased, piecesFrom_uncased isBlank_toLower, List.filter_map, words, pieces]
  congr 1
  refine List.filter_congr fun piece _ => ?_
  cases htext : piece.text <;> simp [uncased, htext, Text.uncased]

end Lexeme

end Text

namespace Grammar

open Text

/-! ### Cursors -/

/-- If the first reader takes the same from both texts, and so does the second from what the first left, then they
do so one after the other. -/
theorem bind_transfer {α β γ δ : Type} {f : α → β} {g : γ → δ} {x : Option α} {y : Option β}
    {k : α → Option γ} {l : β → Option δ} (hx : y = x.map f) (hk : ∀ a, l (f a) = (k a).map g) :
    y >>= l = (x >>= k).map g := by
  subst hx
  cases x with
  | none => rfl
  | some a => exact hk a

/-- A reader that tests the same of both texts, and takes the same, goes on alike or fails in both. -/
theorem ite_transfer {α β : Type} {f : α → β} {p q : Prop} [Decidable p] [Decidable q] (h : q ↔ p) {a : α} {b : β}
    (hb : b = f a) : (if q then some b else none) = (if p then some a else none).map f := by
  subst hb
  by_cases hp : p
  · rw [if_pos (h.2 hp), if_pos hp]
    rfl
  · rw [if_neg (mt h.1 hp), if_neg hp]
    rfl

/-- A keyword that was read, with the letters it was written in made small. -/
def Spelled.uncased (sp : Spelled) : Spelled := ⟨sp.keyword, sp.written.uncased⟩

namespace Cursor

/-- A cursor into the text with its ASCII letters made small. -/
def uncased (c : Cursor) : Cursor := ⟨c.offset, Text.uncased c.rest⟩

theorem advance_uncased (n : Nat) (c : Cursor) : c.uncased.advance n = (c.advance n).uncased := by
  rw [advance, uncased, drop_uncased]
  rfl

theorem atEnd_uncased (c : Cursor) : c.uncased.atEnd = c.atEnd := allBlank_uncased c.rest

/-- The blanks that are skipped are the same. -/
theorem skipBlanks_uncased (c : Cursor) : c.uncased.skipBlanks = c.skipBlanks.uncased := by
  show c.uncased.advance (indent (Text.uncased c.rest)) = _
  rw [indent_uncased, advance_uncased]
  rfl

theorem blanks?_uncased (c : Cursor) : c.uncased.blanks? = c.blanks?.map uncased := by
  rw [blanks?, blanks?, skipBlanks_uncased, uncased, indent_uncased]
  split <;> rfl

/-- A sign that is no letter is read alike. -/
theorem char?_uncased {x : Char} (hx : x.isAlpha = false) (c : Cursor) :
    c.uncased.char? x = (c.char? x).map uncased :=
  ite_transfer (head?_uncased hx) (advance_uncased 1 c)

/-- A keyword is read in whatever case it is written, and what was written is kept. -/
theorem keyword?_uncased (k : Keyword) (c : Cursor) :
    c.uncased.keyword? k = (c.keyword? k).map (Prod.map Spelled.uncased uncased) := by
  simp only [keyword?, uncased, take_uncased]
  refine ite_transfer (by rw [folded_uncased]) ?_
  rw [← uncased, advance_uncased]
  rfl

theorem oneOf?_uncased (ks : List Keyword) (c : Cursor) :
    c.uncased.oneOf? ks = (c.oneOf? ks).map (Prod.map Spelled.uncased uncased) := by
  rw [oneOf?, oneOf?, List.map_findSome?]
  exact congrArg (List.findSome? · ks) (funext fun k => keyword?_uncased k c)

/-- A keyword with blanks behind it is read alike. -/
theorem word?_uncased (ks : List Keyword) (c : Cursor) :
    c.uncased.word? ks = (c.word? ks).map (Prod.map Spelled.uncased uncased) :=
  bind_transfer (oneOf?_uncased ks c) fun (_, d) => bind_transfer (blanks?_uncased d) fun _ => rfl

theorem optionalWord_uncased (ks : List Keyword) (c : Cursor) :
    c.uncased.optionalWord ks = Prod.map (Option.map Spelled.uncased) uncased (c.optionalWord ks) := by
  rw [optionalWord, optionalWord, word?_uncased]
  cases c.word? ks <;> rfl

/-- A name ends at the same character; its letters are made small. -/
theorem name?_uncased (a : Alphabet) (c : Cursor) :
    c.uncased.name? a = (c.name? a).map (Prod.map Lexeme.uncased uncased) := by
  obtain ⟨offset, rest⟩ := c
  cases rest with
  | nil => rfl
  | cons first rest =>
      have htext : first.toLower :: (Text.uncased rest).takeWhile a.isNameChar =
          Text.uncased (first :: rest.takeWhile a.isNameChar) := by
        rw [takeWhile_uncased (isNameChar_toLower a)]
        rfl
      refine ite_transfer (by rw [isNameStart_toLower]) ?_
      show (Lexeme.mk offset (first.toLower :: (Text.uncased rest).takeWhile a.isNameChar),
        (uncased ⟨offset, first :: rest⟩).advance
          (first.toLower :: (Text.uncased rest).takeWhile a.isNameChar).length) = _
      rw [htext, length_uncased, advance_uncased]
      rfl

/-! ### Headers -/

/-- A parenthesis that closes at the end is found alike. -/
theorem parenthesized?_uncased (c : Cursor) :
    c.uncased.parenthesized? = c.parenthesized?.map Lexeme.uncased := by
  refine bind_transfer (char?_uncased (by decide) c) fun inner => ?_
  simp only [uncased, trimEnd_uncased, dropLast_uncased]
  exact ite_transfer (and_congr (getLast?_uncased (by decide)) (not_congr (mem_uncased (by decide)))) rfl

theorem parameters?_uncased (c : Cursor) :
    c.uncased.parameters? = c.parameters?.map (Option.map Lexeme.uncased) := by
  rw [parameters?, parameters?, atEnd_uncased, skipBlanks_uncased, parenthesized?_uncased]
  split
  · rfl
  · cases c.skipBlanks.parenthesized? <;> rfl

/-- The visibility of a member, and the mark of a default one, are read alike. -/
theorem memberVisibility_uncased (c : Cursor) :
    c.uncased.memberVisibility = Prod.map (Option.map Lexeme.uncased) uncased c.memberVisibility := by
  rw [memberVisibility, memberVisibility, optionalWord_uncased]
  obtain ⟨visibility, next⟩ := c.optionalWord visibilities
  cases visibility with
  | none => rfl
  | some visibility =>
      show (some _, (next.uncased.optionalWord _).2) = _
      rw [optionalWord_uncased]
      rfl

/-- The keyword of a member is read alike, a property's with the one behind it. -/
theorem memberKeyword?_uncased (kind : MemberKind) (c : Cursor) :
    c.uncased.memberKeyword? kind = (c.memberKeyword? kind).map (Prod.map Spelled.uncased uncased) := by
  cases kind with
  | method => exact word?_uncased _ c
  | property => exact bind_transfer (word?_uncased _ c) fun (_, d) => word?_uncased _ d

end Cursor

/-- A header with the letters of its parts made small. -/
def MemberHeader.uncased (h : MemberHeader) : MemberHeader :=
  ⟨h.visibility.map Lexeme.uncased, h.keyword.uncased, h.name.uncased, h.parameters.map Lexeme.uncased⟩

/-- The header of a member is read alike, part by part. -/
theorem MemberHeader.read?_uncased (kind : MemberKind) (c : Cursor) :
    MemberHeader.read? kind c.uncased = (MemberHeader.read? kind c).map MemberHeader.uncased := by
  rw [MemberHeader.read?, MemberHeader.read?, Cursor.skipBlanks_uncased, Cursor.memberVisibility_uncased]
  obtain ⟨visibility, d⟩ := c.skipBlanks.memberVisibility
  refine bind_transfer (Cursor.memberKeyword?_uncased kind d) fun (keyword, d) => ?_
  refine bind_transfer (Cursor.name?_uncased .folding d) fun (name, d) => ?_
  exact bind_transfer (Cursor.parameters?_uncased d) fun _ => rfl

theorem readClassHeader?_uncased (c : Cursor) :
    readClassHeader? c.uncased = (readClassHeader? c).map Lexeme.uncased := by
  rw [readClassHeader?, readClassHeader?, Cursor.skipBlanks_uncased]
  refine bind_transfer (Cursor.word?_uncased _ _) fun (_, d) => ?_
  refine bind_transfer (Cursor.name?_uncased .folding d) fun (name, d) => ?_
  exact ite_transfer (by rw [Cursor.atEnd_uncased]) rfl

/-- The end of a block is read alike. -/
theorem readEnd?_uncased (ks : List Keyword) (c : Cursor) :
    readEnd? ks c.uncased = (readEnd? ks c).map Spelled.uncased := by
  rw [readEnd?, readEnd?, Cursor.skipBlanks_uncased]
  refine bind_transfer (Cursor.word?_uncased _ _) fun (_, d) => ?_
  refine bind_transfer (Cursor.oneOf?_uncased ks d) fun (keyword, d) => ?_
  exact ite_transfer (by rw [Cursor.atEnd_uncased]) rfl

/-! ### Declarations -/

/-- The declaration of a field with its letters made small. -/
def FieldDeclaration.uncased (d : FieldDeclaration) : FieldDeclaration := ⟨d.visibility.uncased, d.name.uncased⟩

/-- A field is read alike; whether its name is a reserved word does not depend on its case. -/
theorem FieldDeclaration.read?_uncased (c : Cursor) :
    FieldDeclaration.read? c.uncased = (FieldDeclaration.read? c).map FieldDeclaration.uncased := by
  rw [FieldDeclaration.read?, FieldDeclaration.read?, Cursor.skipBlanks_uncased]
  refine bind_transfer (Cursor.word?_uncased _ _) fun (visibility, d) => ?_
  refine bind_transfer (Cursor.name?_uncased .folding d) fun (name, d) => ?_
  refine ite_transfer (and_congr (by rw [Cursor.atEnd_uncased]) ?_) rfl
  rw [Lexeme.uncased, folded_uncased]

/-- The declaration of a constant with its letters made small. -/
def ConstDeclaration.uncased (d : ConstDeclaration) : ConstDeclaration :=
  ⟨d.visibility.map Lexeme.uncased, d.name.uncased⟩

theorem ConstDeclaration.read?_uncased (c : Cursor) :
    ConstDeclaration.read? c.uncased = (ConstDeclaration.read? c).map ConstDeclaration.uncased := by
  rw [ConstDeclaration.read?, ConstDeclaration.read?, Cursor.skipBlanks_uncased, Cursor.optionalWord_uncased]
  obtain ⟨visibility, d⟩ := c.skipBlanks.optionalWord visibilities
  refine bind_transfer (Cursor.word?_uncased _ d) fun (_, d) => ?_
  refine bind_transfer (Cursor.name?_uncased .folding d) fun (name, d) => ?_
  have hvalue := Cursor.char?_uncased (x := '=') (by decide) d.skipBlanks
  rw [← Cursor.skipBlanks_uncased] at hvalue
  refine bind_transfer hvalue fun value => ?_
  refine ite_transfer ?_ ?_
  · rw [Cursor.uncased, dropLast_uncased, mem_uncased (by decide)]
  · cases visibility <;> rfl

/-! ### Lists of variables -/

/-- A variable of a list with its letters made small. -/
def DimItem.uncased (e : DimItem) : DimItem := ⟨e.name.uncased, e.stop⟩

namespace Cursor

/-- The bounds of an array are passed over alike: its parentheses have no case. -/
theorem skipBounds_uncased (c : Cursor) : c.uncased.skipBounds = c.skipBounds.uncased := by
  rw [skipBounds, skipBounds, skipBlanks_uncased, char?_uncased (by decide)]
  cases c.skipBlanks.char? '(' with
  | none => rfl
  | some inner =>
      have hinner : ∀ x : Char, (decide (x.toLower ≠ '(') && decide (x.toLower ≠ ')')) =
          (decide (x ≠ '(') && decide (x ≠ ')')) := by
        intro x
        simp only [ne_eq, toLower_eq_iff (x := '(') (by decide), toLower_eq_iff (x := ')') (by decide)]
      show ((inner.uncased.advance ((Text.uncased inner.rest).takeWhile _).length).char? ')').getD c.uncased = _
      rw [takeWhile_uncased hinner, length_uncased, advance_uncased, char?_uncased (by decide)]
      dsimp only
      cases (inner.advance _).char? ')' <;> rfl

theorem dimItem?_uncased (a : Alphabet) (c : Cursor) :
    c.uncased.dimItem? a = (c.dimItem? a).map (Prod.map DimItem.uncased uncased) := by
  refine bind_transfer (name?_uncased a c) fun (name, d) => ?_
  show some (_, d.uncased.skipBounds) = _
  rw [skipBounds_uncased]
  rfl

theorem comma?_uncased (c : Cursor) : c.uncased.comma? = c.comma?.map uncased := by
  rw [comma?, comma?, skipBlanks_uncased, char?_uncased (by decide), Option.map_map, Option.map_map]
  exact congrArg (Option.map · _) (funext skipBlanks_uncased)

/-- The variables behind the first are read alike, with the same number of steps at hand. -/
theorem dimTail_uncased (fuel : Nat) (c : Cursor) :
    c.uncased.dimTail fuel = Prod.map (List.map DimItem.uncased) uncased (c.dimTail fuel) := by
  induction fuel generalizing c with
  | zero => rfl
  | succ fuel ih =>
      have hitem : c.uncased.comma?.bind (dimItem? .folding) =
          (c.comma?.bind (dimItem? .folding)).map (Prod.map DimItem.uncased uncased) :=
        bind_transfer (comma?_uncased c) fun d => dimItem?_uncased .folding d
      rw [dimTail, dimTail, hitem]
      cases c.comma?.bind (dimItem? .folding) with
      | none => rfl
      | some found =>
          obtain ⟨item, next⟩ := found
          show (item.uncased :: (next.uncased.dimTail fuel).1, (next.uncased.dimTail fuel).2) = _
          rw [ih]
          rfl

end Cursor

/-- The declaration of variables with its letters made small. -/
def DimDeclaration.uncased (d : DimDeclaration) : DimDeclaration :=
  ⟨d.keyword.uncased, d.items.map DimItem.uncased, d.list.uncased⟩

/-- A list of variables is read alike. -/
theorem DimDeclaration.read?_uncased (c : Cursor) :
    DimDeclaration.read? c.uncased = (DimDeclaration.read? c).map DimDeclaration.uncased := by
  rw [DimDeclaration.read?, DimDeclaration.read?, Cursor.skipBlanks_uncased]
  refine bind_transfer (Cursor.word?_uncased _ _) fun (keyword, d) => ?_
  refine bind_transfer (Cursor.dimItem?_uncased .folding d) fun (first, next) => ?_
  have hlast : next.uncased.dimTail next.uncased.rest.length =
      Prod.map (List.map DimItem.uncased) Cursor.uncased (next.dimTail next.rest.length) := by
    rw [Cursor.dimTail_uncased, Cursor.uncased, length_uncased]
  refine ite_transfer ?_ ?_
  · show (next.uncased.dimTail next.uncased.rest.length).2.atEnd = true ↔ _
    rw [hlast, Prod.map_snd, Cursor.atEnd_uncased]
  · rw [hlast, Cursor.uncased, take_uncased]
    rfl

/-- The second reading of a list, which has its own alphabet, finds the same variables. -/
theorem scanItems_uncased (fuel : Nat) (c : Cursor) :
    scanItems fuel c.uncased = (scanItems fuel c).map DimItem.uncased := by
  induction fuel generalizing c with
  | zero => rfl
  | succ fuel ih =>
      rw [scanItems, scanItems, Cursor.dimItem?_uncased]
      cases c.dimItem? .plain with
      | some found =>
          obtain ⟨item, next⟩ := found
          exact congrArg (item.uncased :: ·) (ih next)
      | none =>
          have hempty : c.uncased.rest.isEmpty = c.rest.isEmpty := List.isEmpty_map
          show (if c.uncased.rest.isEmpty = true then [] else scanItems fuel (c.uncased.advance 1)) = _
          rw [hempty, Cursor.advance_uncased, ih]
          dsimp only [Option.map_none]
          split <;> rfl

theorem DimDeclaration.declared_uncased (d : DimDeclaration) :
    d.uncased.declared = d.declared.map DimItem.uncased := by
  show scanItems (Text.uncased d.list.text).length _ = _
  rw [length_uncased]
  exact scanItems_uncased _ ⟨d.list.start, d.list.text⟩

/-! ### Parameters -/

theorem emptyPair?_uncased (text : List Char) : emptyPair? (uncased text) = emptyPair? text := by
  cases text with
  | nil => rfl
  | cons c rest =>
      by_cases hc : c = '('
      · subst hc
        show (if (trimStart (uncased rest)).head? = some ')' then some (indent (uncased rest) + 2) else none) =
          if (trimStart rest).head? = some ')' then some (indent rest + 2) else none
        simp only [trimStart_uncased, indent_uncased, head?_uncased (x := ')') (by decide)]
      · have hc' : c.toLower ≠ '(' := mt (toLower_eq_iff (by decide) c).1 hc
        show emptyPair? (c.toLower :: uncased rest) = _
        rw [emptyPair?, emptyPair?] <;> simp [hc, hc']

/-- Empty pairs of parentheses are blanked alike. -/
theorem blankPairsFrom_uncased (owed : Nat) (text : List Char) :
    blankPairsFrom owed (uncased text) = uncased (blankPairsFrom owed text) := by
  induction text generalizing owed with
  | nil => cases owed <;> rfl
  | cons c rest ih =>
      cases owed with
      | succ owed => exact congrArg (' ' :: ·) (ih owed)
      | zero =>
          have hpair := emptyPair?_uncased (c :: rest)
          show blankPairsFrom 0 (c.toLower :: uncased rest) = _
          rw [blankPairsFrom, blankPairsFrom, show emptyPair? (c.toLower :: uncased rest) = _ from hpair]
          cases emptyPair? (c :: rest) with
          | none => exact congrArg (c.toLower :: ·) (ih 0)
          | some length => exact congrArg (' ' :: ·) (ih (length - 1))

theorem isSupported_uncased (text : List Char) : isSupported (uncased text) = isSupported text := by
  have hany : ∀ x : Char, (x.toLower == '(' || x.toLower == ')') = (x == '(' || x == ')') := by
    intro x
    rw [Bool.eq_iff_iff]
    simp [toLower_eq_iff (x := '(') (by decide), toLower_eq_iff (x := ')') (by decide)]
  rw [isSupported, blankPairs, blankPairsFrom_uncased, uncased, List.any_map]
  exact congrArg (fun p => !(blankPairs text).any p) (funext hany)

namespace Parameter

/-- A parameter with the letters of its words made small. -/
def uncased (p : Parameter) : Parameter := ⟨p.first.uncased, p.others.map Lexeme.uncased⟩

theorem ofWords?_uncased (words : List Lexeme) :
    ofWords? (words.map Lexeme.uncased) = (ofWords? words).map uncased := by
  cases words <;> rfl

theorem named_uncased (p : Parameter) : p.uncased.named = p.named.map Lexeme.uncased := by
  obtain ⟨first, others⟩ := p
  cases others <;> rfl

theorem nameStart_uncased (p : Parameter) : p.uncased.nameStart = p.nameStart := by
  obtain ⟨first, others⟩ := p
  cases others <;> rfl

theorem stop_uncased (p : Parameter) : p.uncased.stop = p.stop := by
  have hlast : p.uncased.others.getLastD p.uncased.first = (p.others.getLastD p.first).uncased := by
    rw [List.getLastD_eq_getLast?, List.getLastD_eq_getLast?, uncased, List.getLast?_map, Option.getD_map]
  rw [stop, hlast, Lexeme.stop_uncased, stop]

/-- A parameter is named by the same words, in small letters. -/
theorem name_uncased (p : Parameter) : p.uncased.name = p.name.toLower := by
  have hwords : p.uncased.named.map Lexeme.spelling = (p.named.map Lexeme.spelling).map String.toLower := by
    rw [named_uncased, List.map_map, List.map_map]
    exact List.map_congr_left fun word _ => word.spelling_uncased
  have hspace : String.toLower " " = " " := by
    rw [← String.toList_inj, toList_toLower]
    rfl
  rw [name, hwords, ← toLower_intercalate hspace, name]

end Parameter

/-- A list of parameters is read alike, or cannot be read in either case. -/
theorem readParameters?_uncased (text : List Char) :
    readParameters? (uncased text) = (readParameters? text).map (List.map Parameter.uncased) := by
  refine ite_transfer (by rw [isSupported_uncased]) ?_
  have hcomma : ∀ c : Char, (c.toLower == ',') = (c == ',') := by
    intro c
    rw [Bool.eq_iff_iff]
    simp [toLower_eq_iff (x := ',') (by decide)]
  rw [blankPairs, blankPairsFrom_uncased, Lexeme.pieces, Lexeme.piecesFrom_uncased hcomma, List.filterMap_map,
    List.map_filterMap]
  refine congrArg (List.filterMap · _) (funext fun piece => ?_)
  rw [Function.comp, Lexeme.words_uncased, Parameter.ofWords?_uncased]

end Grammar

end VbOutline
