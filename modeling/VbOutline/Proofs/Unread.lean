import VbOutline.Proofs.Composition
import VbOutline.Proofs.Readers

/-! What is not read. Inside of a string literal only quotes count, and behind an apostrophe outside of
literals nothing does: replacing any other character there leaves the code of the line as it is, and with
it everything that is found in the document. Whether a place is inside of a literal is told by the
parity of the quotes before it. -/

namespace VbOutline

namespace Source

open Text Grammar

/-! ### String literals -/

namespace Quoting

/-- The number of quotes read so far, up to an even number. -/
def opened : Quoting → Nat
  | outside | doubled => 0
  | inside => 1

/-- The state after a character; what follows decides whether a quote opens, closes or is doubled. -/
def next (state : Quoting) (c : Char) (rest : List Char) : Quoting :=
  match state with
  | outside => if c = '"' ∧ '"' ∈ rest then inside else outside
  | inside =>
    if c ≠ '"' then inside
    else if rest.head? = some '"' ∧ '"' ∈ rest.tail then doubled else outside
  | doubled => inside

/-- The second half of a doubled quote is a quote. -/
def Fits (state : Quoting) (rest : List Char) : Prop := state = doubled → rest.head? = some '"'

theorem fits_next (state : Quoting) (c : Char) (rest : List Char) : (state.next c rest).Fits rest := by
  intro h
  cases state with
  | outside =>
      simp only [next] at h
      split at h <;> cases h
  | inside =>
      simp only [next] at h
      split at h
      · cases h
      · split at h
        · next hdoubled => exact hdoubled.1
        · cases h
  | doubled => cases h

/-- Every quote counts, except one that would open a literal that nothing closes. -/
theorem opened_next {state : Quoting} {c : Char} {rest : List Char} (hfits : state.Fits (c :: rest))
    (hrest : state = outside → c = '"' → '"' ∈ rest) (front : List Char) :
    ((state.next c rest).opened + front.count '"') % 2 = (state.opened + (c :: front).count '"') % 2 := by
  cases state with
  | outside =>
      by_cases hc : c = '"'
      · simp only [next, hc, hrest rfl hc, and_self, if_true, opened, List.count_cons_self]
        omega
      · simp [next, hc, opened]
  | inside =>
      by_cases hc : c = '"'
      · by_cases h : rest.head? = some '"' ∧ '"' ∈ rest.tail <;> simp [next, hc, h, opened] <;> omega
      · simp [next, hc, opened]
  | doubled =>
      have hc : c = '"' := by simpa using hfits rfl
      simp only [next, hc, opened, List.count_cons_self]
      omega

theorem quote_mem_of_odd {text : List Char} (h : text.count '"' % 2 = 1) : '"' ∈ text :=
  List.count_pos_iff.1 (by omega)

/-- Before a place with an even number of quotes in front, nothing behind the place decides about quotes. -/
theorem next_append {state : Quoting} {c : Char} {rest back : List Char}
    (heven : (state.opened + (c :: rest).count '"') % 2 = 0) (hback : back.head? ≠ some '"') :
    state.next c (rest ++ back) = state.next c rest := by
  by_cases hc : c = '"'
  · subst hc
    rw [List.count_cons_self] at heven
    cases state with
    | outside =>
        have hmem : '"' ∈ rest := quote_mem_of_odd (by simp only [opened] at heven; omega)
        simp [next, hmem]
    | inside =>
        cases rest with
        | nil => simp [next, hback]
        | cons x rest =>
            by_cases hx : x = '"'
            · subst hx
              rw [List.count_cons_self] at heven
              have hmem : '"' ∈ rest := quote_mem_of_odd (by simp only [opened] at heven; omega)
              simp [next, hmem]
            · simp [next, hx]
    | doubled => rfl
  · cases state <;> simp [next, hc]

end Quoting

/-- A character is blanked if a literal is open before it and after it. -/
theorem blankLiteralsFrom_cons (state : Quoting) (c : Char) (rest : List Char) :
    blankLiteralsFrom state (c :: rest) =
      (if state = .outside ∨ state.next c rest = .outside then c else ' ') ::
        blankLiteralsFrom (state.next c rest) rest := by
  cases state with
  | outside => simp [blankLiteralsFrom, Quoting.next]
  | inside =>
      by_cases hc : c = '"'
      · by_cases hrest : rest.head? = some '"' ∧ '"' ∈ rest.tail <;>
          simp [blankLiteralsFrom, Quoting.next, hc, hrest]
      · simp [blankLiteralsFrom, Quoting.next, hc]
  | doubled => simp [blankLiteralsFrom, Quoting.next]

/-- A line is read in two parts where no literal is open. -/
theorem blankLiteralsFrom_append {state : Quoting} {front back : List Char} (hfits : state.Fits (front ++ back))
    (heven : (state.opened + front.count '"') % 2 = 0) (hback : back.head? ≠ some '"') :
    blankLiteralsFrom state (front ++ back) = blankLiteralsFrom state front ++ blankLiterals back := by
  induction front generalizing state with
  | nil =>
      cases state with
      | outside => rfl
      | inside => simp [Quoting.opened] at heven
      | doubled => exact absurd (hfits rfl) hback
  | cons c rest ih =>
      have hnext := Quoting.next_append heven hback
      have hrest : state = .outside → c = '"' → '"' ∈ rest := by
        rintro rfl rfl
        rw [List.count_cons_self] at heven
        exact Quoting.quote_mem_of_odd (by simp only [Quoting.opened] at heven; omega)
      have hparity := Quoting.opened_next (show state.Fits (c :: rest) from hfits) hrest rest
      rw [List.cons_append, blankLiteralsFrom_cons, blankLiteralsFrom_cons, hnext,
        ih (hnext ▸ Quoting.fits_next state c (rest ++ back)) (hparity.trans heven), List.cons_append]

/-- Inside of a literal any character but a quote stands for any other. -/
theorem blankLiteralsFrom_replace {state : Quoting} {front back : List Char} {c d : Char} (hc : c ≠ '"')
    (hd : d ≠ '"') (hfits : state.Fits (front ++ c :: back)) (hodd : (state.opened + front.count '"') % 2 = 1)
    (hclosed : '"' ∈ back) :
    blankLiteralsFrom state (front ++ c :: back) = blankLiteralsFrom state (front ++ d :: back) := by
  induction front generalizing state with
  | nil =>
      cases state with
      | outside | doubled => simp [Quoting.opened] at hodd
      | inside => simp [blankLiteralsFrom, hc, hd]
  | cons x rest ih =>
      have hnext : state.next x (rest ++ c :: back) = state.next x (rest ++ d :: back) := by
        cases state <;> cases rest <;> simp [Quoting.next, hc, hd, hclosed]
      have hparity := Quoting.opened_next (show state.Fits (x :: (rest ++ c :: back)) from hfits)
        (fun _ _ => by simp [hclosed]) rest
      rw [List.cons_append, List.cons_append, blankLiteralsFrom_cons, blankLiteralsFrom_cons, ← hnext,
        ih (Quoting.fits_next state x (rest ++ c :: back)) (hparity.trans hodd)]

/-! ### Comments -/

theorem isRemark_eq (line : List Char) :
    isRemark line =
      (decide (folded ((line.dropWhile isBlank).take 3) = Keyword.remKw.letters) &&
        ((line.dropWhile isBlank).drop 3).head?.all isBlank) := by
  have hlength : Keyword.remKw.letters.length = 3 := rfl
  simp only [isRemark, Cursor.keyword?, Cursor.advance, Cursor.skipBlanks_rest, hlength]
  by_cases h : folded ((line.dropWhile isBlank).take 3) = Keyword.remKw.letters <;> simp [h]

/-- An apostrophe belongs to no keyword, so what stands behind it does not make a remark. -/
theorem isRemark_append (front back back' : List Char) :
    isRemark (front ++ '\'' :: back) = isRemark (front ++ '\'' :: back') := by
  have hdrop : ∀ tail, (front ++ '\'' :: tail).dropWhile isBlank = front.dropWhile isBlank ++ '\'' :: tail := by
    intro tail
    rw [List.dropWhile_append]
    split
    · next h =>
        rw [List.isEmpty_iff.1 h]
        rfl
    · rfl
  rw [isRemark_eq, isRemark_eq, hdrop, hdrop]
  by_cases hlen : 3 ≤ (front.dropWhile isBlank).length
  · rw [List.take_append_of_le_length hlen, List.take_append_of_le_length hlen,
      List.drop_append_of_le_length hlen, List.drop_append_of_le_length hlen, List.head?_append,
      List.head?_append]
    rfl
  · have hnot : ∀ tail, folded ((front.dropWhile isBlank ++ '\'' :: tail).take 3) ≠ Keyword.remKw.letters := by
      intro tail heq
      have hmem : '\'' ∈ (front.dropWhile isBlank ++ '\'' :: tail).take 3 := by
        rw [List.mem_take_iff_getElem]
        exact ⟨(front.dropWhile isBlank).length, by simp; omega, by simp⟩
      have hletter : fold '\'' ∈ Keyword.remKw.letters := heq ▸ List.mem_map_of_mem hmem
      exact absurd hletter (by decide)
    rw [decide_eq_false (hnot back), decide_eq_false (hnot back')]
    rfl

theorem code_comment {front : List Char} (heven : front.count '"' % 2 = 0) (back back' : List Char) :
    code (front ++ '\'' :: back) = code (front ++ '\'' :: back') := by
  have hblank : ∀ tail, blankLiterals (front ++ '\'' :: tail) =
      blankLiterals front ++ '\'' :: blankLiterals tail := fun tail =>
    blankLiteralsFrom_append nofun (by simpa [Quoting.opened] using heven) (by simp)
  have htake : ∀ shown tail : List Char,
      (shown ++ '\'' :: tail).takeWhile (· ≠ '\'') = shown.takeWhile (· ≠ '\'') := by
    intro shown tail
    rw [List.takeWhile_append]
    split
    · next hlen =>
        rw [(List.takeWhile_prefix _).eq_of_length hlen, List.takeWhile_cons_of_neg (by simp), List.append_nil]
    · rfl
  rw [code, code, hblank, hblank, dropComment, dropComment, htake, htake, isRemark_append]

/-! ### Places that are not read -/

/-- A place inside of a string literal: an odd number of quotes stands before it, and another one behind it. -/
def InLiteral (row : List Char) (i : Nat) : Prop :=
  row[i]? ≠ some '"' ∧ (row.take i).count '"' % 2 = 1 ∧ '"' ∈ row.drop (i + 1)

/-- A place inside of a comment: behind an apostrophe with an even number of quotes before it. -/
def InComment (row : List Char) (i : Nat) : Prop :=
  ∃ j < i, row[j]? = some '\'' ∧ (row.take j).count '"' % 2 = 0

theorem cut_at {row : List Char} {i : Nat} {c : Char} (h : row[i]? = some c) :
    row = row.take i ++ c :: row.drop (i + 1) := by
  obtain ⟨hi, rfl⟩ := List.getElem?_eq_some_iff.1 h
  rw [List.getElem_cons_drop, List.take_append_drop]

theorem code_set_of_inLiteral {row : List Char} {i : Nat} (hi : i < row.length) (h : InLiteral row i)
    {d : Char} (hd : d ≠ '"') : code (row.set i d) = code row := by
  obtain ⟨hc, hodd, hclosed⟩ := h
  have hcut := cut_at (List.getElem?_eq_getElem hi)
  rw [List.getElem?_eq_getElem hi, ne_eq, Option.some.injEq] at hc
  have hblank : blankLiterals row = blankLiterals (row.set i d) := by
    rw [List.set_eq_take_append_cons_drop, if_pos hi]
    conv_lhs => rw [hcut]
    exact blankLiteralsFrom_replace hc hd nofun (by simpa [Quoting.opened] using hodd) hclosed
  rw [code, code, hblank]

/-- A line is not read from a place inside of a comment on. -/
theorem code_of_inComment {row row' : List Char} {i : Nat} (h : InComment row i)
    (htake : row'.take i = row.take i) : code row' = code row := by
  obtain ⟨j, hj, hquote, heven⟩ := h
  have hquote' : row'[j]? = some '\'' := by
    rw [← List.getElem?_take_of_lt hj, htake, List.getElem?_take_of_lt hj, hquote]
  have hfront : row'.take j = row.take j := by
    rw [← Nat.min_eq_left hj.le, ← List.take_take, htake, List.take_take]
  rw [cut_at hquote, cut_at hquote', hfront]
  exact code_comment heven _ _

/-! ### Lines of a document -/

/-- The offset in a document at which a line starts: just after the line feed that ends the line before. -/
def lineStart : List Char → Nat → Nat
  | _, 0 => 0
  | [], _ + 1 => 0
  | c :: rest, n + 1 => lineStart rest (if c = '\n' then n else n + 1) + 1

/-- A document is cut into lines on its own in front of the start of a line. -/
theorem physicalLines_take_lineStart {text : List Char} {n : Nat} (hn : n < (physicalLines text).length)
    (u : List Char) :
    physicalLines (text.take (lineStart text n) ++ u) = (physicalLines text).take n ++ physicalLines u := by
  fun_induction physicalLines text generalizing n with
  | case1 =>
      rw [List.length_singleton, Nat.lt_one_iff] at hn
      subst hn
      rfl
  | case2 rest ih =>
      cases n with
      | zero => rfl
      | succ n =>
          rw [lineStart, if_pos rfl, List.take_succ_cons, List.cons_append, physicalLines,
            ih (Nat.lt_of_succ_lt_succ hn)]
          rfl
  | case3 rest ih =>
      cases n with
      | zero => rfl
      | succ n =>
          rw [lineStart, if_neg (by decide), lineStart, if_pos rfl, List.take_succ_cons, List.take_succ_cons,
            List.cons_append, List.cons_append, physicalLines, ih (Nat.lt_of_succ_lt_succ hn)]
          rfl
  | case4 c rest hfeed hreturn hrest ih => exact absurd hrest (physicalLines_ne_nil rest)
  | case5 c rest hfeed hreturn line lines hrest ih =>
      cases n with
      | zero => rfl
      | succ n =>
          rw [hrest] at ih
          rw [lineStart, if_neg hfeed, List.take_succ_cons, List.cons_append, List.take_succ_cons,
            List.cons_append]
          refine physicalLines_cons hfeed (fun hc hhead => ?_) (ih (n := n + 1) hn)
          cases rest with
          | nil =>
              cases hrest
              simp at hn
          | cons x rest =>
              rw [lineStart, List.take_succ_cons] at hhead
              cases hhead
              exact hreturn rest hc rfl

theorem physicalLines_drop_lineStart {text line : List Char} {n : Nat}
    (hline : (physicalLines text)[n]? = some line) :
    physicalLines (text.drop (lineStart text n)) = line :: (physicalLines text).drop (n + 1) := by
  obtain ⟨hn, rfl⟩ := List.getElem?_eq_some_iff.1 hline
  have hcut := physicalLines_take_lineStart hn (text.drop (lineStart text n))
  rw [List.take_append_drop] at hcut
  have hdrop := congrArg (List.drop n) hcut
  rw [List.drop_left' (by rw [List.length_take]; omega)] at hdrop
  rw [← hdrop, List.getElem_cons_drop]

theorem physicalLines_prefix {text line : List Char} {lines : List (List Char)}
    (h : physicalLines text = line :: lines) : line <+: text := by
  fun_induction physicalLines text generalizing line lines with
  | case1 | case2 | case3 =>
      cases h
      exact List.nil_prefix
  | case4 c rest hfeed hreturn hrest ih => exact absurd hrest (physicalLines_ne_nil rest)
  | case5 c rest hfeed hreturn first lines hrest ih =>
      cases h
      exact List.cons_prefix_cons.2 ⟨rfl, ih hrest⟩

/-- The characters of a line stand behind its start. -/
theorem getElem?_lineStart {text row : List Char} {n i : Nat} (hline : (physicalLines text)[n]? = some row)
    (hi : i < row.length) : text[lineStart text n + i]? = row[i]? := by
  obtain ⟨tail, htail⟩ := physicalLines_prefix (physicalLines_drop_lineStart hline)
  rw [← List.getElem?_drop, ← htail, List.getElem?_append_left hi]

theorem head?_set_ne {text : List Char} {i : Nat} {c d : Char} (hd : d ≠ c) (h : text.head? ≠ some c) :
    (text.set i d).head? ≠ some c := by
  cases text with
  | nil => exact h
  | cons x text =>
      cases i with
      | zero => simpa using hd
      | succ i => exact h

/-- A character of the first line is replaced. Nothing else changes, unless a carriage return now stands before the
line feed: it belongs to the line's end then. -/
theorem physicalLines_set_first {text line : List Char} {lines : List (List Char)}
    (h : physicalLines text = line :: lines) {i : Nat} (hi : i < line.length) {d : Char} (hd : d ≠ '\n') :
    ∃ line', (line' = line.set i d ∨ i + 1 = line.length ∧ line' = line.take i) ∧
      physicalLines (text.set i d) = line' :: lines := by
  fun_induction physicalLines text generalizing i line lines with
  | case1 | case2 | case3 =>
      cases h
      cases hi
  | case4 c rest hfeed hreturn hrest ih => exact absurd hrest (physicalLines_ne_nil rest)
  | case5 c rest hfeed hreturn first lines hrest ih =>
      cases h
      cases i with
      | zero =>
          by_cases hend : d = '\r' ∧ rest.head? = some '\n'
          · obtain ⟨rfl, hhead⟩ := hend
            obtain ⟨rest, rfl⟩ := List.head?_eq_some_iff.1 hhead
            cases hrest
            exact ⟨[], Or.inr ⟨rfl, rfl⟩, rfl⟩
          · exact ⟨d :: first, Or.inl rfl, physicalLines_cons hd (fun hc hhead => hend ⟨hc, hhead⟩) hrest⟩
      | succ i =>
          obtain ⟨line', hline', hlines⟩ := ih hrest (Nat.lt_of_succ_lt_succ hi)
          refine ⟨c :: line', ?_, physicalLines_cons hfeed (fun hc => head?_set_ne hd ?_) hlines⟩
          · rcases hline' with rfl | ⟨hlen, rfl⟩
            · exact Or.inl rfl
            · exact Or.inr ⟨congrArg Nat.succ hlen, rfl⟩
          · intro hhead
            obtain ⟨rest', rfl⟩ := List.head?_eq_some_iff.1 hhead
            exact hreturn rest' hc rfl

theorem physicalLines_set {text line : List Char} {n i : Nat} (hline : (physicalLines text)[n]? = some line)
    (hi : i < line.length) {d : Char} (hd : d ≠ '\n') :
    ∃ line', (line' = line.set i d ∨ i + 1 = line.length ∧ line' = line.take i) ∧
      physicalLines (text.set (lineStart text n + i) d) = (physicalLines text).set n line' := by
  obtain ⟨line', hline', hfirst⟩ := physicalLines_set_first (physicalLines_drop_lineStart hline) hi hd
  have hn := (List.getElem?_eq_some_iff.1 hline).1
  have hcut : text.set (lineStart text n + i) d =
      text.take (lineStart text n) ++ (text.drop (lineStart text n)).set i d := by
    rw [List.set_drop, ← List.take_set_of_le (a := d) (Nat.le_add_right (lineStart text n) i),
      List.take_append_drop]
  refine ⟨line', hline', ?_⟩
  rw [hcut, physicalLines_take_lineStart hn, hfirst, List.set_eq_take_append_cons_drop, if_pos hn]

theorem Piece.ofText_congr {text text' : List Char}
    (h : (physicalLines text').map code = (physicalLines text).map code) : ofText text' = ofText text := by
  have heq : ∀ t, ofText t = ((physicalLines t).map code).zipIdx.map fun entry =>
      ⟨entry.2, blankMarker entry.1, isContinued entry.1⟩ := by
    intro t
    rw [List.zipIdx_map, List.map_map]
    rfl
  rw [heq, heq, h]

end Source

namespace Outline

open Source

/-- Of a document nothing is read but the code of its lines. -/
theorem parse_congr (settings : Settings) {text text' : String}
    (h : (physicalLines text'.toList).map code = (physicalLines text.toList).map code) :
    parse settings text' = parse settings text := by
  have hstatements : statements text'.toList = statements text.toList := by
    rw [statements, statements, LogicalLine.ofText, LogicalLine.ofText, Piece.ofText_congr h]
  rw [parse, parse, read, read, hstatements]

/-- A document with one character of one of its lines replaced. -/
def replaced (text : String) (n i : Nat) (d : Char) : String :=
  String.ofList (text.toList.set (lineStart text.toList n + i) d)

/-- A document is read the same whatever stands in its string literals and comments. -/
theorem parse_replaced (settings : Settings) (text : String) {n i : Nat} {row : List Char} {c d : Char}
    (hline : (physicalLines text.toList)[n]? = some row) (hc : row[i]? = some c) (hd : d ≠ '\n')
    (h : InLiteral row i ∧ d ≠ '"' ∨ InComment row i) :
    text.toList[lineStart text.toList n + i]? = some c ∧
      parse settings (replaced text n i d) = parse settings text := by
  have hi : i < row.length := (List.getElem?_eq_some_iff.1 hc).1
  refine ⟨(getElem?_lineStart hline hi).trans hc, parse_congr settings ?_⟩
  obtain ⟨row', hline', hlines⟩ := physicalLines_set hline hi hd
  have hcode : code row' = code row := by
    rcases h with ⟨hliteral, hquote⟩ | hcomment
    · rcases hline' with rfl | ⟨hend, -⟩
      · exact code_set_of_inLiteral hi hliteral hquote
      · -- the place is not the last of its line: a quote closes the literal behind it
        have hclosed := hliteral.2.2
        rw [List.drop_eq_nil_of_le hend.ge] at hclosed
        exact absurd hclosed List.not_mem_nil
    · rcases hline' with rfl | ⟨-, rfl⟩
      · exact code_of_inComment hcomment (List.take_set_of_le (Nat.le_refl i))
      · exact code_of_inComment hcomment (by rw [List.take_take, Nat.min_self])
  obtain ⟨hn, hget⟩ := List.getElem?_eq_some_iff.1 hline
  rw [replaced, String.toList_ofList, hlines, List.map_set, hcode, ← List.map_set, ← hget, List.set_getElem_self]

/-- A literal and a comment on a line that goes on in the next one. -/
def joinedLiteral : String := "s = \"a b\" : Dim x, _ 'c\n y"

theorem parse_replaced_joined :
    parse {} "s = \"a:b\" : Dim x, _ 'c\n y" = parse {} joinedLiteral ∧
      parse {} "s = \"a b\" : Dim x, _ '\r\n y" = parse {} joinedLiteral := by
  have hline : (physicalLines joinedLiteral.toList)[0]? = some "s = \"a b\" : Dim x, _ 'c".toList := by
    decide +kernel
  have hliteral : InLiteral "s = \"a b\" : Dim x, _ 'c".toList 6 :=
    ⟨by decide +kernel, by decide +kernel, by decide +kernel⟩
  have hcomment : InComment "s = \"a b\" : Dim x, _ 'c".toList 22 :=
    ⟨21, by decide, by decide +kernel, by decide +kernel⟩
  have hcolon : replaced joinedLiteral 0 6 ':' = "s = \"a:b\" : Dim x, _ 'c\n y" := by decide +kernel
  have hreturn : replaced joinedLiteral 0 22 '\r' = "s = \"a b\" : Dim x, _ '\r\n y" := by decide +kernel
  refine ⟨?_, ?_⟩
  · rw [← hcolon]
    exact (parse_replaced {} joinedLiteral hline (c := ' ') (by decide +kernel) (by decide)
      (Or.inl ⟨hliteral, by decide⟩)).2
  · rw [← hreturn]
    exact (parse_replaced {} joinedLiteral hline (c := 'c') (by decide +kernel) (by decide)
      (Or.inr hcomment)).2

end Outline

end VbOutline
