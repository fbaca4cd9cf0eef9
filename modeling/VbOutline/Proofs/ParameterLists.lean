import Mathlib.Order.Bounds.Basic
import VbOutline.Proofs.ArrayMarks
import VbOutline.Proofs.NameRanges
import VbOutline.Proofs.Pairing

/-! Parameter lists, token by token. A list is read exactly if each of its parentheses belongs to an array mark, and
then every token with a character that counts declares one variable. The words of the token name it, all but the
first where there are several, and its declaration goes from the first word to the last: it is the trimmed token
unless an array mark stands at one of the token's ends. -/

namespace VbOutline

namespace Outline

open Grammar Source Text

/-! ### What a token declares -/

/-- The words of a token that name its parameter: where there are several, all but the first. -/
def namingWords (words : List Lexeme) : List Lexeme := if 2 ≤ words.length then words.tail else words

/-- A name of words with single spaces between them, none of which holds a parenthesis or a comma. -/
structure CleanName (name : String) : Prop where
  not_mem : '(' ∉ name.toList ∧ ')' ∉ name.toList ∧ ',' ∉ name.toList
  blank_eq : ∀ c ∈ name.toList, isBlank c = true → c = ' '
  spaced : [] ∉ name.toList.splitOn ' '

/-- The variable that a token with some words declares. -/
structure DeclaredBy (s : Statement) (owner : String) (token : Lexeme) (words : List Lexeme) (x : Symbol) : Prop where
  isParameter : x.kind = .variableDef ∧ x.parent = some owner
  tokenWords : TokenWords token.text words
  /-- The words stand in the statement, each in its token. -/
  stands : ∀ word ∈ words, (word.shift token.start).IsWord s.text ∧ token.start + word.stop ≤ token.stop
  name_eq : x.name = " ".intercalate ((namingWords words).map Lexeme.spelling)
  nameRange_eq : ∃ first last, (namingWords words).head? = some first ∧ (namingWords words).getLast? = some last ∧
    x.nameRange = (s.range (token.start + first.start : Nat) (token.start + last.stop : Nat)).value
  declaredRange_eq : ∃ first last, words.head? = some first ∧ words.getLast? = some last ∧
    x.declaredRange = (s.range (token.start + first.start : Nat) (token.start + last.stop : Nat)).value
  cleanName : CleanName x.name

/-- Each token with a character that counts declares one symbol, and no other token does, in the order of tokens. -/
inductive OnePerToken (P : Lexeme → Symbol → Prop) : List Lexeme → List Symbol → Prop
  | nil : OnePerToken P [] []
  | skip {token : Lexeme} {tokens : List Lexeme} {symbols : List Symbol} (hnone : ∀ k, ¬ Counts token.text k)
      (hrest : OnePerToken P tokens symbols) : OnePerToken P (token :: tokens) symbols
  | declare {token : Lexeme} {tokens : List Lexeme} {x : Symbol} {symbols : List Symbol}
      (hsome : ∃ k, Counts token.text k) (hx : P token x) (hrest : OnePerToken P tokens symbols) :
      OnePerToken P (token :: tokens) (x :: symbols)

theorem OnePerToken.imp {P Q : Lexeme → Symbol → Prop} {tokens : List Lexeme} {symbols : List Symbol}
    (h : OnePerToken P tokens symbols) (himp : ∀ token ∈ tokens, ∀ x, P token x → Q token x) :
    OnePerToken Q tokens symbols := by
  induction h with
  | nil => exact .nil
  | skip hnone _ ih => exact .skip hnone (ih fun token ht => himp token (List.mem_cons_of_mem _ ht))
  | declare hsome hx _ ih =>
      exact .declare hsome (himp _ List.mem_cons_self _ hx) (ih fun token ht => himp token (List.mem_cons_of_mem _ ht))

/-- Reading tokens one by one, for tokens that are numbered from another offset. -/
theorem onePerToken_filterMap {P : Lexeme → Symbol → Prop} {f : Lexeme → Option Symbol} (k : Nat) (tokens : List Lexeme)
    (hnone : ∀ token ∈ tokens, f token = none → ∀ i, ¬ Counts token.text i)
    (hsome : ∀ token ∈ tokens, ∀ x, f token = some x → (∃ i, Counts token.text i) ∧ P (token.shift k) x) :
    OnePerToken P (tokens.map (Lexeme.shift k)) (tokens.filterMap f) := by
  induction tokens with
  | nil => exact .nil
  | cons token tokens ih =>
      have hrest := ih (fun t ht => hnone t (List.mem_cons_of_mem _ ht)) fun t ht => hsome t (List.mem_cons_of_mem _ ht)
      rw [List.map_cons]
      cases hf : f token with
      | none =>
          rw [List.filterMap_cons_none hf]
          exact .skip (hnone token List.mem_cons_self hf) hrest
      | some x =>
          rw [List.filterMap_cons_some hf]
          obtain ⟨hcounts, hx⟩ := hsome token List.mem_cons_self x hf
          exact .declare hcounts hx hrest

/-! ### Names -/

theorem namingWords_subset (words : List Lexeme) : ∀ word ∈ namingWords words, word ∈ words := by
  intro word hw
  rw [namingWords] at hw
  split at hw
  · exact List.mem_of_mem_tail hw
  · exact hw

theorem namingWords_ne_nil {words : List Lexeme} (h : words ≠ []) : namingWords words ≠ [] := by
  rw [namingWords]
  split
  · intro hnil
    have hlength := congrArg List.length hnil
    rw [List.length_tail, List.length_nil] at hlength
    omega
  · exact h

theorem mem_spelled {words : List Lexeme} {c : Char}
    (h : c ∈ (" ".intercalate (words.map Lexeme.spelling)).toList) : c = ' ' ∨ ∃ word ∈ words, c ∈ word.text := by
  induction words with
  | nil => exact absurd h (by simp)
  | cons word words ih =>
      cases words with
      | nil =>
          rw [List.map_singleton, String.intercalate_singleton] at h
          exact Or.inr ⟨word, List.mem_cons_self, by rwa [Lexeme.spelling, String.toList_ofList] at h⟩
      | cons next words =>
          rw [List.map_cons, List.map_cons, String.intercalate_cons_cons, String.toList_append, String.toList_append,
            List.append_assoc, ← List.map_cons] at h
          rcases List.mem_append.1 h with h | h
          · exact Or.inr ⟨word, List.mem_cons_self, by rwa [Lexeme.spelling, String.toList_ofList] at h⟩
          · rcases List.mem_append.1 h with h | h
            · exact Or.inl (List.mem_singleton.1 h)
            · rcases ih h with hspace | ⟨w, hw, hc⟩
              · exact Or.inl hspace
              · exact Or.inr ⟨w, List.mem_cons_of_mem _ hw, hc⟩

/-- Words without blanks, parentheses and commas make a clean name. -/
theorem cleanName_spelled {words : List Lexeme} (hne : words ≠ []) (hwords : ∀ word ∈ words, word.text ≠ [] ∧
      ∀ c ∈ word.text, isBlank c = false ∧ c ≠ '(' ∧ c ≠ ')' ∧ c ≠ ',') :
    CleanName (" ".intercalate (words.map Lexeme.spelling)) := by
  have hother : ∀ c, c ≠ ' ' → (∀ word ∈ words, c ∉ word.text) →
      c ∉ (" ".intercalate (words.map Lexeme.spelling)).toList := by
    intro c hspace hnot hc
    rcases mem_spelled hc with heq | ⟨word, hword, hmem⟩
    · exact hspace heq
    · exact hnot word hword hmem
  refine ⟨⟨hother _ (by decide) ?_, hother _ (by decide) ?_, hother _ (by decide) ?_⟩, fun c hc hblank => ?_, ?_⟩
  · exact fun word hword hmem => ((hwords word hword).2 _ hmem).2.1 rfl
  · exact fun word hword hmem => ((hwords word hword).2 _ hmem).2.2.1 rfl
  · exact fun word hword hmem => ((hwords word hword).2 _ hmem).2.2.2 rfl
  · rcases mem_spelled hc with heq | ⟨word, hword, hmem⟩
    · exact heq
    · rw [((hwords word hword).2 c hmem).1] at hblank
      cases hblank
  · have hsolid : ∀ word ∈ words, ' ' ∉ word.text := by
      intro word hword hmem
      have hblank := ((hwords word hword).2 _ hmem).1
      rw [isBlank_space] at hblank
      cases hblank
    rw [splitOn_spelled hne hsolid]
    intro hmem
    obtain ⟨word, hword, hnil⟩ := List.mem_map.1 hmem
    exact (hwords word hword).1 hnil

/-! ### Tokens are read -/

variable {s : Statement} {owner : String}

theorem name_shift (k : Nat) (first : Lexeme) (others : List Lexeme) :
    (Parameter.mk (first.shift k) (others.map (Lexeme.shift k))).name =
      " ".intercalate ((namingWords (first :: others)).map Lexeme.spelling) := by
  cases others with
  | nil => rfl
  | cons second others =>
      show " ".intercalate (((second :: others).map (Lexeme.shift k)).map Lexeme.spelling) = _
      rw [List.map_map]
      rfl

/-- Where the words of a parameter start and end. -/
theorem bounds_shift (k : Nat) (first : Lexeme) (others : List Lexeme) :
    ∃ nameFirst last, (namingWords (first :: others)).head? = some nameFirst ∧
      (namingWords (first :: others)).getLast? = some last ∧ (first :: others).getLast? = some last ∧
      (Parameter.mk (first.shift k) (others.map (Lexeme.shift k))).nameStart = k + nameFirst.start ∧
      (Parameter.mk (first.shift k) (others.map (Lexeme.shift k))).stop = k + last.stop := by
  cases others with
  | nil => exact ⟨first, first, rfl, rfl, rfl, rfl, Lexeme.shift_stop k first⟩
  | cons second others =>
      obtain ⟨last, hlast⟩ := Option.isSome_iff_exists.1 (List.getLast?_isSome.2 (List.cons_ne_nil second others))
      refine ⟨second, last, rfl, hlast, ?_, rfl, ?_⟩
      · rw [List.getLast?_cons_cons, hlast]
      · show (((second :: others).map (Lexeme.shift k)).getLastD _).stop = _
        rw [List.getLastD_eq_getLast?, List.getLast?_map, hlast]
        exact Lexeme.shift_stop k last

/-- The variable of a token of a list that stands in the statement. -/
theorem parameterSymbol_declaredBy {list token first : Lexeme} {others : List Lexeme}
    (hin : (token.shift list.start).In s.text) (hcomma : ∀ c ∈ token.text, isComma c = false)
    (hstray : ∀ k, ¬ Stray token.text k) (hwords : (Lexeme.mk 0 (blankPairs token.text)).words = first :: others) :
    DeclaredBy s owner (token.shift list.start) (first :: others)
      (parameterSymbol s list.start owner
        ⟨first.shift token.start, others.map (Lexeme.shift token.start)⟩).value := by
  have htoken : TokenWords (token.shift list.start).text (first :: others) := hwords ▸ tokenWords_words token.text
  obtain ⟨nameFirst, last, hnameFirst, hnameLast, hlast, hnameStart, hstop⟩ := bounds_shift token.start first others
  have hname := name_shift token.start first others
  -- an offset in the token, counted from the list and from the statement
  have hoffset : ∀ k : Nat,
      (list.start : Int) + (token.start + k : Nat) = ((token.shift list.start).start + k : Nat) := by
    intro k
    simp only [Lexeme.shift]
    omega
  refine ⟨⟨rfl, rfl⟩, htoken, fun word hw => ⟨(htoken.isWord word hw).shift hin, ?_⟩, hname, ?_, ?_, ?_⟩
  · exact Nat.add_le_add_left (htoken.isWord word hw).within.stop_le _
  · refine ⟨nameFirst, last, hnameFirst, hnameLast, ?_⟩
    rw [← hoffset, ← hoffset, ← hnameStart, ← hstop]
    rfl
  · refine ⟨first, last, rfl, hlast, ?_⟩
    rw [← hoffset, ← hoffset, ← hstop]
    rfl
  · show CleanName (Parameter.name _)
    rw [hname]
    refine cleanName_spelled (namingWords_ne_nil (List.cons_ne_nil first others)) fun word hw => ?_
    have hmem := namingWords_subset _ word hw
    have hword := htoken.isWord word hmem
    exact ⟨hword.nonempty, fun c hc => ⟨hword.solid c hc, htoken.clean hstray hcomma word hmem c hc⟩⟩

/-- A list without stray parentheses gives one variable for each token that has something to declare. -/
theorem parameterSymbols_onePerToken {list : Lexeme} (hlist : list.In s.text)
    (hsupported : isSupported list.text = true) (owner : String) :
    OnePerToken (fun token x => ∃ words, DeclaredBy s owner token words x)
      (Lexeme.piecesFrom isComma list.start list.text) (parameterSymbols s list.text list.start owner).value := by
  have htokens : Lexeme.piecesFrom isComma list.start list.text =
      (Lexeme.piecesFrom isComma 0 list.text).map (Lexeme.shift list.start) :=
    Lexeme.piecesFrom_add list.start 0 list.text
  rw [parameterSymbols, readParameters?_of_isSupported hsupported, htokens]
  simp only [value_mapM, List.map_filterMap, words_blankToken]
  refine onePerToken_filterMap list.start _ (fun token _ hnone i hi => ?_) fun token ht x hx => ?_
  · obtain ⟨word, hword, -⟩ := (tokenWords_words token.text).complete i hi
    cases hwords : (Lexeme.mk 0 (blankPairs token.text)).words with
    | nil =>
        rw [hwords] at hword
        cases hword
    | cons first others =>
        rw [hwords] at hnone
        cases hnone
  · have htoken := tokenWords_words token.text
    obtain ⟨⟨before, after, htext, hbefore⟩, hcomma⟩ := Lexeme.mem_piecesFrom ht
    have hin : token.In list.text := ⟨before, after, htext, by omega⟩
    cases hwords : (Lexeme.mk 0 (blankPairs token.text)).words with
    | nil =>
        rw [hwords] at hx
        cases hx
    | cons first others =>
        rw [hwords] at hx htoken
        cases hx
        refine ⟨⟨first.start, ?_⟩, first :: others, ?_⟩
        · have hword := htoken.isWord first List.mem_cons_self
          exact htoken.counts first List.mem_cons_self _ (Nat.le_refl _) hword.start_lt_stop
        · exact parameterSymbol_declaredBy (hin.shift hlist) hcomma
            (isSupported_iff.1 (isSupported_of_mem hsupported ht)) hwords

/-! ### Lists that are not read -/

/-- The problems of parameter lists that are not read. -/
def unread (problems : List Problem) : List Problem :=
  problems.filter fun p => p.category = .unsupportedParameterList

/-- All that can go wrong with a span is that it has no place. -/
theorem unread_range (s : Statement) (start stop : Int) : unread (s.range start stop).problems = [] := by
  rw [Statement.range]
  split <;> rfl

theorem unread_parameterSymbol (s : Statement) (offset : Int) (owner : String) (p : Parameter) :
    unread (parameterSymbol s offset owner p).problems = [] := by
  simp only [parameterSymbol, Noted.problems_bind, Noted.problems_pure, List.append_nil]
  rw [unread, List.filter_append]
  exact List.append_eq_nil_iff.2 ⟨unread_range s _ _, unread_range s _ _⟩

/-- A list that is read is not noted, and one that is not read is noted once. -/
theorem unread_parameterSymbols (s : Statement) (text : List Char) (offset : Int) (owner : String) :
    unread (parameterSymbols s text offset owner).problems =
      if isSupported text then [] else [(Finding.nestedParentheses owner).onLine s.line] := by
  rw [parameterSymbols, readParameters?]
  split_ifs with h
  · simp only
    rw [problems_mapM, unread, List.filter_eq_nil_iff]
    intro problem hproblem
    obtain ⟨p, -, hp⟩ := List.mem_flatMap.1 hproblem
    exact List.filter_eq_nil_iff.1 (unread_parameterSymbol s offset owner p) problem hp
  · rfl

/-- Whatever the parameter list of a statement, it is read exactly if none of its parentheses is stray. One that is
not read declares nothing and is noted once; one that is read is not noted, and of the tokens between its commas each
one with a character that counts declares one variable. -/
theorem parameterSymbols_of_tokens (s : Statement) {list : Lexeme} (hlist : list.In s.text) (owner : String) :
    ((parameterSymbols s list.text list.start owner).value = [] ∧
        (unread (parameterSymbols s list.text list.start owner).problems).length = 1 ↔ ∃ k, Stray list.text k) ∧
      ((∀ k, ¬ Stray list.text k) →
        unread (parameterSymbols s list.text list.start owner).problems = [] ∧
          ∃ tokens, Lexeme.Cut isComma list.start list.text tokens ∧
            OnePerToken (fun token x => ∃ words, DeclaredBy s owner token words x) tokens
              (parameterSymbols s list.text list.start owner).value) := by
  have hnoted := unread_parameterSymbols s list.text list.start owner
  refine ⟨⟨fun h => ?_, fun h => ?_⟩, fun h => ⟨?_, _, Lexeme.cut_piecesFrom isComma list.start list.text, ?_⟩⟩
  · by_contra hnone
    rw [if_pos (isSupported_iff.2 (not_exists.1 hnone))] at hnoted
    rw [hnoted] at h
    cases h.2
  · have hunsupported : ¬ isSupported list.text = true := fun hs =>
      h.elim fun k hk => isSupported_iff.1 hs k hk
    rw [hnoted, if_neg hunsupported, parameterSymbols, readParameters?, if_neg hunsupported]
    exact ⟨rfl, rfl⟩
  · rw [hnoted, if_pos (isSupported_iff.2 h)]
  · exact parameterSymbols_onePerToken hlist (isSupported_iff.2 h) owner

/-- A list with array marks, a parameter of three words and two tokens that declare nothing. -/
theorem parameterSymbols_of_tokens_mixed :
    ∃ (s : Statement) (list : Lexeme) (tokens : List Lexeme), s.text = "Sub f(ByVal a ( ),b c\td,, (),x)".toList ∧
      list.text = "ByVal a ( ),b c\td,, (),x".toList ∧ Lexeme.Cut isComma list.start list.text tokens ∧
      OnePerToken (fun token x => ∃ words, DeclaredBy s "f" token words x) tokens
        (parameterSymbols s list.text list.start "f").value ∧
      (parameterSymbols s list.text list.start "f").value.map Symbol.name = ["a", "c d", "x"] := by
  let s : Statement := ⟨0, "Sub f(ByVal a ( ),b c\td,, (),x)".toList, [⟨0, 0, 31, 0⟩], 0⟩
  let list : Lexeme := ⟨6, "ByVal a ( ),b c\td,, (),x".toList⟩
  have hin : list.In s.text := ⟨"Sub f(".toList, [')'], by decide, rfl⟩
  obtain ⟨-, tokens, hcut, hone⟩ := (parameterSymbols_of_tokens s hin "f").2 (isSupported_iff.1 (by decide))
  exact ⟨s, list, tokens, by decide, rfl, hcut, hone, by decide +kernel⟩

/-! ### How much of a token is covered -/

/-- A place with a character that is not blank. -/
def Solid (text : List Char) (k : Nat) : Prop := ∃ c, text[k]? = some c ∧ isBlank c = false

theorem counts_iff {text : List Char} {k : Nat} : Counts text k ↔ Solid text k ∧ ¬ InPair text k := by
  constructor
  · rintro ⟨c, hc, hblank, hout⟩
    exact ⟨⟨c, hc, hblank⟩, hout⟩
  · rintro ⟨⟨c, hc, hblank⟩, hout⟩
    exact ⟨c, hc, hblank, hout⟩

/-- The first and the last place with a property. -/
structure Ends (P : Nat → Prop) (first last : Nat) : Prop where
  isLeast : IsLeast {k | P k} first
  isGreatest : IsGreatest {k | P k} last

theorem exists_ends {P : Nat → Prop} (hsome : ∃ k, P k) {length : Nat} (hlength : ∀ k, P k → k < length) :
    ∃ first last, Ends P first last := by
  classical
  obtain ⟨k, hk⟩ := hsome
  refine ⟨Nat.find ⟨k, hk⟩, Nat.findGreatest P length, ⟨Nat.find_spec ⟨k, hk⟩, fun i hi => Nat.find_min' _ hi⟩, ?_, ?_⟩
  · exact Nat.findGreatest_spec (hlength k hk).le hk
  · exact fun i hi => Nat.le_findGreatest (hlength i hi).le hi

/-- The ends of a part are those of the whole where these belong to the part. -/
theorem Ends.eq_iff {P Q : Nat → Prop} {first last first' last' : Nat} (hP : Ends P first last)
    (hQ : Ends Q first' last') (himp : ∀ k, P k → Q k) : first = first' ∧ last = last' ↔ P first' ∧ P last' := by
  constructor
  · rintro ⟨rfl, rfl⟩
    exact ⟨hP.isLeast.1, hP.isGreatest.1⟩
  · rintro ⟨hfirst, hlast⟩
    refine ⟨Nat.le_antisymm (hP.isLeast.2 hfirst) ?_, Nat.le_antisymm ?_ (hP.isGreatest.2 hlast)⟩
    · exact hQ.isLeast.2 (himp _ hP.isLeast.1)
    · exact hQ.isGreatest.2 (himp _ hP.isGreatest.1)

/-- The words of a token reach from the first to the last character that counts. -/
theorem tokenWords_ends {text : List Char} {words : List Lexeme} {first last : Lexeme} (h : TokenWords text words)
    (hfirst : words.head? = some first) (hlast : words.getLast? = some last) :
    Ends (Counts text) first.start (last.stop - 1) := by
  have hmem : first ∈ words := List.mem_of_head? hfirst
  have hmem' : last ∈ words := List.mem_of_getLast? hlast
  have hlt := (h.isWord first hmem).start_lt_stop
  have hlt' := (h.isWord last hmem').start_lt_stop
  refine ⟨⟨h.counts first hmem _ (Nat.le_refl _) hlt, fun k hk => ?_⟩, h.counts last hmem' _ (by omega) (by omega), ?_⟩
  · obtain ⟨word, hword, hstart, -⟩ := h.complete k hk
    obtain ⟨others, rfl⟩ := List.head?_eq_some_iff.1 hfirst
    rcases List.mem_cons.1 hword with rfl | hword
    · exact hstart
    · have := (List.pairwise_cons.1 h.ordered).1 word hword
      omega
  · intro k hk
    obtain ⟨word, hword, -, hstop⟩ := h.complete k hk
    have := Lexeme.stop_le_last h.isWord h.ordered hlast word hword
    omega

/-- How much of its token the declaration of a parameter covers. -/
structure CoversToken (s : Statement) (token : Lexeme) (x : Symbol) : Prop where
  /-- It goes from the first to the last character that counts. -/
  counted : ∃ first last, Ends (Counts token.text) first last ∧
    x.declaredRange = s.span (token.start + first) (token.start + last + 1)
  /-- It is the token without the blanks at its ends unless an array mark stands at one of these ends. -/
  trimmed : ∃ first last, Ends (Solid token.text) first last ∧
    (x.declaredRange = s.span (token.start + first) (token.start + last + 1) ↔
      ¬ InPair token.text first ∧ ¬ InPair token.text last)

theorem DeclaredBy.coversToken (hs : s.Placed) {token : Lexeme} (hin : token.In s.text) {words : List Lexeme}
    {x : Symbol} (h : DeclaredBy s owner token words x) : CoversToken s token x := by
  obtain ⟨first, last, hfirst, hlast, hrange⟩ := h.declaredRange_eq
  have hends := tokenWords_ends h.tokenWords hfirst hlast
  have hlength : ∀ k, Solid token.text k → k < token.text.length := by
    rintro k ⟨c, hc, -⟩
    exact (List.getElem?_eq_some_iff.1 hc).1
  have hsolid : ∀ k, Counts token.text k → Solid token.text k := fun k hk => (counts_iff.1 hk).1
  obtain ⟨first', last', hends'⟩ := exists_ends ⟨_, hsolid _ hends.isLeast.1⟩ hlength
  have hlt := (h.tokenWords.isWord last (List.mem_of_getLast? hlast)).start_lt_stop
  have hle : first.start ≤ last.stop - 1 := hends.isLeast.2 hends.isGreatest.1
  have hle' : first' ≤ last' := hends'.isLeast.2 hends'.isGreatest.1
  have hstop := hlength _ (hsolid _ hends.isGreatest.1)
  have hstop' := hlength _ hends'.isGreatest.1
  have hfits := hin.stop_le
  rw [Lexeme.stop] at hfits
  have hspan : x.declaredRange = s.span (token.start + first.start) (token.start + (last.stop - 1) + 1) := by
    have hlast : token.start + last.stop = token.start + (last.stop - 1) + 1 := by omega
    rw [hrange, hs.range_eq (by omega) (by omega), hlast]
    rfl
  refine ⟨⟨_, _, hends, hspan⟩, _, _, hends', ?_⟩
  rw [hspan, hs.span_eq_iff (by omega) (by omega) (by omega) (by omega), Nat.add_left_cancel_iff,
    Nat.add_left_cancel_iff, hends.eq_iff hends' hsolid, counts_iff, counts_iff]
  exact ⟨fun h => ⟨h.1.2, h.2.2⟩, fun h => ⟨⟨hends'.isLeast.1, h.1⟩, hends'.isGreatest.1, h.2⟩⟩

/-- The parameters of every header that is accepted in a document: those of a list without stray parentheses are
declared by the tokens of the list, each over its token from the first to the last character that counts. -/
theorem accepted_parameters (settings : Settings) (text : String) {n : Nat} {kind : MemberKind}
    (haccepted : answerAt settings (statements text.toList) n = some (opener kind)) :
    ∃ s header m, (statements text.toList)[n]? = some s ∧ MemberHeader.read? kind s.cursor = some header ∧
      (readingAt settings (statements text.toList) (n + 1)).blocks.openMember = some m ∧
      ∀ list, header.parameters = some list → (∀ k, ¬ Stray list.text k) →
        ∃ tokens, Lexeme.Cut isComma list.start list.text tokens ∧ OnePerToken (CoversToken s) tokens m.parameters := by
  have hopen : MemberOpen settings (statements text.toList) (n + 1) (kind, n) :=
    memberOpen_succ.2 (.inr ⟨rfl, haccepted⟩)
  obtain ⟨m, hm, s, header, hs, hread, rfl⟩ := (inStep settings _ (n + 1)).openMember.of_isOpen hopen
  refine ⟨s, header, _, hs, hread, hm, fun list hlist hstray => ?_⟩
  have hplaced : s.Placed := placed_of_mem (List.mem_of_getElem? hs)
  obtain ⟨hin, -⟩ := (MemberHeader.read?_words (cursor_in s) hread).2 list hlist
  refine ⟨_, Lexeme.cut_piecesFrom isComma list.start list.text, ?_⟩
  show OnePerToken _ _ (headerParameters s header).value
  rw [headerParameters, hlist]
  refine (parameterSymbols_onePerToken hin (isSupported_iff.2 hstray) _).imp fun token ht x hx => ?_
  obtain ⟨words, hx⟩ := hx
  exact hx.coversToken hplaced (hin.pieces ht)

/-- Marks behind one parameter and before another: the first declaration ends early and the second starts late. -/
theorem accepted_parameters_marked :
    ∃ s m, (statements "Sub f(a(), () b , c)".toList)[0]? = some s ∧
      (readingAt {} (statements "Sub f(a(), () b , c)".toList) 1).blocks.openMember = some m ∧
      m.parameters.map Symbol.declaredRange = [s.span 6 7, s.span 14 15, s.span 18 19] ∧
      ∃ tokens, Lexeme.Cut isComma 6 "a(), () b , c".toList tokens ∧
        OnePerToken (CoversToken s) tokens m.parameters := by
  have haccepted : answerAt {} (statements "Sub f(a(), () b , c)".toList) 0 = some (opener .method) := by
    decide +kernel
  obtain ⟨s, header, m, hs, hread, hm, htokens⟩ := accepted_parameters {} "Sub f(a(), () b , c)" haccepted
  have hstatement : (statements "Sub f(a(), () b , c)".toList)[0]? =
      some ⟨0, "Sub f(a(), () b , c)".toList, [⟨0, 0, 20, 0⟩], 0⟩ := by decide +kernel
  cases hstatement.symm.trans hs
  have hlist : (MemberHeader.read? .method ⟨0, "Sub f(a(), () b , c)".toList⟩).map MemberHeader.parameters =
      some (some ⟨6, "a(), () b , c".toList⟩) := by decide +kernel
  have hranges : ((readingAt {} (statements "Sub f(a(), () b , c)".toList) 1).blocks.openMember.map fun m =>
      m.parameters.map Symbol.declaredRange) =
      some [⟨⟨0, 6⟩, ⟨0, 7⟩⟩, ⟨⟨0, 14⟩, ⟨0, 15⟩⟩, ⟨⟨0, 18⟩, ⟨0, 19⟩⟩] := by decide +kernel
  rw [show MemberHeader.read? .method ⟨0, "Sub f(a(), () b , c)".toList⟩ = some header from hread] at hlist
  rw [hm] at hranges
  exact ⟨_, m, hs, hm, Option.some.inj hranges, htokens _ (Option.some.inj hlist) (isSupported_iff.1 (by decide))⟩

/-- The declaration of an array parameter leaves out the mark that its token ends with. -/
theorem array_mark_left_out :
    ∃ s x, (statements "Sub f(a())\nEnd Sub".toList)[0]? = some s ∧ (Lexeme.mk 6 "a()".toList).In s.text ∧
      x ∈ (parse {} "Sub f(a())\nEnd Sub").symbols ∧ x.kind = .variableDef ∧ x.parent = some "f" ∧
      x.declaredRange = s.span 6 7 ∧ x.declaredRange ≠ s.span 6 9 := by
  let s : Statement := ⟨0, "Sub f(a())".toList, [⟨0, 0, 10, 0⟩], 0⟩
  let x : Symbol := ⟨.variableDef, "a", none, "", "", ⟨⟨0, 6⟩, ⟨0, 7⟩⟩, ⟨⟨0, 6⟩, ⟨0, 7⟩⟩, some "f"⟩
  have hin : (Lexeme.mk 6 "a()".toList).In s.text := ⟨"Sub f(".toList, [')'], by decide, rfl⟩
  exact ⟨s, x, by decide +kernel, hin, by decide +kernel, rfl, rfl, by decide +kernel, by decide +kernel⟩

end Outline

end VbOutline
