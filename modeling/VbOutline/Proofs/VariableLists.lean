import VbOutline.Proofs.RuleOrder
import VbOutline.Proofs.Spelling
import VbOutline.Proofs.Standing

/-! Lists of variables. A list is read by its form, `dim entry, entry, …` with array bounds behind the names, and then
its text is scanned once more for the variables to declare. The two agree, entry by entry, just where the names are in
the letters that the scan knows; it cuts a name at any other letter. -/

namespace VbOutline

namespace Grammar

open Text

/-! ### The grammar of lists -/

/-- An entry of a list: a name and its array bounds. -/
structure EntryForm (alphabet : Alphabet) (start : Nat) (item : DimItem) (t : List Char) : Prop where
  name_start : item.name.start = start
  isName : IsName alphabet item.name.text
  bounds : ∃ bounds, IsBounds bounds ∧ t = item.name.text ++ bounds
  stop_eq : item.stop = start + t.length

/-- A comma with the blanks around it. -/
def Separator (t : List Char) : Prop := ∃ left right, Blanks left ∧ Blanks right ∧ t = left ++ ',' :: right

/-- Entries with a separator between any two. -/
inductive ListForm (alphabet : Alphabet) : Nat → List DimItem → List Char → Prop
  | last {start : Nat} {item : DimItem} {t : List Char} (hentry : EntryForm alphabet start item t) :
      ListForm alphabet start [item] t
  | cons {start : Nat} {item : DimItem} {items : List DimItem} {t sep u : List Char}
      (hentry : EntryForm alphabet start item t) (hsep : Separator sep)
      (hrest : ListForm alphabet (start + (t ++ sep).length) items u) :
      ListForm alphabet start (item :: items) (t ++ sep ++ u)

/-- The declaration of a list of variables, with the places of its parts in the text. -/
inductive DimForm : DimDeclaration → List Char → Prop
  | intro {lead k list trail : List Char} {keyword : Spelled} {items : List DimItem} (hlead : Blanks lead)
      (hkeyword : WordForm [.dimKw] lead.length keyword k)
      (hlist : ListForm .folding (lead ++ k).length items list) (htrail : Blanks trail) :
      DimForm ⟨keyword.written, items, ⟨(lead ++ k).length, list⟩⟩ (lead ++ k ++ list ++ trail)

/-- What may follow an entry: blanks up to the end, or a separator. -/
def Follows (rest : List Char) : Prop := Blanks rest ∨ ∃ sep u, Separator sep ∧ rest = sep ++ u

theorem Follows.head {rest : List Char} (h : Follows rest) : ∀ x ∈ rest.head?, isBlank x = true ∨ x = ',' := by
  intro x hx
  rcases h with hblank | ⟨sep, u, ⟨left, right, hleft, -, rfl⟩, rfl⟩
  · exact Or.inl (hblank x (List.mem_of_mem_head? hx))
  · cases left with
    | nil => exact Or.inr (Option.some.inj hx).symm
    | cons y left =>
        rw [← Option.some.inj hx]
        exact Or.inl (hleft y List.mem_cons_self)

/-- Neither bounds nor what follows an entry go on with its name. -/
theorem Follows.head_not_isNameChar {alphabet : Alphabet} {bounds rest : List Char} (h : Follows rest)
    (hbounds : IsBounds bounds) : ∀ x ∈ (bounds ++ rest).head?, alphabet.isNameChar x = false := by
  have hopen : alphabet.isNameChar '(' = false := by cases alphabet <;> decide
  have hcomma : alphabet.isNameChar ',' = false := by cases alphabet <;> decide
  intro x hx
  rcases hbounds with rfl | ⟨blanks, inner, rfl, hblanks, -⟩
  · rcases h.head x hx with hblank | rfl
    · exact isNameChar_of_isBlank hblank
    · exact hcomma
  · cases blanks with
    | nil =>
        rw [← Option.some.inj hx]
        exact hopen
    | cons y blanks =>
        rw [← Option.some.inj hx]
        exact isNameChar_of_isBlank (hblanks y List.mem_cons_self)

theorem EntryForm.inked {alphabet : Alphabet} {start : Nat} {item : DimItem} {t u : List Char}
    (h : EntryForm alphabet start item t) : Inked (t ++ u) := by
  obtain ⟨bounds, -, rfl⟩ := h.bounds
  rw [List.append_assoc]
  exact h.isName.inked

theorem EntryForm.length_pos {alphabet : Alphabet} {start : Nat} {item : DimItem} {t : List Char}
    (h : EntryForm alphabet start item t) : 0 < t.length := by
  obtain ⟨bounds, -, rfl⟩ := h.bounds
  obtain ⟨x, tail, hname, -⟩ := h.isName.head
  rw [hname]
  exact Nat.succ_pos _

theorem ListForm.inked {alphabet : Alphabet} {start : Nat} {items : List DimItem} {t u : List Char}
    (h : ListForm alphabet start items t) : Inked (t ++ u) := by
  cases h with
  | last hentry => exact hentry.inked
  | cons hentry hsep hrest =>
      rw [List.append_assoc, List.append_assoc]
      exact hentry.inked

theorem ListForm.length_le {alphabet : Alphabet} {start : Nat} {items : List DimItem} {t : List Char}
    (h : ListForm alphabet start items t) : items.length ≤ t.length := by
  induction h with
  | last hentry => exact hentry.length_pos
  | cons hentry hsep hrest ih =>
      have hpos := hentry.length_pos
      simp only [List.length_cons, List.length_append]
      omega

namespace Cursor

variable {c d e : Cursor} {t : List Char} {alphabet : Alphabet} {item : DimItem} {items : List DimItem}

/-! ### Entries are read -/

theorem skipBlanks_of_follows (h : Follows c.rest) : c.skipBlanks.rest.head? ≠ some '(' := by
  rcases h with hblank | ⟨sep, u, ⟨left, right, hleft, -, rfl⟩, hrest⟩
  · rw [skipBlanks_of_blanks hblank]
    nofun
  · have hread : c.Reads left ⟨c.offset + left.length, ',' :: (right ++ u)⟩ := ⟨by simp [hrest], rfl⟩
    rw [skipBlanks_eq hread hleft (inked_cons (by decide))]
    exact fun h => absurd (Option.some.inj h) (by decide)

theorem skipBounds_eq {bounds : List Char} (hbounds : IsBounds bounds) (h : c.Reads bounds d)
    (hd : Follows d.rest) : c.skipBounds = d := by
  rcases hbounds with rfl | ⟨blanks, inner, rfl, hblanks, hinner⟩
  · -- Bounds are looked for behind blanks, too; what follows an entry has no parenthesis there.
    have hsame : d = c := h.eq_advance
    subst hsame
    rw [skipBounds, char?, if_neg (skipBlanks_of_follows hd)]
  · obtain ⟨front, hfront, hopened⟩ := h.split
    obtain ⟨start, hopen, hclosed⟩ := Reads.split (t := ['(']) hopened
    obtain ⟨last, hread, hclose⟩ := hclosed.split
    have hink : Inked front.rest := hopen.inked (inked_cons (by decide))
    have htaken : start.rest.takeWhile (fun x => decide (x ≠ '(') && decide (x ≠ ')')) = inner := by
      rw [hread.rest_eq]
      refine takeWhile_append_stop (fun x hx => by simpa using hinner x hx) fun x hx => ?_
      rw [hclose.rest_eq] at hx
      rw [← Option.some.inj hx]
      decide
    rw [skipBounds, skipBlanks_eq hfront hblanks hink, char?_eq hopen]
    simp only [htaken]
    rw [← hread.eq_advance, char?_eq hclose]
    rfl

theorem dimItem?_eq (hform : EntryForm alphabet c.offset item t) (h : c.Reads t d) (hd : Follows d.rest) :
    c.dimItem? alphabet = some (item, d) := by
  obtain ⟨⟨start, name⟩, stop⟩ := item
  obtain ⟨hstart, hname, ⟨bounds, hbounds, rfl⟩, hstop⟩ := hform
  obtain ⟨after, hread, hread'⟩ := h.split
  have hnext : ∀ x ∈ after.rest.head?, alphabet.isNameChar x = false := by
    rw [hread'.rest_eq]
    exact hd.head_not_isNameChar hbounds
  rw [← h.offset_eq] at hstop
  rw [dimItem?, name?_eq hname hread hnext]
  simp only [Option.bind_eq_bind, Option.bind_some, skipBounds_eq hbounds hread' hd]
  dsimp only at hstart hstop
  rw [hstart, hstop]
  rfl

theorem dimItem?_form (h : c.dimItem? alphabet = some (item, d)) :
    ∃ t, EntryForm alphabet c.offset item t ∧ c.Reads t d := by
  obtain ⟨after, bounds, hname, hbounds, hread, hstop⟩ := dimItem?_reads h
  have hall := hname.reads.trans hread
  exact ⟨_, ⟨hname.start_eq, hname.isName, ⟨bounds, hbounds, rfl⟩, hstop.trans hall.offset_eq⟩, hall⟩

theorem comma?_eq {sep : List Char} (hsep : Separator sep) (h : c.Reads sep d) (hd : Inked d.rest) :
    c.comma? = some d := by
  obtain ⟨left, right, hleft, hright, rfl⟩ := hsep
  obtain ⟨comma, hfront, htail⟩ := h.split
  obtain ⟨after, hcomma, hback⟩ := Reads.split (t := [',']) htail
  have hink : Inked comma.rest := hcomma.inked (inked_cons (by decide))
  rw [comma?, skipBlanks_eq hfront hleft hink, char?_eq hcomma, Option.map_some, skipBlanks_eq hback hright hd]

theorem comma?_form (h : c.comma? = some d) : ∃ sep, Separator sep ∧ c.Reads sep d := by
  obtain ⟨left, right, hleft, hright, hread⟩ := comma?_reads h
  exact ⟨_, ⟨left, right, hleft, hright, rfl⟩, hread⟩

/-! ### Lists are read -/

theorem dimTail_form (fuel : Nat) (h : c.dimItem? .folding = some (item, d)) :
    ∃ t, ListForm .folding c.offset (item :: (d.dimTail fuel).1) t ∧ c.Reads t (d.dimTail fuel).2 := by
  induction fuel generalizing c d item with
  | zero =>
      obtain ⟨t, hentry, hread⟩ := dimItem?_form h
      exact ⟨t, .last hentry, hread⟩
  | succ fuel ih =>
      obtain ⟨t, hentry, hread⟩ := dimItem?_form h
      rw [dimTail]
      split
      · exact ⟨t, .last hentry, hread⟩
      · next item' next hnext =>
          obtain ⟨start, hcomma, hitem⟩ := Option.bind_eq_some_iff.1 hnext
          obtain ⟨sep, hsep, hread'⟩ := comma?_form hcomma
          obtain ⟨u, hrest, hreads⟩ := ih hitem
          have hfront := hread.trans hread'
          rw [hfront.offset_eq] at hrest
          exact ⟨t ++ sep ++ u, .cons hentry hsep hrest, hfront.trans hreads⟩

/-- A list is read entry by entry, if nothing but blanks follows it. -/
theorem dimTail_eq {start : Nat} (hform : ListForm .folding start items t) (hstart : c.offset = start)
    (h : c.Reads t e) (he : Blanks e.rest) :
    ∃ first others d, items = first :: others ∧ c.dimItem? .folding = some (first, d) ∧
      others.length ≤ d.rest.length ∧ ∀ fuel, others.length ≤ fuel → d.dimTail fuel = (others, e) := by
  induction hform generalizing c with
  | @last start item t hentry =>
      subst hstart
      have hnone : e.comma? = none := by
        rw [comma?, char?, skipBlanks_of_blanks he]
        rfl
      refine ⟨item, [], e, rfl, dimItem?_eq hentry h (Or.inl he), Nat.zero_le _, fun fuel _ => ?_⟩
      cases fuel with
      | zero => rfl
      | succ fuel => rw [dimTail, hnone]; rfl
  | @cons start item items t sep u hentry hsep hrest ih =>
      subst hstart
      obtain ⟨next, hfront, hread⟩ := h.split
      obtain ⟨d, hitem, hcomma⟩ := hfront.split
      obtain ⟨first, others, last, rfl, hfirst, -, hothers⟩ := ih hfront.offset_eq hread
      have hfollows : Follows d.rest := Or.inr ⟨sep, next.rest, hsep, hcomma.rest_eq⟩
      have hink : Inked next.rest := hread.inked hrest.inked
      have hroom : (first :: others).length ≤ d.rest.length := by
        have hle := hrest.length_le
        rw [hcomma.rest_eq, hread.rest_eq, List.length_append, List.length_append]
        omega
      refine ⟨item, first :: others, d, rfl, dimItem?_eq hentry hitem hfollows, hroom, fun fuel hfuel => ?_⟩
      cases fuel with
      | zero => exact absurd hfuel (by simp)
      | succ fuel =>
          rw [dimTail, comma?_eq hsep hcomma hink, Option.bind_some, hfirst]
          dsimp only
          rw [hothers fuel (Nat.le_of_succ_le_succ hfuel)]

end Cursor

variable {d : DimDeclaration} {text : List Char}

/-- What is read as a list of variables has the form of one. -/
theorem DimDeclaration.read?_form (h : DimDeclaration.read? ⟨0, text⟩ = some d) : DimForm d text := by
  simp only [DimDeclaration.read?, Option.bind_eq_bind, Option.bind_eq_some_iff, Prod.exists] at h
  obtain ⟨keyword, start, hkeyword, first, next, hfirst, h⟩ := h
  split at h
  · next hend =>
      cases h
      obtain ⟨lead, hblank, hlead⟩ := (Cursor.mk 0 text).skipBlanks_form
      obtain ⟨k, hword, hk⟩ := Cursor.word?_form hkeyword
      obtain ⟨list, hlist, hreads⟩ := Cursor.dimTail_form next.rest.length hfirst
      generalize next.dimTail next.rest.length = found at hend hlist hreads ⊢
      have hfront := hlead.trans hk
      have htake : start.rest.take (found.2.offset - start.offset) = list := by
        rw [hreads.offset_eq, Nat.add_sub_cancel_left, hreads.rest_eq, List.take_left]
      have htext : text = lead ++ k ++ list ++ found.2.rest := (hfront.trans hreads).rest_eq
      have hstart : start.offset = (lead ++ k).length := by rw [hfront.offset_eq, Nat.zero_add]
      rw [hlead.offset_eq, Nat.zero_add] at hword
      rw [hstart] at hlist
      rw [htake, hstart, htext]
      exact .intro hblank hword hlist fun x hx => List.all_eq_true.1 hend x hx
  · cases h

/-- A text that has the form of a list of variables is read as it. -/
theorem DimForm.read?_eq (h : DimForm d text) : DimDeclaration.read? ⟨0, text⟩ = some d := by
  cases h with
  | @intro lead k list trail keyword items hlead hkeyword hlist htrail =>
      have hall : (Cursor.mk 0 (lead ++ k ++ list ++ trail)).Reads (lead ++ k ++ list)
          ⟨(lead ++ k ++ list).length, trail⟩ :=
        ⟨rfl, (Nat.zero_add _).symm⟩
      generalize hc : Cursor.mk 0 (lead ++ k ++ list ++ trail) = c at hall ⊢
      have hzero : c.offset = 0 := by rw [← hc]
      obtain ⟨start, hfront, hread⟩ := hall.split
      obtain ⟨word, hblanks, hk⟩ := hfront.split
      have hstart : start.offset = (lead ++ k).length := by rw [hfront.offset_eq, hzero, Nat.zero_add]
      have hinked : Inked start.rest := hread.inked hlist.inked
      have hworded : Inked word.rest := hk.inked hkeyword.inked
      obtain ⟨first, others, next, rfl, hfirst, hroom, hothers⟩ := Cursor.dimTail_eq hlist hstart hread htrail
      rw [← Nat.zero_add lead.length, ← hzero, ← hblanks.offset_eq] at hkeyword
      have hend : (Cursor.mk (lead ++ k ++ list).length trail).atEnd = true := List.all_eq_true.2 htrail
      have htake : start.rest.take ((lead ++ k ++ list).length - (lead ++ k).length) = list := by
        rw [List.length_append, Nat.add_sub_cancel_left, hread.rest_eq, List.take_left]
      rw [DimDeclaration.read?, Cursor.skipBlanks_eq hblanks hlead hworded, Cursor.word?_eq hkeyword hk hinked]
      simp only [Option.bind_eq_bind, Option.bind_some, hfirst, hothers _ hroom, hstart]
      rw [if_pos hend, htake]

/-- Statements are read as lists of variables exactly where they have the form of one. -/
theorem DimDeclaration.read?_iff_form (s : Source.Statement) (d : DimDeclaration) :
    DimDeclaration.read? s.cursor = some d ↔ DimForm d s.text := by
  have htext : DimDeclaration.read? s.cursor = DimDeclaration.read? ⟨0, s.text⟩ := by
    rw [DimDeclaration.read?, DimDeclaration.read?, Cursor.skipBlanks_text]
  rw [htext]
  exact ⟨DimDeclaration.read?_form, DimForm.read?_eq⟩

/-! ### Lists are scanned -/

theorem scanItems_of_empty {c : Cursor} (h : c.rest = []) (fuel : Nat) : scanItems fuel c = [] := by
  cases fuel with
  | zero => rfl
  | succ fuel =>
      rw [scanItems, Cursor.dimItem?, Cursor.name?, h]
      rfl

/-- The scan passes over what no name starts in. -/
theorem scanItems_skip {c e : Cursor} {t : List Char} (ht : ∀ x ∈ t, Alphabet.plain.isNameStart x = false)
    (h : c.Reads t e) (fuel : Nat) : scanItems (t.length + fuel) c = scanItems fuel e := by
  induction t generalizing c with
  | nil =>
      have hsame : e = c := h.eq_advance
      rw [hsame, List.length_nil, Nat.zero_add]
  | cons x t ih =>
      obtain ⟨next, hfirst, hread⟩ := Cursor.Reads.split (t := [x]) h
      have hrest : c.rest = x :: next.rest := hfirst.rest_eq
      have hnone : c.dimItem? .plain = none := by
        rw [Cursor.dimItem?, Cursor.name?, hrest]
        simp [ht x List.mem_cons_self]
      have hnext : c.advance 1 = next := hfirst.eq_advance.symm
      rw [List.length_cons, Nat.succ_add, scanItems, hnone]
      dsimp only
      rw [hnext, hrest, List.isEmpty_cons, if_neg Bool.false_ne_true]
      exact ih (fun y hy => ht y (List.mem_cons_of_mem x hy)) hread

theorem Separator.not_isNameStart {sep : List Char} (h : Separator sep) :
    ∀ x ∈ sep, Alphabet.plain.isNameStart x = false := by
  obtain ⟨left, right, hleft, hright, rfl⟩ := h
  intro x hx
  rcases List.mem_append.1 hx with hx | hx
  · exact isNameStart_of_isBlank (hleft x hx)
  · rcases List.mem_cons.1 hx with rfl | hx
    · decide
    · exact isNameStart_of_isBlank (hright x hx)

/-- A list of names that the scan knows is scanned entry by entry. -/
theorem ListForm.scanItems_eq {start : Nat} {items : List DimItem} {t : List Char}
    (h : ListForm .plain start items t) {c e : Cursor} (hstart : c.offset = start) (hread : c.Reads t e)
    (he : e.rest = []) {fuel : Nat} (hfuel : t.length ≤ fuel) : scanItems fuel c = items := by
  induction h generalizing c fuel with
  | @last start item t hentry =>
      subst hstart
      have hpos := hentry.length_pos
      obtain ⟨fuel, rfl⟩ : ∃ n, fuel = n + 1 := ⟨fuel - 1, by omega⟩
      have hitem := Cursor.dimItem?_eq hentry hread (Or.inl (by rw [he]; nofun))
      rw [scanItems, hitem]
      dsimp only
      rw [scanItems_of_empty he]
  | @cons start item items t sep u hentry hsep hrest ih =>
      subst hstart
      obtain ⟨next, hfront, hlast⟩ := hread.split
      obtain ⟨d, hfirst, hcomma⟩ := hfront.split
      have hfollows : Follows d.rest := Or.inr ⟨sep, next.rest, hsep, hcomma.rest_eq⟩
      have hpos := hentry.length_pos
      simp only [List.length_append] at hfuel
      -- The entry is one step of the scan, however long it is, and each character of the separator is another.
      obtain ⟨fuel, rfl⟩ : ∃ n, fuel = sep.length + n + 1 := ⟨fuel - sep.length - 1, by omega⟩
      have hitem := Cursor.dimItem?_eq hentry hfirst hfollows
      rw [scanItems, hitem]
      dsimp only
      rw [scanItems_skip hsep.not_isNameStart hcomma, ih hfront.offset_eq hlast (by omega)]

/-! ### Names that the scan knows -/

/-- The name of an item is in the letters that lists are scanned by. -/
def DimItem.Plain (item : DimItem) : Prop := ∀ x ∈ item.name.text, Alphabet.plain.isNameChar x = true

theorem not_isAlpha_fold_of_isDigit {x : Char} (h : x.isDigit = true) : (fold x).isAlpha = false := by
  have hmem : x ∈ ['0', '1', '2', '3', '4', '5', '6', '7', '8', '9'] := by
    apply mem_of_toNat_mem
    simp only [Char.isDigit, Bool.and_eq_true, decide_eq_true_eq, UInt32.le_iff_toNat_le] at h
    have hlow : 48 ≤ x.toNat := h.1
    have hhigh : x.toNat ≤ 57 := h.2
    simp
    omega
  have hall : ['0', '1', '2', '3', '4', '5', '6', '7', '8', '9'].all (fun d => !(fold d).isAlpha) = true := by decide
  simpa using List.all_eq_true.1 hall x hmem

theorem IsName.plain {t : List Char} (h : IsName .folding t)
    (hplain : ∀ x ∈ t, Alphabet.plain.isNameChar x = true) : IsName .plain t := by
  obtain ⟨x, tail, rfl, hstart⟩ := h.head
  refine ⟨⟨x, tail, rfl, ?_⟩, hplain⟩
  have hchar := hplain x List.mem_cons_self
  simp only [Alphabet.isNameStart, Alphabet.isNameChar, Alphabet.letter, Char.isAlphanum, Bool.or_eq_true]
    at hstart hchar ⊢
  rcases hchar with (halpha | hdigit) | hunderscore
  · exact Or.inl halpha
  · rw [not_isAlpha_fold_of_isDigit hdigit] at hstart
    exact Or.inr (hstart.resolve_left Bool.false_ne_true)
  · exact Or.inr hunderscore

theorem ListForm.plain {start : Nat} {items : List DimItem} {t : List Char} (h : ListForm .folding start items t)
    (hplain : ∀ item ∈ items, item.Plain) : ListForm .plain start items t := by
  have hentry : ∀ {start : Nat} {item : DimItem} {t : List Char}, EntryForm .folding start item t → item.Plain →
      EntryForm .plain start item t :=
    fun hentry hplain => ⟨hentry.name_start, hentry.isName.plain hplain, hentry.bounds, hentry.stop_eq⟩
  induction h with
  | last hfirst => exact .last (hentry hfirst (hplain _ List.mem_cons_self))
  | cons hfirst hsep _ ih =>
      exact .cons (hentry hfirst (hplain _ List.mem_cons_self)) hsep
        (ih fun item hitem => hplain item (List.mem_cons_of_mem _ hitem))

theorem scanItems_plain {fuel : Nat} {c : Cursor} : ∀ item ∈ scanItems fuel c, item.Plain := by
  induction fuel generalizing c with
  | zero => nofun
  | succ fuel ih =>
      intro item hitem
      rw [scanItems] at hitem
      split at hitem
      · next first next hfirst =>
          rcases List.mem_cons.1 hitem with rfl | hitem
          · obtain ⟨_, _, hname, -⟩ := Cursor.dimItem?_reads hfirst
            exact hname.isNameChar
          · exact ih item hitem
      · split at hitem
        · cases hitem
        · exact ih item hitem

/-- The variables that are declared are the entries of the list, where the scan knows the names of all of them. -/
theorem DimForm.declared_eq (h : DimForm d text) (hplain : ∀ item ∈ d.items, item.Plain) : d.declared = d.items := by
  cases h with
  | @intro lead k list trail keyword items hlead hkeyword hlist htrail =>
      have hread : (Cursor.mk (lead ++ k).length list).Reads list ⟨(lead ++ k).length + list.length, []⟩ :=
        ⟨(List.append_nil list).symm, rfl⟩
      exact (hlist.plain hplain).scanItems_eq rfl hread rfl (Nat.le_refl _)

end Grammar

namespace Outline

open Grammar Source Text

variable {b : OpenBlocks} {s : Statement} {d : DimDeclaration}

/-! ### Entries are declared -/

/-- The variable that an entry declares by its place in a list: its declaration starts at the keyword for the first
entry and at its name for any other, and ends with its array bounds. -/
def entrySymbol (b : OpenBlocks) (s : Statement) (keyword : Lexeme) (place : Nat) (e : DimItem) : Symbol :=
  { kind := .variableDef
    name := e.name.spelling
    declaredRange := (s.range (if place = 0 then keyword.start else e.name.start : Nat) e.stop).value
    nameRange := (s.rangeOf e.name).value
    parent := b.nearestName }

theorem variableSymbols_value (b : OpenBlocks) (s : Statement) (d : DimDeclaration) :
    (variableSymbols b s d).value = d.declared.mapIdx (entrySymbol b s d.keyword) := by
  rw [variableSymbols]
  cases d.declared with
  | nil => rfl
  | cons first others =>
      rw [List.mapIdx_cons]
      simp only [Noted.value_bind, Noted.value_pure, value_mapM]
      refine congrArg₂ List.cons rfl (List.ext_getElem? fun k => ?_)
      rw [List.getElem?_map, List.getElem?_mapIdx]
      rfl

theorem apply_dim (hread : DimDeclaration.read? s.cursor = some d) (b : OpenBlocks) :
    (Rule.dim.apply b s).value = some ⟨b, d.declared.mapIdx (entrySymbol b s d.keyword)⟩ := by
  rw [Rule.apply, applyDim, hread]
  simp only [Noted.value_bind, Noted.value_pure, variableSymbols_value]

/-- Where each entry is declared, the scan knows the names of all of them. -/
theorem plain_of_declared {keyword : Lexeme} {items declared : List DimItem} (hplain : ∀ e ∈ declared, e.Plain)
    (h : declared.mapIdx (entrySymbol b s keyword) = items.mapIdx (entrySymbol b s keyword)) :
    ∀ e ∈ items, e.Plain := by
  intro e he
  obtain ⟨k, hk⟩ := List.mem_iff_getElem?.1 he
  have hentry := congrArg (fun symbols : List Symbol => symbols[k]?) h
  simp only [List.getElem?_mapIdx, hk, Option.map_some] at hentry
  obtain ⟨e', he', hsame⟩ := Option.map_eq_some_iff.1 hentry
  have hname : e'.name.text = e.name.text := String.ofList_injective (congrArg Symbol.name hsame)
  rw [DimItem.Plain, ← hname]
  exact hplain e' (List.mem_of_getElem? he')

namespace Reading

/-- Lists of variables are read exactly where a statement has their form. Then each entry is declared, in the order of
the list, under its whole name and with its range, if and only if the names are in the letters that the scan knows. -/
theorem entries_declared (s : Statement) :
    (∀ d, DimDeclaration.read? s.cursor = some d ↔ DimForm d s.text) ∧
    ∀ d, DimForm d s.text → ∀ r : Reading, (r.applyRule .dim s).1 = true ∧
      ((r.applyRule .dim s).2.symbols = r.symbols ++ (d.items.mapIdx (entrySymbol r.blocks s d.keyword)).toArray ↔
        ∀ e ∈ d.items, e.Plain) := by
  refine ⟨DimDeclaration.read?_iff_form s, fun d hform r => ?_⟩
  have happly := apply_dim ((DimDeclaration.read?_iff_form s d).2 hform) r.blocks
  rw [applyRule_of_value happly]
  refine ⟨rfl, ?_, ?_⟩
  · intro hsymbols
    have hentries := List.toArray_inj ((Array.append_right_inj r.symbols).1 hsymbols)
    exact plain_of_declared scanItems_plain hentries
  · intro hplain
    rw [hform.declared_eq hplain]
    rfl

/-- Commas in array bounds do not separate entries. -/
theorem entries_declared_bounds :
    let s := Statement.alone "Dim a , grid(3, 4),c".toList [⟨0, 0, 20, 0⟩] 0
    let d : DimDeclaration :=
      ⟨⟨0, "Dim".toList⟩, [⟨⟨4, ['a']⟩, 5⟩, ⟨⟨8, "grid".toList⟩, 18⟩, ⟨⟨19, ['c']⟩, 20⟩],
        ⟨4, "a , grid(3, 4),c".toList⟩⟩
    DimForm d s.text ∧ (∀ e ∈ d.items, e.Plain) ∧
      ((start {}).applyRule .dim s).2.symbols.toList.map (fun x => (x.name, x.declaredRange)) =
        [("a", ⟨⟨0, 0⟩, ⟨0, 5⟩⟩), ("grid", ⟨⟨0, 8⟩, ⟨0, 18⟩⟩), ("c", ⟨⟨0, 19⟩, ⟨0, 20⟩⟩)] := by
  intro s d
  obtain ⟨hread, hdeclared⟩ := entries_declared s
  have hform : DimForm d s.text := (hread d).1 (by decide +kernel)
  have hplain : ∀ e ∈ d.items, e.Plain := by
    intro e he x hx
    have hall : d.items.all (fun e => e.name.text.all Alphabet.plain.isNameChar) = true := by decide +kernel
    exact List.all_eq_true.1 (List.all_eq_true.1 hall e he) x hx
  refine ⟨hform, hplain, ?_⟩
  rw [(hdeclared d hform (start {})).2.2 hplain]
  decide +kernel

/-- A name with a long s in it is one entry of a list but is declared as two variables. -/
theorem entry_cut_in_two :
    let s := Statement.alone "Dim a\u017Fb".toList [⟨0, 0, 7, 0⟩] 0
    (∃ d, DimForm d s.text ∧ d.items.map (fun e => e.name.spelling) = ["a\u017Fb"]) ∧
      ((start {}).applyRule .dim s).2.symbols.toList.map Symbol.name = ["a", "b"] := by
  intro s
  refine ⟨⟨⟨⟨0, "Dim".toList⟩, [⟨⟨4, "a\u017Fb".toList⟩, 7⟩], ⟨4, "a\u017Fb".toList⟩⟩, ?_, ?_⟩, ?_⟩
  · rw [← DimDeclaration.read?_iff_form]
    decide +kernel
  · decide +kernel
  · decide +kernel

end Reading

end Outline

end VbOutline
