import VbOutline.Proofs.Turns

/-! One rule for each statement. The words a statement starts with belong to one rule only, so at most one of the
nine rules reads a statement, and the rules may be tried in any order. A header that another block is in the way of
falls through to the rules behind its own, as does a constant inside of a member: none of them takes it. -/

namespace VbOutline

namespace Grammar

open Text

variable {c d : Cursor}

/-! ### Words of declarations -/

namespace Cursor

/-- The first word. -/
def firstWord (c : Cursor) : List Char := c.skipBlanks.nextWord

theorem firstWord_of_word? {ks : List Keyword} {sp : Spelled} (h : c.skipBlanks.word? ks = some (sp, d)) :
    ∃ k ∈ ks, c.firstWord = k.letters :=
  nextWord_of_word? h

/-- Behind a visibility, a word that does not mark the default member leads. -/
theorem leadingWord_of_visibility {sp : Spelled} (h : c.skipBlanks.word? visibilities = some (sp, d))
    (hdefault : d.nextWord ≠ Keyword.defaultKw.letters) : c.leadingWord = d.nextWord := by
  have hnone : d.word? [.defaultKw] = none := by
    rw [Option.eq_none_iff_forall_ne_some]
    rintro ⟨sp', e⟩ hread
    obtain ⟨k, hk, heq⟩ := nextWord_of_word? hread
    rw [List.mem_singleton.1 hk] at heq
    exact hdefault heq
  rw [leadingWord, memberVisibility, optionalWord_of_some h]
  dsimp only
  rw [optionalWord_of_none hnone]

/-- A name that ends the text is the next word. -/
theorem nextWord_of_name? {alphabet : Alphabet} {name : Lexeme} (h : c.name? alphabet = some (name, d))
    (hend : d.atEnd = true) : c.nextWord = folded name.text := by
  have hname := name?_reads h
  have hword : ∀ x ∈ name.text, isBlank x = false := fun x hx => not_isBlank_of_isNameChar (hname.isNameChar x hx)
  exact hname.reads.nextWord_eq hword (isBlank_of_atEnd hend)

end Cursor

/-- A field starts with a visibility, and the word behind it is its name. -/
theorem FieldDeclaration.read?_leads (h : (FieldDeclaration.read? c).isSome) :
    (∃ k ∈ visibilities, c.firstWord = k.letters) ∧ c.leadingWord ∉ reservedForFields.map Keyword.letters := by
  obtain ⟨declaration, h⟩ := Option.isSome_iff_exists.1 h
  simp only [FieldDeclaration.read?, Option.bind_eq_bind, Option.bind_eq_some_iff, Prod.exists] at h
  obtain ⟨sp, d, hvisibility, name, e, hname, h⟩ := h
  split at h
  · next hform =>
      obtain ⟨hend, hfree⟩ := hform
      have hword := Cursor.nextWord_of_name? hname hend
      have hdefault : d.nextWord ≠ Keyword.defaultKw.letters := by
        intro heq
        rw [← hword, heq] at hfree
        exact hfree (List.mem_map_of_mem (by decide))
      refine ⟨Cursor.firstWord_of_word? hvisibility, ?_⟩
      rwa [Cursor.leadingWord_of_visibility hvisibility hdefault, hword]
  · cases h

theorem DimDeclaration.read?_leads (h : (DimDeclaration.read? c).isSome) : c.leadingWord = Keyword.dimKw.letters := by
  obtain ⟨declaration, h⟩ := Option.isSome_iff_exists.1 h
  simp only [DimDeclaration.read?, Option.bind_eq_bind, Option.bind_eq_some_iff, Prod.exists] at h
  obtain ⟨sp, d, hword, -⟩ := h
  exact Cursor.leadingWord_of_word? hword (by decide)

theorem ConstDeclaration.read?_leads (h : (ConstDeclaration.read? c).isSome) :
    c.leadingWord = Keyword.constKw.letters := by
  obtain ⟨declaration, h⟩ := Option.isSome_iff_exists.1 h
  simp only [ConstDeclaration.read?, Option.bind_eq_bind, Option.bind_eq_some_iff, Prod.exists] at h
  obtain ⟨sp, d, hconst, -⟩ := h
  cases hvisibility : c.skipBlanks.word? visibilities with
  | none =>
      rw [Cursor.optionalWord_of_none hvisibility] at hconst
      exact Cursor.leadingWord_of_word? hconst (by decide)
  | some found =>
      obtain ⟨visibility, e⟩ := found
      rw [Cursor.optionalWord_of_some hvisibility] at hconst
      obtain ⟨k, hk, hword⟩ := Cursor.nextWord_of_word? hconst
      rw [List.mem_singleton.1 hk] at hword
      have hdefault : e.nextWord ≠ Keyword.defaultKw.letters := by
        rw [hword]
        decide
      rw [Cursor.leadingWord_of_visibility hvisibility hdefault, hword]

theorem readEnd?_first {ks : List Keyword} (h : (readEnd? ks c).isSome) : c.firstWord = Keyword.endKw.letters := by
  obtain ⟨sp, h⟩ := Option.isSome_iff_exists.1 h
  simp only [readEnd?, Option.bind_eq_bind, Option.bind_eq_some_iff, Prod.exists] at h
  obtain ⟨_, d, hword, -⟩ := h
  obtain ⟨k, hk, hfirst⟩ := Cursor.firstWord_of_word? hword
  rwa [List.mem_singleton.1 hk] at hfirst

end Grammar

namespace Outline

open Grammar Source

variable {b : OpenBlocks} {s : Statement} {rule rule' : Rule}

/-! ### One rule for each statement -/

namespace Rule

/-- The words that lead statements of a rule; the leading word of a field is its name. -/
def leading : Rule → List Keyword
  | dim => [.dimKw]
  | constant => [.constKw]
  | rule => rule.leads

theorem leading_of_reads (hfield : rule ≠ field) (h : rule.Reads s) :
    ∃ k ∈ rule.leading, s.cursor.leadingWord = k.letters := by
  cases rule with
  | field => exact absurd rfl hfield
  | dim => exact ⟨.dimKw, List.mem_singleton_self _, DimDeclaration.read?_leads h⟩
  | constant => exact ⟨.constKw, List.mem_singleton_self _, ConstDeclaration.read?_leads h⟩
  | methodOpen | methodClose | propertyOpen | propertyClose | classOpen | classClose =>
      exact leads_of_reads (by decide) h

/-- No other rule reads the declaration of a field: the names of fields are not the words that lead other
statements, except for `end`, and that is the first word of an end. -/
theorem eq_field_of_reads (hfield : field.Reads s) (h : rule.Reads s) : rule = field := by
  obtain ⟨⟨k, hk, hfirst⟩, hfree⟩ := FieldDeclaration.read?_leads hfield
  by_cases hends : rule ∈ [methodClose, propertyClose, classClose]
  · have hend : s.cursor.firstWord = Keyword.endKw.letters := by
      cases rule with
      | methodClose | propertyClose | classClose => exact readEnd?_first h
      | methodOpen | propertyOpen | classOpen | field | dim | constant => exact absurd hends (by decide)
    have hsame : k = .endKw := Keyword.letters_injective (hfirst.symm.trans hend)
    exact absurd (hsame ▸ hk) (by decide)
  by_cases hother : rule = field
  · exact hother
  have hreserved : ∀ r : Rule, r ∉ [methodClose, propertyClose, classClose] → r ≠ field →
      ∀ k ∈ r.leading, k ∈ reservedForFields := by
    intro r
    cases r <;> decide
  obtain ⟨k', hk', hword⟩ := leading_of_reads hother h
  rw [hword] at hfree
  exact absurd (List.mem_map_of_mem (hreserved rule hends hother k' hk')) hfree

/-- At most one rule reads a statement. -/
theorem eq_of_reads (h : rule.Reads s) (h' : rule'.Reads s) : rule = rule' := by
  by_cases hfield : rule = field
  · subst hfield
    exact (eq_field_of_reads h h').symm
  by_cases hfield' : rule' = field
  · subst hfield'
    exact eq_field_of_reads h' h
  by_cases hblocks : rule ∈ ofBlocks ∧ rule' ∈ ofBlocks
  · exact reads_unique hblocks.1 hblocks.2 h h'
  by_cases hne : rule = rule'
  · exact hne
  have hapart : ∀ r r' : Rule, ¬ (r ∈ ofBlocks ∧ r' ∈ ofBlocks) → r ≠ r' → ∀ k ∈ r.leading, k ∉ r'.leading := by
    intro r r'
    cases r <;> cases r' <;> decide
  obtain ⟨k, hk, hword⟩ := leading_of_reads hfield h
  obtain ⟨k', hk', hword'⟩ := leading_of_reads hfield' h'
  have hsame : k = k' := Keyword.letters_injective (hword.symm.trans hword')
  exact absurd (hsame ▸ hk') (hapart rule rule' hblocks hne k hk)

theorem mem_all (rule : Rule) : rule ∈ all := by
  cases rule <;> decide

end Rule

/-! ### Rules in any order -/

section Order

variable {rules : List Rule}

/-- Tries rules in their order until one gives something. -/
def firstOf {γ : Type} (attempt : Rule → Noted (Option γ)) : List Rule → Noted (Option (Rule × γ))
  | [] => pure none
  | rule :: rules => do
    match ← attempt rule with
    | some found => pure (some (rule, found))
    | none => firstOf attempt rules

variable {γ : Type} {attempt : Rule → Noted (Option γ)}

theorem firstOf_of_none (h : ∀ rule ∈ rules, attempt rule = pure none) : firstOf attempt rules = pure none := by
  induction rules with
  | nil => rfl
  | cons rule rules ih =>
      obtain ⟨hrule, hrules⟩ := List.forall_mem_cons.1 h
      rw [firstOf, hrule, pure_bind]
      exact ih hrules

/-- Where all rules but one decline, trying them all is trying that one. -/
theorem firstOf_of_sole (hrules : rules.Perm Rule.all) (hothers : ∀ other, other ≠ rule → attempt other = pure none) :
    firstOf attempt rules = ⟨(attempt rule).value.map (rule, ·), (attempt rule).problems⟩ := by
  have hnodup : rules.Nodup := hrules.nodup_iff.2 (by decide)
  obtain ⟨front, back, rfl⟩ := List.append_of_mem (hrules.mem_iff.2 (Rule.mem_all rule))
  have hne : ∀ other ∈ front ++ back, other ≠ rule := by
    rintro other hmem rfl
    exact (List.nodup_cons.1 (List.perm_middle.nodup_iff.1 hnodup)).1 hmem
  clear hrules hnodup
  induction front with
  | nil =>
      have hback : firstOf attempt back = pure none :=
        firstOf_of_none fun other hmem => hothers other (hne other hmem)
      show (⟨_, _ ++ _⟩ : Noted _) = _
      cases (attempt rule).value with
      | none =>
          dsimp only
          rw [hback]
          exact congrArg (Noted.mk none) (List.append_nil _)
      | some found => exact congrArg (Noted.mk _) (List.append_nil _)
  | cons first front ih =>
      obtain ⟨hfirst, hne⟩ := List.forall_mem_cons.1 hne
      rw [List.cons_append, firstOf, hothers first hfirst, pure_bind]
      exact ih hne

/-- If rules decline what they do not read, their order does not matter. -/
theorem firstOf_perm (hrules : rules.Perm Rule.all) (h : ∀ rule : Rule, ¬ rule.Reads s → attempt rule = pure none) :
    firstOf attempt rules = firstOf attempt Rule.all := by
  by_cases hany : ∃ rule : Rule, rule.Reads s
  · obtain ⟨rule, hreads⟩ := hany
    have hothers : ∀ other, other ≠ rule → attempt other = pure none :=
      fun other hne => h other fun hother => hne (Rule.eq_of_reads hother hreads)
    rw [firstOf_of_sole hrules hothers, firstOf_of_sole (.refl _) hothers]
  · have hnone : ∀ rule, attempt rule = pure none := fun rule => h rule (not_exists.1 hany rule)
    rw [firstOf_of_none fun rule _ => hnone rule, firstOf_of_none fun rule _ => hnone rule]

theorem consumeWith_eq (rules : List Rule) (b : OpenBlocks) (s : Statement) :
    consumeWith rules b s = firstOf (fun rule => rule.apply b s) rules := by
  induction rules with
  | nil => rfl
  | cons rule rules ih =>
      rw [consumeWith, firstOf, ih]
      refine congrArg (rule.apply b s >>= ·) (funext fun found => ?_)
      cases found <;> rfl

theorem consume_of_sole (h : rule.Reads s) :
    consume b s = ⟨(rule.apply b s).value.map (rule, ·), (rule.apply b s).problems⟩ := by
  rw [consume, consumeWith_eq]
  exact firstOf_of_sole (.refl _) fun other hne =>
    Rule.apply_of_not_reads fun hother => hne (Rule.eq_of_reads hother h)

/-- A statement is consumed in the same way in whatever order the rules are tried. -/
theorem consumeWith_perm (hrules : rules.Perm Rule.all) (b : OpenBlocks) (s : Statement) :
    consumeWith rules b s = consume b s := by
  rw [consume, consumeWith_eq, consumeWith_eq]
  exact firstOf_perm hrules fun _ => Rule.apply_of_not_reads

/-- A rule that consumes a statement is the one that consumes it among all. -/
theorem consume_of_apply {change : Change} (h : (rule.apply b s).value = some change) :
    consume b s = ⟨some (rule, change), (rule.apply b s).problems⟩ := by
  have hreads : rule.Reads s := by
    by_cases hreads : rule.Reads s
    · exact hreads
    · rw [Rule.apply_of_not_reads hreads] at h
      cases h
  rw [consume_of_sole hreads, h]
  rfl

end Order

/-! ### Statements that no rule takes -/

/-- The rules for headers. -/
def Rule.openers : List Rule := [methodOpen, propertyOpen, classOpen]

/-- A header that another block is in the way of is reported once and declined. -/
theorem apply_of_rejected (hrule : rule ∈ Rule.openers) (hreads : rule.Reads s) (hidle : ¬ rule.Acts b) :
    ∃ finding : Finding, finding.category = .structuralMismatch ∧
      rule.apply b s = ⟨none, [finding.onLine s.line]⟩ := by
  have hmember : ∀ kind, (MemberHeader.read? kind s.cursor).isSome → b.openMember ≠ none →
      ∃ finding : Finding, finding.category = .structuralMismatch ∧
        applyMemberOpen kind b s = ⟨none, [finding.onLine s.line]⟩ := by
    intro kind hread hbusy
    obtain ⟨header, hread⟩ := Option.isSome_iff_exists.1 hread
    obtain ⟨m, hm⟩ := Option.ne_none_iff_exists'.1 hbusy
    have hname : b.memberName = some m.name := by rw [OpenBlocks.memberName, hm]; rfl
    refine ⟨.memberInside header.name.spelling m.name, rfl, ?_⟩
    rw [applyMemberOpen, hread]
    simp only [hname]
    rfl
  cases rule with
  | methodOpen => exact hmember .method hreads hidle
  | propertyOpen => exact hmember .property hreads hidle
  | classOpen =>
      obtain ⟨name, hread⟩ := Option.isSome_iff_exists.1 hreads
      have hbusy : b.outermostName ≠ none := fun hnone => hidle (outermostName_eq_none.1 hnone)
      obtain ⟨current, hname⟩ := Option.ne_none_iff_exists'.1 hbusy
      refine ⟨.classInside name.spelling current, rfl, ?_⟩
      rw [Rule.apply, applyClassOpen, hread]
      simp only [hname]
      rfl
  | methodClose | propertyClose | classClose | field | dim | constant => exact absurd hrule (by decide)

/-- A constant inside of a member is declined. -/
theorem apply_constant_inside (hbusy : b.openMember ≠ none) : Rule.constant.apply b s = pure none := by
  rw [Rule.apply, applyConstant]
  split
  · rfl
  · rw [if_pos (Option.isSome_iff_ne_none.2 hbusy)]

namespace Reading

variable {r : Reading} {rules : List Rule}

/-- Reads a statement by rules that are tried in a given order. -/
def consumeBy (rules : List Rule) (r : Reading) (s : Statement) : Option Rule × Reading :=
  match r.absorb (consumeWith rules r.blocks s) with
  | (some (rule, change), r) => (some rule, r.accept change)
  | (none, r) => (none, r)

theorem consumeBy_perm (hrules : rules.Perm Rule.all) (r : Reading) (s : Statement) :
    r.consumeBy rules s = r.consume s := by
  rw [consumeBy, consumeWith_perm hrules]
  rfl

theorem applyRule_of_not_reads (h : ¬ rule.Reads s) : r.applyRule rule s = (false, r) := by
  rw [applyRule, Rule.apply_of_not_reads h]
  rfl

theorem applyRule_of_value {change : Change} (h : (rule.apply r.blocks s).value = some change) :
    r.applyRule rule s = (true, ({ r with log := r.log.addAll (rule.apply r.blocks s).problems }).accept change) := by
  rw [applyRule, absorb, h]

theorem consume_of_value {change : Change} (h : (rule.apply r.blocks s).value = some change) :
    r.consume s = (some rule, (r.applyRule rule s).2) := by
  rw [applyRule_of_value h, consume, consume_of_apply h, absorb]

theorem consume_of_declined {problems : List Problem} (hreads : rule.Reads s)
    (h : rule.apply r.blocks s = ⟨none, problems⟩) :
    r.consume s = (none, { r with log := r.log.addAll problems }) := by
  rw [consume, consume_of_sole hreads, h]
  rfl

theorem applyRule_of_other {other : Rule} (hreads : rule.Reads s) (hne : other ≠ rule) :
    r.applyRule other s = (false, r) :=
  applyRule_of_not_reads fun hother => hne (Rule.eq_of_reads hother hreads)

/-- A header that another block is in the way of is taken by no rule, and reported once. -/
theorem consumeBy_of_rejected (hrules : rules.Perm Rule.all) (hrule : rule ∈ Rule.openers) (hreads : rule.Reads s)
    (hidle : ¬ rule.Acts r.blocks) :
    ∃ finding : Finding, finding.category = .structuralMismatch ∧
      r.consumeBy rules s = (none, r.report (finding.onLine s.line)) ∧
      r.applyRule rule s = (false, r.report (finding.onLine s.line)) := by
  obtain ⟨finding, hcategory, happly⟩ := apply_of_rejected hrule hreads hidle
  refine ⟨finding, hcategory, ?_, ?_⟩
  · rw [consumeBy_perm hrules, consume_of_declined hreads happly]
    rfl
  · rw [applyRule, happly]
    rfl

/-- A constant inside of a member is taken by no rule. -/
theorem consumeBy_of_constant_inside (hrules : rules.Perm Rule.all) (hreads : Rule.constant.Reads s)
    (hbusy : r.blocks.openMember ≠ none) :
    r.consumeBy rules s = (none, r) ∧ ∀ rule, r.applyRule rule s = (false, r) := by
  have happly := apply_constant_inside (s := s) hbusy
  refine ⟨?_, fun rule => ?_⟩
  · rw [consumeBy_perm hrules, consume_of_declined hreads happly]
    rfl
  · by_cases hrule : rule = .constant
    · rw [hrule, applyRule, happly]
      rfl
    · exact applyRule_of_other hreads hrule

end Reading

end Outline

end VbOutline
