import VbOutline.Proofs.Readers
import VbOutline.Proofs.Steps

/-! The forms of the statements that open and close blocks. No statement has two of them: the first word
after a visibility tells headers and ends apart, and the word after `end` tells the ends apart. So at
most one of the rules for blocks reads a statement, and the order of these rules does not matter. -/

namespace VbOutline

namespace Grammar

open Text

theorem Keyword.letters_injective : Function.Injective Keyword.letters := by
  intro k k' h
  cases k <;> cases k' <;> first | rfl | cases h

namespace Cursor

variable {c d : Cursor}

/-! ### Words -/

/-- What stands before the next blank, up to letter case. -/
def nextWord (c : Cursor) : List Char := folded (c.rest.takeWhile fun x => !isBlank x)

/-- What is taken without a blank, up to a blank or to the end, is the next word. -/
theorem Reads.nextWord_eq {t : List Char} (h : c.Reads t d) (ht : ∀ x ∈ t, isBlank x = false)
    (hblank : ∀ x ∈ d.rest.head?, isBlank x = true) : c.nextWord = folded t := by
  have htaken : ∀ x ∈ t, (!isBlank x) = true := fun x hx => by rw [ht x hx]; rfl
  have hstop : ∀ x ∈ d.rest.head?, (!isBlank x) = false := fun x hx => by rw [hblank x hx]; rfl
  rw [nextWord, h.rest_eq, takeWhile_append_stop htaken hstop]

theorem ReadsKeyword.nextWord_eq {sp : Spelled} (h : c.ReadsKeyword sp d)
    (hblank : ∀ x ∈ d.rest.head?, isBlank x = true) : c.nextWord = sp.keyword.letters :=
  (h.reads.nextWord_eq (not_isBlank_of_folded h.letters_eq) hblank).trans h.letters_eq

theorem isBlank_of_atEnd (h : c.atEnd = true) : ∀ x ∈ c.rest.head?, isBlank x = true :=
  fun x hx => List.all_eq_true.1 h x (List.mem_of_mem_head? hx)

theorem nextWord_of_word? {ks : List Keyword} {sp : Spelled} (h : c.word? ks = some (sp, d)) :
    ∃ k ∈ ks, c.nextWord = k.letters := by
  obtain ⟨hmem, e, hread, hblanks⟩ := word?_reads h
  obtain ⟨t, hne, ht, hreads⟩ := blanks?_reads hblanks
  refine ⟨sp.keyword, hmem, hread.nextWord_eq fun x hx => ht x ?_⟩
  rw [hreads.rest_eq, List.head?_append, List.head?_eq_some_head hne] at hx
  rw [← Option.some.inj hx]
  exact List.head_mem hne

theorem nextWord_of_oneOf? {ks : List Keyword} {sp : Spelled} (h : c.oneOf? ks = some (sp, d))
    (hend : d.atEnd = true) : ∃ k ∈ ks, c.nextWord = k.letters := by
  obtain ⟨hmem, hread⟩ := oneOf?_reads h
  exact ⟨sp.keyword, hmem, hread.nextWord_eq (isBlank_of_atEnd hend)⟩

/-- A word that is none of some keywords is not taken for one of them. -/
theorem word?_eq_none {ks ks' : List Keyword} (h : ∃ k ∈ ks, c.nextWord = k.letters)
    (hdisjoint : ∀ k ∈ ks, k ∉ ks') : c.word? ks' = none := by
  rw [Option.eq_none_iff_forall_ne_some]
  rintro ⟨sp, d⟩ hread
  obtain ⟨k, hk, heq⟩ := h
  obtain ⟨k', hk', heq'⟩ := nextWord_of_word? hread
  have hsame : k = k' := Keyword.letters_injective (heq.symm.trans heq')
  exact hdisjoint k hk (hsame ▸ hk')

theorem optionalWord_of_some {ks : List Keyword} {sp : Spelled} (h : c.word? ks = some (sp, d)) :
    c.optionalWord ks = (some sp, d) := by
  rw [optionalWord, h]

theorem optionalWord_of_none {ks : List Keyword} (h : c.word? ks = none) : c.optionalWord ks = (none, c) := by
  rw [optionalWord, h]

/-- The first word after a visibility. -/
def leadingWord (c : Cursor) : List Char := c.skipBlanks.memberVisibility.2.nextWord

/-- The word after `end`. -/
def endingWord (c : Cursor) : List Char := (c.skipBlanks.optionalWord [.endKw]).2.nextWord

theorem leadingWord_of_word? {k : Keyword} {sp : Spelled} (h : c.skipBlanks.word? [k] = some (sp, d))
    (hk : k ∉ visibilities) : c.leadingWord = k.letters := by
  obtain ⟨k', hmem, hword⟩ := nextWord_of_word? h
  rw [List.mem_singleton] at hmem
  subst hmem
  have hnone : c.skipBlanks.word? visibilities = none :=
    word?_eq_none ⟨k', List.mem_singleton_self k', hword⟩ fun k hk' => by
      rwa [List.mem_singleton.1 hk']
  rw [leadingWord, memberVisibility, optionalWord_of_none hnone]
  exact hword

end Cursor

/-! ### Forms -/

variable {c : Cursor}

/-- The words that members of a kind are opened with and that follow `end` where they are closed. -/
def MemberKind.words : MemberKind → List Keyword
  | .method => MemberKind.method.keywords
  | .property => [.propertyKw]

theorem MemberHeader.read?_leads {kind : MemberKind} (h : (MemberHeader.read? kind c).isSome) :
    ∃ k ∈ kind.words, c.leadingWord = k.letters := by
  obtain ⟨header, h⟩ := Option.isSome_iff_exists.1 h
  simp only [MemberHeader.read?, Option.bind_eq_bind, Option.bind_eq_some_iff, Prod.exists] at h
  obtain ⟨sp, d, hkeyword, -⟩ := h
  cases kind with
  | method => exact Cursor.nextWord_of_word? hkeyword
  | property =>
      simp only [Cursor.memberKeyword?, Option.bind_eq_bind, Option.bind_eq_some_iff, Prod.exists] at hkeyword
      obtain ⟨_, e, hproperty, -⟩ := hkeyword
      exact Cursor.nextWord_of_word? hproperty

theorem readClassHeader?_leads (h : (readClassHeader? c).isSome) : c.leadingWord = Keyword.classKw.letters := by
  obtain ⟨name, h⟩ := Option.isSome_iff_exists.1 h
  simp only [readClassHeader?, Option.bind_eq_bind, Option.bind_eq_some_iff, Prod.exists] at h
  obtain ⟨sp, d, hword, -⟩ := h
  exact Cursor.leadingWord_of_word? hword (by decide)

theorem readEnd?_leads {ks : List Keyword} (h : (readEnd? ks c).isSome) :
    c.leadingWord = Keyword.endKw.letters ∧ ∃ k ∈ ks, c.endingWord = k.letters := by
  obtain ⟨sp, h⟩ := Option.isSome_iff_exists.1 h
  simp only [readEnd?, Option.bind_eq_bind, Option.bind_eq_some_iff, Prod.exists] at h
  obtain ⟨_, d, hword, sp', e, hone, h⟩ := h
  refine ⟨Cursor.leadingWord_of_word? hword (by decide), ?_⟩
  split at h
  · next hend =>
      rw [Cursor.endingWord, Cursor.optionalWord_of_some hword]
      exact Cursor.nextWord_of_oneOf? hone hend
  · cases h

end Grammar

namespace Outline

open Grammar Source

variable {b : OpenBlocks} {s : Statement} {rule : Rule}

namespace Rule

/-- The rules for statements that open and close blocks. -/
def ofBlocks : List Rule := [methodOpen, methodClose, propertyOpen, propertyClose, classOpen, classClose]

/-- The rules for statements that declare without opening a block. -/
def ofDeclarations : List Rule := [field, dim, constant]

/-- Whether a statement has the form that a rule is for. -/
def Reads (s : Statement) : Rule → Prop
  | methodOpen => (MemberHeader.read? .method s.cursor).isSome
  | methodClose => (readEnd? MemberKind.method.words s.cursor).isSome
  | propertyOpen => (MemberHeader.read? .property s.cursor).isSome
  | propertyClose => (readEnd? MemberKind.property.words s.cursor).isSome
  | classOpen => (readClassHeader? s.cursor).isSome
  | classClose => (readEnd? [.classKw] s.cursor).isSome
  | field => (FieldDeclaration.read? s.cursor).isSome
  | dim => (DimDeclaration.read? s.cursor).isSome
  | constant => (ConstDeclaration.read? s.cursor).isSome

theorem apply_of_not_reads (h : ¬ rule.Reads s) : rule.apply b s = pure none := by
  cases rule <;> simp only [Reads, Option.not_isSome_iff_eq_none] at h
  case methodOpen | propertyOpen => rw [apply, applyMemberOpen, h]
  case methodClose => rw [apply, applyMethodClose, show readEnd? MemberKind.method.keywords _ = none from h]
  case propertyClose => rw [apply, applyPropertyClose, show readEnd? [.propertyKw] _ = none from h]
  case classOpen => rw [apply, applyClassOpen, h]
  case classClose => rw [apply, applyClassClose, h]
  case field => rw [apply, applyField, h]
  case dim => rw [apply, applyDim, h]
  case constant => rw [apply, applyConstant, h]

/-- The words that statements of a rule start with, after a visibility. -/
def leads : Rule → List Keyword
  | methodOpen => MemberKind.method.words
  | propertyOpen => MemberKind.property.words
  | classOpen => [.classKw]
  | methodClose | propertyClose | classClose => [.endKw]
  | field | dim | constant => []

/-- The words that follow `end` in statements of a rule. -/
def endings : Rule → List Keyword
  | methodClose => MemberKind.method.words
  | propertyClose => MemberKind.property.words
  | classClose => [.classKw]
  | methodOpen | propertyOpen | classOpen | field | dim | constant => []

theorem leads_of_reads (hrule : rule ∈ ofBlocks) (h : rule.Reads s) :
    ∃ k ∈ rule.leads, s.cursor.leadingWord = k.letters := by
  cases rule with
  | methodOpen => exact MemberHeader.read?_leads h
  | propertyOpen => exact MemberHeader.read?_leads h
  | classOpen => exact ⟨.classKw, List.mem_singleton_self _, readClassHeader?_leads h⟩
  | methodClose | propertyClose | classClose =>
      exact ⟨.endKw, List.mem_singleton_self _, (readEnd?_leads h).1⟩
  | field | dim | constant => simp [ofBlocks] at hrule

theorem endings_of_reads (hends : rule.endings ≠ []) (h : rule.Reads s) :
    ∃ k ∈ rule.endings, s.cursor.endingWord = k.letters := by
  cases rule with
  | methodClose | propertyClose | classClose => exact (readEnd?_leads h).2
  | methodOpen | propertyOpen | classOpen | field | dim | constant => exact absurd rfl hends

/-- At most one of the rules for blocks reads a statement. -/
theorem reads_unique {rule' : Rule} (hrule : rule ∈ ofBlocks) (hrule' : rule' ∈ ofBlocks) (h : rule.Reads s)
    (h' : rule'.Reads s) : rule = rule' := by
  have hapart : ∀ r ∈ ofBlocks, ∀ r' ∈ ofBlocks, r ≠ r' → (∀ k ∈ r.leads, k ∉ r'.leads) ∨
      r.endings ≠ [] ∧ r'.endings ≠ [] ∧ ∀ k ∈ r.endings, k ∉ r'.endings := by decide
  by_cases hne : rule = rule'
  · exact hne
  rcases hapart rule hrule rule' hrule' hne with hleads | ⟨hends, hends', hendings⟩
  · obtain ⟨k, hk, heq⟩ := leads_of_reads hrule h
    obtain ⟨k', hk', heq'⟩ := leads_of_reads hrule' h'
    have hsame : k = k' := Keyword.letters_injective (heq.symm.trans heq')
    exact absurd (hsame ▸ hk') (hleads k hk)
  · obtain ⟨k, hk, heq⟩ := endings_of_reads hends h
    obtain ⟨k', hk', heq'⟩ := endings_of_reads hends' h'
    have hsame : k = k' := Keyword.letters_injective (heq.symm.trans heq')
    exact absurd (hsame ▸ hk') (hendings k hk)

end Rule

/-! ### The rule that reads a statement -/

theorem consumeWith_of_not_reads {rules : List Rule} (h : ∀ rule ∈ rules, ¬ rule.Reads s) (rest : List Rule) :
    consumeWith (rules ++ rest) b s = consumeWith rest b s := by
  induction rules with
  | nil => rfl
  | cons rule rules ih =>
      rw [List.cons_append, consumeWith, Rule.apply_of_not_reads (h rule List.mem_cons_self), pure_bind]
      exact ih fun r hr => h r (List.mem_cons_of_mem rule hr)

/-- What becomes of a statement after the rule that reads it. -/
def proceed (rule : Rule) (rest : List Rule) (b : OpenBlocks) (s : Statement) : Noted (Option (Rule × Change)) := do
  match ← rule.apply b s with
  | some change => pure (some (rule, change))
  | none => consumeWith rest b s

theorem consumeWith_of_reads {rules : List Rule} (hnodup : rules.Nodup) (hrule : rule ∈ rules)
    (honly : ∀ rule' ∈ rules, rule'.Reads s → rule' = rule) (rest : List Rule) :
    consumeWith (rules ++ rest) b s = proceed rule rest b s := by
  induction rules with
  | nil => cases hrule
  | cons first rules ih =>
      obtain ⟨hfresh, hnodup⟩ := List.nodup_cons.1 hnodup
      by_cases hfirst : first = rule
      · subst hfirst
        have hothers : ∀ rule' ∈ rules, ¬ rule'.Reads s := by
          intro rule' hmem hreads
          have hsame := honly rule' (List.mem_cons_of_mem first hmem) hreads
          exact hfresh (hsame ▸ hmem)
        rw [List.cons_append, consumeWith, consumeWith_of_not_reads hothers]
        rfl
      · have hskip : ¬ first.Reads s := fun hreads => hfirst (honly first List.mem_cons_self hreads)
        have hmem : rule ∈ rules := (List.mem_cons.1 hrule).resolve_left fun h => hfirst h.symm
        rw [List.cons_append, consumeWith, Rule.apply_of_not_reads hskip, pure_bind]
        exact ih hnodup hmem fun r hr => honly r (List.mem_cons_of_mem first hr)

theorem consume_of_reads (hrule : rule ∈ Rule.ofBlocks) (h : rule.Reads s) :
    consume b s = proceed rule Rule.ofDeclarations b s :=
  consumeWith_of_reads (by decide) hrule (fun _ hrule' h' => Rule.reads_unique hrule' hrule h' h)
    Rule.ofDeclarations

theorem consume_of_not_reads (h : ∀ rule ∈ Rule.ofBlocks, ¬ rule.Reads s) :
    consume b s = consumeWith Rule.ofDeclarations b s :=
  consumeWith_of_not_reads h Rule.ofDeclarations

end Outline

end VbOutline
