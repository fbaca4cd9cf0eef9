import VbOutline.Source.Line

/-! String literals as a pattern: a quote, characters that are no quotes and doubled quotes in any number, and a
quote. A matcher that reads as much as it can, and goes back where no quote follows, comes to the ways of reading the
inside in the order of `attempts`; its literal is the longest of all (`literal?_eq_some`). Literals are looked for
from left to right, each behind the one before. Scanning a line character by character, with a look ahead at each
quote, masks the same literals (`masked_iff`). -/

namespace VbOutline.Source

/-! ### The pattern -/

/-- What can be left of a text behind characters that are no quotes and doubled quotes. -/
inductive Inside : List Char → List Char → Prop
  | stop (text : List Char) : Inside text text
  | plain {c : Char} {text rest : List Char} (hc : c ≠ '"') (h : Inside text rest) : Inside (c :: text) rest
  | pair {text rest : List Char} (h : Inside text rest) : Inside ('"' :: '"' :: text) rest

/-- A text starts with a literal, and the rest is left behind it. -/
def LiteralAt (text rest : List Char) : Prop := ∃ inner, text = '"' :: inner ∧ Inside inner ('"' :: rest)

/-- All that can be left behind the inside of a literal, in the order in which a greedy matcher comes to it: it reads
on as long as it can, and then gives up what it has read last. -/
def attempts : List Char → List (List Char)
  | [] => [[]]
  | '"' :: '"' :: text => attempts text ++ ['"' :: '"' :: text]
  | '"' :: text => ['"' :: text]
  | c :: text => attempts text ++ [c :: text]

/-- What is left behind a quote. -/
def quote? : List Char → Option (List Char)
  | '"' :: rest => some rest
  | _ => none

/-- What a greedy matcher leaves behind a literal: a quote is read, and the first attempt at the inside that a quote
follows decides. -/
def literal? (text : List Char) : Option (List Char) :=
  (quote? text).bind fun inner => (attempts inner).findSome? quote?

/-- A line with the insides of its literals blanked: where a literal starts, the next one is looked for behind it, and
else at the next character. -/
inductive Masked : List Char → List Char → Prop
  | nil : Masked [] []
  | literal {line rest masked : List Char} (h : literal? line = some rest) (hrest : Masked rest masked) :
      Masked line ('"' :: (List.replicate (line.length - rest.length - 2) ' ' ++ '"' :: masked))
  | other {c : Char} {line masked : List Char} (h : literal? (c :: line) = none) (hrest : Masked line masked) :
      Masked (c :: line) (c :: masked)

/-! ### The order of attempts -/

theorem quote?_eq_some {text rest : List Char} : quote? text = some rest ↔ text = '"' :: rest := by
  rw [quote?.eq_def]
  split <;> simp_all

theorem self_mem_attempts (text : List Char) : text ∈ attempts text := by
  fun_cases attempts text with
  | case1 => exact List.mem_singleton_self _
  | case2 => exact List.mem_append_right _ (List.mem_singleton_self _)
  | case3 => exact List.mem_singleton_self _
  | case4 => exact List.mem_append_right _ (List.mem_singleton_self _)

theorem attempts_cons {c : Char} (hc : c ≠ '"') (text : List Char) :
    attempts (c :: text) = attempts text ++ [c :: text] := by
  rw [attempts.eq_4]
  · rintro _ rfl
    contradiction
  · rintro rfl
    contradiction

/-- The attempts are all ways to read the inside of a literal. -/
theorem mem_attempts {text rest : List Char} : rest ∈ attempts text ↔ Inside text rest := by
  constructor
  · intro h
    fun_induction attempts text with
    | case1 =>
        cases List.mem_singleton.1 h
        exact .stop _
    | case2 text ih =>
        rcases List.mem_append.1 h with h | h
        · exact .pair (ih h)
        · cases List.mem_singleton.1 h
          exact .stop _
    | case3 text hsingle =>
        cases List.mem_singleton.1 h
        exact .stop _
    | case4 c text hpair hquote ih =>
        rcases List.mem_append.1 h with h | h
        · exact .plain hquote (ih h)
        · cases List.mem_singleton.1 h
          exact .stop _
  · intro h
    induction h with
    | stop text => exact self_mem_attempts text
    | plain hc _ ih =>
        rw [attempts_cons hc]
        exact List.mem_append_left _ ih
    | pair _ ih => exact List.mem_append_left _ ih

theorem Inside.suffix {text rest : List Char} (h : Inside text rest) : rest <:+ text := by
  induction h with
  | stop text => exact List.suffix_rfl
  | plain _ _ ih => exact ih.trans (List.suffix_cons _ _)
  | pair _ ih => exact ih.trans ((List.suffix_cons _ _).trans (List.suffix_cons _ _))

/-- An attempt that leaves more than the whole of a text can stand behind the attempts at it. -/
theorem attempts_concat_pairwise {text next : List Char} (hlt : text.length < next.length)
    (h : (attempts text).Pairwise fun a b => a.length < b.length) :
    (attempts text ++ [next]).Pairwise fun a b => a.length < b.length := by
  refine List.pairwise_append.2 ⟨h, List.pairwise_singleton _ _, fun a ha b hb => ?_⟩
  rw [List.mem_singleton.1 hb]
  exact Nat.lt_of_le_of_lt (mem_attempts.1 ha).suffix.length_le hlt

/-- Of two attempts, the one that reads more comes first. -/
theorem attempts_pairwise (text : List Char) : (attempts text).Pairwise fun a b => a.length < b.length := by
  fun_induction attempts text with
  | case1 => exact List.pairwise_singleton _ _
  | case2 text ih => exact attempts_concat_pairwise (Nat.lt_add_of_pos_right Nat.two_pos) ih
  | case3 => exact List.pairwise_singleton _ _
  | case4 c text _ _ ih => exact attempts_concat_pairwise (Nat.lt_succ_self _) ih

/-- A greedy matcher finds a literal, and none that starts there is longer. -/
theorem longest_of_literal? {text rest : List Char} (h : literal? text = some rest) :
    LiteralAt text rest ∧ ∀ other, LiteralAt text other → rest.length ≤ other.length := by
  obtain ⟨inner, hquote, hfind⟩ := Option.bind_eq_some_iff.1 h
  obtain ⟨front, attempt, back, hattempts, hrest, hfront⟩ := List.findSome?_eq_some_iff.1 hfind
  obtain rfl := quote?_eq_some.1 hquote
  obtain rfl := quote?_eq_some.1 hrest
  have hmem : '"' :: rest ∈ attempts inner := by
    rw [hattempts]
    exact List.mem_append_right _ List.mem_cons_self
  refine ⟨⟨inner, rfl, mem_attempts.1 hmem⟩, ?_⟩
  rintro other ⟨_, heq, hother⟩
  obtain rfl := (List.cons.inj heq).2
  have hordered := attempts_pairwise inner
  have hlisted := mem_attempts.2 hother
  rw [hattempts] at hordered hlisted
  rcases List.mem_append.1 hlisted with hlisted | hlisted
  · -- no attempt before the one that was taken ends at a quote
    have hnone := hfront _ hlisted
    rw [quote?_eq_some.2 rfl] at hnone
    cases hnone
  · rcases List.mem_cons.1 hlisted with heq | hlisted
    · cases heq
      exact Nat.le_refl _
    · have hlt := (List.pairwise_cons.1 (List.pairwise_append.1 hordered).2.1).1 _ hlisted
      exact Nat.le_of_lt (Nat.lt_of_succ_lt_succ hlt)

/-- The literal that a greedy matcher finds is the longest that starts there. -/
theorem literal?_eq_some {text rest : List Char} :
    literal? text = some rest ↔ LiteralAt text rest ∧ ∀ other, LiteralAt text other → rest.length ≤ other.length := by
  refine ⟨longest_of_literal?, ?_⟩
  rintro ⟨⟨inner, rfl, hinside⟩, hlongest⟩
  have hsome : (literal? ('"' :: inner)).isSome := by
    rw [literal?, quote?_eq_some.2 rfl, Option.bind_some, List.findSome?_isSome_iff]
    exact ⟨_, mem_attempts.2 hinside, by rw [quote?_eq_some.2 rfl]; rfl⟩
  obtain ⟨found, hliteral⟩ := Option.isSome_iff_exists.1 hsome
  obtain ⟨⟨_, heq, hinside'⟩, hlongest'⟩ := longest_of_literal? hliteral
  obtain rfl := (List.cons.inj heq).2
  -- both end the same text, at the same distance from its end
  have hle := hlongest found ⟨inner, rfl, hinside'⟩
  have hle' := hlongest' rest ⟨inner, rfl, hinside⟩
  have hsuffix := List.suffix_of_suffix_length_le hinside'.suffix hinside.suffix (Nat.succ_le_succ hle')
  have hsame := hsuffix.eq_of_length (congrArg (· + 1) (Nat.le_antisymm hle' hle))
  rw [hliteral, (List.cons.inj hsame).2]

/-! ### The scan follows the pattern -/

theorem findSome?_attempts_eq_none {text : List Char} (h : '"' ∉ text) : (attempts text).findSome? quote? = none := by
  rw [List.findSome?_eq_none_iff]
  intro attempt hmem
  cases hquote : quote? attempt with
  | none => rfl
  | some rest =>
      obtain rfl := quote?_eq_some.1 hquote
      exact absurd ((mem_attempts.1 hmem).suffix.subset List.mem_cons_self) h

/-- Inside of a literal that some quote closes, the scan blanks what the matcher reads, and goes on behind it. -/
theorem exists_blankLiteralsFrom_inside {text : List Char} (h : '"' ∈ text) :
    ∃ rest, (attempts text).findSome? quote? = some rest ∧ rest.length < text.length ∧
      blankLiteralsFrom .inside text =
        List.replicate (text.length - rest.length - 1) ' ' ++ '"' :: blankLiteralsFrom .outside rest := by
  fun_induction attempts text with
  | case1 => cases h
  | case2 text ih =>
      by_cases hmem : '"' ∈ text
      · obtain ⟨rest, hfind, hlt, hblank⟩ := ih hmem
        have hlength : ('"' :: '"' :: text).length - rest.length - 1 = text.length - rest.length - 1 + 1 + 1 := by
          simp only [List.length_cons]
          omega
        refine ⟨rest, ?_, Nat.lt_add_right 2 hlt, ?_⟩
        · rw [List.findSome?_append, hfind]
          rfl
        · rw [hlength, List.replicate_succ, List.replicate_succ]
          simp [blankLiteralsFrom, hmem, hblank]
      · -- nothing closes the literal behind the two quotes, so the first of them does
        refine ⟨'"' :: text, ?_, Nat.lt_succ_self _, ?_⟩
        · rw [List.findSome?_append, findSome?_attempts_eq_none hmem]
          rfl
        · simp [blankLiteralsFrom, hmem]
  | case3 text hsingle =>
      have hhead : text.head? ≠ some '"' := by
        cases text with
        | nil => nofun
        | cons c text => exact fun heq => hsingle text (by rw [Option.some.inj heq])
      refine ⟨text, rfl, Nat.lt_succ_self _, ?_⟩
      simp [blankLiteralsFrom, hhead]
  | case4 c text _ hquote ih =>
      have hc : c ≠ '"' := hquote
      obtain ⟨rest, hfind, hlt, hblank⟩ := ih ((List.mem_cons.1 h).resolve_left hc.symm)
      have hlength : (c :: text).length - rest.length - 1 = text.length - rest.length - 1 + 1 := by
        simp only [List.length_cons]
        omega
      refine ⟨rest, ?_, Nat.lt_succ_of_lt hlt, ?_⟩
      · rw [List.findSome?_append, hfind]
        rfl
      · rw [hlength, List.replicate_succ]
        simp [blankLiteralsFrom, hc, hblank]

theorem masked_blankLiterals (line : List Char) : Masked line (blankLiterals line) := by
  -- a literal is passed over as a whole, so the induction is on the length
  induction hlength : line.length using Nat.strongRecOn generalizing line with
  | ind n ih =>
      subst hlength
      cases line with
      | nil => exact .nil
      | cons c text =>
          rw [blankLiterals, blankLiteralsFrom]
          by_cases hopens : c = '"' ∧ '"' ∈ text
          · rw [if_pos hopens]
            obtain ⟨rfl, hmem⟩ := hopens
            obtain ⟨rest, hfind, hlt, hblank⟩ := exists_blankLiteralsFrom_inside hmem
            have hlength : text.length - rest.length - 1 = ('"' :: text).length - rest.length - 2 := by
              rw [List.length_cons]
              omega
            rw [hblank, hlength]
            exact .literal hfind (ih _ (Nat.lt_succ_of_lt hlt) rest rfl)
          · rw [if_neg hopens]
            refine .other ?_ (ih _ (Nat.lt_succ_self _) text rfl)
            cases hquote : quote? (c :: text) with
            | none => rw [literal?, hquote, Option.bind_none]
            | some inner =>
                obtain ⟨rfl, rfl⟩ := List.cons.inj (quote?_eq_some.1 hquote)
                rw [literal?, hquote, Option.bind_some, findSome?_attempts_eq_none fun hmem => hopens ⟨rfl, hmem⟩]

theorem Masked.unique {line masked other : List Char} (h : Masked line masked) (h' : Masked line other) :
    masked = other := by
  induction h generalizing other with
  | nil =>
      cases h' with
      | nil => rfl
      | literal hfind => cases hfind
  | literal hfind _ ih =>
      cases h' with
      | nil => cases hfind
      | literal hfind' hrest' =>
          cases hfind.symm.trans hfind'
          rw [ih hrest']
      | other hnone =>
          rw [hnone] at hfind
          cases hfind
  | other hnone _ ih =>
      cases h' with
      | literal hfind' =>
          rw [hnone] at hfind'
          cases hfind'
      | other _ hrest' => rw [ih hrest']

/-- The scan of a line masks what the pattern finds in it, and nothing else. -/
theorem masked_iff {line masked : List Char} : Masked line masked ↔ masked = blankLiterals line := by
  constructor
  · exact fun h => h.unique (masked_blankLiterals line)
  · rintro rfl
    exact masked_blankLiterals line

end VbOutline.Source
