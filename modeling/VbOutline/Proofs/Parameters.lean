import VbOutline.Grammar.Parameters
import VbOutline.Proofs.Lexemes

/-! The words of a parameter list. Blanking array marks moves nothing, so the words of a parameter are
words of the list; those of one parameter come before those of the next, with a comma between. -/

namespace VbOutline.Grammar

open Text

theorem blankPairsFrom_shows (owed : Nat) (text : List Char) : Shows (blankPairsFrom owed text) text := by
  induction text generalizing owed with
  | nil => cases owed <;> exact .nil []
  | cons c rest ih =>
      cases owed with
      | succ owed => exact .blank c (ih owed)
      | zero =>
          rw [blankPairsFrom]
          split
          · exact .blank c (ih _)
          · exact .same c (ih 0)

namespace Parameter

/-- The words of a parameter. -/
def words (p : Parameter) : List Lexeme := p.first :: p.others

/-- A parameter stands in a text: its words do, from left to right. -/
structure StandsIn (p : Parameter) (text : List Char) : Prop where
  isWord : ∀ word ∈ p.words, word.IsWord text
  ordered : p.words.Pairwise fun a b => a.stop < b.start

/-- A parameter keeps all its words. -/
theorem words_of_ofWords? {l : List Lexeme} {p : Parameter} (h : ofWords? l = some p) : p.words = l := by
  cases l with
  | nil => cases h
  | cons first others =>
      cases h
      rfl

/-- It stops where its last word does. -/
theorem stop_eq (p : Parameter) : ∃ last, p.words.getLast? = some last ∧ p.stop = last.stop := by
  refine ⟨p.others.getLastD p.first, ?_, rfl⟩
  rw [words, List.getLast?_cons, List.getLastD_eq_getLast?]

/-- The naming words are the last words of the parameter. -/
theorem named_eq (p : Parameter) :
    ∃ first others, p.named = first :: others ∧ p.nameStart = first.start ∧
      p.named.getLast? = p.words.getLast? ∧ p.named <:+ p.words := by
  obtain ⟨first, others⟩ := p
  cases others with
  | nil => exact ⟨first, [], rfl, rfl, rfl, List.suffix_refl _⟩
  | cons second others => exact ⟨second, others, rfl, rfl, by simp [words, named], List.suffix_cons _ _⟩

variable {p : Parameter} {text : List Char}

/-- Its words stand between its start and its stop. -/
theorem StandsIn.first_le (h : p.StandsIn text) : ∀ word ∈ p.words, p.first.start ≤ word.start := by
  intro word hw
  rcases List.mem_cons.1 hw with rfl | hw
  · exact Nat.le_refl _
  · have hlt := (List.pairwise_cons.1 h.ordered).1 word hw
    have := (h.isWord p.first List.mem_cons_self).start_lt_stop
    omega

theorem StandsIn.stop_le (h : p.StandsIn text) : ∀ word ∈ p.words, word.stop ≤ p.stop := by
  obtain ⟨last, hlast, hstop⟩ := stop_eq p
  rw [hstop]
  exact Lexeme.stop_le_last h.isWord h.ordered hlast

theorem StandsIn.start_lt_stop (h : p.StandsIn text) : ∀ word ∈ p.words, word.start < p.stop :=
  fun word hw => Nat.lt_of_lt_of_le (h.isWord word hw).start_lt_stop (h.stop_le word hw)

end Parameter

theorem mem_readParameters? {text : List Char} {ps : List Parameter} (h : readParameters? text = some ps) :
    ps = ((Lexeme.mk 0 (blankPairs text)).pieces (· == ',')).filterMap fun piece =>
      Parameter.ofWords? piece.words := by
  rw [readParameters?] at h
  split at h
  · exact (Option.some.inj h).symm
  · cases h

/-- Every parameter of a list stands in it: blanking pairs moves no word. -/
theorem readParameters?_stand {text : List Char} {ps : List Parameter}
    (h : readParameters? text = some ps) : ∀ p ∈ ps, p.StandsIn text := by
  intro p hp
  rw [mem_readParameters? h] at hp
  obtain ⟨piece, hpiece, hwords⟩ := List.mem_filterMap.1 hp
  have hlist : (Lexeme.mk 0 (blankPairs text)).In (blankPairs text) := ⟨[], [], by simp, rfl⟩
  refine ⟨fun word hw => ?_, ?_⟩
  · rw [Parameter.words_of_ofWords? hwords] at hw
    exact ((hlist.pieces hpiece).words hw).of_shows (blankPairsFrom_shows 0 text)
  · rw [Parameter.words_of_ofWords? hwords]
    exact Lexeme.words_pairwise piece

/-- The words of a parameter end before those of the next start. -/
theorem readParameters?_pairwise {text : List Char} {ps : List Parameter}
    (h : readParameters? text = some ps) : ps.Pairwise fun p q => p.stop < q.first.start := by
  rw [mem_readParameters? h, List.pairwise_filterMap]
  refine (Lexeme.pieces_pairwise _).imp fun {a b} hab p hp q hq => ?_
  obtain ⟨last, hlast, hstop⟩ := Parameter.stop_eq p
  have hmem : last ∈ a.words := by
    rw [← Parameter.words_of_ofWords? hp]
    exact List.mem_of_getLast? hlast
  have hfirst : q.first ∈ b.words := by
    rw [← Parameter.words_of_ofWords? hq]
    exact List.mem_cons_self
  have hle := (Lexeme.words_bounds hmem).2
  have hle' := (Lexeme.words_bounds hfirst).1
  omega

end VbOutline.Grammar
