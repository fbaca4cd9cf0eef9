import VbOutline.Proofs.Unread

/-! Which characters of a line are blanked. Counting the quotes before a place tells whether the scan is
inside of a literal there, balanced or not: an odd number means inside if a quote follows, and two quotes
side by side are a doubled quote if a third one follows. Main statement: the scan blanks exactly the
characters that the count says, and scanning a second time changes nothing. -/

namespace VbOutline.Source

open Text

namespace Quoting

/-- The state between the two parts of a line, told by the quotes in them. -/
def between (front rest : List Char) : Quoting :=
  if front.count '"' % 2 = 1 then if '"' ∈ rest then inside else outside
  else if front.getLast? = some '"' ∧ rest.head? = some '"' ∧ '"' ∈ rest.tail then doubled
  else outside

theorem between_nil (rest : List Char) : between [] rest = outside := rfl

/-- The scan takes the state before a character to the state behind it. -/
theorem next_between (front rest : List Char) (c : Char) :
    (between front (c :: rest)).next c rest = between (front ++ [c]) rest := by
  by_cases hc : c = '"'
  · subst hc
    by_cases hodd : front.count '"' % 2 = 1
    · have heven : ¬ (front.count '"' + 1) % 2 = 1 := by omega
      simp [between, next, hodd, heven]
    · have hodd' : (front.count '"' + 1) % 2 = 1 := by omega
      by_cases hrest : '"' ∈ rest
      · by_cases hlast : front.getLast? = some '"' <;> simp [between, next, hodd, hodd', hrest, hlast]
      · simp [between, next, hodd, hodd', hrest]
  · by_cases hodd : front.count '"' % 2 = 1
    · by_cases hrest : '"' ∈ rest <;> simp [between, next, hodd, hc, Ne.symm hc, hrest]
    · simp [between, next, hodd, hc]

/-- A literal is open between two parts: it goes on in the second, or a doubled quote stands across the cut. -/
theorem between_ne_outside_iff {front rest : List Char} :
    between front rest ≠ outside ↔
      front.count '"' % 2 = 1 ∧ '"' ∈ rest ∨
        front.count '"' % 2 = 0 ∧ front.getLast? = some '"' ∧ rest.head? = some '"' ∧ '"' ∈ rest.tail := by
  by_cases hodd : front.count '"' % 2 = 1
  · have heven : ¬ front.count '"' % 2 = 0 := by omega
    by_cases hrest : '"' ∈ rest <;> simp [between, hodd, hrest]
  · have heven : front.count '"' % 2 = 0 := by omega
    by_cases hpair : front.getLast? = some '"' ∧ rest.head? = some '"' ∧ '"' ∈ rest.tail <;>
      simp [between, heven, hpair]

end Quoting

/-! ### The character at a place -/

/-- Whether the character at a place is blanked, told by the number of quotes before it. A quote is blanked as
the first or as the second half of a doubled quote. -/
def Blanked (row : List Char) (i : Nat) : Prop :=
  (row[i]? ≠ some '"' ∧ (row.take i).count '"' % 2 = 1 ∧ '"' ∈ row.drop (i + 1)) ∨
    (row[i]? = some '"' ∧ (row.take i).count '"' % 2 = 1 ∧ row[i + 1]? = some '"' ∧ '"' ∈ row.drop (i + 2)) ∨
    (row[i]? = some '"' ∧ (row.take i).count '"' % 2 = 0 ∧ (0 < i ∧ row[i - 1]? = some '"') ∧
      '"' ∈ row.drop (i + 1))

instance (row : List Char) (i : Nat) : Decidable (Blanked row i) :=
  inferInstanceAs (Decidable (_ ∨ _ ∨ _))

theorem length_blankLiteralsFrom (state : Quoting) (row : List Char) :
    (blankLiteralsFrom state row).length = row.length := by
  induction row generalizing state with
  | nil => cases state <;> rfl
  | cons c rest ih => rw [blankLiteralsFrom_cons, List.length_cons, ih, List.length_cons]

/-- A character is blanked if a literal is open on both of its sides. -/
theorem blankLiteralsFrom_between (front rest : List Char) (i : Nat) :
    (blankLiteralsFrom (.between front rest) rest)[i]? = rest[i]?.map fun c =>
      if Quoting.between (front ++ rest.take i) (rest.drop i) = .outside ∨
          Quoting.between (front ++ rest.take (i + 1)) (rest.drop (i + 1)) = .outside then c
      else ' ' := by
  induction rest generalizing front i with
  | nil => cases h : Quoting.between front [] <;> simp [blankLiteralsFrom]
  | cons c rest ih =>
      rw [blankLiteralsFrom_cons, Quoting.next_between]
      cases i with
      | zero => simp
      | succ i =>
          have hrest := ih (front ++ [c]) i
          rw [List.append_assoc, List.append_assoc] at hrest
          exact hrest

theorem blanked_iff {row : List Char} {i : Nat} {c : Char} (hc : row[i]? = some c) :
    Blanked row i ↔ Quoting.between (row.take i) (row.drop i) ≠ .outside ∧
      Quoting.between (row.take (i + 1)) (row.drop (i + 1)) ≠ .outside := by
  have htake : row.take (i + 1) = row.take i ++ [c] := by
    rw [List.take_add_one, hc]
    rfl
  have hdrop : row.drop i = c :: row.drop (i + 1) := by
    obtain ⟨hlt, rfl⟩ := List.getElem?_eq_some_iff.1 hc
    exact List.drop_eq_getElem_cons hlt
  have hnext : (row.drop (i + 1)).head? = row[i + 1]? := List.head?_drop
  have hback : (row.drop (i + 1)).tail = row.drop (i + 2) := List.tail_drop
  have hprevious : (row.take i).getLast? = some '"' ↔ 0 < i ∧ row[i - 1]? = some '"' := by
    have hlt := (List.getElem?_eq_some_iff.1 hc).1
    rw [List.getLast?_take]
    by_cases hi : i = 0
    · simp [hi]
    · simp [hi, List.getElem?_eq_getElem (show i - 1 < row.length by omega)]
      omega
  rw [Quoting.between_ne_outside_iff, Quoting.between_ne_outside_iff, htake, hdrop, hprevious, hnext, hback]
  by_cases hquote : c = '"'
  · subst hquote
    by_cases hodd : (row.take i).count '"' % 2 = 1
    · have heven : (row.take i).count '"' % 2 ≠ 0 := by omega
      have heven' : ((row.take i).count '"' + 1) % 2 = 0 := by omega
      simp [Blanked, hc, hodd, heven']
    · have heven : (row.take i).count '"' % 2 = 0 := by omega
      have hodd' : ((row.take i).count '"' + 1) % 2 = 1 := by omega
      simp [Blanked, hc, heven, hodd']
  · simp [Blanked, hc, hquote, Ne.symm hquote]

/-! ### Scanning a second time -/

theorem mem_of_mem_blankLiteralsFrom {state : Quoting} {row : List Char}
    (h : '"' ∈ blankLiteralsFrom state row) : '"' ∈ row := by
  obtain ⟨i, hi⟩ := List.mem_iff_getElem?.1 h
  exact List.mem_of_getElem? ((blankLiteralsFrom_shows state row).getElem?_eq hi (by decide))

/-- A line with a quote keeps one: an unpaired quote, or the one that closes the literal. -/
theorem mem_blankLiteralsFrom {state : Quoting} {row : List Char} (h : '"' ∈ row)
    (hdoubled : state ≠ .doubled ∨ '"' ∈ row.tail) : '"' ∈ blankLiteralsFrom state row := by
  induction row generalizing state with
  | nil => cases h
  | cons c rest ih =>
      have hrest : c ≠ '"' → '"' ∈ rest := fun hc => (List.mem_cons.1 h).resolve_left hc.symm
      cases state with
      | outside =>
          by_cases hc : c = '"'
          · simp [blankLiteralsFrom, hc]
          · have hkept : '"' ∈ blankLiteralsFrom .outside rest := ih (hrest hc) (.inl (by decide))
            simp [blankLiteralsFrom, hc, hkept]
      | inside =>
          by_cases hc : c = '"'
          · by_cases hpair : rest.head? = some '"' ∧ '"' ∈ rest.tail
            · have hkept : '"' ∈ blankLiteralsFrom .doubled rest :=
                ih (List.mem_of_mem_tail hpair.2) (.inr hpair.2)
              simp [blankLiteralsFrom, hc, hpair, hkept]
            · simp [blankLiteralsFrom, hc, hpair]
          · have hkept : '"' ∈ blankLiteralsFrom .inside rest := ih (hrest hc) (.inl (by decide))
            simp [blankLiteralsFrom, hc, hkept]
      | doubled =>
          have hclosed : '"' ∈ rest := hdoubled.resolve_left fun hstate => hstate rfl
          have hkept : '"' ∈ blankLiteralsFrom .inside rest := ih hclosed (.inl (by decide))
          simp [blankLiteralsFrom, hkept]

/-- A quote that closes a literal closes it again. -/
theorem not_doubled_blankLiteralsFrom {rest : List Char} (h : ¬ (rest.head? = some '"' ∧ '"' ∈ rest.tail)) :
    ¬ ((blankLiteralsFrom .outside rest).head? = some '"' ∧ '"' ∈ (blankLiteralsFrom .outside rest).tail) := by
  cases rest with
  | nil => simp [blankLiteralsFrom]
  | cons c rest =>
      rintro ⟨hhead, htail⟩
      exact h ⟨hhead, mem_of_mem_blankLiteralsFrom htail⟩

/-- The state in which the scan meets its own output again: both halves of a doubled quote are spaces by then. -/
def Quoting.again : Quoting → Quoting
  | .outside => .outside
  | .inside | .doubled => .inside

theorem blankLiteralsFrom_again (state : Quoting) (row : List Char) :
    blankLiteralsFrom state.again (blankLiteralsFrom state row) = blankLiteralsFrom state row := by
  induction row generalizing state with
  | nil => cases state <;> rfl
  | cons c rest ih =>
      have houtside : blankLiteralsFrom .outside (blankLiteralsFrom .outside rest) = _ := ih .outside
      have hinside : blankLiteralsFrom .inside (blankLiteralsFrom .inside rest) = _ := ih .inside
      have hdoubled : blankLiteralsFrom .inside (blankLiteralsFrom .doubled rest) = _ := ih .doubled
      cases state with
      | outside =>
          by_cases hopens : c = '"' ∧ '"' ∈ rest
          · have hkept : '"' ∈ blankLiteralsFrom .inside rest := mem_blankLiteralsFrom hopens.2 (.inl (by decide))
            simp [blankLiteralsFrom, Quoting.again, hopens, hkept, hinside]
          · have hkept : ¬ (c = '"' ∧ '"' ∈ blankLiteralsFrom .outside rest) := fun h =>
              hopens ⟨h.1, mem_of_mem_blankLiteralsFrom h.2⟩
            simp [blankLiteralsFrom, Quoting.again, hopens, hkept, houtside]
      | inside =>
          by_cases hc : c = '"'
          · by_cases hpair : rest.head? = some '"' ∧ '"' ∈ rest.tail
            · simp [blankLiteralsFrom, Quoting.again, hc, hpair, hdoubled]
            · have hkept := not_doubled_blankLiteralsFrom hpair
              simp [blankLiteralsFrom, Quoting.again, hc, hpair, hkept, houtside]
          · simp [blankLiteralsFrom, Quoting.again, hc, hinside]
      | doubled => simp [blankLiteralsFrom, Quoting.again, hinside]

/-- Blanking string literals is told by the parity of the quotes, on every line, and needs to be done once. -/
theorem blankLiterals_by_parity (row : List Char) :
    (blankLiterals row).length = row.length ∧
      (∀ i, (blankLiterals row)[i]? = row[i]?.map fun c => if Blanked row i then ' ' else c) ∧
      blankLiterals (blankLiterals row) = blankLiterals row := by
  have hplaces : ∀ i, (blankLiterals row)[i]? = row[i]?.map fun c => if Blanked row i then ' ' else c := by
    intro i
    have hscan := blankLiteralsFrom_between [] row i
    rw [Quoting.between_nil, List.nil_append, List.nil_append] at hscan
    rw [blankLiterals, hscan]
    cases hc : row[i]? with
    | none => rfl
    | some c =>
        simp only [Option.map_some, blanked_iff hc, ← not_or, ite_not]
  exact ⟨length_blankLiteralsFrom .outside row, hplaces, blankLiteralsFrom_again .outside row⟩

example : blankLiterals "x = \"a\"\"b\" & \"c".toList = "x = \"    \" & \"c".toList := by
  decide +kernel

end VbOutline.Source
