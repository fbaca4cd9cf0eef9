import VbOutline.Proofs.Lexemes
import VbOutline.Proofs.Segments

/-! From words of a logical line back to the document. What is read of a physical line shows the line,
and a line that goes on in the next one ends in a blank where its marker was. A word of a logical line
therefore lies in one physical line, where the document has the same characters. -/

namespace VbOutline.Source

open Text

/-! ### What is read of a line -/

/-- Blanking literals only turns characters into blanks. -/
theorem blankLiteralsFrom_shows (state : Quoting) (line : List Char) :
    Shows (blankLiteralsFrom state line) line := by
  induction line generalizing state with
  | nil => cases state <;> exact .nil []
  | cons c rest ih =>
      cases state with
      | outside => exact .same c (ih _)
      | inside =>
          simp only [blankLiteralsFrom]
          split
          · exact .blank c (ih _)
          · split
            · exact .blank c (ih _)
            · exact .same c (ih _)
      | doubled => exact .blank c (ih _)

theorem dropComment_shows (line : List Char) : Shows (dropComment line) line := by
  rw [dropComment]
  split
  · exact .nil line
  · have h := Shows.of_append (line.takeWhile (· ≠ '\'')) (line.dropWhile (· ≠ '\''))
    rwa [List.takeWhile_append_dropWhile] at h

/-- The code of a line shows through from the line itself. -/
theorem code_shows (line : List Char) : Shows (code line) line :=
  (dropComment_shows _).trans (blankLiteralsFrom_shows .outside line)

/-- The marker is the last character of a continued line that is not blank. -/
theorem exists_of_isContinued {line : List Char} (h : isContinued line = true) :
    ∃ front tail, line = front ++ '_' :: tail ∧ (∀ c ∈ tail, isBlank c = true) ∧
      blankMarker line = front ++ ' ' :: tail := by
  obtain ⟨tail, hline, htail⟩ := exists_trimEnd_append line
  have hlast : (trimEnd line).getLast? = some '_' := by
    simp only [isContinued, Bool.and_eq_true, beq_iff_eq] at h
    exact h.1
  obtain ⟨front, hfront⟩ := List.getLast?_eq_some_iff.1 hlast
  refine ⟨front, tail, by rw [hline, hfront]; simp, htail, ?_⟩
  have hdrop : line.drop (trimEnd line).length = tail := by
    have hcut := congrArg (List.drop (trimEnd line).length) hline
    rwa [List.drop_left] at hcut
  simp only [blankMarker, h, if_true]
  rw [hdrop, hfront, List.dropLast_concat]

theorem blankMarker_shows (line : List Char) : Shows (blankMarker line) line := by
  by_cases h : isContinued line = true
  · obtain ⟨front, tail, hline, -, hmarker⟩ := exists_of_isContinued h
    rw [hmarker, hline]
    exact .append_same front (.blank '_' (.refl tail))
  · simpa [blankMarker, h] using Shows.refl line

/-- Where a line is continued, its marker leaves a blank at the end. -/
theorem blankMarker_endsBlank {line : List Char} (h : isContinued line = true) :
    EndsBlank (blankMarker line) := by
  obtain ⟨front, tail, -, htail, hmarker⟩ := exists_of_isContinued h
  rw [hmarker, EndsBlank, List.getLast?_append, List.getLast?_cons]
  refine ⟨tail.getLast?.getD ' ', by simp, ?_⟩
  cases hlast : tail.getLast? with
  | none => exact isBlank_space
  | some c => exact htail c (List.mem_of_getLast? hlast)

namespace Piece

theorem ofLine_shows (number : Nat) (line : List Char) : Shows (ofLine number line).text line :=
  (blankMarker_shows _).trans (code_shows line)

theorem ofLine_endsBlank {number : Nat} {line : List Char} (h : (ofLine number line).continued = true) :
    EndsBlank (ofLine number line).text :=
  blankMarker_endsBlank h

/-! ### Pieces of a document -/

/-- A piece is made from the physical line with its number. -/
theorem mem_ofText {text : List Char} {piece : Piece} (h : piece ∈ ofText text) :
    ∃ line, (physicalLines text)[piece.number]? = some line ∧ piece = ofLine piece.number line := by
  obtain ⟨⟨line, number⟩, hmem, rfl⟩ := List.mem_map.1 h
  exact ⟨line, List.mem_zipIdx_iff_getElem?.1 hmem, rfl⟩

/-- The numbers of the pieces increase. -/
theorem ofText_pairwise (text : List Char) : (ofText text).Pairwise fun a b => a.number < b.number := by
  have hnumbers : (ofText text).map number = List.range' 0 (physicalLines text).length := by
    rw [ofText, List.map_map, ← List.zipIdx_map_snd 0 (physicalLines text)]
    rfl
  have hrange : ((ofText text).map number).Pairwise (· < ·) := by
    rw [hnumbers]
    exact List.pairwise_lt_range'
  exact List.pairwise_map.1 hrange

/-- Pieces that are read as one: all but the last are continued. -/
inductive Joined : List Piece → Prop
  | last (piece : Piece) : Joined [piece]
  | cons {piece : Piece} {rest : List Piece} (hp : piece.continued = true) (h : Joined rest) :
      Joined (piece :: rest)

theorem Joined.ne_nil {pieces : List Piece} (h : Joined pieces) : pieces ≠ [] := by
  cases h <;> simp

/-- Grouping loses no piece and keeps their order. -/
theorem group_flatten (pieces : List Piece) : (group pieces).flatten = pieces := by
  induction pieces with
  | nil => rfl
  | cons piece rest ih =>
      rw [group]
      split
      · next hg =>
          rw [hg] at ih
          simp [← ih]
      · next hg =>
          rw [hg] at ih
          split <;> simp [← ih]

theorem group_joined (pieces : List Piece) : ∀ g ∈ group pieces, Joined g := by
  induction pieces with
  | nil => simp [group]
  | cons piece rest ih =>
      rw [group]
      split
      · intro g hg
        rw [List.mem_singleton.1 hg]
        exact .last piece
      · next first groups hg =>
          rw [hg] at ih
          split
          · next hc =>
              intro g hmem
              rcases List.mem_cons.1 hmem with rfl | hmem
              · exact .cons hc (ih first List.mem_cons_self)
              · exact ih g (List.mem_cons_of_mem first hmem)
          · intro g hmem
            rcases List.mem_cons.1 hmem with rfl | hmem
            · exact .last piece
            · exact ih g hmem

/-! ### Segments of joined pieces -/

theorem segmentsFrom_ne_nil {pieces : List Piece} (h : pieces ≠ []) (offset : Nat) :
    segmentsFrom offset pieces ≠ [] := by
  cases pieces with
  | nil => exact absurd rfl h
  | cons piece rest => simp [segmentsFrom]

/-- The segments of a group are as long together as its joined text. -/
theorem total_segmentsFrom (offset : Nat) (pieces : List Piece) :
    Segment.total (segmentsFrom offset pieces) = (pieces.flatMap Piece.text).length := by
  induction pieces generalizing offset with
  | nil => rfl
  | cons piece rest ih =>
      rw [segmentsFrom, Segment.total, ih, List.flatMap_cons, List.length_append]
      simp

theorem lines_segmentsFrom (offset : Nat) (pieces : List Piece) :
    (segmentsFrom offset pieces).map Segment.line = pieces.map fun piece => (piece.number : Int) := by
  induction pieces generalizing offset with
  | nil => rfl
  | cons piece rest ih => rw [segmentsFrom, List.map_cons, ih, List.map_cons]

theorem segmentsFrom_ordered {pieces : List Piece} (h : pieces.Pairwise fun a b => a.number < b.number)
    (offset : Nat) : Segment.Ordered (segmentsFrom offset pieces) := by
  constructor
  · clear h
    induction pieces generalizing offset with
    | nil => simp [segmentsFrom]
    | cons piece rest ih =>
        intro segment hs
        rw [segmentsFrom] at hs
        rcases List.mem_cons.1 hs with rfl | hs
        · exact Int.natCast_nonneg _
        · exact ih _ segment hs
  · have hlines : ((segmentsFrom offset pieces).map Segment.line).Pairwise (· < ·) := by
      rw [lines_segmentsFrom, List.pairwise_map]
      exact h.imp fun hab => Int.ofNat_lt.2 hab
    exact List.pairwise_map.1 hlines

/-- A word of joined pieces lies in one of them, and its characters have consecutive positions there. -/
theorem Joined.locate_word {pieces : List Piece} (hj : Joined pieces)
    (hblank : ∀ piece ∈ pieces, piece.continued = true → EndsBlank piece.text)
    {l : Lexeme} (hw : l.IsWord (pieces.flatMap Piece.text)) (offset : Nat) :
    ∃ piece ∈ pieces, ∃ column : Nat, (Lexeme.mk column l.text).In piece.text ∧
      ∀ i : Nat, i < l.text.length →
        Segment.locate (segmentsFrom offset pieces) (l.start + i : Nat) =
          some ⟨piece.number, (column + i : Nat)⟩ := by
  induction hj generalizing l offset with
  | last piece =>
      have hin : l.In piece.text := by simpa using hw.within
      refine ⟨piece, List.mem_singleton_self piece, l.start, hin, fun i hi => ?_⟩
      have hstop := hin.stop_le
      rw [Lexeme.stop] at hstop
      simp only [segmentsFrom, Segment.locate]
      rw [if_pos (by omega)]
      simp
  | @cons piece rest hp hrest ih =>
      have hne : segmentsFrom (offset + piece.text.length) rest ≠ [] :=
        segmentsFrom_ne_nil hrest.ne_nil _
      rw [List.flatMap_cons] at hw
      rcases hw.of_append (hblank piece List.mem_cons_self hp) with hw | ⟨start, hstart, hw⟩
      · refine ⟨piece, List.mem_cons_self, l.start, hw.within, fun i hi => ?_⟩
        have hstop := hw.within.stop_le
        rw [Lexeme.stop] at hstop
        rw [segmentsFrom, Segment.locate_cons hne, if_pos (by dsimp only; omega)]
        simp
      · obtain ⟨found, hmem, column, hin, hloc⟩ :=
          ih (fun p h => hblank p (List.mem_cons_of_mem piece h)) hw (offset + piece.text.length)
        refine ⟨found, List.mem_cons_of_mem piece hmem, column, hin, fun i hi => ?_⟩
        rw [segmentsFrom, Segment.locate_cons hne, if_neg (by dsimp only; omega), ← hloc i hi]
        congr 1
        dsimp only
        omega

end Piece

end VbOutline.Source
