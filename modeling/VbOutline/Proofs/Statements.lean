import VbOutline.Outline.Parse
import VbOutline.Proofs.Lines

/-! The statements of a document. Each lies in the segments of its line, each of its words stands in a
physical line of the document, and the statements follow each other: one ends before the next
begins, with a colon or the end of a line between them. -/

namespace VbOutline.Source

open Text

namespace Statement

variable {s : Statement}

/-- Behind the margin stands the body. -/
theorem text_getElem? (s : Statement) (i : Nat) : s.text[s.margin + i]? = s.body[i]? := by
  rw [text, List.getElem?_append_right (by simp)]
  simp

/-- A character that is not blank belongs to the body. -/
theorem exists_of_not_blank {k : Nat} {c : Char} (hc : s.text[k]? = some c)
    (hblank : Text.isBlank c = false) : ∃ i, k = s.margin + i ∧ s.body[i]? = some c := by
  rcases Nat.lt_or_ge k s.margin with h | h
  · rw [text, List.getElem?_append_left (by simpa using h), List.getElem?_replicate, if_pos h] at hc
    rw [← Option.some.inj hc, isBlank_space] at hblank
    cases hblank
  · refine ⟨k - s.margin, by omega, ?_⟩
    rw [← text_getElem?, show s.margin + (k - s.margin) = k by omega, hc]

/-- Every character that is not blank stands at or behind the first one. -/
theorem begins_le {k : Nat} {c : Char} (hc : s.text[k]? = some c) (hblank : Text.isBlank c = false) :
    s.begins ≤ k := by
  obtain ⟨i, rfl, hi⟩ := exists_of_not_blank hc hblank
  have := indent_le hi hblank
  rw [begins]
  omega

/-- Every character that is not blank stands before the end. -/
theorem lt_ends {k : Nat} {c : Char} (hc : s.text[k]? = some c) (hblank : Text.isBlank c = false) :
    k < s.ends := by
  obtain ⟨i, rfl, hi⟩ := exists_of_not_blank hc hblank
  have := lt_length_trimEnd hi hblank
  rw [ends]
  omega

theorem ends_le (s : Statement) : s.ends ≤ s.margin + s.body.length := by
  obtain ⟨tail, hbody, -⟩ := exists_trimEnd_append s.body
  have hlen := congrArg List.length hbody
  rw [List.length_append] at hlen
  rw [ends]
  omega

theorem ends_le_length (s : Statement) : s.ends ≤ s.text.length := by
  have := s.ends_le
  simpa [text] using this

theorem begins_lt_ends (h : s.isBlank = false) : s.begins < s.ends := by
  rw [Statement.isBlank, allBlank, List.all_eq_false] at h
  obtain ⟨c, hmem, hc⟩ := h
  obtain ⟨i, hi, hci⟩ := List.getElem_of_mem hmem
  have hget : s.text[s.margin + i]? = some c := by
    rw [text_getElem?, List.getElem?_eq_getElem hi, hci]
  have hblank : Text.isBlank c = false := by simpa using hc
  exact (begins_le hget hblank).trans_lt (lt_ends hget hblank)

/-- A word stands between the first and the last character that is not blank. -/
theorem begins_le_word {l : Lexeme} (h : l.IsWord s.text) : s.begins ≤ l.start := by
  obtain ⟨c, hc, hblank⟩ := h.first
  exact begins_le hc hblank

theorem word_le_ends {l : Lexeme} (h : l.IsWord s.text) : l.stop ≤ s.ends := by
  obtain ⟨c, hc, hblank⟩ := h.last
  have := lt_ends hc hblank
  omega

end Statement

/-! ### Statements of a logical line -/

namespace LogicalLine

theorem mem_statements {l : LogicalLine} {s : Statement} (h : s ∈ l.statements) :
    ∃ piece ∈ Lexeme.pieces (· == ':') ⟨0, l.text⟩,
      s = ⟨piece.start, piece.text, l.segments, piece.start⟩ := by
  obtain ⟨piece, hmem, rfl⟩ := List.mem_map.1 h
  exact ⟨piece, hmem, rfl⟩

theorem statement_shows {l : LogicalLine} {s : Statement} (h : s ∈ l.statements) : Shows s.text l.text := by
  obtain ⟨piece, hmem, rfl⟩ := mem_statements h
  have hall : (Lexeme.mk 0 l.text).In l.text := ⟨[], [], by simp, rfl⟩
  obtain ⟨before, after, htext, hstart⟩ := hall.pieces hmem
  rw [Statement.text, htext]
  dsimp only
  rw [← hstart]
  exact .append_margin before (.of_append piece.text after)

/-- One statement of a line ends before the next begins. -/
theorem statements_pairwise (l : LogicalLine) : l.statements.Pairwise fun s t => s.ends < t.begins := by
  rw [statements, List.pairwise_map]
  refine (Lexeme.pieces_pairwise _).imp fun {a b} hab => ?_
  have hends := Statement.ends_le ⟨a.start, a.text, l.segments, a.start⟩
  rw [Lexeme.stop] at hab
  rw [Statement.begins]
  dsimp only at hends ⊢
  omega

end LogicalLine

/-! ### Statements of a document -/

/-- The groups of a text follow each other: all of one stands before all of the next. -/
theorem group_pairwise (text : List Char) :
    (Piece.group (Piece.ofText text)).Pairwise fun g g' => ∀ p ∈ g, ∀ q ∈ g', p.number < q.number := by
  have h := Piece.ofText_pairwise text
  rw [← Piece.group_flatten (Piece.ofText text), List.pairwise_flatten] at h
  exact h.2

variable {text : List Char} {pieces : List Piece}

theorem pieces_pairwise_of_group (h : pieces ∈ Piece.group (Piece.ofText text)) :
    pieces.Pairwise fun a b => a.number < b.number := by
  have hall := Piece.ofText_pairwise text
  rw [← Piece.group_flatten (Piece.ofText text), List.pairwise_flatten] at hall
  exact hall.1 pieces h

theorem mem_ofText_of_group (h : pieces ∈ Piece.group (Piece.ofText text)) {piece : Piece}
    (hp : piece ∈ pieces) : piece ∈ Piece.ofText text := by
  rw [← Piece.group_flatten (Piece.ofText text)]
  exact List.mem_flatten_of_mem h hp

/-- All statements of a line share its segments. -/
theorem segments_of_mem_line {s : Statement} (hs : s ∈ (LogicalLine.ofPieces pieces).statements) :
    s.segments = Piece.segmentsFrom 0 pieces := by
  obtain ⟨piece, -, rfl⟩ := LogicalLine.mem_statements hs
  rfl

theorem placed_of_mem_line {s : Statement} (hg : pieces ∈ Piece.group (Piece.ofText text))
    (hs : s ∈ (LogicalLine.ofPieces pieces).statements) : s.Placed := by
  have hjoined := Piece.group_joined _ pieces hg
  have hsegments := segments_of_mem_line hs
  refine ⟨?_, ?_, ?_⟩
  · rw [hsegments]
    exact Piece.segmentsFrom_ne_nil hjoined.ne_nil 0
  · rw [hsegments]
    exact Piece.segmentsFrom_ordered (pieces_pairwise_of_group hg) 0
  · rw [hsegments, Piece.total_segmentsFrom]
    exact Int.ofNat_le.2 (LogicalLine.statement_shows hs).length_le

/-- The place of an offset is on a line of the group the statement was cut from. -/
theorem line_of_place {s : Statement} (hg : pieces ∈ Piece.group (Piece.ofText text))
    (hs : s ∈ (LogicalLine.ofPieces pieces).statements) {offset : Nat} (h : offset ≤ s.text.length) :
    ∃ piece ∈ pieces, (s.place offset).line = piece.number := by
  obtain ⟨segment, hmem, hline⟩ := Segment.line_of_locate ((placed_of_mem_line hg hs).locate_eq h)
  have hin : segment.line ∈ (Piece.segmentsFrom 0 pieces).map Segment.line := by
    rw [segments_of_mem_line hs] at hmem
    exact List.mem_map_of_mem hmem
  rw [Piece.lines_segmentsFrom] at hin
  obtain ⟨piece, hp, hnumber⟩ := List.mem_map.1 hin
  exact ⟨piece, hp, by rw [hline, hnumber]⟩

theorem mem_statements {s : Statement} (h : s ∈ Outline.statements text) :
    ∃ pieces ∈ Piece.group (Piece.ofText text),
      s ∈ (LogicalLine.ofPieces pieces).statements ∧ s.isBlank = false := by
  obtain ⟨hmem, hblank⟩ := List.mem_filter.1 h
  obtain ⟨l, hl, hs⟩ := List.mem_flatMap.1 hmem
  obtain ⟨pieces, hg, rfl⟩ := List.mem_map.1 hl
  exact ⟨pieces, hg, hs, by simpa using hblank⟩

/-- Every statement of a text is placed. -/
theorem placed_of_mem {s : Statement} (h : s ∈ Outline.statements text) : s.Placed := by
  obtain ⟨pieces, hg, hs, -⟩ := mem_statements h
  exact placed_of_mem_line hg hs

theorem begins_lt_ends_of_mem {s : Statement} (h : s ∈ Outline.statements text) : s.begins < s.ends := by
  obtain ⟨pieces, -, -, hblank⟩ := mem_statements h
  exact Statement.begins_lt_ends hblank

/-- A word of a statement stands in a physical line of the document, character by character where the
statement places it. -/
theorem word_stands {s : Statement} (h : s ∈ Outline.statements text) {l : Lexeme}
    (hw : l.IsWord s.text) :
    ∃ (n column : Nat) (line : List Char), (physicalLines text)[n]? = some line ∧
      (Lexeme.mk column l.text).In line ∧
      ∀ i, i < l.text.length → s.place (l.start + i) = ⟨n, (column + i : Nat)⟩ := by
  obtain ⟨pieces, hg, hs, -⟩ := mem_statements h
  have hplaced := placed_of_mem_line hg hs
  have hblank : ∀ piece ∈ pieces, piece.continued = true → EndsBlank piece.text := by
    intro piece hp hc
    obtain ⟨line, -, hpiece⟩ := Piece.mem_ofText (mem_ofText_of_group hg hp)
    rw [hpiece] at hc ⊢
    exact Piece.ofLine_endsBlank hc
  have hword : l.IsWord (pieces.flatMap Piece.text) := hw.of_shows (LogicalLine.statement_shows hs)
  obtain ⟨piece, hp, column, hin, hloc⟩ := (Piece.group_joined _ pieces hg).locate_word hblank hword 0
  obtain ⟨line, hline, hpiece⟩ := Piece.mem_ofText (mem_ofText_of_group hg hp)
  have hshows : Shows piece.text line := by
    rw [hpiece]
    exact Piece.ofLine_shows _ line
  have hlineWord : (Lexeme.mk column l.text).IsWord line :=
    (Lexeme.IsWord.mk hin hw.nonempty hw.solid).of_shows hshows
  refine ⟨piece.number, column, line, hline, hlineWord.within, fun i hi => ?_⟩
  have hstop := hw.within.stop_le
  rw [Lexeme.stop] at hstop
  have hplace := hplaced.locate_eq (show l.start + i ≤ s.text.length by omega)
  rw [segments_of_mem_line hs, hloc i hi] at hplace
  exact (Option.some.inj hplace).symm

/-- Two statements of one line, the first of which ends before the other begins. -/
theorem extent_before_of_line {s t : Statement} (hs : s.Placed) (ht : t.Placed)
    (hsegments : s.segments = t.segments) (hproper : s.begins < s.ends) (h : s.ends < t.begins)
    (htlen : t.begins ≤ t.text.length) : s.extent.Before t.extent := by
  have hslen := s.ends_le_length
  have hfirst : (s.place (s.ends - 1)).next ≤ s.place s.ends := hs.next_place_le (by omega) hslen
  have hsecond : (s.place s.ends).next ≤ t.place t.begins := by
    refine Segment.next_le_of_lt hs.ordered (Int.ofNat_lt.2 h) (hs.locate_eq hslen) ?_
    rw [hsegments]
    exact ht.locate_eq htlen
  exact hfirst.trans_lt ((Position.lt_next _).trans_le hsecond)

/-- The statements of a document follow each other. -/
theorem statements_pairwise (text : List Char) :
    (Outline.statements text).Pairwise fun s t => s.extent.Before t.extent := by
  rw [Outline.statements, List.pairwise_filter, LogicalLine.ofText, List.flatMap_map, List.pairwise_flatMap]
  constructor
  · intro pieces hg
    refine (LogicalLine.statements_pairwise _).imp_of_mem fun {s t} hs ht h hsb htb => ?_
    have hproper := Statement.begins_lt_ends (s := s) (by simpa using hsb)
    have htproper := Statement.begins_lt_ends (s := t) (by simpa using htb)
    have hlen := t.ends_le_length
    exact extent_before_of_line (placed_of_mem_line hg hs) (placed_of_mem_line hg ht)
      ((segments_of_mem_line hs).trans (segments_of_mem_line ht).symm) hproper h (by omega)
  · refine (group_pairwise text).imp_of_mem fun {g g'} hg hg' h s hs t ht hsb htb => ?_
    have hproper := Statement.begins_lt_ends (s := s) (by simpa using hsb)
    have htproper := Statement.begins_lt_ends (s := t) (by simpa using htb)
    have hslen := s.ends_le_length
    have htlen := t.ends_le_length
    obtain ⟨p, hp, hpline⟩ := line_of_place hg hs (show s.ends - 1 ≤ s.text.length by omega)
    obtain ⟨q, hq, hqline⟩ := line_of_place hg' ht (show t.begins ≤ t.text.length by omega)
    refine Position.lt_iff.2 (Or.inl ?_)
    have hlt := h p hp q hq
    change (s.place (s.ends - 1)).line < (t.place t.begins).line
    rw [hpline, hqline]
    exact Int.ofNat_lt.2 hlt

end VbOutline.Source

