import VbOutline.Proofs.Spelling
import VbOutline.Proofs.Statements

/-! Logical lines and statements divide a document up. Every physical line has its share in one logical line,
in order: its code, with the marker replaced by a space if the line goes on. The statements of a logical
line and the colons between them are its text. So each character that is read, blanks apart, stands in one
place of the document, and different ones stand in different places. -/

namespace VbOutline.Source

open Text

/-! ### Continuation markers -/

/-- A continuation marker: an underscore with nothing but blanks behind it, and a blank or nothing before
it. -/
structure MarkedAt (text front tail : List Char) : Prop where
  text_eq : text = front ++ '_' :: tail
  blank_behind : ∀ c ∈ tail, isBlank c = true
  blank_before : ∀ c ∈ front.getLast?, isBlank c = true

theorem MarkedAt.text_split {text front tail : List Char} (h : MarkedAt text front tail) :
    text = (front ++ ['_']) ++ tail := by
  rw [h.text_eq, List.append_assoc]
  rfl

theorem MarkedAt.trimEnd_eq {text front tail : List Char} (h : MarkedAt text front tail) :
    trimEnd text = front ++ ['_'] := by
  rw [h.text_split]
  refine Grammar.trimEnd_append (fun x hx => ?_) h.blank_behind
  rw [List.getLast?_concat] at hx
  cases hx
  decide

theorem MarkedAt.blankMarker_eq {text front tail : List Char} (h : MarkedAt text front tail) :
    isContinued text = true ∧ blankMarker text = front ++ ' ' :: tail := by
  have hcontinued : isContinued text = true := by
    simp only [isContinued, h.trimEnd_eq, List.getLast?_concat, List.dropLast_concat, beq_self_eq_true,
      Bool.true_and]
    rw [Option.all_eq_true]
    exact fun c hc => h.blank_before c hc
  have hdrop : text.drop (front ++ ['_']).length = tail := by
    rw [h.text_split, List.drop_left]
  refine ⟨hcontinued, ?_⟩
  simp only [blankMarker, hcontinued, if_true, h.trimEnd_eq, List.dropLast_concat, hdrop]

theorem isContinued_iff {text : List Char} : isContinued text = true ↔ ∃ front tail, MarkedAt text front tail := by
  constructor
  · intro h
    obtain ⟨tail, htext, htail⟩ := exists_trimEnd_append text
    simp only [isContinued, Bool.and_eq_true, beq_iff_eq, Option.all_eq_true] at h
    obtain ⟨front, hfront⟩ := List.getLast?_eq_some_iff.1 h.1
    refine ⟨front, tail, ?_, htail, fun c hc => h.2 c ?_⟩
    · rw [htext, hfront, List.append_assoc]
      rfl
    · rwa [hfront, List.dropLast_concat]
  · rintro ⟨front, tail, h⟩
    exact h.blankMarker_eq.1

/-! ### Shares of physical lines -/

namespace Piece

theorem getElem?_segmentsFrom (offset : Nat) (pieces : List Piece) (i : Nat) :
    (segmentsFrom offset pieces)[i]? = pieces[i]?.map fun piece =>
      ⟨piece.number, (offset + ((pieces.take i).flatMap Piece.text).length : Nat), piece.text.length, 0⟩ := by
  induction pieces generalizing offset i with
  | nil => rfl
  | cons piece rest ih =>
      cases i with
      | zero => simp [segmentsFrom]
      | succ i =>
          rw [segmentsFrom, List.getElem?_cons_succ, ih, List.getElem?_cons_succ, List.take_succ_cons,
            List.flatMap_cons, List.length_append, Nat.add_assoc]

theorem take_segmentsFrom (offset : Nat) (pieces : List Piece) (i : Nat) :
    (segmentsFrom offset pieces).take i = segmentsFrom offset (pieces.take i) := by
  induction pieces generalizing offset i with
  | nil => simp [segmentsFrom]
  | cons piece rest ih =>
      cases i with
      | zero => rfl
      | succ i => rw [segmentsFrom, List.take_succ_cons, ih, List.take_succ_cons, segmentsFrom]

theorem length_segmentsFrom (offset : Nat) (pieces : List Piece) :
    (segmentsFrom offset pieces).length = pieces.length := by
  have hlines := congrArg List.length (lines_segmentsFrom offset pieces)
  rwa [List.length_map, List.length_map] at hlines

/-- The text of a piece, found by the length of what comes before it. -/
theorem slice_flatMap {pieces : List Piece} {i : Nat} {piece : Piece} (h : pieces[i]? = some piece) :
    ((pieces.flatMap Piece.text).drop ((pieces.take i).flatMap Piece.text).length).take piece.text.length =
      piece.text := by
  obtain ⟨hlt, rfl⟩ := List.getElem?_eq_some_iff.1 h
  have hsplit : pieces = pieces.take i ++ pieces[i] :: pieces.drop (i + 1) := by
    rw [← List.drop_eq_getElem_cons hlt, List.take_append_drop]
  have htext : pieces.flatMap Piece.text = (pieces.take i).flatMap Piece.text ++
      (pieces[i].text ++ (pieces.drop (i + 1)).flatMap Piece.text) := by
    rw [← List.flatMap_cons, ← List.flatMap_append, ← hsplit]
  rw [htext, List.drop_left, List.take_left]

theorem Joined.continued {pieces : List Piece} (h : Joined pieces) {i : Nat} {piece : Piece}
    (hpiece : pieces[i]? = some piece) (hi : i + 1 < pieces.length) : piece.continued = true := by
  induction h generalizing i with
  | last only => simp at hi
  | @cons first rest hfirst _ ih =>
      cases i with
      | zero =>
          cases hpiece
          exact hfirst
      | succ i => exact ih hpiece (by simpa using hi)

/-- A group ends with a piece that does not go on, or with the last piece of all. -/
theorem group_ends {pieces g : List Piece} (hg : g ∈ group pieces) {piece : Piece} (hlast : g.getLast? = some piece)
    (hcontinued : piece.continued = true) : pieces.getLast? = some piece := by
  induction pieces generalizing g with
  | nil => cases hg
  | cons first rest ih =>
      cases hgroup : group rest with
      | nil =>
          have hrest : rest = [] := by rw [← group_flatten rest, hgroup, List.flatten_nil]
          rw [group, hgroup] at hg
          rw [hrest, ← hlast, List.mem_singleton.1 hg]
      | cons next groups =>
          rw [hgroup] at ih
          have hrest : rest.getLast? = some piece → (first :: rest).getLast? = some piece := by
            intro h
            rw [List.getLast?_cons, h]
            rfl
          rw [group, hgroup] at hg
          dsimp only at hg
          split at hg
          · rcases List.mem_cons.1 hg with rfl | hg
            · have hne : next ≠ [] :=
                (group_joined rest next (by rw [hgroup]; exact List.mem_cons_self)).ne_nil
              rw [List.getLast?_cons_of_ne_nil hne] at hlast
              exact hrest (ih List.mem_cons_self hlast)
            · exact hrest (ih (List.mem_cons_of_mem next hg) hlast)
          · next hends =>
              rcases List.mem_cons.1 hg with rfl | hg
              · cases hlast
                exact absurd hcontinued hends
              · exact hrest (ih hg hlast)

end Piece

/-- Whether a physical line has a continuation marker behind what is read of it. -/
def HasMarker (line : List Char) : Prop := ∃ front tail, MarkedAt (code line) front tail

/-- The text of a segment in its logical line. -/
def LogicalLine.slice (l : LogicalLine) (segment : Segment) : List Char :=
  (l.text.drop segment.offset.toNat).take segment.length.toNat

/-- The segment with a number is the share of a physical line: its code, with the marker replaced by a space. All
but the last segment have a marker, and the last has none unless the document ends with it. -/
structure ShareOf (lines : List (List Char)) (l : LogicalLine) (i : Nat) (segment : Segment) (n : Nat)
    (line : List Char) : Prop where
  line_eq : segment.line = n
  line_get : lines[n]? = some line
  offset_eq : segment.offset = Segment.total (l.segments.take i)
  length_nonneg : 0 ≤ segment.length
  column_eq : segment.column = 0
  whole : ¬ HasMarker line → l.slice segment = code line
  marked : ∀ front tail, MarkedAt (code line) front tail → l.slice segment = front ++ ' ' :: tail
  goes_on : i + 1 < l.segments.length → HasMarker line
  ends : i + 1 = l.segments.length → HasMarker line → n + 1 = lines.length

variable {text : List Char} {pieces : List Piece}

theorem number_of_getLast? {piece : Piece} (h : (Piece.ofText text).getLast? = some piece) :
    piece.number + 1 = (physicalLines text).length := by
  rw [Piece.ofText, List.getLast?_map, Option.map_eq_some_iff] at h
  obtain ⟨⟨line, number⟩, hlast, rfl⟩ := h
  have hnumber : ((physicalLines text).zipIdx.map Prod.snd).getLast? = some number := by
    rw [List.getLast?_map, hlast]
    rfl
  rw [List.zipIdx_map_snd, List.getLast?_range'] at hnumber
  split at hnumber
  · cases hnumber
  · cases hnumber
    simp only [Piece.ofLine]
    omega

theorem exists_shareOf (hg : pieces ∈ Piece.group (Piece.ofText text)) {i : Nat} {segment : Segment}
    (h : (LogicalLine.ofPieces pieces).segments[i]? = some segment) :
    ∃ n line, ShareOf (physicalLines text) (LogicalLine.ofPieces pieces) i segment n line := by
  rw [LogicalLine.ofPieces, Piece.getElem?_segmentsFrom, Option.map_eq_some_iff] at h
  obtain ⟨piece, hpiece, rfl⟩ := h
  obtain ⟨line, hline, heq⟩ := Piece.mem_ofText (mem_ofText_of_group hg (List.mem_of_getElem? hpiece))
  have hcontinued : piece.continued = true ↔ HasMarker line := by
    rw [heq]
    exact isContinued_iff
  have htext : piece.text = blankMarker (code line) := by rw [heq]; rfl
  have hslice : ((pieces.flatMap Piece.text).drop (0 + ((pieces.take i).flatMap Piece.text).length)).take
      piece.text.length = blankMarker (code line) := by
    rw [Nat.zero_add, Piece.slice_flatMap hpiece, htext]
  refine ⟨piece.number, line, rfl, hline, ?_, Int.natCast_nonneg _, rfl, fun hnone => ?_, fun front tail hmarked => ?_,
    fun hi => ?_, fun hi hmarker => ?_⟩
  · rw [LogicalLine.ofPieces, Piece.take_segmentsFrom, Piece.total_segmentsFrom, Nat.zero_add]
  · have hnot : isContinued (code line) = false := Bool.eq_false_iff.2 fun h => hnone (isContinued_iff.1 h)
    refine hslice.trans ?_
    rw [blankMarker, hnot]
    rfl
  · exact hslice.trans hmarked.blankMarker_eq.2
  · rw [LogicalLine.ofPieces, Piece.length_segmentsFrom] at hi
    exact hcontinued.1 ((Piece.group_joined _ pieces hg).continued hpiece hi)
  · rw [LogicalLine.ofPieces, Piece.length_segmentsFrom] at hi
    have hlast : pieces.getLast? = some piece := by
      rw [List.getLast?_eq_getElem?, ← hi]
      exact hpiece
    exact number_of_getLast? (Piece.group_ends hg hlast (hcontinued.2 hmarker))

theorem numbers_ofText (text : List Char) :
    (LogicalLine.ofText text).flatMap (fun l => l.segments.map Segment.line) =
      (List.range (physicalLines text).length).map Int.ofNat := by
  have hpieces : ∀ groups : List (List Piece),
      (groups.map LogicalLine.ofPieces).flatMap (fun l => l.segments.map Segment.line) =
        groups.flatten.map fun piece => (piece.number : Int) := by
    intro groups
    induction groups with
    | nil => rfl
    | cons g groups ih =>
        rw [List.map_cons, List.flatMap_cons, ih, List.flatten_cons, List.map_append]
        exact congrArg (· ++ _) (Piece.lines_segmentsFrom 0 g)
  rw [LogicalLine.ofText, hpieces, Piece.group_flatten, Piece.ofText, List.map_map, List.range_eq_range',
    ← List.zipIdx_map_snd 0 (physicalLines text), List.map_map]
  rfl

/-! ### Statements -/

/-- Pieces between separators, with the separator between them, are the text that was cut. -/
theorem intercalate_pieces (c : Char) (start : Nat) (text : List Char) :
    [c].intercalate ((Lexeme.piecesFrom (· == c) start text).map Lexeme.text) = text := by
  induction text generalizing start with
  | nil => exact List.intercalate_singleton
  | cons x rest ih =>
      by_cases hx : x = c
      · subst hx
        obtain ⟨piece, pieces, hpieces⟩ :=
          List.exists_cons_of_ne_nil (Lexeme.piecesFrom_ne_nil (· == x) (start + 1) rest)
        have hrest := ih (start + 1)
        rw [hpieces, List.map_cons] at hrest
        rw [Lexeme.piecesFrom_cons_of_sep (by simp), hpieces, List.map_cons, List.map_cons,
          List.intercalate_cons_cons, hrest]
        rfl
      · obtain ⟨piece, pieces, hpieces, hcons⟩ :=
          @Lexeme.piecesFrom_cons_of_not (· == c) x (by simpa using hx) start rest
        have hrest := ih (start + 1)
        rw [hpieces, List.map_cons] at hrest
        rw [hcons, List.map_cons]
        cases pieces with
        | nil =>
            rw [List.map_nil, List.intercalate_singleton] at hrest ⊢
            rw [hrest]
        | cons next pieces =>
            rw [List.map_cons, List.intercalate_cons_cons] at hrest ⊢
            rw [← hrest]
            rfl

theorem intercalate_statements (l : LogicalLine) :
    [':'].intercalate (l.statements.map fun s => s.text.drop s.start.toNat) = l.text := by
  have hbodies : (l.statements.map fun s => s.text.drop s.start.toNat) =
      (Lexeme.pieces (· == ':') ⟨0, l.text⟩).map Lexeme.text := by
    rw [LogicalLine.statements, List.map_map]
    refine List.map_congr_left fun piece _ => ?_
    simp [Statement.text]
  rw [hbodies]
  exact intercalate_pieces ':' 0 l.text

/-- A character that is not blank stands in the document where the statement places it. -/
theorem char_stands {s : Statement} (hs : s ∈ Outline.statements text) {k : Nat} {c : Char}
    (hc : s.text[k]? = some c) (hblank : isBlank c = false) :
    ∃ (n column : Nat) (row : List Char), s.position? k = some ⟨n, column⟩ ∧
      (physicalLines text)[n]? = some row ∧ row[column]? = some c := by
  have hlt := (List.getElem?_eq_some_iff.1 hc).1
  have hword : (Lexeme.mk k [c]).IsWord s.text := by
    refine ⟨Lexeme.in_of_getElem? (List.cons_ne_nil c []) fun i hi => ?_, List.cons_ne_nil c [], fun x hx => ?_⟩
    · cases Nat.lt_one_iff.1 hi
      exact hc
    · rwa [List.mem_singleton.1 hx]
  obtain ⟨n, column, row, hrow, hin, hplace⟩ := word_stands hs hword
  refine ⟨n, column, row, ?_, hrow, hin.getElem? (i := 0) Nat.zero_lt_one⟩
  rw [(placed_of_mem hs).position?_eq hlt.le]
  exact congrArg some (hplace 0 Nat.zero_lt_one)

/-- Every statement of a document, blank ones too. -/
def allStatements (text : List Char) : List Statement := (LogicalLine.ofText text).flatMap LogicalLine.statements

/-- A statement has a character other than a blank at an offset. -/
def Statement.InkAt (s : Statement) (k : Nat) : Prop := ∃ c, s.text[k]? = some c ∧ Text.isBlank c = false

section Ink

variable {s s' : Statement} {k k' : Nat}

theorem Statement.InkAt.lt_length (hk : s.InkAt k) : k < s.text.length := by
  obtain ⟨c, hc, -⟩ := hk
  exact (List.getElem?_eq_some_iff.1 hc).1

theorem isBlank_of_inkAt (hk : s.InkAt k) : s.isBlank = false := by
  obtain ⟨c, hc, hblank⟩ := hk
  obtain ⟨i, -, hi⟩ := Statement.exists_of_not_blank hc hblank
  exact List.all_eq_false.2 ⟨c, List.mem_of_getElem? hi, by simp [hblank]⟩

theorem mem_statements_of_inkAt (hs : s ∈ allStatements text) (hk : s.InkAt k) : s ∈ Outline.statements text :=
  List.mem_filter.2 ⟨hs, by simp [isBlank_of_inkAt hk]⟩

theorem placed_of_inkAt {i : Nat} (hs : (allStatements text)[i]? = some s) (hk : s.InkAt k) : s.Placed :=
  placed_of_mem (mem_statements_of_inkAt (List.mem_of_getElem? hs) hk)

/-- The places of an earlier statement come before those of a later one. -/
theorem place_lt_of_before (hs : s.Placed) (hs' : s'.Placed) (hk : s.InkAt k) (hk' : s'.InkAt k')
    (h : s.extent.Before s'.extent) : s.place k < s'.place k' := by
  have hlt' := hk'.lt_length
  obtain ⟨c, hc, hblank⟩ := hk
  obtain ⟨c', hc', hblank'⟩ := hk'
  have hends := Statement.lt_ends hc hblank
  have hlast : s.place k ≤ s.place (s.ends - 1) := by
    have := s.ends_le_length
    exact hs.place_le (by omega) (by omega)
  have hfirst : s'.place s'.begins ≤ s'.place k' := hs'.place_le (Statement.begins_le hc' hblank') hlt'.le
  calc s.place k ≤ s.place (s.ends - 1) := hlast
    _ < s.extent.stop := Position.lt_next _
    _ < s'.extent.start := h
    _ ≤ s'.place k' := hfirst

end Ink

theorem allStatements_pairwise (text : List Char) : (allStatements text).Pairwise fun s s' =>
    s.isBlank = false → s'.isBlank = false → s.extent.Before s'.extent := by
  have h := statements_pairwise text
  rw [Outline.statements, List.pairwise_filter] at h
  exact h.imp fun h hs hs' => h (by simpa using hs) (by simpa using hs')

/-- Of two statements with different numbers one has its places before those of the other. -/
theorem place_lt_of_lt {i i' k k' : Nat} {s s' : Statement} (hs : (allStatements text)[i]? = some s)
    (hs' : (allStatements text)[i']? = some s') (hk : s.InkAt k) (hk' : s'.InkAt k') (hlt : i < i') :
    s.place k < s'.place k' := by
  have hplaced := placed_of_inkAt hs hk
  have hplaced' := placed_of_inkAt hs' hk'
  obtain ⟨hi, rfl⟩ := List.getElem?_eq_some_iff.1 hs
  obtain ⟨hi', rfl⟩ := List.getElem?_eq_some_iff.1 hs'
  exact place_lt_of_before hplaced hplaced' hk hk' <|
    List.pairwise_iff_getElem.1 (allStatements_pairwise text) i i' hi hi' hlt (isBlank_of_inkAt hk)
      (isBlank_of_inkAt hk')

theorem place_inj {i i' k k' : Nat} {s s' : Statement} (hs : (allStatements text)[i]? = some s)
    (hs' : (allStatements text)[i']? = some s') (hk : s.InkAt k) (hk' : s'.InkAt k')
    (h : s.place k = s'.place k') : i = i' ∧ k = k' := by
  rcases Nat.lt_trichotomy i i' with hlt | rfl | hlt
  · exact absurd h (place_lt_of_lt hs hs' hk hk' hlt).ne
  · cases hs.symm.trans hs'
    exact ⟨rfl, (placed_of_inkAt hs hk).place_injective hk.lt_length.le hk'.lt_length.le h⟩
  · exact absurd h (place_lt_of_lt hs' hs hk' hk hlt).ne'

/-- How logical lines and statements divide a document up. -/
structure Partitioned (text : List Char) : Prop where
  /-- Every physical line has one segment, in order. -/
  numbers : (LogicalLine.ofText text).flatMap (fun l => l.segments.map Segment.line) =
    (List.range (physicalLines text).length).map Int.ofNat
  nonempty : ∀ l ∈ LogicalLine.ofText text, l.segments ≠ []
  shares : ∀ l ∈ LogicalLine.ofText text, ∀ i segment, l.segments[i]? = some segment →
    ∃ n line, ShareOf (physicalLines text) l i segment n line
  lengths : ∀ l ∈ LogicalLine.ofText text, Segment.total l.segments = l.text.length
  /-- Statements are what stands between the colons, behind a margin as long as what stands before. -/
  joined : ∀ l ∈ LogicalLine.ofText text,
    [':'].intercalate (l.statements.map fun s => s.text.drop s.start.toNat) = l.text
  margins : ∀ l ∈ LogicalLine.ofText text, ∀ s ∈ l.statements,
    s.segments = l.segments ∧ s.text.take s.start.toNat = List.replicate s.start.toNat ' '
  /-- A character that is not blank is the one of the document where it is placed. -/
  placed : ∀ s ∈ allStatements text, ∀ (k : Nat) (c : Char), s.text[k]? = some c → isBlank c = false →
    ∃ (n column : Nat) (row : List Char), s.position? k = some ⟨n, column⟩ ∧
      (physicalLines text)[n]? = some row ∧ row[column]? = some c
  /-- Different characters have different places. -/
  apart : ∀ (i i' : Nat) (s s' : Statement), (allStatements text)[i]? = some s →
    (allStatements text)[i']? = some s' → ∀ k k' : Nat, s.InkAt k → s'.InkAt k' →
      s.position? k = s'.position? k' → i = i' ∧ k = k'

theorem document_partitioned (text : List Char) : Partitioned text := by
  have hline : ∀ l ∈ LogicalLine.ofText text, ∃ g ∈ Piece.group (Piece.ofText text), l = LogicalLine.ofPieces g := by
    intro l hl
    obtain ⟨g, hg, rfl⟩ := List.mem_map.1 hl
    exact ⟨g, hg, rfl⟩
  constructor
  case numbers => exact numbers_ofText text
  case nonempty =>
    intro l hl
    obtain ⟨g, hg, rfl⟩ := hline l hl
    exact Piece.segmentsFrom_ne_nil (Piece.group_joined _ g hg).ne_nil 0
  case shares =>
    intro l hl i segment hsegment
    obtain ⟨g, hg, rfl⟩ := hline l hl
    exact exists_shareOf hg hsegment
  case lengths =>
    intro l hl
    obtain ⟨g, -, rfl⟩ := hline l hl
    exact Piece.total_segmentsFrom 0 g
  case joined => exact fun l _ => intercalate_statements l
  case margins =>
    intro l _ s hs
    obtain ⟨piece, -, rfl⟩ := LogicalLine.mem_statements hs
    refine ⟨rfl, ?_⟩
    simp [Statement.text]
  case placed =>
    intro s hs k c hc hblank
    exact char_stands (mem_statements_of_inkAt hs ⟨c, hc, hblank⟩) hc hblank
  case apart =>
    intro i i' s s' hs hs' k k' hk hk' h
    rw [(placed_of_inkAt hs hk).position?_eq hk.lt_length.le,
      (placed_of_inkAt hs' hk').position?_eq hk'.lt_length.le] at h
    exact place_inj hs hs' hk hk' (Option.some.inj h)

end VbOutline.Source
