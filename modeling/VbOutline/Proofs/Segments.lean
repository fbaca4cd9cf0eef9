import VbOutline.Proofs.Ranges
import VbOutline.Source.Location

/-! Offsets and positions. In segments whose lines go downward, an offset of the joined text has a
position exactly if it is not beyond the end, and later offsets have later positions: even the position
just after a character is at or before that of the next offset. -/

namespace VbOutline.Source

namespace Segment

/-- The length of the text that segments are joined to. -/
def total : List Segment → Int
  | [] => 0
  | segment :: rest => segment.length + total rest

/-- Segments with lengths, on lines that go downward. -/
structure Ordered (segments : List Segment) : Prop where
  length_nonneg : ∀ segment ∈ segments, 0 ≤ segment.length
  downward : segments.Pairwise fun a b => a.line < b.line

theorem Ordered.tail {segment : Segment} {rest : List Segment} (h : Ordered (segment :: rest)) :
    Ordered rest :=
  ⟨fun s hs => h.length_nonneg s (List.mem_cons_of_mem segment hs), (List.pairwise_cons.1 h.downward).2⟩

theorem locate_cons {segment : Segment} {rest : List Segment} (hrest : rest ≠ []) (offset : Int) :
    locate (segment :: rest) offset =
      if offset < segment.length then some ⟨segment.line, segment.column + offset⟩
      else locate rest (offset - segment.length) := by
  cases rest with
  | nil => exact absurd rfl hrest
  | cons next rest => rw [locate]; simp

theorem total_nonneg {segments : List Segment} (hlen : ∀ segment ∈ segments, 0 ≤ segment.length) :
    0 ≤ total segments := by
  induction segments with
  | nil => exact Int.le_refl 0
  | cons segment rest ih =>
      have hhead := hlen segment List.mem_cons_self
      have htail := ih fun s hs => hlen s (List.mem_cons_of_mem segment hs)
      rw [total]
      omega

theorem locate_isSome_iff {segments : List Segment} (hne : segments ≠ [])
    (hlen : ∀ segment ∈ segments, 0 ≤ segment.length) (offset : Int) :
    (locate segments offset).isSome = true ↔ offset ≤ total segments := by
  induction segments generalizing offset with
  | nil => exact absurd rfl hne
  | cons segment rest ih =>
      by_cases hrest : rest = []
      · subst hrest
        rw [locate]
        split <;> simp [total] <;> omega
      · have hlen' : ∀ s ∈ rest, 0 ≤ s.length := fun s hs => hlen s (List.mem_cons_of_mem segment hs)
        have hnonneg := total_nonneg hlen'
        rw [locate_cons hrest]
        split
        · simp only [Option.isSome_some, total, true_iff]
          omega
        · rw [ih hrest hlen', total]
          omega

/-- A position found in segments is on the line of one of them. -/
theorem line_of_locate {segments : List Segment} {offset : Int} {p : Position}
    (h : locate segments offset = some p) : ∃ segment ∈ segments, p.line = segment.line := by
  induction segments generalizing offset with
  | nil => simp [locate] at h
  | cons segment rest ih =>
      by_cases hrest : rest = []
      · subst hrest
        rw [locate] at h
        split at h
        · cases h
          exact ⟨segment, List.mem_cons_self, rfl⟩
        · cases h
      · rw [locate_cons hrest] at h
        split at h
        · cases h
          exact ⟨segment, List.mem_cons_self, rfl⟩
        · obtain ⟨s, hs, hline⟩ := ih h
          exact ⟨s, List.mem_cons_of_mem segment hs, hline⟩

/-- The position after a character is at or before that of any later offset. -/
theorem next_le_of_lt {segments : List Segment} (ho : Ordered segments) {a b : Int} (hab : a < b)
    {p q : Position} (hp : locate segments a = some p) (hq : locate segments b = some q) :
    p.next ≤ q := by
  induction segments generalizing a b with
  | nil => simp [locate] at hp
  | cons segment rest ih =>
      by_cases hrest : rest = []
      · subst hrest
        rw [locate] at hp hq
        split at hp <;> split at hq <;> cases hp <;> cases hq
        exact Position.le_iff.2 (Or.inr ⟨rfl, by simp only [Position.next]; omega⟩)
      · rw [locate_cons hrest] at hp hq
        split at hp
        · cases hp
          split at hq
          · cases hq
            exact Position.le_iff.2 (Or.inr ⟨rfl, by simp only [Position.next]; omega⟩)
          · obtain ⟨s, hs, hline⟩ := line_of_locate hq
            have hlt := (List.pairwise_cons.1 ho.downward).1 s hs
            exact Position.le_iff.2 (Or.inl (hline ▸ hlt))
        · split at hq
          · omega
          · exact ih ho.tail (by omega) hp hq

end Segment

namespace Statement

/-- A statement lies in its segments. -/
structure Placed (s : Statement) : Prop where
  nonempty : s.segments ≠ []
  ordered : Segment.Ordered s.segments
  fits : s.text.length ≤ Segment.total s.segments

/-- The position of an offset of the statement. -/
def place (s : Statement) (offset : Nat) : Position := (s.position offset).value

/-- The range of the characters from one offset up to another. -/
def span (s : Statement) (start stop : Nat) : Range := ⟨s.place start, (s.place (stop - 1)).next⟩

/-- The range of a statement, blanks at its two ends apart. -/
def extent (s : Statement) : Range := s.span s.begins s.ends

variable {s : Statement}

theorem Placed.position?_eq (hs : s.Placed) {offset : Nat} (h : offset ≤ s.text.length) :
    s.position? offset = some (s.place offset) := by
  have hpos : s.position? offset = Segment.locate s.segments offset := if_neg (by omega)
  have hfits := hs.fits
  have hsome := (Segment.locate_isSome_iff hs.nonempty hs.ordered.length_nonneg offset).2 (by omega)
  rw [← hpos] at hsome
  obtain ⟨p, hp⟩ := Option.isSome_iff_exists.1 hsome
  rw [place, position, hp]
  rfl

theorem Placed.locate_eq (hs : s.Placed) {offset : Nat} (h : offset ≤ s.text.length) :
    Segment.locate s.segments offset = some (s.place offset) := by
  rw [← hs.position?_eq h, position?, if_neg (by omega)]

theorem Placed.range_eq (hs : s.Placed) {a b : Nat} (hab : a < b) (hb : b ≤ s.text.length) :
    s.range a b = pure (s.span a b) := by
  have hstart : s.position? a = some (s.place a) := hs.position?_eq (by omega)
  have hstop : s.endPosition? b = some (s.place (b - 1)).next := by
    have hlast : s.position? (b - 1 : Nat) = some (s.place (b - 1)) := hs.position?_eq (by omega)
    rw [endPosition?, if_neg (by omega), show (b : Int) - 1 = (b - 1 : Nat) by omega, hlast]
    rfl
  have hrange : s.range? a b = some (s.span a b) := by
    simp [range?, hstart, hstop, hab, span]
  rw [range, hrange]

theorem Placed.next_place_le (hs : s.Placed) {a b : Nat} (hab : a < b) (hb : b ≤ s.text.length) :
    (s.place a).next ≤ s.place b :=
  Segment.next_le_of_lt hs.ordered (by omega) (hs.locate_eq (by omega)) (hs.locate_eq hb)

theorem Placed.place_lt (hs : s.Placed) {a b : Nat} (hab : a < b) (hb : b ≤ s.text.length) :
    s.place a < s.place b :=
  (Position.lt_next _).trans_le (hs.next_place_le hab hb)

theorem Placed.place_le (hs : s.Placed) {a b : Nat} (hab : a ≤ b) (hb : b ≤ s.text.length) :
    s.place a ≤ s.place b := by
  rcases Nat.eq_or_lt_of_le hab with rfl | hlt
  · exact le_rfl
  · exact (hs.place_lt hlt hb).le

theorem Placed.span_proper (hs : s.Placed) {a b : Nat} (hab : a < b) (hb : b ≤ s.text.length) :
    (s.span a b).Proper :=
  (hs.place_le (by omega) (by omega)).trans_lt (Position.lt_next _)

/-- A span that ends before another starts has its range before the other's. -/
theorem Placed.span_before (hs : s.Placed) {a b c d : Nat} (hab : a < b) (hbc : b < c)
    (hc : c ≤ s.text.length) : (s.span a b).Before (s.span c d) :=
  (hs.next_place_le (by omega) (by omega)).trans_lt (hs.place_lt hbc hc)

theorem Placed.span_stop_le (hs : s.Placed) {a b c d : Nat} (hdb : d ≤ b) (hcd : c < d)
    (hb : b ≤ s.text.length) : (s.span c d).stop ≤ (s.span a b).stop := by
  rcases Nat.eq_or_lt_of_le hdb with rfl | hlt
  · exact le_rfl
  · exact (hs.next_place_le (by omega) (by omega)).trans (Position.lt_next _).le

theorem Placed.place_injective (hs : s.Placed) {a b : Nat} (ha : a ≤ s.text.length) (hb : b ≤ s.text.length)
    (h : s.place a = s.place b) : a = b := by
  rcases Nat.lt_trichotomy a b with hlt | heq | hlt
  · exact absurd h (hs.place_lt hlt hb).ne
  · exact heq
  · exact absurd h (hs.place_lt hlt ha).ne'

/-- Different spans of a statement have different ranges. -/
theorem Placed.span_eq_iff (hs : s.Placed) {a b c d : Nat} (hab : a ≤ b) (hb : b < s.text.length) (hcd : c ≤ d)
    (hd : d < s.text.length) : s.span a (b + 1) = s.span c (d + 1) ↔ a = c ∧ b = d := by
  constructor
  · intro h
    have hstart : s.place a = s.place c := congrArg Range.start h
    have hstop : s.place b = s.place d := Position.next_injective (congrArg Range.stop h)
    exact ⟨hs.place_injective (by omega) (by omega) hstart, hs.place_injective (by omega) (by omega) hstop⟩
  · rintro ⟨rfl, rfl⟩
    rfl

end Statement

end VbOutline.Source
