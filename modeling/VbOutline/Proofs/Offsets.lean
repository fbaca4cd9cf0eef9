import VbOutline.Proofs.Partition

/-! Offsets and spans of a statement. An offset has a position exactly if it lies in the statement's lines, their
end included; an offset that ends a span has one also if it lies one beyond the end, since the character
before it is looked up where only a position is needed. In a document later offsets have later positions,
so one range covers another exactly if the span does, and ranges of spans that touch share a position
unless a line ends between them. -/

namespace VbOutline.Source

theorem next_le_next_iff {p q : Position} : p.next ≤ q.next ↔ p ≤ q := by
  simp only [Position.next, Position.le_iff]
  omega

/-! ### Which offsets have positions -/

namespace Statement

variable {s : Statement}

theorem position?_isSome_iff (hne : s.segments ≠ []) (hlen : ∀ segment ∈ s.segments, 0 ≤ segment.length)
    (offset : Int) :
    (s.position? offset).isSome = true ↔ 0 ≤ offset ∧ offset ≤ Segment.total s.segments := by
  rw [position?]
  split
  · simp only [Option.isSome_none, Bool.false_eq_true, false_iff]
    omega
  · rw [Segment.locate_isSome_iff hne hlen]
    omega

theorem endPosition?_of_pos {offset : Int} (h : 0 < offset) :
    s.endPosition? offset = (s.position? (offset - 1)).map Position.next :=
  if_neg (by omega)

theorem endPosition?_isSome_iff (hne : s.segments ≠ []) (hlen : ∀ segment ∈ s.segments, 0 ≤ segment.length)
    (offset : Int) :
    (s.endPosition? offset).isSome = true ↔
      0 ≤ offset ∧ (offset ≤ Segment.total s.segments ∨ offset = Segment.total s.segments + 1) := by
  have hnonneg := Segment.total_nonneg hlen
  by_cases hpos : 0 < offset
  · rw [endPosition?_of_pos hpos, Option.isSome_map, position?_isSome_iff hne hlen]
    omega
  · rw [endPosition?, if_pos (by omega), position?_isSome_iff hne hlen]
    omega

theorem range?_of_lt {start stop : Int} (h : start < stop) :
    s.range? start stop = (s.position? start).bind fun first => (s.endPosition? stop).map (Range.mk first) := by
  simp only [range?, if_pos h]
  cases s.position? start <;> cases s.endPosition? stop <;> rfl

/-- A span with characters has a range exactly if both of its ends have positions. -/
theorem range?_isSome_iff {start stop : Int} (h : start < stop) :
    (s.range? start stop).isSome = true ↔
      (s.position? start).isSome = true ∧ (s.endPosition? stop).isSome = true := by
  rw [range?_of_lt h]
  cases s.position? start <;> cases s.endPosition? stop <;> simp

theorem range?_eq_some {start stop : Int} (h : start < stop) {first last : Position}
    (hfirst : s.position? start = some first) (hlast : s.position? (stop - 1) = some last) :
    s.range? start stop = some ⟨first, last.next⟩ := by
  have hstart : 0 ≤ start := by
    by_contra hneg
    rw [position?, if_pos (by omega)] at hfirst
    cases hfirst
  rw [range?_of_lt h, endPosition?_of_pos (by omega), hfirst, hlast]
  rfl

/-- How far the positions of a statement reach. -/
structure Reaches (s : Statement) (total : Int) : Prop where
  position : ∀ offset, (s.position? offset).isSome = true ↔ 0 ≤ offset ∧ offset ≤ total
  /-- The end of a span is also found one beyond. -/
  endPosition : ∀ offset,
    (s.endPosition? offset).isSome = true ↔ 0 ≤ offset ∧ (offset ≤ total ∨ offset = total + 1)
  /-- It is then one character behind the end of the last line. -/
  beyond : s.endPosition? (total + 1) = (s.position? total).map Position.next
  range : ∀ start stop, start < stop →
    ((s.range? start stop).isSome = true ↔ 0 ≤ start ∧ (stop ≤ total ∨ stop = total + 1))
  /-- A span that reaches farther is reported and has a point for its range. -/
  unmapped : ∀ start stop, start < stop → start < 0 ∨ total + 1 < stop →
    s.range? start stop = none ∧
      s.range start stop = ⟨⟨⟨s.line, 0⟩, ⟨s.line, 0⟩⟩,
        [⟨.positionMappingFailure, s!"span {start}-{stop} cannot be mapped", s.line⟩]⟩
  mapped : ∀ start stop, start < stop → 0 ≤ start → stop ≤ total + 1 →
    ∃ r, s.range? start stop = some r ∧ s.range start stop = ⟨r, []⟩

/-- Whatever the lengths of its segments, a statement has positions from its first offset to its end, and ends of
spans up to one beyond. -/
theorem reaches_one_beyond (s : Statement) (hne : s.segments ≠ [])
    (hlen : ∀ segment ∈ s.segments, 0 ≤ segment.length) : s.Reaches (Segment.total s.segments) := by
  have hnonneg := Segment.total_nonneg hlen
  have hrange : ∀ start stop, start < stop → ((s.range? start stop).isSome = true ↔
      0 ≤ start ∧ (stop ≤ Segment.total s.segments ∨ stop = Segment.total s.segments + 1)) := by
    intro start stop h
    rw [range?_isSome_iff h, position?_isSome_iff hne hlen, endPosition?_isSome_iff hne hlen]
    omega
  constructor
  case position => exact position?_isSome_iff hne hlen
  case endPosition => exact endPosition?_isSome_iff hne hlen
  case beyond =>
    rw [endPosition?_of_pos (by omega), Int.add_sub_cancel]
  case range => exact hrange
  case unmapped =>
    intro start stop h hfar
    have hnone : s.range? start stop = none := by
      rw [← Option.not_isSome_iff_eq_none, hrange start stop h]
      omega
    refine ⟨hnone, ?_⟩
    rw [range, hnone]
    rfl
  case mapped =>
    intro start stop h hstart hstop
    obtain ⟨r, hr⟩ := Option.isSome_iff_exists.1 ((hrange start stop h).2 ⟨hstart, by omega⟩)
    refine ⟨r, hr, ?_⟩
    rw [range, hr]
    rfl

/-- Three lines joined to one, the last of which is empty. -/
def joinedTail : Statement := .alone "ab cd ".toList [⟨4, 0, 3, 0⟩, ⟨5, 3, 3, 0⟩, ⟨6, 6, 0, 0⟩] 0

theorem reaches_one_beyond_tail :
    Segment.total joinedTail.segments = 6 ∧ joinedTail.Reaches (Segment.total joinedTail.segments) ∧
      joinedTail.position? 6 = some ⟨6, 0⟩ ∧ joinedTail.endPosition? 6 = some ⟨5, 3⟩ :=
  ⟨by decide, reaches_one_beyond joinedTail (by decide) (by decide), by decide, by decide⟩

/-- The end of a span one beyond the last character is found, on a column that the line does not have. -/
theorem end_beyond_found :
    let s := Statement.alone "abc".toList [⟨0, 0, 3, 0⟩] 0
    Segment.total s.segments = 3 ∧ s.position? 4 = none ∧ s.endPosition? 4 = some ⟨0, 4⟩ ∧
      s.range? 0 4 = some ⟨⟨0, 0⟩, ⟨0, 4⟩⟩ ∧ (s.range 0 4).problems = [] := by
  decide

end Statement

/-! ### The order of positions -/

namespace Segment

/-- An offset at which one segment ends and another one starts. -/
def Boundary (segments : List Segment) (offset : Int) : Prop :=
  ∃ front back, segments = front ++ back ∧ front ≠ [] ∧ back ≠ [] ∧ total front = offset

variable {segments rest : List Segment} {segment : Segment}

theorem boundary_cons {offset : Int} : Boundary (segment :: rest) offset ↔
    rest ≠ [] ∧ (offset = segment.length ∨ Boundary rest (offset - segment.length)) := by
  constructor
  · rintro ⟨front, back, heq, hfront, hback, htotal⟩
    obtain ⟨first, front, rfl⟩ := List.exists_cons_of_ne_nil hfront
    obtain ⟨rfl, rfl⟩ := List.cons.inj heq
    refine ⟨by simp [hback], ?_⟩
    rw [total] at htotal
    cases front with
    | nil =>
        rw [total] at htotal
        exact Or.inl (by omega)
    | cons next front => exact Or.inr ⟨next :: front, back, rfl, by simp, hback, by omega⟩
  · rintro ⟨hrest, rfl | ⟨front, back, rfl, hfront, hback, htotal⟩⟩
    · refine ⟨[segment], rest, rfl, by simp, hrest, ?_⟩
      simp [total]
    · refine ⟨segment :: front, back, rfl, by simp, hback, ?_⟩
      rw [total, htotal]
      omega

theorem Boundary.nonneg (hlen : ∀ segment ∈ segments, 0 ≤ segment.length) {offset : Int}
    (h : Boundary segments offset) : 0 ≤ offset := by
  obtain ⟨front, back, rfl, -, -, rfl⟩ := h
  exact total_nonneg fun segment hs => hlen segment (List.mem_append_left back hs)

theorem locate_lt (ho : Ordered segments) {a b : Int} (hab : a < b) {p q : Position}
    (hp : locate segments a = some p) (hq : locate segments b = some q) : p < q :=
  (Position.lt_next p).trans_le (next_le_of_lt ho hab hp hq)

/-- The next offset is just after a character, unless a line ends there. -/
theorem next_lt_iff_boundary (ho : Ordered segments) {a : Int} {p q : Position}
    (hp : locate segments a = some p) (hq : locate segments (a + 1) = some q) :
    p.next < q ↔ Boundary segments (a + 1) := by
  induction segments generalizing a with
  | nil => simp [locate] at hp
  | cons segment rest ih =>
      have hhead := ho.length_nonneg segment List.mem_cons_self
      rw [boundary_cons]
      by_cases hrest : rest = []
      · subst hrest
        rw [locate] at hp hq
        split at hp <;> split at hq <;> cases hp <;> cases hq
        refine iff_of_false ?_ (fun h => h.1 rfl)
        simp only [Position.next, Position.lt_iff]
        omega
      · rw [locate_cons hrest] at hp hq
        split at hp
        · cases hp
          split at hq
          · -- both offsets are in the first line
            cases hq
            have hinner : ¬ Boundary rest (a + 1 - segment.length) := fun h => by
              have := h.nonneg ho.tail.length_nonneg
              omega
            simp only [Position.next, Position.lt_iff, hinner, or_false]
            omega
          · obtain ⟨s, hs, hline⟩ := line_of_locate hq
            have hlt := (List.pairwise_cons.1 ho.downward).1 s hs
            refine iff_of_true (Position.lt_iff.2 (Or.inl (hline ▸ hlt))) ⟨hrest, Or.inl (by omega)⟩
        · rw [if_neg (by omega), show a + 1 - segment.length = a - segment.length + 1 by omega] at hq
          rw [ih ho.tail hp hq, show a + 1 - segment.length = a - segment.length + 1 by omega]
          constructor
          · exact fun h => ⟨hrest, Or.inr h⟩
          · rintro ⟨-, h | h⟩
            · omega
            · exact h

end Segment

namespace Statement

variable {s : Statement}

theorem Placed.exists_position (hs : s.Placed) (offset : Int) (h : 0 ≤ offset)
    (hle : offset ≤ Segment.total s.segments) :
    ∃ p, s.position? offset = some p ∧ Segment.locate s.segments offset = some p := by
  obtain ⟨p, hp⟩ := Option.isSome_iff_exists.1
    ((position?_isSome_iff hs.nonempty hs.ordered.length_nonneg offset).2 ⟨h, hle⟩)
  refine ⟨p, hp, ?_⟩
  rwa [position?, if_neg (by omega)] at hp

/-- Offsets and their positions are in the same order. -/
theorem Placed.locate_le_iff (hs : s.Placed) {a b : Int} {p q : Position} (hp : Segment.locate s.segments a = some p)
    (hq : Segment.locate s.segments b = some q) : p ≤ q ↔ a ≤ b := by
  constructor
  · intro h
    by_contra hlt
    exact absurd (Segment.locate_lt hs.ordered (by omega) hq hp) (not_lt.2 h)
  · intro h
    rcases Int.lt_or_eq_of_le h with hlt | rfl
    · exact (Segment.locate_lt hs.ordered hlt hp hq).le
    · cases hp.symm.trans hq
      exact le_rfl

/-- Two spans of a statement and their ranges. -/
structure SpansAlike (s : Statement) (a b c d : Int) (r t : Range) : Prop where
  covers_iff : r.covers t = true ↔ a ≤ c ∧ d ≤ b
  stop_le : b ≤ c → r.stop ≤ t.start
  /-- The ranges are apart unless the spans touch within a line. -/
  before_iff : b ≤ c → (r.stop < t.start ↔ b < c ∨ Segment.Boundary s.segments b)

theorem Placed.spansAlike (hs : s.Placed) {a b c d : Int} (ha : 0 ≤ a) (hab : a < b)
    (hb : b ≤ Segment.total s.segments) (hc : 0 ≤ c) (hcd : c < d) (hd : d ≤ Segment.total s.segments) :
    ∃ r t, s.range? a b = some r ∧ s.range? c d = some t ∧ s.SpansAlike a b c d r t := by
  obtain ⟨first, hfirst, hfirst'⟩ := hs.exists_position a ha (by omega)
  obtain ⟨last, hlast, hlast'⟩ := hs.exists_position (b - 1) (by omega) (by omega)
  obtain ⟨first₂, hfirst₂, hfirst₂'⟩ := hs.exists_position c hc (by omega)
  obtain ⟨last₂, hlast₂, hlast₂'⟩ := hs.exists_position (d - 1) (by omega) (by omega)
  refine ⟨⟨first, last.next⟩, ⟨first₂, last₂.next⟩, range?_eq_some hab hfirst hlast,
    range?_eq_some hcd hfirst₂ hlast₂, ?_, fun hbc => ?_, fun hbc => ?_⟩
  · have hproper : Range.Proper ⟨first₂, last₂.next⟩ :=
      ((hs.locate_le_iff hfirst₂' hlast₂').2 (by omega)).trans_lt (Position.lt_next last₂)
    rw [Range.covers_iff hproper]
    dsimp only
    rw [hs.locate_le_iff hfirst' hfirst₂', next_le_next_iff, hs.locate_le_iff hlast₂' hlast']
    omega
  · exact Segment.next_le_of_lt hs.ordered (by omega) hlast' hfirst₂'
  · rcases Int.lt_or_eq_of_le hbc with hlt | rfl
    · obtain ⟨stop, -, hstop⟩ := hs.exists_position b (by omega) hb
      have hnext := Segment.next_le_of_lt hs.ordered (by omega) hlast' hstop
      exact iff_of_true (hnext.trans_lt (Segment.locate_lt hs.ordered hlt hstop hfirst₂')) (Or.inl hlt)
    · have hiff := Segment.next_lt_iff_boundary hs.ordered hlast' (q := first₂) (by
        rwa [Int.sub_add_cancel])
      rw [Int.sub_add_cancel] at hiff
      simp only [lt_irrefl, false_or]
      exact hiff

end Statement

theorem placed_of_mem_all {text : List Char} {s : Statement} (hs : s ∈ allStatements text) : s.Placed := by
  obtain ⟨l, hl, hmem⟩ := List.mem_flatMap.1 hs
  obtain ⟨pieces, hg, rfl⟩ := List.mem_map.1 hl
  exact placed_of_mem_line hg hmem

/-- The offsets of a statement, up to the end of its lines, are in the order of their positions, and its spans lie
to each other as their ranges do. -/
theorem offsets_embedded (text : List Char) (s : Statement) (hs : s ∈ allStatements text) :
    (∀ a b : Int, 0 ≤ a → a < b → b ≤ Segment.total s.segments →
      ∃ p q, s.position? a = some p ∧ s.position? b = some q ∧ p < q) ∧
    ∀ a b c d : Int, 0 ≤ a → a < b → b ≤ Segment.total s.segments →
      0 ≤ c → c < d → d ≤ Segment.total s.segments →
        ∃ r t, s.range? a b = some r ∧ s.range? c d = some t ∧ s.SpansAlike a b c d r t := by
  have hplaced := placed_of_mem_all hs
  refine ⟨fun a b ha hab hb => ?_, fun a b c d ha hab hb hc hcd hd => hplaced.spansAlike ha hab hb hc hcd hd⟩
  obtain ⟨p, hp, hp'⟩ := hplaced.exists_position a ha (by omega)
  obtain ⟨q, hq, hq'⟩ := hplaced.exists_position b (by omega) hb
  exact ⟨p, q, hp, hq, Segment.locate_lt hplaced.ordered hab hp' hq'⟩

/-- A statement on two lines, of which the first ends at the offset 8. -/
def joinedDim : Statement := ⟨0, "Dim a,    b".toList, [⟨0, 0, 8, 0⟩, ⟨1, 8, 3, 0⟩], 0⟩

theorem offsets_embedded_joined :
    joinedDim ∈ allStatements "Dim a, _\n  b".toList ∧
      (∃ p q, joinedDim.position? 7 = some p ∧ joinedDim.position? 8 = some q ∧ p < q) ∧
      ∃ r t, joinedDim.range? 4 8 = some r ∧ joinedDim.range? 8 11 = some t ∧ joinedDim.SpansAlike 4 8 8 11 r t := by
  have hmem : joinedDim ∈ allStatements "Dim a, _\n  b".toList := by decide +kernel
  obtain ⟨hpositions, hspans⟩ := offsets_embedded "Dim a, _\n  b".toList joinedDim hmem
  exact ⟨hmem, hpositions 7 8 (by decide) (by decide) (by decide),
    hspans 4 8 8 11 (by decide) (by decide) (by decide) (by decide) (by decide) (by decide)⟩

end VbOutline.Source
