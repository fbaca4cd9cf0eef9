import Mathlib.Order.Defs.LinearOrder
import Mathlib.Tactic.Order
import VbOutline.Symbol

/-! The order of positions and the two ways in which ranges of a document lie to each other: one ends
before the other starts, or one is strictly inside of the other. Both ends of a range belong to it, so
ranges that touch at an end are neither. -/

namespace VbOutline

namespace Position

/-- Positions are ordered by line, then by character. -/
theorem le_iff {p q : Position} : p ≤ q ↔ p.line < q.line ∨ p.line = q.line ∧ p.character ≤ q.character :=
  Iff.rfl

theorem lt_iff {p q : Position} : p < q ↔ p.line < q.line ∨ p.line = q.line ∧ p.character < q.character :=
  Iff.rfl

instance : LinearOrder Position where
  le_refl p := le_iff.2 (Or.inr ⟨rfl, Int.le_refl _⟩)
  le_trans p q r := by simp only [le_iff]; omega
  lt_iff_le_not_ge p q := by simp only [le_iff, lt_iff]; omega
  le_antisymm p q := by
    obtain ⟨l, c⟩ := p
    obtain ⟨l', c'⟩ := q
    simp only [le_iff, mk.injEq]
    omega
  le_total p q := by simp only [le_iff]; omega
  toDecidableLE := inferInstance

/-- The position just after a character. -/
def next (p : Position) : Position := ⟨p.line, p.character + 1⟩

theorem lt_next (p : Position) : p < p.next :=
  lt_iff.2 (Or.inr ⟨rfl, Int.lt_succ p.character⟩)

theorem next_injective : Function.Injective next := by
  rintro ⟨line, character⟩ ⟨line', character'⟩ h
  simp only [next, mk.injEq] at h ⊢
  omega

end Position

namespace Range

/-- One range ends before another starts. -/
def Before (r t : Range) : Prop := r.stop < t.start

/-- One range lies inside of another and shares no end with it. -/
def Inside (r t : Range) : Prop := t.start < r.start ∧ r.stop < t.stop

/-- A range that holds a character. -/
def Proper (r : Range) : Prop := r.start < r.stop

variable {r t u : Range}

theorem contains_iff {p : Position} : r.contains p = true ↔ r.start ≤ p ∧ p ≤ r.stop := by
  simp [contains]

/-- Covering a range that is not reversed is covering its two ends. -/
theorem covers_iff_of_le (ht : t.start ≤ t.stop) : r.covers t = true ↔ r.start ≤ t.start ∧ t.stop ≤ r.stop := by
  simp only [covers, Bool.and_eq_true, contains_iff]
  constructor
  · rintro ⟨⟨h, -⟩, -, h'⟩
    exact ⟨h, h'⟩
  · rintro ⟨h, h'⟩
    exact ⟨⟨h, by order⟩, by order, h'⟩

theorem covers_iff (ht : t.Proper) : r.covers t = true ↔ r.start ≤ t.start ∧ t.stop ≤ r.stop :=
  covers_iff_of_le (le_of_lt ht)

theorem Inside.covers (hr : r.Proper) (h : r.Inside t) : t.covers r = true :=
  (covers_iff hr).2 ⟨h.1.le, h.2.le⟩

/-- Lying strictly inside is transitive. -/
theorem Inside.trans (hrt : r.Inside t) (htu : t.Inside u) : r.Inside u :=
  ⟨htu.1.trans hrt.1, hrt.2.trans htu.2⟩

/-- A range that starts no later is not inside. -/
theorem not_inside_of_start_le (h : r.start ≤ t.start) : ¬ r.Inside t :=
  fun hinside => absurd hinside.1 (not_lt.2 h)

theorem not_inside_of_stop_le (h : t.stop ≤ r.stop) : ¬ r.Inside t :=
  fun hinside => absurd hinside.2 (not_lt.2 h)

/-- Of two ranges one before the other, neither covers the other. -/
theorem Before.not_covers (ht : t.Proper) (h : r.Before t) : r.covers t = false := by
  rw [Bool.eq_false_iff, ne_eq, covers_iff ht]
  rintro ⟨-, hstop⟩
  exact absurd (h.trans ht) (not_lt.2 hstop)

theorem Before.not_covered (hr : r.Proper) (h : r.Before t) : t.covers r = false := by
  rw [Bool.eq_false_iff, ne_eq, covers_iff hr]
  rintro ⟨hstart, -⟩
  exact absurd (hr.trans h) (not_lt.2 hstart)

theorem Inside.not_covers (ht : t.Proper) (h : r.Inside t) : r.covers t = false := by
  rw [Bool.eq_false_iff, ne_eq, covers_iff ht]
  rintro ⟨hstart, -⟩
  exact absurd h.1 (not_lt.2 hstart)

/-- No position lies in both of two ranges that stand apart. -/
theorem Before.not_contains (h : r.Before t) {p : Position} (hp : r.contains p = true) :
    t.contains p = false := by
  rw [Bool.eq_false_iff, ne_eq, contains_iff]
  rintro ⟨hstart, -⟩
  exact absurd (h.trans_le hstart) (not_lt.2 (contains_iff.1 hp).2)

/-- What a range contains, every range around it contains. -/
theorem Inside.contains (h : r.Inside t) {p : Position} (hp : r.contains p = true) : t.contains p = true := by
  obtain ⟨hstart, hstop⟩ := contains_iff.1 hp
  exact contains_iff.2 ⟨h.1.le.trans hstart, hstop.trans h.2.le⟩

end Range

end VbOutline
