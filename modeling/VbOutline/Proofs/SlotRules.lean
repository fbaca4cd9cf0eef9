import VbOutline.Proofs.Slots

/-! One rule for each statement, whatever the slots hold. The rules on slots read the same statements as those on
open blocks, so at most one of them reads a statement and their order does not matter, also where a method and a
property are open at once. What stands in the way of a header is any filled slot for members and, for the header of a
class, any filled slot. -/

namespace VbOutline.Outline

open Grammar Source

namespace Slots

variable {k : Slots} {s : Statement} {rule : Rule} {rules : List Rule}

/-! ### Rules on slots in any order -/

theorem apply_of_not_reads (h : ¬ rule.Reads s) : apply rule k s = pure none := by
  cases rule <;> simp only [Rule.Reads, Option.not_isSome_iff_eq_none] at h
  case methodOpen | propertyOpen => rw [apply, applyMemberOpen, h]
  case methodClose => rw [apply, applyMethodClose, show readEnd? MemberKind.method.keywords _ = none from h]
  case propertyClose => rw [apply, applyPropertyClose, show readEnd? [.propertyKw] _ = none from h]
  case classOpen => rw [apply, applyClassOpen, h]
  case classClose => rw [apply, applyClassClose, h]
  case field => rw [apply, applyField, h]
  case dim => rw [apply, applyDim, h]
  case constant => rw [apply, applyConstant, h]

theorem consumeWith_eq (rules : List Rule) (k : Slots) (s : Statement) :
    consumeWith rules k s = firstOf (fun rule => apply rule k s) rules := by
  induction rules with
  | nil => rfl
  | cons rule rules ih =>
      rw [consumeWith, firstOf, ih]
      refine congrArg (apply rule k s >>= ·) (funext fun found => ?_)
      cases found <;> rfl

/-- A statement that a rule reads is answered by that rule, in whatever order they are asked. -/
theorem consumeWith_of_sole (hrules : rules.Perm Rule.all) (h : rule.Reads s) :
    consumeWith rules k s = ⟨(apply rule k s).value.map (rule, ·), (apply rule k s).problems⟩ := by
  rw [consumeWith_eq]
  exact firstOf_of_sole hrules fun other hne => apply_of_not_reads fun hother => hne (Rule.eq_of_reads hother h)

theorem consumeWith_perm (hrules : rules.Perm Rule.all) (k : Slots) (s : Statement) :
    consumeWith rules k s = consumeWith Rule.all k s := by
  rw [consumeWith_eq, consumeWith_eq]
  exact firstOf_perm hrules fun _ => apply_of_not_reads

/-! ### Statements that no rule takes -/

/-- Whether a filled slot is in the way of the headers of a rule. -/
def Bars (k : Slots) : Rule → Prop
  | .methodOpen | .propertyOpen => k.openMethod ≠ none ∨ k.openProperty ≠ none
  | .classOpen => k.openClass ≠ none ∨ k.openMethod ≠ none ∨ k.openProperty ≠ none
  | .methodClose | .propertyClose | .classClose | .field | .dim | .constant => False

theorem exists_openMember (h : k.openMethod ≠ none ∨ k.openProperty ≠ none) : ∃ c, k.openMember = some c := by
  rw [openMember]
  cases hproperty : k.openProperty with
  | some c => exact ⟨c, rfl⟩
  | none => exact Option.ne_none_iff_exists'.1 (h.resolve_right fun hne => hne hproperty)

theorem exists_outermost (h : k.openClass ≠ none ∨ k.openMethod ≠ none ∨ k.openProperty ≠ none) :
    ∃ c, (k.openClass <|> k.openMember) = some c := by
  cases hclass : k.openClass with
  | some c => exact ⟨c, rfl⟩
  | none => exact exists_openMember (h.resolve_left fun hne => hne hclass)

theorem applyMemberOpen_of_filled {kind : MemberKind} (hread : (MemberHeader.read? kind s.cursor).isSome)
    (hfilled : k.openMethod ≠ none ∨ k.openProperty ≠ none) :
    ∃ finding : Finding, finding.category = .structuralMismatch ∧
      applyMemberOpen kind k s = ⟨none, [finding.onLine s.line]⟩ := by
  obtain ⟨header, hread⟩ := Option.isSome_iff_exists.1 hread
  obtain ⟨current, hcurrent⟩ := exists_openMember hfilled
  refine ⟨.memberInside header.name.spelling current.name, rfl, ?_⟩
  rw [applyMemberOpen, hread, hcurrent]
  rfl

/-- A header that a filled slot is in the way of is reported once and declined. -/
theorem apply_of_barred (hreads : rule.Reads s) (hbars : k.Bars rule) :
    ∃ finding : Finding, finding.category = .structuralMismatch ∧
      apply rule k s = ⟨none, [finding.onLine s.line]⟩ := by
  cases rule with
  | methodOpen => exact applyMemberOpen_of_filled hreads hbars
  | propertyOpen => exact applyMemberOpen_of_filled hreads hbars
  | classOpen =>
      obtain ⟨name, hread⟩ := Option.isSome_iff_exists.1 hreads
      obtain ⟨current, hcurrent⟩ := exists_outermost hbars
      refine ⟨.classInside name.spelling current.name, rfl, ?_⟩
      rw [apply, applyClassOpen, hread, hcurrent]
      rfl
  | methodClose | propertyClose | classClose | field | dim | constant => exact hbars.elim

/-- A constant is declined while a slot for members is filled. -/
theorem apply_constant_inside (h : k.openMethod ≠ none ∨ k.openProperty ≠ none) :
    apply .constant k s = pure none := by
  obtain ⟨current, hcurrent⟩ := exists_openMember h
  rw [apply, applyConstant, hcurrent]
  split <;> rfl

end Slots

namespace SlotReading

variable {k : SlotReading} {s : Statement} {rule : Rule} {rules : List Rule}

/-- Reads a statement by rules that are tried in a given order. -/
def consumeBy (rules : List Rule) (k : SlotReading) (s : Statement) : Option Rule × SlotReading :=
  match k.absorb (Slots.consumeWith rules k.slots s) with
  | (some (rule, change), k) => (some rule, k.accept change)
  | (none, k) => (none, k)

theorem consumeBy_perm (hrules : rules.Perm Rule.all) (k : SlotReading) (s : Statement) :
    k.consumeBy rules s = k.consume s := by
  rw [consumeBy, Slots.consumeWith_perm hrules]
  rfl

/-- Where one rule reads a statement, every other leaves the reading as it is. -/
theorem applyRule_of_other {other : Rule} (hreads : rule.Reads s) (hne : other ≠ rule) :
    k.applyRule other s = (false, k) := by
  rw [applyRule, Slots.apply_of_not_reads fun hother => hne (Rule.eq_of_reads hother hreads)]
  rfl

theorem consumeBy_of_declined {problems : List Problem} (hrules : rules.Perm Rule.all) (hreads : rule.Reads s)
    (h : Slots.apply rule k.slots s = ⟨none, problems⟩) :
    k.consumeBy rules s = (none, { k with log := k.log.addAll problems }) := by
  rw [consumeBy, Slots.consumeWith_of_sole hrules hreads, h]
  rfl

/-- A barred opener is reported once and leaves the slots as they were. -/
theorem consumeBy_of_barred (hrules : rules.Perm Rule.all) (hreads : rule.Reads s) (hbars : k.slots.Bars rule) :
    ∃ finding : Finding, finding.category = .structuralMismatch ∧
      k.consumeBy rules s = (none, k.report (finding.onLine s.line)) ∧
      k.applyRule rule s = (false, k.report (finding.onLine s.line)) := by
  obtain ⟨finding, hcategory, happly⟩ := Slots.apply_of_barred hreads hbars
  refine ⟨finding, hcategory, consumeBy_of_declined hrules hreads happly, ?_⟩
  rw [applyRule, happly]
  rfl

theorem consumeBy_of_constant_inside (hrules : rules.Perm Rule.all) (hreads : Rule.constant.Reads s)
    (hfilled : k.slots.openMethod ≠ none ∨ k.slots.openProperty ≠ none) :
    k.consumeBy rules s = (none, k) ∧ ∀ rule, k.applyRule rule s = (false, k) := by
  have happly := Slots.apply_constant_inside (s := s) hfilled
  refine ⟨consumeBy_of_declined hrules hreads happly, fun rule => ?_⟩
  by_cases hrule : rule = .constant
  · rw [hrule, applyRule, happly]
    rfl
  · exact applyRule_of_other hreads hrule

end SlotReading

/-! ### One rule at most -/

/-- One rule at most reads a statement, and the order of the rules does not matter. A header that another block is in
the way of, and a constant inside of a member, are taken by no rule: the first is reported once as a structural
mismatch, and that is all that happens. It is so for open blocks and for slots, whatever these hold. -/
theorem consumed_by_one_rule (s : Statement) {rules : List Rule} (hrules : rules.Perm Rule.all) :
    (∀ rule rule' : Rule, rule.Reads s → rule'.Reads s → rule = rule') ∧
    (∀ r : Reading,
      r.consumeBy rules s = r.consume s ∧
      (∀ rule ∈ Rule.openers, rule.Reads s → ¬ rule.Acts r.blocks →
        ∃ finding : Finding, finding.category = .structuralMismatch ∧
          r.consumeBy rules s = (none, r.report (finding.onLine s.line)) ∧
          r.applyRule rule s = (false, r.report (finding.onLine s.line)) ∧
          ∀ other, other ≠ rule → r.applyRule other s = (false, r)) ∧
      (Rule.constant.Reads s → r.blocks.openMember ≠ none →
        r.consumeBy rules s = (none, r) ∧ ∀ rule, r.applyRule rule s = (false, r))) ∧
    ∀ k : SlotReading,
      k.consumeBy rules s = k.consume s ∧
      (∀ rule, rule.Reads s → k.slots.Bars rule →
        ∃ finding : Finding, finding.category = .structuralMismatch ∧
          k.consumeBy rules s = (none, k.report (finding.onLine s.line)) ∧
          k.applyRule rule s = (false, k.report (finding.onLine s.line)) ∧
          ∀ other, other ≠ rule → k.applyRule other s = (false, k)) ∧
      (Rule.constant.Reads s → k.slots.openMethod ≠ none ∨ k.slots.openProperty ≠ none →
        k.consumeBy rules s = (none, k) ∧ ∀ rule, k.applyRule rule s = (false, k)) := by
  refine ⟨fun rule rule' => Rule.eq_of_reads, fun r => ?_, fun k => ?_⟩
  · refine ⟨Reading.consumeBy_perm hrules r s, ?_, Reading.consumeBy_of_constant_inside hrules⟩
    intro rule hrule hreads hidle
    obtain ⟨finding, hcategory, hconsume, happly⟩ := Reading.consumeBy_of_rejected hrules hrule hreads hidle
    exact ⟨finding, hcategory, hconsume, happly, fun other => Reading.applyRule_of_other hreads⟩
  · refine ⟨SlotReading.consumeBy_perm hrules k s, ?_, SlotReading.consumeBy_of_constant_inside hrules⟩
    intro rule hreads hbars
    obtain ⟨finding, hcategory, hconsume, happly⟩ := SlotReading.consumeBy_of_barred hrules hreads hbars
    exact ⟨finding, hcategory, hconsume, happly, fun other => SlotReading.applyRule_of_other hreads⟩

/-- A reading with a method and a property open at once, which no document leads to. -/
def bothOpen : SlotReading where
  slots :=
    { openMethod := some (.ofMember ⟨.method, "sub", "f", ⟨0, 0⟩, ⟨⟨0, 4⟩, ⟨0, 5⟩⟩, 0, none, "", "Sub", []⟩)
      openProperty := some (.ofMember ⟨.property, "get", "p", ⟨1, 0⟩, ⟨⟨1, 13⟩, ⟨1, 14⟩⟩, 1, none, "", "Get", []⟩) }
  log := { limit := 100 }

/-- Inside of a method, the header of another one is taken by no rule, also when the rules are tried backwards and
when a property is open too. -/
theorem consumed_by_one_rule_backwards :
    let r := (Reading.start {}).consumeAll (statements "Class A\nSub f".toList)
    let s := Statement.alone "Private Sub g(x)".toList [] 0
    Rule.all.reverse.Perm Rule.all ∧ Rule.methodOpen.Reads s ∧ ¬ Rule.methodOpen.Acts r.blocks ∧
      bothOpen.slots.Bars .methodOpen ∧ r.consumeBy Rule.all.reverse s = r.consume s ∧
      (∃ finding : Finding, finding.category = .structuralMismatch ∧
        r.consumeBy Rule.all.reverse s = (none, r.report (finding.onLine s.line))) ∧
      ∃ finding : Finding, finding.category = .structuralMismatch ∧
        bothOpen.consumeBy Rule.all.reverse s = (none, bothOpen.report (finding.onLine s.line)) := by
  intro r s
  have hrules : Rule.all.reverse.Perm Rule.all := List.reverse_perm Rule.all
  have hreads : Rule.methodOpen.Reads s := by
    show (MemberHeader.read? .method s.cursor).isSome = true
    decide
  have hidle : ¬ Rule.methodOpen.Acts r.blocks := by
    show ¬ r.blocks.openMember = none
    decide +kernel
  have hbars : bothOpen.slots.Bars .methodOpen := Or.inl nofun
  obtain ⟨-, hblocks, hslots⟩ := consumed_by_one_rule s hrules
  obtain ⟨hsame, hrejected, -⟩ := hblocks r
  obtain ⟨finding, hcategory, hconsume, -⟩ := hrejected .methodOpen (by decide) hreads hidle
  obtain ⟨-, hbarred, -⟩ := hslots bothOpen
  obtain ⟨finding', hcategory', hconsume', -⟩ := hbarred .methodOpen hreads hbars
  exact ⟨hrules, hreads, hidle, hbars, hsame, ⟨finding, hcategory, hconsume⟩, finding', hcategory', hconsume'⟩

end VbOutline.Outline
