import VbOutline.Proofs.BlockForms

/-! Turns: exactly what a statement does while some blocks are open. `Turn` says which rule consumes it, which
blocks are open afterwards, which symbols are complete, and which blocks it reports as left open; and it says
when: a header opens a block unless another one is in its way, an end closes the block it is for, and nothing
else opens or closes anything. `Outcome` is the part of it that invariants of a whole reading go by. -/

namespace VbOutline

open Grammar Source Outline

/-! ### Blocks reported as left open -/

/-- The problems of blocks that were left open. -/
def dangling (problems : List Problem) : List Problem := problems.filter fun p => p.category = .danglingOpen

/-- The reports of blocks left open are found part by part. -/
theorem dangling_append (ps qs : List Problem) : dangling (ps ++ qs) = dangling ps ++ dangling qs :=
  List.filter_append ..

namespace Noted

variable {α β : Type}

/-- No block is reported as left open. -/
def Quiet (x : Noted α) : Prop := dangling x.problems = []

theorem Quiet.pure (a : α) : Quiet (Pure.pure a : Noted α) := rfl

/-- A computation is quiet when its first part and every continuation are. -/
theorem Quiet.bind {x : Noted α} {f : α → Noted β} (hx : x.Quiet) (hf : ∀ a, (f a).Quiet) : (x >>= f).Quiet := by
  rw [Quiet, problems_bind, dangling_append, hx, hf x.value]
  rfl

theorem Quiet.mapM {f : α → Noted β} (hf : ∀ a, (f a).Quiet) (l : List α) : (l.mapM f).Quiet := by
  induction l with
  | nil => exact .pure []
  | cons a l ih =>
      rw [List.mapM_cons]
      exact (hf a).bind fun _ => ih.bind fun _ => .pure _

end Noted

open Noted

theorem Source.Statement.note_quiet (s : Statement) {finding : Finding}
    (h : decide (finding.category = .danglingOpen) = false) : (s.note finding).Quiet := by
  show List.filter _ [finding.onLine s.line] = []
  rw [List.filter_cons_of_neg]
  · rfl
  · show ¬ decide (finding.category = .danglingOpen) = true
    rw [h]
    exact Bool.false_ne_true

namespace Outline

variable {b : OpenBlocks} {s : Statement} {m : OpenMember}

theorem position_quiet (s : Statement) (offset : Int) : (s.position offset).Quiet := by
  rw [Statement.position]
  split
  · exact .pure _
  · exact (s.note_quiet rfl).bind fun _ => .pure _

theorem range_quiet (s : Statement) (start stop : Int) : (s.range start stop).Quiet := by
  rw [Statement.range]
  split
  · exact .pure _
  · exact (s.note_quiet rfl).bind fun _ => .pure _

theorem openMember_quiet (kind : MemberKind) (s : Statement) (h : MemberHeader) : (openMember kind s h).Quiet := by
  have hparameters : (headerParameters s h).Quiet := by
    rw [headerParameters]
    split
    · rw [parameterSymbols]
      split
      · exact .mapM (fun p => (range_quiet s _ _).bind fun _ => (range_quiet s _ _).bind fun _ => .pure _) _
      · exact (s.note_quiet rfl).bind fun _ => .pure _
    · exact .pure _
  exact (position_quiet s _).bind fun _ => (range_quiet s _ _).bind fun _ => hparameters.bind fun _ => .pure _

theorem closeMember_quiet (b : OpenBlocks) (s : Statement) (m : OpenMember) : (closeMember b s m).Quiet :=
  ((range_quiet s _ _).bind fun _ => .pure _).bind fun _ => .pure _

theorem declaration_quiet {rule : Rule} (hrule : rule ∈ Rule.ofDeclarations) : (rule.apply b s).Quiet := by
  have hvariable : ∀ start e, (variableSymbol b s start e).Quiet := fun start e =>
    (range_quiet s _ _).bind fun _ => (range_quiet s _ _).bind fun _ => .pure _
  cases rule with
  | field =>
      simp only [Rule.apply, applyField]
      split
      · exact .pure _
      · exact ((range_quiet s _ _).bind fun _ => (range_quiet s _ _).bind fun _ => .pure _).bind fun _ => .pure _
  | dim =>
      simp only [Rule.apply, applyDim]
      split
      · exact .pure _
      · refine Quiet.bind ?_ fun _ => .pure _
        rw [variableSymbols]
        split
        · exact .pure _
        · exact (hvariable _ _).bind fun _ => (Quiet.mapM (fun e => hvariable _ e) _).bind fun _ => .pure _
  | constant =>
      simp only [Rule.apply, applyConstant]
      split
      · exact .pure _
      · split
        · exact .pure _
        · exact ((range_quiet s _ _).bind fun _ => (range_quiet s _ _).bind fun _ => .pure _).bind fun _ => .pure _
  | methodOpen | methodClose | propertyOpen | propertyClose | classOpen | classClose =>
      exact absurd hrule (by decide)

/-- A declaration never reports a block left open. -/
theorem declarations_quiet (b : OpenBlocks) (s : Statement) :
    (consumeWith Rule.ofDeclarations b s).Quiet := by
  have h : ∀ rules : List Rule, (∀ rule ∈ rules, rule ∈ Rule.ofDeclarations) → (consumeWith rules b s).Quiet := by
    intro rules
    induction rules with
    | nil => exact fun _ => .pure none
    | cons rule rules ih =>
        intro hrules
        refine (declaration_quiet (hrules rule List.mem_cons_self)).bind fun change => ?_
        cases change with
        | some change => exact .pure _
        | none => exact ih fun r hr => hrules r (List.mem_cons_of_mem rule hr)
  exact h _ fun _ hrule => hrule

/-! ### Turns -/

/-- The rule that opens members of a kind. -/
def opener : MemberKind → Rule
  | .method => .methodOpen
  | .property => .propertyOpen

/-- The rule that closes members of a kind. -/
def closer : MemberKind → Rule
  | .method => .methodClose
  | .property => .propertyClose

/-- Whether a rule for blocks acts on a statement of its form while some blocks are open. -/
def Rule.Acts (b : OpenBlocks) : Rule → Prop
  | .methodOpen | .propertyOpen => b.openMember = none
  | .classOpen => b.openClass = none ∧ b.openMember = none
  | .methodClose => b.memberOf .method ≠ none
  | .propertyClose => b.memberOf .property ≠ none
  | .classClose => b.openClass ≠ none
  | .field | .dim | .constant => False

/-- A turn of a statement: the rule that consumes it, the change it leads to, and the blocks it reports as left
open. -/
inductive Turn (b : OpenBlocks) (s : Statement) : Option Rule → Change → List Problem → Prop
  | memberOpened {kind : MemberKind} {h : MemberHeader} (hread : MemberHeader.read? kind s.cursor = some h)
      (hfree : b.openMember = none) :
      Turn b s (some (opener kind)) ⟨{ b with openMember := some (openMember kind s h).value }, []⟩ []
  | classOpened {name : Text.Lexeme} (hread : readClassHeader? s.cursor = some name) (hclass : b.openClass = none)
      (hmember : b.openMember = none) :
      Turn b s (some .classOpen) ⟨{ b with openClass := some (openedClass s name) }, []⟩ []
  | memberClosed {kind : MemberKind} {m : OpenMember} (hread : (readEnd? kind.words s.cursor).isSome)
      (hm : b.memberOf kind = some m) :
      Turn b s (some (closer kind)) ⟨{ b with openMember := none }, closedMember b s m :: m.parameters⟩ []
  | classClosed {c : OpenClass} (hread : (readEnd? [.classKw] s.cursor).isSome) (hc : b.openClass = some c) :
      Turn b s (some .classClose) ⟨{}, [closedClass s c]⟩
        (b.openMember.toList.map fun m => (Finding.openAtClassEnd m.keyword m.name c.name).onLine m.line)
  | passed {answer : Option Rule} {symbols : List Symbol} (hsymbols : symbols = [] ∨ Declaration b s symbols)
      (hanswer : answer ≠ some .classOpen ∧ ∀ kind, answer ≠ some (opener kind))
      (hidle : ∀ rule ∈ Rule.ofBlocks, rule.Reads s → ¬ rule.Acts b) : Turn b s answer ⟨b, symbols⟩ []

/-- Where a rule answers, the rules behind it are not asked. -/
theorem proceed_of_some {rule : Rule} {change : Change} (h : (rule.apply b s).value = some change)
    (rest : List Rule) : proceed rule rest b s = ⟨some (rule, change), (rule.apply b s).problems⟩ := by
  show (⟨_, _ ++ _⟩ : Noted _) = _
  rw [h]
  exact congrArg (Noted.mk _) (List.append_nil _)

/-- Where it declines, its reports stand before those of the rules behind it. -/
theorem proceed_of_none {rule : Rule} (h : (rule.apply b s).value = none) (rest : List Rule) :
    proceed rule rest b s =
      ⟨(consumeWith rest b s).value, (rule.apply b s).problems ++ (consumeWith rest b s).problems⟩ := by
  show (⟨_, _ ++ _⟩ : Noted _) = _
  rw [h]

theorem reads_opener (kind : MemberKind) :
    (opener kind).Reads s ↔ (MemberHeader.read? kind s.cursor).isSome = true := by
  cases kind <;> rfl

theorem reads_closer (kind : MemberKind) :
    (closer kind).Reads s ↔ (readEnd? kind.words s.cursor).isSome = true := by
  cases kind <;> rfl

theorem acts_opener (kind : MemberKind) : (opener kind).Acts b ↔ b.openMember = none := by
  cases kind <;> rfl

theorem acts_closer (kind : MemberKind) : (closer kind).Acts b ↔ b.memberOf kind ≠ none := by
  cases kind <;> rfl

/-- The block rules are an opener and a closer of each kind, and the two of classes. -/
theorem mem_ofBlocks {rule : Rule} (h : rule ∈ Rule.ofBlocks) :
    (∃ kind, rule = opener kind) ∨ (∃ kind, rule = closer kind) ∨ rule = .classOpen ∨ rule = .classClose := by
  cases rule with
  | methodOpen => exact .inl ⟨.method, rfl⟩
  | propertyOpen => exact .inl ⟨.property, rfl⟩
  | methodClose => exact .inr (.inl ⟨.method, rfl⟩)
  | propertyClose => exact .inr (.inl ⟨.property, rfl⟩)
  | classOpen => exact .inr (.inr (.inl rfl))
  | classClose => exact .inr (.inr (.inr rfl))
  | field | dim | constant => exact absurd h (by decide)

theorem apply_opener (kind : MemberKind) : (opener kind).apply b s = applyMemberOpen kind b s := by
  cases kind <;> rfl

/-- An opener with no member open opens one and reports nothing left open. -/
theorem apply_opener_free {kind : MemberKind} {h : MemberHeader}
    (hread : MemberHeader.read? kind s.cursor = some h) (hfree : b.openMember = none) :
    ((opener kind).apply b s).value = some ⟨{ b with openMember := some (openMember kind s h).value }, []⟩ ∧
      ((opener kind).apply b s).Quiet := by
  have hname : b.memberName = none := Option.map_eq_none_iff.2 hfree
  rw [apply_opener, applyMemberOpen, hread]
  simp only [hname]
  exact ⟨rfl, (openMember_quiet kind s h).bind fun _ => .pure _⟩

/-- An opener with a member open declines. -/
theorem apply_opener_busy {kind : MemberKind} (hread : (MemberHeader.read? kind s.cursor).isSome)
    (hbusy : b.openMember ≠ none) :
    ((opener kind).apply b s).value = none ∧ ((opener kind).apply b s).Quiet := by
  obtain ⟨h, hread⟩ := Option.isSome_iff_exists.1 hread
  rw [apply_opener, applyMemberOpen, hread]
  cases hname : b.memberName with
  | none => exact absurd (Option.map_eq_none_iff.1 hname) hbusy
  | some current => exact ⟨rfl, (s.note_quiet rfl).bind fun _ => .pure _⟩

theorem apply_classOpen_free {name : Text.Lexeme} (hread : readClassHeader? s.cursor = some name)
    (hclass : b.openClass = none) (hmember : b.openMember = none) :
    (Rule.classOpen.apply b s).value = some ⟨{ b with openClass := some (openedClass s name) }, []⟩ ∧
      (Rule.classOpen.apply b s).Quiet := by
  have hname : b.outermostName = none := outermostName_eq_none.2 ⟨hclass, hmember⟩
  rw [Rule.apply, applyClassOpen, hread]
  simp only [hname]
  exact ⟨rfl, (position_quiet s _).bind fun _ => (range_quiet s _ _).bind fun _ => .pure _⟩

/-- A class header inside any block declines. -/
theorem apply_classOpen_busy (hread : (readClassHeader? s.cursor).isSome)
    (hbusy : ¬ (b.openClass = none ∧ b.openMember = none)) :
    (Rule.classOpen.apply b s).value = none ∧ (Rule.classOpen.apply b s).Quiet := by
  obtain ⟨name, hread⟩ := Option.isSome_iff_exists.1 hread
  rw [Rule.apply, applyClassOpen, hread]
  cases hname : b.outermostName with
  | none => exact absurd (outermostName_eq_none.1 hname) hbusy
  | some current => exact ⟨rfl, (s.note_quiet rfl).bind fun _ => .pure _⟩

theorem apply_closer_open {kind : MemberKind} (hread : (readEnd? kind.words s.cursor).isSome)
    (hm : b.memberOf kind = some m) :
    ((closer kind).apply b s).value = some ⟨{ b with openMember := none }, closedMember b s m :: m.parameters⟩ ∧
      ((closer kind).apply b s).Quiet := by
  obtain ⟨sp, hread⟩ := Option.isSome_iff_exists.1 hread
  cases kind with
  | method =>
      have happly : (closer .method).apply b s = applyMethodClose b s := rfl
      rw [happly, applyMethodClose, show readEnd? MemberKind.method.keywords s.cursor = some sp from hread]
      simp only [hm]
      refine ⟨rfl, Quiet.bind ?_ fun _ => (closeMember_quiet b s m).bind fun _ => .pure _⟩
      rw [noteMismatch]
      split
      · exact .pure _
      · exact s.note_quiet rfl
  | property =>
      have happly : (closer .property).apply b s = applyPropertyClose b s := rfl
      rw [happly, applyPropertyClose, show readEnd? [.propertyKw] s.cursor = some sp from hread]
      simp only [hm]
      exact ⟨rfl, (closeMember_quiet b s m).bind fun _ => .pure _⟩

/-- An end with nothing to close is consumed and changes nothing. -/
theorem apply_closer_stray {kind : MemberKind} (hread : (readEnd? kind.words s.cursor).isSome)
    (hm : b.memberOf kind = none) :
    ((closer kind).apply b s).value = some { blocks := b } ∧ ((closer kind).apply b s).Quiet := by
  obtain ⟨sp, hread⟩ := Option.isSome_iff_exists.1 hread
  cases kind with
  | method =>
      have happly : (closer .method).apply b s = applyMethodClose b s := rfl
      rw [happly, applyMethodClose, show readEnd? MemberKind.method.keywords s.cursor = some sp from hread]
      simp only [hm]
      exact ⟨rfl, (s.note_quiet rfl).bind fun _ => .pure _⟩
  | property =>
      have happly : (closer .property).apply b s = applyPropertyClose b s := rfl
      rw [happly, applyPropertyClose, show readEnd? [.propertyKw] s.cursor = some sp from hread]
      simp only [hm]
      exact ⟨rfl, (s.note_quiet rfl).bind fun _ => .pure _⟩

theorem apply_classClose_open {c : OpenClass} (hread : (readEnd? [.classKw] s.cursor).isSome)
    (hc : b.openClass = some c) :
    (Rule.classClose.apply b s).value = some ⟨{}, [closedClass s c]⟩ ∧
      dangling (Rule.classClose.apply b s).problems =
        b.openMember.toList.map fun m => (Finding.openAtClassEnd m.keyword m.name c.name).onLine m.line := by
  obtain ⟨sp, hread⟩ := Option.isSome_iff_exists.1 hread
  rw [Rule.apply, applyClassClose, hread]
  simp only [hc]
  refine ⟨rfl, ?_⟩
  have hrange : (closedRange c.start s).Quiet := (range_quiet s _ _).bind fun _ => .pure _
  rw [problems_bind, dangling_append, hrange.bind fun _ => .pure _, List.append_nil, noteOpenMember]
  cases b.openMember <;> rfl

theorem apply_classClose_stray (hread : (readEnd? [.classKw] s.cursor).isSome) (hc : b.openClass = none) :
    (Rule.classClose.apply b s).value = some { blocks := b } ∧ (Rule.classClose.apply b s).Quiet := by
  obtain ⟨sp, hread⟩ := Option.isSome_iff_exists.1 hread
  rw [Rule.apply, applyClassClose, hread]
  simp only [hc]
  exact ⟨rfl, (s.note_quiet rfl).bind fun _ => .pure _⟩

/-- What a statement does, as its rule says. -/
def Takes (b : OpenBlocks) (s : Statement) : Prop :=
  Turn b s ((consume b s).value.map Prod.fst) (step b s).value (dangling (consume b s).problems)

/-- A block rule that answers is the one that took the statement. -/
theorem takes_of_some {rule : Rule} {change : Change} (hrule : rule ∈ Rule.ofBlocks) (hreads : rule.Reads s)
    (h : (rule.apply b s).value = some change)
    (hturn : Turn b s (some rule) change (dangling (rule.apply b s).problems)) : Takes b s := by
  have hconsume := (consume_of_reads hrule hreads).trans (proceed_of_some h _)
  have hvalue : (consume b s).value = some (rule, change) := by rw [hconsume]
  rw [Takes, step_of_some hvalue, hconsume]
  exact hturn

/-- Where every block rule that reads the statement is idle, the declarations take it. -/
theorem takes_of_declined (hvalue : (consume b s).value = (consumeWith Rule.ofDeclarations b s).value)
    (hquiet : (consume b s).Quiet) (hidle : ∀ rule ∈ Rule.ofBlocks, rule.Reads s → ¬ rule.Acts b) :
    Takes b s := by
  rw [Takes, hquiet]
  cases hdeclared : (consumeWith Rule.ofDeclarations b s).value with
  | none =>
      rw [hdeclared] at hvalue
      rw [step_of_none hvalue, hvalue]
      exact .passed (.inl rfl) ⟨nofun, fun _ => nofun⟩ hidle
  | some found =>
      obtain ⟨rule, blocks, symbols⟩ := found
      rw [hdeclared] at hvalue
      rw [step_of_some hvalue, hvalue]
      obtain ⟨hrule, happly⟩ := consumeWith_some hdeclared
      obtain ⟨hblocks, hsymbols⟩ := apply_declaration hrule happly
      cases hblocks
      refine .passed (.inr hsymbols) ⟨?_, fun kind => ?_⟩ hidle
      · rintro ⟨⟩
        exact absurd hrule (by decide)
      · cases kind <;> rintro ⟨⟩ <;> exact absurd hrule (by decide)

theorem takes_of_stray {rule : Rule} (hrule : rule ∈ Rule.ofBlocks) (hreads : rule.Reads s)
    (h : (rule.apply b s).value = some { blocks := b } ∧ (rule.apply b s).Quiet)
    (hcloses : rule ≠ .classOpen ∧ ∀ kind, rule ≠ opener kind) (hidle : ¬ rule.Acts b) : Takes b s := by
  refine takes_of_some hrule hreads h.1 ?_
  rw [h.2]
  refine .passed (.inl rfl) ⟨?_, fun kind => ?_⟩ fun rule' hrule' hreads' => ?_
  · exact fun heq => hcloses.1 (Option.some.inj heq)
  · exact fun heq => hcloses.2 kind (Option.some.inj heq)
  · rwa [Rule.reads_unique hrule' hrule hreads' hreads]

theorem takes_of_rejected {rule : Rule} (hrule : rule ∈ Rule.ofBlocks) (hreads : rule.Reads s)
    (h : (rule.apply b s).value = none ∧ (rule.apply b s).Quiet) (hidle : ¬ rule.Acts b) : Takes b s := by
  have hconsume := (consume_of_reads hrule hreads).trans (proceed_of_none h.1 _)
  refine takes_of_declined (by rw [hconsume]) ?_ fun rule' hrule' hreads' => ?_
  · rw [Quiet, hconsume, dangling_append, h.2, List.nil_append]
    exact declarations_quiet b s
  · rwa [Rule.reads_unique hrule' hrule hreads' hreads]

/-- Every statement takes one of these turns. -/
theorem takes (b : OpenBlocks) (s : Statement) : Takes b s := by
  by_cases hany : ∃ rule ∈ Rule.ofBlocks, rule.Reads s
  · obtain ⟨rule, hrule, hreads⟩ := hany
    obtain ⟨kind, rfl⟩ | ⟨kind, rfl⟩ | rfl | rfl := mem_ofBlocks hrule
    · have hread := (reads_opener kind).1 hreads
      by_cases hfree : b.openMember = none
      · obtain ⟨h, hheader⟩ := Option.isSome_iff_exists.1 hread
        obtain ⟨hvalue, hquiet⟩ := apply_opener_free hheader hfree
        refine takes_of_some hrule hreads hvalue ?_
        rw [hquiet]
        exact .memberOpened hheader hfree
      · exact takes_of_rejected hrule hreads (apply_opener_busy hread hfree) fun hacts =>
          hfree ((acts_opener kind).1 hacts)
    · have hread := (reads_closer kind).1 hreads
      cases hm : b.memberOf kind with
      | none =>
          refine takes_of_stray hrule hreads (apply_closer_stray hread hm) ?_ fun hacts =>
            (acts_closer kind).1 hacts hm
          cases kind <;> exact ⟨nofun, fun kind' => by cases kind' <;> nofun⟩
      | some m =>
          obtain ⟨hvalue, hquiet⟩ := apply_closer_open hread hm
          refine takes_of_some hrule hreads hvalue ?_
          rw [hquiet]
          exact .memberClosed hread hm
    · by_cases hfree : b.openClass = none ∧ b.openMember = none
      · obtain ⟨name, hheader⟩ := Option.isSome_iff_exists.1 hreads
        obtain ⟨hvalue, hquiet⟩ := apply_classOpen_free hheader hfree.1 hfree.2
        refine takes_of_some hrule hreads hvalue ?_
        rw [hquiet]
        exact .classOpened hheader hfree.1 hfree.2
      · exact takes_of_rejected hrule hreads (apply_classOpen_busy hreads hfree) hfree
    · cases hc : b.openClass with
      | none =>
          exact takes_of_stray hrule hreads (apply_classClose_stray hreads hc)
            ⟨nofun, fun kind => by cases kind <;> nofun⟩ fun hacts => hacts hc
      | some c =>
          obtain ⟨hvalue, hproblems⟩ := apply_classClose_open hreads hc
          refine takes_of_some hrule hreads hvalue ?_
          rw [hproblems]
          exact .classClosed hreads hc
  · have hnone : ∀ rule ∈ Rule.ofBlocks, ¬ rule.Reads s := fun rule hrule hreads => hany ⟨rule, hrule, hreads⟩
    have hconsume := consume_of_not_reads (b := b) hnone
    refine takes_of_declined (by rw [hconsume]) ?_ fun rule hrule hreads => absurd hreads (hnone rule hrule)
    rw [hconsume]
    exact declarations_quiet b s

/-! ### Outcomes -/

/-- What is left of a turn for a reader who asks neither for the rule nor for what the statement looks like: the
open blocks and the symbols that are complete, given the problems noted on the way. A class that closes over an
open member leaves a problem. -/
inductive Outcome (b : OpenBlocks) (s : Statement) (problems : List Problem) : Change → Prop
  | idle : Outcome b s problems ⟨b, []⟩
  | declared {symbols : List Symbol} (h : Declaration b s symbols) : Outcome b s problems ⟨b, symbols⟩
  | memberOpened {kind : MemberKind} {h : MemberHeader} (hread : MemberHeader.read? kind s.cursor = some h)
      (hfree : b.openMember = none) :
      Outcome b s problems ⟨{ b with openMember := some (openMember kind s h).value }, []⟩
  | classOpened {name : Text.Lexeme} (hread : readClassHeader? s.cursor = some name)
      (hfree : b.openClass = none) (hfree' : b.openMember = none) :
      Outcome b s problems ⟨{ b with openClass := some (openedClass s name) }, []⟩
  | memberClosed {m : OpenMember} (hm : b.openMember = some m) :
      Outcome b s problems ⟨{ b with openMember := none }, closedMember b s m :: m.parameters⟩
  | classClosed {c : OpenClass} (hc : b.openClass = some c)
      (hdropped : b.openMember ≠ none → ∃ p ∈ problems, p.category = .danglingOpen) :
      Outcome b s problems ⟨{}, [closedClass s c]⟩

theorem Turn.outcome {answer : Option Rule} {change : Change} {left problems : List Problem}
    (h : Turn b s answer change left) (hleft : left = dangling problems) : Outcome b s problems change := by
  cases h with
  | memberOpened hread hfree => exact .memberOpened hread hfree
  | classOpened hread hclass hmember => exact .classOpened hread hclass hmember
  | memberClosed _ hm => exact .memberClosed (openMember_of_memberOf hm)
  | classClosed _ hc =>
      refine .classClosed hc fun hne => ?_
      obtain ⟨m, hm⟩ := Option.ne_none_iff_exists'.1 hne
      rw [hm, Option.toList_some, List.map_singleton] at hleft
      have hreported := hleft ▸ List.mem_singleton_self _
      obtain ⟨hmem, -⟩ := List.mem_filter.1 hreported
      exact ⟨_, hmem, rfl⟩
  | passed hsymbols =>
      rcases hsymbols with rfl | hdeclared
      · exact .idle
      · exact .declared hdeclared

/-- Every step ends in one of the outcomes. -/
theorem step_outcome (b : OpenBlocks) (s : Statement) : Outcome b s (step b s).problems (step b s).value := by
  rw [step_problems]
  exact (takes b s).outcome rfl

/-! ### Which turn it is -/

section Which

variable {answer : Option Rule} {change : Change} {left : List Problem} {kind : MemberKind}

theorem opener_mem (kind : MemberKind) : opener kind ∈ Rule.ofBlocks := by cases kind <;> decide

theorem closer_mem (kind : MemberKind) : closer kind ∈ Rule.ofBlocks := by cases kind <;> decide

theorem opener_injective : Function.Injective opener := by
  intro kind kind' h
  cases kind <;> cases kind' <;> first | rfl | cases h

theorem closer_injective : Function.Injective closer := by
  intro kind kind' h
  cases kind <;> cases kind' <;> first | rfl | cases h

theorem opener_ne_closer (kind kind' : MemberKind) : opener kind ≠ closer kind' := by
  cases kind <;> cases kind' <;> nofun

theorem opener_ne_classOpen (kind : MemberKind) : opener kind ≠ .classOpen := by
  cases kind <;> nofun

theorem opener_ne_classClose (kind : MemberKind) : opener kind ≠ .classClose := by
  cases kind <;> nofun

theorem closer_ne_classOpen (kind : MemberKind) : closer kind ≠ .classOpen := by
  cases kind <;> nofun

theorem closer_ne_classClose (kind : MemberKind) : closer kind ≠ .classClose := by
  cases kind <;> nofun

/-- The rule that reads a statement and acts on it consumes it. -/
theorem Turn.answer_eq (h : Turn b s answer change left) {rule : Rule} (hrule : rule ∈ Rule.ofBlocks)
    (hreads : rule.Reads s) (hacts : rule.Acts b) : answer = some rule := by
  cases h with
  | memberOpened hread =>
      exact congrArg some (Rule.reads_unique (opener_mem _) hrule
        ((reads_opener _).2 (Option.isSome_of_eq_some hread)) hreads)
  | classOpened hread =>
      exact congrArg some (Rule.reads_unique (by decide) hrule (Option.isSome_of_eq_some hread) hreads)
  | memberClosed hread =>
      exact congrArg some (Rule.reads_unique (closer_mem _) hrule ((reads_closer _).2 hread) hreads)
  | classClosed hread => exact congrArg some (Rule.reads_unique (by decide) hrule hread hreads)
  | passed _ _ hidle => exact absurd hacts (hidle rule hrule hreads)

theorem Turn.of_opener (h : Turn b s answer change left) (hanswer : answer = some (opener kind)) :
    (MemberHeader.read? kind s.cursor).isSome ∧ b.openMember = none := by
  cases h with
  | memberOpened hread hfree =>
      cases opener_injective (Option.some.inj hanswer)
      exact ⟨Option.isSome_of_eq_some hread, hfree⟩
  | classOpened => exact absurd (Option.some.inj hanswer).symm (opener_ne_classOpen kind)
  | memberClosed => exact absurd (Option.some.inj hanswer).symm (opener_ne_closer kind _)
  | classClosed => exact absurd (Option.some.inj hanswer).symm (opener_ne_classClose kind)
  | passed _ hopens => exact absurd hanswer (hopens.2 kind)

theorem Turn.of_classOpen (h : Turn b s answer change left) (hanswer : answer = some .classOpen) :
    (readClassHeader? s.cursor).isSome ∧ b.openClass = none ∧ b.openMember = none := by
  cases h with
  | memberOpened => exact absurd (Option.some.inj hanswer) (opener_ne_classOpen _)
  | classOpened hread hclass hmember => exact ⟨Option.isSome_of_eq_some hread, hclass, hmember⟩
  | memberClosed => exact absurd (Option.some.inj hanswer) (closer_ne_classOpen _)
  | classClosed => cases hanswer
  | passed _ hopens => exact absurd hanswer hopens.1

theorem Turn.of_closer (h : Turn b s answer change left) (hread : (readEnd? kind.words s.cursor).isSome)
    {m : OpenMember} (hm : b.memberOf kind = some m) : change.symbols = closedMember b s m :: m.parameters := by
  have hacts : (closer kind).Acts b := by
    rw [acts_closer, hm]
    nofun
  have hanswer : answer = some (closer kind) :=
    h.answer_eq (closer_mem kind) ((reads_closer kind).2 hread) hacts
  cases h with
  | memberOpened => exact absurd (Option.some.inj hanswer) (opener_ne_closer _ kind)
  | classOpened => exact absurd (Option.some.inj hanswer).symm (closer_ne_classOpen kind)
  | memberClosed _ hm' =>
      cases closer_injective (Option.some.inj hanswer)
      cases hm.symm.trans hm'
      rfl
  | classClosed => exact absurd (Option.some.inj hanswer).symm (closer_ne_classClose kind)
  | passed _ _ hidle => exact absurd hacts (hidle _ (closer_mem kind) ((reads_closer kind).2 hread))

theorem Turn.of_classClose (h : Turn b s answer change left) (hread : (readEnd? [.classKw] s.cursor).isSome)
    {c : OpenClass} (hc : b.openClass = some c) :
    change.symbols = [closedClass s c] ∧ left = b.openMember.toList.map fun m =>
      (Finding.openAtClassEnd m.keyword m.name c.name).onLine m.line := by
  have hacts : Rule.classClose.Acts b := by
    show b.openClass ≠ none
    rw [hc]
    nofun
  have hanswer : answer = some .classClose := h.answer_eq (by decide) hread hacts
  cases h with
  | memberOpened => exact absurd (Option.some.inj hanswer) (opener_ne_classClose _)
  | classOpened => cases hanswer
  | memberClosed => exact absurd (Option.some.inj hanswer) (closer_ne_classClose _)
  | classClosed _ hc' =>
      cases hc.symm.trans hc'
      exact ⟨rfl, rfl⟩
  | passed _ _ hidle => exact absurd hacts (hidle _ (by decide) hread)

/-- A statement that closes no block completes none. -/
theorem Turn.of_not_closing (h : Turn b s answer change left)
    (hmember : ∀ kind, (readEnd? kind.words s.cursor).isSome → b.memberOf kind = none)
    (hclass : (readEnd? [.classKw] s.cursor).isSome → b.openClass = none) :
    change.symbols = [] ∨ Declaration b s change.symbols := by
  cases h with
  | memberOpened => exact .inl rfl
  | classOpened => exact .inl rfl
  | memberClosed hread hm =>
      rw [hmember _ hread] at hm
      cases hm
  | classClosed hread hc =>
      rw [hclass hread] at hc
      cases hc
  | passed hsymbols => exact hsymbols

/-- Only the end of a class reports a block as left open. -/
theorem Turn.left_eq_nil (h : Turn b s answer change left)
    (hclass : (readEnd? [.classKw] s.cursor).isSome → b.openClass = none) : left = [] := by
  cases h with
  | memberOpened => rfl
  | classOpened => rfl
  | memberClosed => rfl
  | classClosed hread hc =>
      rw [hclass hread] at hc
      cases hc
  | passed => rfl

end Which

end Outline

end VbOutline
