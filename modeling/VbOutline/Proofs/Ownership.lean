import VbOutline.Proofs.Pairing
import VbOutline.Proofs.Slots

/-! What the slots hold after any operations in any order. A method and a property are never open at once, each slot
holds constructs of its own kind, and a construct owns the parameters it holds. While a member is open its class
stays where it is, so the symbol of a member belongs to the class that was open when its header was accepted. -/

namespace VbOutline.Outline

open Grammar Source

/-! ### What an operation does -/

/-- What an operation, if there is one, does to the open blocks, the rule that consumes its statement and the symbols
it completes. -/
inductive Effect (b : OpenBlocks) (op : Option Operation) : Option Rule → Change → Prop
  | turn {s : Statement} {answer : Option Rule} {change : Change} {left : List Problem}
      (h : Turn b s answer change left) : Effect b op answer change
  | idle : Effect b op none ⟨b, []⟩
  | concluded (h : op = some .conclude) : Effect b op none ⟨{}, []⟩

theorem perform_effect (r : Reading) (op : Operation) :
    ∃ change, Effect r.blocks (some op) (r.answer op) change ∧ (r.perform op).blocks = change.blocks ∧
      (r.perform op).symbols.toList = r.symbols.toList ++ change.symbols := by
  cases op with
  | consume s =>
      refine ⟨(step r.blocks s).value, ?_⟩
      rw [Reading.answer, Reading.perform, consume_eq]
      exact ⟨.turn (takes r.blocks s), rfl, Array.toList_append⟩
  | apply rule s =>
      rw [Reading.answer, Reading.perform, Reading.applyRule, Reading.absorb]
      cases happly : (rule.apply r.blocks s).value with
      | none => exact ⟨⟨r.blocks, []⟩, .idle, rfl, (List.append_nil _).symm⟩
      | some change =>
          have hconsume := consume_of_apply happly
          have hturn := takes r.blocks s
          rw [Takes, step_of_some (by rw [hconsume]), hconsume] at hturn
          exact ⟨change, .turn hturn, rfl, Array.toList_append⟩
  | position | range | report => exact ⟨⟨r.blocks, []⟩, .idle, rfl, (List.append_nil _).symm⟩
  | conclude => exact ⟨⟨{}, []⟩, .concluded rfl, rfl, (List.append_nil _).symm⟩

/-! ### Parameters -/

/-- The parameters of a member are variables that belong to it. -/
def OpenMember.Owns (m : OpenMember) : Prop :=
  ∀ p ∈ m.parameters, p.kind = .variableDef ∧ p.parent = some m.name

theorem openMember_owns (kind : MemberKind) (s : Statement) (h : MemberHeader) : (openMember kind s h).value.Owns :=
  fun _ hp => headerParameters_owned hp

theorem symbolKind_injective : Function.Injective symbolKind := by
  intro kind kind' h
  cases kind <;> cases kind' <;> first | rfl | cases h

section Effects

variable {b : OpenBlocks} {op : Option Operation} {answer : Option Rule} {change : Change}

theorem Effect.owns (h : Effect b op answer change) (hb : ∀ m, b.openMember = some m → m.Owns) {m : OpenMember}
    (hm : change.blocks.openMember = some m) : m.Owns := by
  cases h with
  | turn h =>
      cases h with
      | memberOpened =>
          rw [← Option.some.inj hm]
          exact openMember_owns _ _ _
      | classOpened => exact hb m hm
      | memberClosed => cases hm
      | classClosed => cases hm
      | passed => exact hb m hm
  | idle => exact hb m hm
  | concluded => cases hm

/-- While a member is open, its class stays open unless all blocks are closed. -/
theorem Effect.class_kept (h : Effect b op answer change) (hmember : b.openMember ≠ none) :
    change.blocks.openClass = b.openClass ∨
      change.blocks = {} ∧ (answer = some .classClose ∨ op = some .conclude) := by
  cases h with
  | turn h =>
      cases h with
      | memberOpened _ hfree => exact absurd hfree hmember
      | classOpened _ _ hfree => exact absurd hfree hmember
      | memberClosed => exact .inl rfl
      | classClosed => exact .inr ⟨rfl, .inl rfl⟩
      | passed => exact .inl rfl
  | idle => exact .inl rfl
  | concluded h => exact .inr ⟨rfl, .inr h⟩

/-- A member that is open afterwards was open before under the same class, or its header was just accepted. -/
theorem Effect.member_kept (h : Effect b op answer change) {m : OpenMember} (hm : change.blocks.openMember = some m) :
    change.blocks.openClass = b.openClass ∧ (b.openMember = some m ∨ answer = some (opener m.kind)) := by
  cases h with
  | turn h =>
      cases h with
      | memberOpened =>
          cases hm
          exact ⟨rfl, .inr rfl⟩
      | classOpened _ _ hfree =>
          rw [show b.openMember = some m from hm] at hfree
          cases hfree
      | memberClosed => cases hm
      | classClosed => cases hm
      | passed => exact ⟨rfl, .inl hm⟩
  | idle => exact ⟨rfl, .inl hm⟩
  | concluded => cases hm

/-- Only a member that is closed becomes a method or a property, under the class that is open. -/
theorem Effect.member_closed (h : Effect b op answer change) (hb : ∀ m, b.openMember = some m → m.Owns) {x : Symbol}
    (hx : x ∈ change.symbols) {kind : MemberKind} (hkind : x.kind = symbolKind kind) :
    ∃ m, b.openMember = some m ∧ m.kind = kind ∧ x.name = m.name ∧ x.parent = b.className := by
  have hblock : x.kind.isBlock = true := hkind ▸ isBlock_symbolKind kind
  cases h with
  | turn h =>
      cases h with
      | memberOpened => cases hx
      | classOpened => cases hx
      | memberClosed _ hm =>
          have hopen := openMember_of_memberOf hm
          rcases List.mem_cons.1 hx with rfl | hx
          · exact ⟨_, hopen, symbolKind_injective hkind, rfl, rfl⟩
          · rw [(hb _ hopen x hx).1] at hblock
            cases hblock
      | classClosed =>
          cases List.mem_singleton.1 hx
          cases kind <;> cases hkind
      | passed hsymbols =>
          rcases hsymbols with rfl | hdeclared
          · cases hx
          · rw [hdeclared.not_isBlock x hx] at hblock
            cases hblock
  | idle => cases hx
  | concluded => cases hx

end Effects

/-! ### Runs of operations -/

section Runs

variable (settings : Settings) (ops : List Operation)

/-- The reading before the operation with a number. -/
def performedAt (n : Nat) : Reading := (ops.take n).foldl Reading.perform (Reading.start settings)

/-- The reading in slots before the operation with a number. -/
def slotsAt (n : Nat) : SlotReading := (ops.take n).foldl SlotReading.perform (SlotReading.start settings)

/-- The rule that consumes the statement of the operation with a number. -/
def consumedBy (n : Nat) : Option Rule := ops[n]?.bind (slotsAt settings ops n).answer

/-- The symbols that the operation with a number adds. -/
def emittedAt (n : Nat) : List Symbol :=
  (slotsAt settings ops (n + 1)).symbols.toList.drop (slotsAt settings ops n).symbols.size

/-- The member in the slot of a kind was accepted as number `i`, and since then it has been there under the same
class. -/
def MemberSince (n : Nat) (kind : MemberKind) (c : Construct) (i : Nat) : Prop :=
  i < n ∧ consumedBy settings ops i = some (opener kind) ∧ ∀ j, i < j → j ≤ n →
    (slotsAt settings ops j).slots.member kind = some c ∧
      (slotsAt settings ops j).slots.openClass = (slotsAt settings ops i).slots.openClass

end Runs

/-- What slots hold at any time. -/
structure Slots.Sound (k : Slots) : Prop where
  exclusive : k.openMethod = none ∨ k.openProperty = none
  class_kind : ∀ c, k.openClass = some c → c.kind = .classDef ∧ c.parameters = []
  member_kind : ∀ kind c, k.member kind = some c → c.kind = symbolKind kind
  parameters : ∀ kind c, k.member kind = some c → ∀ p ∈ c.parameters, p.kind = .variableDef ∧ p.parent = some c.name

/-- What holds of slots after any operations, and of each operation. -/
structure Orderly (settings : Settings) (ops : List Operation) : Prop where
  /-- The slots show the open blocks of the reading. -/
  in_step : ∀ n, slotsAt settings ops n = .ofReading (performedAt settings ops n)
  sound : ∀ n, (slotsAt settings ops n).slots.Sound
  /-- Symbols are only ever added at the end. -/
  appended : ∀ n, (slotsAt settings ops (n + 1)).symbols.toList =
    (slotsAt settings ops n).symbols.toList ++ emittedAt settings ops n
  /-- The class of an open member changes only when all slots are emptied. -/
  class_kept : ∀ n, (slotsAt settings ops n).slots.openMember ≠ none →
    (slotsAt settings ops (n + 1)).slots.openClass = (slotsAt settings ops n).slots.openClass ∨
      (slotsAt settings ops (n + 1)).slots = {} ∧
        (consumedBy settings ops n = some .classClose ∨ ops[n]? = some .conclude)
  /-- A method or a property belongs to the class that was open when its header was accepted. -/
  member_parent : ∀ n, ∀ x ∈ emittedAt settings ops n, ∀ kind, x.kind = symbolKind kind →
    ∃ i c, MemberSince settings ops n kind c i ∧ x.name = c.name ∧
      x.parent = (slotsAt settings ops i).slots.className
  concluded : ∀ n, ops[n]? = some .conclude → (slotsAt settings ops (n + 1)).slots = {}

section Laws

variable {settings : Settings} {ops : List Operation} {n : Nat} {op : Operation}

theorem performedAt_succ (hop : ops[n]? = some op) :
    performedAt settings ops (n + 1) = (performedAt settings ops n).perform op := by
  rw [performedAt, List.take_add_one, hop, List.foldl_append]
  rfl

theorem performedAt_of_none (hop : ops[n]? = none) :
    performedAt settings ops (n + 1) = performedAt settings ops n := by
  rw [performedAt, performedAt, List.take_add_one, hop, Option.toList_none, List.append_nil]

/-- Slots and open blocks stay in step. -/
theorem slotsAt_eq (settings : Settings) (ops : List Operation) (n : Nat) :
    slotsAt settings ops n = .ofReading (performedAt settings ops n) := by
  have h : ∀ (rest : List Operation) (r : Reading), rest.foldl SlotReading.perform (.ofReading r) =
      .ofReading (rest.foldl Reading.perform r) := by
    intro rest
    induction rest with
    | nil => exact fun r => rfl
    | cons op rest ih =>
        intro r
        rw [List.foldl_cons, (SlotReading.perform_inStep r op).1, ih]
        rfl
  exact h (ops.take n) (Reading.start settings)

theorem slots_slotsAt : (slotsAt settings ops n).slots = .ofBlocks (performedAt settings ops n).blocks := by
  rw [slotsAt_eq]
  rfl

theorem symbols_slotsAt : (slotsAt settings ops n).symbols = (performedAt settings ops n).symbols := by
  rw [slotsAt_eq]
  rfl

/-- What the operation with a number does. -/
theorem effectAt (settings : Settings) (ops : List Operation) (n : Nat) :
    ∃ change, Effect (performedAt settings ops n).blocks ops[n]? (consumedBy settings ops n) change ∧
      (performedAt settings ops (n + 1)).blocks = change.blocks ∧
      (performedAt settings ops (n + 1)).symbols.toList =
        (performedAt settings ops n).symbols.toList ++ change.symbols := by
  cases hop : ops[n]? with
  | none =>
      rw [performedAt_of_none hop, consumedBy, hop]
      exact ⟨⟨_, []⟩, .idle, rfl, (List.append_nil _).symm⟩
  | some op =>
      have hanswer : consumedBy settings ops n = (performedAt settings ops n).answer op := by
        rw [consumedBy, hop, slotsAt_eq]
        exact (SlotReading.perform_inStep _ op).2
      rw [performedAt_succ hop, hanswer]
      exact perform_effect _ op

theorem emittedAt_eq {change : Change} (h : (performedAt settings ops (n + 1)).symbols.toList =
    (performedAt settings ops n).symbols.toList ++ change.symbols) : emittedAt settings ops n = change.symbols := by
  rw [emittedAt, symbols_slotsAt, symbols_slotsAt, h, ← Array.length_toList, List.drop_left]

theorem owns_performedAt (settings : Settings) (ops : List Operation) (n : Nat) (m : OpenMember)
    (hm : (performedAt settings ops n).blocks.openMember = some m) : m.Owns := by
  induction n generalizing m with
  | zero => cases hm
  | succ n ih =>
      obtain ⟨change, heffect, hblocks, -⟩ := effectAt settings ops n
      exact heffect.owns ih (hblocks ▸ hm)

/-- A member in its slot got there when its header was accepted, and its class has been the same since. -/
theorem exists_memberSince {kind : MemberKind} {c : Construct}
    (hc : (slotsAt settings ops n).slots.member kind = some c) : ∃ i, MemberSince settings ops n kind c i := by
  induction n with
  | zero => cases kind <;> cases hc
  | succ n ih =>
      obtain ⟨change, heffect, hblocks, -⟩ := effectAt settings ops n
      have hslot := hc
      rw [slots_slotsAt, hblocks, Slots.member_eq_some_iff] at hslot
      obtain ⟨m, hopen, rfl, rfl⟩ := hslot
      obtain ⟨hclass, hbefore⟩ := heffect.member_kept hopen
      have hkept : (slotsAt settings ops (n + 1)).slots.openClass = (slotsAt settings ops n).slots.openClass := by
        rw [slots_slotsAt, slots_slotsAt, hblocks]
        exact congrArg (Option.map Construct.ofClass) hclass
      rcases hbefore with hbefore | hanswer
      · -- The member was there before: what is known up to operation `n` goes on for one more.
        have hheld : (slotsAt settings ops n).slots.member m.kind = some (.ofMember m) := by
          rw [slots_slotsAt]
          exact Slots.member_eq_some_iff.2 ⟨m, hbefore, rfl, rfl⟩
        obtain ⟨i, hlt, hanswer, hsince⟩ := ih hheld
        refine ⟨i, Nat.lt_succ_of_lt hlt, hanswer, fun j hij hjn => ?_⟩
        rcases Nat.lt_or_ge n j with hnj | hjn'
        · cases Nat.le_antisymm hjn hnj
          exact ⟨hc, hkept.trans (hsince n hlt (Nat.le_refl n)).2⟩
        · exact hsince j hij hjn'
      · refine ⟨n, Nat.lt_succ_self n, hanswer, fun j hij hjn => ?_⟩
        cases Nat.le_antisymm hjn hij
        exact ⟨hc, hkept⟩

/-- The slots of open blocks are sound if the open member owns its parameters. -/
theorem Slots.ofBlocks_sound {b : OpenBlocks} (hb : ∀ m, b.openMember = some m → m.Owns) : (ofBlocks b).Sound := by
  constructor
  case exclusive =>
    cases hm : b.openMember with
    | none => exact .inl (by rw [ofBlocks_of_none hm])
    | some m =>
        rw [ofBlocks_of_some hm]
        cases m.kind with
        | method => exact .inr rfl
        | property => exact .inl rfl
  case class_kind =>
    intro c hc
    obtain ⟨openClass, -, rfl⟩ := Option.map_eq_some_iff.1 hc
    exact ⟨rfl, rfl⟩
  case member_kind =>
    intro kind c hc
    obtain ⟨m, -, hkind, rfl⟩ := member_eq_some_iff.1 hc
    exact congrArg symbolKind hkind
  case parameters =>
    intro kind c hc
    obtain ⟨m, hopen, -, rfl⟩ := member_eq_some_iff.1 hc
    exact hb m hopen

/-- Whatever operations are performed, in whatever order, the slots are kept in order. -/
theorem orderly (settings : Settings) (ops : List Operation) : Orderly settings ops := by
  constructor
  case in_step => exact slotsAt_eq settings ops
  case sound =>
    intro n
    rw [slots_slotsAt]
    exact Slots.ofBlocks_sound (owns_performedAt settings ops n)
  case appended =>
    intro n
    obtain ⟨change, -, -, hsymbols⟩ := effectAt settings ops n
    rw [emittedAt_eq hsymbols, symbols_slotsAt, symbols_slotsAt, hsymbols]
  case class_kept =>
    intro n hmember
    obtain ⟨change, heffect, hblocks, -⟩ := effectAt settings ops n
    rw [slots_slotsAt, Slots.openMember_ofBlocks] at hmember
    have hopen : (performedAt settings ops n).blocks.openMember ≠ none := fun hnone => hmember (by rw [hnone]; rfl)
    rw [slots_slotsAt, slots_slotsAt, hblocks]
    rcases heffect.class_kept hopen with hclass | ⟨hempty, hcause⟩
    · exact .inl (congrArg (Option.map Construct.ofClass) hclass)
    · exact .inr ⟨congrArg Slots.ofBlocks hempty, hcause⟩
  case member_parent =>
    intro n x hx kind hkind
    obtain ⟨change, heffect, -, hsymbols⟩ := effectAt settings ops n
    rw [emittedAt_eq hsymbols] at hx
    obtain ⟨m, hopen, rfl, hname, hparent⟩ := heffect.member_closed (owns_performedAt settings ops n) hx hkind
    have hslot : (slotsAt settings ops n).slots.member m.kind = some (.ofMember m) := by
      rw [slots_slotsAt]
      exact Slots.member_eq_some_iff.2 ⟨m, hopen, rfl, rfl⟩
    obtain ⟨i, hsince⟩ := exists_memberSince hslot
    have hclass := (hsince.2.2 n hsince.1 (Nat.le_refl n)).2
    refine ⟨i, _, hsince, hname, ?_⟩
    rw [hparent, Slots.className, ← hclass, slots_slotsAt, ← Slots.className_ofBlocks]
    rfl
  case concluded =>
    intro n hop
    rw [slots_slotsAt, performedAt_succ hop]
    rfl

end Laws

end VbOutline.Outline
