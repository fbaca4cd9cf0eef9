import VbOutline.Proofs.RuleOrder

/-! Open blocks held in three slots. A class, a method and a property have a slot each, any of which may be filled
whatever the others hold, and a construct of any kind may stand in any of them. The rules fill and empty the slots
one by one. Run from empty slots they never get to a state that open blocks cannot express: each operation on the
slots of some open blocks gives the slots of the blocks that are open afterwards. -/

namespace VbOutline

namespace Noted

variable {α β γ δ : Type}

/-- A computation with another value and the same problems. -/
def image (f : α → β) (x : Noted α) : Noted β := ⟨f x.value, x.problems⟩

theorem image_bind {f : α → β} {g : γ → δ} {x : Noted α} {y : Noted β} {k : α → Noted γ} {l : β → Noted δ}
    (hx : y = x.image f) (hk : l (f x.value) = (k x.value).image g) : y >>= l = (x >>= k).image g := by
  subst hx
  show (⟨(l (f x.value)).value, x.problems ++ (l (f x.value)).problems⟩ : Noted δ) =
    ⟨g (k x.value).value, x.problems ++ (k x.value).problems⟩
  rw [hk]
  rfl

/-- After the same computation, what follows may differ in its value. -/
theorem image_bind_left {g : γ → δ} {x : Noted α} {k : α → Noted γ} {l : α → Noted δ}
    (hk : l x.value = (k x.value).image g) : x >>= l = (x >>= k).image g :=
  image_bind (f := id) rfl hk

theorem image_mapM {f : α → Noted γ} {f' : α → Noted δ} {g : γ → δ} (h : ∀ a, f' a = (f a).image g) (l : List α) :
    l.mapM f' = (l.mapM f).image (List.map g) := by
  induction l with
  | nil => rfl
  | cons a l ih =>
      rw [List.mapM_cons, List.mapM_cons]
      exact image_bind (h a) (image_bind ih rfl)

end Noted

namespace Outline

open Grammar Source Text Noted

/-! ### Constructs and slots -/

/-- A block of any kind whose end has not been met. -/
structure Construct where
  kind : SymbolKind
  keyword : String
  name : String
  start : Position
  nameRange : Range
  line : Int
  visibility : Option String := none
  parameterText : String := ""
  declaredType : String := ""
  parameters : List Symbol := []

namespace Construct

/-- An open class as a construct. -/
def ofClass (c : OpenClass) : Construct :=
  { kind := .classDef, keyword := "class", name := c.name, start := c.start, nameRange := c.nameRange, line := c.line }

/-- An open member as a construct. -/
def ofMember (m : OpenMember) : Construct :=
  { kind := symbolKind m.kind, keyword := m.keyword, name := m.name, start := m.start, nameRange := m.nameRange,
    line := m.line, visibility := m.visibility, parameterText := m.parameterText, declaredType := m.declaredType,
    parameters := m.parameters }

/-- The symbol of a construct that a statement closes, under a parent. -/
def closed (c : Construct) (s : Statement) (parent : Option String) : Noted Symbol := do
  let declaredRange ← closedRange c.start s
  pure
    { kind := c.kind, name := c.name, visibility := c.visibility, declaredType := c.declaredType,
      parameterText := c.parameterText, declaredRange := declaredRange, nameRange := c.nameRange, parent := parent }

/-- The problem of a construct that nothing closes any more. -/
def neverClosed (c : Construct) : Problem := (Finding.neverClosed c.keyword c.name).onLine c.line

end Construct

/-- One slot for each kind of block. -/
structure Slots where
  openClass : Option Construct := none
  openMethod : Option Construct := none
  openProperty : Option Construct := none

namespace Slots

/-- The slot for members of a kind. -/
def member (k : Slots) : MemberKind → Option Construct
  | .method => k.openMethod
  | .property => k.openProperty

/-- Fills or empties the slot for members of a kind. -/
def setMember (k : Slots) (content : Option Construct) : MemberKind → Slots
  | .method => { k with openMethod := content }
  | .property => { k with openProperty := content }

/-- The open property or else the open method. -/
def openMember (k : Slots) : Option Construct := k.openProperty <|> k.openMethod

/-- The name of the open class. -/
def className (k : Slots) : Option String := k.openClass.map Construct.name

/-- The name of the open property, or else of the open method, or else of the open class. -/
def nearestName (k : Slots) : Option String :=
  (k.openProperty <|> k.openMethod <|> k.openClass).map Construct.name

/-- The slots of some open blocks. -/
def ofBlocks (b : OpenBlocks) : Slots where
  openClass := b.openClass.map .ofClass
  openMethod := (b.memberOf .method).map .ofMember
  openProperty := (b.memberOf .property).map .ofMember

end Slots

/-- What a consumed statement leads to. -/
structure SlotChange where
  slots : Slots
  symbols : List Symbol := []

/-- A change of open blocks as one of slots. -/
def SlotChange.ofChange (c : Change) : SlotChange := ⟨.ofBlocks c.blocks, c.symbols⟩

/-! ### Rules on slots -/

namespace Slots

/-- A member fills the slot of its kind if both slots for members are empty. -/
def applyMemberOpen (kind : MemberKind) (k : Slots) (s : Statement) : Noted (Option SlotChange) :=
  match MemberHeader.read? kind s.cursor with
  | none => pure none
  | some h =>
    match k.openMember with
    | some current => do
      s.note (.memberInside h.name.spelling current.name)
      pure none
    | none => do
      let member ← Outline.openMember kind s h
      pure (some { slots := k.setMember (some (.ofMember member)) kind })

/-- A class fills its slot if all slots are empty. -/
def applyClassOpen (k : Slots) (s : Statement) : Noted (Option SlotChange) :=
  match readClassHeader? s.cursor with
  | none => pure none
  | some name =>
    match k.openClass <|> k.openMember with
    | some current => do
      s.note (.classInside name.spelling current.name)
      pure none
    | none => do
      let start ← s.position s.begins
      let nameRange ← s.rangeOf name
      pure (some { slots := { k with openClass := some (.ofClass ⟨name.spelling, start, nameRange, s.line⟩) } })

/-- The symbols of a member that a statement closes: its own, then those of its parameters. -/
def closeMember (k : Slots) (s : Statement) (c : Construct) : Noted (List Symbol) := do
  let symbol ← c.closed s k.className
  pure (symbol :: c.parameters)

/-- Notes the end of a method that names another keyword than its header. -/
def noteMismatch (s : Statement) (keyword : String) (c : Construct) : Noted Unit :=
  if keyword = c.keyword then pure () else s.note (.methodEndMismatch keyword c.keyword c.name)

/-- The end of a method empties the slot for methods. -/
def applyMethodClose (k : Slots) (s : Statement) : Noted (Option SlotChange) :=
  match readEnd? MemberKind.method.keywords s.cursor with
  | none => pure none
  | some closer =>
    let keyword := String.ofList (lower closer.written.text)
    match k.openMethod with
    | none => do
      s.note (.strayMethodEnd keyword)
      pure (some { slots := k })
    | some c => do
      noteMismatch s keyword c
      let symbols ← k.closeMember s c
      pure (some { slots := { k with openMethod := none }, symbols := symbols })

/-- The end of a property empties the slot for properties. -/
def applyPropertyClose (k : Slots) (s : Statement) : Noted (Option SlotChange) :=
  match readEnd? [.propertyKw] s.cursor with
  | none => pure none
  | some _ =>
    match k.openProperty with
    | none => do
      s.note .strayPropertyEnd
      pure (some { slots := k })
    | some c => do
      let symbols ← k.closeMember s c
      pure (some { slots := { k with openProperty := none }, symbols := symbols })

/-- Notes what a slot still holds when a class ends. -/
def noteOpen (content : Option Construct) (owner : Construct) : Noted Unit :=
  match content with
  | some c => Noted.note ((Finding.openAtClassEnd c.keyword c.name owner.name).onLine c.line)
  | none => pure ()

/-- The end of a class empties all slots. -/
def applyClassClose (k : Slots) (s : Statement) : Noted (Option SlotChange) :=
  match readEnd? [.classKw] s.cursor with
  | none => pure none
  | some _ =>
    match k.openClass with
    | none => do
      s.note .strayClassEnd
      pure (some { slots := k })
    | some c => do
      noteOpen k.openMethod c
      noteOpen k.openProperty c
      let symbol ← c.closed s none
      pure (some { slots := { openClass := none, openMethod := none, openProperty := none }, symbols := [symbol] })

/-- A field belongs to the open class. -/
def applyField (k : Slots) (s : Statement) : Noted (Option SlotChange) :=
  match FieldDeclaration.read? s.cursor with
  | none => pure none
  | some d => do
    let symbol ← fieldSymbol {} s d
    pure (some { slots := k, symbols := [{ symbol with parent := k.className }] })

/-- Variables belong to the nearest open block. -/
def applyDim (k : Slots) (s : Statement) : Noted (Option SlotChange) :=
  match DimDeclaration.read? s.cursor with
  | none => pure none
  | some d => do
    let symbols ← variableSymbols {} s d
    pure (some { slots := k, symbols := symbols.map fun symbol => { symbol with parent := k.nearestName } })

/-- A constant belongs to the nearest open block, and is declined inside of a member. -/
def applyConstant (k : Slots) (s : Statement) : Noted (Option SlotChange) :=
  match ConstDeclaration.read? s.cursor with
  | none => pure none
  | some d =>
    if k.openMember.isSome then pure none
    else do
      let symbol ← constantSymbol {} s d
      pure (some { slots := k, symbols := [{ symbol with parent := k.nearestName }] })

/-- What a rule makes of a statement. -/
def apply : Rule → Slots → Statement → Noted (Option SlotChange)
  | .methodOpen => applyMemberOpen .method
  | .methodClose => applyMethodClose
  | .propertyOpen => applyMemberOpen .property
  | .propertyClose => applyPropertyClose
  | .classOpen => applyClassOpen
  | .classClose => applyClassClose
  | .field => applyField
  | .dim => applyDim
  | .constant => applyConstant

/-- Tries rules in their order until one consumes the statement. -/
def consumeWith : List Rule → Slots → Statement → Noted (Option (Rule × SlotChange))
  | [], _, _ => pure none
  | rule :: rules, k, s => do
    match ← apply rule k s with
    | some change => pure (some (rule, change))
    | none => consumeWith rules k s

/-- The problems of constructs that nothing closes any more: the method, the property, the class. -/
def neverClosed (k : Slots) : List Problem :=
  [k.openMethod, k.openProperty, k.openClass].flatMap fun content => content.toList.map Construct.neverClosed

end Slots

/-! ### Slots of open blocks -/

namespace Slots

variable {b : OpenBlocks} {s : Statement} {m : OpenMember}

theorem ofBlocks_of_none (hm : b.openMember = none) :
    ofBlocks b = { openClass := b.openClass.map .ofClass } := by
  rw [ofBlocks, OpenBlocks.memberOf, OpenBlocks.memberOf, hm]
  rfl

theorem ofBlocks_of_some (hm : b.openMember = some m) :
    ofBlocks b = setMember { openClass := b.openClass.map .ofClass } (some (.ofMember m)) m.kind := by
  rw [ofBlocks, OpenBlocks.memberOf, OpenBlocks.memberOf, hm]
  cases hkind : m.kind with
  | method =>
      rw [Option.filter_some_pos (by rw [hkind]; rfl), Option.filter_some_neg (by rw [hkind]; decide)]
      rfl
  | property =>
      rw [Option.filter_some_neg (by rw [hkind]; decide), Option.filter_some_pos (by rw [hkind]; rfl)]
      rfl

theorem member_ofBlocks (kind : MemberKind) : (ofBlocks b).member kind = (b.memberOf kind).map .ofMember := by
  cases kind <;> rfl

theorem member_eq_some_iff {kind : MemberKind} {c : Construct} :
    (ofBlocks b).member kind = some c ↔ ∃ m, b.openMember = some m ∧ m.kind = kind ∧ c = .ofMember m := by
  rw [member_ofBlocks, Option.map_eq_some_iff]
  constructor
  · rintro ⟨m, hm, rfl⟩
    obtain ⟨hopen, hkind⟩ := Option.filter_eq_some_iff.1 hm
    exact ⟨m, hopen, eq_of_beq hkind, rfl⟩
  · rintro ⟨m, hopen, hkind, rfl⟩
    exact ⟨m, Option.filter_eq_some_iff.2 ⟨hopen, beq_iff_eq.2 hkind⟩, rfl⟩

theorem openMember_ofBlocks : (ofBlocks b).openMember = b.openMember.map .ofMember := by
  cases hm : b.openMember with
  | none => rw [ofBlocks_of_none hm]; rfl
  | some m =>
      rw [ofBlocks_of_some hm]
      cases m.kind <;> rfl

theorem className_ofBlocks : (ofBlocks b).className = b.className := by
  rw [className, ofBlocks, OpenBlocks.className, Option.map_map]
  rfl

theorem nearestName_ofBlocks : (ofBlocks b).nearestName = b.nearestName := by
  cases hm : b.openMember with
  | none =>
      rw [ofBlocks_of_none hm, OpenBlocks.nearestName, OpenBlocks.memberName, hm, OpenBlocks.className]
      cases b.openClass <;> rfl
  | some m =>
      rw [ofBlocks_of_some hm, OpenBlocks.nearestName, OpenBlocks.memberName, hm]
      cases m.kind <;> rfl

theorem outermost_ofBlocks :
    ((ofBlocks b).openClass <|> (ofBlocks b).openMember).map Construct.name = b.outermostName := by
  rw [openMember_ofBlocks, OpenBlocks.outermostName, OpenBlocks.className, OpenBlocks.memberName]
  show (b.openClass.map Construct.ofClass <|> _).map Construct.name = _
  cases b.openClass <;> cases b.openMember <;> rfl

/-- Filling the slot of a member's kind opens the member, if there is none. -/
theorem setMember_ofBlocks (hm : b.openMember = none) (m : OpenMember) :
    (ofBlocks b).setMember (some (.ofMember m)) m.kind = ofBlocks { b with openMember := some m } := by
  rw [ofBlocks_of_none hm, ofBlocks_of_some (m := m) rfl]

/-- Emptying the slot of the open member's kind leaves no member open. -/
theorem clear_ofBlocks {kind : MemberKind} (hm : b.memberOf kind = some m) :
    (ofBlocks b).setMember none kind = ofBlocks { b with openMember := none } := by
  obtain ⟨hopen, hkind⟩ := Option.filter_eq_some_iff.1 hm
  rw [ofBlocks_of_some hopen, ofBlocks_of_none rfl, eq_of_beq hkind]
  cases kind <;> rfl

/-! ### Rules in step -/

theorem applyMemberOpen_inStep (kind : MemberKind) (b : OpenBlocks) (s : Statement) :
    applyMemberOpen kind (ofBlocks b) s =
      (Outline.applyMemberOpen kind b s).image (Option.map SlotChange.ofChange) := by
  rw [applyMemberOpen, Outline.applyMemberOpen, openMember_ofBlocks, OpenBlocks.memberName]
  cases MemberHeader.read? kind s.cursor with
  | none => rfl
  | some h =>
      cases hm : b.openMember with
      | none =>
          have hslots := setMember_ofBlocks hm (Outline.openMember kind s h).value
          exact image_bind_left (congrArg (fun slots => pure (some (SlotChange.mk slots []))) hslots)
      | some m => exact image_bind_left rfl

theorem applyClassOpen_inStep (b : OpenBlocks) (s : Statement) :
    applyClassOpen (ofBlocks b) s = (Outline.applyClassOpen b s).image (Option.map SlotChange.ofChange) := by
  rw [applyClassOpen, Outline.applyClassOpen, ← outermost_ofBlocks]
  cases readClassHeader? s.cursor with
  | none => rfl
  | some name =>
      cases hcurrent : (ofBlocks b).openClass <|> (ofBlocks b).openMember with
      | none => exact image_bind_left (image_bind_left rfl)
      | some current => exact image_bind_left rfl

/-- A member is closed in the same way out of its slot. -/
theorem closeMember_inStep (b : OpenBlocks) (s : Statement) (m : OpenMember) :
    closeMember (ofBlocks b) s (.ofMember m) = (Outline.closeMember b s m).image Change.symbols := by
  rw [closeMember, Outline.closeMember, className_ofBlocks, Construct.closed, bind_assoc]
  exact image_bind_left rfl

theorem applyMethodClose_inStep (b : OpenBlocks) (s : Statement) :
    applyMethodClose (ofBlocks b) s = (Outline.applyMethodClose b s).image (Option.map SlotChange.ofChange) := by
  have hslot : (ofBlocks b).openMethod = (b.memberOf .method).map .ofMember := rfl
  rw [applyMethodClose, Outline.applyMethodClose, hslot]
  cases readEnd? MemberKind.method.keywords s.cursor with
  | none => rfl
  | some closer =>
      cases hm : b.memberOf .method with
      | none => exact image_bind_left rfl
      | some m =>
          refine image_bind_left (x := Outline.noteMismatch s _ m) (image_bind (closeMember_inStep b s m) ?_)
          exact congrArg (fun slots => pure (some (SlotChange.mk slots _))) (clear_ofBlocks hm)

theorem applyPropertyClose_inStep (b : OpenBlocks) (s : Statement) :
    applyPropertyClose (ofBlocks b) s = (Outline.applyPropertyClose b s).image (Option.map SlotChange.ofChange) := by
  have hslot : (ofBlocks b).openProperty = (b.memberOf .property).map .ofMember := rfl
  rw [applyPropertyClose, Outline.applyPropertyClose, hslot]
  cases readEnd? [.propertyKw] s.cursor with
  | none => rfl
  | some closer =>
      cases hm : b.memberOf .property with
      | none => exact image_bind_left rfl
      | some m =>
          refine image_bind (closeMember_inStep b s m) ?_
          exact congrArg (fun slots => pure (some (SlotChange.mk slots _))) (clear_ofBlocks hm)

/-- Two slots note what the one open member does. -/
theorem noteOpen_inStep (b : OpenBlocks) (c : OpenClass) :
    (do noteOpen (ofBlocks b).openMethod (.ofClass c); noteOpen (ofBlocks b).openProperty (.ofClass c)) =
      noteOpenMember b c := by
  rw [noteOpenMember]
  cases hm : b.openMember with
  | none => rw [ofBlocks_of_none hm]; rfl
  | some m =>
      rw [ofBlocks_of_some hm]
      cases m.kind <;> rfl

theorem applyClassClose_inStep (b : OpenBlocks) (s : Statement) :
    applyClassClose (ofBlocks b) s = (Outline.applyClassClose b s).image (Option.map SlotChange.ofChange) := by
  have hslot : (ofBlocks b).openClass = b.openClass.map .ofClass := rfl
  rw [applyClassClose, Outline.applyClassClose, hslot]
  cases readEnd? [.classKw] s.cursor with
  | none => rfl
  | some closer =>
      cases hc : b.openClass with
      | none => exact image_bind_left rfl
      | some c =>
          dsimp only [Option.map_some]
          -- At most one of the two slots for members is filled, so both note together what the open member does.
          rw [← noteOpen_inStep, bind_assoc, Construct.closed]
          refine image_bind_left (image_bind_left ?_)
          rw [bind_assoc]
          exact image_bind_left rfl

/-- A field under the class of some blocks is one without a class, put there. -/
theorem fieldSymbol_parent (b : OpenBlocks) (s : Statement) (d : FieldDeclaration) :
    fieldSymbol b s d = (fieldSymbol {} s d).image fun x => { x with parent := b.className } :=
  image_bind_left (image_bind_left rfl)

theorem variableSymbols_parent (b : OpenBlocks) (s : Statement) (d : DimDeclaration) :
    variableSymbols b s d = (variableSymbols {} s d).image (List.map fun x => { x with parent := b.nearestName }) := by
  have hone : ∀ start e, variableSymbol b s start e =
      (variableSymbol {} s start e).image fun x => { x with parent := b.nearestName } :=
    fun start e => image_bind_left (image_bind_left rfl)
  rw [variableSymbols, variableSymbols]
  cases d.declared with
  | nil => rfl
  | cons first others => exact image_bind (hone _ _) (image_bind (image_mapM (fun e => hone _ e) others) rfl)

theorem constantSymbol_parent (b : OpenBlocks) (s : Statement) (d : ConstDeclaration) :
    constantSymbol b s d = (constantSymbol {} s d).image fun x => { x with parent := b.nearestName } :=
  image_bind_left (image_bind_left rfl)

theorem applyField_inStep (b : OpenBlocks) (s : Statement) :
    applyField (ofBlocks b) s = (Outline.applyField b s).image (Option.map SlotChange.ofChange) := by
  rw [applyField, Outline.applyField, className_ofBlocks]
  cases FieldDeclaration.read? s.cursor with
  | none => rfl
  | some d =>
      dsimp only
      rw [fieldSymbol_parent b]
      rfl

theorem applyDim_inStep (b : OpenBlocks) (s : Statement) :
    applyDim (ofBlocks b) s = (Outline.applyDim b s).image (Option.map SlotChange.ofChange) := by
  rw [applyDim, Outline.applyDim, nearestName_ofBlocks]
  cases DimDeclaration.read? s.cursor with
  | none => rfl
  | some d =>
      dsimp only
      rw [variableSymbols_parent b]
      rfl

theorem applyConstant_inStep (b : OpenBlocks) (s : Statement) :
    applyConstant (ofBlocks b) s = (Outline.applyConstant b s).image (Option.map SlotChange.ofChange) := by
  rw [applyConstant, Outline.applyConstant, nearestName_ofBlocks, openMember_ofBlocks, Option.isSome_map]
  cases ConstDeclaration.read? s.cursor with
  | none => rfl
  | some d =>
      dsimp only
      split
      · rfl
      · rw [constantSymbol_parent b]
        rfl

/-- A rule does the same to slots as to the open blocks they show. -/
theorem apply_inStep (rule : Rule) (b : OpenBlocks) (s : Statement) :
    apply rule (ofBlocks b) s = (rule.apply b s).image (Option.map SlotChange.ofChange) := by
  cases rule with
  | methodOpen => exact applyMemberOpen_inStep .method b s
  | methodClose => exact applyMethodClose_inStep b s
  | propertyOpen => exact applyMemberOpen_inStep .property b s
  | propertyClose => exact applyPropertyClose_inStep b s
  | classOpen => exact applyClassOpen_inStep b s
  | classClose => exact applyClassClose_inStep b s
  | field => exact applyField_inStep b s
  | dim => exact applyDim_inStep b s
  | constant => exact applyConstant_inStep b s

theorem consumeWith_inStep (rules : List Rule) (b : OpenBlocks) (s : Statement) :
    consumeWith rules (ofBlocks b) s =
      (Outline.consumeWith rules b s).image (Option.map fun found => (found.1, SlotChange.ofChange found.2)) := by
  induction rules with
  | nil => rfl
  | cons rule rules ih =>
      refine image_bind (apply_inStep rule b s) ?_
      cases (rule.apply b s).value with
      | some change => rfl
      | none => exact ih

theorem neverClosed_inStep (b : OpenBlocks) : (ofBlocks b).neverClosed = b.neverClosed := by
  cases hm : b.openMember with
  | none =>
      rw [ofBlocks_of_none hm, OpenBlocks.neverClosed, hm]
      cases b.openClass <;> rfl
  | some m =>
      rw [ofBlocks_of_some hm, OpenBlocks.neverClosed, hm]
      cases m.kind <;> cases b.openClass <;> rfl

end Slots

/-! ### Readings -/

/-- How far a document has been read, with the open blocks in slots. -/
structure SlotReading where
  slots : Slots := {}
  symbols : Array Symbol := #[]
  log : ProblemLog

namespace SlotReading

/-- Reading starts with empty slots. -/
def start (settings : Settings) : SlotReading := { log := { limit := settings.maxProblems } }

/-- Gives the value of a computation and logs its problems. -/
def absorb {α : Type} (k : SlotReading) (noted : Noted α) : α × SlotReading :=
  (noted.value, { k with log := k.log.addAll noted.problems })

/-- Goes on with the slots of a change and adds its symbols. -/
def accept (k : SlotReading) (change : SlotChange) : SlotReading :=
  { k with slots := change.slots, symbols := k.symbols ++ change.symbols.toArray }

/-- Applies one rule and tells whether it consumed the statement. -/
def applyRule (k : SlotReading) (rule : Rule) (s : Statement) : Bool × SlotReading :=
  match k.absorb (Slots.apply rule k.slots s) with
  | (some change, k) => (true, k.accept change)
  | (none, k) => (false, k)

/-- Reads a statement and tells which rule consumed it. -/
def consume (k : SlotReading) (s : Statement) : Option Rule × SlotReading :=
  match k.absorb (Slots.consumeWith Rule.all k.slots s) with
  | (some (rule, change), k) => (some rule, k.accept change)
  | (none, k) => (none, k)

/-- Logs one problem. -/
def report (k : SlotReading) (problem : Problem) : SlotReading := { k with log := k.log.add problem }

/-- Reading ends: what the slots still hold is logged, and they are emptied. -/
def conclude (k : SlotReading) : SlotReading := { k with slots := {}, log := k.log.addAll k.slots.neverClosed }

/-- A reading with its open blocks in slots. -/
def ofReading (r : Reading) : SlotReading := ⟨.ofBlocks r.blocks, r.symbols, r.log⟩

theorem applyRule_inStep (r : Reading) (rule : Rule) (s : Statement) :
    (ofReading r).applyRule rule s = ((r.applyRule rule s).1, ofReading (r.applyRule rule s).2) := by
  have hrule : Slots.apply rule (ofReading r).slots s = _ := Slots.apply_inStep rule r.blocks s
  rw [applyRule, hrule, Reading.applyRule, absorb, Reading.absorb]
  dsimp only [Noted.image]
  cases (rule.apply r.blocks s).value <;> rfl

theorem consume_inStep (r : Reading) (s : Statement) :
    (ofReading r).consume s = ((r.consume s).1, ofReading (r.consume s).2) := by
  have hrules : Slots.consumeWith Rule.all (ofReading r).slots s = _ := Slots.consumeWith_inStep Rule.all r.blocks s
  rw [consume, hrules, Reading.consume, absorb, Reading.absorb]
  dsimp only [Noted.image, Outline.consume]
  cases (consumeWith Rule.all r.blocks s).value <;> rfl

theorem conclude_inStep (r : Reading) : (ofReading r).conclude = ofReading r.conclude := by
  have hlog : (ofReading r).slots.neverClosed = r.blocks.neverClosed := Slots.neverClosed_inStep r.blocks
  rw [conclude, hlog]
  rfl

end SlotReading

/-! ### Operations -/

/-- What can be done with a document that is being read. -/
inductive Operation where
  /-- A statement is read by all rules. -/
  | consume (s : Statement)
  /-- A statement is read by one rule. -/
  | apply (rule : Rule) (s : Statement)
  | position (s : Statement) (offset : Int)
  | range (s : Statement) (start stop : Int)
  | report (problem : Problem)
  | conclude

/-- What an operation makes of a reading. -/
def Reading.perform (r : Reading) : Operation → Reading
  | .consume s => (r.consume s).2
  | .apply rule s => (r.applyRule rule s).2
  | .position s offset => (r.absorb (s.position offset)).2
  | .range s start stop => (r.absorb (s.range start stop)).2
  | .report problem => r.report problem
  | .conclude => r.conclude

/-- The rule that consumes the statement of an operation. -/
def Reading.answer (r : Reading) : Operation → Option Rule
  | .consume s => (r.consume s).1
  | .apply rule s => if (r.applyRule rule s).1 then some rule else none
  | .position .. | .range .. | .report .. | .conclude => none

namespace SlotReading

/-- What an operation makes of a reading. -/
def perform (k : SlotReading) : Operation → SlotReading
  | .consume s => (k.consume s).2
  | .apply rule s => (k.applyRule rule s).2
  | .position s offset => (k.absorb (s.position offset)).2
  | .range s start stop => (k.absorb (s.range start stop)).2
  | .report problem => k.report problem
  | .conclude => k.conclude

/-- The rule that consumes the statement of an operation. -/
def answer (k : SlotReading) : Operation → Option Rule
  | .consume s => (k.consume s).1
  | .apply rule s => if (k.applyRule rule s).1 then some rule else none
  | .position .. | .range .. | .report .. | .conclude => none

/-- Every operation does the same to slots as to open blocks. -/
theorem perform_inStep (r : Reading) (op : Operation) :
    (ofReading r).perform op = ofReading (r.perform op) ∧ (ofReading r).answer op = r.answer op := by
  cases op with
  | consume s => exact ⟨congrArg Prod.snd (consume_inStep r s), congrArg Prod.fst (consume_inStep r s)⟩
  | apply rule s =>
      refine ⟨congrArg Prod.snd (applyRule_inStep r rule s), ?_⟩
      rw [answer, Reading.answer, applyRule_inStep]
  | position s offset => exact ⟨rfl, rfl⟩
  | range s start stop => exact ⟨rfl, rfl⟩
  | report problem => exact ⟨rfl, rfl⟩
  | conclude => exact ⟨conclude_inStep r, rfl⟩

end SlotReading

end Outline

end VbOutline
