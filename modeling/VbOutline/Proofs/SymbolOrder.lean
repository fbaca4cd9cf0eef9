import VbOutline.Proofs.Nesting
import VbOutline.Proofs.VariableLists

/-! The order in which symbols are completed. A document's symbols come in groups: a class, a field, a constant or a
variable by itself, or a member with its parameters right behind it. Along the groups the ends of the declarations go
forward, so whatever lies inside of a block is complete before the block is, its own parameters apart. The parameters
are known from the header on but held back until the member is closed, while other symbols are completed at once; the
reading keeps these others either before the header or behind it. -/

namespace VbOutline

namespace Range

variable {r t : Range}

theorem not_covers_of_stop_lt (h : r.stop < t.stop) : r.covers t = false := by
  rw [Bool.eq_false_iff, ne_eq, covers, Bool.and_eq_true, contains_iff, contains_iff]
  rintro ⟨-, -, hstop⟩
  exact absurd h (not_lt.2 hstop)

theorem not_covers_of_start_lt (h : t.start < r.start) : r.covers t = false := by
  rw [Bool.eq_false_iff, ne_eq, covers, Bool.and_eq_true, contains_iff, contains_iff]
  rintro ⟨⟨hstart, -⟩, -⟩
  exact absurd h (not_lt.2 hstart)

end Range

namespace Outline

open Grammar Source Text

/-! ### Groups -/

/-- A symbol with the parameters that are completed along with it. -/
structure Group where
  head : Symbol
  parameters : List Symbol

namespace Group

/-- The symbols of a group in their order. -/
def symbols (g : Group) : List Symbol := g.head :: g.parameters

/-- A symbol by itself. -/
def single (x : Symbol) : Group := ⟨x, []⟩

/-- What the symbol of a block has from the header that opened it. -/
structure OpenedBy (s : Statement) (name : Lexeme) (x : Symbol) : Prop where
  name_eq : x.name = name.spelling
  nameRange_eq : x.nameRange = (s.rangeOf name).value
  start_eq : x.declaredRange.start = s.extent.start

/-- Where the groups of some statements come from: a declaration gives its symbols one by one, the header of a class
a symbol, and the header of a member a symbol and its parameters. -/
inductive Formed (ss : List Statement) : Group → Prop
  | classDef {s : Statement} {name : Lexeme} {x : Symbol} (hs : s ∈ ss) (hread : readClassHeader? s.cursor = some name)
      (hkind : x.kind = .classDef) (hx : OpenedBy s name x) : Formed ss (single x)
  | field {s : Statement} {b : OpenBlocks} {d : FieldDeclaration} (hs : s ∈ ss)
      (hread : FieldDeclaration.read? s.cursor = some d) : Formed ss (single (fieldSymbol b s d).value)
  | constant {s : Statement} {b : OpenBlocks} {d : ConstDeclaration} (hs : s ∈ ss)
      (hread : ConstDeclaration.read? s.cursor = some d) : Formed ss (single (constantSymbol b s d).value)
  | dim {s : Statement} {b : OpenBlocks} {d : DimDeclaration} {place : Nat} {e : DimItem} (hs : s ∈ ss)
      (hread : DimDeclaration.read? s.cursor = some d) (he : d.declared[place]? = some e) :
      Formed ss (single (entrySymbol b s d.keyword place e))
  | member {s : Statement} {kind : MemberKind} {h : MemberHeader} {x : Symbol} (hs : s ∈ ss)
      (hread : MemberHeader.read? kind s.cursor = some h) (hkind : x.kind = symbolKind kind)
      (hx : OpenedBy s h.name x) : Formed ss ⟨x, (headerParameters s h).value⟩

/-- The parameters of a group follow each other, inside of its head and behind the head's name. -/
structure Ordered (g : Group) : Prop where
  isParameter : ∀ x ∈ g.parameters, x.kind = .variableDef ∧ x.parent = some g.head.name
  starts : g.parameters.Pairwise fun x y => x.declaredRange.start < y.declaredRange.start
  disjoint : g.parameters.Pairwise fun x y => x.declaredRange.Before y.declaredRange
  inside : ∀ x ∈ g.parameters, x.declaredRange.Inside g.head.declaredRange
  behind : ∀ x ∈ g.parameters, g.head.nameRange.Before x.declaredRange

/-- One group is complete before another: it ends first and has no symbol of the other inside. -/
structure Precedes (g g' : Group) : Prop where
  stop_lt : g.head.declaredRange.stop < g'.head.declaredRange.stop
  not_covers : ∀ x ∈ g'.symbols, g.head.declaredRange.covers x.declaredRange = false

theorem ordered_single (x : Symbol) : (single x).Ordered :=
  ⟨by simp [single], .nil, .nil, by simp [single], by simp [single]⟩

theorem precedes_single {g : Group} {x : Symbol} (h : g.head.declaredRange.stop < x.declaredRange.stop) :
    g.Precedes (single x) := by
  refine ⟨h, fun y hy => ?_⟩
  rw [List.mem_singleton.1 hy]
  exact Range.not_covers_of_stop_lt h

end Group

theorem flatMap_single (symbols : List Symbol) : (symbols.map Group.single).flatMap Group.symbols = symbols := by
  rw [List.flatMap_map]
  exact List.flatMap_singleton' symbols

/-- Symbols come in groups, in the order of their completion. -/
structure InGroups (ss : List Statement) (symbols : List Symbol) (groups : List Group) : Prop where
  symbols_eq : symbols = groups.flatMap Group.symbols
  formed : ∀ g ∈ groups, g.Formed ss
  ordered : ∀ g ∈ groups, g.Ordered
  stops : groups.Pairwise fun g g' => g.head.declaredRange.stop < g'.head.declaredRange.stop
  /-- What lies inside of a head is of the same group or of an earlier one. -/
  inner_first : ∀ {i j : Nat} {g g' : Group} {x : Symbol}, groups[i]? = some g → groups[j]? = some g' →
    x ∈ g'.symbols → g.head.declaredRange.covers x.declaredRange = true → j ≤ i

/-! ### What a statement completes -/

section Statements

variable {text : List Char} {s : Statement} {b : OpenBlocks}

theorem Declaration.formed {ss : List Statement} (hs : s ∈ ss) {symbols : List Symbol} (h : Declaration b s symbols) :
    ∀ x ∈ symbols, (Group.single x).Formed ss := by
  intro x hx
  cases h with
  | field hread =>
      rw [List.mem_singleton.1 hx]
      exact .field hs hread
  | @dim d hread =>
      rw [variableSymbols_value] at hx
      obtain ⟨place, hplace, rfl⟩ := List.mem_mapIdx.1 hx
      exact .dim hs hread (List.getElem?_eq_getElem hplace)
  | constant hread hfree =>
      rw [List.mem_singleton.1 hx]
      exact .constant hs hread

/-- A parameter stands behind the name of its member. -/
theorem headerParameters_behind (hs : s.Placed) {kind : MemberKind} {h : MemberHeader}
    (hread : MemberHeader.read? kind s.cursor = some h) :
    ∀ x ∈ (headerParameters s h).value, (s.rangeOf h.name).value.Before x.declaredRange := by
  obtain ⟨hname, hlist⟩ := MemberHeader.read?_words (cursor_in s) hread
  intro x hx
  obtain ⟨list, ps, p, hparameters, hps, hp, rfl⟩ := exists_of_mem_headerParameters hx
  obtain ⟨hin, hlt⟩ := hlist list hparameters
  have hstands := parameterSymbol_stands hs hin (readParameters?_stand hps p hp) h.name.spelling
  have hstart := hstands.start_lt_stop
  have hstop := hstands.stop_le_length
  rw [rangeOf_value hs hname, hstands.declaredRange_eq]
  exact hs.span_before hname.start_lt_stop (by omega) (by omega)

/-- The parameters of a member are ordered in the group that a later statement completes. -/
theorem ordered_closedMember {s₀ : Statement} (hs₀ : s₀ ∈ statements text) (hs : s ∈ statements text)
    (hahead : s₀.extent.Before s.extent) {kind : MemberKind} {h : MemberHeader}
    (hread : MemberHeader.read? kind s₀.cursor = some h) :
    (Group.mk (closedMember b s (openMember kind s₀ h).value) (headerParameters s₀ h).value).Ordered := by
  have hplaced := placed_of_mem hs₀
  have hparameters : Parameters s₀ h.name.spelling (headerParameters s₀ h).value :=
    openMember_parameters hplaced hread
  have hfits := hparameters.fits hplaced
  have hproper := extent_proper_of_mem hs
  refine ⟨fun x hx => ⟨hparameters.kind x hx, hparameters.parent x hx⟩, ?_, hfits.ordered, fun x hx => ?_,
    headerParameters_behind hplaced hread⟩
  · exact hfits.ordered.imp_of_mem fun hx _ hbefore => (hfits.proper _ hx).trans hbefore
  · show x.declaredRange.Inside (closedRange (openMember kind s₀ h).value.start s).value
    rw [closedRange_value (placed_of_mem hs) (begins_lt_ends_of_mem hs)]
    exact ⟨hparameters.start_lt hplaced x hx, (hfits.stop_le x hx).trans_lt (hahead.trans hproper)⟩

end Statements

/-! ### The invariant -/

/-- Groups that are complete, in front of the statements ahead. -/
structure Grouped (ss : List Statement) (symbols : List Symbol) (groups : List Group) (rest : List Statement) :
    Prop where
  symbols_eq : symbols = groups.flatMap Group.symbols
  formed : ∀ g ∈ groups, g.Formed ss
  ordered : ∀ g ∈ groups, g.Ordered
  precedes : groups.Pairwise Group.Precedes
  past : ∀ g ∈ groups, ∀ s ∈ rest, g.head.declaredRange.stop < s.extent.start

/-- An open member was opened by a header: what is complete lies before the header or behind it, and the statements
ahead lie behind it. -/
inductive Held (ss : List Statement) (groups : List Group) (rest : List Statement) : OpenMember → Prop
  | intro {s : Statement} {kind : MemberKind} {h : MemberHeader} (hs : s ∈ ss)
      (hread : MemberHeader.read? kind s.cursor = some h) (hahead : ∀ r ∈ rest, s.extent.Before r.extent)
      (hapart : ∀ g ∈ groups, g.head.declaredRange.Before s.extent ∨ s.extent.Before g.head.declaredRange) :
      Held ss groups rest (openMember kind s h).value

/-- The groups so far, and where the open blocks come from. -/
structure Ordering (ss : List Statement) (change : Change) (groups : List Group) (rest : List Statement) : Prop where
  grouped : Grouped ss change.symbols groups rest
  openClass : ∀ c, change.blocks.openClass = some c →
    ∃ s ∈ ss, ∃ name, readClassHeader? s.cursor = some name ∧ c = openedClass s name
  openMember : ∀ m, change.blocks.openMember = some m → Held ss groups rest m

section Steps

variable {text : List Char} {ss : List Statement} {s : Statement} {rest : List Statement} {b : OpenBlocks}
  {done symbols : List Symbol} {groups new : List Group}

theorem Grouped.tail (h : Grouped ss done groups (s :: rest)) : Grouped ss done groups rest :=
  ⟨h.symbols_eq, h.formed, h.ordered, h.precedes, fun g hg r hr => h.past g hg r (List.mem_cons_of_mem s hr)⟩

/-- Groups that a statement completes come behind those before. -/
theorem Grouped.append (h : Grouped ss done groups (s :: rest)) (hrest : ∀ r ∈ rest, s.extent.Before r.extent)
    (hsymbols : symbols = new.flatMap Group.symbols) (hformed : ∀ g ∈ new, g.Formed ss)
    (hordered : ∀ g ∈ new, g.Ordered) (hprecedes : new.Pairwise Group.Precedes)
    (hstop : ∀ g ∈ new, g.head.declaredRange.stop ≤ s.extent.stop)
    (hlater : ∀ g ∈ groups, ∀ g' ∈ new, g.Precedes g') :
    Grouped ss (done ++ symbols) (groups ++ new) rest := by
  refine ⟨?_, ?_, ?_, List.pairwise_append.2 ⟨h.precedes, hprecedes, hlater⟩, ?_⟩
  · rw [List.flatMap_append, ← h.symbols_eq, ← hsymbols]
  · exact fun g hg => (List.mem_append.1 hg).elim (h.formed g) (hformed g)
  · exact fun g hg => (List.mem_append.1 hg).elim (h.ordered g) (hordered g)
  · intro g hg r hr
    rcases List.mem_append.1 hg with hg | hg
    · exact h.tail.past g hg r hr
    · exact (hstop g hg).trans_lt (hrest r hr)

/-- A symbol that a statement completes by itself. -/
theorem Grouped.append_single (h : Grouped ss done groups (s :: rest)) (hproper : s.extent.Proper)
    (hrest : ∀ r ∈ rest, s.extent.Before r.extent) {x : Symbol} (hformed : (Group.single x).Formed ss)
    (hstop : x.declaredRange.stop = s.extent.stop) : Grouped ss (done ++ [x]) (groups ++ [.single x]) rest := by
  refine h.append hrest rfl ?_ ?_ (List.pairwise_singleton _ _) ?_ ?_
  · exact fun g hg => List.mem_singleton.1 hg ▸ hformed
  · exact fun g hg => List.mem_singleton.1 hg ▸ Group.ordered_single x
  · exact fun g hg => List.mem_singleton.1 hg ▸ hstop.le
  · intro g hg g' hg'
    rw [List.mem_singleton.1 hg']
    apply Group.precedes_single
    rw [hstop]
    exact (h.past g hg s List.mem_cons_self).trans hproper

/-- The symbols of a declaration are groups of their own. -/
theorem Grouped.declare (h : Grouped ss done groups (s :: rest)) (hrest : ∀ r ∈ rest, s.extent.Before r.extent)
    (hfits : Fits s symbols) (hformed : ∀ x ∈ symbols, (Group.single x).Formed ss) :
    Grouped ss (done ++ symbols) (groups ++ symbols.map .single) rest := by
  refine h.append hrest (flatMap_single symbols).symm ?_ ?_ ?_ ?_ ?_
  · exact List.forall_mem_map.2 hformed
  · exact List.forall_mem_map.2 fun x _ => Group.ordered_single x
  · rw [List.pairwise_map]
    exact hfits.ordered.imp_of_mem fun _ hy hbefore => Group.precedes_single (hbefore.trans (hfits.proper _ hy))
  · exact List.forall_mem_map.2 hfits.stop_le
  · intro g hg
    refine List.forall_mem_map.2 fun x hx => Group.precedes_single ?_
    exact (h.past g hg s List.mem_cons_self).trans_le ((hfits.start_le x hx).trans (hfits.proper x hx).le)

/-- A member that is closed has nothing inside of what was complete before: neither itself nor its parameters. -/
theorem Held.precedes (hs : s ∈ statements text) {m : OpenMember}
    (h : Held (statements text) groups (s :: rest) m)
    (hpast : ∀ g ∈ groups, g.head.declaredRange.stop < s.extent.start) :
    ∀ g ∈ groups, g.Precedes ⟨closedMember b s m, m.parameters⟩ := by
  intro g hg
  have hproper := extent_proper_of_mem hs
  have hstop : g.head.declaredRange.stop < (closedMember b s m).declaredRange.stop := by
    show _ < (closedRange m.start s).value.stop
    rw [closedRange_value (placed_of_mem hs) (begins_lt_ends_of_mem hs)]
    exact (hpast g hg).trans hproper
  refine ⟨hstop, fun x hx => ?_⟩
  rcases List.mem_cons.1 hx with rfl | hx
  · exact Range.not_covers_of_stop_lt hstop
  · cases h with
    | intro hs₀ hread hahead hapart =>
        have hplaced := placed_of_mem hs₀
        have hfits := (openMember_parameters hplaced hread).fits hplaced
        -- the parameters lie in the header, which every other head keeps away from
        rcases hapart g hg with hbefore | hbehind
        · exact Range.not_covers_of_stop_lt
            (hbefore.trans_le ((hfits.start_le x hx).trans (hfits.proper x hx).le))
        · exact Range.not_covers_of_start_lt
            ((hfits.proper x hx).trans_le (hfits.stop_le x hx) |>.trans hbehind)

theorem Held.tail {m : OpenMember} (h : Held ss groups (s :: rest) m)
    (hnew : ∀ g ∈ new, s.extent.start ≤ g.head.declaredRange.start) : Held ss (groups ++ new) rest m := by
  cases h with
  | intro hs₀ hread hahead hapart =>
      refine .intro hs₀ hread (fun r hr => hahead r (List.mem_cons_of_mem s hr)) fun g hg => ?_
      rcases List.mem_append.1 hg with hg | hg
      · exact hapart g hg
      · exact Or.inr ((hahead s List.mem_cons_self).trans_le (hnew g hg))

/-- Going on without completing or opening anything. -/
theorem Ordering.idle (h : Ordering ss ⟨b, done⟩ groups (s :: rest)) : Ordering ss ⟨b, done⟩ groups rest := by
  refine ⟨h.grouped.tail, h.openClass, fun m hm => ?_⟩
  have hheld : Held ss (groups ++ []) rest m := (h.openMember m hm).tail (by simp)
  rwa [List.append_nil] at hheld

/-- Whatever a statement does, the symbols stay in groups. -/
theorem Ordering.step (hs : s ∈ statements text) (hrest : ∀ r ∈ rest, s.extent.Before r.extent)
    (h : Ordering (statements text) ⟨b, done⟩ groups (s :: rest)) {problems : List Problem} {change : Change}
    (ho : Outcome b s problems change) :
    ∃ groups', Ordering (statements text) ⟨change.blocks, done ++ change.symbols⟩ groups' rest := by
  have hplaced := placed_of_mem hs
  have hends := begins_lt_ends_of_mem hs
  have hproper := extent_proper_of_mem hs
  cases ho with
  | idle =>
      rw [List.append_nil]
      exact ⟨groups, h.idle⟩
  | @declared symbols hd =>
      have hdeclares := hd.declares hplaced hends
      have hfits := fits_of_stands hplaced hdeclares.stands hdeclares.ordered
      refine ⟨_, h.grouped.declare hrest hfits (hd.formed hs), h.openClass, fun m hm => ?_⟩
      exact (h.openMember m hm).tail (List.forall_mem_map.2 hfits.start_le)
  | @memberOpened kind header hread hfree =>
      rw [List.append_nil]
      refine ⟨groups, h.grouped.tail, h.openClass, ?_⟩
      rintro m ⟨⟩
      exact .intro hs hread hrest fun g hg => Or.inl (h.grouped.past g hg s List.mem_cons_self)
  | @classOpened name hread hfree hfree' =>
      rw [List.append_nil]
      refine ⟨groups, h.grouped.tail, ?_, h.idle.openMember⟩
      rintro c ⟨⟩
      exact ⟨s, hs, name, hread, rfl⟩
  | @memberClosed m hm =>
      have hheld := h.openMember m hm
      have hprecedes := hheld.precedes (b := b) hs fun g hg => h.grouped.past g hg s List.mem_cons_self
      refine ⟨groups ++ [⟨closedMember b s m, m.parameters⟩], ?_, h.openClass, by rintro m ⟨⟩⟩
      cases hheld with
      | @intro s₀ kind header hs₀ hread hahead hapart =>
          have hbefore := hahead s List.mem_cons_self
          refine h.grouped.append hrest (List.append_nil _).symm ?_ ?_ (List.pairwise_singleton _ _) ?_ ?_
          · intro g hg
            rw [List.mem_singleton.1 hg]
            exact .member hs₀ hread rfl ⟨rfl, rfl, rfl⟩
          · intro g hg
            rw [List.mem_singleton.1 hg]
            exact ordered_closedMember hs₀ hs hbefore hread
          · intro g hg
            rw [List.mem_singleton.1 hg]
            show (closedRange _ s).value.stop ≤ _
            rw [closedRange_value hplaced hends]
          · intro g hg g' hg'
            rw [List.mem_singleton.1 hg']
            exact hprecedes g hg
  | @classClosed c hc hdropped =>
      obtain ⟨s₀, hs₀, name, hread, rfl⟩ := h.openClass c hc
      have hformed : (Group.single (closedClass s (openedClass s₀ name))).Formed (statements text) :=
        .classDef hs₀ hread rfl ⟨rfl, rfl, rfl⟩
      refine ⟨_, h.grouped.append_single hproper hrest hformed ?_, by rintro c ⟨⟩, by rintro m ⟨⟩⟩
      show (closedRange _ s).value.stop = _
      rw [closedRange_value hplaced hends]

end Steps

theorem trace_ordering (text : List Char) :
    ∃ groups, Ordering (statements text) (trace (statements text)).value groups [] := by
  refine document_induction (I := fun change _ rest => ∃ groups, Ordering (statements text) change groups rest) ?_ ?_
  · exact ⟨[], ⟨rfl, by simp, by simp, .nil, by simp⟩, by rintro c ⟨⟩, by rintro m ⟨⟩⟩
  · rintro b done noted s rest problems change hs hrest ho ⟨groups, h⟩
    exact h.step hs hrest ho

theorem Grouped.inGroups {ss : List Statement} {symbols : List Symbol} {groups : List Group}
    (h : Grouped ss symbols groups []) : InGroups ss symbols groups := by
  refine ⟨h.symbols_eq, h.formed, h.ordered, h.precedes.imp Group.Precedes.stop_lt, ?_⟩
  intro i j g g' x hi hj hx hcovers
  obtain ⟨hi', rfl⟩ := List.getElem?_eq_some_iff.1 hi
  obtain ⟨hj', rfl⟩ := List.getElem?_eq_some_iff.1 hj
  by_contra hlt
  have hprecedes := List.pairwise_iff_getElem.1 h.precedes i j hi' hj' (Nat.lt_of_not_le hlt)
  rw [hprecedes.not_covers x hx] at hcovers
  cases hcovers

/-- The symbols of every document come in groups, in the order of their completion. -/
theorem symbols_inGroups (settings : Settings) (text : String) :
    ∃ groups, InGroups (statements text.toList) (parse settings text).symbols groups := by
  obtain ⟨groups, h⟩ := trace_ordering text.toList
  rw [parse_symbols]
  exact ⟨groups, h.grouped.inGroups⟩

example : (parse {} "Class A\nSub f(x, y)\nDim z\nEnd Sub\nPrivate w\nEnd Class").symbols.map Symbol.name =
    ["z", "f", "x", "y", "w", "A"] := by
  decide +kernel

end Outline

end VbOutline
