import VbOutline.Proofs.Standing

/-! How the ranges of a document's symbols lie to each other: of two symbols one ends before the other
starts, or one is strictly inside of the other, which then is a class, a method or a property. The
reading keeps this for the symbols it has completed and the parameters of the open member, all of which
lie before the statements ahead, while open blocks start outside of them. -/

namespace VbOutline

/-- Whether symbols of this kind have others inside of them. -/
def SymbolKind.isBlock : SymbolKind → Bool
  | classDef | method | property => true
  | _ => false

namespace Outline

open Grammar Source Text

/-- Two symbols that share no end: one ends before the other starts or lies inside of a block. -/
def Separate (x y : Symbol) : Prop :=
  x.declaredRange.Before y.declaredRange ∨ y.declaredRange.Before x.declaredRange ∨
    x.declaredRange.Inside y.declaredRange ∧ y.kind.isBlock ∨
    y.declaredRange.Inside x.declaredRange ∧ x.kind.isBlock

theorem Separate.symm {x y : Symbol} (h : Separate x y) : Separate y x := by
  rcases h with h | h | h | h
  · exact Or.inr (Or.inl h)
  · exact Or.inl h
  · exact Or.inr (Or.inr (Or.inr h))
  · exact Or.inr (Or.inr (Or.inl h))

/-- An open block: where it starts, and the name and the kind of the symbol that it becomes. -/
structure Frame where
  start : Position
  name : String
  kind : SymbolKind

/-- The frame of an open class. -/
def OpenClass.frame (c : OpenClass) : Frame := ⟨c.start, c.name, .classDef⟩

/-- The frame of an open member. -/
def OpenMember.frame (m : OpenMember) : Frame := ⟨m.start, m.name, symbolKind m.kind⟩

/-- The open blocks, the outermost first. -/
def OpenBlocks.frames (b : OpenBlocks) : List Frame :=
  b.openClass.toList.map OpenClass.frame ++ b.openMember.toList.map OpenMember.frame

/-- The symbols that the end of the open member completes along with its own. -/
def OpenBlocks.pending (b : OpenBlocks) : List Symbol := b.openMember.toList.flatMap OpenMember.parameters

/-! ### The invariant -/

/-- Symbols and open blocks that nest, in front of the statements ahead. -/
structure Nesting (known : List Symbol) (frames : List Frame) (rest : List Statement) : Prop where
  proper : ∀ x ∈ known, x.declaredRange.Proper
  separate : known.Pairwise Separate
  past : ∀ x ∈ known, ∀ s ∈ rest, x.declaredRange.stop < s.extent.start
  isBlock : ∀ f ∈ frames, f.kind.isBlock
  ordered : frames.Pairwise fun f g => f.start < g.start
  opened : ∀ f ∈ frames, ∀ s ∈ rest, f.start < s.extent.start
  apart : ∀ f ∈ frames, ∀ x ∈ known, x.declaredRange.stop < f.start ∨ f.start < x.declaredRange.start

/-- Symbols that lie in a statement and follow each other. -/
structure Fits (s : Statement) (symbols : List Symbol) : Prop where
  proper : ∀ x ∈ symbols, x.declaredRange.Proper
  ordered : symbols.Pairwise fun x y => x.declaredRange.Before y.declaredRange
  start_le : ∀ x ∈ symbols, s.extent.start ≤ x.declaredRange.start
  stop_le : ∀ x ∈ symbols, x.declaredRange.stop ≤ s.extent.stop

theorem Fits.nil (s : Statement) : Fits s [] :=
  ⟨by simp, .nil, by simp, by simp⟩

section Nesting

variable {known known' new : List Symbol} {frames frames' : List Frame} {f : Frame} {s : Statement}
  {rest : List Statement} {x : Symbol}

theorem Nesting.perm (h : Nesting known frames rest) (hp : known.Perm known') :
    Nesting known' frames rest where
  proper x hx := h.proper x (hp.mem_iff.2 hx)
  separate := hp.pairwise h.separate Separate.symm
  past x hx := h.past x (hp.mem_iff.2 hx)
  isBlock := h.isBlock
  ordered := h.ordered
  opened := h.opened
  apart f hf x hx := h.apart f hf x (hp.mem_iff.2 hx)

/-- Dropping symbols and open blocks, and going on. -/
theorem Nesting.sublist (h : Nesting known frames (s :: rest)) (hk : known'.Sublist known)
    (hf : frames'.Sublist frames) : Nesting known' frames' (s :: rest) where
  proper x hx := h.proper x (hk.subset hx)
  separate := h.separate.sublist hk
  past x hx := h.past x (hk.subset hx)
  isBlock f hmem := h.isBlock f (hf.subset hmem)
  ordered := h.ordered.sublist hf
  opened f hmem := h.opened f (hf.subset hmem)
  apart f hmem x hx := h.apart f (hf.subset hmem) x (hk.subset hx)

theorem Nesting.tail (h : Nesting known frames (s :: rest)) : Nesting known frames rest where
  proper := h.proper
  separate := h.separate
  past x hx r hr := h.past x hx r (List.mem_cons_of_mem s hr)
  isBlock := h.isBlock
  ordered := h.ordered
  opened f hf r hr := h.opened f hf r (List.mem_cons_of_mem s hr)
  apart := h.apart

/-- A statement's symbols come after everything known and inside of everything open. -/
theorem Nesting.declare (h : Nesting known frames (s :: rest)) (hrest : ∀ r ∈ rest, s.extent.Before r.extent)
    (hnew : Fits s new) : Nesting (known ++ new) frames rest := by
  have hpast : ∀ x ∈ known, x.declaredRange.stop < s.extent.start := fun x hx => h.past x hx s List.mem_cons_self
  refine ⟨?_, ?_, ?_, h.isBlock, h.ordered, h.tail.opened, ?_⟩
  · intro x hx
    exact (List.mem_append.1 hx).elim (h.proper x) (hnew.proper x)
  · refine List.pairwise_append.2 ⟨h.separate, hnew.ordered.imp Or.inl, fun x hx y hy => Or.inl ?_⟩
    exact (hpast x hx).trans_le (hnew.start_le y hy)
  · intro x hx r hr
    rcases List.mem_append.1 hx with hx | hx
    · exact h.tail.past x hx r hr
    · exact (hnew.stop_le x hx).trans_lt (hrest r hr)
  · intro f hf x hx
    rcases List.mem_append.1 hx with hx | hx
    · exact h.apart f hf x hx
    · exact Or.inr ((h.opened f hf s List.mem_cons_self).trans_le (hnew.start_le x hx))

/-- A block that a statement opens has the statement's other symbols inside. -/
theorem Nesting.openBlock (h : Nesting known frames (s :: rest)) (hproper : s.extent.Proper)
    (hrest : ∀ r ∈ rest, s.extent.Before r.extent) (hnew : Fits s new)
    (hinside : ∀ x ∈ new, s.extent.start < x.declaredRange.start) (hf : f.start = s.extent.start)
    (hkind : f.kind.isBlock) : Nesting (known ++ new) (frames ++ [f]) rest := by
  have hdeclared := h.declare hrest hnew
  refine ⟨hdeclared.proper, hdeclared.separate, hdeclared.past, ?_, ?_, ?_, ?_⟩
  · intro g hg
    rcases List.mem_append.1 hg with hg | hg
    · exact h.isBlock g hg
    · rw [List.mem_singleton.1 hg]
      exact hkind
  · refine List.pairwise_append.2 ⟨h.ordered, List.pairwise_singleton _ _, fun g hg g' hg' => ?_⟩
    rw [List.mem_singleton.1 hg', hf]
    exact h.opened g hg s List.mem_cons_self
  · intro g hg r hr
    rcases List.mem_append.1 hg with hg | hg
    · exact hdeclared.opened g hg r hr
    · rw [List.mem_singleton.1 hg, hf]
      exact hproper.trans (hrest r hr)
  · intro g hg x hx
    rcases List.mem_append.1 hg with hg | hg
    · exact hdeclared.apart g hg x hx
    · rw [List.mem_singleton.1 hg, hf]
      rcases List.mem_append.1 hx with hx | hx
      · exact Or.inl (h.past x hx s List.mem_cons_self)
      · exact Or.inr (hinside x hx)

/-- A block that a statement closes is around what it opened before and after the rest. -/
theorem Nesting.closeBlock (h : Nesting known (frames ++ [f]) (s :: rest)) (hproper : s.extent.Proper)
    (hrest : ∀ r ∈ rest, s.extent.Before r.extent) (hx : x.declaredRange = ⟨f.start, s.extent.stop⟩)
    (hkind : x.kind = f.kind) : Nesting (known ++ [x]) frames rest := by
  have hf : f ∈ frames ++ [f] := List.mem_append_right _ List.mem_cons_self
  have hkept : Nesting known frames rest := (h.sublist (List.Sublist.refl _) (List.sublist_append_left _ _)).tail
  have hstart := h.opened f hf s List.mem_cons_self
  refine ⟨?_, ?_, ?_, hkept.isBlock, hkept.ordered, hkept.opened, ?_⟩
  · intro y hy
    rcases List.mem_append.1 hy with hy | hy
    · exact h.proper y hy
    · rw [List.mem_singleton.1 hy, hx]
      exact hstart.trans hproper
  · refine List.pairwise_append.2 ⟨h.separate, List.pairwise_singleton _ _, fun y hy z hz => ?_⟩
    rw [List.mem_singleton.1 hz]
    rcases h.apart f hf y hy with hbefore | hafter
    · left
      rw [hx]
      exact hbefore
    · right; right; left
      rw [hx, hkind]
      exact ⟨⟨hafter, (h.past y hy s List.mem_cons_self).trans hproper⟩, h.isBlock f hf⟩
  · intro y hy r hr
    rcases List.mem_append.1 hy with hy | hy
    · exact hkept.past y hy r hr
    · rw [List.mem_singleton.1 hy, hx]
      exact hrest r hr
  · intro g hg y hy
    rcases List.mem_append.1 hy with hy | hy
    · exact hkept.apart g hg y hy
    · rw [List.mem_singleton.1 hy, hx]
      exact Or.inr ((List.pairwise_append.1 h.ordered).2.2 g hg f List.mem_cons_self)

end Nesting

/-! ### Reading a document -/

section Steps

variable {b : OpenBlocks} {s : Statement} {done : List Symbol} {rest : List Statement}

theorem fits_of_stands (hs : s.Placed) {symbols : List Symbol}
    (h : ∀ x ∈ symbols, ∃ start stop, Stands s x start stop)
    (hordered : symbols.Pairwise fun x y => x.declaredRange.Before y.declaredRange) : Fits s symbols := by
  refine ⟨?_, hordered, ?_, ?_⟩
  · intro x hx
    obtain ⟨start, stop, hx⟩ := h x hx
    exact hx.proper hs
  · intro x hx
    obtain ⟨start, stop, hx⟩ := h x hx
    exact hx.extent_start_le hs
  · intro x hx
    obtain ⟨start, stop, hx⟩ := h x hx
    exact hx.stop_le_extent hs

theorem Parameters.fits (hs : s.Placed) {owner : String} {symbols : List Symbol}
    (h : Parameters s owner symbols) : Fits s symbols := by
  refine fits_of_stands hs (fun x hx => ?_) h.ordered
  obtain ⟨start, stop, hx, -⟩ := h.stands x hx
  exact ⟨start, stop, hx⟩

theorem Parameters.start_lt (hs : s.Placed) {owner : String} {symbols : List Symbol}
    (h : Parameters s owner symbols) : ∀ x ∈ symbols, s.extent.start < x.declaredRange.start := by
  intro x hx
  obtain ⟨start, stop, hx, hlt⟩ := h.stands x hx
  exact hx.extent_start_lt hs hlt

theorem isBlock_symbolKind (kind : MemberKind) : (symbolKind kind).isBlock := by
  cases kind <;> rfl

theorem frames_memberOpened {m : OpenMember} (hfree : b.openMember = none) :
    OpenBlocks.frames { b with openMember := some m } = b.frames ++ [m.frame] := by
  simp [OpenBlocks.frames, hfree]

theorem frames_classOpened {c : OpenClass} (hfree : b.openClass = none) (hfree' : b.openMember = none) :
    OpenBlocks.frames { b with openClass := some c } = b.frames ++ [c.frame] := by
  simp [OpenBlocks.frames, hfree, hfree']

theorem frames_memberClosed {m : OpenMember} (hm : b.openMember = some m) :
    b.frames = OpenBlocks.frames { b with openMember := none } ++ [m.frame] := by
  simp [OpenBlocks.frames, hm]

theorem frames_of_class {c : OpenClass} (hc : b.openClass = some c) :
    b.frames = c.frame :: b.openMember.toList.map OpenMember.frame := by
  simp [OpenBlocks.frames, hc]

theorem pending_eq_nil (h : b.openMember = none) : b.pending = [] := by
  rw [OpenBlocks.pending, h]
  rfl

theorem pending_eq {m : OpenMember} (h : b.openMember = some m) : b.pending = m.parameters := by
  simp [OpenBlocks.pending, h]

/-- The parameters of a member that is opened join what is known. -/
theorem known_memberOpened {m : OpenMember} (hfree : b.openMember = none) (done : List Symbol) :
    (b.pending ++ done ++ m.parameters).Perm
      (OpenBlocks.pending { b with openMember := some m } ++ (done ++ [])) := by
  rw [pending_eq_nil hfree, pending_eq rfl, List.nil_append, List.append_nil]
  exact List.perm_append_comm

/-- The parameters of a member that is closed follow its symbol. -/
theorem known_memberClosed {m : OpenMember} (hm : b.openMember = some m) (done : List Symbol) (x : Symbol) :
    (b.pending ++ done ++ [x]).Perm
      (OpenBlocks.pending { b with openMember := none } ++ (done ++ x :: m.parameters)) := by
  rw [pending_eq hm, pending_eq_nil rfl, List.nil_append, List.append_assoc]
  apply List.perm_append_comm.trans
  rw [List.append_assoc]
  rfl

/-- What is known in the course of reading nests, whatever a statement does. -/
theorem Nesting.step {text : List Char} (hs : s ∈ statements text) (hrest : ∀ r ∈ rest, s.extent.Before r.extent)
    (h : Nesting (b.pending ++ done) b.frames (s :: rest)) {problems : List Problem} {change : Change}
    (ho : Outcome b s problems change) :
    Nesting (change.blocks.pending ++ (done ++ change.symbols)) change.blocks.frames rest := by
  have hplaced := placed_of_mem hs
  have hends := begins_lt_ends_of_mem hs
  have hproper := extent_proper_of_mem hs
  cases ho with
  | idle =>
      rw [List.append_nil]
      exact h.tail
  | declared hd =>
      have hdeclares := hd.declares hplaced hends
      rw [← List.append_assoc]
      exact h.declare hrest (fits_of_stands hplaced hdeclares.stands hdeclares.ordered)
  | @memberOpened kind header hread hfree =>
      have hparameters := openMember_parameters hplaced hread
      have hopened := h.openBlock (f := (openMember kind s header).value.frame) hproper hrest
        (hparameters.fits hplaced) (hparameters.start_lt hplaced) rfl (isBlock_symbolKind kind)
      rw [frames_memberOpened hfree]
      exact hopened.perm (known_memberOpened hfree done)
  | @classOpened name hread hfree hfree' =>
      have hopened := h.openBlock (f := (openedClass s name).frame) hproper hrest (Fits.nil s) (by simp) rfl rfl
      rw [frames_classOpened hfree hfree', List.append_nil]
      rwa [List.append_nil] at hopened
  | @memberClosed m hm =>
      rw [frames_memberClosed hm] at h
      have hclosed := h.closeBlock (x := closedMember b s m) hproper hrest
        (closedRange_value hplaced hends m.start) rfl
      exact hclosed.perm (known_memberClosed hm done _)
  | @classClosed c hc hdropped =>
      -- a member that is still open goes, and its parameters with it
      have hkept : Nesting done ([] ++ [c.frame]) (s :: rest) := by
        apply h.sublist (List.sublist_append_right _ _)
        rw [frames_of_class hc]
        exact List.singleton_sublist.2 List.mem_cons_self
      exact hkept.closeBlock hproper hrest (closedRange_value hplaced hends c.start) rfl

end Steps

theorem nesting_start (rest : List Statement) : Nesting [] [] rest :=
  ⟨by simp, .nil, by simp, by simp, .nil, by simp, by simp⟩

theorem trace_nesting (text : List Char) :
    Nesting ((trace (statements text)).value.blocks.pending ++ (trace (statements text)).value.symbols)
      (trace (statements text)).value.blocks.frames [] := by
  refine document_induction (I := fun change _ rest =>
    Nesting (change.blocks.pending ++ change.symbols) change.blocks.frames rest) ?_ ?_
  · exact nesting_start _
  · intro b done noted s rest problems change hs hrest ho h
    exact h.step hs hrest ho

theorem parse_separate (settings : Settings) (text : String) :
    (parse settings text).symbols.Pairwise Separate := by
  rw [parse_symbols]
  exact (trace_nesting text.toList).separate.sublist (List.sublist_append_right _ _)

theorem parse_proper (settings : Settings) (text : String) :
    ∀ x ∈ (parse settings text).symbols, x.declaredRange.Proper := by
  intro x hx
  rw [parse_symbols] at hx
  exact (trace_nesting text.toList).proper x (List.mem_append_right _ hx)

theorem separate_of_ne {symbols : List Symbol} (h : symbols.Pairwise Separate) {i j : Nat} {x y : Symbol}
    (hne : i ≠ j) (hx : symbols[i]? = some x) (hy : symbols[j]? = some y) : Separate x y := by
  obtain ⟨hi, rfl⟩ := List.getElem?_eq_some_iff.1 hx
  obtain ⟨hj, rfl⟩ := List.getElem?_eq_some_iff.1 hy
  rcases Nat.lt_or_gt_of_ne hne with hlt | hlt
  · exact List.pairwise_iff_getElem.1 h i j hi hj hlt
  · exact (List.pairwise_iff_getElem.1 h j i hj hi hlt).symm

/-- Of two symbols of a document one ends before the other starts or lies strictly inside of it; the outer
one then is a class, a method or a property. -/
theorem declaredRange_laminar (settings : Settings) (text : String) {i j : Nat} {x y : Symbol} (hne : i ≠ j)
    (hx : (parse settings text).symbols[i]? = some x) (hy : (parse settings text).symbols[j]? = some y) :
    Separate x y :=
  separate_of_ne (parse_separate settings text) hne hx hy

/-- A method with a rejected header and a stray end in it that the end of a function closes; after its
class another method is left open. -/
def mismatchedEnds : String :=
  "Class A : Sub f(x) : Dim y _\n, z(1, 2)\nSub g() : End Property\nEnd Function : End Class\nFunction h(q)"

/-- A variable declared in that method. -/
def mismatchedVariable : Symbol :=
  { kind := .variableDef, name := "z", declaredRange := ⟨⟨1, 2⟩, ⟨1, 9⟩⟩, nameRange := ⟨⟨1, 2⟩, ⟨1, 3⟩⟩,
    parent := some "f" }

/-- The method itself. -/
def mismatchedMethod : Symbol :=
  { kind := .method, name := "f", declaredType := "Sub", parameterText := "x",
    declaredRange := ⟨⟨0, 10⟩, ⟨3, 12⟩⟩, nameRange := ⟨⟨0, 14⟩, ⟨0, 15⟩⟩, parent := some "A" }

theorem declaredRange_laminar_mismatched :
    (parse {} mismatchedEnds).symbols[1]? = some mismatchedVariable ∧
      (parse {} mismatchedEnds).symbols[2]? = some mismatchedMethod ∧
      Separate mismatchedVariable mismatchedMethod := by
  have hvariable : (parse {} mismatchedEnds).symbols[1]? = some mismatchedVariable := by decide +kernel
  have hmethod : (parse {} mismatchedEnds).symbols[2]? = some mismatchedMethod := by decide +kernel
  exact ⟨hvariable, hmethod, declaredRange_laminar {} mismatchedEnds (by decide) hvariable hmethod⟩

end Outline

end VbOutline
