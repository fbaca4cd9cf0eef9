import VbOutline.Proofs.Nesting

/-! Parents. A symbol's parent is settled by the blocks that are open when the symbol is read, and the
symbol around it is known only later, from the ranges. The two agree as long as every open block is
closed in the end: reading keeps the blocks around a symbol the same, whether they are still open or
complete by now. -/

namespace VbOutline.Outline

open Grammar Source Text

/-- The frame of a complete symbol. -/
def frameOf (t : Symbol) : Frame := ⟨t.declaredRange.start, t.name, t.kind⟩

/-- The frames around a symbol: the complete symbols it is inside of and the open blocks before it. -/
inductive Encloses (known : List Symbol) (frames : List Frame) (x : Symbol) : Frame → Prop
  | complete {t : Symbol} (ht : t ∈ known) (h : x.declaredRange.Inside t.declaredRange) :
      Encloses known frames x (frameOf t)
  | opened {f : Frame} (hf : f ∈ frames) (h : f.start < x.declaredRange.start) : Encloses known frames x f

/-- Fields belong to classes only. -/
def Admits (x : Symbol) (f : Frame) : Prop := x.kind = .field → f.kind = .classDef

/-- A name is that of the innermost of some frames, if there are any. -/
def Nearest (P : Frame → Prop) (name : Option String) : Prop :=
  name = none ∧ (∀ f, ¬ P f) ∨ ∃ f, P f ∧ name = some f.name ∧ ∀ g, P g → g.start ≤ f.start

/-- Every symbol has the innermost frame around it for its parent. -/
def Parented (known : List Symbol) (frames : List Frame) : Prop :=
  ∀ x ∈ known, Nearest (fun f => Encloses known frames x f ∧ Admits x f) x.parent

theorem Nearest.congr {P Q : Frame → Prop} {name : Option String} (h : Nearest P name)
    (hiff : ∀ f, Q f ↔ P f) : Nearest Q name := by
  rcases h with ⟨hname, hnone⟩ | ⟨f, hf, hname, hinner⟩
  · exact Or.inl ⟨hname, fun f hf => hnone f ((hiff f).1 hf)⟩
  · exact Or.inr ⟨f, (hiff f).2 hf, hname, fun g hg => hinner g ((hiff g).1 hg)⟩

section Frames

variable {known known' new : List Symbol} {frames frames' : List Frame} {f g : Frame} {s : Statement}
  {rest : List Statement} {x t : Symbol}

theorem Encloses.mono (h : Encloses known frames x f) (hk : ∀ t ∈ known, t ∈ known')
    (hf : ∀ f ∈ frames, f ∈ frames') : Encloses known' frames' x f := by
  cases h with
  | complete ht hinside => exact .complete (hk _ ht) hinside
  | opened hmem hlt => exact .opened (hf _ hmem) hlt

theorem Parented.perm (h : Parented known frames) (hp : known.Perm known') : Parented known' frames := by
  intro x hx
  refine (h x (hp.mem_iff.2 hx)).congr fun f => and_congr_left fun _ => ⟨fun he => ?_, fun he => ?_⟩
  · exact he.mono (fun t ht => hp.mem_iff.2 ht) fun _ hf => hf
  · exact he.mono (fun t ht => hp.mem_iff.1 ht) fun _ hf => hf

/-- What a statement declares is around nothing known. -/
theorem encloses_declare (h : Nesting known frames (s :: rest)) (hnew : Fits s new) (hx : x ∈ known) :
    Encloses (known ++ new) frames' x f ↔ Encloses known frames' x f := by
  constructor
  · intro he
    cases he with
    | @complete t ht hinside =>
        rcases List.mem_append.1 ht with ht | ht
        · exact .complete ht hinside
        · have hstart := h.past x hx s List.mem_cons_self
          have hle := hnew.start_le t ht
          have hproper := h.proper x hx
          exact absurd hinside (Range.not_inside_of_start_le (hproper.trans (hstart.trans_le hle)).le)
    | opened hf hlt => exact .opened hf hlt
  · intro he
    exact he.mono (fun t ht => List.mem_append_left new ht) fun _ hf => hf

/-- A block that a statement opens is around nothing known. -/
theorem encloses_open (h : Nesting known frames (s :: rest)) (hg : g.start = s.extent.start) (hx : x ∈ known) :
    Encloses known (frames ++ [g]) x f ↔ Encloses known frames x f := by
  constructor
  · intro he
    cases he with
    | complete ht hinside => exact .complete ht hinside
    | opened hf hlt =>
        rcases List.mem_append.1 hf with hf | hf
        · exact .opened hf hlt
        · rw [List.mem_singleton.1 hf, hg] at hlt
          have hpast := (h.proper x hx).trans (h.past x hx s List.mem_cons_self)
          exact absurd hlt hpast.not_gt
  · intro he
    exact he.mono (fun _ ht => ht) fun _ hf => List.mem_append_left [g] hf

/-- A block that is closed stays around what it was around. -/
theorem encloses_close (h : Nesting known (frames ++ [g]) (s :: rest)) (hproper : s.extent.Proper)
    (ht : t.declaredRange = ⟨g.start, s.extent.stop⟩) (hframe : frameOf t = g) (hx : x ∈ known) :
    Encloses (known ++ [t]) frames x f ↔ Encloses known (frames ++ [g]) x f := by
  have hstop : x.declaredRange.stop < t.declaredRange.stop := by
    rw [ht]
    exact (h.past x hx s List.mem_cons_self).trans hproper
  constructor
  · intro he
    cases he with
    | @complete u hu hinside =>
        rcases List.mem_append.1 hu with hu | hu
        · exact .complete hu hinside
        · rw [List.mem_singleton.1 hu] at hinside ⊢
          rw [hframe]
          refine .opened (List.mem_append_right _ List.mem_cons_self) ?_
          rw [← hframe]
          exact hinside.1
    | opened hf hlt => exact .opened (List.mem_append_left _ hf) hlt
  · intro he
    cases he with
    | complete hu hinside => exact .complete (List.mem_append_left _ hu) hinside
    | opened hf hlt =>
        rcases List.mem_append.1 hf with hf | hf
        · exact .opened hf hlt
        · rw [List.mem_singleton.1 hf] at hlt ⊢
          rw [← hframe] at hlt ⊢
          exact .complete (List.mem_append_right _ List.mem_cons_self) ⟨hlt, hstop⟩

/-- A symbol after everything known is inside of the open blocks only. -/
theorem encloses_last (hknown : ∀ t ∈ known, ¬ x.declaredRange.Inside t.declaredRange)
    (hframes : ∀ f ∈ frames, f.start < x.declaredRange.start) : Encloses known frames x f ↔ f ∈ frames := by
  constructor
  · intro he
    cases he with
    | complete ht hinside => exact absurd hinside (hknown _ ht)
    | opened hf _ => exact hf
  · intro hf
    exact .opened hf (hframes f hf)

/-- Nothing known or declared along with it is around what a statement declares. -/
theorem not_inside_declared (h : Nesting known frames (s :: rest)) (hnew : Fits s new) (hx : x ∈ new) :
    ∀ t ∈ known ++ new, ¬ x.declaredRange.Inside t.declaredRange := by
  intro t ht
  have hproper := hnew.proper x hx
  rcases List.mem_append.1 ht with ht | ht
  · have hpast := (h.past t ht s List.mem_cons_self).trans_le (hnew.start_le x hx)
    exact Range.not_inside_of_stop_le (hpast.trans hproper).le
  · obtain ⟨i, hi, rfl⟩ := List.getElem_of_mem hx
    obtain ⟨j, hj, rfl⟩ := List.getElem_of_mem ht
    have hordered := List.pairwise_iff_getElem.1 hnew.ordered
    rcases Nat.lt_trichotomy i j with hlt | rfl | hlt
    · exact Range.not_inside_of_start_le (hproper.trans (hordered i j hi hj hlt)).le
    · exact Range.not_inside_of_start_le le_rfl
    · exact Range.not_inside_of_stop_le ((hordered j i hj hi hlt).trans hproper).le

/-! ### Parents are kept -/

theorem Parented.declare (hp : Parented known frames) (h : Nesting known frames (s :: rest)) (hnew : Fits s new)
    (hparent : ∀ x ∈ new, Nearest (fun f => f ∈ frames ∧ Admits x f) x.parent) :
    Parented (known ++ new) frames := by
  intro x hx
  rcases List.mem_append.1 hx with hx | hx
  · exact (hp x hx).congr fun f => and_congr_left fun _ => encloses_declare h hnew hx
  · refine (hparent x hx).congr fun f => and_congr_left fun _ => encloses_last (not_inside_declared h hnew hx) ?_
    intro f hf
    exact (h.opened f hf s List.mem_cons_self).trans_le (hnew.start_le x hx)

theorem Parented.openBlock (hp : Parented known frames) (h : Nesting known frames (s :: rest)) (hnew : Fits s new)
    (hinside : ∀ x ∈ new, s.extent.start < x.declaredRange.start) (hg : g.start = s.extent.start)
    (hparent : ∀ x ∈ new, Nearest (fun f => f ∈ frames ++ [g] ∧ Admits x f) x.parent) :
    Parented (known ++ new) (frames ++ [g]) := by
  intro x hx
  rcases List.mem_append.1 hx with hx | hx
  · refine (hp x hx).congr fun f => and_congr_left fun _ => ?_
    exact (encloses_declare h hnew hx).trans (encloses_open h hg hx)
  · refine (hparent x hx).congr fun f => and_congr_left fun _ => encloses_last (not_inside_declared h hnew hx) ?_
    intro f hf
    rcases List.mem_append.1 hf with hf | hf
    · exact (h.opened f hf s List.mem_cons_self).trans (hinside x hx)
    · rw [List.mem_singleton.1 hf, hg]
      exact hinside x hx

theorem Parented.closeBlock (hp : Parented known (frames ++ [g])) (h : Nesting known (frames ++ [g]) (s :: rest))
    (hproper : s.extent.Proper) (ht : t.declaredRange = ⟨g.start, s.extent.stop⟩) (hframe : frameOf t = g)
    (hparent : Nearest (fun f => f ∈ frames ∧ Admits t f) t.parent) : Parented (known ++ [t]) frames := by
  intro x hx
  rcases List.mem_append.1 hx with hx | hx
  · exact (hp x hx).congr fun f => and_congr_left fun _ => encloses_close h hproper ht hframe hx
  · rw [List.mem_singleton.1 hx]
    refine hparent.congr fun f => and_congr_left fun _ => encloses_last (fun u hu => ?_) fun f hf => ?_
    · rcases List.mem_append.1 hu with hu | hu
      · refine Range.not_inside_of_stop_le ?_
        rw [ht]
        exact ((h.past u hu s List.mem_cons_self).trans hproper).le
      · rw [List.mem_singleton.1 hu]
        exact Range.not_inside_of_start_le le_rfl
    · rw [ht]
      exact (List.pairwise_append.1 h.ordered).2.2 f hf g List.mem_cons_self

end Frames

/-! ### The names of open blocks -/

section Steps

variable {b : OpenBlocks} {s : Statement} {done : List Symbol} {rest : List Statement}

/-- The last of ordered frames is the innermost one. -/
theorem nearest_getLast? {frames : List Frame} (h : frames.Pairwise fun f g => f.start < g.start) :
    Nearest (fun f => f ∈ frames) (frames.getLast?.map Frame.name) := by
  rcases List.eq_nil_or_concat frames with rfl | ⟨outer, last, rfl⟩
  · exact Or.inl ⟨rfl, fun f => List.not_mem_nil⟩
  · refine Or.inr ⟨last, by simp, by simp, fun g hg => ?_⟩
    rw [List.concat_eq_append] at h hg
    rcases List.mem_append.1 hg with hg | hg
    · exact ((List.pairwise_append.1 h).2.2 g hg last List.mem_cons_self).le
    · rw [List.mem_singleton.1 hg]

theorem nearest_nearestName (h : b.frames.Pairwise fun f g => f.start < g.start) :
    Nearest (fun f => f ∈ b.frames) b.nearestName := by
  have hname : b.nearestName = b.frames.getLast?.map Frame.name := by
    obtain ⟨openClass, openMember⟩ := b
    cases openClass <;> cases openMember <;> rfl
  rw [hname]
  exact nearest_getLast? h

/-- Of the open blocks only the class has fields. -/
theorem nearest_className (b : OpenBlocks) :
    Nearest (fun f => f ∈ b.frames ∧ f.kind = .classDef) b.className := by
  have hclass : ∀ f, f ∈ b.frames ∧ f.kind = .classDef ↔ f ∈ b.openClass.toList.map OpenClass.frame := by
    intro f
    rw [OpenBlocks.frames, List.mem_append]
    constructor
    · rintro ⟨hf | hf, hkind⟩
      · exact hf
      · obtain ⟨m, -, rfl⟩ := List.mem_map.1 hf
        have hmember : symbolKind m.kind ≠ .classDef := by cases m.kind <;> decide
        exact absurd hkind hmember
    · intro hf
      obtain ⟨c, -, rfl⟩ := List.mem_map.1 hf
      exact ⟨Or.inl hf, rfl⟩
  refine Nearest.congr ?_ hclass
  have hname : b.className = (b.openClass.toList.map OpenClass.frame).getLast?.map Frame.name := by
    obtain ⟨openClass, openMember⟩ := b
    cases openClass <;> rfl
  rw [hname]
  refine nearest_getLast? ?_
  cases b.openClass with
  | none => exact .nil
  | some c => exact List.pairwise_singleton _ _

theorem Nearest.admits {P : Frame → Prop} {x : Symbol} {name : Option String} (h : Nearest P name)
    (hkind : x.kind ≠ .field) : Nearest (fun f => P f ∧ Admits x f) name :=
  h.congr fun _ => and_iff_left fun hfield => absurd hfield hkind

/-! ### Reading a document -/

theorem Declares.nearest {symbols : List Symbol} (h : Declares b s symbols)
    (hordered : b.frames.Pairwise fun f g => f.start < g.start) :
    ∀ x ∈ symbols, Nearest (fun f => f ∈ b.frames ∧ Admits x f) x.parent := by
  intro x hx
  rcases h.parent x hx with ⟨hkind, hparent⟩ | ⟨hkind, hparent⟩
  · rw [hparent]
    refine (nearest_className b).congr fun f => and_congr_right fun _ => ?_
    exact ⟨fun hadmits => hadmits hkind, fun hclass _ => hclass⟩
  · rw [hparent]
    refine (nearest_nearestName hordered).admits ?_
    rcases hkind with hkind | hkind <;> rw [hkind] <;> decide

theorem Parameters.nearest {m : OpenMember} (h : Parameters s m.name m.parameters)
    (hordered : (OpenBlocks.frames { b with openMember := some m }).Pairwise fun f g => f.start < g.start) :
    ∀ x ∈ m.parameters,
      Nearest (fun f => f ∈ OpenBlocks.frames { b with openMember := some m } ∧ Admits x f) x.parent := by
  intro x hx
  rw [h.parent x hx]
  apply (nearest_nearestName hordered).admits
  rw [h.kind x hx]
  decide

theorem closedMember_nearest (s : Statement) (m : OpenMember)
    (hordered : (OpenBlocks.frames { b with openMember := none }).Pairwise fun f g => f.start < g.start) :
    Nearest (fun f => f ∈ OpenBlocks.frames { b with openMember := none } ∧ Admits (closedMember b s m) f)
      (closedMember b s m).parent := by
  apply (nearest_nearestName hordered).admits
  show symbolKind m.kind ≠ .field
  cases m.kind <;> decide

/-- Parents are kept by every statement that leaves no open block behind. -/
theorem Parented.step {text : List Char} (hs : s ∈ statements text)
    (hrest : ∀ r ∈ rest, s.extent.Before r.extent) (h : Nesting (b.pending ++ done) b.frames (s :: rest))
    (hp : Parented (b.pending ++ done) b.frames) {problems : List Problem} {change : Change}
    (ho : Outcome b s problems change) (hclean : ∀ p ∈ problems, p.category ≠ .danglingOpen) :
    Parented (change.blocks.pending ++ (done ++ change.symbols)) change.blocks.frames := by
  have hplaced := placed_of_mem hs
  have hends := begins_lt_ends_of_mem hs
  have hproper := extent_proper_of_mem hs
  have hordered := (h.step hs hrest ho).ordered
  cases ho with
  | idle =>
      rw [List.append_nil]
      exact hp
  | declared hd =>
      have hdeclares := hd.declares hplaced hends
      rw [← List.append_assoc]
      exact hp.declare h (fits_of_stands hplaced hdeclares.stands hdeclares.ordered)
        (hdeclares.nearest h.ordered)
  | @memberOpened kind header hread hfree =>
      have hparameters := openMember_parameters hplaced hread
      have hparent := Parameters.nearest (m := (openMember kind s header).value) hparameters hordered
      rw [frames_memberOpened hfree] at hparent ⊢
      have hopened := hp.openBlock h (hparameters.fits hplaced) (hparameters.start_lt hplaced) rfl hparent
      exact hopened.perm (known_memberOpened hfree done)
  | @classOpened name hread hfree hfree' =>
      have hopened := hp.openBlock (g := (openedClass s name).frame) h (Fits.nil s) (by simp) rfl (by simp)
      rw [frames_classOpened hfree hfree', List.append_nil]
      rwa [List.append_nil] at hopened
  | @memberClosed m hm =>
      rw [frames_memberClosed hm] at h hp
      have hclosed := hp.closeBlock h hproper (closedRange_value hplaced hends m.start) rfl
        (closedMember_nearest s m hordered)
      exact hclosed.perm (known_memberClosed hm done _)
  | @classClosed c hc hdropped =>
      have hfree : b.openMember = none := by
        by_contra hne
        obtain ⟨p, hmem, hcategory⟩ := hdropped hne
        exact hclean p hmem hcategory
      have hframes : b.frames = [] ++ [c.frame] := by
        rw [frames_of_class hc, hfree]
        rfl
      rw [hframes, pending_eq_nil hfree] at h hp
      exact hp.closeBlock (t := closedClass s c) h hproper (closedRange_value hplaced hends c.start) rfl
        (Or.inl ⟨rfl, fun f hf => List.not_mem_nil hf.1⟩)

end Steps

theorem trace_parented (text : List Char)
    (hclean : ∀ p ∈ (trace (statements text)).problems, p.category ≠ .danglingOpen) :
    Parented ((trace (statements text)).value.blocks.pending ++ (trace (statements text)).value.symbols)
      (trace (statements text)).value.blocks.frames := by
  refine (document_induction (I := fun change noted rest =>
    Nesting (change.blocks.pending ++ change.symbols) change.blocks.frames rest ∧
      ((∀ p ∈ noted, p.category ≠ .danglingOpen) →
        Parented (change.blocks.pending ++ change.symbols) change.blocks.frames)) ?_ ?_).2 hclean
  · exact ⟨nesting_start _, fun _ x hx => absurd hx List.not_mem_nil⟩
  · rintro b done noted s rest problems change hs hrest ho ⟨h, hp⟩
    refine ⟨h.step hs hrest ho, fun hclean => ?_⟩
    obtain ⟨hbefore, hstep⟩ := List.forall_mem_append.1 hclean
    exact (hp hbefore).step hs hrest h ho hstep

/-- Without a report of an open block, none is left open. -/
theorem blocks_eq_empty {b : OpenBlocks} (h : ∀ p ∈ b.neverClosed, p.category ≠ .danglingOpen) : b = {} := by
  obtain ⟨openClass, openMember⟩ := b
  cases openMember with
  | some m => exact absurd rfl (h _ (List.mem_append_left _ List.mem_cons_self))
  | none =>
      cases openClass with
      | some c => exact absurd rfl (h _ (List.mem_append_right _ List.mem_cons_self))
      | none => rfl

/-- If every open block is closed in the end, parents are settled by complete symbols. -/
theorem parse_parented (settings : Settings) (text : String)
    (hclean : ∀ p ∈ reports text.toList, p.category ≠ .danglingOpen) :
    Parented (parse settings text).symbols [] := by
  obtain ⟨htrace, hfinal⟩ := List.forall_mem_append.1 hclean
  have hparented := trace_parented text.toList htrace
  rw [blocks_eq_empty hfinal, pending_eq_nil rfl, List.nil_append] at hparented
  rw [parse_symbols]
  exact hparented

/-! ### The innermost symbol around another -/

/-- The symbols at other places of a list whose ranges cover that of a symbol. -/
def around (symbols : List Symbol) (i : Nat) (x : Symbol) : List Symbol :=
  (symbols.eraseIdx i).filter fun t => t.declaredRange.covers x.declaredRange

/-- A name is that of the innermost of some symbols, if there are any: all of them cover it. -/
def Innermost (symbols : List Symbol) (name : Option String) : Prop :=
  symbols = [] ∧ name = none ∨
    ∃ t ∈ symbols, (∀ u ∈ symbols, u.declaredRange.covers t.declaredRange) ∧ name = some t.name

section Innermost

variable {symbols : List Symbol} {i : Nat} {x : Symbol}
  (hproper : ∀ x ∈ symbols, x.declaredRange.Proper) (hseparate : symbols.Pairwise Separate)
  (hx : symbols[i]? = some x)

theorem covers_of_separate {x t : Symbol} (hx : x.declaredRange.Proper) (h : Separate x t) :
    t.declaredRange.covers x.declaredRange = true ↔ x.declaredRange.Inside t.declaredRange := by
  refine ⟨fun hcovers => ?_, fun hinside => hinside.covers hx⟩
  obtain ⟨hstart, hstop⟩ := (Range.covers_iff hx).1 hcovers
  rcases h with hbefore | hbefore | ⟨hinside, -⟩ | ⟨hinside, -⟩
  · exact absurd (hx.trans hbefore) (not_lt.2 hstart)
  · exact absurd (hbefore.trans hx) (not_lt.2 hstop)
  · exact hinside
  · exact absurd hinside.1 (not_lt.2 hstart)

theorem Nearest.innermost {P : Frame → Prop} {name : Option String} (h : Nearest P name)
    (hP : ∀ f, P f ↔ ∃ t ∈ symbols, f = frameOf t)
    (hcovers : ∀ t ∈ symbols, ∀ u ∈ symbols, u.declaredRange.start ≤ t.declaredRange.start →
      u.declaredRange.covers t.declaredRange = true) : Innermost symbols name := by
  rcases h with ⟨hname, hnone⟩ | ⟨f, hf, hname, hinner⟩
  · refine Or.inl ⟨List.eq_nil_iff_forall_not_mem.2 fun t ht => ?_, hname⟩
    exact hnone _ ((hP _).2 ⟨t, ht, rfl⟩)
  · obtain ⟨t, ht, rfl⟩ := (hP f).1 hf
    refine Or.inr ⟨t, ht, fun u hu => ?_, hname⟩
    exact hcovers t ht u hu (hinner (frameOf u) ((hP _).2 ⟨u, hu, rfl⟩))

include hproper hseparate hx

theorem mem_around {t : Symbol} :
    t ∈ around symbols i x ↔ t ∈ symbols ∧ x.declaredRange.Inside t.declaredRange := by
  have hxproper := hproper x (List.mem_of_getElem? hx)
  rw [around, List.mem_filter, List.mem_eraseIdx_iff_getElem?]
  constructor
  · rintro ⟨⟨j, hne, ht⟩, hcovers⟩
    have hsep := separate_of_ne hseparate (Ne.symm hne) hx ht
    exact ⟨List.mem_of_getElem? ht, (covers_of_separate hxproper hsep).1 hcovers⟩
  · rintro ⟨ht, hinside⟩
    obtain ⟨j, hj⟩ := List.mem_iff_getElem?.1 ht
    refine ⟨⟨j, ?_, hj⟩, hinside.covers hxproper⟩
    rintro rfl
    rw [hx] at hj
    cases hj
    exact lt_irrefl _ hinside.1

/-- Of two symbols around a third the one that starts first covers the other. -/
theorem covers_of_start_le {t u : Symbol} (ht : t ∈ around symbols i x) (hu : u ∈ around symbols i x)
    (hle : u.declaredRange.start ≤ t.declaredRange.start) : u.declaredRange.covers t.declaredRange = true := by
  have hxproper := hproper x (List.mem_of_getElem? hx)
  obtain ⟨ht, hxt⟩ := (mem_around hproper hseparate hx).1 ht
  obtain ⟨hu, hxu⟩ := (mem_around hproper hseparate hx).1 hu
  obtain ⟨j, hj⟩ := List.mem_iff_getElem?.1 ht
  obtain ⟨k, hk⟩ := List.mem_iff_getElem?.1 hu
  by_cases hjk : j = k
  · rw [hjk, hk] at hj
    rw [Option.some.inj hj]
    exact (Range.covers_iff (hproper t ht)).2 ⟨le_rfl, le_rfl⟩
  · rcases separate_of_ne hseparate hjk hj hk with hbefore | hbefore | ⟨hinside, -⟩ | ⟨hinside, -⟩
    · have hapart := (hxt.2.trans hbefore).trans hxu.1
      exact absurd hapart (not_lt.2 hxproper.le)
    · have hapart := (hxu.2.trans hbefore).trans hxt.1
      exact absurd hapart (not_lt.2 hxproper.le)
    · exact hinside.covers (hproper t ht)
    · exact absurd hinside.1 (not_lt.2 hle)

theorem encloses_iff_around {f : Frame} :
    Encloses symbols [] x f ↔ ∃ t ∈ around symbols i x, f = frameOf t := by
  constructor
  · intro h
    cases h with
    | complete ht hinside => exact ⟨_, (mem_around hproper hseparate hx).2 ⟨ht, hinside⟩, rfl⟩
    | opened hf _ => exact absurd hf List.not_mem_nil
  · rintro ⟨t, ht, rfl⟩
    obtain ⟨ht, hinside⟩ := (mem_around hproper hseparate hx).1 ht
    exact .complete ht hinside

end Innermost

/-- If every open block is closed in the end, the parent of a symbol is the innermost other symbol that
covers it, and that of a field is the innermost class that covers it. -/
theorem parent_innermost (settings : Settings) (text : String)
    (hclean : ∀ p ∈ reports text.toList, p.category ≠ .danglingOpen) {i : Nat} {x : Symbol}
    (hx : (parse settings text).symbols[i]? = some x) :
    (x.kind ≠ .field → Innermost (around (parse settings text).symbols i x) x.parent) ∧
      (x.kind = .field → Innermost
        ((around (parse settings text).symbols i x).filter fun t => t.kind = .classDef) x.parent) := by
  have hproper := parse_proper settings text
  have hseparate := parse_separate settings text
  have hnearest := parse_parented settings text hclean x (List.mem_of_getElem? hx)
  constructor
  · intro hkind
    refine hnearest.innermost (fun f => ?_) fun t ht u hu => covers_of_start_le hproper hseparate hx ht hu
    rw [encloses_iff_around hproper hseparate hx]
    exact and_iff_left fun hfield => absurd hfield hkind
  · intro hkind
    refine hnearest.innermost (fun f => ?_) fun t ht u hu =>
      covers_of_start_le hproper hseparate hx (List.mem_filter.1 ht).1 (List.mem_filter.1 hu).1
    rw [encloses_iff_around hproper hseparate hx]
    constructor
    · rintro ⟨⟨t, ht, rfl⟩, hadmits⟩
      exact ⟨t, List.mem_filter.2 ⟨ht, decide_eq_true (hadmits hkind)⟩, rfl⟩
    · rintro ⟨t, ht, rfl⟩
      obtain ⟨ht, hclass⟩ := List.mem_filter.1 ht
      exact ⟨⟨t, ht, rfl⟩, fun _ => of_decide_eq_true hclass⟩

/-- A method with a field, a rejected header and a variable in it, closed by the end of a function; the
last end is stray. -/
def rejectedHeader : String :=
  "Class A : Sub g(x) : Public h\nSub bad() : Dim y\nEnd Function : End Class\nEnd Property"

/-- The field of that method, which belongs to the class. -/
def methodField : Symbol :=
  { kind := .field, name := "h", visibility := some "Public", declaredRange := ⟨⟨0, 21⟩, ⟨0, 29⟩⟩,
    nameRange := ⟨⟨0, 28⟩, ⟨0, 29⟩⟩, parent := some "A" }

theorem parent_innermost_field :
    (∀ p ∈ reports rejectedHeader.toList, p.category ≠ .danglingOpen) ∧
      (parse {} rejectedHeader).symbols[0]? = some methodField ∧
      Innermost ((around (parse {} rejectedHeader).symbols 0 methodField).filter fun t => t.kind = .classDef)
        (some "A") := by
  have hclean : ∀ p ∈ reports rejectedHeader.toList, p.category ≠ .danglingOpen := by decide +kernel
  have hfield : (parse {} rejectedHeader).symbols[0]? = some methodField := by decide +kernel
  exact ⟨hclean, hfield, (parent_innermost {} rejectedHeader hclean hfield).2 rfl⟩

end VbOutline.Outline
