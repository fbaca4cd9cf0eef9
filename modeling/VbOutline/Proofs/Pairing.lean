import Mathlib.Data.Nat.Find
import VbOutline.Proofs.Nesting
import VbOutline.Proofs.Turns

/-! How headers and ends go together, for any statements read one after the other. What is open at some point
is told by the statements alone: a block whose header was accepted stays open until the first end of its
own kind, and a member no longer than its class. The reading holds exactly the blocks that are open in
this sense. So a header is accepted if nothing is in its way, each block that was opened is either closed
once, and becomes one symbol then, or dropped once, and is reported then. -/

namespace VbOutline.Outline

open Grammar Source

/-! ### What stays open -/

/-- What was opened at `i` is still open at `n`: nothing ended it in between. -/
def StaysOpen (opens ends : Nat → Prop) (i n : Nat) : Prop := opens i ∧ i < n ∧ ∀ k, i < k → k < n → ¬ ends k

section StaysOpen

variable {opens ends : Nat → Prop} {i n : Nat}

/-- What is open one statement later was open and did not end, or has just opened. -/
theorem staysOpen_succ :
    StaysOpen opens ends i (n + 1) ↔ StaysOpen opens ends i n ∧ ¬ ends n ∨ i = n ∧ opens n := by
  constructor
  · rintro ⟨hopens, hlt, hbetween⟩
    by_cases hi : i = n
    · exact .inr ⟨hi, hi ▸ hopens⟩
    · exact .inl ⟨⟨hopens, by omega, fun k hk hkn => hbetween k hk (by omega)⟩, hbetween n (by omega) (by omega)⟩
  · rintro (⟨⟨hopens, hlt, hbetween⟩, hends⟩ | ⟨rfl, hopens⟩)
    · refine ⟨hopens, by omega, fun k hk hkn => ?_⟩
      by_cases hkn' : k = n
      · exact hkn' ▸ hends
      · exact hbetween k hk (by omega)
    · exact ⟨hopens, by omega, fun k hk hkn => by omega⟩

/-- What was opened before the end of a run stays open until it is ended or the run is over. -/
theorem existsUnique_end (opens ends : Nat → Prop) {length : Nat} (hends : ∀ k, ends k → k < length)
    (hopens : opens i) (hi : i < length) :
    ∃! n, StaysOpen opens ends i n ∧ (ends n ∨ n = length) := by
  classical
  have hsome : ∃ n, i < n ∧ (ends n ∨ n = length) := ⟨length, hi, .inr rfl⟩
  obtain ⟨hlt, hstop⟩ := Nat.find_spec hsome
  refine ⟨Nat.find hsome, ⟨⟨hopens, hlt, fun k hk hkn hend => ?_⟩, hstop⟩, ?_⟩
  · exact Nat.find_min hsome hkn ⟨hk, .inl hend⟩
  · rintro n ⟨⟨-, hin, hbetween⟩, hn⟩
    have hmin : Nat.find hsome ≤ n := Nat.find_min' hsome ⟨hin, hn⟩
    rcases Nat.lt_or_ge (Nat.find hsome) n with hless | hge
    · -- the first end lies before `n`, so it is the end of the run, and `n` lies behind that
      have hlength := hstop.resolve_left (hbetween _ hlt hless)
      rcases hn with hn | hn
      · have hbound := hends n hn
        omega
      · omega
    · omega

end StaysOpen

/-! ### Slots -/

/-- A slot for the one thing that can be open: it is empty if nothing is, and else holds what was made of
that thing. -/
def Holds {ι α : Type} (made : ι → α → Prop) (isOpen : ι → Prop) : Option α → Prop
  | none => ∀ x, ¬ isOpen x
  | some a => ∃ x, made x a ∧ ∀ y, isOpen y ↔ y = x

section Holds

variable {ι α : Type} {made : ι → α → Prop} {isOpen isOpen' : ι → Prop} {slot : Option α}

theorem Holds.congr (h : Holds made isOpen slot) (hsame : ∀ x, isOpen' x ↔ isOpen x) :
    Holds made isOpen' slot := by
  have heq : isOpen' = isOpen := funext fun x => propext (hsame x)
  rwa [heq]

theorem Holds.eq_none (h : Holds made isOpen slot) (hnone : ∀ x, ¬ isOpen x) : slot = none := by
  cases slot with
  | none => rfl
  | some a =>
      obtain ⟨x, -, honly⟩ := h
      exact absurd ((honly x).2 rfl) (hnone x)

/-- If something is open, the slot holds what it made. -/
theorem Holds.of_isOpen (h : Holds made isOpen slot) {x : ι} (hx : isOpen x) : ∃ a, slot = some a ∧ made x a := by
  cases slot with
  | none => exact absurd hx (h x)
  | some a =>
      obtain ⟨y, hmade, honly⟩ := h
      cases (honly x).1 hx
      exact ⟨a, rfl, hmade⟩

theorem Holds.map {β : Type} {f : α → β} (h : Holds made isOpen slot) (made' : ι → β → Prop)
    (hf : ∀ x a, made x a → made' x (f a)) : Holds made' isOpen (slot.map f) := by
  cases slot with
  | none => exact h
  | some a =>
      obtain ⟨x, hmade, honly⟩ := h
      exact ⟨x, hf x a hmade, honly⟩

end Holds

/-! ### Runs -/

section Runs

variable (settings : Settings) (ss : List Statement)

/-- The reading before the statement with a number. -/
def readingAt (n : Nat) : Reading := (Reading.start settings).consumeAll (ss.take n)

/-- The rule that consumes the statement with a number. -/
def answerAt (n : Nat) : Option Rule := ss[n]?.bind fun s => ((readingAt settings ss n).consume s).1

/-- The problems of the statement with a number; after the last statement, those of the conclusion. -/
def reportsAt (n : Nat) : List Problem :=
  match ss[n]? with
  | some s => (consume (readingAt settings ss n).blocks s).problems
  | none => (readingAt settings ss n).blocks.neverClosed

/-- The statement with a number is an end with one of some words. -/
def IsEnd (words : List Keyword) (n : Nat) : Prop := ∃ s, ss[n]? = some s ∧ (readEnd? words s.cursor).isSome

/-- The class that the statement with a number opens. -/
def ClassAt (j : Nat) (c : OpenClass) : Prop :=
  ∃ s name, ss[j]? = some s ∧ readClassHeader? s.cursor = some name ∧ c = openedClass s name

/-- The member that the statement with a number opens. -/
def MemberAt (x : MemberKind × Nat) (m : OpenMember) : Prop :=
  ∃ s h, ss[x.2]? = some s ∧ MemberHeader.read? x.1 s.cursor = some h ∧ m = (openMember x.1 s h).value

/-- The class of an accepted header is open until the first end of a class. -/
def ClassOpen (n j : Nat) : Prop :=
  StaysOpen (fun i => answerAt settings ss i = some .classOpen) (IsEnd ss [.classKw]) j n

/-- The statement with a number ends members of a kind: by their own end, or by that of an open class. -/
def MemberEnded (n : Nat) (kind : MemberKind) : Prop :=
  IsEnd ss kind.words n ∨ IsEnd ss [.classKw] n ∧ ∃ j, ClassOpen settings ss n j

/-- The member of an accepted header is open until it is ended. -/
def MemberOpen (n : Nat) (x : MemberKind × Nat) : Prop :=
  StaysOpen (fun i => answerAt settings ss i = some (opener x.1)) (fun k => MemberEnded settings ss k x.1) x.2 n

/-- What the reading holds is what is open. -/
structure InStep (n : Nat) : Prop where
  openClass : Holds (ClassAt ss) (ClassOpen settings ss n) (readingAt settings ss n).blocks.openClass
  openMember : Holds (MemberAt ss) (MemberOpen settings ss n) (readingAt settings ss n).blocks.openMember

end Runs

section Steps

variable {settings : Settings} {ss : List Statement} {n : Nat} {s : Statement}

/-- One statement further, the reading has consumed it. -/
theorem readingAt_succ (hs : ss[n]? = some s) :
    readingAt settings ss (n + 1) = ((readingAt settings ss n).consume s).2 := by
  rw [readingAt, List.take_add_one, hs, Reading.consumeAll, List.foldl_append]
  rfl

theorem answerAt_eq (hs : ss[n]? = some s) :
    answerAt settings ss n = (consume (readingAt settings ss n).blocks s).value.map Prod.fst := by
  rw [answerAt, hs, Option.bind_some, consume_eq]

theorem reportsAt_eq (hs : ss[n]? = some s) :
    reportsAt settings ss n = (consume (readingAt settings ss n).blocks s).problems := by
  rw [reportsAt, hs]

theorem isEnd_iff (hs : ss[n]? = some s) {words : List Keyword} :
    IsEnd ss words n ↔ (readEnd? words s.cursor).isSome := by
  constructor
  · rintro ⟨s', hs', hread⟩
    cases hs.symm.trans hs'
    exact hread
  · exact fun hread => ⟨s, hs, hread⟩

/-- The turn of the statement with a number. -/
theorem turnAt (hs : ss[n]? = some s) :
    Turn (readingAt settings ss n).blocks s (answerAt settings ss n)
      (step (readingAt settings ss n).blocks s).value (dangling (reportsAt settings ss n)) := by
  rw [answerAt_eq hs, reportsAt_eq hs]
  exact takes _ s

theorem blocks_succ (hs : ss[n]? = some s) :
    (readingAt settings ss (n + 1)).blocks = (step (readingAt settings ss n).blocks s).value.blocks := by
  rw [readingAt_succ hs, consume_eq]

theorem symbols_succ (hs : ss[n]? = some s) :
    (readingAt settings ss (n + 1)).symbols.toList =
      (readingAt settings ss n).symbols.toList ++ (step (readingAt settings ss n).blocks s).value.symbols := by
  rw [readingAt_succ hs, consume_eq]
  exact Array.toList_append

theorem kind_of_memberAt {x : MemberKind × Nat} {m : OpenMember} (h : MemberAt ss x m) : m.kind = x.1 := by
  obtain ⟨s, header, -, -, rfl⟩ := h
  rfl

theorem memberOf_eq_some {b : OpenBlocks} {m : OpenMember} (hm : b.openMember = some m) :
    b.memberOf m.kind = some m := by
  rw [OpenBlocks.memberOf, hm]
  exact Option.filter_some_pos (beq_self_eq_true m.kind)

/-- Only the rule that reads a statement makes it an end. -/
theorem eq_closer_of_isEnd (hs : ss[n]? = some s) {rule : Rule} (hrule : rule ∈ Rule.ofBlocks)
    (hreads : rule.Reads s) {kind : MemberKind} (hends : IsEnd ss kind.words n) : rule = closer kind :=
  Rule.reads_unique hrule (closer_mem kind) hreads ((reads_closer kind).2 ((isEnd_iff hs).1 hends))

theorem eq_classClose_of_isEnd (hs : ss[n]? = some s) {rule : Rule} (hrule : rule ∈ Rule.ofBlocks)
    (hreads : rule.Reads s) (hends : IsEnd ss [.classKw] n) : rule = .classClose :=
  Rule.reads_unique hrule (by decide) hreads ((isEnd_iff hs).1 hends)

theorem classOpen_succ {j : Nat} : ClassOpen settings ss (n + 1) j ↔
    ClassOpen settings ss n j ∧ ¬ IsEnd ss [.classKw] n ∨ j = n ∧ answerAt settings ss n = some .classOpen :=
  staysOpen_succ

theorem memberOpen_succ {x : MemberKind × Nat} : MemberOpen settings ss (n + 1) x ↔
    MemberOpen settings ss n x ∧ ¬ MemberEnded settings ss n x.1 ∨
      x.2 = n ∧ answerAt settings ss n = some (opener x.1) :=
  staysOpen_succ

variable {openClass : Option OpenClass} {openMember : Option OpenMember}

/-- A slot of a class is kept where none opens and none ends. -/
theorem class_kept (h : Holds (ClassAt ss) (ClassOpen settings ss n) openClass)
    (hopens : answerAt settings ss n ≠ some .classOpen) (hends : IsEnd ss [.classKw] n → openClass = none) :
    Holds (ClassAt ss) (ClassOpen settings ss (n + 1)) openClass := by
  refine h.congr fun j => ?_
  rw [classOpen_succ]
  constructor
  · rintro (⟨hopen, -⟩ | ⟨-, hanswer⟩)
    · exact hopen
    · exact absurd hanswer hopens
  · intro hopen
    obtain ⟨c, hc, -⟩ := h.of_isOpen hopen
    refine .inl ⟨hopen, fun hend => ?_⟩
    rw [hends hend] at hc
    cases hc

theorem member_kept (h : Holds (MemberAt ss) (MemberOpen settings ss n) openMember)
    (hopens : ∀ kind, answerAt settings ss n ≠ some (opener kind))
    (hends : ∀ m, openMember = some m → ¬ MemberEnded settings ss n m.kind) :
    Holds (MemberAt ss) (MemberOpen settings ss (n + 1)) openMember := by
  refine h.congr fun x => ?_
  rw [memberOpen_succ]
  constructor
  · rintro (⟨hopen, -⟩ | ⟨-, hanswer⟩)
    · exact hopen
    · exact absurd hanswer (hopens x.1)
  · intro hopen
    obtain ⟨m, hm, hmade⟩ := h.of_isOpen hopen
    refine .inl ⟨hopen, ?_⟩
    rw [← kind_of_memberAt hmade]
    exact hends m hm

theorem member_ended (h : Holds (MemberAt ss) (MemberOpen settings ss n) openMember)
    (hopens : ∀ kind, answerAt settings ss n ≠ some (opener kind))
    (hends : ∀ m, openMember = some m → MemberEnded settings ss n m.kind) :
    Holds (MemberAt ss) (MemberOpen settings ss (n + 1)) none := by
  intro x hx
  rcases memberOpen_succ.1 hx with ⟨hopen, hnot⟩ | ⟨-, hanswer⟩
  · obtain ⟨m, hm, hmade⟩ := h.of_isOpen hopen
    rw [← kind_of_memberAt hmade] at hnot
    exact hnot (hends m hm)
  · exact hopens x.1 hanswer

theorem InStep.start : InStep settings ss 0 :=
  ⟨fun _ h => absurd h.2.1 (Nat.not_lt_zero _), fun _ h => absurd h.2.1 (Nat.not_lt_zero _)⟩

/-- A turn changes what is open and what is held alike. -/
theorem holds_of_turn {b : OpenBlocks} {answer : Option Rule} {change : Change} {left : List Problem}
    (hs : ss[n]? = some s) (hanswer : answerAt settings ss n = answer) (hturn : Turn b s answer change left)
    (hclass : Holds (ClassAt ss) (ClassOpen settings ss n) b.openClass)
    (hmember : Holds (MemberAt ss) (MemberOpen settings ss n) b.openMember) :
    Holds (ClassAt ss) (ClassOpen settings ss (n + 1)) change.blocks.openClass ∧
      Holds (MemberAt ss) (MemberOpen settings ss (n + 1)) change.blocks.openMember := by
  cases hturn with
  | @memberOpened kind header hread hfree =>
      have hreads : (opener kind).Reads s := (reads_opener kind).2 (Option.isSome_of_eq_some hread)
      refine ⟨class_kept hclass ?_ fun hend => ?_, (kind, n), ⟨s, header, hs, hread, rfl⟩, fun x => ?_⟩
      · rw [hanswer]
        exact fun heq => opener_ne_classOpen kind (Option.some.inj heq)
      · exact absurd (eq_classClose_of_isEnd hs (opener_mem kind) hreads hend) (opener_ne_classClose kind)
      · rw [hfree] at hmember
        rw [memberOpen_succ, hanswer]
        constructor
        · rintro (⟨hopen, -⟩ | ⟨hx, heq⟩)
          · exact absurd hopen (hmember x)
          · exact Prod.ext (opener_injective (Option.some.inj heq)).symm hx
        · rintro rfl
          exact .inr ⟨rfl, rfl⟩
  | @classOpened name hread hfree hfree' =>
      have hopens : ∀ kind, answerAt settings ss n ≠ some (opener kind) := fun kind heq =>
        opener_ne_classOpen kind (Option.some.inj (heq.symm.trans hanswer))
      refine ⟨⟨n, ⟨s, name, hs, hread, rfl⟩, fun j => ?_⟩, member_kept hmember hopens ?_⟩
      · rw [hfree] at hclass
        rw [classOpen_succ]
        constructor
        · rintro (⟨hopen, -⟩ | ⟨hj, -⟩)
          · exact absurd hopen (hclass j)
          · exact hj
        · rintro rfl
          exact .inr ⟨rfl, hanswer⟩
      · intro m hm
        rw [hfree'] at hm
        cases hm
  | @memberClosed kind m hread hm =>
      have hreads : (closer kind).Reads s := (reads_closer kind).2 hread
      have hopens : ∀ kind', answerAt settings ss n ≠ some (opener kind') := fun kind' heq =>
        opener_ne_closer kind' kind (Option.some.inj (heq.symm.trans hanswer))
      refine ⟨class_kept hclass ?_ fun hend => ?_, member_ended hmember hopens fun m' hm' => .inl ?_⟩
      · rw [hanswer]
        exact fun heq => closer_ne_classOpen kind (Option.some.inj heq)
      · exact absurd (eq_classClose_of_isEnd hs (closer_mem kind) hreads hend) (closer_ne_classClose kind)
      · obtain ⟨hopen, hkind⟩ := Option.filter_eq_some_iff.1 hm
        cases hopen.symm.trans hm'
        rw [eq_of_beq hkind]
        exact (isEnd_iff hs).2 hread
  | @classClosed c hread hc =>
      have hend : IsEnd ss [.classKw] n := (isEnd_iff hs).2 hread
      have hopens : ∀ kind, answerAt settings ss n ≠ some (opener kind) := fun kind heq =>
        opener_ne_classClose kind (Option.some.inj (heq.symm.trans hanswer))
      refine ⟨fun j hj => ?_, member_ended hmember hopens fun m hm => .inr ⟨hend, ?_⟩⟩
      · rcases classOpen_succ.1 hj with ⟨-, hnot⟩ | ⟨-, heq⟩
        · exact hnot hend
        · cases heq.symm.trans hanswer
      · rw [hc] at hclass
        obtain ⟨j, -, honly⟩ := hclass
        exact ⟨j, (honly j).2 rfl⟩
  | passed hsymbols hopens hidle =>
      rw [← hanswer] at hopens
      have hnoClass : IsEnd ss [.classKw] n → b.openClass = none := by
        intro hend
        have hstray := hidle .classClose (by decide) ((isEnd_iff hs).1 hend)
        exact Classical.not_not.1 hstray
      refine ⟨class_kept hclass hopens.1 hnoClass, member_kept hmember hopens.2 fun m hm hend => ?_⟩
      rcases hend with hend | ⟨hend, j, hj⟩
      · have hstray := hidle (closer m.kind) (closer_mem m.kind) ((reads_closer m.kind).2 ((isEnd_iff hs).1 hend))
        rw [acts_closer, memberOf_eq_some hm] at hstray
        exact hstray nofun
      · rw [hnoClass hend] at hclass
        exact hclass j hj

theorem InStep.succ (h : InStep settings ss n) : InStep settings ss (n + 1) := by
  cases hs : ss[n]? with
  | none =>
      have hsame : readingAt settings ss (n + 1) = readingAt settings ss n := by
        rw [readingAt, readingAt, List.take_add_one, hs, Option.toList_none, List.append_nil]
      have hanswer : answerAt settings ss n = none := by rw [answerAt, hs, Option.bind_none]
      have hends : ∀ words, ¬ IsEnd ss words n := by
        rintro words ⟨s, hs', -⟩
        rw [hs] at hs'
        cases hs'
      refine ⟨?_, ?_⟩
      · rw [hsame]
        exact class_kept h.openClass (by rw [hanswer]; nofun) fun hend => absurd hend (hends _)
      · rw [hsame]
        refine member_kept h.openMember (fun _ => by rw [hanswer]; nofun) fun m _ hend => ?_
        exact hend.elim (hends _) fun hclass => hends _ hclass.1
  | some s =>
      obtain ⟨hclass, hmember⟩ := holds_of_turn hs rfl (turnAt hs) h.openClass h.openMember
      rw [← blocks_succ hs] at hclass hmember
      exact ⟨hclass, hmember⟩

theorem inStep (settings : Settings) (ss : List Statement) (n : Nat) : InStep settings ss n := by
  induction n with
  | zero => exact .start
  | succ n ih => exact ih.succ

end Steps

/-! ### The pairing -/

section Pairing

variable (settings : Settings) (ss : List Statement)

/-- A class is closed by an end of a class while it is open. -/
def ClassClosed (n j : Nat) : Prop := ClassOpen settings ss n j ∧ IsEnd ss [.classKw] n

/-- A class is dropped if it is open after the last statement. -/
def ClassDropped (n j : Nat) : Prop := ClassOpen settings ss n j ∧ n = ss.length

/-- A member is closed by an end of its kind while it is open. -/
def MemberClosed (n : Nat) (x : MemberKind × Nat) : Prop := MemberOpen settings ss n x ∧ IsEnd ss x.1.words n

/-- A member is dropped if its class ends, or if it is open after the last statement. -/
def MemberDropped (n : Nat) (x : MemberKind × Nat) : Prop :=
  MemberOpen settings ss n x ∧ (IsEnd ss [.classKw] n ∧ (∃ j, ClassOpen settings ss n j) ∨ n = ss.length)

/-- How a class that is dropped is reported. -/
def ClassReport (j : Nat) (p : Problem) : Prop :=
  ∃ c, ClassAt ss j c ∧ p = (Finding.neverClosed "class" c.name).onLine c.line

/-- How a member that is dropped is reported. -/
def MemberReport (n : Nat) (x : MemberKind × Nat) (p : Problem) : Prop :=
  ∃ m, MemberAt ss x m ∧
    (n = ss.length ∧ p = (Finding.neverClosed m.keyword m.name).onLine m.line ∨
      ∃ j c, ClassOpen settings ss n j ∧ ClassAt ss j c ∧
        p = (Finding.openAtClassEnd m.keyword m.name c.name).onLine m.line)

/-- How headers and ends go together. -/
structure Paired : Prop where
  member_accepted : ∀ n kind, answerAt settings ss n = some (opener kind) ↔
    (∃ s, ss[n]? = some s ∧ (MemberHeader.read? kind s.cursor).isSome) ∧ ∀ x, ¬ MemberOpen settings ss n x
  class_accepted : ∀ n, answerAt settings ss n = some .classOpen ↔
    (∃ s, ss[n]? = some s ∧ (readClassHeader? s.cursor).isSome) ∧
      (∀ j, ¬ ClassOpen settings ss n j) ∧ ∀ x, ¬ MemberOpen settings ss n x
  /-- A member that was opened is closed or dropped, once and not both. -/
  member_ends : ∀ i kind, answerAt settings ss i = some (opener kind) →
    (∃! n, MemberClosed settings ss n (kind, i) ∨ MemberDropped settings ss n (kind, i)) ∧
      ∀ n, ¬ (MemberClosed settings ss n (kind, i) ∧ MemberDropped settings ss n (kind, i))
  class_ends : ∀ i, answerAt settings ss i = some .classOpen →
    (∃! n, ClassClosed settings ss n i ∨ ClassDropped settings ss n i) ∧
      ∀ n, ¬ (ClassClosed settings ss n i ∧ ClassDropped settings ss n i)
  /-- What is closed becomes a symbol with what its header says. -/
  member_closed : ∀ n x, MemberClosed settings ss n x → ∃ s m, ss[n]? = some s ∧ MemberAt ss x m ∧
    (readingAt settings ss (n + 1)).symbols.toList = (readingAt settings ss n).symbols.toList ++
      closedMember (readingAt settings ss n).blocks s m :: m.parameters ∧
    ∀ p ∈ m.parameters, p.kind = .variableDef
  class_closed : ∀ n j, ClassClosed settings ss n j → ∃ s c, ss[n]? = some s ∧ ClassAt ss j c ∧
    (readingAt settings ss (n + 1)).symbols.toList = (readingAt settings ss n).symbols.toList ++ [closedClass s c]
  /-- A statement that closes nothing completes no more than its own declarations. -/
  not_closed : ∀ n s, ss[n]? = some s → (∀ x, ¬ MemberClosed settings ss n x) →
    (∀ j, ¬ ClassClosed settings ss n j) → ∃ symbols,
      (readingAt settings ss (n + 1)).symbols.toList = (readingAt settings ss n).symbols.toList ++ symbols ∧
      (symbols = [] ∨ Declaration (readingAt settings ss n).blocks s symbols) ∧
      ∀ x ∈ symbols, x.kind.isBlock = false
  symbols_eq : ((Reading.start settings).consumeAll ss).conclude.symbols = (readingAt settings ss ss.length).symbols
  /-- What is dropped is reported then, and nothing else is reported as left open. -/
  dropped : ∀ n, n ≤ ss.length → ∃ member owner : Option Problem,
    dangling (reportsAt settings ss n) = member.toList ++ owner.toList ∧
      Holds (MemberReport settings ss n) (MemberDropped settings ss n) member ∧
      Holds (ClassReport ss) (ClassDropped settings ss n) owner
  /-- Every report is kept or counted. -/
  log_eq : ((Reading.start settings).consumeAll ss).conclude.log =
    ProblemLog.addAll { limit := settings.maxProblems }
      ((List.range (ss.length + 1)).flatMap (reportsAt settings ss))

end Pairing

section Laws

variable {settings : Settings} {ss : List Statement} {n : Nat} {s : Statement}

theorem lt_length_of_isEnd {words : List Keyword} (h : IsEnd ss words n) : n < ss.length := by
  obtain ⟨s, hs, -⟩ := h
  exact (List.getElem?_eq_some_iff.1 hs).1

theorem exists_of_answerAt {rule : Rule} (h : answerAt settings ss n = some rule) : ∃ s, ss[n]? = some s := by
  obtain ⟨s, hs, -⟩ := Option.bind_eq_some_iff.1 h
  exact ⟨s, hs⟩

/-- A header is accepted exactly where no member is open. -/
theorem answerAt_eq_opener_iff {kind : MemberKind} : answerAt settings ss n = some (opener kind) ↔
    (∃ s, ss[n]? = some s ∧ (MemberHeader.read? kind s.cursor).isSome) ∧ ∀ x, ¬ MemberOpen settings ss n x := by
  have hheld := (inStep settings ss n).openMember
  constructor
  · intro hanswer
    obtain ⟨s, hs⟩ := exists_of_answerAt hanswer
    obtain ⟨hread, hfree⟩ := (turnAt hs).of_opener hanswer
    rw [hfree] at hheld
    exact ⟨⟨s, hs, hread⟩, hheld⟩
  · rintro ⟨⟨s, hs, hread⟩, hnone⟩
    exact (turnAt hs).answer_eq (opener_mem kind) ((reads_opener kind).2 hread)
      ((acts_opener kind).2 (hheld.eq_none hnone))

theorem answerAt_eq_classOpen_iff : answerAt settings ss n = some .classOpen ↔
    (∃ s, ss[n]? = some s ∧ (readClassHeader? s.cursor).isSome) ∧
      (∀ j, ¬ ClassOpen settings ss n j) ∧ ∀ x, ¬ MemberOpen settings ss n x := by
  obtain ⟨hclass, hmember⟩ := inStep settings ss n
  constructor
  · intro hanswer
    obtain ⟨s, hs⟩ := exists_of_answerAt hanswer
    obtain ⟨hread, hfree, hfree'⟩ := (turnAt hs).of_classOpen hanswer
    rw [hfree] at hclass
    rw [hfree'] at hmember
    exact ⟨⟨s, hs, hread⟩, hclass, hmember⟩
  · rintro ⟨⟨s, hs, hread⟩, hnone, hnone'⟩
    exact (turnAt hs).answer_eq (by decide) hread ⟨hclass.eq_none hnone, hmember.eq_none hnone'⟩

/-- Every member that opens is closed or dropped, once. -/
theorem existsUnique_memberEnd {i : Nat} {kind : MemberKind} (h : answerAt settings ss i = some (opener kind)) :
    ∃! n, MemberClosed settings ss n (kind, i) ∨ MemberDropped settings ss n (kind, i) := by
  obtain ⟨s, hs⟩ := exists_of_answerAt h
  have hends : ∀ k, MemberEnded settings ss k kind → k < ss.length := by
    rintro k (hend | ⟨hend, -⟩)
    · exact lt_length_of_isEnd hend
    · exact lt_length_of_isEnd hend
  have hunique := existsUnique_end (fun i => answerAt settings ss i = some (opener kind)) _ hends h
    (List.getElem?_eq_some_iff.1 hs).1
  refine (existsUnique_congr fun n => ?_).1 hunique
  show MemberOpen settings ss n (kind, i) ∧ ((_ ∨ _) ∨ _) ↔ _
  rw [or_assoc, and_or_left]
  rfl

theorem existsUnique_classEnd {i : Nat} (h : answerAt settings ss i = some .classOpen) :
    ∃! n, ClassClosed settings ss n i ∨ ClassDropped settings ss n i := by
  obtain ⟨s, hs⟩ := exists_of_answerAt h
  have hunique := existsUnique_end (fun i => answerAt settings ss i = some .classOpen) (IsEnd ss [.classKw])
    (fun _ => lt_length_of_isEnd) h (List.getElem?_eq_some_iff.1 hs).1
  refine (existsUnique_congr fun n => ?_).1 hunique
  exact and_or_left

theorem not_both_isEnd {kind : MemberKind} (h : IsEnd ss kind.words n) : ¬ IsEnd ss [.classKw] n := by
  rintro ⟨s, hs, hread⟩
  have hreads : Rule.classClose.Reads s := hread
  exact closer_ne_classClose kind (eq_closer_of_isEnd hs (by decide) hreads h).symm

theorem variableDef_of_memberAt {x : MemberKind × Nat} {m : OpenMember} (h : MemberAt ss x m) :
    ∀ p ∈ m.parameters, p.kind = .variableDef := by
  obtain ⟨s, header, -, -, rfl⟩ := h
  exact fun p hp => (headerParameters_owned hp).1

theorem Declaration.not_isBlock {b : OpenBlocks} {symbols : List Symbol} (h : Declaration b s symbols) :
    ∀ x ∈ symbols, x.kind.isBlock = false := by
  intro x hx
  cases h with
  | field =>
      cases List.mem_singleton.1 hx
      rfl
  | dim =>
      rw [variableSymbols] at hx
      split at hx
      · cases hx
      · rcases List.mem_cons.1 hx with rfl | hx
        · rfl
        · rw [value_mapM] at hx
          obtain ⟨e, -, rfl⟩ := List.mem_map.1 hx
          rfl
  | constant =>
      cases List.mem_singleton.1 hx
      rfl

/-- Closing a member adds its symbol and its parameters, made from its header. -/
theorem symbols_of_memberClosed {x : MemberKind × Nat} (h : MemberClosed settings ss n x) :
    ∃ s m, ss[n]? = some s ∧ MemberAt ss x m ∧
      (readingAt settings ss (n + 1)).symbols.toList = (readingAt settings ss n).symbols.toList ++
        closedMember (readingAt settings ss n).blocks s m :: m.parameters ∧
      ∀ p ∈ m.parameters, p.kind = .variableDef := by
  obtain ⟨hopen, s, hs, hread⟩ := h
  obtain ⟨m, hm, hmade⟩ := (inStep settings ss n).openMember.of_isOpen hopen
  have hmemberOf := memberOf_eq_some hm
  rw [kind_of_memberAt hmade] at hmemberOf
  refine ⟨s, m, hs, hmade, ?_, variableDef_of_memberAt hmade⟩
  rw [symbols_succ hs, (turnAt hs).of_closer hread hmemberOf]

theorem symbols_of_classClosed {j : Nat} (h : ClassClosed settings ss n j) :
    ∃ s c, ss[n]? = some s ∧ ClassAt ss j c ∧
      (readingAt settings ss (n + 1)).symbols.toList =
        (readingAt settings ss n).symbols.toList ++ [closedClass s c] := by
  obtain ⟨hopen, s, hs, hread⟩ := h
  obtain ⟨c, hc, hmade⟩ := (inStep settings ss n).openClass.of_isOpen hopen
  refine ⟨s, c, hs, hmade, ?_⟩
  rw [symbols_succ hs, ((turnAt hs).of_classClose hread hc).1]

theorem openClass_eq_none (hs : ss[n]? = some s) (h : ∀ j, ¬ ClassClosed settings ss n j)
    (hread : (readEnd? [.classKw] s.cursor).isSome) : (readingAt settings ss n).blocks.openClass = none :=
  (inStep settings ss n).openClass.eq_none fun j hj => h j ⟨hj, s, hs, hread⟩

theorem symbols_of_not_closed (hs : ss[n]? = some s) (hmember : ∀ x, ¬ MemberClosed settings ss n x)
    (hclass : ∀ j, ¬ ClassClosed settings ss n j) :
    ∃ symbols, (readingAt settings ss (n + 1)).symbols.toList =
        (readingAt settings ss n).symbols.toList ++ symbols ∧
      (symbols = [] ∨ Declaration (readingAt settings ss n).blocks s symbols) ∧
      ∀ x ∈ symbols, x.kind.isBlock = false := by
  have hnone : ∀ kind, (readEnd? kind.words s.cursor).isSome →
      (readingAt settings ss n).blocks.memberOf kind = none := by
    intro kind hread
    have hheld := (inStep settings ss n).openMember
    cases hm : (readingAt settings ss n).blocks.memberOf kind with
    | none => rfl
    | some m =>
        obtain ⟨hopen, hkind⟩ := Option.filter_eq_some_iff.1 hm
        rw [hopen] at hheld
        obtain ⟨x, hmade, honly⟩ := hheld
        have hx : x.1 = kind := (kind_of_memberAt hmade).symm.trans (eq_of_beq hkind)
        rw [← hx] at hread
        exact absurd ⟨(honly x).2 rfl, s, hs, hread⟩ (hmember x)
  have hsymbols := (turnAt hs).of_not_closing hnone (openClass_eq_none hs hclass)
  refine ⟨_, symbols_succ hs, hsymbols, fun x hx => ?_⟩
  rcases hsymbols with hnil | hdeclared
  · rw [hnil] at hx
    cases hx
  · exact hdeclared.not_isBlock x hx

/-! ### Reports -/

theorem dangling_neverClosed (b : OpenBlocks) : dangling b.neverClosed = b.neverClosed := by
  obtain ⟨openClass, openMember⟩ := b
  cases openClass <;> cases openMember <;> rfl

/-- Blocks left open are reported exactly where they are dropped, the member first. -/
theorem dangling_reportsAt (hn : n ≤ ss.length) : ∃ member owner : Option Problem,
    dangling (reportsAt settings ss n) = member.toList ++ owner.toList ∧
      Holds (MemberReport settings ss n) (MemberDropped settings ss n) member ∧
      Holds (ClassReport ss) (ClassDropped settings ss n) owner := by
  obtain ⟨hclass, hmember⟩ := inStep settings ss n
  cases hs : ss[n]? with
  | none =>
      have hlength : n = ss.length := Nat.le_antisymm hn (List.getElem?_eq_none_iff.1 hs)
      have hmembers := hmember.map (MemberReport settings ss n) fun x m hmade => ⟨m, hmade, .inl ⟨hlength, rfl⟩⟩
      have hclasses := hclass.map (ClassReport ss) fun j c hmade => ⟨c, hmade, rfl⟩
      refine ⟨_, _, ?_, hmembers.congr fun x => and_iff_left (.inr hlength),
        hclasses.congr fun j => and_iff_left hlength⟩
      rw [reportsAt, hs, Option.toList_map, Option.toList_map]
      exact dangling_neverClosed _
  | some s =>
      have hlt : n < ss.length := (List.getElem?_eq_some_iff.1 hs).1
      by_cases hany : ∃ j, ClassClosed settings ss n j
      · obtain ⟨j, hopen, hend⟩ := hany
        obtain ⟨c, hc, hmade⟩ := hclass.of_isOpen hopen
        have hreports := ((turnAt hs).of_classClose ((isEnd_iff hs).1 hend) hc).2
        have hmembers := hmember.map (MemberReport settings ss n) fun x m hm =>
          ⟨m, hm, .inr ⟨j, c, hopen, hmade, rfl⟩⟩
        refine ⟨_, none, ?_, hmembers.congr fun x => and_iff_left (.inl ⟨hend, j, hopen⟩), ?_⟩
        · rw [hreports, Option.toList_map, Option.toList_none, List.append_nil]
        · exact fun j' hj' => absurd hj'.2 (Nat.ne_of_lt hlt)
      · have hreports := (turnAt hs).left_eq_nil (openClass_eq_none hs (not_exists.1 hany))
        refine ⟨none, none, hreports, ?_, fun j hj => absurd hj.2 (Nat.ne_of_lt hlt)⟩
        rintro x ⟨-, ⟨hend, j, hj⟩ | hlength⟩
        · exact hany ⟨j, hj, hend⟩
        · exact absurd hlength (Nat.ne_of_lt hlt)

theorem log_readingAt (hn : n ≤ ss.length) :
    (readingAt settings ss n).log = ProblemLog.addAll { limit := settings.maxProblems }
      ((List.range n).flatMap (reportsAt settings ss)) := by
  induction n with
  | zero => rfl
  | succ n ih =>
      have hs : ss[n]? = some ss[n] := List.getElem?_eq_getElem hn
      rw [readingAt_succ hs, consume_eq, List.range_succ, List.flatMap_append, List.flatMap_singleton,
        ProblemLog.addAll_append, ← ih (Nat.le_of_succ_le hn), reportsAt_eq hs]

theorem readingAt_length : readingAt settings ss ss.length = (Reading.start settings).consumeAll ss := by
  rw [readingAt, List.take_length]

/-- Whatever statements are read, headers and ends are paired. -/
theorem paired (settings : Settings) (ss : List Statement) : Paired settings ss := by
  constructor
  case member_accepted => exact fun n kind => answerAt_eq_opener_iff
  case class_accepted => exact fun n => answerAt_eq_classOpen_iff
  case member_ends =>
    refine fun i kind h => ⟨existsUnique_memberEnd h, ?_⟩
    rintro n ⟨⟨-, hend⟩, -, ⟨hclass, -⟩ | hlength⟩
    · exact not_both_isEnd hend hclass
    · exact absurd hlength (Nat.ne_of_lt (lt_length_of_isEnd hend))
  case class_ends =>
    refine fun i h => ⟨existsUnique_classEnd h, ?_⟩
    rintro n ⟨⟨-, hend⟩, -, hlength⟩
    exact absurd hlength (Nat.ne_of_lt (lt_length_of_isEnd hend))
  case member_closed => exact fun n x => symbols_of_memberClosed
  case class_closed => exact fun n j => symbols_of_classClosed
  case not_closed => exact fun n s => symbols_of_not_closed
  case symbols_eq =>
    rw [readingAt_length]
    rfl
  case dropped => exact fun n => dangling_reportsAt
  case log_eq =>
    have hend : ss[ss.length]? = none := List.getElem?_eq_none_iff.2 (Nat.le_refl _)
    have hreports : reportsAt settings ss ss.length =
        ((Reading.start settings).consumeAll ss).blocks.neverClosed := by
      rw [reportsAt, hend, readingAt_length]
    rw [List.range_succ, List.flatMap_append, List.flatMap_singleton, ProblemLog.addAll_append,
      ← log_readingAt (Nat.le_refl _), readingAt_length, hreports]
    rfl

example : (List.range 4).map (answerAt {} (statements "Class A\nSub f\nSub g\nEnd Class".toList)) =
    [some .classOpen, some .methodOpen, none, some .classClose] := by
  decide +kernel

end Laws

end VbOutline.Outline
