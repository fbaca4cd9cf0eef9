import VbOutline.Proofs.Nesting
import VbOutline.Scope

/-! Scopes of a document's symbols, in whatever order they come. The symbols around a position are those
whose range contains it, from the outermost to the innermost. A symbol is visible at a position if
every symbol around it is around the position too; visible symbols come by depth, then by start. -/

namespace VbOutline

namespace Scope

open Outline (Separate)

/-! ### The order symbols are nested in -/

/-- A symbol comes after another or is inside of it. -/
def Follows (x y : Symbol) : Prop :=
  x.declaredRange.Before y.declaredRange ∨ y.declaredRange.Inside x.declaredRange

/-- Earlier starts come first, and of two ranges that start together the longer one. -/
theorem precedes_iff {a b : Symbol} : precedes a b = true ↔
    a.declaredRange.start < b.declaredRange.start ∨
      a.declaredRange.start = b.declaredRange.start ∧ b.declaredRange.stop ≤ a.declaredRange.stop := by
  simp [precedes]

theorem precedes_trans (a b c : Symbol) (hab : precedes a b = true) (hbc : precedes b c = true) :
    precedes a c = true := by
  rw [precedes_iff] at hab hbc ⊢
  rcases hab with hab | ⟨hab, hab'⟩ <;> rcases hbc with hbc | ⟨hbc, hbc'⟩
  · exact Or.inl (hab.trans hbc)
  · exact Or.inl (hbc ▸ hab)
  · exact Or.inl (hab ▸ hbc)
  · exact Or.inr ⟨hab.trans hbc, hbc'.trans hab'⟩

theorem precedes_total (a b : Symbol) : (precedes a b || precedes b a) = true := by
  rw [Bool.or_eq_true, precedes_iff, precedes_iff]
  rcases lt_trichotomy a.declaredRange.start b.declaredRange.start with h | h | h
  · exact Or.inl (Or.inl h)
  · rcases le_total b.declaredRange.stop a.declaredRange.stop with hle | hle
    · exact Or.inl (Or.inr ⟨h, hle⟩)
    · exact Or.inr (Or.inr ⟨h.symm, hle⟩)
  · exact Or.inr (Or.inl h)

theorem sorted_precedes (symbols : List Symbol) : (sorted symbols).Pairwise fun a b => precedes a b = true :=
  List.pairwise_mergeSort precedes_trans precedes_total symbols

theorem start_le_of_precedes {a b : Symbol} (h : precedes a b = true) :
    a.declaredRange.start ≤ b.declaredRange.start := by
  rcases precedes_iff.1 h with h | h
  · exact h.le
  · exact h.1.le

theorem sorted_perm (symbols : List Symbol) : (sorted symbols).Perm symbols :=
  List.mergeSort_perm symbols precedes

/-- Sorted symbols that are separate follow each other. -/
theorem sorted_follows {symbols : List Symbol} (hproper : ∀ x ∈ symbols, x.declaredRange.Proper)
    (hseparate : symbols.Pairwise Separate) : (sorted symbols).Pairwise Follows := by
  have hsorted := (sorted_perm symbols).symm.pairwise hseparate Separate.symm
  refine ((sorted_precedes symbols).and hsorted).imp_of_mem fun {x y} hx hy h => ?_
  have hle := start_le_of_precedes h.1
  have hyproper := hproper y ((sorted_perm symbols).mem_iff.1 hy)
  rcases h.2 with hbefore | hbefore | ⟨hinside, -⟩ | ⟨hinside, -⟩
  · exact Or.inl hbefore
  · exact absurd (hyproper.trans hbefore) (not_lt.2 hle)
  · exact absurd hinside.1 (not_lt.2 hle)
  · exact Or.inr hinside

/-! ### Building -/

/-- A scope whose symbols enclose what is nested in them and come before what is next to them. -/
inductive WellNested : Scope → Prop
  | nil : WellNested nil
  | cons {symbol : Symbol} {inner next : Scope} (proper : symbol.declaredRange.Proper)
      (inside : ∀ x ∈ inner.toList, x.declaredRange.Inside symbol.declaredRange)
      (after : ∀ y ∈ next.toList, symbol.declaredRange.Before y.declaredRange)
      (hinner : WellNested inner) (hnext : WellNested next) : WellNested (cons symbol inner next)

theorem WellNested.proper {scope : Scope} (h : WellNested scope) :
    ∀ x ∈ scope.toList, x.declaredRange.Proper := by
  induction h with
  | nil => exact fun x hx => absurd hx List.not_mem_nil
  | cons proper _ _ _ _ ihInner ihNext =>
      intro x hx
      rcases List.mem_cons.1 hx with rfl | hx
      · exact proper
      · exact (List.mem_append.1 hx).elim (ihInner x) (ihNext x)

/-- Cutting loses no symbol and keeps the order. -/
theorem toList_cut (r : Range) (scope : Scope) :
    (scope.cut r).1.toList ++ (scope.cut r).2.toList = scope.toList := by
  induction scope with
  | nil => rfl
  | cons symbol inner next _ ih =>
      rw [cut]
      split
      · simp only [toList, List.cons_append, List.append_assoc, ih]
      · rfl

theorem mem_of_mem_cut {r : Range} {scope : Scope} {x : Symbol} (hx : x ∈ (scope.cut r).1.toList) :
    x ∈ scope.toList := by
  rw [← toList_cut r scope]
  exact List.mem_append_left _ hx

theorem WellNested.cut {scope : Scope} (h : WellNested scope) (r : Range) :
    WellNested (scope.cut r).1 ∧ WellNested (scope.cut r).2 := by
  induction h with
  | nil => exact ⟨.nil, .nil⟩
  | cons proper inside after hinner hnext _ ih =>
      rw [Scope.cut]
      split
      · exact ⟨.cons proper inside (fun y hy => after y (mem_of_mem_cut hy)) hinner ih.1, ih.2⟩
      · exact ⟨.nil, .cons proper inside after hinner hnext⟩

/-- What is cut off in front lies inside the symbol that comes before it. -/
theorem cut_inside {symbol : Symbol} {scope : Scope} (h : WellNested scope)
    (hfollows : ∀ x ∈ scope.toList, Follows symbol x) :
    ∀ x ∈ (scope.cut symbol.declaredRange).1.toList, x.declaredRange.Inside symbol.declaredRange := by
  induction h with
  | nil => exact fun x hx => absurd hx List.not_mem_nil
  | @cons first inner next proper inside _ _ _ _ ih =>
      rw [Scope.cut]
      split
      · next hcovers =>
          have hfirst : first.declaredRange.Inside symbol.declaredRange := by
            rcases hfollows first List.mem_cons_self with hbefore | hinside
            · rw [hbefore.not_covers proper] at hcovers
              cases hcovers
            · exact hinside
          intro x hx
          rcases List.mem_cons.1 hx with rfl | hx
          · exact hfirst
          · rcases List.mem_append.1 hx with hx | hx
            · exact (inside x hx).trans hfirst
            · exact ih (fun y hy => hfollows y (List.mem_cons_of_mem _ (List.mem_append_right _ hy))) x hx
      · exact fun x hx => absurd hx List.not_mem_nil

/-- What is left lies behind that symbol. -/
theorem cut_after {symbol : Symbol} {scope : Scope} (h : WellNested scope)
    (hfollows : ∀ x ∈ scope.toList, Follows symbol x) :
    ∀ y ∈ (scope.cut symbol.declaredRange).2.toList, symbol.declaredRange.Before y.declaredRange := by
  induction h with
  | nil => exact fun y hy => absurd hy List.not_mem_nil
  | @cons first inner next proper inside after _ _ _ ih =>
      rw [Scope.cut]
      split
      · exact ih fun y hy => hfollows y (List.mem_cons_of_mem _ (List.mem_append_right _ hy))
      · next hcovers =>
          -- everything from the first symbol on starts after the end of the new one
          have hfirst : symbol.declaredRange.Before first.declaredRange := by
            rcases hfollows first List.mem_cons_self with hbefore | hinside
            · exact hbefore
            · exact absurd (hinside.covers proper) hcovers
          intro y hy
          rcases List.mem_cons.1 hy with rfl | hy
          · exact hfirst
          · rcases List.mem_append.1 hy with hy | hy
            · exact hfirst.trans (inside y hy).1
            · exact (hfirst.trans proper).trans (after y hy)

theorem toList_enclose (symbol : Symbol) (scope : Scope) :
    (enclose symbol scope).toList = symbol :: scope.toList := by
  rw [← toList_cut symbol.declaredRange scope]
  rfl

/-- Enclosing keeps a scope well nested. -/
theorem WellNested.enclose {symbol : Symbol} {scope : Scope} (h : WellNested scope)
    (hproper : symbol.declaredRange.Proper) (hfollows : ∀ x ∈ scope.toList, Follows symbol x) :
    WellNested (enclose symbol scope) := by
  obtain ⟨hcovered, hrest⟩ := h.cut symbol.declaredRange
  exact .cons hproper (cut_inside h hfollows) (cut_after h hfollows) hcovered hrest

/-- Enclosing symbols that follow each other, from the last to the first, nests them all. -/
theorem foldr_enclose {symbols : List Symbol} (hproper : ∀ x ∈ symbols, x.declaredRange.Proper)
    (hfollows : symbols.Pairwise Follows) :
    (symbols.foldr Scope.enclose nil).toList = symbols ∧ WellNested (symbols.foldr Scope.enclose nil) := by
  induction symbols with
  | nil => exact ⟨rfl, .nil⟩
  | cons symbol symbols ih =>
      obtain ⟨hfirst, hothers⟩ := List.pairwise_cons.1 hfollows
      obtain ⟨htoList, hnested⟩ := ih (fun x hx => hproper x (List.mem_cons_of_mem symbol hx)) hothers
      rw [List.foldr_cons]
      refine ⟨by rw [toList_enclose, htoList], ?_⟩
      refine hnested.enclose (hproper symbol List.mem_cons_self) ?_
      rwa [htoList]

/-! ### The symbols around a position -/

/-- On a well-nested scope the path holds exactly the symbols around the position. -/
theorem path_eq_filter {scope : Scope} (h : WellNested scope) (p : Position) :
    scope.path p = scope.toList.filter fun x => x.declaredRange.contains p := by
  induction h with
  | nil => rfl
  | @cons symbol inner next _ inside after _ _ ihInner ihNext =>
      rw [path, toList, List.filter_cons, List.filter_append]
      split
      · next hcontains =>
          have hnext : next.toList.filter (fun x => x.declaredRange.contains p) = [] := by
            rw [List.filter_eq_nil_iff]
            intro y hy
            rw [(after y hy).not_contains hcontains]
            exact Bool.false_ne_true
          rw [hnext, List.append_nil, ihInner]
      · next hcontains =>
          have hinner : inner.toList.filter (fun x => x.declaredRange.contains p) = [] := by
            rw [List.filter_eq_nil_iff]
            exact fun x hx hxp => hcontains ((inside x hx).contains hxp)
          rw [hinner, List.nil_append, ihNext]

/-! ### The symbols around a symbol -/

/-- The other symbols whose ranges cover that of a symbol. -/
def enclosers (symbols : List Symbol) (x : Symbol) : List Symbol :=
  symbols.filter fun t => t ≠ x && t.declaredRange.covers x.declaredRange

theorem enclosers_append (l l' : List Symbol) (x : Symbol) :
    enclosers (l ++ l') x = enclosers l x ++ enclosers l' x :=
  List.filter_append ..

theorem enclosers_eq_nil {l : List Symbol} {x : Symbol}
    (h : ∀ t ∈ l, t.declaredRange.covers x.declaredRange = false) : enclosers l x = [] := by
  rw [enclosers, List.filter_eq_nil_iff]
  intro t ht
  rw [h t ht, Bool.and_false]
  exact Bool.false_ne_true

section Enclosers

variable {symbol x : Symbol} {inner next : Scope}

theorem enclosers_first (h : WellNested (cons symbol inner next)) :
    enclosers (cons symbol inner next).toList symbol = [] := by
  cases h with
  | cons proper inside after hinner hnext =>
      have hself : enclosers [symbol] symbol = [] := by simp [enclosers]
      have hinside : enclosers inner.toList symbol = [] :=
        enclosers_eq_nil fun t ht => (inside t ht).not_covers proper
      have hafter : enclosers next.toList symbol = [] :=
        enclosers_eq_nil fun t ht => (after t ht).not_covered proper
      rw [toList, ← List.singleton_append, enclosers_append, enclosers_append, hself, hinside, hafter]
      rfl

/-- Inside a symbol, that symbol is the outermost encloser. -/
theorem enclosers_inner (h : WellNested (cons symbol inner next)) (hx : x ∈ inner.toList) :
    enclosers (cons symbol inner next).toList x = symbol :: enclosers inner.toList x := by
  cases h with
  | cons proper inside after hinner hnext =>
      have hproper := hinner.proper x hx
      have hself : enclosers [symbol] x = [symbol] := by
        have hne : symbol ≠ x := by
          rintro rfl
          exact lt_irrefl _ (inside symbol hx).1
        simp [enclosers, hne, (inside x hx).covers hproper]
      have hafter : enclosers next.toList x = [] :=
        enclosers_eq_nil fun t ht => Range.Before.not_covered hproper ((inside x hx).2.trans (after t ht))
      rw [toList, ← List.singleton_append, enclosers_append, enclosers_append, hself, hafter, List.append_nil]
      rfl

/-- What stands behind a symbol is not enclosed by it. -/
theorem enclosers_next (h : WellNested (cons symbol inner next)) (hx : x ∈ next.toList) :
    enclosers (cons symbol inner next).toList x = enclosers next.toList x := by
  cases h with
  | cons proper inside after hinner hnext =>
      have hproper := hnext.proper x hx
      have hself : enclosers [symbol] x = [] :=
        enclosers_eq_nil fun t ht => by
          rw [List.mem_singleton.1 ht]
          exact (after x hx).not_covers hproper
      have hinside : enclosers inner.toList x = [] :=
        enclosers_eq_nil fun t ht => Range.Before.not_covers hproper ((inside t ht).2.trans (after x hx))
      rw [toList, ← List.singleton_append, enclosers_append, enclosers_append, hself, hinside]
      rfl

end Enclosers

/-! ### The symbols visible at a position -/

theorem nested_eq_nil {scope : Scope} {p : Position}
    (h : ∀ x ∈ scope.toList, x.declaredRange.contains p = false) : scope.nested p = [] := by
  induction scope with
  | nil => rfl
  | cons symbol inner next _ ih =>
      rw [nested, h symbol List.mem_cons_self]
      exact ih fun x hx => h x (List.mem_cons_of_mem _ (List.mem_append_right _ hx))

/-- What is visible at a position: the first symbol, what is visible next to it and, if the position is in
it, what is visible inside of it. -/
theorem visible_cons {symbol : Symbol} {inner next : Scope} (h : WellNested (cons symbol inner next))
    (p : Position) :
    (cons symbol inner next).visible p = symbol :: (next.visible p ++
      if symbol.declaredRange.contains p then inner.visible p else []) := by
  cases h with
  | cons proper inside after hinner hnext =>
      rw [visible, top, nested]
      split
      · next hcontains =>
          have hnested : next.nested p = [] :=
            nested_eq_nil fun y hy => (after y hy).not_contains hcontains
          rw [visible, visible, hnested, List.append_nil]
          rfl
      · rw [visible, List.append_nil]
        rfl

/-- A symbol is visible at a position that every symbol around it is around. -/
def isVisible (symbols : List Symbol) (p : Position) (x : Symbol) : Bool :=
  (enclosers symbols x).all fun t => t.declaredRange.contains p

theorem filter_isVisible_inner {symbol : Symbol} {inner next : Scope} (h : WellNested (cons symbol inner next))
    (p : Position) :
    inner.toList.filter (isVisible (cons symbol inner next).toList p) =
      if symbol.declaredRange.contains p then inner.toList.filter (isVisible inner.toList p) else [] := by
  have hvisible : ∀ x ∈ inner.toList, isVisible (cons symbol inner next).toList p x =
      (symbol.declaredRange.contains p && isVisible inner.toList p x) := by
    intro x hx
    rw [isVisible, enclosers_inner h hx]
    rfl
  rw [List.filter_congr hvisible]
  cases symbol.declaredRange.contains p <;> simp

theorem filter_isVisible_next {symbol : Symbol} {inner next : Scope} (h : WellNested (cons symbol inner next))
    (p : Position) :
    next.toList.filter (isVisible (cons symbol inner next).toList p) =
      next.toList.filter (isVisible next.toList p) := by
  refine List.filter_congr fun x hx => ?_
  rw [isVisible, enclosers_next h hx]
  rfl

/-- The visible symbols are those whose enclosers all contain the position. -/
theorem visible_perm {scope : Scope} (h : WellNested scope) (p : Position) :
    (scope.visible p).Perm (scope.toList.filter (isVisible scope.toList p)) := by
  induction h with
  | nil => exact .nil
  | @cons symbol inner next proper inside after hinner hnext ihInner ihNext =>
      have h := WellNested.cons proper inside after hinner hnext
      have hfirst : isVisible (cons symbol inner next).toList p symbol = true := by
        rw [isVisible, enclosers_first h]
        rfl
      have hfilter : (cons symbol inner next).toList.filter (isVisible (cons symbol inner next).toList p) =
          symbol :: (inner.toList.filter (isVisible (cons symbol inner next).toList p) ++
            next.toList.filter (isVisible (cons symbol inner next).toList p)) := by
        rw [← List.filter_append]
        exact List.filter_cons_of_pos hfirst
      rw [hfilter, filter_isVisible_inner h, filter_isVisible_next h, visible_cons h]
      refine List.Perm.cons symbol (List.perm_append_comm.trans (List.Perm.append ?_ ihNext))
      split
      · exact ihInner
      · exact .nil

/-- Symbols in the order of their depths and, at one depth, of their starts. -/
def Ranked (symbols : List Symbol) (x y : Symbol) : Prop :=
  (enclosers symbols x).length < (enclosers symbols y).length ∨
    (enclosers symbols x).length = (enclosers symbols y).length ∧
      x.declaredRange.start < y.declaredRange.start

theorem mem_of_mem_visible {scope : Scope} (h : WellNested scope) {p : Position} {x : Symbol}
    (hx : x ∈ scope.visible p) : x ∈ scope.toList ∧ isVisible scope.toList p x = true :=
  List.mem_filter.1 ((visible_perm h p).mem_iff.1 hx)

theorem ranked_of_outermost {symbols : List Symbol} {x y : Symbol} (h : enclosers symbols x = [])
    (hlt : x.declaredRange.start < y.declaredRange.start) : Ranked symbols x y := by
  rw [Ranked, h]
  rcases Nat.eq_zero_or_pos (enclosers symbols y).length with hzero | hpos
  · exact Or.inr ⟨hzero.symm, hlt⟩
  · exact Or.inl hpos

/-- They come outermost first, those of one depth by their starts. -/
theorem visible_ranked {scope : Scope} (h : WellNested scope) (p : Position) :
    (scope.visible p).Pairwise (Ranked scope.toList) := by
  induction h with
  | nil => exact .nil
  | @cons symbol inner next proper inside after hinner hnext ihInner ihNext =>
      have h := WellNested.cons proper inside after hinner hnext
      have hbelow : ∀ x ∈ (if symbol.declaredRange.contains p then inner.visible p else []),
          symbol.declaredRange.contains p = true ∧ x ∈ inner.visible p := by
        intro x hx
        split at hx
        · next hcontains => exact ⟨hcontains, hx⟩
        · exact absurd hx List.not_mem_nil
      rw [visible_cons h, List.pairwise_cons, List.pairwise_append]
      refine ⟨fun x hx => ranked_of_outermost (enclosers_first h) ?_, ?_, ?_, ?_⟩
      · rcases List.mem_append.1 hx with hx | hx
        · exact proper.trans (after x (mem_of_mem_visible hnext hx).1)
        · exact (inside x (mem_of_mem_visible hinner (hbelow x hx).2).1).1
      · refine ihNext.imp_of_mem fun {x y} hx hy hranked => ?_
        rw [Ranked, enclosers_next h (mem_of_mem_visible hnext hx).1,
          enclosers_next h (mem_of_mem_visible hnext hy).1]
        exact hranked
      · split
        · refine ihInner.imp_of_mem fun {x y} hx hy hranked => ?_
          rw [Ranked, enclosers_inner h (mem_of_mem_visible hinner hx).1,
            enclosers_inner h (mem_of_mem_visible hinner hy).1, List.length_cons, List.length_cons,
            Nat.add_lt_add_iff_right, Nat.add_right_cancel_iff]
          exact hranked
        · exact .nil
      · intro y hy x hx
        -- the position is in the first symbol, so what is visible next to it is around no other
        obtain ⟨hcontains, hx⟩ := hbelow x hx
        obtain ⟨hymem, hvisible⟩ := mem_of_mem_visible hnext hy
        have hnone : enclosers next.toList y = [] := by
          refine List.eq_nil_iff_forall_not_mem.2 fun t ht => ?_
          have hin := List.all_eq_true.1 hvisible t ht
          rw [(after t (List.mem_filter.1 ht).1).not_contains hcontains] at hin
          cases hin
        left
        rw [enclosers_next h hymem, hnone, enclosers_inner h (mem_of_mem_visible hinner hx).1]
        exact Nat.succ_pos _

/-! ### Documents -/

section Documents

variable {symbols : List Symbol} (hproper : ∀ x ∈ symbols, x.declaredRange.Proper)
  (hseparate : symbols.Pairwise Separate)

theorem enclosers_sorted (symbols : List Symbol) (x : Symbol) :
    (enclosers (sorted symbols) x).Perm (enclosers symbols x) :=
  (sorted_perm symbols).filter _

include hproper hseparate

theorem ofSymbols_wellNested :
    (ofSymbols symbols).toList = sorted symbols ∧ WellNested (ofSymbols symbols) :=
  foldr_enclose (fun x hx => hproper x ((sorted_perm symbols).mem_iff.1 hx)) (sorted_follows hproper hseparate)

theorem nodup_of_separate : symbols.Nodup := by
  refine hseparate.imp_of_mem fun {x y} hx _ h => ?_
  rintro rfl
  have hx := hproper x hx
  rcases h with hbefore | hbefore | ⟨hinside, -⟩ | ⟨hinside, -⟩
  · exact lt_asymm hx hbefore
  · exact lt_asymm hx hbefore
  · exact lt_irrefl _ hinside.1
  · exact lt_irrefl _ hinside.1

/-- Symbols that follow each other and contain a position are inside of each other. -/
theorem path_inside (p : Position) : ((ofSymbols symbols).path p).Pairwise fun outer inner =>
    inner.declaredRange.Inside outer.declaredRange := by
  obtain ⟨htoList, hnested⟩ := ofSymbols_wellNested hproper hseparate
  rw [path_eq_filter hnested, htoList, List.pairwise_filter]
  refine (sorted_follows hproper hseparate).imp fun {x y} hfollows hx hy => ?_
  rcases hfollows with hbefore | hinside
  · rw [hbefore.not_contains hx] at hy
    cases hy
  · exact hinside

theorem path_perm (p : Position) :
    ((ofSymbols symbols).path p).Perm (symbols.filter fun x => x.declaredRange.contains p) := by
  obtain ⟨htoList, hnested⟩ := ofSymbols_wellNested hproper hseparate
  rw [path_eq_filter hnested, htoList]
  exact (sorted_perm symbols).filter _

theorem mem_visible {p : Position} {x : Symbol} : x ∈ (ofSymbols symbols).visible p ↔
    x ∈ symbols ∧ ∀ t ∈ enclosers symbols x, t.declaredRange.contains p = true := by
  obtain ⟨htoList, hnested⟩ := ofSymbols_wellNested hproper hseparate
  rw [(visible_perm hnested p).mem_iff, List.mem_filter, isVisible, List.all_eq_true, htoList,
    (sorted_perm symbols).mem_iff]
  refine and_congr_right fun _ => forall_congr' fun t => ?_
  rw [(enclosers_sorted symbols x).mem_iff]

theorem visible_nodup (p : Position) : ((ofSymbols symbols).visible p).Nodup := by
  obtain ⟨htoList, hnested⟩ := ofSymbols_wellNested hproper hseparate
  rw [(visible_perm hnested p).nodup_iff, htoList]
  exact ((sorted_perm symbols).nodup_iff.2 (nodup_of_separate hproper hseparate)).filter _

theorem visible_ordered (p : Position) : ((ofSymbols symbols).visible p).Pairwise (Ranked symbols) := by
  obtain ⟨htoList, hnested⟩ := ofSymbols_wellNested hproper hseparate
  refine (visible_ranked hnested p).imp fun {x y} hranked => ?_
  rw [Ranked, htoList, (enclosers_sorted symbols x).length_eq, (enclosers_sorted symbols y).length_eq] at hranked
  exact hranked

end Documents

/-- For the symbols of a document in any order: the path to a position is the symbols whose range contains
it, from the outermost to the innermost, and what is visible there is each symbol whose enclosers all
contain the position, by depth and then by start. -/
theorem path_and_visible (settings : Settings) (text : String) {symbols : List Symbol}
    (hperm : symbols.Perm (Outline.parse settings text).symbols) (p : Position) :
    symbols.Nodup ∧
      ((ofSymbols symbols).path p).Perm (symbols.filter fun x => x.declaredRange.contains p) ∧
      ((ofSymbols symbols).path p).Pairwise (fun outer inner =>
        inner.declaredRange.Inside outer.declaredRange) ∧
      ((ofSymbols symbols).visible p).Nodup ∧
      (∀ x, x ∈ (ofSymbols symbols).visible p ↔
        x ∈ symbols ∧ ∀ t ∈ enclosers symbols x, t.declaredRange.contains p = true) ∧
      ((ofSymbols symbols).visible p).Pairwise (Ranked symbols) := by
  have hproper : ∀ x ∈ symbols, x.declaredRange.Proper := fun x hx =>
    Outline.parse_proper settings text x (hperm.mem_iff.1 hx)
  have hseparate : symbols.Pairwise Separate :=
    hperm.symm.pairwise (Outline.parse_separate settings text) Separate.symm
  exact ⟨nodup_of_separate hproper hseparate, path_perm hproper hseparate p, path_inside hproper hseparate p,
    visible_nodup hproper hseparate p, fun x => mem_visible hproper hseparate,
    visible_ordered hproper hseparate p⟩

/-- Two methods, each with a parameter. -/
def twoMethods : String := "Sub f(a)\nDim b\nEnd Sub\nSub g(c)\nEnd Sub"

/-- The parameter of the first method. -/
def firstParameter : Symbol :=
  { kind := .variableDef, name := "a", declaredRange := ⟨⟨0, 6⟩, ⟨0, 7⟩⟩, nameRange := ⟨⟨0, 6⟩, ⟨0, 7⟩⟩,
    parent := some "f" }

/-- The parameter of the second method. -/
def secondParameter : Symbol :=
  { kind := .variableDef, name := "c", declaredRange := ⟨⟨3, 6⟩, ⟨3, 7⟩⟩, nameRange := ⟨⟨3, 6⟩, ⟨3, 7⟩⟩,
    parent := some "g" }

/-- At the end of the first method, only its own parameter is visible. -/
theorem path_and_visible_reversed :
    (Outline.parse {} twoMethods).symbols.reverse.Perm (Outline.parse {} twoMethods).symbols ∧
      firstParameter ∈ (ofSymbols (Outline.parse {} twoMethods).symbols.reverse).visible ⟨2, 7⟩ ∧
      secondParameter ∉ (ofSymbols (Outline.parse {} twoMethods).symbols.reverse).visible ⟨2, 7⟩ := by
  have hperm := List.reverse_perm (Outline.parse {} twoMethods).symbols
  obtain ⟨-, -, -, -, hvisible, -⟩ := path_and_visible {} twoMethods hperm ⟨2, 7⟩
  refine ⟨hperm, (hvisible firstParameter).2 (by decide +kernel), fun hmem => ?_⟩
  have hsecond := (hvisible secondParameter).1 hmem
  revert hsecond
  decide +kernel

end Scope

end VbOutline
