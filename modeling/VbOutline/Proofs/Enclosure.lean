import VbOutline.Proofs.ScopeTree

/-! Which symbol a symbol is nested in. Symbols are numbered in the order they are nested in, and each
has a parent or stands at the level of the file. For any symbols at all, none is lost and a parent
covers what is directly inside of it; if the ranges are nested or apart, the parent is the latest of
the symbols before it that cover it. -/

namespace VbOutline.Scope

/-! ### Numbers and parents -/

/-- A symbol of a scope with its number and the number of its parent. -/
structure Place where
  number : Nat
  parent : Option Nat
  symbol : Symbol
deriving DecidableEq

/-- The symbols of a scope, each before those nested in it, numbered from `n` on; those that are not nested
get the given parent. -/
def placesFrom (parent : Option Nat) (n : Nat) : Scope → List Place
  | nil => []
  | cons symbol inner next =>
    ⟨n, parent, symbol⟩ ::
      (placesFrom (some n) (n + 1) inner ++ placesFrom parent (n + 1 + inner.toList.length) next)

/-- The symbols of a scope with their numbers and parents. -/
def places (scope : Scope) : List Place := scope.placesFrom none 0

theorem placesFrom_zipIdx (parent : Option Nat) (n : Nat) (scope : Scope) :
    (scope.placesFrom parent n).map (fun p => (p.symbol, p.number)) = scope.toList.zipIdx n := by
  induction scope generalizing parent n with
  | nil => rfl
  | cons symbol inner next ihInner ihNext =>
      rw [placesFrom, List.map_cons, List.map_append, ihInner, ihNext, toList, List.zipIdx_cons,
        List.zipIdx_append]

/-- A scope put below a parent: what had none gets it. -/
theorem placesFrom_parent (parent : Option Nat) (n : Nat) (scope : Scope) :
    scope.placesFrom parent n = (scope.placesFrom none n).map fun p => { p with parent := p.parent <|> parent } := by
  induction scope generalizing parent n with
  | nil => rfl
  | cons symbol inner next ihInner ihNext =>
      rw [placesFrom, placesFrom, List.map_cons, List.map_append, ihInner (some n), ihNext parent, List.map_map]
      simp [Function.comp_def]

theorem placesFrom_cut (r : Range) (parent : Option Nat) (n : Nat) (scope : Scope) :
    scope.placesFrom parent n = (scope.cut r).1.placesFrom parent n ++
      (scope.cut r).2.placesFrom parent (n + (scope.cut r).1.toList.length) := by
  induction scope generalizing n with
  | nil => rfl
  | cons symbol inner next _ ih =>
      rw [cut]
      split
      · rw [placesFrom, ih]
        simp only [placesFrom, toList, List.length_cons, List.length_append, List.cons_append, List.append_assoc]
        congr 4
        omega
      · rfl

theorem mem_placesFrom {parent : Option Nat} {n : Nat} {scope : Scope} {p : Place}
    (h : p ∈ scope.placesFrom parent n) : n ≤ p.number ∧ scope.toList[p.number - n]? = some p.symbol := by
  have hmem : (p.symbol, p.number) ∈ scope.toList.zipIdx n := by
    rw [← placesFrom_zipIdx parent n scope]
    exact List.mem_map_of_mem h
  exact List.mk_mem_zipIdx_iff_le_and_getElem?_sub.1 hmem

/-- What a range takes in, it covers. -/
theorem covers_of_mem_cut {r : Range} {n : Nat} {scope : Scope} {p : Place}
    (h : p ∈ (scope.cut r).1.placesFrom none n) (hroot : p.parent = none) :
    r.covers p.symbol.declaredRange = true := by
  induction scope generalizing n with
  | nil => cases h
  | cons symbol inner next _ ih =>
      rw [cut] at h
      split at h
      · next hcovers =>
          rcases List.mem_cons.1 h with rfl | h
          · exact hcovers
          · rcases List.mem_append.1 h with h | h
            · -- nothing that is nested stands at the level of the file
              rw [placesFrom_parent] at h
              obtain ⟨q, -, rfl⟩ := List.mem_map.1 h
              simp at hroot
            · exact ih h
      · cases h

/-- What a range does not take in starts with a symbol that it does not cover. -/
theorem not_covers_of_cut {r : Range} {scope inner next : Scope} {symbol : Symbol}
    (h : (scope.cut r).2 = cons symbol inner next) : r.covers symbol.declaredRange = false := by
  induction scope with
  | nil => cases h
  | cons first inner' next' _ ih =>
      rw [cut] at h
      split at h
      · exact ih h
      · next hcovers =>
          cases h
          exact Bool.not_eq_true _ ▸ hcovers

theorem toList_foldr_enclose (symbols : List Symbol) : (symbols.foldr enclose nil).toList = symbols := by
  induction symbols with
  | nil => rfl
  | cons symbol symbols ih => rw [List.foldr_cons, toList_enclose, ih]

/-! ### Parents cover their children -/

/-- One symbol of a list covers another. -/
def CoversAt (symbols : List Symbol) (i j : Nat) : Prop :=
  ∃ x y, symbols[i]? = some x ∧ symbols[j]? = some y ∧ x.declaredRange.covers y.declaredRange = true

/-- What is nested in a symbol that is put in front of others, and what stands next to it. -/
theorem mem_places_enclose {symbol : Symbol} {scope : Scope} {n : Nat} {p : Place}
    (h : p ∈ (enclose symbol scope).placesFrom none n) :
    p = ⟨n, none, symbol⟩ ∨
      (∃ q ∈ scope.placesFrom none (n + 1), q.number = p.number ∧ q.symbol = p.symbol ∧
        p.parent = (q.parent <|> some n) ∧
        (q.parent = none → symbol.declaredRange.covers p.symbol.declaredRange = true)) ∨
      ∃ m, p ∈ (scope.cut symbol.declaredRange).2.placesFrom none m ∧ p ∈ scope.placesFrom none (n + 1) := by
  have hscope := placesFrom_cut symbol.declaredRange none (n + 1) scope
  rcases List.mem_cons.1 h with rfl | h
  · exact .inl rfl
  · rcases List.mem_append.1 h with h | h
    · rw [placesFrom_parent] at h
      obtain ⟨q, hq, rfl⟩ := List.mem_map.1 h
      refine .inr (.inl ⟨q, ?_, rfl, rfl, rfl, covers_of_mem_cut hq⟩)
      rw [hscope]
      exact List.mem_append_left _ hq
    · refine .inr (.inr ⟨_, h, ?_⟩)
      rw [hscope]
      exact List.mem_append_right _ h

/-- The numbers of a scope's symbols are their places in the list it was built from. -/
theorem getElem?_of_mem_places {front symbols : List Symbol} {p : Place}
    (h : p ∈ (symbols.foldr enclose nil).placesFrom none front.length) :
    front.length ≤ p.number ∧ (front ++ symbols)[p.number]? = some p.symbol := by
  obtain ⟨hle, hsymbol⟩ := mem_placesFrom h
  rw [toList_foldr_enclose] at hsymbol
  exact ⟨hle, by rw [List.getElem?_append_right hle, hsymbol]⟩

/-- The symbols of a scope, seen in a longer list: they follow the front and the symbol put before them. -/
theorem mem_places_cons {front symbols : List Symbol} (symbol : Symbol) {q : Place}
    (h : q ∈ (symbols.foldr enclose nil).placesFrom none (front.length + 1)) :
    q ∈ (symbols.foldr enclose nil).placesFrom none (front ++ [symbol]).length := by
  rwa [List.length_append]

theorem coversAt_front {front symbols : List Symbol} {symbol : Symbol} {q : Place}
    (h : q ∈ (symbols.foldr enclose nil).placesFrom none (front.length + 1)) :
    CoversAt (front ++ symbol :: symbols) front.length q.number ↔
      symbol.declaredRange.covers q.symbol.declaredRange = true := by
  have hsymbol := (getElem?_of_mem_places (mem_places_cons symbol h)).2
  rw [List.append_assoc, List.singleton_append] at hsymbol
  have hfirst : (front ++ symbol :: symbols)[front.length]? = some symbol := by simp
  constructor
  · rintro ⟨x, y, hx, hy, hcovers⟩
    cases hx.symm.trans hfirst
    cases hy.symm.trans hsymbol
    exact hcovers
  · exact fun hcovers => ⟨symbol, q.symbol, hfirst, hsymbol, hcovers⟩

/-- Whatever the ranges are, a parent comes before its children and covers them. -/
theorem covers_of_parent (front symbols : List Symbol) :
    ∀ p ∈ (symbols.foldr enclose nil).placesFrom none front.length, ∀ i, p.parent = some i →
      i < p.number ∧ CoversAt (front ++ symbols) i p.number := by
  induction symbols generalizing front with
  | nil => exact fun p hp => absurd hp List.not_mem_nil
  | cons symbol symbols ih =>
      have hrest := ih (front ++ [symbol])
      rw [List.append_assoc, List.singleton_append] at hrest
      intro p hp i hi
      rcases mem_places_enclose hp with rfl | ⟨q, hq, hnumber, hsymbol, hparent, hcovers⟩ | ⟨m, -, hp⟩
      · cases hi
      · rw [← hnumber]
        cases hroot : q.parent with
        | some j =>
            rw [hroot, hi] at hparent
            cases hparent
            exact hrest q (mem_places_cons symbol hq) i hroot
        | none =>
            rw [hroot, hi] at hparent
            cases hparent
            refine ⟨(mem_placesFrom hq).1, (coversAt_front hq).2 ?_⟩
            rw [hsymbol]
            exact hcovers hroot
      · exact hrest p (mem_places_cons symbol hp) i hi

/-! ### The latest symbol around -/

/-- The latest of the symbols from number `n` on that come before the symbol with number `j` and cover it. -/
def LatestCover (symbols : List Symbol) (n j : Nat) : Option Nat → Prop
  | some i => n ≤ i ∧ i < j ∧ CoversAt symbols i j ∧ ∀ k, i < k → k < j → ¬ CoversAt symbols k j
  | none => ∀ k, n ≤ k → k < j → ¬ CoversAt symbols k j

section LatestCover

variable {symbols : List Symbol} {n j : Nat} {parent : Option Nat}

theorem LatestCover.of_covers (h : LatestCover symbols (n + 1) j parent) (hlt : n < j)
    (hcovers : parent = none → CoversAt symbols n j) : LatestCover symbols n j (parent <|> some n) := by
  cases parent with
  | some i => exact ⟨Nat.le_of_succ_le h.1, h.2⟩
  | none => exact ⟨Nat.le_refl n, hlt, hcovers rfl, fun k hk hkj => h k hk hkj⟩

theorem LatestCover.of_not_covers (h : LatestCover symbols (n + 1) j parent) (hcovers : ¬ CoversAt symbols n j) :
    LatestCover symbols n j parent := by
  cases parent with
  | some i => exact ⟨Nat.le_of_succ_le h.1, h.2⟩
  | none =>
      intro k hk hkj
      rcases Nat.eq_or_lt_of_le hk with rfl | hlt
      · exact hcovers
      · exact h k hlt hkj

end LatestCover

/-- Two symbols are nested in one of the two ways, or one ends before the other starts. -/
def NestedOrApart (x y : Symbol) : Prop :=
  x.declaredRange.Before y.declaredRange ∨ y.declaredRange.Before x.declaredRange ∨
    x.declaredRange.covers y.declaredRange = true ∨ y.declaredRange.covers x.declaredRange = true

/-- A symbol that does not cover a later one ends before it starts. -/
theorem before_of_not_covers {x y : Symbol} (hx : x.declaredRange.start ≤ x.declaredRange.stop)
    (hy : y.declaredRange.start ≤ y.declaredRange.stop) (hnested : NestedOrApart x y)
    (hprecedes : precedes x y = true) (hcovers : x.declaredRange.covers y.declaredRange = false) :
    x.declaredRange.Before y.declaredRange := by
  rcases hnested with hbefore | hbefore | hinner | houter
  · exact hbefore
  · have hstart := start_le_of_precedes hprecedes
    exact absurd (hy.trans_lt hbefore) (not_lt.2 hstart)
  · rw [hcovers] at hinner
    cases hinner
  · -- the later symbol starts where the earlier one does and reaches no further
    obtain ⟨hstart, hstop⟩ := (Range.covers_iff_of_le hx).1 houter
    have hall : x.declaredRange.covers y.declaredRange = true := by
      refine (Range.covers_iff_of_le hy).2 ⟨start_le_of_precedes hprecedes, ?_⟩
      rcases precedes_iff.1 hprecedes with hlt | ⟨-, hle⟩
      · exact absurd hlt (not_lt.2 hstart)
      · exact hle
    rw [hcovers] at hall
    cases hall

section Latest

variable {symbol : Symbol} {symbols : List Symbol}

/-- Past the first symbol that another one does not cover, it covers none. -/
theorem not_covers_rest (hvalid : ∀ x ∈ symbol :: symbols, x.declaredRange.start ≤ x.declaredRange.stop)
    (hordered : (symbol :: symbols).Pairwise fun x y => precedes x y = true)
    (hnested : (symbol :: symbols).Pairwise NestedOrApart) {y : Symbol}
    (hy : y ∈ ((symbols.foldr enclose nil).cut symbol.declaredRange).2.toList) :
    symbol.declaredRange.covers y.declaredRange = false := by
  have hlist := toList_cut symbol.declaredRange (symbols.foldr enclose nil)
  rw [toList_foldr_enclose] at hlist
  cases hrest : ((symbols.foldr enclose nil).cut symbol.declaredRange).2 with
  | nil =>
      rw [hrest] at hy
      cases hy
  | cons first inner next =>
      rw [hrest] at hy hlist
      have hmem : first ∈ symbols := by
        rw [← hlist]
        exact List.mem_append_right _ List.mem_cons_self
      have hmem' : y ∈ symbols := by
        rw [← hlist]
        exact List.mem_append_right _ hy
      obtain ⟨hfirst, hothers⟩ := List.pairwise_cons.1 hordered
      have hbefore : symbol.declaredRange.Before first.declaredRange :=
        before_of_not_covers (hvalid symbol List.mem_cons_self) (hvalid first (List.mem_cons_of_mem _ hmem))
          ((List.pairwise_cons.1 hnested).1 first hmem) (hfirst first hmem) (not_covers_of_cut hrest)
      have hstart : first.declaredRange.start ≤ y.declaredRange.start := by
        rcases List.mem_cons.1 hy with rfl | hy
        · exact le_rfl
        · rw [← hlist] at hothers
          exact start_le_of_precedes
            ((List.pairwise_cons.1 (List.pairwise_append.1 hothers).2.1).1 y hy)
      rw [Bool.eq_false_iff, ne_eq, Range.covers_iff_of_le (hvalid y (List.mem_cons_of_mem _ hmem'))]
      rintro ⟨-, hstop⟩
      have hylast := hvalid y (List.mem_cons_of_mem _ hmem')
      unfold Range.Before at hbefore
      order

/-- If ranges are nested or apart, the parent is the latest symbol around. -/
theorem latest_of_parent (front symbols : List Symbol)
    (hvalid : ∀ x ∈ symbols, x.declaredRange.start ≤ x.declaredRange.stop)
    (hordered : symbols.Pairwise fun x y => precedes x y = true) (hnested : symbols.Pairwise NestedOrApart) :
    ∀ p ∈ (symbols.foldr enclose nil).placesFrom none front.length,
      LatestCover (front ++ symbols) front.length p.number p.parent := by
  induction symbols generalizing front with
  | nil => exact fun p hp => absurd hp List.not_mem_nil
  | cons symbol symbols ih =>
      have hrest := ih (front ++ [symbol]) (fun x hx => hvalid x (List.mem_cons_of_mem symbol hx))
        (List.pairwise_cons.1 hordered).2 (List.pairwise_cons.1 hnested).2
      rw [List.append_assoc, List.singleton_append, List.length_append, List.length_singleton] at hrest
      intro p hp
      rcases mem_places_enclose hp with rfl | ⟨q, hq, hnumber, hsymbol, hparent, hcovers⟩ | ⟨m, hout, hp⟩
      · intro k hk hlt
        exact absurd hlt (Nat.not_lt.2 hk)
      · rw [← hnumber, hparent]
        refine (hrest q hq).of_covers (mem_placesFrom hq).1 fun hroot => (coversAt_front hq).2 ?_
        rw [hsymbol]
        exact hcovers hroot
      · refine (hrest p hp).of_not_covers ?_
        rw [coversAt_front hp, not_covers_rest hvalid hordered hnested (List.mem_of_getElem? (mem_placesFrom hout).2)]
        exact Bool.false_ne_true

end Latest

/-! ### Symbols in any order -/

/-- A list in the order symbols are nested in: it has the same symbols, and those with the same range keep
their order. -/
structure StablySorted (symbols result : List Symbol) : Prop where
  perm : result.Perm symbols
  ordered : result.Pairwise fun x y => precedes x y = true
  stable : ∀ r : Range, (result.filter fun x => x.declaredRange = r) = symbols.filter fun x => x.declaredRange = r

theorem stablySorted_sorted (symbols : List Symbol) : StablySorted symbols (sorted symbols) := by
  refine ⟨sorted_perm symbols, sorted_precedes symbols, fun r => ?_⟩
  have hsame : (symbols.filter fun x => x.declaredRange = r).Pairwise fun x y => precedes x y = true := by
    refine List.pairwise_of_forall_mem_list fun x hx y hy => precedes_iff.2 (Or.inr ?_)
    have hxr : x.declaredRange = r := by simpa using (List.mem_filter.1 hx).2
    have hyr : y.declaredRange = r := by simpa using (List.mem_filter.1 hy).2
    rw [hxr, hyr]
    exact ⟨rfl, le_rfl⟩
  have hkept : List.Sublist (symbols.filter fun x => x.declaredRange = r) (sorted symbols) :=
    List.sublist_mergeSort precedes_trans precedes_total hsame List.filter_sublist
  have hfilter := hkept.filter fun x => x.declaredRange = r
  rw [List.filter_filter] at hfilter
  simp only [Bool.and_self] at hfilter
  exact (hfilter.eq_of_length ((sorted_perm symbols).filter _).length_eq.symm).symm

/-- Symbols in any order, with any ranges, are all nested, in the order of their starts: a parent covers what is
directly inside of it, and if ranges are nested or apart it is the latest symbol that covers it. -/
theorem nested_by_range (symbols : List Symbol) :
    (ofSymbols symbols).toList = sorted symbols ∧ StablySorted symbols (ofSymbols symbols).toList ∧
      (ofSymbols symbols).places.map (fun p => (p.symbol, p.number)) = (sorted symbols).zipIdx ∧
      (∀ p ∈ (ofSymbols symbols).places, ∀ i, p.parent = some i →
        i < p.number ∧ CoversAt (sorted symbols) i p.number) ∧
      ((∀ x ∈ symbols, x.declaredRange.start ≤ x.declaredRange.stop) → symbols.Pairwise NestedOrApart →
        ∀ p ∈ (ofSymbols symbols).places, LatestCover (sorted symbols) 0 p.number p.parent) := by
  have htoList : (ofSymbols symbols).toList = sorted symbols := toList_foldr_enclose (sorted symbols)
  refine ⟨htoList, htoList ▸ stablySorted_sorted symbols, ?_, covers_of_parent [] (sorted symbols), ?_⟩
  · rw [places, placesFrom_zipIdx, htoList]
  · intro hvalid hnested
    refine latest_of_parent [] (sorted symbols) (fun x hx => hvalid x ((sorted_perm symbols).mem_iff.1 hx))
      (sorted_precedes symbols) ((sorted_perm symbols).symm.pairwise hnested ?_)
    rintro x y (h | h | h | h)
    · exact .inr (.inl h)
    · exact .inl h
    · exact .inr (.inr (.inr h))
    · exact .inr (.inr (.inl h))

/-- A variable with a range. -/
def variableAt (name : String) (r : Range) : Symbol :=
  { kind := .variableDef, name := name, declaredRange := r, nameRange := r }

/-- A point, a range behind it and two symbols that share a range around the point. -/
def twins : List Symbol :=
  [variableAt "c" ⟨⟨1, 0⟩, ⟨1, 0⟩⟩, variableAt "d" ⟨⟨5, 0⟩, ⟨6, 0⟩⟩, variableAt "a" ⟨⟨0, 0⟩, ⟨4, 0⟩⟩,
    variableAt "b" ⟨⟨0, 0⟩, ⟨4, 0⟩⟩]

theorem nested_by_range_twins :
    (∀ x ∈ twins, x.declaredRange.start ≤ x.declaredRange.stop) ∧ twins.Pairwise NestedOrApart ∧
      (ofSymbols twins).places.map (fun p => (p.symbol.name, p.parent)) =
        [("a", none), ("b", some 0), ("c", some 1), ("d", none)] ∧
      ∀ p ∈ (ofSymbols twins).places, LatestCover (sorted twins) 0 p.number p.parent := by
  have hvalid : ∀ x ∈ twins, x.declaredRange.start ≤ x.declaredRange.stop := by decide
  have hnested : twins.Pairwise NestedOrApart := by
    unfold NestedOrApart Range.Before
    decide
  have hsorted : sorted twins = [variableAt "a" ⟨⟨0, 0⟩, ⟨4, 0⟩⟩, variableAt "b" ⟨⟨0, 0⟩, ⟨4, 0⟩⟩,
      variableAt "c" ⟨⟨1, 0⟩, ⟨1, 0⟩⟩, variableAt "d" ⟨⟨5, 0⟩, ⟨6, 0⟩⟩] := by
    simp [sorted, twins, List.mergeSort, precedes, variableAt, Position.lt_iff, Position.le_iff]
  refine ⟨hvalid, hnested, ?_, (nested_by_range twins).2.2.2.2 hvalid hnested⟩
  rw [ofSymbols, hsorted]
  rfl

end VbOutline.Scope
