import VbOutline.Proofs.Enclosure

/-! Nesting in one pass. The symbols are taken in their order while a stack holds those that are still open; a symbol
is put below the innermost open one that covers it, and those that do not cover it are closed. Nothing is asked of the
ranges: for any symbols at all the pass builds the tree of the scope (`onePass_eq`), and no other scope has that tree
(`places_injective`). -/

namespace VbOutline.Scope

/-! ### The pass -/

/-- The state of the pass. -/
structure Pass where
  /-- The open symbols with their numbers, the innermost first; below them stands the file. -/
  stack : List (Nat × Symbol) := []
  /-- The symbols taken so far, each with its number and the number of what it was put below. -/
  placed : List Place := []

/-- Closes the open symbols that do not cover a range, up to the innermost that does. -/
def unwind (r : Range) (stack : List (Nat × Symbol)) : List (Nat × Symbol) :=
  stack.dropWhile fun (_, outer) => !outer.declaredRange.covers r

/-- Takes a symbol: it is put below the innermost open symbol that covers it, and is open itself from then on. -/
def Pass.take (pass : Pass) (symbol : Symbol) : Pass :=
  let stack := unwind symbol.declaredRange pass.stack
  let number := pass.placed.length
  { stack := (number, symbol) :: stack
    placed := pass.placed ++ [⟨number, stack.head?.map Prod.fst, symbol⟩] }

/-- The symbols with their numbers and parents, as one pass over them finds them. -/
def onePass (symbols : List Symbol) : List Place := ((sorted symbols).foldl Pass.take {}).placed

/-! ### What is still to come -/

/-- Where the symbols of a scope go while others are open: the innermost takes in what it covers, up to the first that
it does not, and the rest is left to those further out. -/
def hang : List (Nat × Symbol) → Nat → Scope → List Place
  | [], n, scope => scope.placesFrom none n
  | (i, outer) :: stack, n, scope =>
    let (covered, rest) := scope.cut outer.declaredRange
    covered.placesFrom (some i) n ++ hang stack (n + covered.toList.length) rest

theorem hang_nil (stack : List (Nat × Symbol)) (n : Nat) : hang stack n nil = [] := by
  induction stack generalizing n with
  | nil => rfl
  | cons outer stack ih => exact ih n

/-- A symbol with what is nested in it goes below the innermost open symbol that covers it; what stands next to it
finds the same symbols open. -/
theorem hang_cons (stack : List (Nat × Symbol)) (n : Nat) (symbol : Symbol) (inner next : Scope) :
    hang stack n (cons symbol inner next) =
      ⟨n, (unwind symbol.declaredRange stack).head?.map Prod.fst, symbol⟩ ::
        (inner.placesFrom (some n) (n + 1) ++
          hang (unwind symbol.declaredRange stack) (n + 1 + inner.toList.length) next) := by
  induction stack with
  | nil => rfl
  | cons outer stack ih =>
      obtain ⟨i, outer⟩ := outer
      by_cases hcovers : outer.declaredRange.covers symbol.declaredRange = true
      · have hunwind : unwind symbol.declaredRange ((i, outer) :: stack) = (i, outer) :: stack :=
          List.dropWhile_cons_of_neg (by simp [hcovers])
        have hlength : n + (symbol :: (inner.toList ++ (next.cut outer.declaredRange).1.toList)).length =
            n + 1 + inner.toList.length + (next.cut outer.declaredRange).1.toList.length := by
          rw [List.length_cons, List.length_append]
          omega
        rw [hunwind, hang, hang, cut, if_pos hcovers]
        simp only [placesFrom, toList, hlength, List.cons_append, List.append_assoc]
        rfl
      · have hunwind : unwind symbol.declaredRange ((i, outer) :: stack) = unwind symbol.declaredRange stack :=
          List.dropWhile_cons_of_pos (by simp [hcovers])
        rw [hunwind, hang, cut, if_neg hcovers]
        exact ih

/-- What a pass finds from some state on: what is placed already, and the scope of the symbols to come, hung on the
open ones. -/
theorem placed_foldl_take (symbols : List Symbol) (pass : Pass) :
    (symbols.foldl Pass.take pass).placed =
      pass.placed ++ hang pass.stack pass.placed.length (symbols.foldr enclose nil) := by
  induction symbols generalizing pass with
  | nil => rw [List.foldr_nil, hang_nil, List.append_nil, List.foldl_nil]
  | cons symbol symbols ih =>
      -- the scope of the others is cut by the symbol, which is the innermost open one from now on
      rw [List.foldl_cons, ih, List.foldr_cons, enclose, hang_cons]
      simp only [Pass.take, hang, List.length_append, List.length_singleton, List.append_assoc, List.singleton_append]

/-- One pass with a stack finds the tree of the scope, whatever the ranges are. -/
theorem onePass_eq (symbols : List Symbol) : onePass symbols = (ofSymbols symbols).places :=
  placed_foldl_take (sorted symbols) {}

/-! ### Trees by their parents -/

/-- Whether a symbol was put below one of number `n` or later. -/
def Place.below (n : Nat) (p : Place) : Bool := p.parent.any (n ≤ ·)

theorem below_of_mem_placesFrom {i n : Nat} (hle : i ≤ n) {scope : Scope} {p : Place}
    (h : p ∈ scope.placesFrom (some i) n) : p.below i = true := by
  induction scope generalizing i n with
  | nil => cases h
  | cons symbol inner next ihInner ihNext =>
      rcases List.mem_cons.1 h with rfl | h
      · simp [Place.below]
      · rcases List.mem_append.1 h with h | h
        · have hinner := ihInner (Nat.le_succ n) h
          rw [Place.below, Option.any_eq_true] at hinner ⊢
          obtain ⟨j, hj, hle'⟩ := hinner
          exact ⟨j, hj, decide_eq_true (hle.trans (of_decide_eq_true hle'))⟩
        · exact ihNext (by omega) h

/-- Behind what is nested in a symbol, the next one is not below it. -/
theorem takeWhile_placesFrom {parent : Option Nat} {n : Nat} (hparent : ∀ i, parent = some i → i < n) (k : Nat)
    (inner next : Scope) :
    (inner.placesFrom (some n) (n + 1) ++ next.placesFrom parent k).takeWhile (Place.below n) =
      inner.placesFrom (some n) (n + 1) := by
  rw [List.takeWhile_append_of_pos fun p hp => below_of_mem_placesFrom (Nat.le_succ n) hp]
  cases next with
  | nil => exact List.append_nil _
  | cons symbol inner' next =>
      have houtside : Place.below n ⟨k, parent, symbol⟩ = false := by
        rw [Place.below, Option.any_eq_false]
        exact fun i hi => by simpa using hparent i hi
      rw [placesFrom, List.takeWhile_cons_of_neg (by simp [houtside]), List.append_nil]

theorem placesFrom_injective {parent : Option Nat} {n : Nat} (hparent : ∀ i, parent = some i → i < n)
    {scope other : Scope} (h : scope.placesFrom parent n = other.placesFrom parent n) : scope = other := by
  induction scope generalizing parent n other with
  | nil =>
      cases other with
      | nil => rfl
      | cons => cases h
  | cons symbol inner next ihInner ihNext =>
      cases other with
      | nil => cases h
      | cons symbol' inner' next' =>
          obtain ⟨hfirst, hrest⟩ := List.cons.inj h
          have hsymbol : symbol = symbol' := congrArg Place.symbol hfirst
          have hinner : inner.placesFrom (some n) (n + 1) = inner'.placesFrom (some n) (n + 1) := by
            rw [← takeWhile_placesFrom hparent, hrest, takeWhile_placesFrom hparent]
          obtain rfl := ihInner (by simp) hinner
          obtain rfl := ihNext (fun i hi => by have := hparent i hi; omega) (List.append_cancel_left hrest)
          rw [hsymbol]

/-- A scope is known by its symbols with their numbers and parents. -/
theorem places_injective : Function.Injective places :=
  fun _ _ h => placesFrom_injective (by simp) h

end VbOutline.Scope
