import VbOutline.Proofs.LineShift
import VbOutline.Proofs.Statements

/-! Documents put together line by line. If one document ends in a line that does not go on, what follows it is
read like a document of its own that is moved down: its lines, logical lines and statements are. So the symbols
of the first document come first, and if it leaves no block open, the symbols and problems of the second
follow, moved down. -/

namespace VbOutline

namespace Source

open Text

/-! ### Lines -/

theorem physicalLines_ne_nil (t : List Char) : physicalLines t ≠ [] := by
  fun_cases physicalLines t <;> simp

/-- A character that ends no line is the first of the line behind it. -/
theorem physicalLines_cons {c : Char} {rest line : List Char} {lines : List (List Char)} (hfeed : c ≠ '\n')
    (hreturn : c = '\r' → rest.head? ≠ some '\n') (h : physicalLines rest = line :: lines) :
    physicalLines (c :: rest) = (c :: line) :: lines := by
  rw [physicalLines.eq_4 _ _ hfeed, h]
  rintro rest' hc rfl
  exact hreturn hc rfl

/-- A line break between two texts adds their lines up, unless it completes a carriage return. -/
theorem physicalLines_append {t : List Char} (h : t.getLast? ≠ some '\r') (u : List Char) :
    physicalLines (t ++ '\n' :: u) = physicalLines t ++ physicalLines u := by
  have htail : ∀ {c : Char} {rest : List Char}, (c :: rest).getLast? ≠ some '\r' →
      rest.getLast? ≠ some '\r' := by
    intro c rest hlast hrest
    rw [List.getLast?_cons, hrest] at hlast
    exact hlast rfl
  fun_induction physicalLines t with
  | case1 => rfl
  | case2 rest ih => exact congrArg ([] :: ·) (ih (htail h))
  | case3 rest ih => exact congrArg ([] :: ·) (ih (htail (htail h)))
  | case4 c rest hfeed hreturn hrest ih => exact absurd hrest (physicalLines_ne_nil rest)
  | case5 c rest hfeed hreturn line lines hrest ih =>
      have hreturn' : ∀ rest', c = '\r' → rest ++ '\n' :: u = '\n' :: rest' → False := by
        intro rest' hc hrest'
        cases rest with
        | nil => exact h (by rw [hc]; rfl)
        | cons d rest =>
            rw [List.cons_append, List.cons.injEq] at hrest'
            exact hreturn rest hc (by rw [hrest'.1])
      rw [List.cons_append, physicalLines.eq_4 _ _ hfeed hreturn', ih (htail h), hrest]
      rfl

namespace Piece

/-- A piece moved down by `n` lines. -/
def down (n : Nat) (piece : Piece) : Piece := { piece with number := piece.number + n }

/-- The pieces of the second text are those it has alone, moved down. -/
theorem ofText_append {t : List Char} (h : t.getLast? ≠ some '\r') (u : List Char) :
    ofText (t ++ '\n' :: u) = ofText t ++ (ofText u).map (down (physicalLines t).length) := by
  rw [ofText, ofText, ofText, physicalLines_append h, List.zipIdx_append, List.map_append]
  congr 1
  rw [List.zipIdx_eq_map_add, List.map_map, List.map_map]
  refine List.map_congr_left ?_
  rintro ⟨line, number⟩ -
  simp only [Function.comp, ofLine, down, Nat.zero_add, Nat.add_comm]

/-! ### Logical lines -/

theorem group_ne_nil {pieces : List Piece} (h : pieces ≠ []) : group pieces ≠ [] := by
  intro hnil
  have hflat := group_flatten pieces
  rw [hnil] at hflat
  exact h hflat.symm

theorem group_cons (piece : Piece) {rest : List Piece} {first : List Piece} {groups : List (List Piece)}
    (h : group rest = first :: groups) : group (piece :: rest) =
      if piece.continued then (piece :: first) :: groups else [piece] :: first :: groups := by
  rw [group, h]

/-- A piece that does not go on ends its group. -/
theorem group_append {pieces : List Piece}
    (hlast : ∀ piece, pieces.getLast? = some piece → piece.continued = false) (others : List Piece) :
    group (pieces ++ others) = group pieces ++ group others := by
  induction pieces with
  | nil => rfl
  | cons piece rest ih =>
      cases rest with
      | nil =>
          have hends : piece.continued = false := hlast piece rfl
          rw [List.singleton_append, group]
          cases group others with
          | nil => rfl
          | cons first groups => simp [hends, group]
      | cons next rest =>
          have happend := ih fun p hp => hlast p (by rw [List.getLast?_cons_cons, hp])
          obtain ⟨first, groups, hgroup⟩ := List.exists_cons_of_ne_nil (group_ne_nil (List.cons_ne_nil next rest))
          have hwhole : group (next :: rest ++ others) = first :: (groups ++ group others) := by
            rw [happend, hgroup, List.cons_append]
          rw [List.cons_append, group_cons piece hwhole, group_cons piece hgroup]
          split <;> rfl

/-- Pieces are joined by their markers alone. -/
theorem group_map {f : Piece → Piece} (hf : ∀ piece, (f piece).continued = piece.continued) (pieces : List Piece) :
    group (pieces.map f) = (group pieces).map (List.map f) := by
  induction pieces with
  | nil => rfl
  | cons piece rest ih =>
      rw [List.map_cons]
      cases hgroup : group rest with
      | nil =>
          rw [hgroup] at ih
          rw [group, ih, group, hgroup]
          rfl
      | cons first groups =>
          rw [hgroup] at ih
          rw [group_cons _ ih, group_cons _ hgroup, hf, apply_ite (List.map (List.map f))]
          rfl

/-- Moving down does not change which pieces belong together. -/
theorem group_down (n : Nat) (pieces : List Piece) :
    group (pieces.map (down n)) = (group pieces).map (List.map (down n)) :=
  group_map (f := down n) (fun _ => rfl) pieces

theorem segmentsFrom_down (n : Nat) (offset : Nat) (pieces : List Piece) :
    segmentsFrom offset (pieces.map (down n)) = (segmentsFrom offset pieces).map (Segment.down n) := by
  induction pieces generalizing offset with
  | nil => rfl
  | cons piece rest ih =>
      rw [List.map_cons, segmentsFrom, segmentsFrom, List.map_cons]
      congr 1
      exact ih _

theorem continued_getLast? {t : List Char}
    (hends : isContinued (code ((physicalLines t).getLast (physicalLines_ne_nil t))) = false) :
    ∀ piece, (ofText t).getLast? = some piece → piece.continued = false := by
  intro piece hpiece
  rw [ofText, List.getLast?_map, Option.map_eq_some_iff] at hpiece
  obtain ⟨⟨line, number⟩, hlast, rfl⟩ := hpiece
  have hline : (physicalLines t).getLast? = some line := by
    rw [← List.zipIdx_map_fst 0 (physicalLines t), List.getLast?_map, hlast]
    rfl
  rw [List.getLast?_eq_some_getLast (physicalLines_ne_nil t), Option.some.injEq] at hline
  rw [hline] at hends
  exact hends

end Piece

theorem LogicalLine.statements_down (n : Nat) (pieces : List Piece) :
    (ofPieces (pieces.map (Piece.down n))).statements = (ofPieces pieces).statements.map (Statement.down n) := by
  have htext : (pieces.map (Piece.down n)).flatMap Piece.text = pieces.flatMap Piece.text :=
    List.flatMap_map _ _ pieces
  rw [ofPieces, htext, Piece.segmentsFrom_down, statements, statements, List.map_map]
  rfl

end Source

namespace Outline

open Source

/-! ### Statements -/

/-- Where the first text ends no line with a marker, the statements of the two texts add up. -/
theorem statements_append {t : List Char} (hreturn : t.getLast? ≠ some '\r')
    (hends : isContinued (code ((physicalLines t).getLast (physicalLines_ne_nil t))) = false) (u : List Char) :
    statements (t ++ '\n' :: u) =
      statements t ++ (statements u).map (Statement.down (physicalLines t).length) := by
  have hlines : LogicalLine.ofText (t ++ '\n' :: u) = LogicalLine.ofText t ++
      ((Piece.group (Piece.ofText u)).map (List.map (Piece.down (physicalLines t).length))).map
        LogicalLine.ofPieces := by
    rw [LogicalLine.ofText, Piece.ofText_append hreturn, Piece.group_append (Piece.continued_getLast? hends),
      Piece.group_down, List.map_append, LogicalLine.ofText]
  rw [statements, hlines, List.flatMap_append, List.filter_append, statements, statements]
  congr 1
  -- a statement is blank wherever its line stands, so the filter may come after the move
  change _ = List.map (Statement.down (physicalLines t).length)
    (List.filter ((fun s => !s.isBlank) ∘ Statement.down (physicalLines t).length) _)
  rw [← List.filter_map, List.map_flatMap, LogicalLine.ofText, List.map_map, List.flatMap_map, List.flatMap_map]
  simp only [Function.comp, LogicalLine.statements_down]

/-! ### Reading on -/

/-- What statements lead to if they follow some point of a document. -/
def traceFrom (b : OpenBlocks) (ss : List Statement) : Noted Change := ss.foldl extend ⟨{ blocks := b }, []⟩

/-- A trace extended from any start is that start followed by the trace from its blocks. -/
theorem foldl_extend (ss : List Statement) (t : Noted Change) :
    ss.foldl extend t =
      ⟨⟨(traceFrom t.value.blocks ss).value.blocks, t.value.symbols ++ (traceFrom t.value.blocks ss).value.symbols⟩,
        t.problems ++ (traceFrom t.value.blocks ss).problems⟩ := by
  induction ss generalizing t with
  | nil =>
      show t = ⟨⟨_, t.value.symbols ++ []⟩, t.problems ++ []⟩
      rw [List.append_nil, List.append_nil]
      rfl
  | cons s ss ih =>
      rw [traceFrom, List.foldl_cons, List.foldl_cons, ih (extend t s),
        ih (extend ⟨{ blocks := t.value.blocks }, []⟩ s)]
      simp only [extend, List.append_assoc, List.nil_append]

/-- The second text is read with what the first left open, and adds to what the first gave. -/
theorem trace_append (ss ss' : List Statement) :
    trace (ss ++ ss') =
      ⟨⟨(traceFrom (trace ss).value.blocks ss').value.blocks,
          (trace ss).value.symbols ++ (traceFrom (trace ss).value.blocks ss').value.symbols⟩,
        (trace ss).problems ++ (traceFrom (trace ss).value.blocks ss').problems⟩ := by
  rw [trace, List.foldl_append]
  exact foldl_extend ss' (trace ss)

end Outline

/-! ### Logs that are not full -/

/-- Every problem is either kept or dropped. -/
theorem ProblemLog.size_addAll (log : ProblemLog) (ps : List Problem) :
    (log.addAll ps).kept.size + (log.addAll ps).dropped = log.kept.size + log.dropped + ps.length := by
  induction ps generalizing log with
  | nil => rfl
  | cons p ps ih =>
      have hadd : (log.add p).kept.size + (log.add p).dropped = log.kept.size + log.dropped + 1 := by
        rw [add]
        split
        · rfl
        · simp only [Array.size_push]
          omega
      have hrest := ih (log.add p)
      rw [hadd] at hrest
      rw [List.length_cons]
      exact hrest.trans (by omega)

theorem ProblemLog.length_le_of_dropped {limit : Int} {ps : List Problem}
    (h : (addAll { limit := limit } ps).dropped = 0) : ps.length ≤ limit.toNat := by
  have hsize := size_addAll { limit := limit } ps
  have hkept := congrArg List.length (kept_addAll limit ps)
  rw [Array.length_toList, List.length_take] at hkept
  simp only [h, List.size_toArray, List.length_nil] at hsize
  omega

namespace Outline

open Source

/-- If nothing is left open, what follows is read from the start. -/
theorem trace_append_down {ss ss' : List Statement} (hclosed : (trace ss).value.blocks = {})
    (hss' : ∀ s ∈ ss', s.segments ≠ []) (n : Int) :
    trace (ss ++ ss'.map (Statement.down n)) =
      ⟨⟨(trace ss').value.blocks.down n,
          (trace ss).value.symbols ++ (trace ss').value.symbols.map (Symbol.down n)⟩,
        (trace ss).problems ++ (trace ss').problems.map (Problem.down n)⟩ := by
  have hfrom : traceFrom {} (ss'.map (Statement.down n)) = (trace ss').down n (Change.down n) := trace_down n hss'
  rw [trace_append, hclosed, hfrom]
  rfl

theorem neverClosed_empty : OpenBlocks.neverClosed {} = [] := rfl

/-- Documents are read line by line: a document that ends in a whole line is read the same whatever follows,
and if it leaves no block open, what follows is read as a document of its own. -/
theorem parse_append (settings : Settings) (t u : String) (hreturn : t.toList.getLast? ≠ some '\r')
    (hends : isContinued (code ((physicalLines t.toList).getLast (physicalLines_ne_nil t.toList))) = false) :
    (parse settings t).symbols <+: (parse settings (t ++ "\n" ++ u)).symbols ∧
      (((Reading.start settings).consumeAll (statements t.toList)).blocks = {} →
        (parse settings (t ++ "\n" ++ u)).symbols = (parse settings t).symbols ++
            (parse settings u).symbols.map (Symbol.down (physicalLines t.toList).length) ∧
          ((read settings (t ++ "\n" ++ u).toList).log.dropped = 0 →
            (parse settings (t ++ "\n" ++ u)).problems = (parse settings t).problems ++
              (parse settings u).problems.map (Problem.down (physicalLines t.toList).length))) := by
  have hstatements : statements (t ++ "\n" ++ u).toList =
      statements t.toList ++ (statements u.toList).map (Statement.down (physicalLines t.toList).length) := by
    rw [String.toList_append, String.toList_append, List.append_assoc]
    exact statements_append hreturn hends u.toList
  have hsegments : ∀ s ∈ statements u.toList, s.segments ≠ [] := fun s hs => (placed_of_mem hs).nonempty
  rw [(consumeAll_tracks settings _).blocks_eq, parse_symbols, parse_symbols, parse_symbols, hstatements]
  refine ⟨?_, fun hclosed => ⟨?_, fun hdropped => ?_⟩⟩
  · rw [trace_append]
    exact List.prefix_append _ _
  · rw [trace_append_down hclosed hsegments]
  · have hreports : reports (t ++ "\n" ++ u).toList =
        reports t.toList ++ (reports u.toList).map (Problem.down (physicalLines t.toList).length) := by
      simp only [reports, hstatements, trace_append_down hclosed hsegments, hclosed, neverClosed_empty,
        OpenBlocks.neverClosed_down, List.append_nil, List.map_append, List.append_assoc]
    rw [read_log] at hdropped
    have hlength := ProblemLog.length_le_of_dropped hdropped
    rw [hreports, List.length_append, List.length_map] at hlength
    rw [parse_problems, parse_problems, parse_problems, hreports]
    rw [List.take_of_length_le, List.take_of_length_le, List.take_of_length_le]
    · omega
    · omega
    · rw [List.length_append, List.length_map]
      exact hlength

theorem parse_append_class :
    (parse {} ("Class A\nEnd Class" ++ "\n" ++ "Sub b\nEnd Sub\nEnd Class")).symbols =
        (parse {} "Class A\nEnd Class").symbols ++
          (parse {} "Sub b\nEnd Sub\nEnd Class").symbols.map (Symbol.down 2) ∧
      (parse {} ("Class A\nEnd Class" ++ "\n" ++ "Sub b\nEnd Sub\nEnd Class")).problems =
        (parse {} "Class A\nEnd Class").problems ++
          (parse {} "Sub b\nEnd Sub\nEnd Class").problems.map (Problem.down 2) := by
  obtain ⟨-, hclosed⟩ := parse_append {} "Class A\nEnd Class" "Sub b\nEnd Sub\nEnd Class" (by decide +kernel)
    (by decide +kernel)
  obtain ⟨hsymbols, hproblems⟩ := hclosed (by decide +kernel)
  exact ⟨hsymbols, hproblems (by decide +kernel)⟩

end Outline

end VbOutline
