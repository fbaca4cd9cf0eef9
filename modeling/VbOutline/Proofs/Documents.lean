import Mathlib.Data.List.Induction
import VbOutline.Editor.Query
import VbOutline.Proofs.Steps

/-! Documents over time. A store forgets, drops and rereads documents in any order, and its settings change
without what was found before being read again. Whatever is kept of a document was found in the text it is
known by, under the settings of its last reading; since symbols do not depend on settings, outlines and
completions are always those of the text, and asking for them restores at most the one document asked
for. -/

namespace VbOutline

open Outline Editor

theorem Outline.parse_symbols_eq (settings other : Settings) (text : String) :
    (parse settings text).symbols = (parse other text).symbols := by
  rw [parse_symbols, parse_symbols]

/-- What a table by names holds after one of its entries was replaced or added. -/
theorem get?_insert_by_name {α : Type} (table : Std.TreeMap String α) (id other : String) (content : α) :
    (table.insert id content).get? other = if id = other then some content else table.get? other := by
  rw [Std.TreeMap.get?_eq_getElem?, Std.TreeMap.getElem?_insert]
  simp only [Std.LawfulEqCmp.compare_eq_iff_eq]
  rfl

theorem get?_erase_by_name {α : Type} (table : Std.TreeMap String α) (id other : String) :
    (table.erase id).get? other = if id = other then none else table.get? other := by
  rw [Std.TreeMap.get?_eq_getElem?, Std.TreeMap.getElem?_erase]
  simp only [Std.LawfulEqCmp.compare_eq_iff_eq]
  rfl

namespace Store

variable {store : Store} {id : String}

/-! ### What an operation does to one document -/

theorem text?_eq_some {text : String} :
    store.text? id = some text ↔ ∃ d, store.documents.get? id = some d ∧ d.text = text :=
  Option.map_eq_some_iff

theorem snapshot?_eq_some {found : Parse} :
    store.snapshot? id = some found ↔ ∃ d, store.documents.get? id = some d ∧ d.snapshot = some found :=
  Option.bind_eq_some_iff

theorem text?_eq_none : store.text? id = none ↔ store.documents.get? id = none :=
  Option.map_eq_none_iff

/-- Updating a document parses its text and touches no other. -/
theorem get?_update (store : Store) (id : String) (text : Option String) (other : String) :
    (store.update id text).2.documents.get? other =
      if id = other then
        (text <|> store.text? id).map fun text => ⟨text, some (parse store.settings text)⟩
      else store.documents.get? other := by
  rw [update]
  split
  · next found htext =>
      rw [htext]
      exact get?_insert_by_name store.documents id other _
  · next htext =>
      rw [htext]
      split
      · next heq =>
          subst heq
          have hunknown : store.text? id = none := by
            cases text with
            | none => exact htext
            | some text => cases htext
          exact text?_eq_none.1 hunknown
      · rfl

theorem text?_update (store : Store) (id : String) (text : Option String) (other : String) :
    (store.update id text).2.text? other = if id = other then text <|> store.text? id else store.text? other := by
  rw [text?, get?_update]
  split
  · cases text <|> store.text? id <;> rfl
  · rfl

theorem snapshot?_update (store : Store) (id : String) (text : Option String) (other : String) :
    (store.update id text).2.snapshot? other =
      if id = other then (text <|> store.text? id).map (parse store.settings) else store.snapshot? other := by
  rw [snapshot?, get?_update]
  split
  · cases text <|> store.text? id <;> rfl
  · rfl

theorem settings_update (store : Store) (id : String) (text : Option String) :
    (store.update id text).2.settings = store.settings := by
  rw [update]
  split <;> rfl

/-- Erasing a document touches no other. -/
theorem get?_erase (store : Store) (id other : String) :
    (store.erase id).documents.get? other = if id = other then none else store.documents.get? other :=
  get?_erase_by_name store.documents id other

theorem text?_erase (store : Store) (id other : String) :
    (store.erase id).text? other = if id = other then none else store.text? other := by
  rw [text?, get?_erase]
  split <;> rfl

theorem snapshot?_erase (store : Store) (id other : String) :
    (store.erase id).snapshot? other = if id = other then none else store.snapshot? other := by
  rw [snapshot?, get?_erase]
  split <;> rfl

theorem get?_erase_of_some {other : String} {d : Document} (h : (store.erase id).documents.get? other = some d) :
    (store.erase id).documents.get? other = store.documents.get? other := by
  rw [get?_erase] at h ⊢
  split at h
  · cases h
  · next hne => rw [if_neg hne]

theorem get?_dropSnapshot (store : Store) (id other : String) :
    (store.dropSnapshot id).documents.get? other =
      if id = other then (store.documents.get? id).map fun d => { d with snapshot := none }
      else store.documents.get? other := by
  rw [dropSnapshot, Std.TreeMap.get?_eq_getElem?, Std.TreeMap.getElem?_modify]
  simp only [Std.LawfulEqCmp.compare_eq_iff_eq]
  rfl

/-- Reading everything again keeps the texts and makes every snapshot anew. -/
theorem get?_rereadAll (store : Store) (other : String) :
    store.rereadAll.documents.get? other =
      (store.documents.get? other).map fun d => { d with snapshot := some (parse store.settings d.text) } := by
  rw [rereadAll, Std.TreeMap.get?_eq_getElem?, Std.TreeMap.getElem?_map]
  rfl

/-- Asking for symbols reads a document again only where its snapshot is missing. -/
theorem currentSymbols_snd (store : Store) (id : String) :
    (currentSymbols store id).2 = if (store.snapshot? id).isSome then store else store.reread id := by
  rw [currentSymbols, symbols?]
  cases store.snapshot? id <;> rfl

/-! ### Operations -/

/-- What can be asked of a store, by an editor and directly. -/
inductive Operation where
  /-- Reads a document from a text, or else from the text it is known by. -/
  | refresh (id : String) (text : Option String)
  | invalidate (id : String)
  | changed (id text : String)
  | deleted (id : String)
  /-- Replaces the settings and reads nothing. -/
  | configure (settings : Settings)
  | rereadAll
  /-- Drops what was found in a document and keeps its text. -/
  | dropSnapshot (id : String)
  | get (id : String)
  | search (query : String)
  | outline (id : String)
  | completions (id : String) (position : Position)

/-- The store after an operation. -/
def apply (store : Store) : Operation → Store
  | .refresh id text => (store.update id text).2
  | .invalidate id | .deleted id => store.erase id
  | .changed id text => store.put id text
  | .configure settings => store.withSettings settings
  | .rereadAll => store.rereadAll
  | .dropSnapshot id => store.dropSnapshot id
  -- these two answer from the store and have no store to go on with
  | .get _ | .search _ => store
  | .outline id => (Editor.outline store id).2
  | .completions id position => (Editor.completions store id position).2

/-- The store after some operations on an empty one. -/
def after (settings : Settings) (ops : List Operation) : Store := ops.foldl apply { settings := settings }

/-- An operation reads the text of a document. -/
def Operation.Reads (store : Store) (id : String) : Operation → Prop
  | .refresh other text => other = id ∧ (text <|> store.text? id).isSome
  | .changed other _ => other = id
  | .rereadAll => (store.text? id).isSome
  | .outline other | .completions other _ => other = id ∧ (store.text? id).isSome ∧ store.snapshot? id = none
  | .invalidate _ | .deleted _ | .configure _ | .dropSnapshot _ | .get _ | .search _ => False

theorem after_concat (settings : Settings) (ops : List Operation) (op : Operation) :
    after settings (ops ++ [op]) = (after settings ops).apply op := by
  rw [after, List.foldl_append]
  rfl

/-- What an operation leaves of a document that it reads. -/
theorem get?_apply_of_reads {op : Operation} (h : op.Reads store id) :
    ∃ text, (store.apply op).documents.get? id = some ⟨text, some (parse store.settings text)⟩ := by
  have hupdate : ∀ text : Option String, (text <|> store.text? id).isSome →
      ∃ text', (store.update id text).2.documents.get? id =
        some ⟨text', some (parse store.settings text')⟩ := by
    intro text hsome
    obtain ⟨text', htext'⟩ := Option.isSome_iff_exists.1 hsome
    exact ⟨text', by rw [get?_update, if_pos rfl, htext']; rfl⟩
  have hcurrent : (store.text? id).isSome → store.snapshot? id = none →
      ∃ text', (currentSymbols store id).2.documents.get? id =
        some ⟨text', some (parse store.settings text')⟩ := by
    intro hknown hmissing
    rw [currentSymbols_snd, hmissing]
    exact hupdate none hknown
  cases op with
  | refresh other text =>
      obtain ⟨rfl, hsome⟩ := h
      exact hupdate text hsome
  | changed other text =>
      obtain rfl : other = id := h
      exact hupdate (some text) rfl
  | rereadAll =>
      obtain ⟨text, htext⟩ := Option.isSome_iff_exists.1 h
      obtain ⟨d, hd, rfl⟩ := text?_eq_some.1 htext
      refine ⟨d.text, ?_⟩
      show store.rereadAll.documents.get? id = _
      rw [get?_rereadAll, hd]
      rfl
  | outline other =>
      obtain ⟨rfl, hknown, hmissing⟩ := h
      exact hcurrent hknown hmissing
  | completions other position =>
      obtain ⟨rfl, hknown, hmissing⟩ := h
      exact hcurrent hknown hmissing
  | invalidate other => cases h
  | deleted other => cases h
  | configure settings => cases h
  | dropSnapshot other => cases h
  | get other => cases h
  | search query => cases h

/-- What an operation leaves of a document that it does not read, if it leaves anything that was found. -/
theorem get?_apply_of_not_reads {op : Operation} (h : ¬ op.Reads store id) {found : Parse}
    (hfound : (store.apply op).snapshot? id = some found) :
    (store.apply op).documents.get? id = store.documents.get? id := by
  obtain ⟨d, hd, hsnapshot⟩ := snapshot?_eq_some.1 hfound
  have hupdate : ∀ (other : String) (text : Option String), ¬ (other = id ∧ (text <|> store.text? id).isSome) →
      (store.update other text).2.documents.get? id = some d →
      (store.update other text).2.documents.get? id = store.documents.get? id := by
    intro other text hnot hget
    rw [get?_update] at hget ⊢
    split at hget
    · next heq =>
        obtain ⟨text', htext', -⟩ := Option.map_eq_some_iff.1 hget
        rw [heq] at htext'
        exact absurd ⟨heq, by rw [htext']; rfl⟩ hnot
    · next hne => rw [if_neg hne]
  have hcurrent : ∀ other : String, ¬ (other = id ∧ (store.text? id).isSome ∧ store.snapshot? id = none) →
      (currentSymbols store other).2.documents.get? id = some d →
      (currentSymbols store other).2.documents.get? id = store.documents.get? id := by
    intro other hnot hget
    rw [currentSymbols_snd] at hget ⊢
    split at hget
    · next hkept => rw [if_pos hkept]
    · next hmissing =>
        rw [if_neg hmissing]
        refine hupdate other none ?_ hget
        rintro ⟨rfl, hknown⟩
        exact hnot ⟨rfl, hknown, by simpa using hmissing⟩
  cases op with
  | refresh other text => exact hupdate other text h hd
  | changed other text => exact hupdate other (some text) (fun hread => h hread.1) hd
  | rereadAll =>
      have hunknown : store.text? id = none := Option.not_isSome_iff_eq_none.1 h
      show store.rereadAll.documents.get? id = _
      rw [get?_rereadAll, text?_eq_none.1 hunknown]
      rfl
  | outline other => exact hcurrent other h hd
  | completions other position => exact hcurrent other h hd
  | invalidate other => exact get?_erase_of_some hd
  | deleted other => exact get?_erase_of_some hd
  | dropSnapshot other =>
      have hdrop : (store.dropSnapshot other).documents.get? id = some d := hd
      show (store.dropSnapshot other).documents.get? id = _
      rw [get?_dropSnapshot] at hdrop ⊢
      split at hdrop
      · obtain ⟨d', -, rfl⟩ := Option.map_eq_some_iff.1 hdrop
        cases hsnapshot
      · next hne => rw [if_neg hne]
  | configure settings => rfl
  | get other => rfl
  | search query => rfl

/-! ### Histories -/

/-- The last operation that reads a document, by its number. -/
def LastRead (settings : Settings) (ops : List Operation) (id : String) (n : Nat) : Prop :=
  (∃ op, ops[n]? = some op ∧ op.Reads (after settings (ops.take n)) id) ∧
    ∀ m later, n < m → ops[m]? = some later → ¬ later.Reads (after settings (ops.take m)) id

/-- An operation that reads a document is its last reading so far. -/
theorem LastRead.concat_of_reads {settings : Settings} {ops : List Operation} {op : Operation}
    (h : op.Reads (after settings ops) id) : LastRead settings (ops ++ [op]) id ops.length := by
  refine ⟨⟨op, by simp, by simpa using h⟩, ?_⟩
  intro m later hlt hlater
  have hbound := (List.getElem?_eq_some_iff.1 hlater).1
  rw [List.length_append, List.length_singleton] at hbound
  omega

theorem LastRead.concat_of_not_reads {settings : Settings} {ops : List Operation} {op : Operation} {n : Nat}
    (hlast : LastRead settings ops id n) (h : ¬ op.Reads (after settings ops) id) :
    LastRead settings (ops ++ [op]) id n := by
  obtain ⟨⟨reader, hreader, hreads⟩, hlater⟩ := hlast
  have hn := (List.getElem?_eq_some_iff.1 hreader).1
  refine ⟨⟨reader, ?_, ?_⟩, ?_⟩
  · rw [List.getElem?_append_left hn, hreader]
  · rwa [List.take_append_of_le_length (Nat.le_of_lt hn)]
  · intro m later hlt hm
    rcases Nat.lt_or_ge m ops.length with hlen | hlen
    · rw [List.getElem?_append_left hlen] at hm
      rw [List.take_append_of_le_length (Nat.le_of_lt hlen)]
      exact hlater m later hlt hm
    · have hbound := (List.getElem?_eq_some_iff.1 hm).1
      rw [List.length_append, List.length_singleton] at hbound
      obtain rfl : m = ops.length := by omega
      rw [List.getElem?_concat_length] at hm
      rw [List.take_left, ← Option.some.inj hm]
      exact h

/-- Whatever is kept of a document was found in its text when it was read last. -/
theorem found_of_get? (settings : Settings) (ops : List Operation) {id : String} {d : Document} {found : Parse}
    (hd : (after settings ops).documents.get? id = some d) (hfound : d.snapshot = some found) :
    ∃ n, LastRead settings ops id n ∧ found = parse (after settings (ops.take n)).settings d.text := by
  induction ops using List.reverseRecOn generalizing d with
  | nil =>
      have hempty : (after settings []).documents.get? id = none := Std.TreeMap.getElem?_emptyc
      rw [hempty] at hd
      cases hd
  | append_singleton ops op ih =>
      rw [after_concat] at hd
      by_cases hread : op.Reads (after settings ops) id
      · obtain ⟨text, htext⟩ := get?_apply_of_reads hread
        rw [htext] at hd
        cases hd
        refine ⟨ops.length, .concat_of_reads hread, ?_⟩
        rw [List.take_left]
        exact (Option.some.inj hfound).symm
      · rw [get?_apply_of_not_reads hread (snapshot?_eq_some.2 ⟨d, hd, hfound⟩)] at hd
        obtain ⟨n, hlast, heq⟩ := ih hd hfound
        obtain ⟨reader, hreader, -⟩ := hlast.1
        have hn := (List.getElem?_eq_some_iff.1 hreader).1
        refine ⟨n, hlast.concat_of_not_reads hread, ?_⟩
        rwa [List.take_append_of_le_length (Nat.le_of_lt hn)]

/-! ### Queries -/

/-- The symbols that a query sees are those of the text, under whatever settings. -/
theorem currentSymbols_fst {settings : Settings} {ops : List Operation} (other : Settings) (id : String) :
    (currentSymbols (after settings ops) id).1 =
      ((after settings ops).text? id).elim [] fun text => (parse other text).symbols := by
  generalize hstore : after settings ops = store
  cases hfound : store.snapshot? id with
  | some found =>
      obtain ⟨d, hd, hsnapshot⟩ := snapshot?_eq_some.1 hfound
      have hcurrent : (currentSymbols store id).1 = found.symbols := by
        rw [currentSymbols, symbols?, hfound]
        rfl
      rw [← hstore] at hd
      obtain ⟨n, -, heq⟩ := found_of_get? settings ops hd hsnapshot
      rw [hstore] at hd
      rw [hcurrent, text?_eq_some.2 ⟨d, hd, rfl⟩, heq]
      exact parse_symbols_eq _ other d.text
  | none =>
      have hcurrent : (currentSymbols store id).1 = ((store.reread id).symbols? id).getD [] := by
        rw [currentSymbols, symbols?, hfound]
        rfl
      rw [hcurrent, symbols?, reread, snapshot?_update, if_pos rfl]
      cases store.text? id with
      | none => rfl
      | some text => exact parse_symbols_eq _ other text

/-- A query leaves everything as it is, but for a document that it reads because nothing is kept of it. -/
structure Restores (id : String) (store next : Store) : Prop where
  settings_eq : next.settings = store.settings
  text?_eq : ∀ other, next.text? other = store.text? other
  snapshot?_eq : ∀ other, other ≠ id ∨ (store.snapshot? other).isSome →
    next.snapshot? other = store.snapshot? other
  restored : store.snapshot? id = none →
    next.snapshot? id = (store.text? id).map (parse store.settings)

/-- Asking for the symbols of a document is such a query. -/
theorem currentSymbols_restores (store : Store) (id : String) :
    Restores id store (currentSymbols store id).2 := by
  rw [currentSymbols_snd]
  split
  · next hkept =>
      refine ⟨rfl, fun _ => rfl, fun _ _ => rfl, fun hmissing => ?_⟩
      rw [hmissing] at hkept
      cases hkept
  · next hmissing =>
      refine ⟨settings_update store id none, fun other => ?_, fun other hother => ?_, fun _ => ?_⟩
      · rw [reread, text?_update]
        split
        · next heq => rw [heq]; rfl
        · rfl
      · rw [reread, snapshot?_update]
        split
        · next heq =>
            subst heq
            rcases hother with hne | hkept
            · exact absurd rfl hne
            · exact absurd hkept hmissing
        · rfl
      · rw [reread, snapshot?_update, if_pos rfl]
        rfl

/-- What can be relied on after some operations. -/
structure Consistent (settings : Settings) (ops : List Operation) : Prop where
  /-- What is kept of a document was found in the text it is known by, under the settings of its last
  reading; its symbols are those under any settings. -/
  snapshot : ∀ id found, (after settings ops).snapshot? id = some found →
    ∃ text, (after settings ops).text? id = some text ∧
      (∀ other, found.symbols = (parse other text).symbols) ∧
      ∃ n, LastRead settings ops id n ∧
        found.problems = (parse (after settings (ops.take n)).settings text).problems
  outline_eq : ∀ id other, (Editor.outline (after settings ops) id).1 =
    ((after settings ops).text? id).elim [] fun text =>
      (parse other text).symbols.map (OutlineEntry.ofSymbol none)
  completions_eq : ∀ id position other, (Editor.completions (after settings ops) id position).1 =
    ((after settings ops).text? id).elim [] fun text =>
      ((Scope.ofSymbols (parse other text).symbols).visible position).map Completion.ofSymbol
  outline_restores : ∀ id, Restores id (after settings ops) (Editor.outline (after settings ops) id).2
  completions_restores : ∀ id position,
    Restores id (after settings ops) (Editor.completions (after settings ops) id position).2
  /-- Once all documents have been read again, what is kept of them is what the settings of now give. -/
  rereadAll_settings : (after settings (ops ++ [.rereadAll])).settings = (after settings ops).settings
  rereadAll_text? : ∀ id, (after settings (ops ++ [.rereadAll])).text? id = (after settings ops).text? id
  rereadAll_snapshot? : ∀ id, (after settings (ops ++ [.rereadAll])).snapshot? id =
    ((after settings ops).text? id).map (parse (after settings ops).settings)

theorem text?_rereadAll (store : Store) (id : String) : store.rereadAll.text? id = store.text? id := by
  rw [text?, get?_rereadAll, Option.map_map]
  rfl

theorem snapshot?_rereadAll (store : Store) (id : String) :
    store.rereadAll.snapshot? id = (store.text? id).map (parse store.settings) := by
  rw [snapshot?, get?_rereadAll, text?]
  cases store.documents.get? id <;> rfl

/-- After any operations, whatever is kept is consistent with the texts that are known, and queries answer
from the texts. -/
theorem consistent_after (settings : Settings) (ops : List Operation) : Consistent settings ops := by
  constructor
  case snapshot =>
    intro id found hfound
    obtain ⟨d, hd, hsnapshot⟩ := snapshot?_eq_some.1 hfound
    obtain ⟨n, hlast, rfl⟩ := found_of_get? settings ops hd hsnapshot
    exact ⟨d.text, text?_eq_some.2 ⟨d, hd, rfl⟩, fun other => parse_symbols_eq _ other d.text, n, hlast, rfl⟩
  case outline_eq =>
    intro id other
    show (currentSymbols (after settings ops) id).1.map _ = _
    rw [currentSymbols_fst other id]
    cases (after settings ops).text? id <;> rfl
  case completions_eq =>
    intro id position other
    show ((Scope.ofSymbols (currentSymbols (after settings ops) id).1).visible position).map _ = _
    rw [currentSymbols_fst other id]
    cases (after settings ops).text? id with
    | none => simp [Scope.ofSymbols, Scope.sorted, Scope.visible, Scope.top, Scope.nested]
    | some text => rfl
  case outline_restores => exact fun id => currentSymbols_restores _ id
  case completions_restores => exact fun id _ => currentSymbols_restores _ id
  case rereadAll_settings =>
    rw [after_concat]
    rfl
  case rereadAll_text? =>
    intro id
    rw [after_concat]
    exact text?_rereadAll _ id
  case rereadAll_snapshot? =>
    intro id
    rw [after_concat]
    exact snapshot?_rereadAll _ id

end Store

end VbOutline
