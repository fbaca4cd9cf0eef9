import VbOutline.Proofs.Documents

/-! The store in two tables. One holds the texts of documents and the other what was found in them, and nothing but
the operations keeps the two together. `Shows` relates such tables to a store that keeps both with each document:
every operation keeps to it (`shows_after`), so what was found in a document never stays behind without its text, and
whatever is asked is answered alike (`Shows.answers`). -/

namespace VbOutline

open Outline Editor

/-- The known texts by name, what was found by name, and the settings for reading. -/
structure Tables where
  settings : Settings := {}
  texts : Std.TreeMap String String := {}
  results : Std.TreeMap String Parse := {}

namespace Tables

/-- The symbols of a document. -/
def symbols? (t : Tables) (id : String) : Option (List Symbol) := (t.results.get? id).map Parse.symbols

/-- The problems of a document. -/
def problems? (t : Tables) (id : String) : Option (List Problem) := (t.results.get? id).map Parse.problems

/-- Reads a document from the given text, or else from the text it is known by, and writes to both tables. An unknown
document without a text has nothing in it and leaves the tables as they are. -/
def refresh (t : Tables) (id : String) (text : Option String) : Parse × Tables :=
  match text <|> t.texts.get? id with
  | some text =>
    let found := parse t.settings text
    (found, { t with texts := t.texts.insert id text, results := t.results.insert id found })
  | none => ({}, t)

/-- Removes a document from both tables. -/
def invalidate (t : Tables) (id : String) : Tables :=
  { t with texts := t.texts.erase id, results := t.results.erase id }

/-- Removes what was found in a document. -/
def dropResult (t : Tables) (id : String) : Tables := { t with results := t.results.erase id }

/-- Reads documents one after the other from the given texts. -/
def refreshEach (t : Tables) (known : List (String × String)) : Tables :=
  known.foldl (fun t document => (t.refresh document.1 (some document.2)).2) t

/-- Reads every known text again. -/
def rereadAll (t : Tables) : Tables := t.refreshEach t.texts.toList

/-- The names of the documents that have been read. -/
def ids (t : Tables) : List String := t.results.keys

/-- The number of symbols in all documents. -/
def symbolCount (t : Tables) : Nat :=
  t.results.toList.foldr (fun (_, parse) count => parse.symbols.length + count) 0

/-- The symbols of all documents whose rendered name has the query in it. -/
def search (t : Tables) (query : String) : List (String × Symbol) :=
  t.results.toList.flatMap fun (id, parse) =>
    (parse.symbols.filter fun s => Text.occursIn query.toList s.rendered.toList).map fun s => (id, s)

/-- The symbols of a document, which is read first if they are missing. -/
def currentSymbols (t : Tables) (id : String) : List Symbol × Tables :=
  match t.symbols? id with
  | some symbols => (symbols, t)
  | none =>
    let t := (t.refresh id none).2
    ((t.symbols? id).getD [], t)

/-- The outline of a document. -/
def outline (t : Tables) (id : String) : List OutlineEntry × Tables :=
  let (symbols, t) := t.currentSymbols id
  (symbols.map (OutlineEntry.ofSymbol none), t)

/-- The symbols visible at a position of a document. -/
def completions (t : Tables) (id : String) (p : Position) : List Completion × Tables :=
  let (symbols, t) := t.currentSymbols id
  (((Scope.ofSymbols symbols).visible p).map Completion.ofSymbol, t)

/-- The tables after an operation. -/
def apply (t : Tables) : Store.Operation → Tables
  | .refresh id text => (t.refresh id text).2
  | .invalidate id | .deleted id => t.invalidate id
  | .changed id text => (t.refresh id (some text)).2
  | .configure settings => { t with settings := settings }
  | .rereadAll => t.rereadAll
  | .dropSnapshot id => t.dropResult id
  | .get _ | .search _ => t
  | .outline id => (t.outline id).2
  | .completions id position => (t.completions id position).2

/-- The tables after some operations on empty ones. -/
def after (settings : Settings) (ops : List Store.Operation) : Tables := ops.foldl apply { settings := settings }

/-! ### What an operation does to one document -/

/-- The tables hold what a store does. -/
structure Shows (t : Tables) (store : Store) : Prop where
  settings_eq : t.settings = store.settings
  text_eq : ∀ id, t.texts.get? id = store.text? id
  result_eq : ∀ id, t.results.get? id = store.snapshot? id

namespace Shows

variable {t : Tables} {store : Store}

theorem refresh (h : Shows t store) (id : String) (text : Option String) :
    (t.refresh id text).1 = (store.update id text).1 ∧
      Shows (t.refresh id text).2 (store.update id text).2 := by
  have htext := Store.text?_update store id text
  have hresult := Store.snapshot?_update store id text
  have hsettings := Store.settings_update store id text
  rw [Tables.refresh, h.text_eq id]
  cases hknown : text <|> store.text? id with
  | none =>
      have hupdate : store.update id text = ({}, store) := by rw [Store.update, hknown]
      rw [hupdate]
      exact ⟨rfl, h⟩
  | some text' =>
      refine ⟨?_, h.settings_eq.trans hsettings.symm, fun other => ?_, fun other => ?_⟩
      · rw [Store.update, hknown, h.settings_eq]
      · rw [htext, hknown, ← h.text_eq other]
        exact get?_insert_by_name t.texts id other text'
      · rw [hresult, hknown, ← h.result_eq other, ← h.settings_eq]
        exact get?_insert_by_name t.results id other _

theorem invalidate (h : Shows t store) (id : String) : Shows (t.invalidate id) (store.erase id) := by
  refine ⟨h.settings_eq, fun other => ?_, fun other => ?_⟩
  · rw [Store.text?_erase, ← h.text_eq other]
    exact get?_erase_by_name t.texts id other
  · rw [Store.snapshot?_erase, ← h.result_eq other]
    exact get?_erase_by_name t.results id other

theorem dropResult (h : Shows t store) (id : String) : Shows (t.dropResult id) (store.dropSnapshot id) := by
  refine ⟨h.settings_eq, fun other => ?_, fun other => ?_⟩
  · show t.texts.get? other = _
    rw [h.text_eq, Store.text?, Store.text?, Store.get?_dropSnapshot]
    split
    · next heq =>
        rw [heq, Option.map_map]
        rfl
    · rfl
  · rw [Tables.dropResult, get?_erase_by_name, h.result_eq, Store.snapshot?, Store.snapshot?, Store.get?_dropSnapshot]
    split
    · cases store.documents.get? id <;> rfl
    · rfl

/-! ### Reading all documents again -/

/-- Reading documents again from their texts, in any order, gives each of them the result of the settings of now. -/
theorem refreshEach (known : List (String × String)) (h : Shows t store)
    (hknown : ∀ document ∈ known, store.text? document.1 = some document.2) :
    (t.refreshEach known).settings = t.settings ∧
      (∀ id, (t.refreshEach known).texts.get? id = t.texts.get? id) ∧
      ∀ id, (t.refreshEach known).results.get? id =
        if id ∈ known.map Prod.fst then (store.text? id).map (parse store.settings) else store.snapshot? id := by
  induction known generalizing t store with
  | nil => exact ⟨rfl, fun _ => rfl, fun id => by rw [if_neg (by simp)]; exact h.result_eq id⟩
  | cons document known ih =>
      obtain ⟨hdocument, hknown⟩ := List.forall_mem_cons.1 hknown
      have hnext := (h.refresh document.1 (some document.2)).2
      have hsettings := Store.settings_update store document.1 (some document.2)
      -- a text that is known already is put in its own place
      have htext : ∀ id, (store.update document.1 (some document.2)).2.text? id = store.text? id := by
        intro id
        rw [Store.text?_update]
        split
        · next heq =>
            rw [← heq, hdocument]
            rfl
        · rfl
      obtain ⟨ihSettings, ihTexts, ihResults⟩ := ih hnext fun d hd => (htext d.1).trans (hknown d hd)
      refine ⟨?_, fun id => ?_, fun id => ?_⟩
      · exact ihSettings.trans (hnext.settings_eq.trans (hsettings.trans h.settings_eq.symm))
      · exact (ihTexts id).trans ((hnext.text_eq id).trans ((htext id).trans (h.text_eq id).symm))
      · refine (ihResults id).trans ?_
        rw [hsettings, htext, Store.snapshot?_update, List.map_cons]
        by_cases hmem : id ∈ known.map Prod.fst
        · rw [if_pos hmem, if_pos (List.mem_cons_of_mem _ hmem)]
        · rw [if_neg hmem]
          by_cases heq : document.1 = id
          · rw [if_pos heq, ← heq, hdocument, if_pos List.mem_cons_self]
            rfl
          · rw [if_neg heq, if_neg fun hcons => (List.mem_cons.1 hcons).elim (fun h => heq h.symm) hmem]

/-- The order in which the known texts are read again does not matter. -/
theorem refreshEach_all (h : Shows t store) {known : List (String × String)} (hknown : known.Perm t.texts.toList) :
    Shows (t.refreshEach known) store.rereadAll := by
  have hmem : ∀ id text, (id, text) ∈ known ↔ store.text? id = some text := by
    intro id text
    rw [hknown.mem_iff, Std.TreeMap.mem_toList_iff_getElem?_eq_some, ← h.text_eq]
    rfl
  obtain ⟨hsettings, htexts, hresults⟩ := h.refreshEach known fun document => (hmem _ _).1
  refine ⟨hsettings.trans h.settings_eq, fun id => ?_, fun id => ?_⟩
  · rw [htexts, h.text_eq, Store.text?_rereadAll]
  · rw [hresults, Store.snapshot?_rereadAll]
    cases htext : store.text? id with
    | some text => rw [if_pos (List.mem_map.2 ⟨(id, text), (hmem id text).2 htext, rfl⟩)]
    | none =>
        have hunread : id ∉ known.map Prod.fst := by
          rintro hid
          obtain ⟨⟨_, text⟩, hdocument, rfl⟩ := List.mem_map.1 hid
          rw [(hmem _ text).1 hdocument] at htext
          cases htext
        rw [if_neg hunread, Store.snapshot?, Store.text?_eq_none.1 htext]
        rfl

/-! ### Queries -/

theorem symbols? (h : Shows t store) (id : String) : t.symbols? id = store.symbols? id := by
  rw [Tables.symbols?, Store.symbols?, h.result_eq]

theorem currentSymbols (h : Shows t store) (id : String) :
    (t.currentSymbols id).1 = (Editor.currentSymbols store id).1 ∧
      Shows (t.currentSymbols id).2 (Editor.currentSymbols store id).2 := by
  have hnext := (h.refresh id none).2
  rw [Tables.currentSymbols, Editor.currentSymbols, h.symbols? id]
  cases store.symbols? id with
  | some symbols => exact ⟨rfl, h⟩
  | none => exact ⟨congrArg (Option.getD · []) (hnext.symbols? id), hnext⟩

/-- The table of results, in the order of the names, is the list of documents that have been read. -/
theorem toList_results (h : Shows t store) : t.results.toList = store.parses := by
  have hsame : t.results.Equiv (store.documents.filterMap fun _ d => d.snapshot) := by
    refine Std.TreeMap.Equiv.of_forall_constGet?_eq fun id => ?_
    rw [Std.TreeMap.getElem?_filterMap']
    exact h.result_eq id
  rw [hsame.toList_eq, Std.TreeMap.toList_filterMap]
  rfl

end Shows

/-- Whatever is asked, tables answer as a store does. -/
structure Answers (t : Tables) (store : Store) : Prop where
  text : ∀ id, t.texts.get? id = store.text? id
  symbols : ∀ id, t.symbols? id = store.symbols? id
  problems : ∀ id, t.problems? id = store.problems? id
  refresh : ∀ id text, (t.refresh id text).1 = (store.update id text).1
  outline : ∀ id, (t.outline id).1 = (Editor.outline store id).1
  completions : ∀ id p, (t.completions id p).1 = (Editor.completions store id p).1
  search : ∀ query, t.search query = store.search query
  ids : t.ids = store.ids
  symbolCount : t.symbolCount = store.symbolCount

theorem Shows.answers {t : Tables} {store : Store} (h : Shows t store) : Answers t store := by
  constructor
  case text => exact h.text_eq
  case symbols => exact h.symbols?
  case problems =>
    intro id
    rw [problems?, Store.problems?, h.result_eq]
  case refresh => exact fun id text => (h.refresh id text).1
  case outline => exact fun id => congrArg (List.map _) (h.currentSymbols id).1
  case completions =>
    exact fun id p => congrArg (fun symbols => ((Scope.ofSymbols symbols).visible p).map _) (h.currentSymbols id).1
  case search =>
    intro query
    rw [Tables.search, h.toList_results]
    rfl
  case ids => rw [Tables.ids, ← Std.TreeMap.map_fst_toList_eq_keys, h.toList_results, Store.ids]
  case symbolCount =>
    rw [Tables.symbolCount, h.toList_results, Store.symbolCount]
    induction store.parses with
    | nil => rfl
    | cons document parses ih => rw [List.foldr_cons, ih, List.flatMap_cons, List.length_append]

/-! ### Operations one after the other -/

/-- An operation does the same to tables as to the store they show. -/
theorem Shows.apply {t : Tables} {store : Store} (h : Shows t store) (op : Store.Operation) :
    Shows (t.apply op) (store.apply op) := by
  cases op with
  | refresh id text => exact (h.refresh id text).2
  | invalidate id => exact h.invalidate id
  | deleted id => exact h.invalidate id
  | changed id text => exact (h.refresh id (some text)).2
  | configure settings => exact ⟨rfl, h.text_eq, h.result_eq⟩
  | rereadAll => exact h.refreshEach_all (.refl _)
  | dropSnapshot id => exact h.dropResult id
  | get id => exact h
  | search query => exact h
  | outline id => exact (h.currentSymbols id).2
  | completions id position => exact (h.currentSymbols id).2

/-- And so do operations one after the other. -/
theorem Shows.foldl_apply {t : Tables} {store : Store} (h : Shows t store) (ops : List Store.Operation) :
    Shows (ops.foldl Tables.apply t) (ops.foldl Store.apply store) := by
  induction ops generalizing t store with
  | nil => exact h
  | cons op ops ih => exact ih (h.apply op)

/-- Whatever is done to empty tables and to an empty store, the tables show the store. -/
theorem shows_after (settings : Settings) (ops : List Store.Operation) :
    Shows (after settings ops) (Store.after settings ops) := by
  have hempty : Shows { settings := settings } { settings := settings } :=
    ⟨rfl, fun _ => rfl, fun _ => rfl⟩
  exact hempty.foldl_apply ops

/-- What is in the table of results was found in the text that stands in the other table, and its symbols are those
of the text under any settings. -/
theorem exists_text_of_result (settings : Settings) (ops : List Store.Operation) {id : String} {found : Parse}
    (h : (after settings ops).results.get? id = some found) :
    ∃ text, (after settings ops).texts.get? id = some text ∧
      ∀ other, found.symbols = (parse other text).symbols := by
  have hshows := shows_after settings ops
  obtain ⟨d, hd, hfound⟩ := Store.snapshot?_eq_some.1 ((hshows.result_eq id).symm.trans h)
  obtain ⟨n, -, rfl⟩ := Store.found_of_get? settings ops hd hfound
  refine ⟨d.text, ?_, fun other => parse_symbols_eq _ other d.text⟩
  rw [hshows.text_eq, Store.text?_eq_some]
  exact ⟨d, hd, rfl⟩

end Tables

end VbOutline
