import Std.Data.TreeMap
import VbOutline.Outline.Parse
import VbOutline.Text.Occurs

/-! The store of known documents: for each its text and, once it has been read, what was found in it.
Documents are kept in the order of their names. -/

namespace VbOutline

open Outline

/-- A known document: its text and the result of reading it last, if that is still kept. -/
structure Document where
  text : String
  snapshot : Option Parse

/-- The known documents by name, and the settings for reading them. -/
structure Store where
  settings : Settings := {}
  documents : Std.TreeMap String Document := {}

namespace Store

/-- The text of a document. -/
def text? (store : Store) (id : String) : Option String :=
  (store.documents.get? id).map Document.text

/-- What was found in a document when it was read last. -/
def snapshot? (store : Store) (id : String) : Option Parse :=
  (store.documents.get? id).bind Document.snapshot

/-- The symbols of a document. -/
def symbols? (store : Store) (id : String) : Option (List Symbol) :=
  (store.snapshot? id).map Parse.symbols

/-- The problems of a document. -/
def problems? (store : Store) (id : String) : Option (List Problem) :=
  (store.snapshot? id).map Parse.problems

/-- Reads a document from the given text, or else from the text it is known by, and keeps the text with
what was found. An unknown document without a text stays unknown and has nothing in it. -/
def update (store : Store) (id : String) (text : Option String) : Parse × Store :=
  match text <|> store.text? id with
  | some text =>
    let found := parse store.settings text
    (found, { store with documents := store.documents.insert id ⟨text, some found⟩ })
  | none => ({}, store)

/-- Reads a text and keeps it, with what was found in it, as a document. -/
def put (store : Store) (id text : String) : Store := (store.update id (some text)).2

/-- Reads a document again from the text it is known by. -/
def reread (store : Store) (id : String) : Store := (store.update id none).2

/-- Forgets a document. -/
def erase (store : Store) (id : String) : Store :=
  { store with documents := store.documents.erase id }

/-- Forgets what was found in a document but not its text. -/
def dropSnapshot (store : Store) (id : String) : Store :=
  { store with documents := store.documents.modify id fun d => { d with snapshot := none } }

/-- Replaces the settings; what was found before stays as it is. -/
def withSettings (store : Store) (settings : Settings) : Store := { store with settings := settings }

/-- Reads every document again. -/
def rereadAll (store : Store) : Store :=
  { store with
    documents := store.documents.map fun _ d => { d with snapshot := some (parse store.settings d.text) } }

/-- The documents that have been read, in the order of their names. -/
def parses (store : Store) : List (String × Parse) :=
  store.documents.toList.filterMap fun (id, d) => d.snapshot.map fun parse => (id, parse)

/-- The names of the documents that have been read. -/
def ids (store : Store) : List String := store.parses.map Prod.fst

/-- The number of symbols in all documents. -/
def symbolCount (store : Store) : Nat :=
  (store.parses.flatMap fun (_, parse) => parse.symbols).length

/-! ### Searching -/

/-- The symbols of all documents whose rendered name has the query in it; letter case counts. -/
def search (store : Store) (query : String) : List (String × Symbol) :=
  store.parses.flatMap fun (id, parse) =>
    (parse.symbols.filter fun s => Text.occursIn query.toList s.rendered.toList).map fun s => (id, s)

end Store

end VbOutline
