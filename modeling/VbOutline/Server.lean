import VbOutline.Editor.Query
import VbOutline.Files.Script

/-! The symbol server: nine tools on one store, each of which answers with a text to show. -/

namespace VbOutline

open Editor Files

/-- The tools with their arguments. -/
inductive Tool where
  /-- Takes over the full text of a document. -/
  | documentChanged (id text : String)
  /-- Forgets a document. -/
  | documentDeleted (id : String)
  /-- Reads a file; its path is the name of the document. -/
  | loadFile (path : String)
  /-- Reads all scripts below a folder. -/
  | indexFolder (folder : String)
  /-- Shows the outline of a document. -/
  | listSymbols (id : String)
  /-- Shows the symbols visible at a position. -/
  | completionsAt (id : String) (position : Position)
  /-- Shows the symbols of all documents with a text in their names. -/
  | workspaceSymbols (query : String)
  /-- Shows the problems of a document. -/
  | documentDiagnostics (id : String)
  /-- Sets how many problems are kept and reads all documents again. -/
  | configure (maxProblems : Int)
deriving DecidableEq

/-- The state of the server. -/
structure Server where
  store : Store := {}
  /-- How many lines of a file are read. -/
  lineLimit : Nat := 100000

namespace Server

/-! ### Wording -/

/-- A range as it is shown. -/
def showRange (r : Range) : String :=
  let start := r.start
  let stop := r.stop
  s!"{start.line}:{start.character}-{stop.line}:{stop.character}"

/-- The answer about a document that is not known. -/
def unknown (id : String) : String :=
  s!"Error: No text known for `{id}`. Call document_changed or load_file first."

/-- One row of an outline. -/
def outlineRow (e : OutlineEntry) : String :=
  let kind := if e.detail.isEmpty then e.kind.name else e.kind.name ++ " (" ++ e.detail ++ ")"
  let parent := e.parent.getD "-"
  let range := showRange e.declaredRange
  s!"| {e.rendered} | {kind} | {parent} | {range} |\n"

/-- An outline as a table. -/
def showOutline (id : String) (entries : List OutlineEntry) : String :=
  if entries.isEmpty then s!"No symbols found in `{id}`"
  else
    s!"**{entries.length} symbols in `{id}`:**\n\n"
      ++ "| Name | Kind | Parent | Range |\n|------|------|--------|-------|\n"
      ++ String.join (entries.map outlineRow)

/-- One candidate of a completion list. -/
def completionRow (c : Completion) : String :=
  let summary := match c.documentation with
    | some text => " — " ++ text
    | none => ""
  s!"- `{c.label}` ({c.kind.name}){summary}\n"

/-- A completion list. -/
def showCompletions (id : String) (p : Position) (candidates : List Completion) : String :=
  if candidates.isEmpty then s!"No symbols visible at {p.line}:{p.character} in `{id}`"
  else
    s!"**{candidates.length} symbols visible at {p.line}:{p.character}:**\n\n"
      ++ String.join (candidates.map completionRow)

/-- One symbol of a search. -/
def matchRow (e : OutlineEntry) : String :=
  let document := e.document.getD ""
  let range := showRange e.nameRange
  s!"- **{e.rendered}** ({e.kind.name}) in `{document}` at {range}\n"

/-- The result of a search. -/
def showMatches (query : String) (entries : List OutlineEntry) : String :=
  if entries.isEmpty then s!"No symbols matching `{query}`"
  else s!"**{entries.length} symbols matching `{query}`:**\n\n" ++ String.join (entries.map matchRow)

/-- One problem of a document; lines are shown counted from one. -/
def problemRow (p : Problem) : String := s!"- Line {p.line + 1} **{p.category.name}**: {p.message}\n"

/-- The problems of a document. -/
def showProblems (id : String) (problems : List Problem) : String :=
  if problems.isEmpty then s!"No problems found in `{id}`"
  else s!"**{problems.length} problems in `{id}`:**\n\n" ++ String.join (problems.map problemRow)

/-! ### The tools -/

/-- The text of a file. -/
def textOf? (server : Server) (files : Disk) (path : String) : Option String :=
  readScript? files server.lineLimit path

/-- Takes over a document and tells what was found in it. -/
def change (server : Server) (id text : String) : String × Server :=
  let (found, store) := server.store.update id (some text)
  (s!"Parsed `{id}`: {found.symbols.length} symbols, {found.problems.length} problems.",
    { server with store := store })

/-- Takes over a file as a document, if it can be read. -/
def loadOne (files : Disk) (folder : String) (state : Nat × Server) (file : String) : Nat × Server :=
  let (loaded, server) := state
  let path := joinPath folder file
  match server.textOf? files path with
  | some text => (loaded + 1, { server with store := server.store.put (slashed path) text })
  | none => (loaded, server)

/-- Takes over all scripts below a folder. -/
def index (server : Server) (files : Disk) (folder : String) : String × Server :=
  match files.folder? folder with
  | none => (s!"Error: Folder not found at {folder}", server)
  | some _ =>
    let found := scriptsBelow files folder
    let (loaded, server) := found.foldl (loadOne files folder) (0, server)
    let store := server.store
    (s!"Indexed {loaded} of {found.length} script files under `{folder}`.\n"
        ++ s!"{store.symbolCount} symbols across {store.ids.length} documents.",
      server)

/-- Uses a tool while the files are as given. -/
def call (server : Server) (files : Disk) : Tool → String × Server
  | .documentChanged id text => server.change id text
  | .documentDeleted id => (s!"Removed `{id}`.", { server with store := server.store.erase id })
  | .loadFile path =>
    match server.textOf? files path with
    | some text => server.change (slashed path) text
    | none => (s!"Error: Cannot read {path}", server)
  | .indexFolder folder => server.index files folder
  | .listSymbols id =>
    if (server.store.text? id).isNone then (unknown id, server)
    else
      let (entries, store) := Editor.outline server.store id
      (showOutline id entries, { server with store := store })
  | .completionsAt id p =>
    if (server.store.text? id).isNone then (unknown id, server)
    else
      let (candidates, store) := Editor.completions server.store id p
      (showCompletions id p candidates, { server with store := store })
  | .workspaceSymbols query => (showMatches query (Editor.search server.store query), server)
  | .documentDiagnostics id =>
    match server.store.problems? id with
    | some problems => (showProblems id problems, server)
    | none => (unknown id, server)
  | .configure maxProblems =>
    if maxProblems < 0 then ("Error: max_number_of_problems must not be negative.", server)
    else
      let store := (server.store.withSettings { maxProblems := maxProblems }).rereadAll
      (s!"Settings updated (max_number_of_problems={maxProblems}); "
          ++ s!"reparsed {store.ids.length} documents.",
        { server with store := store })

end Server

end VbOutline
