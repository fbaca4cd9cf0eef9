import VbOutline.Editor.Entry
import VbOutline.Scope
import VbOutline.Store

/-! What an editor asks of the store. A document whose text is known but whose symbols are not is read
first, so an answer comes with the store after it. -/

namespace VbOutline.Editor

/-- The symbols of a document. -/
def currentSymbols (store : Store) (id : String) : List Symbol × Store :=
  match store.symbols? id with
  | some symbols => (symbols, store)
  | none =>
    let store := store.reread id
    ((store.symbols? id).getD [], store)

/-- The outline of a document. -/
def outline (store : Store) (id : String) : List OutlineEntry × Store :=
  let (symbols, store) := currentSymbols store id
  (symbols.map (OutlineEntry.ofSymbol none), store)

/-- The symbols visible at a position of a document. -/
def completions (store : Store) (id : String) (p : Position) : List Completion × Store :=
  let (symbols, store) := currentSymbols store id
  (((Scope.ofSymbols symbols).visible p).map Completion.ofSymbol, store)

/-- The symbols of all documents whose rendered name has the query in it. -/
def search (store : Store) (query : String) : List OutlineEntry :=
  (store.search query).map fun (id, s) => OutlineEntry.ofSymbol (some id) s

end VbOutline.Editor
