import VbOutline.Proofs.Documents
import VbOutline.Server

/-! Sessions: tools used one after the other, while the files change in any way. Seen from outside, a session
leaves behind the limit that was set last and, for each document, the text that was delivered last; the
server holds exactly that, with every text read under the settings, and its answers depend on nothing
else. -/

namespace VbOutline

open Editor Files Outline

/-- The tools that only ask. -/
def Tool.IsQuery : Tool → Prop
  | .listSymbols _ | .completionsAt _ _ | .workspaceSymbols _ | .documentDiagnostics _ => True
  | _ => False

namespace Server

/-! ### What a session leaves behind -/

/-- The use of a tool, with the files as they are at that time. -/
structure Call where
  files : Disk
  tool : Tool

/-- The server after some calls. -/
def after (lineLimit : Nat) (calls : List Call) : Server :=
  calls.foldl (fun server c => (server.call c.files c.tool).2) { lineLimit := lineLimit }

/-- What happens to a document. -/
inductive Event where
  | delivered (id text : String)
  | deleted (id : String)

namespace Event

/-- The text that a document has after an event; nothing if the event is about another one. -/
def text? (id : String) : Event → Option (Option String)
  | delivered other text => if other = id then some (some text) else none
  | deleted other => if other = id then some none else none

/-- The text delivered last for a document, unless it was deleted afterwards. -/
def latest (events : List Event) (id : String) : Option String :=
  (events.reverse.findSome? (text? id)).join

/-- The delivery of a file that can be read. -/
def ofFile (files : Disk) (lineLimit : Nat) (path : String) : List Event :=
  ((readScript? files lineLimit path).map (delivered (slashed path))).toList

end Event

/-- What a call does to documents. -/
def Call.events (lineLimit : Nat) (c : Call) : List Event :=
  match c.tool with
  | .documentChanged id text => [.delivered id text]
  | .documentDeleted id => [.deleted id]
  | .loadFile path => Event.ofFile c.files lineLimit path
  | .indexFolder folder =>
    (scriptsBelow c.files folder).flatMap fun file => Event.ofFile c.files lineLimit (joinPath folder file)
  | _ => []

/-- The limit that a call sets. -/
def Call.maxProblems? (c : Call) : Option Int :=
  match c.tool with
  | .configure maxProblems => if maxProblems < 0 then none else some maxProblems
  | _ => none

/-- What can be known of a server from outside. -/
structure Known where
  settings : Settings
  text? : String → Option String

/-- What is known after some calls: the limit accepted last, and the text of each document. -/
def known (lineLimit : Nat) (calls : List Call) : Known where
  settings := { maxProblems := (calls.filterMap Call.maxProblems?).getLastD 100 }
  text? := Event.latest (calls.flatMap (Call.events lineLimit))

/-- The same with another text for a document, or none. -/
def Known.set (k : Known) (id : String) (text : Option String) : Known :=
  { k with text? := fun other => if id = other then text else k.text? other }

/-- A server holds what is known, and every text is read under the settings. -/
structure Refines (server : Server) (k : Known) : Prop where
  settings_eq : server.store.settings = k.settings
  text?_eq : ∀ id, server.store.text? id = k.text? id
  snapshot?_eq : ∀ id, server.store.snapshot? id = (k.text? id).map (parse k.settings)

/-! ### What a call does to the server -/

section Calls

variable {server : Server} {k : Known} {files : Disk}

theorem Refines.put (h : Refines server k) (id text : String) :
    Refines { server with store := server.store.put id text } (k.set id (some text)) := by
  refine ⟨?_, fun other => ?_, fun other => ?_⟩
  · exact (Store.settings_update server.store id (some text)).trans h.settings_eq
  · show (server.store.update id (some text)).2.text? other = if id = other then some text else k.text? other
    rw [Store.text?_update, h.text?_eq other]
    rfl
  · show (server.store.update id (some text)).2.snapshot? other =
      (if id = other then some text else k.text? other).map (parse k.settings)
    rw [Store.snapshot?_update, h.settings_eq, h.snapshot?_eq]
    split <;> rfl

theorem Refines.erase (h : Refines server k) (id : String) :
    Refines { server with store := server.store.erase id } (k.set id none) := by
  refine ⟨h.settings_eq, fun other => ?_, fun other => ?_⟩
  · show (server.store.erase id).text? other = if id = other then none else k.text? other
    rw [Store.text?_erase, h.text?_eq]
  · show (server.store.erase id).snapshot? other =
      (if id = other then none else k.text? other).map (parse k.settings)
    rw [Store.snapshot?_erase, h.snapshot?_eq]
    split <;> rfl

theorem Refines.configure (h : Refines server k) (settings : Settings) :
    Refines { server with store := (server.store.withSettings settings).rereadAll } ⟨settings, k.text?⟩ := by
  refine ⟨rfl, fun id => ?_, fun id => ?_⟩
  · exact (Store.text?_rereadAll _ id).trans (h.text?_eq id)
  · show (server.store.withSettings settings).rereadAll.snapshot? id = _
    rw [Store.snapshot?_rereadAll]
    exact congrArg _ (h.text?_eq id)

theorem Refines.currentSymbols (h : Refines server k) {id text : String} (htext : k.text? id = some text) :
    Editor.currentSymbols server.store id = ((parse k.settings text).symbols, server.store) := by
  rw [Editor.currentSymbols, Store.symbols?, h.snapshot?_eq, htext]
  rfl

theorem call_listSymbols (h : Refines server k) (id : String) :
    server.call files (.listSymbols id) =
      ((k.text? id).elim (unknown id) fun text =>
        showOutline id ((parse k.settings text).symbols.map (OutlineEntry.ofSymbol none)), server) := by
  rw [call, h.text?_eq]
  cases htext : k.text? id with
  | none => rfl
  | some text =>
      rw [Editor.outline, h.currentSymbols htext, if_neg (by simp), Option.elim_some]

theorem call_completionsAt (h : Refines server k) (id : String) (p : Position) :
    server.call files (.completionsAt id p) =
      ((k.text? id).elim (unknown id) fun text =>
        showCompletions id p
          (((Scope.ofSymbols (parse k.settings text).symbols).visible p).map Completion.ofSymbol), server) := by
  rw [call, h.text?_eq]
  cases htext : k.text? id with
  | none => rfl
  | some text =>
      rw [Editor.completions, h.currentSymbols htext, if_neg (by simp), Option.elim_some]

theorem call_documentDiagnostics (h : Refines server k) (id : String) :
    server.call files (.documentDiagnostics id) =
      ((k.text? id).elim (unknown id) fun text => showProblems id (parse k.settings text).problems, server) := by
  rw [call, Store.problems?, h.snapshot?_eq]
  cases k.text? id with
  | none => rfl
  | some text => simp only [Option.map_some, Option.elim_some]

theorem Refines.query_unchanged (h : Refines server k) {tool : Tool} (hquery : tool.IsQuery) :
    (server.call files tool).2 = server := by
  cases tool with
  | listSymbols id => rw [call_listSymbols h]
  | completionsAt id p => rw [call_completionsAt h]
  | workspaceSymbols query => rfl
  | documentDiagnostics id => rw [call_documentDiagnostics h]
  | documentChanged id text => cases hquery
  | documentDeleted id => cases hquery
  | loadFile path => cases hquery
  | indexFolder folder => cases hquery
  | configure maxProblems => cases hquery

/-! ### Whole sessions -/

theorem Event.latest_concat (events : List Event) (e : Event) (id : String) :
    latest (events ++ [e]) id = (e.text? id).getD (latest events id) := by
  rw [latest, List.reverse_append, List.reverse_singleton, List.singleton_append, List.findSome?_cons]
  cases e.text? id <;> rfl

/-- Some events have happened, and the settings are these. -/
def Known.of (settings : Settings) (events : List Event) : Known := ⟨settings, Event.latest events⟩

theorem Known.of_delivered (settings : Settings) (events : List Event) (id text : String) :
    of settings (events ++ [.delivered id text]) = (of settings events).set id (some text) := by
  unfold of set
  congr
  funext other
  rw [Event.latest_concat, Event.text?]
  split <;> rfl

theorem Known.of_deleted (settings : Settings) (events : List Event) (id : String) :
    of settings (events ++ [.deleted id]) = (of settings events).set id none := by
  unfold of set
  congr
  funext other
  rw [Event.latest_concat, Event.text?]
  split <;> rfl

variable {settings : Settings} {events : List Event}

theorem Refines.ofFile (h : Refines server (.of settings events)) (files : Disk) (path : String) :
    Refines ((server.textOf? files path).elim server fun text =>
        { server with store := server.store.put (slashed path) text })
      (.of settings (events ++ Event.ofFile files server.lineLimit path)) := by
  rw [Event.ofFile, textOf?]
  cases readScript? files server.lineLimit path with
  | none => rwa [Option.map_none, Option.toList_none, List.append_nil]
  | some text =>
      rw [Option.map_some, Option.toList_some, Known.of_delivered]
      exact h.put (slashed path) text

theorem loadOne_snd (folder : String) (loaded : Nat) (server : Server) (file : String) :
    (loadOne files folder (loaded, server) file).2 =
      (server.textOf? files (joinPath folder file)).elim server fun text =>
        { server with store := server.store.put (slashed (joinPath folder file)) text } := by
  dsimp only [loadOne]
  cases server.textOf? files (joinPath folder file) <;> rfl

theorem lineLimit_loadOne (files : Disk) (folder : String) (loaded : Nat) (server : Server) (file : String) :
    (loadOne files folder (loaded, server) file).2.lineLimit = server.lineLimit := by
  rw [loadOne_snd]
  cases server.textOf? files (joinPath folder file) <;> rfl

/-- Files that are taken over one after the other are delivered one after the other. -/
theorem Refines.foldl_loadOne (files : Disk) (folder : String) (found : List String) (loaded : Nat)
    (h : Refines server (.of settings events)) :
    Refines (found.foldl (loadOne files folder) (loaded, server)).2
        (.of settings (events ++ found.flatMap fun file =>
          Event.ofFile files server.lineLimit (joinPath folder file))) ∧
      (found.foldl (loadOne files folder) (loaded, server)).2.lineLimit = server.lineLimit := by
  induction found generalizing loaded server events with
  | nil =>
      rw [List.flatMap_nil, List.append_nil]
      exact ⟨h, rfl⟩
  | cons file found ih =>
      have hone := h.ofFile files (joinPath folder file)
      rw [← loadOne_snd folder loaded server file] at hone
      have hlimit := lineLimit_loadOne files folder loaded server file
      obtain ⟨hrest, hrestLimit⟩ := ih (loadOne files folder (loaded, server) file).1 hone
      rw [hlimit] at hrest
      rw [List.flatMap_cons, ← List.append_assoc]
      exact ⟨hrest, hrestLimit.trans hlimit⟩

theorem Refines.step (h : Refines server (.of settings events)) (files : Disk) (tool : Tool) :
    Refines (server.call files tool).2
        (.of ((Call.mk files tool).maxProblems?.elim settings fun n => { maxProblems := n })
          (events ++ (Call.mk files tool).events server.lineLimit)) ∧
      (server.call files tool).2.lineLimit = server.lineLimit := by
  have hquery : tool.IsQuery → Refines (server.call files tool).2 (.of settings (events ++ [])) ∧
      (server.call files tool).2.lineLimit = server.lineLimit := by
    intro hquery
    rw [h.query_unchanged hquery, List.append_nil]
    exact ⟨h, rfl⟩
  cases tool with
  | documentChanged id text =>
      refine ⟨?_, rfl⟩
      show Refines _ (.of settings (events ++ [.delivered id text]))
      rw [Known.of_delivered]
      exact h.put id text
  | documentDeleted id =>
      refine ⟨?_, rfl⟩
      show Refines _ (.of settings (events ++ [.deleted id]))
      rw [Known.of_deleted]
      exact h.erase id
  | loadFile path =>
      have hfile := h.ofFile files path
      rw [Server.call]
      cases htext : server.textOf? files path with
      | none =>
          rw [htext] at hfile
          exact ⟨hfile, rfl⟩
      | some text =>
          rw [htext] at hfile
          exact ⟨hfile, rfl⟩
  | indexFolder folder =>
      have hfold := h.foldl_loadOne files folder (scriptsBelow files folder) 0
      rw [Server.call, index]
      cases hfolder : files.folder? folder with
      | none =>
          have hnone : scriptsBelow files folder = [] := by rw [scriptsBelow, hfolder]
          rw [hnone] at hfold
          show Refines server (.of settings (events ++ (scriptsBelow files folder).flatMap _)) ∧ _
          rw [hnone]
          exact hfold
      | some inner => exact hfold
  | configure maxProblems =>
      rw [Server.call]
      split
      · next hneg =>
          have hnone : (Call.mk files (.configure maxProblems)).maxProblems? = none := if_pos hneg
          rw [hnone]
          refine ⟨?_, rfl⟩
          show Refines server (.of settings (events ++ []))
          rwa [List.append_nil]
      · next hpos =>
          have hsome : (Call.mk files (.configure maxProblems)).maxProblems? = some maxProblems := if_neg hpos
          rw [hsome]
          refine ⟨?_, rfl⟩
          show Refines _ (.of { maxProblems := maxProblems } (events ++ []))
          rw [List.append_nil]
          exact h.configure { maxProblems := maxProblems }
  | listSymbols id => exact hquery trivial
  | completionsAt id p => exact hquery trivial
  | workspaceSymbols query => exact hquery trivial
  | documentDiagnostics id => exact hquery trivial

end Calls

/-! ### Answers -/

section Answers

variable {server server' : Server} {k : Known} {files files' : Disk}

theorem Refines.get?_eq (h : Refines server k) (id : String) :
    server.store.documents.get? id = (k.text? id).map fun text => ⟨text, some (parse k.settings text)⟩ := by
  have htext := h.text?_eq id
  have hsnapshot := h.snapshot?_eq id
  rw [Store.text?] at htext
  rw [Store.snapshot?] at hsnapshot
  cases hd : server.store.documents.get? id with
  | none =>
      rw [hd] at htext
      rw [← htext]
      rfl
  | some d =>
      obtain ⟨text, snapshot⟩ := d
      rw [hd] at htext hsnapshot
      rw [← htext] at hsnapshot ⊢
      exact congrArg (fun snapshot => some (Document.mk text snapshot)) hsnapshot

/-- What is known settles what has been read, in its order. -/
theorem Refines.parses_eq (h : Refines server k) (h' : Refines server' k) :
    server.store.parses = server'.store.parses := by
  have hequiv : server.store.documents.Equiv server'.store.documents := by
    apply Std.TreeMap.Equiv.of_forall_constGet?_eq
    intro id
    rw [← Std.TreeMap.get?_eq_getElem?, ← Std.TreeMap.get?_eq_getElem?, h.get?_eq, h'.get?_eq]
  rw [Store.parses, Store.parses, hequiv.toList_eq]

theorem Refines.answer_eq (h : Refines server k) (h' : Refines server' k) {tool : Tool} (hquery : tool.IsQuery) :
    (server.call files tool).1 = (server'.call files' tool).1 := by
  cases tool with
  | listSymbols id => rw [call_listSymbols h, call_listSymbols h']
  | completionsAt id p => rw [call_completionsAt h, call_completionsAt h']
  | workspaceSymbols query =>
      show showMatches query (Editor.search server.store query) =
        showMatches query (Editor.search server'.store query)
      rw [Editor.search, Editor.search, Store.search, Store.search, h.parses_eq h']
  | documentDiagnostics id => rw [call_documentDiagnostics h, call_documentDiagnostics h']
  | documentChanged id text => cases hquery
  | documentDeleted id => cases hquery
  | loadFile path => cases hquery
  | indexFolder folder => cases hquery
  | configure maxProblems => cases hquery

/-- An answer that tells of an error. -/
def IsError (answer : String) : Prop := ∃ rest, answer = "Error: " ++ rest

/-- What an answer starts with. -/
def Opens (c : Char) (answer : String) : Prop := answer.toList.head? = some c

theorem Opens.append {c : Char} {a : String} (h : Opens c a) (b : String) : Opens c (a ++ b) := by
  rw [Opens, String.toList_append, List.head?_append, h]
  rfl

theorem IsError.append {a : String} (h : IsError a) (b : String) : IsError (a ++ b) := by
  obtain ⟨rest, rfl⟩ := h
  exact ⟨rest ++ b, String.append_assoc⟩

theorem Opens.not_isError {c : Char} {a : String} (h : Opens c a) (hc : c ≠ 'E') : ¬ IsError a := by
  rintro ⟨rest, rfl⟩
  have herror : Opens 'E' ("Error: " ++ rest) := Opens.append (a := "Error: ") rfl rest
  rw [Opens, h] at herror
  exact hc (Option.some.inj herror)

theorem isError_unknown (id : String) : IsError (unknown id) :=
  (IsError.append ⟨"No text known for `", rfl⟩ id).append _

/-- Answers to queries about known documents tell that there is nothing or show a count in bold. -/
theorem not_isError_of_shown {shown : Prop} [Decidable shown] {a b : String} (ha : Opens 'N' a)
    (hb : Opens '*' b) : ¬ IsError (if shown then a else b) := by
  split
  · exact ha.not_isError (by decide)
  · exact hb.not_isError (by decide)

theorem showOutline_not_isError (id : String) (entries : List OutlineEntry) :
    ¬ IsError (showOutline id entries) := by
  refine not_isError_of_shown ?_ ?_
  all_goals
    repeat apply Opens.append
    rfl

theorem showCompletions_not_isError (id : String) (p : Position) (candidates : List Completion) :
    ¬ IsError (showCompletions id p candidates) := by
  refine not_isError_of_shown ?_ ?_
  all_goals
    repeat apply Opens.append
    rfl

theorem showMatches_not_isError (query : String) (entries : List OutlineEntry) :
    ¬ IsError (showMatches query entries) := by
  refine not_isError_of_shown ?_ ?_
  all_goals
    repeat apply Opens.append
    rfl

theorem showProblems_not_isError (id : String) (problems : List Problem) :
    ¬ IsError (showProblems id problems) := by
  refine not_isError_of_shown ?_ ?_
  all_goals
    repeat apply Opens.append
    rfl

/-- A call that cannot do what it is asked. -/
def Fails (lineLimit : Nat) (k : Known) (files : Disk) : Tool → Prop
  | .loadFile path => readScript? files lineLimit path = none
  | .indexFolder folder => files.folder? folder = none
  | .listSymbols id | .completionsAt id _ | .documentDiagnostics id => k.text? id = none
  | .configure maxProblems => maxProblems < 0
  | .documentChanged _ _ | .documentDeleted _ | .workspaceSymbols _ => False

theorem isError_elim_iff {text? : Option String} {id : String} {f : String → String}
    (hf : ∀ text, ¬ IsError (f text)) : IsError (text?.elim (unknown id) f) ↔ text? = none := by
  cases text? with
  | none => exact iff_of_true (isError_unknown id) rfl
  | some text => exact iff_of_false (hf text) (by simp)

theorem Refines.isError_iff (h : Refines server k) (files : Disk) (tool : Tool) :
    IsError (server.call files tool).1 ↔ Fails server.lineLimit k files tool := by
  cases tool with
  | listSymbols id =>
      rw [call_listSymbols h]
      exact isError_elim_iff fun text => showOutline_not_isError id _
  | completionsAt id p =>
      rw [call_completionsAt h]
      exact isError_elim_iff fun text => showCompletions_not_isError id p _
  | documentDiagnostics id =>
      rw [call_documentDiagnostics h]
      exact isError_elim_iff fun text => showProblems_not_isError id _
  | workspaceSymbols query => exact iff_of_false (showMatches_not_isError query _) id
  | documentChanged id text =>
      refine iff_of_false (Opens.not_isError (c := 'P') ?_ (by decide)) fun hfails => hfails
      repeat apply Opens.append
      rfl
  | documentDeleted id =>
      refine iff_of_false (Opens.not_isError (c := 'R') ?_ (by decide)) fun hfails => hfails
      repeat apply Opens.append
      rfl
  | loadFile path =>
      rw [call, textOf?, Fails]
      cases readScript? files server.lineLimit path with
      | none => exact iff_of_true (IsError.append ⟨"Cannot read ", rfl⟩ _) rfl
      | some text =>
          refine iff_of_false (Opens.not_isError (c := 'P') ?_ (by decide)) (by simp)
          repeat apply Opens.append
          rfl
  | indexFolder folder =>
      rw [call, index, Fails]
      cases files.folder? folder with
      | none => exact iff_of_true (IsError.append ⟨"Folder not found at ", rfl⟩ _) rfl
      | some inner =>
          refine iff_of_false (Opens.not_isError (c := 'I') ?_ (by decide)) (by simp)
          repeat apply Opens.append
          rfl
  | configure maxProblems =>
      rw [call, Fails]
      split
      · next hneg => exact iff_of_true ⟨"max_number_of_problems must not be negative.", rfl⟩ hneg
      · next hpos =>
          refine iff_of_false (Opens.not_isError (c := 'S') ?_ (by decide)) hpos
          repeat apply Opens.append
          rfl

theorem Refines.unchanged_of_fails (h : Refines server k) {tool : Tool}
    (hfails : Fails server.lineLimit k files tool) : (server.call files tool).2 = server := by
  cases tool with
  | listSymbols id => exact h.query_unchanged trivial
  | completionsAt id p => exact h.query_unchanged trivial
  | documentDiagnostics id => exact h.query_unchanged trivial
  | workspaceSymbols query => cases hfails
  | documentChanged id text => cases hfails
  | documentDeleted id => cases hfails
  | loadFile path =>
      have hunread : server.textOf? files path = none := hfails
      rw [call, hunread]
  | indexFolder folder =>
      have hmissing : files.folder? folder = none := hfails
      rw [call, index, hmissing]
  | configure maxProblems =>
      have hneg : maxProblems < 0 := hfails
      rw [call, if_pos hneg]

theorem elim_eq_unknown_iff {text? : Option String} {id : String} {f : String → String}
    (hf : ∀ text, ¬ IsError (f text)) : text?.elim (unknown id) f = unknown id ↔ text? = none := by
  cases text? with
  | none => exact iff_of_true rfl rfl
  | some text =>
      refine iff_of_false (fun heq : f text = unknown id => hf text ?_) (by simp)
      rw [heq]
      exact isError_unknown id

end Answers

theorem after_concat (lineLimit : Nat) (calls : List Call) (c : Call) :
    after lineLimit (calls ++ [c]) = ((after lineLimit calls).call c.files c.tool).2 := by
  rw [after, List.foldl_append]
  rfl

theorem after_refines (lineLimit : Nat) (calls : List Call) :
    Refines (after lineLimit calls) (known lineLimit calls) ∧ (after lineLimit calls).lineLimit = lineLimit := by
  induction calls using List.reverseRecOn with
  | nil =>
      have hempty : ∀ id, (after lineLimit []).store.documents.get? id = none := fun id =>
        Std.TreeMap.getElem?_emptyc
      refine ⟨⟨rfl, fun id => ?_, fun id => ?_⟩, rfl⟩
      · rw [Store.text?, hempty]
        rfl
      · rw [Store.snapshot?, hempty]
        rfl
  | append_singleton calls c ih =>
      obtain ⟨hrefines, hlimit⟩ := ih
      have hcall := hrefines.step c.files c.tool
      rw [hlimit] at hcall
      rw [after_concat]
      refine ⟨?_, hcall.2⟩
      have hknown : known lineLimit (calls ++ [c]) =
          .of (c.maxProblems?.elim (known lineLimit calls).settings fun n => { maxProblems := n })
            (calls.flatMap (Call.events lineLimit) ++ c.events lineLimit) := by
        unfold known Known.of
        rw [List.flatMap_append, List.flatMap_singleton, List.filterMap_append]
        cases hc : c.maxProblems? <;> simp [hc]
      rw [hknown]
      exact hcall.1

/-- What can be relied on after some calls. -/
structure Faithful (lineLimit : Nat) (calls : List Call) : Prop where
  refines : Refines (after lineLimit calls) (known lineLimit calls)
  /-- The documents without a text are the same for all tools. -/
  listSymbols_unknown : ∀ files id, ((after lineLimit calls).call files (.listSymbols id)).1 = unknown id ↔
    (known lineLimit calls).text? id = none
  completionsAt_unknown : ∀ files id p,
    ((after lineLimit calls).call files (.completionsAt id p)).1 = unknown id ↔
      (known lineLimit calls).text? id = none
  documentDiagnostics_unknown : ∀ files id,
    ((after lineLimit calls).call files (.documentDiagnostics id)).1 = unknown id ↔
      (known lineLimit calls).text? id = none
  /-- Sessions that leave the same behind have the same answers to queries, whatever the files. -/
  answer_eq : ∀ lineLimit' calls', known lineLimit calls = known lineLimit' calls' →
    ∀ files files' tool, tool.IsQuery →
      ((after lineLimit calls).call files tool).1 = ((after lineLimit' calls').call files' tool).1
  isError_iff : ∀ files tool, IsError ((after lineLimit calls).call files tool).1 ↔
    Fails lineLimit (known lineLimit calls) files tool
  unchanged : ∀ files tool, tool.IsQuery ∨ IsError ((after lineLimit calls).call files tool).1 →
    ((after lineLimit calls).call files tool).2 = after lineLimit calls

/-- Whatever is called, and however the files change meanwhile, the server holds what is known from outside. -/
theorem faithful_after (lineLimit : Nat) (calls : List Call) : Faithful lineLimit calls := by
  obtain ⟨hrefines, hlimit⟩ := after_refines lineLimit calls
  constructor
  case refines => exact hrefines
  case listSymbols_unknown =>
    intro files id
    rw [call_listSymbols hrefines]
    exact elim_eq_unknown_iff fun text => showOutline_not_isError id _
  case completionsAt_unknown =>
    intro files id p
    rw [call_completionsAt hrefines]
    exact elim_eq_unknown_iff fun text => showCompletions_not_isError id p _
  case documentDiagnostics_unknown =>
    intro files id
    rw [call_documentDiagnostics hrefines]
    exact elim_eq_unknown_iff fun text => showProblems_not_isError id _
  case answer_eq =>
    intro lineLimit' calls' hknown files files' tool hquery
    have hrefines' := (after_refines lineLimit' calls').1
    rw [← hknown] at hrefines'
    exact hrefines.answer_eq hrefines' hquery
  case isError_iff =>
    intro files tool
    have hiff := hrefines.isError_iff files tool
    rwa [hlimit] at hiff
  case unchanged =>
    intro files tool h
    rcases h with hquery | herror
    · exact hrefines.query_unchanged hquery
    · exact hrefines.unchanged_of_fails ((hrefines.isError_iff files tool).1 herror)

end Server

end VbOutline
