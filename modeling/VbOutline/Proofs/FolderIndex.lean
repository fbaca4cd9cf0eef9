import Mathlib.Data.List.Sort
import Mathlib.Data.String.Basic
import VbOutline.Proofs.FolderPaths
import VbOutline.Proofs.Sessions

/-! Indexing a folder. The scripts of a folder are the files with a script's name that are reached without passing
through a skipped folder. Their list has each of them once and in order, and indexing keeps exactly those that
can be read, as long as no name on the way to a script has a backslash in it (`index_complete_iff_plain`): a
backslash is listed as a slash, and what is then looked for is another file. -/

namespace VbOutline

open Outline

namespace Files

/-! ### Which files are scripts -/

/-- Whether a name ends with the extension of a script, in any letter case, behind something other than
dots. -/
def ScriptName (name : String) : Prop :=
  ∃ stem suffix, name.toList = stem ++ '.' :: suffix ∧ (∃ c ∈ stem, c ≠ '.') ∧
    String.ofList (('.' :: suffix).map Char.toLower) ∈ scriptExtensions

theorem reverse_takeWhile_append {c : Char} {back : List Char} (h : c ∉ back) (front : List Char) :
    ((front ++ back).reverse.takeWhile (· ≠ c)).reverse = (front.reverse.takeWhile (· ≠ c)).reverse ++ back := by
  have hback : ∀ x ∈ back.reverse, decide (x ≠ c) = true := fun x hx =>
    decide_eq_true fun heq => h (heq ▸ List.mem_reverse.1 hx)
  rw [List.reverse_append, List.takeWhile_append_of_pos hback, List.reverse_append, List.reverse_reverse]

/-- A name without a slash is its own last name. -/
theorem lastName_of_unslashed {name : List Char} (h : '/' ∉ name) : lastName name = name :=
  reverse_takeWhile_append h []

theorem extension_of_dotless {name : List Char} (h : '/' ∉ name) (hdot : '.' ∉ name) : extension name = [] := by
  have hsuffix : (name.reverse.takeWhile (· ≠ '.')).reverse = name := reverse_takeWhile_append hdot []
  rw [extension, lastName_of_unslashed h, hsuffix, Nat.sub_self, Nat.zero_sub]
  rfl

/-- The extension starts at the last dot, unless only dots stand before it. -/
theorem extension_of_dot {stem suffix : List Char} (h : '/' ∉ stem ++ '.' :: suffix) (hdot : '.' ∉ suffix) :
    extension (stem ++ '.' :: suffix) = if stem.all (· == '.') then [] else '.' :: suffix := by
  have hsuffix : ((stem ++ '.' :: suffix).reverse.takeWhile (· ≠ '.')).reverse = suffix := by
    have hcut := reverse_takeWhile_append hdot (stem ++ ['.'])
    rw [List.append_assoc, List.singleton_append] at hcut
    rw [hcut]
    simp
  have hstem : (stem ++ '.' :: suffix).length - suffix.length - 1 = stem.length := by
    rw [List.length_append, List.length_cons]
    omega
  rw [extension, lastName_of_unslashed h, hsuffix, hstem, List.take_left]

/-- The test on the name decides what a script is called. -/
theorem isScript_iff {name : String} (h : '/' ∉ name.toList) : isScript name = true ↔ ScriptName name := by
  rw [isScript, List.contains_iff_mem]
  constructor
  · intro hmem
    have hnone : String.ofList (([] : List Char).map Char.toLower) ∉ scriptExtensions := by decide
    by_cases hdot : '.' ∈ name.toList
    · -- the last dot is the first one from behind
      obtain ⟨back, front, hback, hfree⟩ := List.eq_append_cons_of_mem (List.mem_reverse.2 hdot)
      have hname : name.toList = front.reverse ++ '.' :: back.reverse := by
        rw [← List.reverse_reverse name.toList, hback]
        simp
      rw [hname] at h hmem
      rw [extension_of_dot h (by simpa using hfree)] at hmem
      split at hmem
      · exact absurd hmem hnone
      · next hstem => exact ⟨front.reverse, back.reverse, hname, by simpa using hstem, hmem⟩
    · rw [extension_of_dotless h hdot] at hmem
      exact absurd hmem hnone
  · rintro ⟨stem, suffix, hname, ⟨c, hc, hne⟩, hmem⟩
    have hfree : '.' ∉ suffix := by
      have htails : ∀ extension ∈ scriptExtensions, '.' ∉ extension.toList.tail := by decide
      have htail := htails _ hmem
      rw [String.toList_ofList, List.map_cons, List.tail_cons] at htail
      exact fun hdot => htail (List.mem_map.2 ⟨'.', hdot, rfl⟩)
    have hstem : stem.all (· == '.') = false := List.all_eq_false.2 ⟨c, hc, by simpa using hne⟩
    rw [hname] at h ⊢
    rw [extension_of_dot h hfree, hstem]
    exact hmem

/-! ### Where scripts are -/

namespace Folder

/-- Names that lead from a folder to a script, and its content. None of the folders on the way is skipped. -/
inductive ScriptAt : Folder → List String → List UInt8 → Prop
  | here {folder : Folder} {name : String} {content : List UInt8} :
      folder.child? name = some (.file content) → ScriptName name → ScriptAt folder [name] content
  | deeper {folder inner : Folder} {name : String} {place : List String} {content : List UInt8} :
      folder.child? name = some (.folder inner) → name ∉ skippedFolders → ScriptAt inner place content →
        ScriptAt folder (name :: place) content

/-- The names that lead to the scripts, one script after the other. -/
def scriptPlaces : Folder → List (List String)
  | empty => []
  | file name _ others => if isScript name then [name] :: others.scriptPlaces else others.scriptPlaces
  | folder name inner others =>
    if skippedFolders.contains name then others.scriptPlaces
    else inner.scriptPlaces.map (name :: ·) ++ others.scriptPlaces

variable {here inner others : Folder} {name : String} {place : List String} {content : List UInt8}

theorem ScriptAt.ne_nil (h : here.ScriptAt place content) : place ≠ [] := by
  cases h <;> exact List.cons_ne_nil _ _

theorem ScriptAt.exists_cons (h : here.ScriptAt place content) :
    ∃ name rest, place = name :: rest ∧ name ∈ here.names := by
  cases h with
  | here hchild => exact ⟨_, _, rfl, mem_names_of_child? hchild⟩
  | deeper hchild => exact ⟨_, _, rfl, mem_names_of_child? hchild⟩

theorem ScriptAt.proper (h : here.ScriptAt place content) (hp : here.Proper) : ∀ name ∈ place, ProperName name := by
  induction h with
  | here hchild =>
      intro name hmem
      cases List.mem_singleton.1 hmem
      exact (hp.child? hchild).1
  | deeper hchild _ _ ih =>
      obtain ⟨hname, hinner⟩ := hp.child? hchild
      exact List.forall_mem_cons.2 ⟨hname, ih hinner⟩

/-- Following the place of a script leads to it. -/
theorem ScriptAt.follow (h : here.ScriptAt place content) (hp : here.Proper) (outer : List Folder) :
    follow outer here place = some (.file content) := by
  induction h generalizing outer with
  | here hchild =>
      rw [follow_of_proper (hp.child? hchild).1, hchild]
      rfl
  | deeper hchild _ _ ih =>
      obtain ⟨hname, hinner⟩ := hp.child? hchild
      rw [follow_of_proper hname, hchild]
      exact ih hinner _

theorem ne_of_child? {other : String} {entry : Entry} (hfresh : name ∉ others.names)
    (h : others.child? other = some entry) : name ≠ other := by
  rintro rfl
  exact hfresh (mem_names_of_child? h)

/-- A script of a folder is one of another folder that has the same entries and perhaps more. -/
theorem ScriptAt.mono (h : others.ScriptAt place content)
    (hmore : ∀ name entry, others.child? name = some entry → here.child? name = some entry) :
    here.ScriptAt place content := by
  cases h with
  | here hchild hname => exact .here (hmore _ _ hchild) hname
  | deeper hchild hskip hrest => exact .deeper (hmore _ _ hchild) hskip hrest

theorem scriptAt_file (hfresh : name ∉ others.names) {bytes : List UInt8} :
    (file name bytes others).ScriptAt place content ↔
      (ScriptName name ∧ place = [name] ∧ content = bytes) ∨ others.ScriptAt place content := by
  constructor
  · intro h
    cases h with
    | here hchild hname =>
        rw [child?] at hchild
        split at hchild
        · next heq =>
            cases hchild
            exact Or.inl ⟨heq ▸ hname, by rw [heq], rfl⟩
        · exact Or.inr (.here hchild hname)
    | deeper hchild hskip hrest =>
        rw [child?] at hchild
        split at hchild
        · cases hchild
        · exact Or.inr (.deeper hchild hskip hrest)
  · rintro (⟨hname, rfl, rfl⟩ | h)
    · exact .here (if_pos rfl) hname
    · refine h.mono fun other entry hchild => ?_
      rwa [child?, if_neg (ne_of_child? hfresh hchild)]

theorem scriptAt_folder (hfresh : name ∉ others.names) :
    (folder name inner others).ScriptAt place content ↔
      (name ∉ skippedFolders ∧ ∃ rest, place = name :: rest ∧ inner.ScriptAt rest content) ∨
        others.ScriptAt place content := by
  constructor
  · intro h
    cases h with
    | here hchild hname =>
        rw [child?] at hchild
        split at hchild
        · cases hchild
        · exact Or.inr (.here hchild hname)
    | deeper hchild hskip hrest =>
        rw [child?] at hchild
        split at hchild
        · next heq =>
            cases hchild
            exact Or.inl ⟨heq ▸ hskip, _, by rw [heq], hrest⟩
        · exact Or.inr (.deeper hchild hskip hrest)
  · rintro (⟨hskip, rest, rfl, h⟩ | h)
    · exact .deeper (if_pos rfl) hskip h
    · refine h.mono fun other entry hchild => ?_
      rwa [child?, if_neg (ne_of_child? hfresh hchild)]

/-- The listing holds exactly the places of scripts. -/
theorem mem_scriptPlaces (hp : here.Proper) : place ∈ here.scriptPlaces ↔ ∃ content, here.ScriptAt place content := by
  induction here generalizing place with
  | empty =>
      refine iff_of_false List.not_mem_nil ?_
      rintro ⟨content, h⟩
      obtain ⟨name, rest, -, hmem⟩ := h.exists_cons
      cases hmem
  | file name bytes others ih =>
      obtain ⟨hname, hfresh, hothers⟩ := hp
      have hscript := isScript_iff hname.unslashed
      simp only [scriptPlaces, scriptAt_file hfresh, exists_or, ← ih hothers]
      split
      · next h => simp [hscript.1 h]
      · next h => simp [mt hscript.2 h]
  | folder name inner others ihInner ihOthers =>
      obtain ⟨-, hfresh, hinner, hothers⟩ := hp
      simp only [scriptPlaces, scriptAt_folder hfresh, exists_or, ← ihOthers hothers, List.contains_iff_mem]
      split
      · next hskip => simp [hskip]
      · next hskip =>
          simp only [List.mem_append, List.mem_map, ihInner hinner, hskip, not_false_eq_true, true_and]
          refine or_congr_left ⟨?_, ?_⟩
          · rintro ⟨rest, ⟨content, h⟩, rfl⟩
            exact ⟨content, rest, rfl, h⟩
          · rintro ⟨content, rest, rfl, h⟩
            exact ⟨rest, ⟨content, h⟩, rfl⟩

theorem head_mem_of_mem_scriptPlaces (hp : here.Proper) {rest : List String} (h : name :: rest ∈ here.scriptPlaces) :
    name ∈ here.names := by
  obtain ⟨content, h⟩ := (mem_scriptPlaces hp).1 h
  obtain ⟨first, others, heq, hmem⟩ := h.exists_cons
  exact (List.cons.inj heq).1 ▸ hmem

theorem nodup_scriptPlaces (hp : here.Proper) : here.scriptPlaces.Nodup := by
  induction here with
  | empty => exact List.nodup_nil
  | file name bytes others ih =>
      obtain ⟨-, hfresh, hothers⟩ := hp
      rw [scriptPlaces]
      split
      · exact List.nodup_cons.2 ⟨fun h => hfresh (head_mem_of_mem_scriptPlaces hothers h), ih hothers⟩
      · exact ih hothers
  | folder name inner others ihInner ihOthers =>
      obtain ⟨-, hfresh, hinner, hothers⟩ := hp
      rw [scriptPlaces]
      split
      · exact ihOthers hothers
      · refine List.nodup_append.2 ⟨(ihInner hinner).map List.cons_injective, ihOthers hothers, ?_⟩
        rintro place hplace _ hother rfl
        obtain ⟨rest, -, rfl⟩ := List.mem_map.1 hplace
        exact hfresh (head_mem_of_mem_scriptPlaces hothers hother)

/-- A proper folder is listed with one path for each place. -/
theorem scripts_eq (hp : here.Proper) : here.scripts = here.scriptPlaces.map pathOf := by
  induction here with
  | empty => rfl
  | file name bytes others ih =>
      obtain ⟨-, -, hothers⟩ := hp
      rw [scripts, scriptPlaces, ih hothers]
      split
      · rw [List.map_cons, pathOf, String.intercalate_singleton]
      · rfl
  | folder name inner others ihInner ihOthers =>
      obtain ⟨-, -, hinner, hothers⟩ := hp
      rw [scripts, scriptPlaces, ihInner hinner, ihOthers hothers]
      split
      · rfl
      · rw [List.map_append, List.map_map, List.map_map]
        refine congrArg (· ++ _) (List.map_congr_left fun place hplace => ?_)
        obtain ⟨content, h⟩ := (mem_scriptPlaces hinner).1 hplace
        exact (pathOf_cons h.ne_nil).symm

theorem ScriptAt.pathNames_pathOf (h : here.ScriptAt place content) (hp : here.Proper) :
    pathNames (pathOf place) = place :=
  Files.pathNames_pathOf h.ne_nil fun name hname => (h.proper hp name hname).unslashed

end Folder

/-! ### Backslashes -/

theorem slashed_append (front back : String) : slashed (front ++ back) = slashed front ++ slashed back := by
  rw [slashed, String.toList_append, List.map_append, String.ofList_append]
  rfl

theorem slashed_of_not_mem {path : String} (h : '\\' ∉ path.toList) : slashed path = path := by
  have hsame : ∀ c ∈ path.toList, (if c = '\\' then '/' else c) = c := by
    intro c hc
    exact if_neg fun (heq : c = '\\') => h (heq ▸ hc)
  rw [slashed, List.map_congr_left hsame, List.map_id', String.ofList_toList]

/-- A path that was slashed holds no backslash. -/
theorem not_mem_slashed (path : String) : '\\' ∉ (slashed path).toList := by
  rw [slashed, String.toList_ofList, List.mem_map]
  rintro ⟨c, -, hc⟩
  split at hc
  · cases hc
  · contradiction

theorem mem_pathOf {c : Char} (hc : c ≠ '/') (place : List String) :
    c ∈ (pathOf place).toList ↔ ∃ name ∈ place, c ∈ name.toList := by
  induction place with
  | nil => simp [pathOf]
  | cons name place ih =>
      by_cases hplace : place = []
      · subst hplace
        simp [pathOf]
      · have hslash : ("/" : String).toList = ['/'] := rfl
        rw [pathOf_cons hplace, String.toList_append, String.toList_append, hslash]
        simp [ih, hc]

namespace Folder

variable {here : Folder}

/-- Whether no script has a name with a backslash on the way to it. -/
def Plain (here : Folder) : Prop :=
  ∀ place content, here.ScriptAt place content → ∀ name ∈ place, '\\' ∉ name.toList

/-- A folder is plain exactly if no path of its listing holds a backslash. -/
theorem plain_iff (hp : here.Proper) : here.Plain ↔ ∀ path ∈ here.scripts, '\\' ∉ path.toList := by
  rw [scripts_eq hp]
  constructor
  · intro h path hpath
    obtain ⟨place, hplace, rfl⟩ := List.mem_map.1 hpath
    obtain ⟨content, hscript⟩ := (mem_scriptPlaces hp).1 hplace
    rw [mem_pathOf (by decide)]
    rintro ⟨name, hname, hmem⟩
    exact h place content hscript name hname hmem
  · intro h place content hscript name hname hmem
    refine h (pathOf place) (List.mem_map_of_mem ((mem_scriptPlaces hp).2 ⟨content, hscript⟩)) ?_
    exact (mem_pathOf (by decide) place).2 ⟨name, hname, hmem⟩

end Folder

/-! ### The list of scripts -/

/-- The list of the scripts below a folder has one entry for each of them, in order, and each entry is the path of
its file. -/
structure Listed (files : Disk) (path : String) (inner : Folder) (places : List (List String)) : Prop where
  nodup : places.Nodup
  mem_iff : ∀ place, place ∈ places ↔ ∃ content, inner.ScriptAt place content
  entries : scriptsBelow files path = places.map pathOf
  increasing : (scriptsBelow files path).Pairwise (· < ·)
  found : ∀ place content, inner.ScriptAt place content →
    files.file? (joinPath path (pathOf place)) = some content

section

variable {files : Disk} {inner : Folder} {path : String} {places : List (List String)}

theorem Folder.ScriptAt.isAbsolute_eq_false {place : List String} {content : List UInt8}
    (h : inner.ScriptAt place content) (hp : inner.Proper) : isAbsolute (pathOf place) = false := by
  obtain ⟨name, rest, rfl, -⟩ := h.exists_cons
  have hname := h.proper hp name List.mem_cons_self
  by_cases hrest : rest = []
  · subst hrest
    rw [pathOf, String.intercalate_singleton]
    exact hname.isAbsolute_eq_false
  · rw [pathOf_cons hrest, String.append_assoc, isAbsolute_append hname.ne_blank]
    exact hname.isAbsolute_eq_false

/-- The path of a script below a folder, joined to the folder's path, is that of its file. -/
theorem Folder.ScriptAt.file?_joinPath {place : List String} {content : List UInt8} (hs : inner.ScriptAt place content)
    (hp : files.root.Proper) (h : files.folder? path = some inner) :
    files.file? (joinPath path (pathOf place)) = some content := by
  have hinner := Disk.proper_of_folder? hp h
  obtain ⟨base, outer, hjoin⟩ := Disk.exists_lookup?_joinPath h
  rw [Disk.file?_eq_some, (hjoin _ (hs.isAbsolute_eq_false hinner)).2, hs.pathNames_pathOf hinner]
  exact hs.follow hinner outer

theorem not_mem_of_mem_scriptsBelow {file : String} (h : file ∈ scriptsBelow files path) : '\\' ∉ file.toList := by
  rw [scriptsBelow] at h
  split at h
  · obtain ⟨script, -, rfl⟩ := List.mem_map.1 (List.mem_mergeSort.1 h)
    exact not_mem_slashed script
  · cases h

theorem Folder.nodup_pathOf (hp : inner.Proper) : (inner.scriptPlaces.map pathOf).Nodup := by
  refine (nodup_scriptPlaces hp).map_on fun a ha b hb heq => ?_
  obtain ⟨_, ha⟩ := (mem_scriptPlaces hp).1 ha
  obtain ⟨_, hb⟩ := (mem_scriptPlaces hp).1 hb
  rw [← ha.pathNames_pathOf hp, heq, hb.pathNames_pathOf hp]

theorem Folder.Plain.map_slashed (hplain : inner.Plain) (hp : inner.Proper) :
    inner.scripts.map slashed = inner.scriptPlaces.map pathOf := by
  have hsame : ∀ file ∈ inner.scripts, slashed file = file := fun file hfile =>
    slashed_of_not_mem ((plain_iff hp).1 hplain file hfile)
  rw [List.map_congr_left hsame, List.map_id', scripts_eq hp]

/-- A plain folder is listed. -/
theorem exists_listed (hp : files.root.Proper) (h : files.folder? path = some inner) (hplain : inner.Plain) :
    ∃ places, Listed files path inner places := by
  have hinner := Disk.proper_of_folder? hp h
  have hsorted : scriptsBelow files path = (inner.scriptPlaces.map pathOf).mergeSort fun a b => a ≤ b := by
    rw [scriptsBelow, h, ← hplain.map_slashed hinner]
  refine ⟨inner.scriptPlaces.mergeSort fun a b => pathOf a ≤ pathOf b, ?_⟩
  constructor
  case nodup => exact (List.mergeSort_perm _ _).nodup_iff.2 (Folder.nodup_scriptPlaces hinner)
  case mem_iff =>
    intro place
    rw [List.mem_mergeSort, Folder.mem_scriptPlaces hinner]
  case entries =>
    rw [hsorted]
    exact (List.map_mergeSort (f := pathOf) fun a _ b _ => rfl).symm
  case increasing =>
    have hle := List.pairwise_mergeSort' (· ≤ ·) (inner.scriptPlaces.map pathOf)
    have hne := (List.mergeSort_perm (inner.scriptPlaces.map pathOf) fun a b => a ≤ b).nodup_iff.2
      (Folder.nodup_pathOf hinner)
    rw [hsorted]
    exact (hle.and hne).imp fun hboth => lt_of_le_of_ne hboth.1 hboth.2
  case found => exact fun place content hscript => hscript.file?_joinPath hp h

theorem Listed.plain (hl : Listed files path inner places) : inner.Plain := by
  intro place content hscript name hname hmem
  have hentry : pathOf place ∈ scriptsBelow files path := by
    rw [hl.entries]
    exact List.mem_map_of_mem ((hl.mem_iff place).2 ⟨content, hscript⟩)
  exact not_mem_of_mem_scriptsBelow hentry ((mem_pathOf (by decide) place).2 ⟨name, hname, hmem⟩)

end

end Files

/-! ### Taking over one file after the other -/

namespace Server

open Files

variable {files : Disk} {folder : String} (state : Nat × Server)

theorem loadOne_fst (file : String) :
    (loadOne files folder state file).1 =
      state.1 + if (state.2.textOf? files (joinPath folder file)).isSome then 1 else 0 := by
  dsimp only [loadOne]
  cases state.2.textOf? files (joinPath folder file) <;> rfl

theorem textOf?_loadOne (file : String) : (loadOne files folder state file).2.textOf? = state.2.textOf? := by
  funext others path
  rw [textOf?, textOf?]
  exact congrArg (readScript? others · path) (lineLimit_loadOne files folder state.1 state.2 file)

theorem settings_loadOne (file : String) :
    (loadOne files folder state file).2.store.settings = state.2.store.settings := by
  refine (congrArg (·.store.settings) (loadOne_snd folder state.1 state.2 file)).trans ?_
  cases state.2.textOf? files (joinPath folder file) with
  | none => rfl
  | some text => exact Store.settings_update ..

/-- Loading one file touches no document but its own. -/
theorem get?_loadOne (file id : String) :
    (loadOne files folder state file).2.store.documents.get? id =
      if slashed (joinPath folder file) = id ∧ (state.2.textOf? files (joinPath folder file)).isSome then
        (state.2.textOf? files (joinPath folder file)).map fun text => ⟨text, some (parse state.2.store.settings text)⟩
      else state.2.store.documents.get? id := by
  refine (congrArg (·.store.documents.get? id) (loadOne_snd folder state.1 state.2 file)).trans ?_
  cases state.2.textOf? files (joinPath folder file) with
  | none => simp
  | some text =>
      have hupdate := state.2.store.get?_update (slashed (joinPath folder file)) (some text) id
      simpa [Store.put] using hupdate

/-- As many files are counted as can be read. -/
theorem foldl_loadOne_fst (found : List String) :
    (found.foldl (loadOne files folder) state).1 =
      state.1 + found.countP fun file => (state.2.textOf? files (joinPath folder file)).isSome := by
  induction found generalizing state with
  | nil => rfl
  | cons file found ih =>
      rw [List.foldl_cons, ih, loadOne_fst, textOf?_loadOne, List.countP_cons]
      omega

variable {state}

/-- A document stays as it is unless it is one of the files that can be read. -/
theorem get?_foldl_loadOne_of_ne {found : List String} {id : String}
    (h : ∀ file ∈ found, (state.2.textOf? files (joinPath folder file)).isSome → slashed (joinPath folder file) ≠ id) :
    (found.foldl (loadOne files folder) state).2.store.documents.get? id = state.2.store.documents.get? id := by
  induction found generalizing state with
  | nil => rfl
  | cons file found ih =>
      obtain ⟨hfile, hfound⟩ := List.forall_mem_cons.1 h
      rw [List.foldl_cons, ih (by rwa [textOf?_loadOne]), get?_loadOne, if_neg fun hboth => hfile hboth.2 hboth.1]

/-- Of files with different names for their documents, each one that can be read is kept under its name. -/
theorem get?_foldl_loadOne {found : List String} {file text : String}
    (hids : (found.map fun file => slashed (joinPath folder file)).Nodup) (hfile : file ∈ found)
    (htext : state.2.textOf? files (joinPath folder file) = some text) :
    (found.foldl (loadOne files folder) state).2.store.documents.get? (slashed (joinPath folder file)) =
      some ⟨text, some (parse state.2.store.settings text)⟩ := by
  induction found generalizing state with
  | nil => cases hfile
  | cons first found ih =>
      obtain ⟨hfirst, hrest⟩ := List.nodup_cons.1 hids
      rw [List.foldl_cons]
      rcases List.mem_cons.1 hfile with rfl | hmem
      · -- no later file has the same name for its document
        have hlater : ∀ other ∈ found, slashed (joinPath folder other) ≠ slashed (joinPath folder file) :=
          fun other hother heq => hfirst (List.mem_map.2 ⟨other, hother, heq⟩)
        rw [get?_foldl_loadOne_of_ne fun other hother _ => hlater other hother, get?_loadOne, htext]
        exact if_pos ⟨rfl, rfl⟩
      · rw [ih hrest hmem (by rwa [textOf?_loadOne]), settings_loadOne]

/-! ### The index -/

/-- What is left behind and answered when the scripts below a folder, at the given places, are taken over. -/
structure Indexed (files : Disk) (path : String) (server : Server) (places : List (List String)) : Prop where
  /-- Each script that can be read is a document under its path. -/
  stored : ∀ place ∈ places, ∀ text, server.textOf? files (joinPath path (pathOf place)) = some text →
    (server.index files path).2.store.documents.get? (slashed (joinPath path (pathOf place))) =
      some ⟨text, some (parse server.store.settings text)⟩
  /-- These scripts are counted. -/
  answer :
    let loaded := places.filter fun place => (server.textOf? files (joinPath path (pathOf place))).isSome
    let store := (server.index files path).2.store
    (server.index files path).1 =
      s!"Indexed {loaded.length} of {places.length} script files under `{path}`.\n" ++
        s!"{store.symbolCount} symbols across {store.ids.length} documents."
  /-- No other document is known, forgotten or read anew. -/
  untouched : ∀ id, (∀ place ∈ places, (server.textOf? files (joinPath path (pathOf place))).isSome →
      slashed (joinPath path (pathOf place)) ≠ id) →
    (server.index files path).2.store.documents.get? id = server.store.documents.get? id

variable {inner : Folder} {path : String} {places : List (List String)}

theorem index_eq (server : Server) (h : files.folder? path = some inner) :
    let after := (scriptsBelow files path).foldl (loadOne files path) (0, server)
    server.index files path =
      (s!"Indexed {after.1} of {(scriptsBelow files path).length} script files under `{path}`.\n" ++
        s!"{after.2.store.symbolCount} symbols across {after.2.store.ids.length} documents.", after.2) := by
  rw [index, h]

/-- Different scripts are different documents. -/
theorem nodup_ids (hp : files.root.Proper) (h : files.folder? path = some inner) (hl : Listed files path inner places) :
    ((scriptsBelow files path).map fun file => slashed (joinPath path file)).Nodup := by
  obtain ⟨base, outer, hjoin⟩ := Disk.exists_lookup?_joinPath h
  have hid : ∀ file ∈ scriptsBelow files path, slashed (joinPath path file) = slashed (base ++ "/") ++ file := by
    intro file hfile
    have hslashed := slashed_of_not_mem (not_mem_of_mem_scriptsBelow hfile)
    rw [hl.entries] at hfile
    obtain ⟨place, hplace, rfl⟩ := List.mem_map.1 hfile
    obtain ⟨content, hscript⟩ := (hl.mem_iff place).1 hplace
    rw [(hjoin _ (hscript.isAbsolute_eq_false (Disk.proper_of_folder? hp h))).1, slashed_append, hslashed]
  have hnodup : (scriptsBelow files path).Nodup := hl.increasing.imp ne_of_lt
  refine hnodup.map_on fun file hfile other hother heq => ?_
  rwa [hid file hfile, hid other hother, String.append_right_inj] at heq

theorem Indexed.of_listed (hp : files.root.Proper) (h : files.folder? path = some inner)
    (hl : Listed files path inner places) (server : Server) : Indexed files path server places := by
  have hids := nodup_ids hp h hl
  have hindex := index_eq server h
  rw [hl.entries] at hids hindex
  constructor
  case stored =>
    intro place hplace text htext
    rw [hindex]
    exact get?_foldl_loadOne hids (List.mem_map_of_mem hplace) htext
  case answer =>
    have hcount : ((places.map pathOf).foldl (loadOne files path) (0, server)).1 = _ := foldl_loadOne_fst _ _
    rw [Nat.zero_add, List.countP_map, List.countP_eq_length_filter] at hcount
    rw [hindex, hcount, List.length_map]
    rfl
  case untouched =>
    intro id hid
    rw [hindex]
    refine get?_foldl_loadOne_of_ne fun file hfile hsome => ?_
    obtain ⟨place, hplace, rfl⟩ := List.mem_map.1 hfile
    exact hid place hplace hsome

/-- Indexing a folder misses no script and touches nothing else exactly if no script below it has a backslash in a
name: with one, it is looked for where there is a slash. -/
theorem index_complete_iff_plain (files : Disk) (hp : files.root.Proper) (path : String) (inner : Folder)
    (h : files.folder? path = some inner) :
    (∃ places, Listed files path inner places ∧ ∀ server, Indexed files path server places) ↔ inner.Plain := by
  constructor
  · rintro ⟨places, hl, -⟩
    exact hl.plain
  · intro hplain
    obtain ⟨places, hl⟩ := exists_listed hp h hplain
    exact ⟨places, hl, Indexed.of_listed hp h hl⟩

/-- Two scripts, of which one is binary, next to a script in a skipped folder, a folder with the name of a script
and a file with dots only in front of its extension. -/
def sourceTree : Folder :=
  Folder.empty.write "src/a.vbs" [68, 105, 109, 32, 97]
    |>.write "src/Lib.d/B.VBS" [0]
    |>.write "src/build/c.vbs" [39]
    |>.makeFolder "src/d.vbs"
    |>.write "src/..vbs" [39]
    |>.write "src/e.bas" [39]
    |>.remove "src/e.bas"

/-- These scripts, seen from one of their folders. -/
def sources : Disk where
  root := sourceTree
  current := ["src", "Lib.d"]

theorem index_complete_iff_plain_sources :
    sources.root.Proper ∧ ∀ path ∈ ["/src", "../", "../../../src/."],
      ∃ inner, sources.folder? path = some inner ∧ inner.scripts = ["Lib.d/B.VBS", "a.vbs"] ∧ inner.Plain ∧
        ∃ places, Listed sources path inner places ∧ ∀ server, Indexed sources path server places := by
  have hempty : Folder.empty.Proper := trivial
  have hproper : sourceTree.Proper :=
    ((((((hempty.write _ _).write _ _).write _ _).makeFolder _).write _ _).write _ _).remove _
  refine ⟨hproper, fun path hpath => ?_⟩
  have hscripts : (sources.folder? path).map Folder.scripts = some ["Lib.d/B.VBS", "a.vbs"] := by
    revert path
    decide +kernel
  obtain ⟨inner, h, hscripts⟩ := Option.map_eq_some_iff.1 hscripts
  have hplain : inner.Plain := by
    rw [Folder.plain_iff (Disk.proper_of_folder? hproper h), hscripts]
    decide
  exact ⟨inner, h, hscripts, hplain, (index_complete_iff_plain sources hproper path inner h).2 hplain⟩

/-- A script with a backslash in its name can be read but is not indexed. -/
theorem backslash_missed :
    let files : Disk := { root := Folder.empty.write "d/a\\b.vbs" [68, 105, 109, 32, 120] }
    readScript? files 1 "d/a\\b.vbs" = some "Dim x" ∧ scriptsBelow files "d" = ["a/b.vbs"] ∧
      files.file? "d/a/b.vbs" = none ∧
      (({} : Server).index files "d").1 =
        "Indexed 0 of 1 script files under `d`.\n0 symbols across 0 documents." := by
  decide +kernel

end Server

end VbOutline
