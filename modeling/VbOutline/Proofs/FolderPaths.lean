import Mathlib.Data.List.Basic
import VbOutline.Files.Folder
import VbOutline.Proofs.Lexemes

/-! Paths and the entries they lead to. A path is cut at its slashes, so names that are put together with
slashes are found again (`pathNames_pathOf`). In a folder whose names are proper and distinct, which every
change keeps, a path below the folder at another path, absolute or not, leads where it leads from that folder
(`exists_lookup?_joinPath`). -/

namespace VbOutline.Files

open Text

/-! ### Names -/

/-- The path with the given names. -/
def pathOf (place : List String) : String := "/".intercalate place

theorem texts_piecesFrom (start : Nat) (text : List Char) :
    (Lexeme.piecesFrom (· == '/') start text).map Lexeme.text = text.splitOn '/' := by
  induction text generalizing start with
  | nil => rfl
  | cons c rest ih =>
      rw [List.splitOn_cons_eq_if_modifyHead, ← ih (start + 1)]
      split
      · next hc => rw [@Lexeme.piecesFrom_cons_of_sep (· == '/') c hc start rest, List.map_cons]
      · next hc =>
          obtain ⟨piece, pieces, hrest, hcons⟩ :=
            @Lexeme.piecesFrom_cons_of_not (· == '/') c (Bool.not_eq_true _ ▸ hc) start rest
          rw [hcons, hrest]
          rfl

/-- The names of a path are cut at its slashes. -/
theorem pathNames_eq (path : String) : pathNames path = (path.toList.splitOn '/').map String.ofList := by
  rw [pathNames, Lexeme.pieces, ← texts_piecesFrom 0, List.map_map]
  rfl

/-- A slash between two paths joins their names. -/
theorem pathNames_slash (front back : String) :
    pathNames (front ++ "/" ++ back) = pathNames front ++ pathNames back := by
  rw [pathNames_eq, pathNames_eq, pathNames_eq, ← List.map_append, ← List.splitOn_append_cons_self, String.toList_append,
    String.toList_append, List.append_assoc]
  rfl

/-- A place is read back from its path. -/
theorem pathNames_pathOf {place : List String} (hne : place ≠ []) (h : ∀ name ∈ place, '/' ∉ name.toList) :
    pathNames (pathOf place) = place := by
  have hslash : ("/" : String).toList = ['/'] := rfl
  rw [pathNames_eq, pathOf, String.toList_intercalate, hslash, List.splitOn_intercalate, List.map_map]
  · exact (List.map_congr_left fun name _ => String.ofList_toList).trans (List.map_id place)
  · intro chars hchars
    obtain ⟨name, hname, rfl⟩ := List.mem_map.1 hchars
    exact h name hname
  · simpa using hne

theorem unslashed_of_mem_pathNames {path name : String} (h : name ∈ pathNames path) : '/' ∉ name.toList := by
  obtain ⟨piece, hpiece, rfl⟩ := List.mem_map.1 h
  intro hc
  rw [Lexeme.spelling, String.toList_ofList] at hc
  exact absurd ((Lexeme.mem_piecesFrom hpiece).2 '/' hc) (by decide)

theorem pathOf_cons {name : String} {place : List String} (h : place ≠ []) :
    pathOf (name :: place) = name ++ "/" ++ pathOf place := by
  obtain ⟨next, place, rfl⟩ := List.exists_cons_of_ne_nil h
  exact String.intercalate_cons_cons

/-- A name that something can have in a folder. -/
structure ProperName (name : String) : Prop where
  ne_blank : name ≠ ""
  ne_dot : name ≠ "."
  ne_dots : name ≠ ".."
  unslashed : '/' ∉ name.toList

/-! ### Proper folders -/

namespace Folder

/-- The names of the entries. -/
def names : Folder → List String
  | empty => []
  | file name _ others => name :: others.names
  | folder name _ others => name :: others.names

/-- Whether all names are proper and different from each other, here and in the folders below. -/
def Proper : Folder → Prop
  | empty => True
  | file name _ others => ProperName name ∧ name ∉ others.names ∧ others.Proper
  | folder name inner others => ProperName name ∧ name ∉ others.names ∧ inner.Proper ∧ others.Proper

end Folder

/-- Whether an entry is a file or a proper folder. -/
def Entry.Proper : Entry → Prop
  | .file _ => True
  | .folder inner => inner.Proper

namespace Folder

variable {here inner : Folder} {name : String} {entry : Entry} {place : List String}

theorem mem_names_of_child? (h : here.child? name = some entry) : name ∈ here.names := by
  fun_induction child? name here with
  | case1 => cases h
  | case2 | case4 => exact List.mem_cons_self
  | case3 _ _ _ _ ih | case5 _ _ _ _ ih => exact List.mem_cons_of_mem _ (ih h)

/-- What stands in a proper folder has a proper name and is proper. -/
theorem Proper.child? (hp : here.Proper) (h : here.child? name = some entry) : ProperName name ∧ entry.Proper := by
  fun_induction Folder.child? name here with
  | case1 => cases h
  | case2 content others =>
      obtain ⟨hname, -, -⟩ := hp
      cases h
      exact ⟨hname, trivial⟩
  | case3 other content others hne ih =>
      obtain ⟨-, -, hothers⟩ := hp
      exact ih hothers h
  | case4 inner others =>
      obtain ⟨hname, -, hinner, -⟩ := hp
      cases h
      exact ⟨hname, hinner⟩
  | case5 other inner others hne ih =>
      obtain ⟨-, -, -, hothers⟩ := hp
      exact ih hothers h

theorem mem_names_erase {other : String} : other ∈ (here.erase name).names ↔ other ∈ here.names ∧ other ≠ name := by
  fun_induction erase name here with
  | case1 => simp [names]
  | case2 content others ih | case4 inner others ih =>
      rw [ih, names, List.mem_cons]
      grind
  | case3 first content others hne ih | case5 first inner others hne ih =>
      rw [names, names, List.mem_cons, List.mem_cons, ih]
      grind

theorem Proper.erase (hp : here.Proper) (name : String) : (here.erase name).Proper := by
  fun_induction Folder.erase name here with
  | case1 => exact hp
  | case2 content others ih =>
      obtain ⟨-, -, hothers⟩ := hp
      exact ih hothers
  | case3 other content others hne ih =>
      obtain ⟨hother, hfresh, hothers⟩ := hp
      exact ⟨hother, fun h => hfresh (mem_names_erase.1 h).1, ih hothers⟩
  | case4 inner others ih =>
      obtain ⟨-, -, -, hothers⟩ := hp
      exact ih hothers
  | case5 other inner others hne ih =>
      obtain ⟨hother, hfresh, hinner, hothers⟩ := hp
      exact ⟨hother, fun h => hfresh (mem_names_erase.1 h).1, hinner, ih hothers⟩

/-- A proper entry under a proper name keeps a folder proper. -/
theorem Proper.insert (hp : here.Proper) (hname : ProperName name) (hentry : entry.Proper) :
    (here.insert name entry).Proper := by
  have hfresh : name ∉ (here.erase name).names := fun h => (mem_names_erase.1 h).2 rfl
  cases entry with
  | file content => exact ⟨hname, hfresh, hp.erase name⟩
  | folder inner => exact ⟨hname, hfresh, hentry, hp.erase name⟩

theorem Proper.insertAt (hp : here.Proper) (hplace : ∀ name ∈ place, ProperName name) (hentry : entry.Proper) :
    (here.insertAt entry place).Proper := by
  fun_induction Folder.insertAt entry place here with
  | case1 here => exact hp
  | case2 name here => exact hp.insert (hplace name List.mem_cons_self) hentry
  | case3 => exact hp
  | case4 name names here _ inner hchild ih =>
      have hinner := ih (hp.child? hchild).2 fun name h => hplace name (List.mem_cons_of_mem _ h)
      exact hp.insert (hplace name List.mem_cons_self) hinner
  | case5 name names here _ hchild ih =>
      have hinner := ih trivial fun name h => hplace name (List.mem_cons_of_mem _ h)
      exact hp.insert (hplace name List.mem_cons_self) hinner

/-- Nothing is made improper by taking entries away. -/
theorem Proper.eraseAt (hp : here.Proper) (place : List String) : (here.eraseAt place).Proper := by
  fun_induction Folder.eraseAt place here with
  | case1 | case4 => exact hp
  | case2 name here => exact hp.erase name
  | case3 name names here _ inner hchild ih =>
      obtain ⟨hname, hinner⟩ := hp.child? hchild
      exact hp.insert hname (ih hinner)

theorem Proper.ensure (hp : here.Proper) (hplace : ∀ name ∈ place, ProperName name) : (here.ensure place).Proper := by
  rw [Folder.ensure]
  split
  · exact hp
  · exact hp.insertAt hplace trivial

theorem Proper.putFile (hp : here.Proper) (content : List UInt8) (hplace : ∀ name ∈ place, ProperName name) :
    (here.putFile content place).Proper := by
  rw [Folder.putFile]
  split
  · exact hp
  · exact hp.insertAt hplace trivial

theorem Proper.foldl_ensure {places : List (List String)} (hp : here.Proper)
    (hplaces : ∀ place ∈ places, ∀ name ∈ place, ProperName name) : (places.foldl Folder.ensure here).Proper := by
  induction places generalizing here with
  | nil => exact hp
  | cons place places ih =>
      obtain ⟨hplace, hplaces⟩ := List.forall_mem_cons.1 hplaces
      exact ih (hp.ensure hplace) hplaces

end Folder

/-- Going on by one name leads from a proper place to a proper place. -/
theorem proper_of_goFrom {place : List String} {name : String} (hplace : ∀ name ∈ place, ProperName name)
    (hname : '/' ∉ name.toList) : ∀ other ∈ goFrom place name, ProperName other := by
  rw [goFrom]
  split
  · exact hplace
  · next hstay =>
      obtain ⟨hblank, hdot⟩ := not_or.1 hstay
      split
      · exact fun other hmem => hplace other (List.dropLast_subset place hmem)
      · next hdots =>
          intro other hmem
          rcases List.mem_append.1 hmem with hmem | hmem
          · exact hplace other hmem
          · cases List.mem_singleton.1 hmem
            exact ⟨hblank, hdot, hdots, hname⟩

theorem proper_of_placesFrom {start names : List String} (hstart : ∀ name ∈ start, ProperName name)
    (hnames : ∀ name ∈ names, '/' ∉ name.toList) :
    ∀ place ∈ placesFrom start names, ∀ name ∈ place, ProperName name := by
  induction names generalizing start with
  | nil =>
      intro place hmem
      cases hmem
  | cons name names ih =>
      obtain ⟨hname, hnames⟩ := List.forall_mem_cons.1 hnames
      have hproper := proper_of_goFrom hstart hname
      exact List.forall_mem_cons.2 ⟨hproper, ih hproper hnames⟩

/-- The places that a path leads through have proper names. -/
theorem proper_of_mem_places (path : String) : ∀ place ∈ places path, ∀ name ∈ place, ProperName name := by
  rw [places]
  split
  · intro place hmem
    cases hmem
  · exact proper_of_placesFrom (by simp) fun _ => unslashed_of_mem_pathNames

namespace Folder

variable {here inner : Folder}

/-- Writing a file keeps a folder proper, whatever the path. -/
theorem Proper.write (hp : here.Proper) (path : String) (content : List UInt8) : (here.write path content).Proper := by
  have hplaces := proper_of_mem_places path
  rw [Folder.write]
  split
  · next place hlast =>
      have hfolders := hp.foldl_ensure fun place h => hplaces place (List.dropLast_subset _ h)
      exact hfolders.putFile content (hplaces place (List.mem_of_getLast? hlast))
  · exact hp

theorem Proper.makeFolder (hp : here.Proper) (path : String) : (here.makeFolder path).Proper :=
  hp.foldl_ensure (proper_of_mem_places path)

theorem Proper.remove (hp : here.Proper) (path : String) : (here.remove path).Proper := by
  rw [Folder.remove]
  split
  · exact hp.eraseAt _
  · exact hp

/-! ### Following names -/

variable {enclosing : List Folder} {name : String}

theorem follow_of_stays (h : name = "" ∨ name = ".") (names : List String) :
    follow enclosing here (name :: names) = follow enclosing here names := by
  rw [follow.eq_def]
  exact if_pos h

theorem follow_of_enters (hstay : ¬ (name = "" ∨ name = ".")) (hdots : name ≠ "..") (names : List String) :
    follow enclosing here (name :: names) = match here.child? name with
      | none => none
      | some (.folder inner) => follow (here :: enclosing) inner names
      | some (.file content) => if names.isEmpty then some (.file content) else none := by
  rw [follow.eq_def]
  exact (if_neg hstay).trans (if_neg hdots)

/-- At the top, going up stays. -/
theorem follow_of_top (names : List String) : follow [] here (".." :: names) = follow [] here names := by
  rw [follow.eq_def]
  rfl

/-- A proper name goes into the entry of that name. -/
theorem follow_of_proper (h : ProperName name) (names : List String) :
    follow enclosing here (name :: names) = match here.child? name with
      | none => none
      | some (.folder inner) => follow (here :: enclosing) inner names
      | some (.file content) => if names.isEmpty then some (.file content) else none :=
  follow_of_enters (not_or.2 ⟨h.ne_blank, h.ne_dot⟩) h.ne_dots names

/-- Every folder that is reached is proper. -/
theorem Proper.follow {names : List String} (hp : here.Proper) (henclosing : ∀ outer ∈ enclosing, outer.Proper)
    (h : follow enclosing here names = some (.folder inner)) : inner.Proper := by
  fun_induction Folder.follow enclosing here names with
  | case1 => exact (Entry.folder.inj (Option.some.inj h)) ▸ hp
  | case2 _ _ _ _ _ ih => exact ih hp henclosing h
  | case3 _ _ _ ih => exact ih hp henclosing h
  | case5 | case7 | case8 => cases h
  | case4 here names outer others _ ih =>
      obtain ⟨houter, hothers⟩ := List.forall_mem_cons.1 henclosing
      exact ih houter hothers h
  | case6 enclosing here name names hstay hdots below hchild ih =>
      exact ih (hp.child? hchild).2 (List.forall_mem_cons.2 ⟨hp, henclosing⟩) h

/-- Once names have led to a folder, the names behind them lead on from there. -/
theorem exists_follow_append {front : List String} (h : follow enclosing here front = some (.folder inner)) :
    ∃ outer, ∀ back, follow enclosing here (front ++ back) = follow outer inner back := by
  fun_induction Folder.follow enclosing here front with
  | case1 enclosing here =>
      cases h
      exact ⟨enclosing, fun back => rfl⟩
  | case2 enclosing here name names hstay ih =>
      obtain ⟨outer, ih⟩ := ih h
      exact ⟨outer, fun back => (follow_of_stays hstay _).trans (ih back)⟩
  | case3 here names _ ih =>
      obtain ⟨outer, ih⟩ := ih h
      exact ⟨outer, fun back => (follow_of_top _).trans (ih back)⟩
  | case4 here names outer others _ ih => exact ih h
  | case5 | case7 | case8 => cases h
  | case6 enclosing here name names hstay hdots below hchild ih =>
      obtain ⟨outer, ih⟩ := ih h
      refine ⟨outer, fun back => ?_⟩
      rw [List.cons_append, follow_of_enters hstay hdots, hchild]
      exact ih back

/-- A blank name with others behind it is passed over. -/
theorem follow_append_blank {back : List String} (hback : back ≠ []) (front : List String) :
    follow enclosing here (front ++ "" :: back) = follow enclosing here (front ++ back) := by
  fun_induction Folder.follow enclosing here front with
  | case1 => exact follow_of_stays (Or.inl rfl) back
  | case2 enclosing here name names hstay ih =>
      rw [List.cons_append, List.cons_append, follow_of_stays hstay, follow_of_stays hstay, ih]
  | case3 here names _ ih => rw [List.cons_append, List.cons_append, follow_of_top, follow_of_top, ih]
  | case4 here names outer others _ ih => exact ih
  | case5 enclosing here name names hstay hdots hchild =>
      rw [List.cons_append, List.cons_append, follow_of_enters hstay hdots, follow_of_enters hstay hdots, hchild]
  | case6 enclosing here name names hstay hdots below hchild ih =>
      rw [List.cons_append, List.cons_append, follow_of_enters hstay hdots, follow_of_enters hstay hdots, hchild]
      exact ih
  | case7 enclosing here name names hstay hdots content hchild | case8 enclosing here name names hstay hdots content hchild =>
      rw [List.cons_append, List.cons_append, follow_of_enters hstay hdots, follow_of_enters hstay hdots, hchild]
      simp [hback]

end Folder

/-! ### Paths below a folder -/

theorem isAbsolute_append {front : String} (h : front ≠ "") (back : String) :
    isAbsolute (front ++ back) = isAbsolute front := by
  obtain ⟨c, rest, hfront⟩ := List.exists_cons_of_ne_nil (mt String.toList_eq_nil_iff.1 h)
  rw [isAbsolute, isAbsolute, String.toList_append, hfront]
  rfl

theorem ProperName.isAbsolute_eq_false {name : String} (h : ProperName name) : isAbsolute name = false := by
  rw [isAbsolute, beq_eq_false_iff_ne]
  exact fun hhead => h.unslashed (List.mem_of_head? hhead)

/-- A path that ends in a slash is another one followed by it. -/
theorem exists_eq_slash {path : String} (h : path ≠ "") (hlast : path.toList.getLast?.all (· == '/') = true) :
    ∃ base, path = base ++ "/" := by
  rcases List.eq_nil_or_concat path.toList with hnil | ⟨front, last, hpath⟩
  · exact absurd (String.toList_eq_nil_iff.1 hnil) h
  · rw [List.concat_eq_append] at hpath
    rw [hpath, List.getLast?_concat, Option.all_some, beq_iff_eq] at hlast
    refine ⟨String.ofList front, ?_⟩
    rw [← String.toList_inj, hpath, hlast, String.toList_append, String.toList_ofList]
    rfl

/-- The paths below a folder start with its path, less a slash at the end. -/
theorem exists_base {path : String} (h : path ≠ "") :
    ∃ base, (pathNames path = pathNames base ∨ pathNames path = pathNames base ++ [""]) ∧
      ∀ file, isAbsolute file = false → joinPath path file = base ++ "/" ++ file := by
  by_cases hlast : path.toList.getLast?.all (· == '/') = true
  · obtain ⟨base, rfl⟩ := exists_eq_slash h hlast
    refine ⟨base, Or.inr ?_, fun file hfile => ?_⟩
    · have hslash := pathNames_slash base ""
      rwa [String.append_empty] at hslash
    · rw [joinPath, hfile, if_neg Bool.false_ne_true, if_pos hlast]
  · refine ⟨path, Or.inl rfl, fun file hfile => ?_⟩
    rw [joinPath, hfile, if_neg Bool.false_ne_true, if_neg hlast]

theorem isAbsolute_joinPath {path file : String} (h : path ≠ "") (hfile : isAbsolute file = false) :
    isAbsolute (joinPath path file) = isAbsolute path := by
  rw [joinPath, hfile, if_neg Bool.false_ne_true]
  split
  · exact isAbsolute_append h file
  · rw [String.append_assoc]
    exact isAbsolute_append h _

theorem pathNames_ne_nil (path : String) : pathNames path ≠ [] := by
  rw [pathNames, Lexeme.pieces]
  exact fun h => Lexeme.piecesFrom_ne_nil _ _ _ (List.map_eq_nil_iff.1 h)

namespace Disk

variable {files : Disk} {inner : Folder} {path : String}

theorem folder?_eq_some : files.folder? path = some inner ↔ files.lookup? path = some (.folder inner) := by
  rw [folder?]
  split
  · next found h => simp [h]
  · next h =>
      refine iff_of_false (by simp) fun hfound => ?_
      exact h inner hfound

theorem file?_eq_some {content : List UInt8} :
    files.file? path = some content ↔ files.lookup? path = some (.file content) := by
  rw [file?]
  split
  · next found h => simp [h]
  · next h =>
      refine iff_of_false (by simp) fun hfound => ?_
      exact h content hfound

/-- Looking up is following the route of the path from the root. -/
theorem lookup?_eq_some {entry : Entry} :
    files.lookup? path = some entry ↔ path ≠ "" ∧ Folder.follow [] files.root (files.route path) = some entry := by
  rw [lookup?]
  split <;> simp_all

theorem proper_of_folder? (hp : files.root.Proper) (h : files.folder? path = some inner) : inner.Proper :=
  hp.follow (by simp) (lookup?_eq_some.1 (folder?_eq_some.1 h)).2

/-- The route to a path: where the path starts, and its names. -/
theorem route_eq (files : Disk) (path : String) :
    files.route path = (if isAbsolute path then [] else files.current) ++ pathNames path := by
  rw [route]
  split <;> rfl

/-- The path of a file below a folder, joined to any path of the folder, leads where it leads from the folder. -/
theorem exists_lookup?_joinPath (h : files.folder? path = some inner) :
    ∃ base outer, ∀ file, isAbsolute file = false →
      joinPath path file = base ++ "/" ++ file ∧
        files.lookup? (joinPath path file) = Folder.follow outer inner (pathNames file) := by
  obtain ⟨hpath, hfollow⟩ := lookup?_eq_some.1 (folder?_eq_some.1 h)
  obtain ⟨base, hnames, hjoin⟩ := exists_base hpath
  obtain ⟨outer, houter⟩ := Folder.exists_follow_append hfollow
  refine ⟨base, outer, fun file hfile => ⟨hjoin file hfile, ?_⟩⟩
  have hroute : files.route (joinPath path file) =
      (if isAbsolute path then [] else files.current) ++ (pathNames base ++ pathNames file) := by
    rw [route_eq, isAbsolute_joinPath hpath hfile, hjoin file hfile, pathNames_slash]
  have hsome : ¬ (joinPath path file).isEmpty = true := by
    rw [hjoin file hfile, String.isEmpty_iff]
    simp
  rw [lookup?, if_neg hsome, hroute, ← houter, route_eq]
  rcases hnames with hnames | hnames
  · rw [hnames, List.append_assoc]
  · rw [hnames, ← List.append_assoc, ← List.append_assoc, List.append_assoc _ [""], List.singleton_append,
      Folder.follow_append_blank (pathNames_ne_nil file)]

end Disk

end VbOutline.Files
