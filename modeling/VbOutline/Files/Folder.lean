import VbOutline.Files.Path

/-! Folders and the files in them, and the disk that holds them: a path leads from its root or from its current
folder to a file or a folder. -/

namespace VbOutline.Files

/-- What a folder holds: files and folders, each under a name. -/
inductive Folder where
  | empty
  | file (name : String) (content : List UInt8) (others : Folder)
  | folder (name : String) (inner : Folder) (others : Folder)

/-- What stands under a name. -/
inductive Entry where
  | file (content : List UInt8)
  | folder (inner : Folder)

namespace Folder

/-- The entry under a name. -/
def child? (name : String) : Folder → Option Entry
  | empty => none
  | file other content others => if other = name then some (.file content) else others.child? name
  | folder other inner others => if other = name then some (.folder inner) else others.child? name

/-- Follows names from a folder whose enclosing folders are given, the nearest first. A blank name and a
dot stay in a folder and two dots leave it, unless no folder encloses it; a file has nothing under it. -/
def follow (enclosing : List Folder) (here : Folder) : List String → Option Entry
  | [] => some (.folder here)
  | name :: names =>
    if name = "" ∨ name = "." then follow enclosing here names
    else if name = ".." then
      match enclosing with
      | [] => follow [] here names
      | outer :: others => follow others outer names
    else match here.child? name with
      | none => none
      | some (.folder inner) => follow (here :: enclosing) inner names
      | some (.file content) => if names.isEmpty then some (.file content) else none

/-! ### Changing

The paths of changes start at the folder that is changed. -/

/-- A folder without the entries under a name. -/
def erase (name : String) : Folder → Folder
  | empty => empty
  | file other content others =>
    if other = name then others.erase name else file other content (others.erase name)
  | folder other inner others =>
    if other = name then others.erase name else folder other inner (others.erase name)

/-- A folder with an entry under a name, in place of what was there. -/
def insert (name : String) (entry : Entry) (here : Folder) : Folder :=
  match entry with
  | .file content => file name content (here.erase name)
  | .folder inner => folder name inner (here.erase name)

/-- Puts an entry at the end of some names, with the folders missing on the way to it. Nothing is put
below a file. -/
def insertAt (entry : Entry) : List String → Folder → Folder
  | [], here => here
  | [name], here => here.insert name entry
  | name :: names, here =>
    match here.child? name with
    | some (.file _) => here
    | some (.folder inner) => here.insert name (.folder (insertAt entry names inner))
    | none => here.insert name (.folder (insertAt entry names empty))

/-- Removes what stands at the end of some names. -/
def eraseAt : List String → Folder → Folder
  | [], here => here
  | [name], here => here.erase name
  | name :: names, here =>
    match here.child? name with
    | some (.folder inner) => here.insert name (.folder (eraseAt names inner))
    | _ => here

/-- Makes a folder at a place, unless there is something. -/
def ensure (root : Folder) (place : List String) : Folder :=
  match follow [] root place with
  | some _ => root
  | none => root.insertAt (.folder empty) place

/-- Puts a file at a place, unless there is a folder. -/
def putFile (root : Folder) (content : List UInt8) (place : List String) : Folder :=
  match follow [] root place with
  | some (.folder _) => root
  | _ => root.insertAt (.file content) place

/-- Writes a file. Every folder its path leads through is made, also one that the path leaves again. -/
def write (root : Folder) (path : String) (content : List UInt8) : Folder :=
  match (places path).getLast? with
  | some place => ((places path).dropLast.foldl ensure root).putFile content place
  | none => root

/-- Makes a folder, and every folder its path leads through. -/
def makeFolder (root : Folder) (path : String) : Folder :=
  (places path).foldl ensure root

/-- Removes the entry at a path, if there is one. -/
def remove (root : Folder) (path : String) : Folder :=
  match follow [] root (pathNames path), (places path).getLast? with
  | some _, some place => root.eraseAt place
  | _, _ => root

end Folder

/-! ### Looking up -/

/-- A root folder and a place below it. -/
structure Disk where
  root : Folder
  /-- The names that lead from the root to the current folder. -/
  current : List String := []

/-- A folder taken as the current one of a disk that holds nothing else. -/
instance : Coe Folder Disk where
  coe folder := { root := .folder "home" folder .empty, current := ["home"] }

namespace Disk

/-- The names that lead from the root to where a path leads. -/
def route (disk : Disk) (path : String) : List String :=
  if isAbsolute path then pathNames path else disk.current ++ pathNames path

/-- The entry at a path. The path without characters leads nowhere. -/
def lookup? (disk : Disk) (path : String) : Option Entry :=
  if path.isEmpty then none else Folder.follow [] disk.root (disk.route path)

/-- The content of the file at a path. -/
def file? (disk : Disk) (path : String) : Option (List UInt8) :=
  match disk.lookup? path with
  | some (.file content) => some content
  | _ => none

/-- The folder at a path. -/
def folder? (disk : Disk) (path : String) : Option Folder :=
  match disk.lookup? path with
  | some (.folder inner) => some inner
  | _ => none

end Disk

end VbOutline.Files
