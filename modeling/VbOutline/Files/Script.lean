import VbOutline.Files.Folder
import VbOutline.Files.Utf8

/-! Script files: which files are scripts, where they are found below a folder and what is read from
them. -/

namespace VbOutline.Files

/-! ### Names -/

/-- The extensions of scripts. -/
def scriptExtensions : List String := [".vbs", ".vb", ".vba", ".cls", ".bas", ".asp"]

/-- Whether a path is that of a script, by its extension in any letter case. -/
def isScript (path : String) : Bool :=
  scriptExtensions.contains (String.ofList ((extension path.toList).map Char.toLower))

/-! ### Finding -/

/-- The names of folders that hold no sources. -/
def skippedFolders : List String :=
  [".git", "build", "__pycache__", "node_modules", ".vscode", ".idea", "venv"]

/-- The paths of all scripts in a folder and in the folders below it that are not skipped. -/
def Folder.scripts : Folder → List String
  | .empty => []
  | .file name _ others => if isScript name then name :: others.scripts else others.scripts
  | .folder name inner others =>
    if skippedFolders.contains name then others.scripts
    else inner.scripts.map (fun path => name ++ "/" ++ path) ++ others.scripts

/-- The scripts below the folder at a path, sorted, with slashes only; none if there is no such
folder. -/
def scriptsBelow (disk : Disk) (path : String) : List String :=
  match disk.folder? path with
  | some folder => (folder.scripts.map slashed).mergeSort fun a b => a ≤ b
  | none => []

/-! ### Reading -/

/-- The first `n` lines of a text. A line ends with a line feed, a carriage return, or the two in
sequence. -/
def takeLines : Nat → List Char → List Char
  | 0, _ => []
  | _ + 1, [] => []
  | n + 1, '\r' :: '\n' :: rest => '\r' :: '\n' :: takeLines n rest
  | n + 1, c :: rest =>
    if c = '\n' ∨ c = '\r' then c :: takeLines n rest else c :: takeLines (n + 1) rest

/-- How many bytes are looked at to tell a binary file. -/
def sniffed : Nat := 8192

/-- Whether a file is binary: one of its first bytes is zero. -/
def isBinary (content : List UInt8) : Bool := (content.take sniffed).contains 0

/-- The text of the file at a path, up to a number of lines; none if there is no such file or if it is
binary. -/
def readScript? (disk : Disk) (lineLimit : Nat) (path : String) : Option String :=
  match disk.file? path with
  | some content =>
    if isBinary content then none
    else some (String.ofList (takeLines lineLimit (Utf8.decode content)))
  | none => none

end VbOutline.Files
