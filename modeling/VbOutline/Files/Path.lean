import VbOutline.Text.Lexeme

/-! Paths of files. A path is a list of names with slashes between them; in a name, a backslash is a
character like any other. -/

namespace VbOutline.Files

/-- The names of a path. -/
def pathNames (path : String) : List String :=
  (Text.Lexeme.pieces (· == '/') ⟨0, path.toList⟩).map Text.Lexeme.spelling

/-- Whether a path starts at the root. Any other path starts at the current folder. -/
def isAbsolute (path : String) : Bool := path.toList.head? == some '/'

/-- Where a name leads from a place, which is given by the names on the way to it. A blank name and a dot
stay, two dots go back and any other name goes on; from the start, two dots stay too. -/
def goFrom (place : List String) (name : String) : List String :=
  if name = "" ∨ name = "." then place
  else if name = ".." then place.dropLast
  else place ++ [name]

/-- The places that some names lead to one after the other. -/
def placesFrom : List String → List String → List (List String)
  | _, [] => []
  | place, name :: names => goFrom place name :: placesFrom (goFrom place name) names

/-- The places a path leads through, up to its own. The path without characters leads nowhere. -/
def places (path : String) : List (List String) :=
  if path.isEmpty then [] else placesFrom [] (pathNames path)

/-- The last name of a path. -/
def lastName (path : List Char) : List Char := (path.reverse.takeWhile (· ≠ '/')).reverse

/-- The extension of a path: what the last name has from its last dot on, unless there are only dots
before it. -/
def extension (path : List Char) : List Char :=
  let name := lastName path
  let suffix := (name.reverse.takeWhile (· ≠ '.')).reverse
  let stem := name.take (name.length - suffix.length - 1)
  if stem.all (· == '.') then [] else '.' :: suffix

/-- A path with slashes in place of backslashes. -/
def slashed (path : String) : String :=
  String.ofList (path.toList.map fun c => if c = '\\' then '/' else c)

/-- The path of a file given by its path below a folder. A path that starts with a slash stays as it
is. -/
def joinPath (folder file : String) : String :=
  if isAbsolute file then file
  else if folder.toList.getLast?.all (· == '/') then folder ++ file
  else folder ++ "/" ++ file

end VbOutline.Files
