/-! # Folders

The files that the command can read, and where a path leads.

A path is a sequence of names with slashes between them, and is followed name by name from the
folder in which the command runs.  An empty name and `.` stay in the folder, `..` leads to the
folder above. Every name but the last has to lead to a folder; a slash at the end asks for a folder
as well.  What lies outside the command's own folder is not known: there are folders above, but
nothing in them can be read. -/

namespace DispatchLisp

/-- Why a file cannot be read. -/
inductive FileFault where
  | missing
  | denied
  | notFolder
  | isFolder
  | nameTooLong
  | nullInName
  | notText
deriving DecidableEq, Repr, Inhabited

/-- The wording of a fault. -/
def FileFault.message : FileFault → String
  | missing => "No such file or directory (os error 2)"
  | denied => "Permission denied (os error 13)"
  | notFolder => "Not a directory (os error 20)"
  | isFolder => "Is a directory (os error 21)"
  | nameTooLong => "File name too long (os error 36)"
  | nullInName => "file name contained an unexpected NUL byte"
  | notText => "stream did not contain valid UTF-8"

/-- The files in a folder and in the folders inside it: the names that lead to each, outermost
first, and its text. -/
structure Folder where
  files : List (List String × String)
deriving Repr, Inhabited

/-- Where a path has led so far. -/
inductive Place where
  /-- To what has these names inside the command's folder, outermost first. -/
  | inside (names : List String)
  /-- To a folder that is not inside the command's folder. -/
  | outside
deriving DecidableEq, Repr, Inhabited

namespace Folder

/-- The most bytes that a name may have. -/
def longestName : Nat := 255

/-- The most bytes that a path may have. -/
def longestPath : Nat := 4095

/-- The names in a path. -/
def namesOf (path : String) : List String := path.splitOn "/"

/-- A folder with the given files, each with its path. -/
def ofFiles (files : List (String × String)) : Folder :=
  ⟨files.map fun (path, text) => (namesOf path, text)⟩

/-- The text of the file with the given names. -/
def text? (f : Folder) (names : List String) : Option String :=
  (f.files.find? fun file => file.1 == names).map Prod.snd

/-- There is a folder with the given names: they lead to a file, but not all the way. -/
def hasFolder (f : Folder) (names : List String) : Bool :=
  names.isEmpty || f.files.any fun file => names.isPrefixOf file.1 && file.1 != names

/-- A name can be followed from here. -/
def isOpen (f : Folder) : Place → Bool
  | .inside names => f.hasFolder names
  | .outside => true

/-- The folder above. -/
def above : Place → Place
  | .inside [] => .outside
  | .inside names => .inside names.dropLast
  | .outside => .outside

/-- Follows one name. -/
def follow (f : Folder) (place : Place) (name : String) : Except FileFault Place :=
  if !f.isOpen place then .error .notFolder
  else if name == "" || name == "." then .ok place
  else if name == ".." then .ok (above place)
  else if longestName < name.utf8ByteSize then .error .nameTooLong
  else
    match place with
    | .outside => .error .missing
    | .inside names =>
      let names := names ++ [name]
      if (f.text? names).isSome || f.hasFolder names then .ok (.inside names) else .error .missing

/-- Where a path begins: a slash in front leads outside. -/
def start (path : String) : Place :=
  if path.toList.head? == some '/' then .outside else .inside []

/-- Where a path leads. -/
def locate (f : Folder) (path : String) : Except FileFault Place :=
  if path.toList.contains '\x00' then .error .nullInName
  else if path.isEmpty then .error .missing
  else if longestPath < path.utf8ByteSize then .error .nameTooLong
  else (namesOf path).foldlM f.follow (start path)

/-- The text of the file that a path leads to. -/
def read (f : Folder) (path : String) : Except FileFault String :=
  match f.locate path with
  | .error fault => .error fault
  | .ok .outside => .error .isFolder
  | .ok (.inside names) =>
    match f.text? names with
    | some text => .ok text
    | none => .error .isFolder

end Folder

end DispatchLisp
