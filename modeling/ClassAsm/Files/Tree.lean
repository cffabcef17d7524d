import ClassAsm.Files.Path

/-!
# File trees

A file system as a value: files with their text, and directories with their entries in ascending
order of names, which insertion keeps (`Ordered.insert`).  A path is followed component by
component, so every component but the last has to be a directory.  A name has at most 255 bytes and
a path at most 4095, and neither holds the character with code zero.
-/

namespace ClassAsm.Files

/-- A file or a directory with its entries. -/
inductive Tree where
  | file (text : String)
  | directory (entries : List (String × Tree))
deriving Inhabited

/-- Why a path cannot be followed. -/
inductive AccessError where
  | notFound
  | notDirectory
  | nameTooLong
  /-- The path holds the character with code zero. -/
  | invalid
deriving DecidableEq

/-- The text of an access error. -/
def AccessError.text : AccessError → String
  | notFound => "no such file or directory"
  | notDirectory => "not a directory"
  | nameTooLong => "file name too long"
  | invalid => "invalid argument"

/-- The greatest number of bytes in a name. -/
def nameLimit : Nat := 255

/-- The greatest number of bytes in a path. -/
def pathLimit : Nat := 4095

namespace Tree

/-- The entry of a directory with a name. -/
def child? (t : Tree) (name : String) : Except AccessError Tree :=
  match t with
  | .file _ => .error .notDirectory
  | .directory entries =>
    if nameLimit < name.utf8ByteSize then .error .nameTooLong
    else match entries.find? fun e ↦ e.1 = name with
      | some e => .ok e.2
      | none => .error .notFound

/-- Follow the components of a path.  `above` holds the directories on the way, nearest first; the
root is its own parent. -/
def follow (above : List Tree) (t : Tree) : List String → Except AccessError Tree
  | [] => .ok t
  | part :: rest =>
    match t with
    | .file _ => .error .notDirectory
    | .directory _ =>
      if part = "" ∨ part = "." then follow above t rest
      else if part = ".." then
        match above with
        | [] => follow [] t rest
        | parent :: above => follow above parent rest
      else do
        follow (t :: above) (← t.child? part) rest

/-- Put `new` in the place of the entry `name`, keeping the entries in order. -/
def insertEntry (name : String) (new : Tree) : List (String × Tree) → List (String × Tree)
  | [] => [(name, new)]
  | e :: rest =>
    if name < e.1 then (name, new) :: e :: rest
    else if name = e.1 then (name, new) :: rest
    else e :: insertEntry name new rest

/-- The entries of a directory; a file has none. -/
def entries : Tree → List (String × Tree)
  | .file _ => []
  | .directory entries => entries

/-- Put `new` at the place that the components lead to, and make the directories on the way. -/
def insert (new : Tree) (t : Tree) : List String → Tree
  | [] => new
  | part :: rest =>
    let old := ((t.child? part).toOption).getD (.directory [])
    .directory (insertEntry part (insert new old rest) t.entries)

/-! ## Walking -/

/-- Whether a file name is that of a unit. -/
def isUnit (name : String) : Bool := ".drasm".toList.isSuffixOf name.toList

mutual

/-- The units below a tree that is reached under `name`, by the components that lead to them.  The
entries of a directory come in order, each with all that is below it. -/
def unitsBelow (above : List String) (name : String) : Tree → List (List String)
  | .file _ => if isUnit name then [above ++ [name]] else []
  | .directory entries => unitsIn (above ++ [name]) entries

/-- The units below the entries of a directory. -/
def unitsIn (above : List String) : List (String × Tree) → List (List String)
  | [] => []
  | (name, t) :: rest => unitsBelow above name t ++ unitsIn above rest

end

end Tree

/-- A file system with a working directory. -/
structure Disk where
  root : Tree
  workingDirectory : Path

/-- Follow a path text, from the root or from the working directory. -/
def Disk.lookup (d : Disk) (path : String) : Except AccessError Tree :=
  if path = "" then .error .notFound
  else if path.toList.contains '\x00' then .error .invalid
  else if pathLimit < path.utf8ByteSize then .error .nameTooLong
  else if path.toList.head? = some '/' then d.root.follow [] (Path.split path)
  else d.root.follow [] (d.workingDirectory.parts ++ Path.split path)

end ClassAsm.Files
