import ClassAsm.Text.Blank

/-!
# Paths

A `Path` is a path in lexical normal form: its components, none of which is empty or `.`, and
whether it starts at the root.  A `..` takes away the component before it, is dropped at the root,
and otherwise stays in front.  The file system is never asked, so links play no part.
-/

namespace ClassAsm.Files

/-- A path in lexical normal form. -/
structure Path where
  rooted : Bool
  parts : List String
deriving DecidableEq, Repr

namespace Path

/-- Follow one more component of a path; `done` holds those before it, last first. -/
def follow (rooted : Bool) (done : List String) (part : String) : List String :=
  if part = "" ∨ part = "." then done
  else if part = ".." then
    match done with
    | [] => if rooted then [] else [".."]
    | last :: rest => if last = ".." then ".." :: done else rest
  else part :: done

/-- The components of a text between its slashes, empty ones included. -/
def split (s : String) : List String := (s.toList.splitOn '/').map String.ofList

/-- The normal form of a path text. -/
def ofText (s : String) : Path :=
  let rooted := s.toList.head? = some '/'
  ⟨rooted, ((split s).foldl (follow rooted) []).reverse⟩

/-- The text of a path; the empty relative path is `.`. -/
def text (p : Path) : String :=
  if p.rooted then "/" ++ String.intercalate "/" p.parts
  else if p.parts.isEmpty then "."
  else String.intercalate "/" p.parts

/-- Continue from `base` along `p`, whether or not `p` starts at the root. -/
def join (base p : Path) : Path :=
  ⟨base.rooted, (p.parts.foldl (follow base.rooted) base.parts.reverse).reverse⟩

/-- The path seen from the working directory `cwd`. -/
def absolute (p cwd : Path) : Path := if p.rooted then p else cwd.join p

/-- A path text without the slashes at its end. -/
def withoutSlashes (s : String) : List Char := (s.toList.reverse.dropWhile (· = '/')).reverse

/-- The directory part of a path text: all up to its last slash. -/
def directory (s : String) : Path :=
  ofText (String.ofList (s.toList.reverse.dropWhile (· ≠ '/')).reverse)

/-- The last component of a path text. -/
def baseName (s : String) : String :=
  if s = "" then "."
  else
    let body := withoutSlashes s
    if body.isEmpty then "/"
    else String.ofList (body.reverse.takeWhile (· ≠ '/')).reverse

end Path

end ClassAsm.Files
