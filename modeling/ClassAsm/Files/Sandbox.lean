import ClassAsm.Files.Tree

/-!
# The source sandbox

Units are read from below one directory.  A path is taken as if it started there, and refused when
its normal form leaves the directory.  `Access` is what reading needs from a file system, so the
same code reads from a `Disk` and from the outside world.
-/

namespace ClassAsm.Files

/-- What a path leads to. -/
inductive Found where
  | file (text : String)
  | directory

/-- A file system that can be asked. -/
structure Access (m : Type → Type) where
  workingDirectory : m Path
  lookup : String → m (Except AccessError Found)

/-- A disk as a file system that can be asked. -/
def Disk.access (d : Disk) : Access Id where
  workingDirectory := d.workingDirectory
  lookup path := (d.lookup path).map fun t ↦ match t with
    | .file text => .file text
    | .directory _ => .directory

/-- Why the sandbox yields nothing. -/
inductive SandboxError where
  | escape
  | tooLarge
  | isDirectory (path : String)
  /-- The file system refuses the call named `call`. -/
  | access (call path : String) (e : AccessError)
deriving DecidableEq

/-- The text of an error. -/
def SandboxError.text : SandboxError → String
  | escape => "stdlib/fs: path escape violation"
  | tooLarge => "stdlib/fs: file size limit exceeded"
  | isDirectory path => "stdlib/fs: " ++ path ++ " is a directory"
  | access call path e => call ++ " " ++ path ++ ": " ++ e.text

/-- A directory to read units from, and the greatest size of a unit in bytes, if it is positive. -/
structure Sandbox where
  root : Path
  maxFileSize : Int

namespace Sandbox

/-- The place of a path inside the sandbox, if it is inside. -/
def resolve (s : Sandbox) (path : String) : Option Path :=
  let p := s.root.join (.ofText path)
  if p = s.root ∨ (s.root.text ++ "/").toList.isPrefixOf p.text.toList then some p else none

/-- Whether a text is larger than the sandbox allows. -/
def exceeds (s : Sandbox) (text : String) : Bool :=
  0 < s.maxFileSize && s.maxFileSize < text.utf8ByteSize

/-- Read the unit at a path. -/
def read {m : Type → Type} [Monad m] (files : Access m) (s : Sandbox) (path : String) :
    m (Except SandboxError String) := do
  match s.resolve path with
  | none => return .error .escape
  | some p =>
    match ← files.lookup p.text with
    | .error e => return .error (.access "stat" p.text e)
    | .ok .directory => return .error (.isDirectory path)
    | .ok (.file text) => return if s.exceeds text then .error .tooLarge else .ok text

/-- The units below the root of the sandbox, by their paths seen from the root. -/
def list (d : Disk) (s : Sandbox) : Except SandboxError (List String) :=
  match d.lookup s.root.text with
  | .error e => .error (.access "lstat" s.root.text e)
  | .ok (.file _) => .ok (if Tree.isUnit s.root.text then ["."] else [])
  | .ok (.directory entries) => .ok ((Tree.unitsIn [] entries).map (String.intercalate "/"))

end Sandbox

end ClassAsm.Files
