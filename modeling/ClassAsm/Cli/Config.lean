import ClassAsm.Machine.State
import ClassAsm.Session.Cache

/-!
# Configuration

The settings of the command line tool, and their printed form, which has three sections.
-/

namespace ClassAsm.Cli

/-- The settings. -/
structure Config where
  cacheSize : Int := Session.Cache.defaultCapacity
  gasLimit : Int := Machine.defaultGas
  root : String := ""
  maxFileSize : Int := 1048576
  level : String := "info"
deriving DecidableEq

/-- The names of the logging levels. -/
def levels : List String := ["debug", "dbug", "info", "warn", "error", "eror", "crit"]

namespace Config

/-- The line of an integer setting. -/
def intLine (key : String) (i : Int) : String := key ++ " = " ++ Number.intText i ++ "\n"

/-- The line of a text setting. -/
def textLine (key s : String) : String := key ++ " = " ++ Text.quote s ++ "\n"

/-- The names of the sections with their lines.  Of the settings that have a natural default, those
that are zero or empty are left out. -/
def sections (c : Config) : List (String × String) :=
  [("Compiler", (if c.cacheSize = 0 then "" else intLine "CacheSize" c.cacheSize) ++
      (if c.gasLimit = 0 then "" else intLine "GasLimit" c.gasLimit)),
    ("Source", (if c.root = "" then "" else textLine "Root" c.root) ++
      intLine "MaxFileSize" c.maxFileSize),
    ("Log", textLine "Level" c.level)]

/-- The settings in the form of a configuration file.  A section without lines is left out. -/
def text (c : Config) : String :=
  String.intercalate "\n" ((c.sections.filter fun s ↦ s.2 ≠ "").map fun (name, lines) ↦
    "[" ++ name ++ "]\n" ++ lines)

end Config

end ClassAsm.Cli
