/-!
# The journal

Remarks of the library on what it does, in order, each with a level.
-/

namespace SplitQP

/-- How much a remark matters. -/
inductive Level where
  | error
  | warn
  | debug
  deriving DecidableEq, Repr

/-- The name of a level. -/
def Level.name : Level → String
  | error => "ERROR"
  | warn => "WARN"
  | debug => "DEBUG"

/-- One remark. -/
structure Remark where
  level : Level
  text : String
  deriving DecidableEq, Repr

/-- All remarks, the first one first. -/
abbrev Journal : Type := Array Remark

namespace Journal

/-- Adds a remark. -/
def add (j : Journal) (level : Level) (text : String) : Journal := j.push ⟨level, text⟩

/-- The remarks of the given levels, each as one line. -/
def lines (j : Journal) (levels : List Level) : List String :=
  (j.toList.filter (levels.contains ·.level)).map fun r => s!"{r.level.name} {r.text}"

end Journal

end SplitQP
