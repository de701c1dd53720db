import SplitQP.Admm.Settings
import SplitQP.Number.Nearest
import SplitQP.Call.Error
/-!
# Settings by name

A caller passes settings as names with values. Nine names are known; the
value given last under a name is the one that counts. An unknown name is
complained about and otherwise ignored. What is not named keeps its
default, except that polishing is on.
-/

namespace SplitQP

/-- The settings a caller can name. -/
inductive SettingName where
  | rho
  | sigma
  | alpha
  | epsAbs
  | epsRel
  | epsPrimInf
  | epsDualInf
  | polish
  | maxIter
  deriving DecidableEq, Repr

namespace SettingName

/-- All of them. -/
def all : List SettingName :=
  [rho, sigma, alpha, epsAbs, epsRel, epsPrimInf, epsDualInf, polish, maxIter]

/-- The name a caller writes. -/
def text : SettingName → String
  | rho => "RHO"
  | sigma => "SIGMA"
  | alpha => "ALPHA"
  | epsAbs => "EPS_ABS"
  | epsRel => "EPS_REL"
  | epsPrimInf => "EPS_PRIM_INF"
  | epsDualInf => "EPS_DUAL_INF"
  | polish => "POLISH"
  | maxIter => "MAX_ITER"

/-- The setting a caller means. -/
def ofText? (text : String) : Option SettingName := all.find? (·.text = text)

/-- A setting is found by its name. -/
theorem ofText?_text (n : SettingName) : ofText? n.text = some n := by
  cases n <;> decide

variable {α : Type} [RoundingScalar α]

/-- The iteration limit a value stands for: 32 bits, no sign. -/
def iterationLimit (value : α) : Nat := min (RoundingScalar.nearest value).toNat (pow2 32 - 1)

/-- The switch a value stands for. -/
def isOn (value : α) : Bool := RoundingScalar.nearest value ≠ 0

/-- Gives the setting a value. -/
def assign (n : SettingName) (value : α) (s : Settings α) : Settings α :=
  match n with
  | rho => { s with rho := value }
  | sigma => { s with sigma := value }
  | alpha => { s with alpha := value }
  | epsAbs => { s with epsAbs := value }
  | epsRel => { s with epsRel := value }
  | epsPrimInf => { s with epsPrimInf := value }
  | epsDualInf => { s with epsDualInf := value }
  | polish => { s with polish := isOn value }
  | maxIter => { s with maxIter := iterationLimit value }

end SettingName

/-- What a caller's pair of name and value is taken for. -/
inductive Assignment (α : Type) where
  | known (name : SettingName) (value : α)
  | unknown (text : String)
  deriving Repr, BEq

/-- The complaint about an unknown name. -/
def unknownSettingMessage (text : String) : String := s!"Unknown setting parameter: [{text}]."

namespace Assignment

variable {α : Type}

/-- Reads a pair of name and value. -/
def ofPair (text : String) (value : α) : Assignment α :=
  match SettingName.ofText? text with
  | some name => known name value
  | none => unknown text

/-- The complaint about an unknown name. -/
def complaint? : Assignment α → Option String
  | known _ _ => none
  | unknown text => some (unknownSettingMessage text)

/-- Reads names and values in step, which must be equally many. -/
def ofArrays (names : Array String) (values : Array α) :
    Except CallError (List (Assignment α)) := do
  CallError.checkLength "setting values" names.size values.size
  return List.zipWith ofPair names.toList values.toList

variable [RoundingScalar α]

/-- Settings after the pair is taken into account. -/
def apply (s : Settings α) : Assignment α → Settings α
  | known name value => name.assign value s
  | unknown _ => s

end Assignment

namespace Settings

variable {α : Type} [RoundingScalar α]

/-- What a caller gets who names nothing. -/
def callDefault : Settings α := { Settings.default with polish := true }

/-- **The settings that pairs of names and values stand for.** -/
def ofAssignments (pairs : List (Assignment α)) : Settings α :=
  pairs.foldl Assignment.apply callDefault

end Settings

end SplitQP
