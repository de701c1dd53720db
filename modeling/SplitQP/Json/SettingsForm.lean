import SplitQP.Admm.Settings
import SplitQP.Json.Typed
import SplitQP.Json.Writer
/-!
# Settings as JSON

A record of eighteen fields. A field that is missing keeps its default.
-/

namespace SplitQP

namespace Settings

open Reader

/-- A field holding a double. -/
def floatField (name : String) (put : Settings Float → Float → Settings Float) :
    FieldReader (Settings Float) := ⟨name, fun s => put s <$> float⟩

/-- A field holding a count. -/
def countField (name : String) (put : Settings Float → Nat → Settings Float) :
    FieldReader (Settings Float) := ⟨name, fun s => put s <$> nat32⟩

/-- A field holding a switch. -/
def switchField (name : String) (put : Settings Float → Bool → Settings Float) :
    FieldReader (Settings Float) := ⟨name, fun s => put s <$> bool⟩

/-- The fields in the order declared. -/
def jsonFields : List (FieldReader (Settings Float)) := [
  floatField "rho" fun s v => { s with rho := v },
  floatField "sigma" fun s v => { s with sigma := v },
  floatField "alpha" fun s v => { s with alpha := v },
  floatField "eps_abs" fun s v => { s with epsAbs := v },
  floatField "eps_rel" fun s v => { s with epsRel := v },
  floatField "eps_prim_inf" fun s v => { s with epsPrimInf := v },
  floatField "eps_dual_inf" fun s v => { s with epsDualInf := v },
  countField "max_iter" fun s v => { s with maxIter := v },
  switchField "polish" fun s v => { s with polish := v },
  floatField "delta" fun s v => { s with delta := v },
  countField "polish_refine_iter" fun s v => { s with polishRefineIter := v },
  countField "scaling" fun s v => { s with scaling := v },
  switchField "adaptive_rho" fun s v => { s with adaptiveRho := v },
  countField "adaptive_rho_interval" fun s v => { s with adaptiveRhoInterval := v },
  floatField "adaptive_rho_tolerance" fun s v => { s with adaptiveRhoTolerance := v },
  countField "check_termination" fun s v => { s with checkTermination := v },
  floatField "time_limit" fun s v => { s with timeLimit := v },
  switchField "verbose" fun s v => { s with verbose := v }]

/-- **Settings read from a text.** -/
def ofJson (text : String) : Except JsonError (Settings Float) :=
  readAll (record jsonFields false Settings.default) text

/-- **Settings as text.** -/
def toJson (s : Settings Float) : String :=
  let float := Numeral.write
  let count (n : Nat) := Numeral.writeInt n
  let switch := JsonWriter.bool
  String.ofList <| JsonWriter.record [
    ("rho", float s.rho), ("sigma", float s.sigma), ("alpha", float s.alpha),
    ("eps_abs", float s.epsAbs), ("eps_rel", float s.epsRel),
    ("eps_prim_inf", float s.epsPrimInf), ("eps_dual_inf", float s.epsDualInf),
    ("max_iter", count s.maxIter), ("polish", switch s.polish), ("delta", float s.delta),
    ("polish_refine_iter", count s.polishRefineIter), ("scaling", count s.scaling),
    ("adaptive_rho", switch s.adaptiveRho),
    ("adaptive_rho_interval", count s.adaptiveRhoInterval),
    ("adaptive_rho_tolerance", float s.adaptiveRhoTolerance),
    ("check_termination", count s.checkTermination), ("time_limit", float s.timeLimit),
    ("verbose", switch s.verbose)]

end Settings

end SplitQP
