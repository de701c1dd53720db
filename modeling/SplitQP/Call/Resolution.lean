import SplitQP.Number.Whole
import SplitQP.Call.NamedSettings
/-!
# Resolving settings, pair by pair

Pairs of a name and a value are taken one after the other. A name is looked
up in a table, which also says how its value is converted before it is
assigned. A name that is not in the table is complained about in a line of
its own, on a stream that may refuse text; nobody asks whether it did.
-/

namespace SplitQP

/-! ## The stream -/

/-- A stream text is written to, a piece at a time. It answers whether it took the piece;
what a piece it refuses leaves behind is its own affair. -/
structure TextStream (σ : Type) where
  write : String → σ → Bool × σ

namespace TextStream

variable {σ : Type}

/-- Writes pieces up to the first that is refused. An empty piece is not written. -/
def writeAll (out : TextStream σ) (s : σ) : List String → σ
  | [] => s
  | piece :: rest =>
    if piece = "" then out.writeAll s rest
    else match out.write piece s with
      | (true, s) => out.writeAll s rest
      | (false, s) => s

/-- The stream that takes everything. -/
def collecting : TextStream String := ⟨fun piece s => (true, s ++ piece)⟩

/-- The stream that takes nothing. -/
def refusing : TextStream Unit := ⟨fun _ s => (false, s)⟩

/-- Complains about an unknown name, in a line. -/
def complain (out : TextStream σ) (s : σ) (name : String) : σ :=
  out.writeAll s ["Unknown setting parameter: [", name, "].", "\n"]

end TextStream

/-! ## Names and values -/

/-- How a value is converted before it is assigned. -/
inductive Transform where
  | direct
  /-- To a whole number, halves away from zero. -/
  | rounded
  deriving DecidableEq, Repr

/-- The value that is assigned. -/
def Transform.apply : Transform → Float → Float
  | direct, value => value
  | rounded, value => Binary.rounded value

namespace SettingName

/-- The names that are recognised, with what they name and how their values are converted. -/
def table : List (String × SettingName × Transform) :=
  [("RHO", rho, .direct),
   ("SIGMA", sigma, .direct),
   ("ALPHA", alpha, .direct),
   ("EPS_ABS", epsAbs, .direct),
   ("EPS_REL", epsRel, .direct),
   ("EPS_PRIM_INF", epsPrimInf, .direct),
   ("EPS_DUAL_INF", epsDualInf, .direct),
   ("POLISH", polish, .rounded),
   ("MAX_ITER", maxIter, .rounded)]

/-- What a name stands for. -/
def lookup? (text : String) : Option (SettingName × Transform) := table.lookup text

/-- **Reads a name,** or answers the complaint about it. -/
def parse (text : String) : Except String SettingName :=
  match lookup? text with
  | some (name, _) => .ok name
  | none => .error (unknownSettingMessage text)

/-- Gives the setting a value that is converted already. -/
def set (n : SettingName) (value : Float) (s : Settings Float) : Settings Float :=
  match n with
  | rho => { s with rho := value }
  | sigma => { s with sigma := value }
  | alpha => { s with alpha := value }
  | epsAbs => { s with epsAbs := value }
  | epsRel => { s with epsRel := value }
  | epsPrimInf => { s with epsPrimInf := value }
  | epsDualInf => { s with epsDualInf := value }
  | polish => { s with polish := Binary.toSigned64 value ≠ 0 }
  | maxIter => { s with maxIter := (Binary.toUnsigned32 value).toNat }

end SettingName

/-! ## Pair by pair -/

/-- Where resolving stands. -/
structure Resolution (σ : Type) where
  settings : Settings Float
  /-- What each pair was taken for. -/
  taken : Array (Assignment Float)
  stream : σ

namespace Resolution

variable {σ : Type}

/-- Nothing is named yet. -/
def initial (s : σ) : Resolution σ := ⟨.callDefault, #[], s⟩

/-- Takes one pair into account. -/
def step (out : TextStream σ) (r : Resolution σ) (pair : String × Float) : Resolution σ :=
  match SettingName.lookup? pair.1 with
  | some (name, transform) =>
    { r with
      settings := name.set (transform.apply pair.2) r.settings
      taken := r.taken.push (.known name pair.2) }
  | none =>
    { r with
      taken := r.taken.push (.unknown pair.1)
      stream := out.complain r.stream pair.1 }

end Resolution

/-- **Resolves names and values,** which must be equally many, and complains on a stream. -/
def Settings.resolve {σ : Type} (names : Array String) (values : Array Float)
    (out : TextStream σ) (s : σ) :
    Except CallError (Settings Float × Array (Assignment Float)) × σ :=
  match CallError.checkLength "setting values" names.size values.size with
  | .error e => (.error e, s)
  | .ok () =>
    let r := (names.zip values).foldl (Resolution.step out) (.initial s)
    (.ok (r.settings, r.taken), r.stream)

end SplitQP
