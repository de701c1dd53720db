import SplitQP.Text.Utf8
import SplitQP.Call.Solve
import SplitQP.Json.Typed
import SplitQP.Json.Writer
/-!
# Records of calls

A call can be kept in a file, as JSON, and solved again later. JSON has no
infinite numbers: infinite bounds are kept as the largest finite doubles,
and bounds of that size are read as infinite.
-/

namespace SplitQP

/-- Why a file holds no call. -/
inductive RecordError where
  /-- It is not text, not JSON, or JSON for something else. -/
  | invalidData
  /-- It ends too early. -/
  | unexpectedEnd
  deriving DecidableEq, Repr

/-- What a reader's error says about a file. -/
def RecordError.ofJsonError : JsonError → RecordError
  | .malformed | .mistyped => invalidData
  | .truncated => unexpectedEnd

namespace Call

/-! ## Bounds -/

/-- The largest finite double. -/
def largest : Float := Float.ofBits 0x7FEFFFFFFFFFFFFF

/-- `x` with the sign of `s`. -/
def withSignOf (x s : Float) : Float := if s < 0 then -x else x

/-- A bound as it is kept. -/
def boundToKeep (x : Float) : Float := if x.isInf then withSignOf largest x else x

/-- A bound as it was before it was kept. -/
def boundKept (x : Float) : Float := if x.abs == largest then withSignOf (1.0 / 0.0) x else x

/-! ## Writing -/

/-- A matrix. -/
def writeCoordinates (c : Coordinates Float) : List Char :=
  JsonWriter.record [
    ("rows", JsonWriter.ints c.rows),
    ("cols", JsonWriter.ints c.cols),
    ("vals", JsonWriter.floats c.vals)]

/-- **A call as text.** -/
def toJson (c : Call Float) : String :=
  String.ofList <| JsonWriter.record [
    ("num_variables", Numeral.writeInt c.n),
    ("num_constraints", Numeral.writeInt c.m),
    ("log_path", JsonText.write c.logPath),
    ("linear_objective", JsonWriter.floats c.objective),
    ("quadratic_objective", writeCoordinates c.quadratic),
    ("constraints", writeCoordinates c.matrix),
    ("lower_bounds", JsonWriter.floats (c.lower.map boundToKeep)),
    ("upper_bounds", JsonWriter.floats (c.upper.map boundToKeep)),
    ("setting_names", JsonWriter.strings c.names),
    ("setting_values", JsonWriter.floats c.values)]

/-! ## Reading -/

open Reader

/-- The fields of a matrix. -/
def coordinatesFields : List (FieldReader (Coordinates Float)) := [
  ⟨"rows", fun c => do return { c with rows := ← array int64 }⟩,
  ⟨"cols", fun c => do return { c with cols := ← array int64 }⟩,
  ⟨"vals", fun c => do return { c with vals := ← array float }⟩]

/-- Takes a matrix. -/
def readCoordinates : Reader (Coordinates Float) := record coordinatesFields true {}

/-- The fields of a call. -/
def jsonFields : List (FieldReader (Call Float)) := [
  ⟨"num_variables", fun c => do return { c with n := ← int64 }⟩,
  ⟨"num_constraints", fun c => do return { c with m := ← int64 }⟩,
  ⟨"log_path", fun c => do return { c with logPath := ← string }⟩,
  ⟨"linear_objective", fun c => do return { c with objective := ← array float }⟩,
  ⟨"quadratic_objective", fun c => do return { c with quadratic := ← readCoordinates }⟩,
  ⟨"constraints", fun c => do return { c with matrix := ← readCoordinates }⟩,
  ⟨"lower_bounds", fun c => do return { c with lower := ← array float }⟩,
  ⟨"upper_bounds", fun c => do return { c with upper := ← array float }⟩,
  ⟨"setting_names", fun c => do return { c with names := ← array string }⟩,
  ⟨"setting_values", fun c => do return { c with values := ← array float }⟩]

/-- A call read from a text. -/
def ofJson (text : String) : Except JsonError (Call Float) := do
  let c ← readAll (record jsonFields true {}) text
  return { c with lower := c.lower.map boundKept, upper := c.upper.map boundKept }

/-- **A call read from a file.** -/
def ofFile (bytes : ByteArray) : Except RecordError (Call Float) :=
  match Utf8.decode? bytes with
  | none => .error .invalidData
  | some text => (ofJson text).mapError RecordError.ofJsonError

/-! ## Solving again -/

variable {α : Type} [RoundingScalar α]

/-- An output buffer nobody has written to, or a fault if it would be too
large. A negative size counts as zero. -/
def blankOutput (size : Int) : Checked (Array α) := do
  Checked.require (size.toNat ≤ maxEntries) .capacity
  return Array.replicate size.toNat Scalar.nan

/-- **Solves a recorded call.** Answers the status and both outputs. -/
def replay (b : Backend α) (refusal : String → Option String) (c : Call α) :
    Checked (Int × Array α × Array α) := do
  let primal ← blankOutput c.n
  let dual ← blankOutput c.m
  let course := c.solve b refusal primal dual
  let outcome ← course.ending
  return (outcome.status, History.primal primal course.steps, History.dual dual course.steps)

end Call

end SplitQP
