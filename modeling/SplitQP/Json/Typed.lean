import SplitQP.Json.Skip
/-!
# JSON values of known kinds

Numbers, switches, strings, lists and records. A record is an object of
its fields in any order, or an array of their values in the order declared;
unknown members are skipped. A value of another kind is an error, but one
that is not even well formed is reported as such.
-/

namespace SplitQP

namespace Reader

variable {β : Type}

/-- Stops at a value that is not of the kind wanted, which begins with `c`. -/
def wrongKind (c : Char) : Reader β := do
  if c = '-' ∨ c.isDigit then
    let _ ← Numeral.read
  else
    match c with
    | 'n' => advance; word "ull".toList
    | 't' => advance; word "rue".toList
    | 'f' => advance; word "alse".toList
    | '"' =>
      advance
      let _ ← JsonText.read
    | '[' | '{' => pure ()
    | _ => fail .malformed
  fail .mistyped

/-- Takes a number. -/
def numeral : Reader Numeral := do
  let c ← peekOr .truncated
  if c = '-' ∨ c.isDigit then Numeral.read else wrongKind c

/-- Takes a double. -/
def float : Reader Float := do
  match (← numeral).toFloat? with
  | some x => return x
  | none => fail .malformed

/-- Takes an integer from `low` to `high`. -/
def int (low high : Int) : Reader Int := do
  match (← numeral).toInt? with
  | some i => if low ≤ i ∧ i ≤ high then return i else fail .mistyped
  | none => fail .mistyped

/-- Takes an integer of 64 bits with a sign. -/
def int64 : Reader Int := int (-pow2 63) (pow2 63 - 1)

/-- Takes an integer of 32 bits without sign. -/
def nat32 : Reader Nat := Int.toNat <$> int 0 (pow2 32 - 1)

/-- Takes a switch. -/
def bool : Reader Bool := do
  match ← peekOr .truncated with
  | 't' => advance; word "rue".toList; return true
  | 'f' => advance; word "alse".toList; return false
  | c => wrongKind c

/-- Takes a string. -/
def string : Reader String := do
  match ← peekOr .truncated with
  | '"' => advance; JsonText.read
  | c => wrongKind c

/-- **Takes a list.** -/
def list (item : Reader β) : Reader (List β) := do
  match ← peekOr .truncated with
  | '[' =>
    advance
    let bs ← elements item ((← get).length + 1) true
    closeArray
    return bs
  | c => wrongKind c

/-- Takes a list as an array. -/
def array (item : Reader β) : Reader (Array β) := List.toArray <$> list item

/-! ## Records -/

/-- A field of a record of which `σ` holds what was read so far. -/
structure FieldReader (σ : Type) where
  name : String
  read : σ → Reader σ

variable {σ : Type}

/-- What was read so far, and the names of the fields it was read from. -/
structure RecordState (σ : Type) where
  value : σ
  seen : List String

/-- Takes the value of field `f`. -/
def RecordState.read (s : RecordState σ) (f : FieldReader σ) : Reader (RecordState σ) := do
  return ⟨← f.read s.value, f.name :: s.seen⟩

/-- Takes one member. A field must not come twice. -/
def member (fields : List (FieldReader σ)) (s : RecordState σ) : Reader (RecordState σ) := do
  advance
  let name ← JsonText.read
  match fields.find? (·.name = name) with
  | some f =>
    if name ∈ s.seen then fail .mistyped
    else
      colon
      s.read f
  | none =>
    colon
    skipValue
    return s

/-- The members of an object, at most `fuel`. -/
def members (fields : List (FieldReader σ)) : Nat → Bool → RecordState σ → Reader (RecordState σ)
  | 0, _, s => return s
  | fuel + 1, first, s => do
    if ← hasMember first then members fields fuel false (← member fields s) else return s

/-- The values of the fields in order, as far as they are there. -/
def values : List (FieldReader σ) → Bool → RecordState σ → Reader (RecordState σ)
  | [], _, s => return s
  | f :: fs, first, s => do
    if ← hasElement first then values fs false (← s.read f) else return s

/-- Refuses a record with a field missing. -/
def checkComplete (fields : List (FieldReader σ)) (s : RecordState σ) : Reader Unit :=
  if fields.all (·.name ∈ s.seen) then return () else fail .mistyped

/-- **Takes a record.** Where `complete` is set no field may be missing. -/
def record (fields : List (FieldReader σ)) (complete : Bool) (start : σ) : Reader σ := do
  match ← peekOr .truncated with
  | '{' =>
    advance
    let s ← members fields ((← get).length + 1) true ⟨start, []⟩
    if complete then checkComplete fields s
    advance
    return s.value
  | '[' =>
    advance
    let s ← values fields true ⟨start, []⟩
    if complete then checkComplete fields s
    closeArray
    return s.value
  | c => wrongKind c

end Reader

end SplitQP
