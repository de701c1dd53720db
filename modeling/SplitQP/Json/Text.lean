import SplitQP.Json.Reader
/-!
# JSON strings

Writing escapes the quote, the backslash and control characters, and
nothing else. Reading takes every escape of the format; a character beyond
sixteen bits may be escaped as a pair of surrogates, and a surrogate
without its partner is an error.
-/

namespace SplitQP

namespace JsonText

/-! ## Writing -/

/-- A hexadecimal digit, lower case. -/
def hexDigit (n : Nat) : Char := Nat.digitChar n

/-- How a character is written. -/
def escape (c : Char) : List Char :=
  if c = '"' then ['\\', '"']
  else if c = '\\' then ['\\', '\\']
  else if c = '\x08' then ['\\', 'b']
  else if c = '\t' then ['\\', 't']
  else if c = '\n' then ['\\', 'n']
  else if c = '\x0c' then ['\\', 'f']
  else if c = '\r' then ['\\', 'r']
  else if c.toNat < 32 then
    ['\\', 'u', '0', '0', hexDigit (c.toNat / 16), hexDigit (c.toNat % 16)]
  else [c]

/-- **A string in quotes.** -/
def write (s : String) : List Char := '"' :: s.toList.flatMap escape ++ ['"']

/-! ## Reading -/

/-- The value of a hexadecimal digit. -/
def hexValue (c : Char) : Option Nat :=
  if '0' ≤ c ∧ c ≤ '9' then some (c.toNat - 48)
  else if 'a' ≤ c ∧ c ≤ 'f' then some (c.toNat - 87)
  else if 'A' ≤ c ∧ c ≤ 'F' then some (c.toNat - 55)
  else none

/-- Whether the text goes on for at least four bytes. -/
def hasFourBytes (cs : List Char) : Bool := 4 ≤ (cs.take 4).foldl (fun n c => n + c.utf8Size) 0

/-- Four hexadecimal digits as a number. -/
def hexQuad (cs : List Char) : Except JsonError (Nat × List Char) :=
  if hasFourBytes cs then
    match (cs.take 4).mapM hexValue with
    | some [a, b, c, d] => .ok (((a * 16 + b) * 16 + c) * 16 + d, cs.drop 4)
    | _ => .error .malformed
  else .error .truncated

/-- A surrogate that begins a pair. -/
def isHigh (n : Nat) : Bool := 0xD800 ≤ n && n < 0xDC00

/-- A surrogate that ends a pair. -/
def isLow (n : Nat) : Bool := 0xDC00 ≤ n && n < 0xE000

/-- The character of a pair of surrogates. -/
def pairValue (high low : Nat) : Char :=
  Char.ofNat ((high - 0xD800) * 0x400 + (low - 0xDC00) + 0x10000)

/-- The second half of a pair, escaped like the first. -/
def lowHalf (high : Nat) : List Char → Except JsonError (Char × List Char)
  | [] | ['\\'] => .error .truncated
  | '\\' :: 'u' :: rest => do
    let (low, rest) ← hexQuad rest
    if isLow low then return (pairValue high low, rest) else throw .malformed
  | _ => .error .malformed

/-- The character of an escape behind its `u`. -/
def hexEscape (cs : List Char) : Except JsonError (Char × List Char) := do
  let (n, rest) ← hexQuad cs
  if isLow n then throw .malformed
  else if isHigh n then lowHalf n rest
  else return (Char.ofNat n, rest)

/-- The character a one-letter escape stands for. -/
def shortEscape : Char → Option Char
  | '"' => some '"'
  | '\\' => some '\\'
  | '/' => some '/'
  | 'b' => some '\x08'
  | 'f' => some '\x0c'
  | 'n' => some '\n'
  | 'r' => some '\r'
  | 't' => some '\t'
  | _ => none

/-- The character of an escape behind its backslash. -/
def unescape : List Char → Except JsonError (Char × List Char)
  | [] => .error .truncated
  | 'u' :: rest => hexEscape rest
  | c :: rest =>
    match shortEscape c with
    | some d => .ok (d, rest)
    | none => .error .malformed

/-- The next character of a string, or none at its closing quote. -/
def next : List Char → Except JsonError (Option Char × List Char)
  | [] => .error .truncated
  | '"' :: rest => .ok (none, rest)
  | '\\' :: rest => (unescape rest).map fun (c, rest) => (some c, rest)
  | c :: rest => if c.toNat < 32 then .error .malformed else .ok (some c, rest)

/-- The characters up to the closing quote; `fuel` bounds their number. -/
def body : Nat → List Char → Except JsonError (List Char × List Char)
  | 0, _ => .error .truncated
  | fuel + 1, cs => do
    match ← next cs with
    | (none, rest) => return ([], rest)
    | (some c, rest) =>
      let (more, rest) ← body fuel rest
      return (c :: more, rest)

/-- **A string whose opening quote is taken.** -/
def read : Reader String := do
  let cs ← get
  let (s, rest) ← (body (cs.length + 1) cs : Except JsonError _)
  set rest
  return String.ofList s

/-! ## Skipping -/

/-- As `next`, where the characters do not matter: surrogates need no partner. -/
def skipNext : List Char → Except JsonError (Bool × List Char)
  | [] => .error .truncated
  | '"' :: rest => .ok (false, rest)
  | ['\\'] => .error .truncated
  | '\\' :: 'u' :: rest => (hexQuad rest).map fun (_, rest) => (true, rest)
  | '\\' :: c :: rest => if (shortEscape c).isSome then .ok (true, rest) else .error .malformed
  | c :: rest => if c.toNat < 32 then .error .malformed else .ok (true, rest)

/-- Skips to behind the closing quote; `fuel` bounds the number of characters. -/
def skipBody : Nat → List Char → Except JsonError (List Char)
  | 0, _ => .error .truncated
  | fuel + 1, cs => do
    match ← skipNext cs with
    | (false, rest) => return rest
    | (true, rest) => skipBody fuel rest

/-- Skips a string whose opening quote is taken. -/
def skip : Reader Unit := do
  let cs ← get
  set (← (skipBody (cs.length + 1) cs : Except JsonError _))

end JsonText

end SplitQP
