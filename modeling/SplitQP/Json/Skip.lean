import SplitQP.Json.Text
import SplitQP.Json.Numeral
/-!
# Skipping a JSON value

A value nobody asks for is skipped, whatever it is and however deeply it
nests, if it is well formed. The brackets still open are kept in a list.
-/

namespace SplitQP

namespace JsonSkip

/-- A bracket that is open. -/
inductive Bracket where
  | array
  | object
  deriving DecidableEq, Repr

/-- The character that closes it. -/
def Bracket.close : Bracket → Char
  | array => ']'
  | object => '}'

/-- Takes a value without brackets, or an opening bracket. -/
def start : Reader (Option Bracket) := do
  let c ← Reader.peekOr .truncated
  if c = '-' ∨ c.isDigit then Numeral.skip; return none
  else
    Reader.advance
    match c with
    | 'n' => Reader.word "ull".toList; return none
    | 't' => Reader.word "rue".toList; return none
    | 'f' => Reader.word "alse".toList; return none
    | '"' => JsonText.skip; return none
    | '[' => return some .array
    | '{' => return some .object
    | _ => Reader.fail .malformed

/-- Takes closing brackets while they come, and the comma before a further
value. Answers the brackets still open. `fresh` says that the innermost one
was opened just now. -/
def finish : Bool → List Bracket → Reader (List Bracket)
  | _, [] => return []
  | fresh, b :: bs => do
    let c ← Reader.peekOr .truncated
    if c = b.close then
      Reader.advance
      finish false bs
    else if fresh then return b :: bs
    else if c = ',' then
      Reader.advance
      return b :: bs
    else Reader.fail .malformed

/-- Takes the name of a member and the colon behind it. -/
def memberName : Reader Unit := do
  if (← Reader.peekOr .truncated) = '"' then
    Reader.advance
    JsonText.skip
    Reader.colon
  else Reader.fail .malformed

/-- Skips a value and what follows it in the open brackets; `fuel` bounds the
number of values. -/
def values : Nat → List Bracket → Reader Unit
  | 0, _ => return ()
  | fuel + 1, brackets => do
    let opened ← start
    let rest ← match opened with
      | some b => finish true (b :: brackets)
      | none => finish false brackets
    match rest with
    | [] => return ()
    | b :: _ =>
      if b = .object then memberName
      values fuel rest

end JsonSkip

/-- **Skips a value.** -/
def Reader.skipValue : Reader Unit := do
  JsonSkip.values ((← get).length + 1) []

end SplitQP
