/-!
# Reading JSON

A reader takes a value of a known kind off the front of a text. Text is
read from left to right and checked against the kind as it goes, so the
first thing wrong is the one reported. The alphabet of readers is here:
blanks, words, and the two kinds of brackets with commas between.
-/

namespace SplitQP

/-- What is wrong with a text. -/
inductive JsonError where
  /-- It is not JSON. -/
  | malformed
  /-- It is JSON for something else. -/
  | mistyped
  /-- It ends too early. -/
  | truncated
  deriving DecidableEq, Repr

/-- Takes a value off the front of a text. -/
abbrev Reader (β : Type) : Type := StateT (List Char) (Except JsonError) β

namespace Reader

variable {β : Type}

/-- Stops with an error. -/
def fail (e : JsonError) : Reader β := throw e

/-- Between two values. -/
def isBlank (c : Char) : Bool := c = ' ' || c = '\t' || c = '\n' || c = '\r'

/-- The next character that is not blank, which is left in place. -/
def peek : Reader (Option Char) := do
  modify (·.dropWhile isBlank)
  return (← get).head?

/-- As `peek`, where the text must not end with error `e`. -/
def peekOr (e : JsonError) : Reader Char := do
  match ← peek with
  | some c => return c
  | none => fail e

/-- Takes one character. -/
def advance : Reader Unit := modify List.tail

/-- Takes the character `c` if it comes next. -/
def takeIf (p : Char → Bool) : Reader Bool := do
  match ← get with
  | c :: rest => if p c then set rest; return true else return false
  | [] => return false

/-- Takes the letters of a word. -/
def word : List Char → Reader Unit
  | [] => return ()
  | c :: cs => do
    match ← get with
    | [] => fail .truncated
    | d :: rest => if c = d then set rest; word cs else fail .malformed

/-- The value of `read` if the rest of the text is blank. -/
def readAll (read : Reader β) (text : String) : Except JsonError β := do
  let (b, rest) ← read.run text.toList
  if rest.all isBlank then return b else throw .malformed

/-! ## Arrays -/

/-- Whether another element follows; `first` says that none came before. A
bracket that closes the array is left in place. -/
def hasElement (first : Bool) : Reader Bool := do
  let c ← peekOr .truncated
  if c = ']' then return false
  else if first then return true
  else if c = ',' then
    advance
    if (← peekOr .truncated) = ']' then fail .malformed else return true
  else fail .malformed

/-- Takes the bracket that closes an array. -/
def closeArray : Reader Unit := do
  if (← peekOr .truncated) = ']' then advance else fail .malformed

/-- The elements of an array, at most `fuel`. -/
def elements (item : Reader β) : Nat → Bool → Reader (List β)
  | 0, _ => return []
  | fuel + 1, first => do
    if ← hasElement first then
      let b ← item
      return b :: (← elements item fuel false)
    else return []

/-! ## Objects -/

/-- Whether another member follows; `first` says that none came before. A
bracket that closes the object is left in place. -/
def hasMember (first : Bool) : Reader Bool := do
  let c ← peekOr .truncated
  if c = '}' then return false
  else if first then
    if c = '"' then return true else fail .malformed
  else if c = ',' then
    advance
    if (← peekOr .truncated) = '"' then return true else fail .malformed
  else fail .malformed

/-- Takes the colon between a name and its value. -/
def colon : Reader Unit := do
  if (← peekOr .truncated) = ':' then advance else fail .malformed

end Reader

end SplitQP
