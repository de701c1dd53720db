import SplitQP.Output.Journal
/-!
# Log files

A log is a file written through a buffer. It may have several holders;
bytes wait in the buffer until there is no room for more, until they are
flushed, or until the last holder lets go. Opening a log empties its file,
also under those who still hold an earlier log there.
-/

namespace SplitQP

/-- A log that was opened. -/
structure OpenLog where
  path : String
  /-- Where in the file the next bytes go. -/
  position : Nat
  /-- Bytes not passed on yet. -/
  waiting : ByteArray
  holders : Nat

/-- How many bytes can wait. -/
def OpenLog.capacity : Nat := 8192

/-- The bytes passed on, and those that wait, when `bytes` are written behind
bytes that wait. -/
def OpenLog.accept (waiting bytes : ByteArray) : ByteArray × ByteArray :=
  if capacity ≤ bytes.size then (waiting ++ bytes, .empty)
  else if capacity < waiting.size + bytes.size then (waiting, bytes)
  else (.empty, waiting ++ bytes)

/-- The files, and every log opened so far. -/
structure LogStore where
  files : List (String × ByteArray) := []
  logs : Array OpenLog := #[]

namespace LogStore

/-- What a file holds, if it exists. -/
def contents? (s : LogStore) (path : String) : Option ByteArray := s.files.lookup path

/-- Gives a file its contents. -/
def setContents (s : LogStore) (path : String) (bytes : ByteArray) : LogStore :=
  { s with files := (path, bytes) :: s.files.filter (·.1 ≠ path) }

/-- `file` with `bytes` from `position` on; a gap before them is zero. -/
def overwrite (file : ByteArray) (position : Nat) (bytes : ByteArray) : ByteArray :=
  let gap : ByteArray := ⟨Array.replicate (position - file.size) 0⟩
  file.extract 0 position ++ gap ++ bytes ++ file.extract (position + bytes.size) file.size

/-- Opens a log. It is the last of `logs`, with one holder. -/
def create (s : LogStore) (path : String) : LogStore :=
  let s := s.setContents path .empty
  { s with logs := s.logs.push ⟨path, 0, .empty, 1⟩ }

/-- Changes log `k` and passes bytes on to its file. -/
def pass (s : LogStore) (k : Nat) (f : OpenLog → ByteArray × OpenLog) : LogStore :=
  match s.logs[k]? with
  | none => s
  | some log =>
    let (bytes, next) := f log
    let file := (s.contents? log.path).getD .empty
    let next := { next with position := log.position + bytes.size }
    let s := { s with logs := s.logs.modify k fun _ => next }
    if bytes.isEmpty then s
    else s.setContents log.path (overwrite file log.position bytes)

/-- Writes to log `k`. -/
def write (s : LogStore) (k : Nat) (bytes : ByteArray) : LogStore :=
  s.pass k fun log =>
    let (passed, waiting) := OpenLog.accept log.waiting bytes
    (passed, { log with waiting := waiting })

/-- Passes on what waits in log `k`. -/
def flush (s : LogStore) (k : Nat) : LogStore :=
  s.pass k fun log => (log.waiting, { log with waiting := .empty })

/-- One more holder of log `k`. -/
def share (s : LogStore) (k : Nat) : LogStore :=
  { s with logs := s.logs.modify k fun log => { log with holders := log.holders + 1 } }

/-- A holder of log `k` lets go. The last one flushes it. -/
def drop (s : LogStore) (k : Nat) : LogStore :=
  let s := { s with logs := s.logs.modify k fun log => { log with holders := log.holders - 1 } }
  match s.logs[k]? with
  | some log => if log.holders = 0 then s.flush k else s
  | none => s

/-- Closes log `k` for the one who opened it. Who else holds it may go on. -/
def close (s : LogStore) (k : Nat) : LogStore := (s.flush k).drop k

/-- The log opened last. -/
def latest (s : LogStore) : Nat := s.logs.size - 1

/-- Lets everybody go. -/
def settle (s : LogStore) : LogStore := (List.range s.logs.size).foldl flush s

end LogStore

/-- What happens to a log as a whole. -/
inductive LogEvent where
  | opened (path : String)
  | refused (path : String) (reason : String)
  | closed
  deriving DecidableEq, Repr

namespace LogEvent

/-- What opening a log comes to; without a path none is wanted. `refusal` says
why a path cannot be written to. -/
def ofPath? (refusal : String → Option String) (path : String) : Option LogEvent :=
  if path = "" then none
  else match refusal path with
    | none => some (opened path)
    | some reason => some (refused path reason)

/-- The remark on it. -/
def remark : LogEvent → Remark
  | opened path => ⟨.debug, s!"opened diagnostic log {path}"⟩
  | refused path reason => ⟨.warn, s!"cannot open diagnostic log {path}: {reason}"⟩
  | closed => ⟨.debug, "closed diagnostic log"⟩

/-- What the user is told about it. -/
def complaint? : LogEvent → Option String
  | refused path reason => some s!"Cannot open log file [{path}]: {reason}"
  | _ => none

end LogEvent

/-- The log that comes of an event, if it opens one. -/
def LogStore.opened (s : LogStore) : LogEvent → Option Nat × LogStore
  | .opened path => (some s.logs.size, s.create path)
  | _ => (none, s)

end SplitQP
