import SplitQP.Text.Utf8
/-!
# Where progress text goes

Text is written to the standard output, a file, a stream of the caller's,
a buffer of the target's own, or nowhere. The first three are outlets
outside the library; what reached them is kept with them. An outlet may
refuse an operation. Standard output takes a long unfinished line in a
write of its own.
-/

namespace SplitQP

/-- A place outside the library that text is written to. -/
structure Outlet where
  /-- What has been written. -/
  delivered : ByteArray := .empty
  /-- The coming operations that are refused, and why; once it is used up none
  is. -/
  refusals : List (Option String) := []

namespace Outlet

/-- The verdict on the next operation. -/
def next (o : Outlet) : Option String × Outlet :=
  match o.refusals with
  | [] => (none, o)
  | r :: rest => (r, { o with refusals := rest })

/-- Writes all of `bytes`, or none where refused. -/
def write (o : Outlet) (bytes : ByteArray) : Except String Unit × Outlet :=
  match o.next with
  | (none, o) => (.ok (), { o with delivered := o.delivered ++ bytes })
  | (some e, o) => (.error e, o)

/-- Has everything written pass on. -/
def flush (o : Outlet) : Except String Unit × Outlet :=
  match o.next with
  | (none, o) => (.ok (), o)
  | (some e, o) => (.error e, o)

/-- What was written since the last time. -/
def drain (o : Outlet) : ByteArray × Outlet := (o.delivered, { o with delivered := .empty })

end Outlet

/-- The three outlets. -/
structure Outlets where
  stdout : Outlet := {}
  file : Outlet := {}
  stream : Outlet := {}

/-- Where text goes. -/
inductive PrintTarget where
  | stdout
  | file
  | buffer (contents : ByteArray)
  | stream
  /-- Nowhere. -/
  | sink

namespace PrintTarget

/-- The target of a new solver. -/
def default : PrintTarget := .stdout

/-- The name of the target. -/
def describe : PrintTarget → String
  | stdout => "PrintTarget::Stdout"
  | file => "PrintTarget::File"
  | buffer _ => "PrintTarget::Buffer"
  | stream => "PrintTarget::Stream"
  | sink => "PrintTarget::Sink"

/-- How much of `bytes` standard output accepts in one write: not an
unfinished line of a kilobyte or more behind a finished one. -/
def acceptedLines (bytes : ByteArray) : Nat :=
  let tail := (bytes.toList.reverse.takeWhile (· ≠ 10)).length
  if tail < bytes.size ∧ 1024 ≤ tail then bytes.size - tail else bytes.size

/-- Writes all of `bytes`. -/
def writeAll (t : PrintTarget) (bytes : ByteArray) (o : Outlets) :
    Except String Unit × PrintTarget × Outlets :=
  match t with
  | stdout => let (r, x) := o.stdout.write bytes; (r, t, { o with stdout := x })
  | file => let (r, x) := o.file.write bytes; (r, t, { o with file := x })
  | stream => let (r, x) := o.stream.write bytes; (r, t, { o with stream := x })
  | buffer contents => (.ok (), .buffer (contents ++ bytes), o)
  | sink => (.ok (), t, o)

/-- **One write.** Answers how many bytes were accepted. -/
def write (t : PrintTarget) (bytes : ByteArray) (o : Outlets) :
    Except String Nat × PrintTarget × Outlets :=
  let count := match t with
    | stdout => acceptedLines bytes
    | _ => bytes.size
  let (r, t, o) := t.writeAll (bytes.extract 0 count) o
  (r.map fun _ => count, t, o)

/-- Has everything written pass on. -/
def flush (t : PrintTarget) (o : Outlets) : Except String Unit × Outlets :=
  match t with
  | stdout => let (r, x) := o.stdout.flush; (r, { o with stdout := x })
  | file => let (r, x) := o.file.flush; (r, { o with file := x })
  | stream => let (r, x) := o.stream.flush; (r, { o with stream := x })
  | buffer _ | sink => (.ok (), o)

/-- The text in the buffer; only a buffer has any. -/
def bufferText : PrintTarget → Except String String
  | buffer contents => .ok (Utf8.decodeLossy contents)
  | _ => .error "Print buffering is not configured."

end PrintTarget

end SplitQP
