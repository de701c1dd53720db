import SplitQP.Number.Shortest
import SplitQP.Number.TimeSpan
import SplitQP.Output.Journal
import SplitQP.Output.PrintTarget
import SplitQP.Admm.Solver
/-!
# Progress text

The events of a run as text: the program and the settings, a table with
one row per check, and the result. Exponents in the table have a sign and
at least two digits. Nothing is printed unless the settings ask for it;
text that cannot be written is remarked on and otherwise ignored.
-/

namespace SplitQP

namespace Progress

/-- Version of the solver, as its text names it. -/
def version : String := "0.3.0"

/-- A horizontal rule. -/
def rule : String := String.ofList (List.replicate 65 '-')

/-- Lines written together. Once a line is refused the rest is dropped. -/
structure Block where
  lines : List String
  flush : Bool

/-! ## Numbers -/

/-- Gives the exponent of scientific text a sign and at least two digits. -/
def padExponent (s : String) : String :=
  let cs := s.toList
  let head := cs.takeWhile (· ≠ 'e')
  match cs.dropWhile (· ≠ 'e') with
  | [] => s
  | _ :: rest =>
    let (sign, ds) := match rest with
      | '-' :: ds => ('-', ds)
      | ds => ('+', ds)
    String.ofList (head ++ 'e' :: sign :: List.replicate (2 - ds.length) '0' ++ ds)

/-- `s` at the right end of `width` places. -/
def padLeft (width : Nat) (s : String) : String :=
  String.ofList (List.replicate (width - s.length) ' ') ++ s

/-- A table entry. A number that is not finite takes at least `width` places. -/
def cell (width places : Nat) (plus : Bool) (x : Float) : String :=
  let s := Decimal.scientific places x plus
  if x.isFinite then padExponent s else padLeft width s

/-- "on" or "off". -/
def onOff (b : Bool) : String := if b then "on" else "off"

/-- The span of so many seconds; a reading that is none counts as no time. -/
def spanOf (seconds : Float) : TimeSpan := (TimeSpan.ofSeconds seconds).toOption.getD ⟨0⟩

/-! ## Blocks -/

/-- The time limit. Zero is none; anything else must be a span of time. -/
def timeLimitText (limit : Float) : Checked String :=
  if limit == 0.0 then return "none" else return (← TimeSpan.ofSeconds limit).text

/-- The adaptation of the step size. -/
def adaptiveRhoText (set : Settings Float) : String :=
  if set.adaptiveRho then
    s!"on, interval = {set.adaptiveRhoInterval}, tolerance = " ++
      Decimal.fixed 1 set.adaptiveRhoTolerance
  else "off"

/-- A number with `places` places and an exponent as it comes. -/
def sci (places : Nat) (x : Float) : String := Decimal.scientific places x false

/-- The program and the settings. -/
def configuration (p : Problem Float) (set : Settings Float) : Checked (List String) := do
  let limit ← timeLimitText set.timeLimit
  return [
    rule,
    s!"           qpbridge v{version}  -  ADMM quadratic program solver",
    rule,
    "problem:",
    s!"  variables     = {p.n}",
    s!"  constraints   = {p.m}",
    s!"  nnz(P)        = {p.P.value.size}",
    s!"  nnz(A)        = {p.A.value.size}",
    "",
    "settings:",
    "  linear algebra: direct / ldl, precision: 64 bit",
    s!"  max iter = {set.maxIter}, time limit = {limit}",
    "  eps_abs = " ++ sci 1 set.epsAbs ++ ", eps_rel = " ++ sci 1 set.epsRel ++ ",",
    "  eps_prim_inf = " ++ sci 1 set.epsPrimInf ++ ", eps_dual_inf = " ++
      sci 1 set.epsDualInf ++ ",",
    "  rho = " ++ sci 2 set.rho ++ ", sigma = " ++ sci 2 set.sigma ++ ", alpha = " ++
      Decimal.fixed 2 set.alpha,
    "  adaptive rho: " ++ adaptiveRhoText set,
    "  scaling: " ++ onOff (0 < set.scaling) ++ s!", iterations = {set.scaling}",
    "  polish: " ++ onOff set.polish ++ ", delta = " ++ sci 1 set.delta ++
      s!", refine iter = {set.polishRefineIter}",
    s!"  check termination: every {set.checkTermination} iter",
    ""]

/-- The head of the table. -/
def header : List String :=
  ["iter   objective    prim res   dual res   rho        time", rule]

/-- A row of the table. -/
def row (info : Info Float) (rho : Float) (clock : Clock Float) : String :=
  padLeft 4 (toString info.iterations) ++ "  " ++
    cell 8 4 true info.objective ++ "  " ++
    cell 6 2 false info.primRes ++ "  " ++
    cell 6 2 false info.dualRes ++ "  " ++
    cell 6 2 false rho ++ "  " ++
    (spanOf (clock.solve info.iterations)).brief

/-- Setup, solve and polish time. -/
def times (info : Info Float) (clock : Clock Float) : String :=
  let polish := if info.polish = .notPerformed then 0.0 else clock.polish
  "setup time = " ++ (spanOf clock.setup).text ++
    ", solve time = " ++ (spanOf (clock.solve info.iterations)).text ++
    ", polish time = " ++ (spanOf polish).text

/-- The result. -/
def footer (info : Info Float) (clock : Clock Float) : List String :=
  [rule, s!"Terminated with status = {info.status.name}",
    s!"number of iterations   = {info.iterations}"] ++
  (if info.status.hasSolution then
    ["optimal objective      = " ++ cell 0 4 false info.objective] else []) ++
  (if info.polish = .notPerformed then []
    else [s!"solution polishing     = {info.polish.name}"]) ++
  (if 0 < info.rhoUpdates then [s!"rho updates            = {info.rhoUpdates}"] else []) ++
  [times info clock]

/-- The text of an event. -/
def blocks (p : Problem Float) (set : Settings Float) (clock : Clock Float) :
    Event Float → Checked (List Block)
  | .started => return [⟨← configuration p set, false⟩, ⟨header, true⟩]
  | .checked info rho => return [⟨[row info rho clock], false⟩]
  | .finished info => return [⟨footer info clock, true⟩]
  | .noted _ => return []

/-- The remark of a note. -/
def noteText : Note Float → String
  | .setUp n m nnzP nnzA =>
    s!"ADMM setup done: n = {n}, m = {m}, nnz(P) = {nnzP}, nnz(A) = {nnzA}"
  | .crossedBounds => "lower bound exceeds upper bound, skipping iteration"
  | .rhoUpdated rho iteration =>
    "rho updated to " ++ Shortest.exponent rho ++ s!" at iteration {iteration}"
  | .polishNotFactored e => s!"polish factorisation failed: {e.message}"
  | .polished status => s!"polish: {status.name}"
  | .aborted e => s!"solve aborted: {e.message}"

/-! ## Telling -/

/-- What telling about runs has done: the target, the outlets, the remarks. -/
structure Told where
  target : PrintTarget
  outlets : Outlets
  journal : Journal

/-- Writes lines up to the first one refused. -/
def writeLines : List String → PrintTarget → Outlets → Except String Unit × PrintTarget × Outlets
  | [], t, o => (.ok (), t, o)
  | line :: rest, t, o =>
    match t.writeAll (line ++ "\n").toUTF8 o with
    | (.ok (), t, o) => writeLines rest t o
    | failed => failed

/-- Writes a block. A refusal is remarked on and ends the block. -/
def tellBlock (s : Told) (b : Block) : Told :=
  let (r, t, o) := writeLines b.lines s.target s.outlets
  let (r, o) := match r, b.flush with
    | .ok (), true => t.flush o
    | r, _ => (r, o)
  let journal := match r with
    | .ok () => s.journal
    | .error e => s.journal.add .warn s!"failed to write solver output: {e}"
  ⟨t, o, journal⟩

/-- Tells about one event. -/
def tell (p : Problem Float) (set : Settings Float) (clock : Clock Float) (s : Told)
    (event : Event Float) : Checked Told := do
  match event with
  | .noted note => return { s with journal := s.journal.add .debug (noteText note) }
  | event =>
    if set.verbose then return (← blocks p set clock event).foldl tellBlock s
    else return s

/-- Tells about the events of a run. -/
def tellAll (p : Problem Float) (set : Settings Float) (clock : Clock Float) (s : Told)
    (events : List (Event Float)) : Checked Told :=
  events.foldlM (tell p set clock) s

end Progress

/-- **Runs the solver and tells about it.** What is told depends on the run, and
the run on nothing that is told. -/
def Solver.runTold (s : Solver Float) (clock : Clock Float) (told : Progress.Told) :
    Checked (Solver Float × Except SolveError Unit × Progress.Told) := do
  let stage ← s.run clock
  let told ← Progress.tellAll s.problem s.settings clock told stage.events
  return (stage.solver, stage.result, told)

end SplitQP
