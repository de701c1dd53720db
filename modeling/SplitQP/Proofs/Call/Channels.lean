import SplitQP.Proofs.Call.Outputs
import SplitQP.Proofs.Output.LogFile
/-!
# Where the text of a call goes

Text goes to the log where a session opens one, and to the standard output
otherwise. A history delivers a text (`History.Delivers`) where all of it
arrives there and none of it at the other place, and where no other file is
touched. Every call does so with what its backend says, whatever the backend
(`Call.solve_delivers`), and also where the backend faults.
-/

namespace SplitQP

variable {α : Type}

/-! ## Steps that reach a channel -/

namespace Step

/-- The step opens, closes or refuses a log, or is text. -/
def isChannel : Step α → Bool
  | log _ | logged _ | printed _ => true
  | _ => false

/-- Text as a step. -/
def ofText (hasLog : Bool) (bytes : ByteArray) : Step α :=
  if hasLog then logged bytes else printed bytes

end Step

/-- The text of an utterance. -/
def Utterance.text? : Utterance → Option ByteArray
  | text bytes => some bytes
  | remark _ => none

namespace Backend

variable {b : Backend α} {p : Program α} {settings : Settings α} {hasLog : Bool}

/-- The texts among what a backend says. -/
def texts (b : Backend α) (p : Program α) (settings : Settings α) (hasLog : Bool) :
    List ByteArray := (b.said p settings hasLog).filterMap Utterance.text?

theorem texts_of_setup_fault {f : Fault} (h : (b.setup p settings hasLog).ending = .error f) :
    b.texts p settings hasLog =
      (b.setup p settings hasLog).steps.filterMap Utterance.text? := by
  rw [texts, said, h, List.append_nil]

theorem texts_of_setup_error {code : Int}
    (h : (b.setup p settings hasLog).ending = .ok (.error code)) : b.texts p settings hasLog =
      (b.setup p settings hasLog).steps.filterMap Utterance.text? := by
  rw [texts, said, h, List.append_nil]

theorem texts_of_setup {w : b.Workspace} (h : (b.setup p settings hasLog).ending = .ok (.ok w)) :
    b.texts p settings hasLog = (b.setup p settings hasLog).steps.filterMap Utterance.text? ++
      (b.solve w).steps.filterMap Utterance.text? := by
  rw [texts, said_of_setup h, List.filterMap_append]

end Backend

/-- Texts one behind the other. -/
def joined (texts : List ByteArray) : ByteArray := texts.foldl (· ++ ·) .empty

namespace History

/-- The steps that reach a channel. -/
def channel (h : History α) : History α := h.filter Step.isChannel

@[simp] theorem channel_append (h k : History α) : channel (h ++ k) = channel h ++ channel k :=
  List.filter_append ..

/-- What no other step changes depends on the channel only. -/
theorem foldl_channel {β : Type} {f : β → Step α → β}
    (hf : ∀ b s, s.isChannel = false → f b s = b) (h : History α) (b : β) :
    (channel h).foldl f b = h.foldl f b := by
  rw [channel, List.foldl_filter]
  refine List.foldl_ext _ _ _ fun b s _ => ?_
  split
  · rfl
  · rename_i hs
    exact (hf b s (Bool.eq_false_of_not_eq_true hs)).symm

/-- Standard output depends on the channel only. -/
theorem output_channel (h : History α) : output (channel h) = output h := by
  rw [output, output]
  refine foldl_channel (fun out s hs => ?_) h _
  cases s with
  | printed => cases hs
  | _ => rfl

/-- The logs depend on the channel only. -/
theorem logs_channel (h : History α) (start : LogStore) :
    logs start (channel h) = logs start h := by
  refine congrArg LogStore.settle (foldl_channel (fun store s hs => ?_) h start)
  cases s with
  | log | logged => cases hs
  | _ => rfl

theorem channel_of_preliminary {h : History α} (hprelim : ∀ s ∈ h, s.IsPreliminary) :
    channel h = [] := by
  refine List.filter_eq_nil_iff.mpr fun s hs => ?_
  have hs := hprelim s hs
  cases s with
  | called | acquired | released | built | assembled | assigned | refused =>
    exact Bool.false_ne_true
  | _ => exact hs.elim

theorem channel_hear (hasLog : Bool) (us : List Utterance) :
    channel (us.map (Session.hear hasLog : Utterance → Step α)) =
      (us.filterMap Utterance.text?).map (Step.ofText hasLog) := by
  induction us with
  | nil => rfl
  | cons u us ih =>
    cases u with
    | remark r => exact ih
    | text bytes =>
      cases hasLog with
      | true => exact congrArg (Step.logged bytes :: ·) ih
      | false => exact congrArg (Step.printed bytes :: ·) ih

theorem channel_of_writes {h : History α} (hwrites : ∀ s ∈ h, s.write?.isSome) :
    channel h = [] := by
  refine List.filter_eq_nil_iff.mpr fun s hs => ?_
  have hs := hwrites s hs
  cases s with
  | primalWritten | dualWritten => exact Bool.false_ne_true
  | _ => cases hs

end History

/-! ## Sessions -/

namespace Session

variable {b : Backend α} {p : Program α} {settings : Settings α} {hasLog : Bool}
  {primal dual : Array α} {refusal : String → Option String} {path : String}

theorem channel_working (w : b.Workspace)
    (hsetup : (b.setup p settings hasLog).ending = .ok (.ok w)) (rest : History α) :
    History.channel (working b p settings hasLog w rest) =
      (b.texts p settings hasLog).map (Step.ofText hasLog) ++ History.channel rest := by
  have hmoved : ∀ k : History α, History.channel
      (.moved .configured .ready :: .happened .workspaceReady :: k) = History.channel k :=
    fun _ => rfl
  rw [working, History.channel_append, hmoved, History.channel_append, History.channel_hear,
    History.channel_hear, Backend.texts_of_setup hsetup, List.map_append, List.append_assoc]

/-- **Setting up and solving** pass the texts on, in order. -/
theorem channel_solve : History.channel (solve b p settings hasLog primal dual).steps =
    (b.texts p settings hasLog).map (Step.ofText hasLog) := by
  have hsolving := solving_solve b p settings hasLog primal dual
  generalize solve b p settings hasLog primal dual = course at hsolving
  have hwritten : ∀ solution, History.channel (handOver primal dual solution).steps = [] :=
    fun solution => History.channel_of_writes (handOver_takes solution)
  cases hsolving with
  | setupFaulted hsetup =>
    rw [History.channel_hear, Backend.texts_of_setup_fault hsetup]
  | notSetUp hsetup =>
    rw [History.channel_append, History.channel_hear, Backend.texts_of_setup_error hsetup]
    exact List.append_nil _
  | solveFaulted hsetup hsolve =>
    rw [channel_working _ hsetup]
    exact List.append_nil _
  | brokeOff hsetup hsolve hexit =>
    rw [channel_working _ hsetup]
    exact List.append_nil _
  | solved hsetup hsolve hfits =>
    rw [channel_working _ hsetup, History.channel_append, hwritten]
    exact List.append_nil _
  | misfit hsetup hsolve hfits =>
    rw [channel_working _ hsetup, hwritten, List.append_nil]

theorem channel_openLog (refusal : String → Option String) (path : String) :
    (opensLog refusal path = true →
      History.channel (openLog (α := α) refusal path).steps = [.log (.opened path)]) ∧
    (opensLog refusal path = false →
      History.channel (openLog (α := α) refusal path).steps = [] ∨ ∃ reason,
        History.channel (openLog (α := α) refusal path).steps = [.log (.refused path reason)]) := by
  by_cases hpath : path = ""
  · have hevent : LogEvent.ofPath? refusal path = none := if_pos hpath
    rw [openLog, opensLog, hevent]
    exact ⟨(fun h => by cases h), fun _ => .inl rfl⟩
  · cases hrefusal : refusal path with
    | none =>
      have hevent : LogEvent.ofPath? refusal path = some (.opened path) := by
        rw [LogEvent.ofPath?, if_neg hpath, hrefusal]
      rw [openLog, opensLog, hevent]
      exact ⟨fun _ => rfl, (fun h => by cases h)⟩
    | some reason =>
      have hevent : LogEvent.ofPath? refusal path = some (.refused path reason) := by
        rw [LogEvent.ofPath?, if_neg hpath, hrefusal]
      rw [openLog, opensLog, hevent]
      exact ⟨(fun h => by cases h), fun _ => .inr ⟨reason, rfl⟩⟩

theorem channel_closing (p : Program α) (hasLog : Bool) (state : SessionState) :
    History.channel (closing p hasLog state) = if hasLog then [.log .closed] else [] := by
  have hreleased := History.channel_of_preliminary (History.isPreliminary_released (α := α) p.tags)
  have hsettings : ∀ k : History α, History.channel (.happened .settingsReleased :: k) =
      History.channel k := fun _ => rfl
  rw [closing, hsettings, History.channel_append, hreleased]
  cases hasLog with
  | false => rfl
  | true => rfl

/-- **A session** opens its log, passes the texts on, and closes it unless the backend
faulted. -/
theorem channel_run (refusal : String → Option String) (path : String) (settings : Settings α)
    (state : SessionState) (hfit : Fit b p primal dual) :
    ∃ ending : History α,
      History.channel (run b refusal state p settings path primal dual).steps =
        History.channel (openLog refusal path).steps ++
          ((b.texts p settings (opensLog refusal path)).map
            (Step.ofText (opensLog refusal path)) ++ ending) ∧
      (ending = [] ∨ opensLog refusal path = true ∧ ending = [.log .closed]) := by
  have hmoved : ∀ k : History α, History.channel (.moved state .configured :: k) =
      History.channel k := fun _ => rfl
  rw [run_of_fit hfit]
  cases (solve b p settings (opensLog refusal path) primal dual).ending with
  | error f =>
    refine ⟨[], ?_, .inl rfl⟩
    dsimp only
    rw [hmoved, History.channel_append, History.channel_append, channel_solve,
      History.channel_of_preliminary (History.isPreliminary_released p.tags)]
  | ok r =>
    refine ⟨if opensLog refusal path then [.log .closed] else [], ?_, ?_⟩
    · dsimp only
      rw [hmoved, History.channel_append, History.channel_append, channel_solve, channel_closing]
    · cases opensLog refusal path with
      | false => exact .inl rfl
      | true => exact .inr ⟨rfl, rfl⟩

end Session

/-! ## Delivery -/

namespace LogStore.Holds

variable {s start : LogStore} {path : String} {file waiting : ByteArray}

/-- **Texts written one after the other** come one behind the other. -/
theorem texts (h : Holds start path file waiting s) (texts : List ByteArray) :
    ∃ file' waiting', Holds start path file' waiting'
        ((texts.map (Step.logged (α := α))).foldl Step.toLogs s) ∧
      file' ++ waiting' = texts.foldl (· ++ ·) (file ++ waiting) := by
  induction texts generalizing s file waiting with
  | nil => exact ⟨file, waiting, h, rfl⟩
  | cons bytes texts ih =>
    obtain ⟨file₁, waiting₁, hwrite, htext⟩ := h.write bytes
    obtain ⟨file₂, waiting₂, hrest, htexts⟩ := ih hwrite
    refine ⟨file₂, waiting₂, hrest, ?_⟩
    rw [htexts, htext]
    rfl

end LogStore.Holds

namespace History

/-- **A text is delivered whole,** to the log at `path` if it was opened, and otherwise to
the standard output; never to both, and to no other file. -/
structure Delivers (h : History α) (path : String) (opened : Bool) (text : ByteArray) : Prop where
  opened_iff : Step.log (.opened path) ∈ h ↔ opened = true
  output_eq : output h = if opened then .empty else text
  log_eq : ∀ start : LogStore, start.Idle → opened = true →
    (logs start h).contents? path = some text
  others_eq : ∀ start : LogStore, start.Idle → ∀ other, opened = false ∨ other ≠ path →
    (logs start h).contents? other = start.contents? other
  idle : ∀ start : LogStore, start.Idle → (logs start h).Idle

variable {h : History α} {path : String} {text : ByteArray}

theorem mem_channel {s : Step α} (hs : s.isChannel = true) : s ∈ channel h ↔ s ∈ h :=
  List.mem_filter.trans (and_iff_left hs)

theorem output_ofText (hasLog : Bool) (texts : List ByteArray) :
    output (texts.map (Step.ofText (α := α) hasLog)) =
      if hasLog then .empty else joined texts := by
  rw [output, List.foldl_map]
  cases hasLog with
  | true => exact List.foldl_fixed' (fun _ => rfl) texts
  | false => rfl

theorem output_snoc_log (h : History α) (event : LogEvent) :
    output (h ++ [.log event]) = output h := by
  rw [output, List.foldl_append]
  rfl

/-- Text that is printed leaves the logs alone. -/
theorem foldl_toLogs_printed (texts : List ByteArray) (start : LogStore) :
    (texts.map (Step.ofText (α := α) false)).foldl Step.toLogs start = start := by
  rw [List.foldl_map]
  exact List.foldl_fixed' (fun _ => rfl) texts

/-- **Text that is printed** is delivered to the standard output. -/
theorem delivers_of_printed {texts : List ByteArray} {opening : History α}
    (hchannel : channel h = opening ++ texts.map (Step.ofText false))
    (hopening : opening = [] ∨ ∃ reason, opening = [.log (.refused path reason)]) :
    h.Delivers path false (joined texts) := by
  have hlogs : ∀ start : LogStore, start.Idle → logs start h = start := fun start hidle => by
    rw [← logs_channel, hchannel, logs, List.foldl_append]
    rcases hopening with rfl | ⟨reason, rfl⟩ <;>
      exact (congrArg LogStore.settle (foldl_toLogs_printed texts start)).trans hidle.settle
  refine ⟨?_, ?_, fun _ _ hopened => Bool.noConfusion hopened, fun start hidle other _ => ?_,
    fun start hidle => ?_⟩
  · rw [← mem_channel rfl, hchannel]
    refine iff_of_false (fun hmem => ?_) Bool.false_ne_true
    rcases List.mem_append.mp hmem with hmem | hmem
    · rcases hopening with rfl | ⟨reason, rfl⟩
      · cases hmem
      · cases List.mem_singleton.mp hmem
    · obtain ⟨bytes, -, hbytes⟩ := List.mem_map.mp hmem
      cases hbytes
  · have hprinted := output_ofText (α := α) false texts
    rw [← output_channel, hchannel]
    rcases hopening with rfl | ⟨reason, rfl⟩ <;> exact hprinted
  · rw [hlogs start hidle]
  · rw [hlogs start hidle]
    exact hidle

/-- **Text that is logged** is delivered to the log, closed or not. -/
theorem delivers_of_logged {texts : List ByteArray} {ending : History α}
    (hchannel : channel h = [.log (.opened path)] ++ (texts.map (Step.ofText true) ++ ending))
    (hending : ending = [] ∨ ending = [.log .closed]) :
    h.Delivers path true (joined texts) := by
  have hlogs : ∀ start : LogStore, start.Idle →
      LogStore.Holds start path (joined texts) .empty (logs start h) := fun start hidle => by
    obtain ⟨file, waiting, hholds, htexts⟩ := (hidle.create path).texts (α := α) texts
    have htext : file ++ waiting = joined texts := htexts
    rw [← logs_channel, hchannel, logs, List.foldl_append, List.foldl_append, ← htext]
    rcases hending with rfl | rfl
    · exact hholds.settle
    · have hclosed := hholds.close.settle
      rw [ByteArray.append_empty] at hclosed
      exact hclosed
  refine ⟨?_, ?_, fun start hidle _ => (hlogs start hidle).contents,
    fun start hidle other hother => ?_, fun start hidle => (hlogs start hidle).idle_of_flushed⟩
  · rw [← mem_channel rfl, hchannel]
    exact iff_of_true List.mem_cons_self rfl
  · have hlogged := output_ofText (α := α) true texts
    rw [← output_channel, hchannel]
    rcases hending with rfl | rfl
    · rwa [List.append_nil]
    · exact (output_snoc_log (texts.map (Step.ofText true)) .closed).trans hlogged
  · exact (hlogs start hidle).others other (hother.resolve_left Bool.noConfusion)

end History

/-- What reaches the channels in a session is delivered. -/
theorem Session.delivers_of_channel {b : Backend α} {p : Program α} {settings : Settings α}
    {refusal : String → Option String} {path : String} (state : SessionState)
    {primal dual : Array α} (hfit : Fit b p primal dual) {h : History α}
    (h' : History.channel h =
      History.channel (run b refusal state p settings path primal dual).steps) :
    h.Delivers path (opensLog refusal path)
      (joined (b.texts p settings (opensLog refusal path))) := by
  obtain ⟨ending, hchannel, hending⟩ :=
    channel_run refusal path settings state hfit
  obtain ⟨hopened, hrefused⟩ := channel_openLog (α := α) refusal path
  rw [hchannel] at h'
  cases hlog : opensLog refusal path with
  | false =>
    rw [hlog] at h' hending
    obtain rfl : ending = [] := hending.resolve_right fun h => Bool.false_ne_true h.1
    rw [List.append_nil] at h'
    exact History.delivers_of_printed h' (hrefused hlog)
  | true =>
    rw [hopened hlog, hlog] at h'
    exact History.delivers_of_logged h' (hending.imp_right And.right)

/-- **Every call delivers** what its backend says, whole and to one place, if it gets as far as
a session, and otherwise nothing. -/
theorem Call.solve_delivers [RoundingScalar α] (c : Call α) (b : Backend α)
    (refusal : String → Option String) (primal dual : Array α) :
    ((∀ p pairs, (c.loaned primal dual).Marshals p pairs → ¬ Session.Fit b p primal dual) ∧
        History.Delivers (c.solve b refusal primal dual).steps c.logPath false .empty) ∨
      ∃ p pairs, (c.loaned primal dual).Marshals p pairs ∧ Session.Fit b p primal dual ∧
        History.Delivers (c.solve b refusal primal dual).steps c.logPath
          (Session.opensLog refusal c.logPath)
          (joined (b.texts p (.ofAssignments pairs)
            (Session.opensLog refusal c.logPath))) := by
  rcases c.solve_refused_or_ran b refusal primal dual with ⟨hunfit, -, htakes⟩ | hran
  · have hnone := History.channel_of_preliminary htakes
    have hchannel : History.channel (c.solve b refusal primal dual).steps =
        [] ++ List.map (Step.ofText false) [] := hnone
    exact .inl ⟨hunfit, History.delivers_of_printed hchannel (.inl rfl)⟩
  · obtain ⟨p, pairs, before, after, hc, hfit, hhosts, hsolve⟩ := hran
    refine .inr ⟨p, pairs, hc, hfit, Session.delivers_of_channel .uninitialized hfit ?_⟩
    rw [hsolve, History.channel_append, History.channel_append,
      History.channel_of_preliminary hhosts.preliminary_before,
      History.channel_of_preliminary hhosts.preliminary_after, List.nil_append, List.append_nil]

end SplitQP
