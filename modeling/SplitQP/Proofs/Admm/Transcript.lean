import SplitQP.Proofs.Admm.Progress
import SplitQP.Call.Narration
/-!
# The text of a run

What is printed about a run is a list of lines (`Progress.transcript`). A
buffer, which refuses nothing, takes all of them in order (`tellAll_buffer`).
The clock only shows in the times at the end of some lines: the transcripts of
the same events on two clocks are alike but for those (`transcript_clock`).
-/

namespace SplitQP

open Checked

namespace Progress

variable {p : Problem Float} {set : Settings Float} {clock clock' : Clock Float}

/-! ## Lines -/

/-- Lines as they are printed. -/
def text (lines : List String) : ByteArray := (String.join (lines.map (· ++ "\n"))).toUTF8

/-- The lines about an event. -/
def linesOf (p : Problem Float) (set : Settings Float) (clock : Clock Float)
    (event : Event Float) : Checked (List String) :=
  if set.verbose then (blocks p set clock event).map (List.flatMap Block.lines) else .ok []

/-- **All lines about a run,** in order. -/
def transcript (p : Problem Float) (set : Settings Float) (clock : Clock Float) :
    List (Event Float) → Checked (List String)
  | [] => .ok []
  | event :: events => do
    let lines ← linesOf p set clock event
    return lines ++ (← transcript p set clock events)

theorem text_nil : text [] = .empty := rfl

theorem text_append (lines lines' : List String) :
    text (lines ++ lines') = text lines ++ text lines' := by
  rw [text, List.map_append, String.join_append]
  exact String.toByteArray_append

theorem text_cons (line : String) (lines : List String) :
    text (line :: lines) = (line ++ "\n").toUTF8 ++ text lines := by
  rw [text, List.map_cons, String.join_cons]
  exact String.toByteArray_append

/-! ## A buffer -/

theorem writeLines_buffer (lines : List String) (contents : ByteArray) (o : Outlets) :
    writeLines lines (.buffer contents) o = (.ok (), .buffer (contents ++ text lines), o) := by
  induction lines generalizing contents with
  | nil => rw [writeLines, text_nil, ByteArray.append_empty]
  | cons line lines ih =>
    rw [writeLines, PrintTarget.writeAll, text_cons, ← ByteArray.append_assoc]
    exact ih _

variable {contents : ByteArray} {o : Outlets} {journal : Journal}

theorem tellBlock_buffer (b : Block) : tellBlock ⟨.buffer contents, o, journal⟩ b =
    ⟨.buffer (contents ++ text b.lines), o, journal⟩ := by
  obtain ⟨lines, flush⟩ := b
  rw [tellBlock, writeLines_buffer]
  cases flush <;> rfl

theorem foldl_tellBlock_buffer (bs : List Block) :
    bs.foldl tellBlock ⟨.buffer contents, o, journal⟩ =
      ⟨.buffer (contents ++ text (bs.flatMap Block.lines)), o, journal⟩ := by
  induction bs generalizing contents with
  | nil => rw [List.foldl_nil, List.flatMap_nil, text_nil, ByteArray.append_empty]
  | cons b bs ih =>
    rw [List.foldl_cons, tellBlock_buffer, ih, List.flatMap_cons, text_append,
      ByteArray.append_assoc]

/-- Notes are no lines. -/
theorem linesOf_noted {note : Note Float} {lines : List String}
    (h : linesOf p set clock (.noted note) = .ok lines) : lines = [] := by
  rw [linesOf] at h
  split at h
  · cases h
    rfl
  · cases h
    rfl

/-- The lines of an event are printed if the settings say so. -/
theorem print_buffer {event : Event Float} {lines : List String}
    (h : linesOf p set clock event = .ok lines) :
    (if set.verbose then
        return (← blocks p set clock event).foldl tellBlock ⟨.buffer contents, o, journal⟩
      else return ⟨.buffer contents, o, journal⟩ : Checked Told) =
        .ok ⟨.buffer (contents ++ text lines), o, journal⟩ := by
  rw [linesOf] at h
  split at h
  · rw [if_pos ‹_›]
    cases hblocks : blocks p set clock event with
    | error f =>
      rw [hblocks] at h
      cases h
    | ok bs =>
      rw [hblocks] at h
      cases h
      exact congrArg Except.ok (foldl_tellBlock_buffer bs)
  · rw [if_neg ‹_›]
    cases h
    rw [text_nil, ByteArray.append_empty]
    rfl

/-- An event is told by its lines, and otherwise only remarked on. -/
theorem tell_buffer {event : Event Float} {lines : List String}
    (h : linesOf p set clock event = .ok lines) :
    ∃ journal', tell p set clock ⟨.buffer contents, o, journal⟩ event =
      .ok ⟨.buffer (contents ++ text lines), o, journal'⟩ := by
  cases event with
  | started => exact ⟨_, print_buffer h⟩
  | checked info rho => exact ⟨_, print_buffer h⟩
  | finished info => exact ⟨_, print_buffer h⟩
  | noted note =>
    rw [linesOf_noted h, text_nil, ByteArray.append_empty]
    exact ⟨_, rfl⟩

/-- **A buffer takes the whole transcript,** in order. -/
theorem tellAll_buffer {events : List (Event Float)} {lines : List String}
    (h : transcript p set clock events = .ok lines) :
    ∃ journal', tellAll p set clock ⟨.buffer contents, o, journal⟩ events =
      .ok ⟨.buffer (contents ++ text lines), o, journal'⟩ := by
  induction events generalizing lines contents journal with
  | nil =>
    cases h
    rw [text_nil, ByteArray.append_empty]
    exact ⟨journal, rfl⟩
  | cons event events ih =>
    obtain ⟨first, hfirst, h⟩ := bind_eq_ok.mp h
    obtain ⟨rest, hrest, h⟩ := bind_eq_ok.mp h
    cases h
    obtain ⟨journal₁, hevent⟩ := @tell_buffer p set clock contents o journal event first hfirst
    obtain ⟨journal₂, hevents⟩ := ih hrest
    refine ⟨journal₂, ?_⟩
    rw [tellAll, List.foldlM_cons, hevent, text_append, ← ByteArray.append_assoc]
    exact hevents

/-- **There is a transcript** where the settings can be told. -/
theorem Tellable.transcript_ensures (h : Tellable set) (p : Problem Float) (clock : Clock Float)
    (events : List (Event Float)) : Ensures (transcript p set clock events) fun _ => True := by
  have hlines : ∀ event, Ensures (linesOf p set clock event) fun _ => True := fun event => by
    rw [linesOf]
    cases hverbose : set.verbose with
    | false => exact .ok trivial
    | true =>
      obtain ⟨text, htext⟩ := h hverbose
      obtain ⟨bs, hbs, -⟩ := blocks_ensures htext p clock event
      rw [if_pos rfl, hbs]
      exact .ok trivial
  induction events with
  | nil => exact .ok trivial
  | cons event events ih => exact (hlines event).bind fun _ _ => ih.bind fun _ _ => .ok trivial

/-! ## Times -/

/-- **The same line** but for the times at its end. -/
inductive AlikeButTimes : String → String → Prop
  /-- There are none. -/
  | same (line : String) : AlikeButTimes line line
  /-- The time of a row of the table, behind two blanks. -/
  | row (start : String) (t t' : TimeSpan) :
      AlikeButTimes (start ++ "  " ++ t.brief) (start ++ "  " ++ t'.brief)
  /-- The line of the times. -/
  | times (setup solve polish setup' solve' polish' : TimeSpan) :
      AlikeButTimes
        ("setup time = " ++ setup.text ++ ", solve time = " ++ solve.text ++
          ", polish time = " ++ polish.text)
        ("setup time = " ++ setup'.text ++ ", solve time = " ++ solve'.text ++
          ", polish time = " ++ polish'.text)

theorem alike_refl (lines : List String) : List.Forall₂ AlikeButTimes lines lines :=
  List.forall₂_same.mpr fun line _ => .same line

/-- The lines about an event on another clock. -/
theorem linesOf_clock {event : Event Float} {lines : List String}
    (h : linesOf p set clock event = .ok lines) (clock' : Clock Float) :
    ∃ lines', linesOf p set clock' event = .ok lines' ∧
      List.Forall₂ AlikeButTimes lines lines' := by
  rw [linesOf] at h ⊢
  cases hverbose : set.verbose with
  | false =>
    rw [hverbose] at h
    cases h
    exact ⟨[], rfl, .nil⟩
  | true =>
    rw [hverbose, if_pos rfl] at h
    rw [if_pos rfl]
    cases event with
    | started =>
      exact ⟨lines, h, alike_refl lines⟩
    | checked info rho =>
      cases h
      exact ⟨_, rfl, .cons (.row _ _ _) .nil⟩
    | finished info =>
      cases h
      have htimes : List.Forall₂ AlikeButTimes [times info clock] [times info clock'] :=
        .cons (.times _ _ _ _ _ _) .nil
      have hfooter : List.Forall₂ AlikeButTimes (footer info clock) (footer info clock') :=
        List.rel_append (alike_refl _) htimes
      refine ⟨_, rfl, ?_⟩
      rwa [List.flatMap_singleton, List.flatMap_singleton]
    | noted note =>
      cases h
      exact ⟨[], rfl, .nil⟩

/-- **Transcripts of the same events** are alike but for the times. -/
theorem transcript_clock {events : List (Event Float)} {lines : List String}
    (h : transcript p set clock events = .ok lines) (clock' : Clock Float) :
    ∃ lines', transcript p set clock' events = .ok lines' ∧
      List.Forall₂ AlikeButTimes lines lines' := by
  induction events generalizing lines with
  | nil =>
    cases h
    exact ⟨[], rfl, .nil⟩
  | cons event events ih =>
    obtain ⟨first, hfirst, h⟩ := bind_eq_ok.mp h
    obtain ⟨rest, hrest, h⟩ := bind_eq_ok.mp h
    cases h
    obtain ⟨first', hfirst', halike⟩ := linesOf_clock hfirst clock'
    obtain ⟨rest', hrest', halikes⟩ := ih hrest
    refine ⟨first' ++ rest', ?_, List.rel_append halike halikes⟩
    rw [transcript, hfirst', ok_bind, hrest']
    rfl

end Progress

end SplitQP
