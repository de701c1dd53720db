import SplitQP.Proofs.Call.Alike
import SplitQP.Proofs.Call.Answers
import SplitQP.Proofs.Call.Custody
import SplitQP.Proofs.Text.Utf8
/-!
# Calls from outside and calls from within

A call from outside whose arrays can all be read is the call within on the
same data (`ForeignCall.toCall`): it has the same status, and the output
buffers end up the same. An array that cannot be read ends the call; the
buffers borrowed until then are given back. Borrowing one buffer after the
other has one description for both ways (`Attempt.Borrows`).
-/

namespace SplitQP

open Checked

variable {α : Type}

/-! ## Arrays -/

namespace ForeignArray

variable {β : Type} {a : ForeignArray β}

/-- It has its data, or no length. -/
def isReadable : ForeignArray β → Bool
  | null (_ + 1) => false
  | _ => true

theorem view_of_readable (h : a.isReadable = true) (what : String) :
    a.view what = .ok a.toArray := by
  cases a with
  | null n =>
    cases n with
    | zero => rfl
    | succ n => cases h
  | entries data => rfl

theorem view_of_unreadable (h : a.isReadable = false) (what : String) :
    ∃ e, a.view what = .error e := by
  cases a with
  | null n =>
    cases n with
    | zero => cases h
    | succ n => exact ⟨_, rfl⟩
  | entries data => cases h

end ForeignArray

/-! ## Borrowing one buffer after the other -/

/-- A buffer to be borrowed, and whether it can be read. -/
abbrev Handle : Type := LoanTag × Bool

namespace Attempt

variable {β γ : Type} {x : Attempt α β} {f : β → Attempt α γ} {handles handles' : List Handle}
  {b : β} {c : γ}

/-- **An attempt borrows** the buffers of a list in order. At the first one that cannot be
read it is refused, and those borrowed before it have been given back. -/
structure Borrows (x : Attempt α β) (handles : List Handle) (b : β) : Prop where
  of_readable : handles.all Prod.snd = true → ∃ ss, x.run = ⟨ss, .ok (.ok b)⟩ ∧
    History.acquisitions ss = handles.map Prod.fst ∧ History.releases ss = [] ∧
      ∀ s ∈ ss, s.IsPreliminary
  of_unreadable : handles.all Prod.snd = false → ∃ ss e, x.run = ⟨ss, .ok (.error e)⟩ ∧
    History.acquisitions ss = (handles.takeWhile Prod.snd).map Prod.fst ∧
      History.Balances ss ∧ ∀ s ∈ ss, s.IsPreliminary

theorem borrows_lift {β : Type} (id : ℕ) (what : String) (data : Array β) :
    Borrows (α := α) (ExceptT.lift (Loan.borrow id what data)) [(⟨id, what⟩, true)]
      ⟨⟨id, what⟩, data⟩ where
  of_readable _ := ⟨_, rfl, rfl, rfl, List.forall_mem_singleton.mpr trivial⟩
  of_unreadable h := by cases h

/-- What is made of the buffers does not matter. -/
theorem Borrows.map (h : x.Borrows handles b) (g : β → γ) :
    (x >>= fun b => pure (g b)).Borrows handles (g b) where
  of_readable hall := by
    obtain ⟨ss, hrun, hss⟩ := h.of_readable hall
    refine ⟨ss, ?_, hss⟩
    rw [run_bind_of_ok hrun]
    exact congrArg (Course.mk · _) (List.append_nil ss)
  of_unreadable hall := by
    obtain ⟨ss, e, hrun, hss⟩ := h.of_unreadable hall
    exact ⟨ss, e, run_bind_of_refused hrun, hss⟩

theorem takeWhile_append_of_unreadable (h : handles.all Prod.snd = false) :
    (handles ++ handles').takeWhile Prod.snd = handles.takeWhile Prod.snd := by
  induction handles with
  | nil => cases h
  | cons a handles ih =>
    obtain ⟨tag, _ | _⟩ := a
    · rfl
    · exact congrArg ((tag, true) :: ·) (ih h)

/-- **Buffers after buffers:** where the later ones cannot be read, the earlier ones are given
back. -/
theorem Borrows.bind (h : x.Borrows handles b) (tags : β → List LoanTag)
    (htags : tags b = handles.map Prod.fst) (hf : (f b).Borrows handles' c) :
    (x >>= fun b => orGiveBack (tags b) (f b)).Borrows (handles ++ handles') c where
  of_readable hall := by
    rw [List.all_append, Bool.and_eq_true] at hall
    obtain ⟨ss, hrun, hacquired, hreleased, hprelim⟩ := h.of_readable hall.1
    obtain ⟨ss', hrun', hacquired', hreleased', hprelim'⟩ := hf.of_readable hall.2
    refine ⟨ss ++ ss', ?_, ?_, ?_, List.forall_mem_append.mpr ⟨hprelim, hprelim'⟩⟩
    · rw [run_bind_of_ok hrun, run_orGiveBack_of_ok (tags b) hrun']
    · rw [History.acquisitions_append, hacquired, hacquired', List.map_append]
    · rw [History.releases_append, hreleased, hreleased', List.append_nil]
  of_unreadable hall := by
    -- the first that cannot be read is among the earlier ones, or among the later
    cases hfirst : handles.all Prod.snd with
    | false =>
      obtain ⟨ss, e, hrun, hss⟩ := h.of_unreadable hfirst
      rw [takeWhile_append_of_unreadable hfirst]
      exact ⟨ss, e, run_bind_of_refused hrun, hss⟩
    | true =>
      rw [List.all_append, hfirst, Bool.true_and] at hall
      obtain ⟨ss, hrun, hacquired, hreleased, hprelim⟩ := h.of_readable hfirst
      obtain ⟨ss', e, hrun', hacquired', hbalances, hprelim'⟩ := hf.of_unreadable hall
      refine ⟨ss ++ (ss' ++ (tags b).map .released), e, ?_, ?_, ?_, ?_⟩
      · rw [run_bind_of_ok hrun, run_orGiveBack_of_refused (tags b) hrun']
      · rw [List.takeWhile_append_of_pos (List.all_eq_true.mp hfirst), List.map_append,
          History.acquisitions_append, History.acquisitions_append, History.acquisitions_released,
          hacquired, hacquired', List.append_nil]
      · refine History.balances_of_borrowed ss ss' _ hreleased hbalances
          (History.acquisitions_released _) ?_
        rw [History.releases_released, htags, hacquired]
      · exact List.forall_mem_append.mpr ⟨hprelim, List.forall_mem_append.mpr
          ⟨hprelim', History.isPreliminary_released _⟩⟩

end Attempt

namespace ForeignCall

open Attempt

theorem borrows_borrow {β : Type} (id : ℕ) (what : String) (a : ForeignArray β) :
    (borrow (α := α) id what a).Borrows [(⟨id, what⟩, a.isReadable)]
      ⟨⟨id, what⟩, a.toArray⟩ where
  of_readable h := by
    have hview := ForeignArray.view_of_readable (by simpa using h) what
    rw [borrow, hview]
    exact ⟨_, rfl, rfl, rfl, List.forall_mem_singleton.mpr trivial⟩
  of_unreadable h := by
    have hunreadable : a.isReadable = false := by simpa using h
    obtain ⟨e, hview⟩ := ForeignArray.view_of_unreadable hunreadable what
    rw [borrow, hview, List.takeWhile_cons, hunreadable]
    exact ⟨[], e, rfl, rfl, History.balances_of_nil rfl rfl, List.forall_mem_nil _⟩

end ForeignCall

/-! ## Borrowing the buffers of a call -/

namespace ForeignTriplets

/-- The arrays of a matrix, the first one as loan `id`. -/
def handles (id : ℕ) (t : ForeignTriplets α) : List Handle :=
  [(⟨id, "triplet rows"⟩, t.rows.isReadable)] ++
    ([(⟨id + 1, "triplet columns"⟩, t.cols.isReadable)] ++
      [(⟨id + 2, "triplet values"⟩, t.vals.isReadable)])

/-- The matrix they describe. -/
def toCoordinates (t : ForeignTriplets α) : Coordinates α :=
  ⟨t.rows.toArray, t.cols.toArray, t.vals.toArray⟩

end ForeignTriplets

namespace ForeignCall

variable (c : ForeignCall α)

/-- **The call within:** no data are empty arrays, and no log path is the empty path. -/
def toCall : Call α where
  n := c.n
  m := c.m
  logPath := foreignText "" c.logPath
  objective := c.objective.toArray
  quadratic := c.quadratic.toCoordinates
  matrix := c.matrix.toCoordinates
  lower := c.lower.toArray
  upper := c.upper.toArray
  names := c.names.toArray.map (foreignText missingName)
  values := c.values.toArray

/-- The call once its buffers are borrowed. The names are a copy. -/
def loaned : LoanedCall α :=
  { c.toCall.loaned c.primal.toArray c.dual.toArray with
    names := ⟨⟨9, "setting name strings"⟩, c.toCall.names⟩ }

/-- The array of the names. -/
def namesHandle : Handle := (⟨13, "setting names"⟩, c.names.isReadable)

/-- The buffers borrowed once the names are copied. -/
def laterHandles : List Handle :=
  [(⟨0, "linear objective"⟩, c.objective.isReadable)] ++ (c.quadratic.handles 1 ++
    (c.matrix.handles 4 ++ ([(⟨7, "lower bounds"⟩, c.lower.isReadable)] ++
      ([(⟨8, "upper bounds"⟩, c.upper.isReadable)] ++ ([(⟨9, "setting name strings"⟩, true)] ++
        ([(⟨10, "setting values"⟩, c.values.isReadable)] ++
          ([(⟨11, "primal output"⟩, c.primal.isReadable)] ++
            [(⟨12, "dual output"⟩, c.dual.isReadable)])))))))

/-- **All buffers,** in the order in which they are borrowed. -/
def handles : List Handle := c.namesHandle :: c.laterHandles

/-- **Every array can be read.** -/
def WellFormed : Prop := c.handles.all Prod.snd = true

theorem borrows_borrowTriplets (id : ℕ) (t : ForeignTriplets α) :
    (borrowTriplets id t).Borrows (t.handles id) (Call.loanedTriplets id t.toCoordinates) := by
  refine (borrows_borrow _ _ _).bind (fun rows => [rows.tag]) rfl ?_
  refine (borrows_borrow _ _ _).bind (fun cols => [cols.tag]) rfl ?_
  exact (borrows_borrow _ _ _).map fun vals =>
    (⟨⟨⟨id, "triplet rows"⟩, t.rows.toArray⟩, ⟨⟨id + 1, "triplet columns"⟩, t.cols.toArray⟩,
      vals⟩ : TripletLoans α)

theorem borrows_borrowRest :
    (c.borrowRest c.toCall.names c.loaned.q c.loaned.P c.loaned.A c.loaned.l c.loaned.u).Borrows
      ([(⟨9, "setting name strings"⟩, true)] ++
        ([(⟨10, "setting values"⟩, c.values.isReadable)] ++
          ([(⟨11, "primal output"⟩, c.primal.isReadable)] ++
            [(⟨12, "dual output"⟩, c.dual.isReadable)]))) c.loaned := by
  refine (Attempt.borrows_lift _ _ _).bind (fun names => [names.tag]) rfl ?_
  refine (borrows_borrow _ _ _).bind (fun values => [values.tag]) rfl ?_
  refine (borrows_borrow _ _ _).bind (fun primal => [primal.tag]) rfl ?_
  exact (borrows_borrow _ _ _).map fun dual => { c.loaned with dual := dual }

/-- **Every buffer of a call is borrowed** once the names are copied, or none is kept. -/
theorem borrows_later : Attempt.Borrows (α := α) (do
      let q ← borrow 0 "linear objective" c.objective
      .orGiveBack [q.tag] do
        let P ← borrowTriplets 1 c.quadratic
        .orGiveBack P.tags do
          let A ← borrowTriplets 4 c.matrix
          .orGiveBack A.tags do
            let l ← borrow 7 "lower bounds" c.lower
            .orGiveBack [l.tag] do
              let u ← borrow 8 "upper bounds" c.upper
              .orGiveBack [u.tag] (c.borrowRest c.toCall.names q P A l u))
    c.laterHandles c.loaned := by
  refine (borrows_borrow _ _ _).bind (fun q => [q.tag]) rfl ?_
  refine (borrows_borrowTriplets _ _).bind TripletLoans.tags rfl ?_
  refine (borrows_borrowTriplets _ _).bind TripletLoans.tags rfl ?_
  refine (borrows_borrow _ _ _).bind (fun l => [l.tag]) rfl ?_
  exact (borrows_borrow _ _ _).bind (fun u => [u.tag]) rfl c.borrows_borrowRest

theorem run_copyNames_of_readable (h : c.names.isReadable = true) : c.copyNames.run =
    ⟨[.acquired ⟨13, "setting names"⟩ c.names.toArray.size, .released ⟨13, "setting names"⟩],
      .ok (.ok c.toCall.names)⟩ := by
  rw [copyNames, borrow, ForeignArray.view_of_readable h]
  rfl

theorem run_copyNames_of_unreadable (h : c.names.isReadable = false) : ∃ e,
    c.copyNames.run = ⟨[], .ok (.error e)⟩ := by
  obtain ⟨e, hview⟩ := ForeignArray.view_of_unreadable h "setting names"
  refine ⟨e, ?_⟩
  rw [copyNames, borrow, hview]
  rfl

/-- **All buffers are borrowed** where all can be read: the array of the names is given back,
the others are held. -/
theorem borrowAll_of_wellFormed (h : c.WellFormed) : ∃ ss,
    c.borrowAll.run = ⟨.acquired ⟨13, "setting names"⟩ c.names.toArray.size ::
      .released ⟨13, "setting names"⟩ :: ss, .ok (.ok c.loaned)⟩ ∧
    History.acquisitions ss = c.loaned.tags ∧ History.releases ss = [] ∧
      ∀ s ∈ ss, s.IsPreliminary := by
  obtain ⟨hnames, hlater⟩ := (Bool.and_eq_true _ _).mp h
  obtain ⟨ss, hrun, hss⟩ := c.borrows_later.of_readable hlater
  refine ⟨ss, ?_, hss⟩
  rw [borrowAll, Attempt.run_bind_of_ok (c.run_copyNames_of_readable hnames), hrun]
  rfl

/-- **Where one cannot be read,** those before it are borrowed and given back. -/
theorem borrowAll_of_not_wellFormed (h : ¬ c.WellFormed) : ∃ ss e,
    c.borrowAll.run = ⟨ss, .ok (.error e)⟩ ∧
    History.acquisitions ss = (c.handles.takeWhile Prod.snd).map Prod.fst ∧
      History.Balances ss ∧ ∀ s ∈ ss, s.IsPreliminary := by
  cases hnames : c.names.isReadable with
  | false =>
    obtain ⟨e, hrun⟩ := c.run_copyNames_of_unreadable hnames
    rw [handles, namesHandle, hnames]
    exact ⟨[], e, Attempt.run_bind_of_refused hrun, rfl, History.balances_of_nil rfl rfl,
      List.forall_mem_nil _⟩
  | true =>
    have hlater : c.laterHandles.all Prod.snd = false :=
      Bool.eq_false_iff.mpr fun hlater => h ((Bool.and_eq_true _ _).mpr ⟨hnames, hlater⟩)
    obtain ⟨ss, e, hrun, hacquired, hbalances, hprelim⟩ := c.borrows_later.of_unreadable hlater
    have hcopied : History.Balances (α := α) [.acquired ⟨13, "setting names"⟩
        c.names.toArray.size, .released ⟨13, "setting names"⟩] :=
      History.balances_of_borrowed [_] [] [_] rfl (History.balances_of_nil rfl rfl) rfl (.refl _)
    rw [handles, namesHandle, hnames]
    refine ⟨_, e, ?_, ?_, hcopied.append hbalances, List.forall_mem_append.mpr ⟨?_, hprelim⟩⟩
    · rw [borrowAll, Attempt.run_bind_of_ok (c.run_copyNames_of_readable hnames), hrun]
    · rw [History.acquisitions_append, hacquired]
      rfl
    · exact List.forall_mem_cons.mpr ⟨trivial, List.forall_mem_singleton.mpr trivial⟩

end ForeignCall

/-! ## The same data, the same outcome -/

section Solving

variable [RoundingScalar α] {b : Backend α} (refusal : String → Option String)

namespace ForeignCall

variable {c : ForeignCall α}

theorem attempt_of_widths_ne (hwidths : b.widths ≠ .expected) : c.attempt b refusal =
    ⟨[.refused (.widthMismatch b.widths)], .ok ⟨setupErrorCode, false⟩⟩ := by
  rw [attempt, Backend.checkWidths, if_neg hwidths]
  rfl

/-- A call that can be read goes on with its buffers. -/
theorem attempt_of_wellFormed (hwidths : b.widths = .expected) (h : c.WellFormed) : ∃ ss,
    c.attempt b refusal = ⟨.acquired ⟨13, "setting names"⟩ c.names.toArray.size ::
        .released ⟨13, "setting names"⟩ :: (ss ++ (c.loaned.solve b refusal).steps),
      (c.loaned.solve b refusal).ending⟩ ∧
    History.acquisitions ss = c.loaned.tags ∧ History.releases ss = [] ∧
      ∀ s ∈ ss, s.IsPreliminary := by
  obtain ⟨ss, hrun, hss⟩ := c.borrowAll_of_wellFormed h
  refine ⟨ss, ?_, hss⟩
  rw [attempt, Backend.checkWidths, if_pos hwidths]
  dsimp only
  rw [hrun, Course.bind_of_ok rfl]
  rfl

/-- One that cannot be read is refused. -/
theorem attempt_of_not_wellFormed (hwidths : b.widths = .expected) (h : ¬ c.WellFormed) : ∃ ss,
    c.attempt b refusal = ⟨ss, .ok ⟨setupErrorCode, false⟩⟩ ∧
    History.acquisitions ss = (c.handles.takeWhile Prod.snd).map Prod.fst ∧
      History.Balances ss ∧ ∀ s ∈ ss, s.IsPreliminary := by
  obtain ⟨ss, e, hrun, hacquired, hbalances, hprelim⟩ := c.borrowAll_of_not_wellFormed h
  have hrefused : (Step.refused e : Step α).IsPreliminary := trivial
  refine ⟨ss ++ [.refused e], ?_, ?_, hbalances.append (History.balances_of_nil rfl rfl),
    List.forall_mem_append.mpr ⟨hprelim, List.forall_mem_singleton.mpr hrefused⟩⟩
  · rw [attempt, Backend.checkWidths, if_pos hwidths]
    dsimp only
    rw [hrun, Course.bind_of_ok rfl]
    rfl
  · rw [History.acquisitions_append, hacquired]
    exact List.append_nil _

/-- **A call that can be read** ends as the call within does. -/
theorem attempt_agrees (b : Backend α) (h : c.WellFormed) :
    (c.toCall.solve b refusal c.primal.toArray c.dual.toArray).EndsAlike
      (c.attempt b refusal) := by
  by_cases hwidths : b.widths = .expected
  · obtain ⟨ss, hattempt, -, -, hprelim⟩ := c.attempt_of_wellFormed refusal hwidths h
    -- the two differ in the tag of the names, which nothing reads
    have hloaned : ((c.toCall.loaned c.primal.toArray c.dual.toArray).solve b refusal).EndsAlike
        (c.loaned.solve b refusal) :=
      LoanedCall.solve_endsAlike (R := Eq) (fun p _ hp => ⟨p, hp, rfl⟩) (fun p _ hp => ⟨p, hp⟩)
        (fun _ _ hp => hp ▸ ⟨rfl, rfl⟩) (fun _ _ _ hp => hp ▸ rfl) rfl rfl
    have hbefore : ∀ s ∈ Step.acquired ⟨13, "setting names"⟩ c.names.toArray.size ::
        .released ⟨13, "setting names"⟩ :: ss, s.IsPreliminary :=
      List.forall_mem_cons.mpr ⟨trivial, List.forall_mem_cons.mpr ⟨trivial, hprelim⟩⟩
    have haround := Course.EndsAlike.around hbefore (List.forall_mem_nil _)
      (c.loaned.solve b refusal)
    rw [List.append_nil] at haround
    rw [hattempt]
    exact ((c.toCall.solve_endsAlike_loaned hwidths _ _).symm.trans hloaned).trans haround
  · rw [attempt_of_widths_ne refusal hwidths, Call.solve_of_widths_ne hwidths]
    exact .refl _

/-- **A call within from outside:** the same status, a fault counting as failure, and the
same in both output buffers. -/
theorem solve_agrees (b : Backend α) (h : c.WellFormed) :
    (c.solve b refusal).2 =
        (match (c.toCall.solve b refusal c.primal.toArray c.dual.toArray).ending with
          | .ok outcome => outcome.status
          | .error _ => -1) ∧
      ∀ primal dual, History.primal primal (c.solve b refusal).1 = History.primal primal
          (c.toCall.solve b refusal c.primal.toArray c.dual.toArray).steps ∧
        History.dual dual (c.solve b refusal).1 = History.dual dual
          (c.toCall.solve b refusal c.primal.toArray c.dual.toArray).steps := by
  have hagree := attempt_agrees refusal b h
  have hsolve : History.writes (c.solve b refusal).1 = History.writes
      (c.toCall.solve b refusal c.primal.toArray c.dual.toArray).steps := by
    rw [solve, ← hagree.writes_eq]
    cases (c.attempt b refusal).ending with
    | ok outcome => rfl
    | error f => exact (History.writes_append _ _).trans (List.append_nil _)
  refine ⟨?_, fun primal dual => ⟨?_, ?_⟩⟩
  · rw [solve, ← hagree.ending_eq]
    cases (c.attempt b refusal).ending with
    | ok outcome => rfl
    | error f => rfl
  · rw [History.primal_eq_foldl, History.primal_eq_foldl, hsolve]
  · rw [History.dual_eq_foldl, History.dual_eq_foldl, hsolve]

/-- **A call that cannot be read** fails. Nothing is written, no backend is heard of, and the
buffers before the one that cannot be read are borrowed and given back, each once. -/
theorem solve_of_not_wellFormed (hwidths : b.widths = .expected) (h : ¬ c.WellFormed) :
    (c.solve b refusal).2 = -1 ∧
      History.LeavesOutputs c.primal.toArray c.dual.toArray (c.solve b refusal).1 ∧
      History.heard (c.solve b refusal).1 = [] ∧
      (c.solve b refusal).1.any Step.isMove = false ∧
      History.acquisitions (c.solve b refusal).1 =
        (c.handles.takeWhile Prod.snd).map Prod.fst ∧
      History.Settles (c.solve b refusal).1 := by
  obtain ⟨ss, hattempt, hacquired, hbalances, hprelim⟩ :=
    c.attempt_of_not_wellFormed refusal hwidths h
  have hsolve : c.solve b refusal = (ss, -1) := by
    rw [solve, hattempt]
    rfl
  have hids : c.handles.map (LoanTag.id ∘ Prod.fst) = 13 :: List.range 13 := rfl
  have hnodup : (c.handles.map Prod.fst).Nodup := by
    refine .of_map LoanTag.id ?_
    rw [List.map_map, hids]
    decide
  rw [hsolve]
  refine ⟨rfl, History.leavesOutputs_of_writes (History.writes_of_preliminary hprelim),
    History.heard_of_preliminary hprelim, History.any_isMove_of_preliminary hprelim, hacquired,
    hbalances, ?_⟩
  rw [hacquired]
  exact hnodup.sublist ((List.takeWhile_sublist _).map _)

end ForeignCall
end Solving

/-! ## Names -/

/-- What holds a replacement character is the name of no setting. -/
theorem SettingName.ofText?_eq_none {text : String} (h : Utf8.replacement ∈ text.toList) :
    ofText? text = none := by
  cases hname : ofText? text with
  | none => rfl
  | some n =>
    have htext : n.text = text := by simpa using List.find?_some hname
    rw [← htext] at h
    revert h
    cases n <;> decide

/-- **A name is read as it is written.** One that is missing or no text is the name of no
setting, and a missing log path is empty. -/
theorem foreignText_spec :
    (∀ (absent text : String), foreignText absent (some text.toUTF8) = text) ∧
      (∀ bytes : ByteArray, (∀ text : String, bytes ≠ text.toUTF8) →
        SettingName.ofText? (foreignText missingName (some bytes)) = none) ∧
      SettingName.ofText? (foreignText missingName none) = none ∧ foreignText "" none = "" :=
  ⟨fun _ => Utf8.decodeLossy_toUTF8,
    fun _ h => SettingName.ofText?_eq_none (Utf8.replacement_mem_decodeLossy h), by decide, rfl⟩

/-! ## The solver from outside -/

/-- **Both entries agree** with the solver of this library. -/
theorem foreign_calls_agree (clock : Clock Float) (order : EliminationOrder)
    (refusal : String → Option String) (c : ForeignCall Float) :
    (c.WellFormed → ∃ outcome,
      (c.toCall.solve (.admm Progress.narrator clock order) refusal c.primal.toArray
          c.dual.toArray).ending = .ok outcome ∧
        (c.solve (.admm Progress.narrator clock order) refusal).2 = outcome.status ∧
        History.primal c.primal.toArray
            (c.solve (.admm Progress.narrator clock order) refusal).1 =
          History.primal c.primal.toArray (c.toCall.solve (.admm Progress.narrator clock order)
            refusal c.primal.toArray c.dual.toArray).steps ∧
        History.dual c.dual.toArray
            (c.solve (.admm Progress.narrator clock order) refusal).1 =
          History.dual c.dual.toArray (c.toCall.solve (.admm Progress.narrator clock order)
            refusal c.primal.toArray c.dual.toArray).steps) ∧
    (¬ c.WellFormed →
      (c.solve (.admm Progress.narrator clock order) refusal).2 = -1 ∧
        History.LeavesOutputs c.primal.toArray c.dual.toArray
          (c.solve (.admm Progress.narrator clock order) refusal).1 ∧
        History.heard (c.solve (.admm Progress.narrator clock order) refusal).1 = [] ∧
        (c.solve (.admm Progress.narrator clock order) refusal).1.any Step.isMove = false ∧
        History.acquisitions (c.solve (.admm Progress.narrator clock order) refusal).1 =
          (c.handles.takeWhile Prod.snd).map Prod.fst ∧
        History.Settles (c.solve (.admm Progress.narrator clock order) refusal).1) ∧
    (∀ (absent text : String), foreignText absent (some text.toUTF8) = text) ∧
    (∀ bytes : ByteArray, (∀ text : String, bytes ≠ text.toUTF8) →
      SettingName.ofText? (foreignText missingName (some bytes)) = none) ∧
    SettingName.ofText? (foreignText missingName none) = none ∧ foreignText "" none = "" := by
  refine ⟨fun h => ?_, ForeignCall.solve_of_not_wellFormed refusal rfl, foreignText_spec⟩
  obtain ⟨outcome, houtcome, -⟩ := c.toCall.solve_ensures
    (Backend.safeForCalls_admm clock order) refusal c.primal.toArray c.dual.toArray
  obtain ⟨hstatus, houtputs⟩ := ForeignCall.solve_agrees refusal
    (.admm Progress.narrator clock order) h
  refine ⟨outcome, houtcome, ?_, (houtputs _ c.dual.toArray).1, (houtputs c.primal.toArray _).2⟩
  rw [hstatus, houtcome]

/-! ### Calls without data -/

namespace NoData

/-- Nothing to solve, no data, and setting values that are said to be `length` many. -/
def call (length : ℕ) : ForeignCall Float where
  n := 0
  m := 0
  logPath := none
  objective := .null 0
  quadratic := ⟨.null 0, .null 0, .null 0⟩
  matrix := ⟨.null 0, .null 0, .null 0⟩
  lower := .null 0
  upper := .null 0
  names := .null 0
  values := .null length
  primal := .null 0
  dual := .null 0

/-- No time passes. -/
def clock : Clock Float := ⟨0, fun _ => 0, 0⟩

end NoData

/-- Without data the call within is solved. With a value that is not there it fails, once eleven
buffers have been borrowed. -/
theorem foreign_calls_agree_noData :
    (∃ outcome, ((NoData.call 0).toCall.solve (.admm Progress.narrator NoData.clock .natural)
        (fun _ => none) #[] #[]).ending = .ok outcome ∧
      ((NoData.call 0).solve (.admm Progress.narrator NoData.clock .natural) fun _ => none).2 =
        outcome.status) ∧
      ((NoData.call 1).solve (.admm Progress.narrator NoData.clock .natural) fun _ => none).2 = -1 ∧
      (History.acquisitions ((NoData.call 1).solve
        (.admm Progress.narrator NoData.clock .natural) fun _ => none).1).length = 11 := by
  obtain ⟨outcome, houtcome, hstatus, -⟩ := (foreign_calls_agree NoData.clock .natural
    (fun _ => none) (NoData.call 0)).1 rfl
  obtain ⟨hfailed, -, -, -, hacquired, -⟩ := (foreign_calls_agree NoData.clock .natural
    (fun _ => none) (NoData.call 1)).2.1 (by decide : ¬ (_ = true))
  exact ⟨⟨outcome, houtcome, hstatus⟩, hfailed, by rw [hacquired]; rfl⟩

end SplitQP
