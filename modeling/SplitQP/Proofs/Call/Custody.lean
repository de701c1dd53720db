import Mathlib.Data.List.Perm.Basic
import Mathlib.Tactic.Ring
import SplitQP.Proofs.Call.Teardown
/-!
# Every buffer is given back

A history settles its loans when nothing is borrowed twice, at no time more
has been given back than was borrowed, and in the end everything has
(`History.Settles`). Every call does, on whichever way it goes
(`Call.solve_settles`): once its buffers are borrowed, what follows borrows
nothing and gives back each of them. If a session runs, the matrices' and
the settings' buffers are back before it (`Call.solve_session`).
-/

namespace SplitQP

variable {α : Type}

/-! ## Settled histories -/

namespace History

/-- **Loans balance:** at no time has more been given back than was borrowed, and in the end
everything has. -/
structure Balances (h : History α) : Prop where
  held : ∀ k, k <+: h → (releases k).Subperm (acquisitions k)
  perm : (releases h).Perm (acquisitions h)

/-- **Every loan is settled:** loans balance, and nothing is borrowed twice. -/
structure Settles (h : History α) : Prop extends Balances h where
  nodup : (acquisitions h).Nodup

variable {h k before rest : History α}

/-- As many buffers are given back as were borrowed. -/
theorem Balances.acquired_eq_released (hb : Balances h) : acquired h = released h := by
  rw [← length_acquisitions, ← length_releases]
  exact hb.perm.length_eq.symm

/-- At no time has a buffer been given back twice. -/
theorem Settles.nodup_releases (hs : Settles h) (hk : k <+: h) : (releases k).Nodup := by
  obtain ⟨more, rfl⟩ := hk
  have hnodup := hs.perm.symm.nodup hs.nodup
  rw [releases_append] at hnodup
  exact (List.nodup_append.mp hnodup).1

/-- Where nothing is borrowed or given back. -/
theorem balances_of_nil (hacquisitions : acquisitions h = []) (hreleases : releases h = []) :
    Balances h where
  held k hk := by
    obtain ⟨more, rfl⟩ := hk
    rw [releases_append] at hreleases
    rw [(List.append_eq_nil_iff.mp hreleases).1]
    exact List.nil_subperm
  perm := by rw [hacquisitions, hreleases]

/-- What is balanced before is balanced after. -/
theorem Balances.append (hh : Balances h) (hk : Balances k) : Balances (h ++ k) where
  held l hl := by
    rcases List.prefix_or_prefix_of_prefix hl (List.prefix_append h k) with hl | hl'
    · exact hh.held l hl
    · obtain ⟨l', rfl⟩ := hl'
      rw [releases_append, acquisitions_append]
      exact hh.perm.subperm.append (hk.held l' ((List.prefix_append_right_inj h).mp hl))
  perm := by
    rw [releases_append, acquisitions_append]
    exact hh.perm.append hk.perm

/-- **Borrowing first and giving back afterwards** balances, also with balanced loans in
between. -/
theorem balances_of_borrowed (before middle rest : History α) (hbefore : releases before = [])
    (hmiddle : Balances middle) (hrest : acquisitions rest = [])
    (hperm : (releases rest).Perm (acquisitions before)) :
    Balances (before ++ (middle ++ rest)) where
  held k hk := by
    -- a history broken off ends while borrowing, in the middle, or while giving back
    rcases List.prefix_or_prefix_of_prefix hk (List.prefix_append before _) with hk | hk'
    · obtain ⟨more, rfl⟩ := hk
      rw [releases_append] at hbefore
      rw [(List.append_eq_nil_iff.mp hbefore).1]
      exact List.nil_subperm
    · obtain ⟨k', rfl⟩ := hk'
      have hk' := (List.prefix_append_right_inj before).mp hk
      rw [releases_append, acquisitions_append, hbefore, List.nil_append]
      rcases List.prefix_or_prefix_of_prefix hk' (List.prefix_append middle rest) with hk' | hk''
      · exact (hmiddle.held k' hk').trans (List.sublist_append_right _ _).subperm
      · obtain ⟨k'', rfl⟩ := hk''
        obtain ⟨more, rfl⟩ := (List.prefix_append_right_inj middle).mp hk'
        rw [releases_append] at hperm
        rw [acquisitions_append] at hrest
        rw [releases_append, acquisitions_append, (List.append_eq_nil_iff.mp hrest).1,
          List.append_nil]
        have hback : (releases k'').Subperm (acquisitions before) :=
          (List.sublist_append_left _ _).subperm.trans hperm.subperm
        exact (hmiddle.perm.subperm.append hback).trans List.perm_append_comm.subperm
  perm := by
    simp only [releases_append, acquisitions_append, hbefore, hrest, List.nil_append,
      List.append_nil]
    exact (hmiddle.perm.append hperm).trans List.perm_append_comm

end History

/-! ## Steps without loans -/

/-- The step neither borrows nor gives back. -/
def Step.IsLoanless (s : Step α) : Prop := s.acquisition? = none ∧ s.release? = none

namespace History

variable {h : History α} (hloanless : ∀ s ∈ h, s.IsLoanless)

include hloanless

theorem acquisitions_of_loanless : acquisitions h = [] :=
  List.filterMap_eq_nil_iff.mpr fun s hs => (hloanless s hs).1

theorem releases_of_loanless : releases h = [] :=
  List.filterMap_eq_nil_iff.mpr fun s hs => (hloanless s hs).2

end History

/-! ## Sessions -/

namespace Session

variable {b : Backend α} {p : Program α} {settings : Settings α} {hasLog : Bool}
  {primal dual : Array α} {refusal : String → Option String} {path : String}
  {state : SessionState}

theorem loanless_hear (us : List Utterance) :
    ∀ s ∈ us.map (hear (α := α) hasLog), s.IsLoanless :=
  List.forall_mem_map.mpr fun u _ =>
    have hreadings := Step.readings_of_isHeard (History.isHeard_hear (α := α) hasLog u)
    ⟨hreadings.2.2.1, hreadings.2.2.2.1⟩

theorem loanless_working (w : b.Workspace) {rest : History α} (hrest : ∀ s ∈ rest, s.IsLoanless) :
    ∀ s ∈ working b p settings hasLog w rest, s.IsLoanless :=
  List.forall_mem_append.mpr ⟨loanless_hear _, List.forall_mem_cons.mpr ⟨⟨rfl, rfl⟩,
    List.forall_mem_cons.mpr ⟨⟨rfl, rfl⟩, List.forall_mem_append.mpr ⟨loanless_hear _, hrest⟩⟩⟩⟩

/-- **Setting up and solving** touches no loan, also at a fault. -/
theorem loanless_of_solving {course : Course (Step α) (Int × SessionState)}
    (h : Solving b p settings hasLog primal dual course) : ∀ s ∈ course.steps, s.IsLoanless := by
  have hhanded : ∀ solution, ∀ s ∈ (handOver primal dual solution).steps, s.IsLoanless :=
    fun solution s hs =>
      (Step.readings_of_write (handOver_takes solution s hs)).2.2
  cases h with
  | setupFaulted => exact loanless_hear _
  | notSetUp =>
    exact List.forall_mem_append.mpr ⟨loanless_hear _, by simp [Step.IsLoanless, Step.acquisition?,
      Step.release?]⟩
  | solveFaulted => exact loanless_working _ (List.forall_mem_nil _)
  | brokeOff =>
    exact loanless_working _ (by simp [Step.IsLoanless, Step.acquisition?, Step.release?])
  | solved =>
    exact loanless_working _ (List.forall_mem_append.mpr ⟨hhanded _, by
      simp [Step.IsLoanless, Step.acquisition?, Step.release?]⟩)
  | misfit => exact loanless_working _ (hhanded _)

/-- **A session that ends gives the vectors back** between the releases of the settings and
of the program, and no other buffer. -/
theorem run_closes {status : Int}
    (h : (run b refusal state p settings path primal dual).ending = .ok status) :
    ∃ before after, (run b refusal state p settings path primal dual).steps =
        before ++ .happened .settingsReleased :: (p.tags.map .released ++
          .happened .problemReleased :: after) ∧
      (∀ s ∈ before, s.IsLoanless) ∧ ∀ s ∈ after, s.IsLoanless := by
  have hlast : ∀ (hasLog : Bool) (final : SessionState),
      ∀ s ∈ (if hasLog then [.log .closed, .happened .logClosed] else []) ++
        [.moved final .released], (s : Step α).IsLoanless := by
    intro hasLog final
    cases hasLog with
    | false => exact List.forall_mem_singleton.mpr ⟨rfl, rfl⟩
    | true => simp [Step.IsLoanless, Step.acquisition?, Step.release?]
  by_cases hfit : Fit b p primal dual
  · rw [run_of_fit hfit] at h ⊢
    have hsolving := loanless_of_solving (solving_solve b p settings
      (opensLog refusal path) primal dual)
    have hopen := (openLog_ensures (α := α) refusal path).2.2
    cases hending : (solve b p settings (opensLog refusal path) primal dual).ending with
    | error f =>
      rw [hending] at h
      cases h
    | ok r =>
      refine ⟨.moved state .configured :: ((openLog refusal path).steps ++
        (solve b p settings (opensLog refusal path) primal dual).steps), _, ?_,
        List.forall_mem_cons.mpr ⟨⟨rfl, rfl⟩, List.forall_mem_append.mpr ⟨fun s hs =>
          (hopen s hs).2.2, hsolving⟩⟩, hlast (opensLog refusal path) r.2⟩
      simp only [closing, List.cons_append, List.append_assoc]
  · obtain ⟨why, hrun⟩ := run_of_unfit refusal path hfit settings state
    rw [hrun]
    exact ⟨[.moved state .configured, .unfit why, .moved .configured .failed], _, rfl,
      by simp [Step.IsLoanless, Step.acquisition?, Step.release?], hlast false .failed⟩

/-- **A session gives back the vectors,** also at a fault. -/
theorem run_releases :
    History.acquisitions (run b refusal state p settings path primal dual).steps = [] ∧
      History.releases (run b refusal state p settings path primal dual).steps = p.tags := by
  have hamid : ∀ before after : History α, (∀ s ∈ before, s.IsLoanless) →
      (∀ s ∈ after, s.IsLoanless) →
        History.acquisitions (before ++ (p.tags.map .released ++ after)) = [] ∧
          History.releases (before ++ (p.tags.map .released ++ after)) = p.tags := by
    intro before after hbefore hafter
    simp only [History.acquisitions_append, History.releases_append,
      History.acquisitions_released, History.releases_released,
      History.acquisitions_of_loanless hbefore, History.acquisitions_of_loanless hafter,
      History.releases_of_loanless hbefore, History.releases_of_loanless hafter, List.nil_append,
      List.append_nil, and_self]
  cases hending : (run b refusal state p settings path primal dual).ending with
  | ok status =>
    obtain ⟨before, after, hsteps, hbefore, hafter⟩ := run_closes hending
    rw [hsteps, List.append_cons]
    exact hamid _ _ (List.forall_mem_append.mpr ⟨hbefore, List.forall_mem_singleton.mpr ⟨rfl, rfl⟩⟩)
      (List.forall_mem_cons.mpr ⟨⟨rfl, rfl⟩, hafter⟩)
  | error f =>
    -- at a fault the vectors are given back at once, and nothing comes after
    by_cases hfit : Fit b p primal dual
    · have hsolving := loanless_of_solving (solving_solve b p settings
        (opensLog refusal path) primal dual)
      have hopen := (openLog_ensures (α := α) refusal path).2.2
      rw [run_of_fit hfit] at hending ⊢
      split at hending
      · cases hending
      · have h := hamid (.moved state .configured :: _) [] (List.forall_mem_cons.mpr ⟨⟨rfl, rfl⟩,
          List.forall_mem_append.mpr ⟨fun s hs => (hopen s hs).2.2, hsolving⟩⟩)
          (List.forall_mem_nil _)
        rw [List.append_nil, List.cons_append, List.append_assoc] at h
        exact h
    · obtain ⟨why, hrun⟩ := run_of_unfit refusal path hfit settings state
      rw [hrun] at hending
      cases hending

end Session

/-! ## Calls -/

namespace Program.Assembling

variable [Scalar α] {n m : Int} {q l u : Loan α} {P A : TripletLoans α} {ss : History α}

/-- Where there is no program, every buffer it would have had is back. -/
theorem releases_of_refused {e : CallError} (h : Assembling n m q P A l u ⟨ss, .ok (.error e)⟩) :
    (History.releases ss).Perm (q.tag :: l.tag :: u.tag :: (P.tags ++ A.tags)) := by
  have hbuilt : ∀ (matrix : String) (nrows ncols nnz dropped : ℕ) (k : History α),
      History.releases (.built matrix nrows ncols nnz dropped :: k) = History.releases k :=
    fun _ _ _ _ _ _ => rfl
  cases h with
  | missized | noQuadratic | noLinear =>
    simp only [hbuilt, History.releases_append, History.releases_released]
    refine List.perm_iff_count.mpr fun t => ?_
    simp only [List.count_append, List.count_cons, List.count_nil]
    ring

end Program.Assembling

namespace LoanedCall

variable [RoundingScalar α] {c : LoanedCall α} {b : Backend α}
  {refusal : String → Option String}

/-- Once there is a program the matrices' buffers are back, and the others are still to be
given back. -/
theorem loans_of_assembled {ss rest : History α} {p : Program α}
    (h : Program.Assembling c.n c.m c.q c.P c.A c.l c.u ⟨ss, .ok (.ok p)⟩)
    (hborrows : History.acquisitions rest = [])
    (hback : (History.releases rest).Perm
      ([c.names.tag, c.values.tag] ++ (p.tags ++ c.outputTags))) :
    History.acquisitions (ss ++ rest) = [] ∧ (History.releases (ss ++ rest)).Perm c.tags := by
  have hassembled : History.acquisitions ss = [] := h.acquisitions_eq
  rw [History.acquisitions_append, History.releases_append, hassembled, hborrows,
    h.releases_of_ok]
  refine ⟨rfl, List.perm_iff_count.mpr fun t => ?_⟩
  simp only [List.count_append, List.count_cons, List.count_nil, hback.count_eq t,
    h.isFrom.tags_eq, tags, outputTags]
  ring

/-- **A call that holds its buffers borrows no more, and gives back each of them once.** -/
theorem Passage.loans {course : Course (Step α) Outcome} (h : c.Passage b refusal course) :
    History.acquisitions course.steps = [] ∧ (History.releases course.steps).Perm c.tags := by
  have hrefused : ∀ (e : CallError) (k : History α),
      History.acquisitions (.refused e :: k) = History.acquisitions k ∧
        History.releases (.refused e :: k) = History.releases k := fun _ _ => ⟨rfl, rfl⟩
  cases h with
  | @notAssembled ss e hassembling =>
    have hborrows : History.acquisitions ss = [] := hassembling.acquisitions_eq
    have hback := hassembling.releases_of_refused
    simp only [History.acquisitions_append, History.releases_append, hrefused, hborrows,
      History.acquisitions_released, History.releases_released, List.append_nil, true_and]
    refine List.perm_iff_count.mpr fun t => ?_
    simp only [List.count_append, List.count_cons, List.count_nil, hback.count_eq t, tags,
      outputTags, settingTags]
    ring
  | noSettings hassembling =>
    refine loans_of_assembled hassembling ?_ ?_
    · rw [(hrefused _ _).1, History.acquisitions_released]
    · rw [(hrefused _ _).2, History.releases_released]
      exact List.perm_append_comm.trans (.append_right _ (.swap _ _ _))
  | outputsMisfit hassembling =>
    refine loans_of_assembled hassembling ?_ ?_
    · simp only [History.acquisitions_append, History.acquisitions_assigned, hrefused,
        History.acquisitions_released, List.append_nil]
    · simp only [History.releases_append, History.releases_assigned, hrefused,
        History.releases_released, List.nil_append, List.Perm.refl]
  | ran hassembling =>
    refine loans_of_assembled hassembling ?_ ?_
    · simp only [History.acquisitions_append, History.acquisitions_assigned,
        History.acquisitions_released, Session.run_releases, List.append_nil]
    · simp only [History.releases_append, History.releases_assigned, History.releases_released,
        Session.run_releases, List.nil_append, List.Perm.refl]

end LoanedCall

namespace Call

variable [RoundingScalar α] (c : Call α) (b : Backend α) (refusal : String → Option String)
  (primal dual : Array α)

omit [RoundingScalar α] in
/-- No two buffers of a call go by one tag. -/
theorem nodup_tags : (c.loaned primal dual).tags.Nodup := by
  have hids : (c.loaned primal dual).tags.map LoanTag.id = List.range 13 := rfl
  exact .of_map LoanTag.id (hids ▸ List.nodup_range)

/-- **Every call settles its loans,** however it ends. -/
theorem solve_settles : History.Settles (c.solve b refusal primal dual).steps := by
  by_cases hwidths : b.widths = .expected
  · obtain ⟨hborrows, hback⟩ :=
      ((c.loaned primal dual).passage_solve b refusal).loans
    rw [solve_of_widths_eq hwidths]
    refine ⟨History.balances_of_borrowed (_ :: (c.loaned primal dual).borrowing) [] _ rfl
      (History.balances_of_nil rfl rfl) hborrows hback, ?_⟩
    change (History.acquisitions (_ ++ _)).Nodup
    rw [History.acquisitions_append, hborrows, List.append_nil]
    exact c.nodup_tags primal dual
  · rw [solve_of_widths_ne hwidths]
    exact ⟨History.balances_of_nil rfl rfl, List.nodup_nil⟩

end Call

/-! ## Sessions in calls -/

namespace History

variable {h : History α} (hprelim : ∀ s ∈ h, s.IsPreliminary)

include hprelim

theorem any_isMove_of_preliminary : h.any Step.isMove = false :=
  List.any_eq_false.mpr fun s hs => Bool.eq_false_iff.mp (hprelim s hs).readings.2.2.2

/-- Preliminaries leave the state of the session. -/
theorem state_of_preliminary (start : SessionState) : History.state start h = start := by
  induction h with
  | nil => rfl
  | cons s h ih =>
    have hs := hprelim s List.mem_cons_self
    have hrest := ih fun s hs => hprelim s (List.mem_cons_of_mem _ hs)
    cases s with
    | called | acquired | released | built | assembled | assigned | refused => exact hrest
    | _ => exact hs.elim

end History

theorem Session.run_begins (b : Backend α) (refusal : String → Option String)
    (state : SessionState) (p : Program α) (settings : Settings α) (path : String)
    (primal dual : Array α) : ∃ rest, (run b refusal state p settings path primal dual).steps =
      .moved state .configured :: rest := ⟨_, rfl⟩

/-- **The vectors are given back in a session** between the releases of the settings and of
the program, and no other buffer is. -/
def LoanedCall.ClosesVectors (c : LoanedCall α) (session : History α) : Prop :=
  ∃ early late, session = early ++ .happened .settingsReleased ::
      ([c.q.tag, c.l.tag, c.u.tag].map .released ++ .happened .problemReleased :: late) ∧
    (∀ s ∈ early, s.IsLoanless) ∧ ∀ s ∈ late, s.IsLoanless

namespace Call

variable [RoundingScalar α] (c : Call α) (b : Backend α) (refusal : String → Option String)
  (primal dual : Array α)

/-- **If a session runs in a call,** the buffers of the matrices and of the settings are back
before it begins, and it closes with the vectors if it ends. -/
theorem solve_session (hmoves : (c.solve b refusal primal dual).steps.any Step.isMove = true) :
    ∃ before session after, (c.solve b refusal primal dual).steps = before ++ (session ++ after) ∧
      (c.loaned primal dual).Hosts (c.loaned primal dual).tags before after ∧
      session.head? = some (.moved .uninitialized .configured) ∧
      ∀ outcome, (c.solve b refusal primal dual).ending = .ok outcome →
        (c.loaned primal dual).ClosesVectors session := by
  rcases c.solve_refused_or_ran b refusal primal dual with ⟨-, -, htakes⟩ | hran
  · rw [History.any_isMove_of_preliminary htakes] at hmoves
    cases hmoves
  · obtain ⟨p, pairs, before, after, hc, -, hhosts, hsolve⟩ := hran
    obtain ⟨rest, hbegins⟩ := Session.run_begins b refusal .uninitialized p (.ofAssignments pairs)
      c.logPath primal dual
    rw [hsolve]
    refine ⟨before, _, after, rfl, hhosts, by rw [hbegins]; rfl, fun outcome houtcome => ?_⟩
    cases hending : (Session.run b refusal .uninitialized p (.ofAssignments pairs) c.logPath primal
      dual).ending with
    | error f =>
      rw [hending] at houtcome
      cases houtcome
    | ok status =>
      obtain ⟨early, late, hsteps, hearly, hlate⟩ := Session.run_closes hending
      rw [hc.1.tags_eq] at hsteps
      exact ⟨early, late, hsteps, hearly, hlate⟩

/-- **What a call that ends tells of its session:** there was none, or it left its trace and is
released. -/
theorem solve_traced {outcome : Outcome}
    (h : (c.solve b refusal primal dual).ending = .ok outcome) :
    outcome.hadSession = (c.solve b refusal primal dual).steps.any Step.isMove ∧
      (outcome.hadSession = true → SessionTrace True (Session.opensLog refusal c.logPath)
          outcome.status (History.events (c.solve b refusal primal dual).steps) ∧
        History.state .uninitialized (c.solve b refusal primal dual).steps = .released) ∧
      (outcome.hadSession = false → History.events (c.solve b refusal primal dual).steps = []) := by
  rcases c.solve_refused_or_ran b refusal primal dual with ⟨-, hending, htakes⟩ | hran
  · rw [hending] at h
    cases h
    exact ⟨(History.any_isMove_of_preliminary htakes).symm,
      fun h => absurd h Bool.false_ne_true, fun _ => History.events_of_preliminary htakes⟩
  · obtain ⟨p, pairs, before, after, hc, hfit, hhosts, hsolve⟩ := hran
    obtain ⟨rest, hbegins⟩ := Session.run_begins b refusal .uninitialized p (.ofAssignments pairs)
      c.logPath primal dual
    rw [hsolve] at h ⊢
    cases hending : (Session.run b refusal .uninitialized p (.ofAssignments pairs) c.logPath primal
      dual).ending with
    | error f =>
      rw [hending] at h
      cases h
    | ok status =>
      rw [hending] at h
      cases h
      obtain ⟨htrace, hreleased⟩ := Session.run_traced hending
      refine ⟨?_, fun _ => ⟨?_, ?_⟩, fun h => by cases h⟩
      · rw [List.any_append, hbegins]
        exact (Bool.or_true _).symm
      · rw [History.events_append, History.events_append,
          History.events_of_preliminary hhosts.preliminary_before,
          History.events_of_preliminary hhosts.preliminary_after, List.nil_append, List.append_nil]
        rwa [eq_true hfit] at htrace
      · rw [History.state, List.foldl_append, List.foldl_append]
        change History.state (History.state (History.state _ before) _) after = _
        rw [History.state_of_preliminary hhosts.preliminary_after, hreleased]

end Call

/-! ## Every session and every call -/

/-- **Torn down and settled.** A session that ends leaves the trace of its grammar and is
released, and it ends where its backend does; so do sessions run one after the other. Every
call settles its loans, whatever its backend does. If a session runs in it, the buffers of the
matrices and of the settings are back before, and the vectors are given back between the
releases of the settings and of the program. -/
theorem torn_down_and_settled {α : Type} [RoundingScalar α] (refusal : String → Option String) :
    (∀ (b : Backend α) (state : SessionState) (p : Program α) (settings : Settings α)
      (path : String) (primal dual : Array α),
      (∀ status, (Session.run b refusal state p settings path primal dual).ending = .ok status →
        SessionTrace (Session.Fit b p primal dual) (Session.opensLog refusal path) status
            (History.events (Session.run b refusal state p settings path primal dual).steps) ∧
          ∀ start, History.state start
            (Session.run b refusal state p settings path primal dual).steps = .released) ∧
      (b.Sized p settings (Session.opensLog refusal path) →
        (∃ r, b.drive p settings (Session.opensLog refusal path) = .ok r) →
        ∃ status, (Session.run b refusal state p settings path primal dual).ending = .ok status)) ∧
    (∀ (state : SessionState) (jobs : List (Session.Job α))
      (reports : List (Int × List SessionEvent)), (Session.runs state jobs).ending = .ok reports →
      List.Forall₂ (fun job report => SessionTrace job.Fit job.opensLog report.1 report.2)
          jobs reports ∧
        (jobs ≠ [] → History.state state (Session.runs state jobs).steps = .released)) ∧
    ∀ (b : Backend α) (c : Call α) (primal dual : Array α),
      History.Settles (c.solve b refusal primal dual).steps ∧
      (∀ k, k <+: (c.solve b refusal primal dual).steps → (History.releases k).Nodup) ∧
      History.acquired (c.solve b refusal primal dual).steps =
        History.released (c.solve b refusal primal dual).steps ∧
      ((c.solve b refusal primal dual).steps.any Step.isMove = true → ∃ before session after,
        (c.solve b refusal primal dual).steps = before ++ (session ++ after) ∧
          (c.loaned primal dual).Hosts (c.loaned primal dual).tags before after ∧
          session.head? = some (.moved .uninitialized .configured) ∧
          ∀ outcome, (c.solve b refusal primal dual).ending = .ok outcome →
            (c.loaned primal dual).ClosesVectors session) ∧
      ∀ outcome, (c.solve b refusal primal dual).ending = .ok outcome →
        outcome.hadSession = (c.solve b refusal primal dual).steps.any Step.isMove ∧
          (outcome.hadSession = true → SessionTrace True (Session.opensLog refusal c.logPath)
              outcome.status (History.events (c.solve b refusal primal dual).steps) ∧
            History.state .uninitialized (c.solve b refusal primal dual).steps = .released) ∧
          (outcome.hadSession = false →
            History.events (c.solve b refusal primal dual).steps = []) :=
  ⟨fun _ _ _ _ _ _ _ => ⟨fun _ => Session.run_traced, Session.run_ends⟩,
    fun _ _ _ => Session.runs_traced,
    fun b c primal dual => ⟨c.solve_settles b refusal primal dual,
      fun _ => (c.solve_settles b refusal primal dual).nodup_releases,
      (c.solve_settles b refusal primal dual).acquired_eq_released,
      c.solve_session b refusal primal dual, fun _ => c.solve_traced b refusal primal dual⟩⟩

/-! ### A call with a log -/

namespace LoggedCall

/-- Nothing to solve, with a log. -/
def call : Call Float := { logPath := "log" }

/-- It has a status and no solution. -/
def backend : Backend Float := .scripted { status := 1 }

/-- The same as a job of a session. -/
def job : Session.Job Float where
  backend := backend
  refusal := fun _ => none
  program := ⟨0, 0, ⟨0, 0, #[0], #[], #[]⟩, ⟨⟨0, "q"⟩, #[]⟩, ⟨0, 0, #[0], #[], #[]⟩,
    ⟨⟨1, "l"⟩, #[]⟩, ⟨⟨2, "u"⟩, #[]⟩⟩
  settings := .callDefault
  path := "log"
  primal := #[]
  dual := #[]

theorem ending : (call.solve backend (fun _ => none) #[] #[]).ending = .ok ⟨1, true⟩ := by
  have hok : (call.solve backend (fun _ => none) #[] #[]).ending.toOption =
      some (⟨1, true⟩ : Outcome) := by
    decide +kernel
  cases hending : (call.solve backend (fun _ => none) #[] #[]).ending with
  | error f =>
    rw [hending] at hok
    cases hok
  | ok outcome =>
    rw [hending] at hok
    cases hok
    rfl

end LoggedCall

/-- The call leaves the trace of a session with a log, and so does each of two jobs. -/
theorem torn_down_and_settled_logged :
    SessionTrace True true 1 (History.events
        (LoggedCall.call.solve LoggedCall.backend (fun _ => none) #[] #[]).steps) ∧
      (∃ before session after, (LoggedCall.call.solve LoggedCall.backend (fun _ => none) #[]
          #[]).steps = before ++ (session ++ after) ∧
        (LoggedCall.call.loaned #[] #[]).ClosesVectors session) ∧
      ∃ reports, (Session.runs .uninitialized [LoggedCall.job, LoggedCall.job]).ending =
          .ok reports ∧
        List.Forall₂ (fun job report => SessionTrace job.Fit job.opensLog report.1 report.2)
          [LoggedCall.job, LoggedCall.job] reports ∧
        History.state .uninitialized
          (Session.runs .uninitialized [LoggedCall.job, LoggedCall.job]).steps = .released := by
  obtain ⟨-, hruns, hcalls⟩ := torn_down_and_settled (α := Float) fun _ => none
  obtain ⟨-, -, -, hsession, htraced⟩ := hcalls LoggedCall.backend LoggedCall.call #[] #[]
  obtain ⟨hmoves, htrace, -⟩ := htraced _ LoggedCall.ending
  obtain ⟨before, session, after, hsteps, -, -, hcloses⟩ := hsession hmoves.symm
  obtain ⟨reports, hreports⟩ : ∃ reports,
      (Session.runs .uninitialized [LoggedCall.job, LoggedCall.job]).ending = .ok reports :=
    ⟨_, rfl⟩
  obtain ⟨htraces, hreleased⟩ := hruns _ _ _ hreports
  exact ⟨(htrace rfl).1, ⟨before, session, after, hsteps, hcloses _ LoggedCall.ending⟩, reports,
    hreports, htraces, hreleased (List.cons_ne_nil _ _)⟩

end SplitQP
