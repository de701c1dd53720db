import SplitQP.Proofs.Call.Session
/-!
# How a call goes

A program is put together, or the call is refused, in one of four ways
(`Program.Assembling`). A call that holds its buffers is refused at one of
three places, or a session runs (`LoanedCall.Passage`). Each way comes with
its steps and its ending, and nothing else can happen
(`Program.assembling_assemble`, `LoanedCall.passage_solve`).
-/

namespace SplitQP

open Checked

variable {α : Type}

/-! ## Attempts -/

namespace Attempt

variable {β γ : Type} {x : Attempt α β} {f : β → Attempt α γ} {ss : History α} {b : β}
  {e : CallError}

theorem run_ofExcept (e : Except CallError β) :
    (ofExcept e : Attempt α β).run = ⟨[], .ok e⟩ := rfl

theorem run_bind_of_ok (h : x.run = ⟨ss, .ok (.ok b)⟩) :
    (x >>= f).run = ⟨ss ++ (f b).run.steps, (f b).run.ending⟩ := by
  rw [ExceptT.run_bind, h]
  rfl

theorem run_bind_of_refused (h : x.run = ⟨ss, .ok (.error e)⟩) :
    (x >>= f).run = ⟨ss, .ok (.error e)⟩ := by
  rw [ExceptT.run_bind, h, Course.bind_of_ok rfl]
  exact congrArg (Course.mk · _) (List.append_nil ss)

variable (tags : List LoanTag)

theorem run_orGiveBack_of_ok (h : x.run = ⟨ss, .ok (.ok b)⟩) :
    (orGiveBack tags x).run = ⟨ss, .ok (.ok b)⟩ := by
  rw [orGiveBack, ExceptT.run_mk, h]
  rfl

theorem run_orGiveBack_of_refused (h : x.run = ⟨ss, .ok (.error e)⟩) :
    (orGiveBack tags x).run = ⟨ss ++ tags.map .released, .ok (.error e)⟩ := by
  rw [orGiveBack, ExceptT.run_mk, h]
  rfl

end Attempt

/-! ## A program is put together -/

section Program

variable [Scalar α]

/-- **What a program is put together from.** -/
structure Program.IsFrom (n m : Int) (q : Loan α) (P A : TripletLoans α) (l u : Loan α)
    (p : Program α) : Prop where
  sizes : Program.sizes n m q.data l.data u.data = .ok (p.n, p.m)
  quadratic : ∃ dropped, P.coordinates.toCsc "quadratic objective" p.n p.n =
    .ok (.ok (p.P, dropped))
  linear : ∃ dropped, A.coordinates.toCsc "constraint matrix" p.m p.n = .ok (.ok (p.A, dropped))
  q_eq : p.q = q
  l_eq : p.l = l
  u_eq : p.u = u

/-- The buffers of a matrix are given back as soon as it is built. -/
theorem TripletLoans.run_build_of_ok {t : TripletLoans α} {matrix : String} {nrows ncols : ℕ}
    {A : Csc α} {dropped : ℕ}
    (h : t.coordinates.toCsc matrix nrows ncols = .ok (.ok (A, dropped))) :
    (t.build matrix nrows ncols).run =
      ⟨.built matrix nrows ncols A.value.size dropped :: t.tags.map .released, .ok (.ok A)⟩ := by
  have hmade : (ExceptT.mk (Course.ofChecked (t.coordinates.toCsc matrix nrows ncols)) :
      Attempt α (Csc α × ℕ)).run = ⟨[], .ok (.ok (A, dropped))⟩ := by
    rw [h]
    rfl
  rw [build, Attempt.run_bind_of_ok (Attempt.run_orGiveBack_of_ok _ hmade)]
  rfl

theorem TripletLoans.run_build_of_error {t : TripletLoans α} {matrix : String} {nrows ncols : ℕ}
    {e : CallError} (h : t.coordinates.toCsc matrix nrows ncols = .ok (.error e)) :
    (t.build matrix nrows ncols).run = ⟨t.tags.map .released, .ok (.error e)⟩ := by
  have hmade : (ExceptT.mk (Course.ofChecked (t.coordinates.toCsc matrix nrows ncols)) :
      Attempt α (Csc α × ℕ)).run = ⟨[], .ok (.error e)⟩ := by
    rw [h]
    rfl
  exact Attempt.run_bind_of_refused (Attempt.run_orGiveBack_of_refused _ hmade)

namespace Program

/-- **The ways putting a program together can go.** -/
inductive Assembling (n m : Int) (q : Loan α) (P A : TripletLoans α) (l u : Loan α) :
    Course (Step α) (Except CallError (Program α)) → Prop
  /-- The sizes do not fit. -/
  | missized {e : CallError} : sizes n m q.data l.data u.data = .error e →
      Assembling n m q P A l u
        ⟨(u.tag :: l.tag :: A.tags ++ P.tags ++ [q.tag]).map .released, .ok (.error e)⟩
  /-- The coordinates of the objective are no matrix. -/
  | noQuadratic {n' m' : ℕ} {e : CallError} : sizes n m q.data l.data u.data = .ok (n', m') →
      P.coordinates.toCsc "quadratic objective" n' n' = .ok (.error e) →
      Assembling n m q P A l u
        ⟨P.tags.map .released ++ (u.tag :: l.tag :: A.tags ++ [q.tag]).map .released,
          .ok (.error e)⟩
  /-- The coordinates of the constraints are no matrix. -/
  | noLinear {n' m' : ℕ} {Q : Csc α} {dropped : ℕ} {e : CallError} :
      sizes n m q.data l.data u.data = .ok (n', m') →
      P.coordinates.toCsc "quadratic objective" n' n' = .ok (.ok (Q, dropped)) →
      A.coordinates.toCsc "constraint matrix" m' n' = .ok (.error e) →
      Assembling n m q P A l u
        ⟨.built "quadratic objective" n' n' Q.value.size dropped :: (P.tags.map .released ++
          (A.tags.map .released ++ [u.tag, l.tag, q.tag].map .released)), .ok (.error e)⟩
  /-- There is a program. -/
  | assembled {p : Program α} {dropped dropped' : ℕ} : p.IsFrom n m q P A l u →
      Assembling n m q P A l u
        ⟨.built "quadratic objective" p.n p.n p.P.value.size dropped :: (P.tags.map .released ++
          .built "constraint matrix" p.m p.n p.A.value.size dropped' :: (A.tags.map .released ++
            [.assembled p.n p.m])), .ok (.ok p)⟩

/-- **Putting a program together goes in one of these ways.** -/
theorem assembling_assemble (n m : Int) (q : Loan α) (P A : TripletLoans α) (l u : Loan α) :
    Assembling n m q P A l u (assemble n m q P A l u).run := by
  rw [assemble]
  cases hsizes : sizes n m q.data l.data u.data with
  | error e =>
    rw [Attempt.run_bind_of_refused (Attempt.run_orGiveBack_of_refused _
      (Attempt.run_ofExcept _))]
    exact .missized hsizes
  | ok r =>
    obtain ⟨n', m'⟩ := r
    rw [Attempt.run_bind_of_ok (Attempt.run_orGiveBack_of_ok _ (Attempt.run_ofExcept _))]
    dsimp only
    obtain ⟨quadratic, hquadratic, -⟩ :=
      P.coordinates.toCsc_ensures "quadratic objective" n' n'
    cases quadratic with
    | error e =>
      rw [Attempt.run_bind_of_refused (Attempt.run_orGiveBack_of_refused _
        (TripletLoans.run_build_of_error hquadratic))]
      exact .noQuadratic hsizes hquadratic
    | ok r =>
      obtain ⟨Q, dropped⟩ := r
      rw [Attempt.run_bind_of_ok (Attempt.run_orGiveBack_of_ok _
        (TripletLoans.run_build_of_ok hquadratic))]
      obtain ⟨linear, hlinear, -⟩ := A.coordinates.toCsc_ensures "constraint matrix" m' n'
      cases linear with
      | error e =>
        rw [Attempt.run_bind_of_refused (Attempt.run_orGiveBack_of_refused _
          (TripletLoans.run_build_of_error hlinear))]
        exact .noLinear hsizes hquadratic hlinear
      | ok r =>
        obtain ⟨B, dropped'⟩ := r
        rw [Attempt.run_bind_of_ok (Attempt.run_orGiveBack_of_ok _
          (TripletLoans.run_build_of_ok hlinear))]
        exact .assembled (p := ⟨n', m', Q, q, B, l, u⟩)
          ⟨hsizes, ⟨dropped, hquadratic⟩, ⟨dropped', hlinear⟩, rfl, rfl, rfl⟩

/-- What a program is put together from determines it. -/
theorem IsFrom.unique {n m : Int} {q l u : Loan α} {P A : TripletLoans α} {p p' : Program α}
    (h : p.IsFrom n m q P A l u) (h' : p'.IsFrom n m q P A l u) : p = p' := by
  obtain ⟨hsizes, ⟨_, hP⟩, ⟨_, hA⟩, hq, hl, hu⟩ := h
  obtain ⟨hsizes', ⟨_, hP'⟩, ⟨_, hA'⟩, hq', hl', hu'⟩ := h'
  obtain ⟨n₁, m₁, Q, q₁, B, l₁, u₁⟩ := p
  obtain ⟨n₂, m₂, Q', q₂, B', l₂, u₂⟩ := p'
  dsimp only at *
  subst hq hl hu hq' hl' hu'
  rw [hsizes] at hsizes'
  cases hsizes'
  rw [hP] at hP'
  cases hP'
  rw [hA] at hA'
  cases hA'
  rfl

/-- **A program from a call has room** for its matrices. -/
theorem IsFrom.hasRoom {n m : Int} {q l u : Loan α} {P A : TripletLoans α} {p : Program α}
    (h : p.IsFrom n m q P A l u) : p.HasRoom := by
  obtain ⟨_, hP⟩ := h.quadratic
  obtain ⟨_, hA⟩ := h.linear
  exact ⟨(P.coordinates.toCsc_ensures _ p.n p.n).of_eq_ok hP _ rfl,
    (A.coordinates.toCsc_ensures _ p.m p.n).of_eq_ok hA _ rfl⟩

/-- The vectors of a program stay on loan. -/
theorem IsFrom.tags_eq {n m : Int} {q l u : Loan α} {P A : TripletLoans α} {p : Program α}
    (h : p.IsFrom n m q P A l u) : p.tags = [q.tag, l.tag, u.tag] := by
  rw [tags, h.q_eq, h.l_eq, h.u_eq]

namespace Assembling

variable {n m : Int} {q l u : Loan α} {P A : TripletLoans α} {ss : History α}

theorem isFrom {p : Program α} (h : Assembling n m q P A l u ⟨ss, .ok (.ok p)⟩) :
    p.IsFrom n m q P A l u := by
  cases h with
  | assembled h => exact h

/-- What is refused cannot be put together. -/
theorem not_isFrom {e : CallError} (h : Assembling n m q P A l u ⟨ss, .ok (.error e)⟩)
    (p : Program α) : ¬ p.IsFrom n m q P A l u := by
  rintro ⟨hsizes', ⟨_, hP'⟩, ⟨_, hA'⟩, -⟩
  cases h with
  | missized hsizes =>
    rw [hsizes] at hsizes'
    cases hsizes'
  | noQuadratic hsizes hP =>
    rw [hsizes] at hsizes'
    cases hsizes'
    rw [hP] at hP'
    cases hP'
  | noLinear hsizes hP hA =>
    rw [hsizes] at hsizes'
    cases hsizes'
    rw [hA] at hA'
    cases hA'

/-- Nothing but preliminaries happens. -/
theorem takes_preliminary {course : Course (Step α) (Except CallError (Program α))}
    (h : Assembling n m q P A l u course) : course.Takes Step.IsPreliminary := by
  have hreleased := fun tags : List LoanTag =>
    History.isPreliminary_released (α := α) tags
  cases h with
  | missized => exact hreleased _
  | noQuadratic =>
    exact List.forall_mem_append.mpr ⟨hreleased _, hreleased _⟩
  | noLinear =>
    exact List.forall_mem_cons.mpr ⟨trivial, List.forall_mem_append.mpr ⟨hreleased _,
      List.forall_mem_append.mpr ⟨hreleased _, hreleased _⟩⟩⟩
  | assembled =>
    exact List.forall_mem_cons.mpr ⟨trivial, List.forall_mem_append.mpr ⟨hreleased _,
      List.forall_mem_cons.mpr ⟨trivial, List.forall_mem_append.mpr ⟨hreleased _,
        List.forall_mem_singleton.mpr trivial⟩⟩⟩⟩

/-- Putting a program together borrows nothing. -/
theorem acquisitions_eq {course : Course (Step α) (Except CallError (Program α))}
    (h : Assembling n m q P A l u course) : History.acquisitions course.steps = [] := by
  have hbuilt : ∀ (matrix : String) (nrows ncols nnz dropped : ℕ) (k : History α),
      History.acquisitions (.built matrix nrows ncols nnz dropped :: k) = History.acquisitions k :=
    fun _ _ _ _ _ _ => rfl
  cases h with
  | missized => exact History.acquisitions_released _
  | noQuadratic | noLinear =>
    simp only [hbuilt, History.acquisitions_append, History.acquisitions_released, List.append_nil]
  | assembled =>
    simp only [hbuilt, History.acquisitions_append, History.acquisitions_released, List.nil_append]
    rfl

/-- Where there is a program, the buffers of its matrices are back, and no others. -/
theorem releases_of_ok {p : Program α} (h : Assembling n m q P A l u ⟨ss, .ok (.ok p)⟩) :
    History.releases ss = P.tags ++ A.tags := by
  have hbuilt : ∀ (matrix : String) (nrows ncols nnz dropped : ℕ) (k : History α),
      History.releases (.built matrix nrows ncols nnz dropped :: k) = History.releases k :=
    fun _ _ _ _ _ _ => rfl
  cases h with
  | assembled =>
    simp only [hbuilt, History.releases_append, History.releases_released]
    exact congrArg (P.tags ++ ·) (List.append_nil _)

end Assembling

end Program

end Program

/-! ## A call -/

namespace LoanedCall

variable {c : LoanedCall α} {b : Backend α} {refusal : String → Option String} {p : Program α}
  {settings : Settings α}

/-- A session in a call, and the outputs given back after it however it ends. -/
theorem inSession_eq : c.inSession b refusal p settings =
    ⟨(Session.run b refusal .uninitialized p settings c.logPath c.primal.data c.dual.data).steps ++
        c.outputTags.map .released,
      (Session.run b refusal .uninitialized p settings c.logPath c.primal.data
        c.dual.data).ending.map (⟨·, true⟩)⟩ := by
  rw [inSession]
  generalize Session.run b refusal .uninitialized p settings c.logPath c.primal.data
    c.dual.data = session
  obtain ⟨steps, ending⟩ := session
  cases ending with
  | error f => rfl
  | ok status => rfl

theorem checkOutputs_eq_ok_iff : c.checkOutputs p = .ok () ↔
    c.primal.data.size = p.n ∧ c.dual.data.size = p.m := by
  rw [checkOutputs, bind_eq_ok]
  constructor
  · rintro ⟨_, hprimal, hdual⟩
    exact ⟨CallError.checkLength_eq_ok.mp hprimal, CallError.checkLength_eq_ok.mp hdual⟩
  · rintro ⟨hprimal, hdual⟩
    exact ⟨(), CallError.checkLength_eq_ok.mpr hprimal, CallError.checkLength_eq_ok.mpr hdual⟩

variable [RoundingScalar α]

/-- **The ways a call that holds its buffers can go.** -/
inductive Passage (c : LoanedCall α) (b : Backend α) (refusal : String → Option String) :
    Course (Step α) Outcome → Prop
  /-- There is no program. -/
  | notAssembled {ss : History α} {e : CallError} :
      Program.Assembling c.n c.m c.q c.P c.A c.l c.u ⟨ss, .ok (.error e)⟩ →
      Passage c b refusal
        ⟨ss ++ .refused e :: (c.outputTags ++ c.settingTags).map .released,
          .ok ⟨setupErrorCode, false⟩⟩
  /-- There are no settings. -/
  | noSettings {ss : History α} {p : Program α} {e : CallError} :
      Program.Assembling c.n c.m c.q c.P c.A c.l c.u ⟨ss, .ok (.ok p)⟩ →
      Assignment.ofArrays c.names.data c.values.data = .error e →
      Passage c b refusal
        ⟨ss ++ .refused e :: (p.tags ++ c.outputTags ++ c.settingTags).map .released,
          .ok ⟨setupErrorCode, false⟩⟩
  /-- The output buffers have other sizes than the program. -/
  | outputsMisfit {ss : History α} {p : Program α} {pairs : List (Assignment α)} {e : CallError} :
      Program.Assembling c.n c.m c.q c.P c.A c.l c.u ⟨ss, .ok (.ok p)⟩ →
      Assignment.ofArrays c.names.data c.values.data = .ok pairs →
      c.checkOutputs p = .error e →
      Passage c b refusal
        ⟨ss ++ (pairs.map .assigned ++ ([c.names.tag, c.values.tag].map .released ++
          .refused e :: (p.tags ++ c.outputTags).map .released)),
          .ok ⟨setupErrorCode, false⟩⟩
  /-- A session runs. -/
  | ran {ss : History α} {p : Program α} {pairs : List (Assignment α)} :
      Program.Assembling c.n c.m c.q c.P c.A c.l c.u ⟨ss, .ok (.ok p)⟩ →
      Assignment.ofArrays c.names.data c.values.data = .ok pairs →
      c.primal.data.size = p.n → c.dual.data.size = p.m →
      Passage c b refusal
        ⟨ss ++ (pairs.map .assigned ++ ([c.names.tag, c.values.tag].map .released ++
          ((Session.run b refusal .uninitialized p (.ofAssignments pairs) c.logPath c.primal.data
            c.dual.data).steps ++ c.outputTags.map .released))),
          (Session.run b refusal .uninitialized p (.ofAssignments pairs) c.logPath c.primal.data
            c.dual.data).ending.map (⟨·, true⟩)⟩

/-- **A call goes in one of these ways.** -/
theorem passage_solve (c : LoanedCall α) (b : Backend α) (refusal : String → Option String) :
    c.Passage b refusal (c.solve b refusal) := by
  have hassembling := Program.assembling_assemble c.n c.m c.q c.P c.A c.l c.u
  obtain ⟨r, hending, -⟩ := Program.assemble_ends c.n c.m c.q c.P c.A c.l c.u
  rw [solve]
  generalize (Program.assemble c.n c.m c.q c.P c.A c.l c.u).run = course at hassembling hending
  obtain ⟨ss, ending⟩ := course
  obtain rfl : ending = .ok r := hending
  have hok : ((⟨ss, .ok r⟩ : Course (Step α) (Except CallError (Program α))).onFault
      ((c.outputTags ++ c.settingTags).map .released)) = ⟨ss, .ok r⟩ := rfl
  rw [hok, Course.bind_of_ok rfl]
  cases r with
  | error e => exact .notAssembled hassembling
  | ok p =>
    dsimp only
    rw [solveProgram]
    cases hpairs : Assignment.ofArrays c.names.data c.values.data with
    | error e => exact .noSettings hassembling hpairs
    | ok pairs =>
      simp only [giveBack, Course.walk_bind]
      cases houtputs : c.checkOutputs p with
      | error e => exact .outputsMisfit hassembling hpairs houtputs
      | ok _ =>
        obtain ⟨hprimal, hdual⟩ := checkOutputs_eq_ok_iff.mp houtputs
        simp only [inSession_eq]
        exact .ran hassembling hpairs hprimal hdual

/-- **The data and the settings of a call can be read,** as this program and these
pairs. -/
def Marshals (c : LoanedCall α) (p : Program α) (pairs : List (Assignment α)) : Prop :=
  p.IsFrom c.n c.m c.q c.P c.A c.l c.u ∧ Assignment.ofArrays c.names.data c.values.data = .ok pairs

/-- A call is read in one way at most. -/
theorem Marshals.unique {p' : Program α} {pairs pairs' : List (Assignment α)}
    (h : c.Marshals p pairs) (h' : c.Marshals p' pairs') : p = p' ∧ pairs = pairs' := by
  refine ⟨h.1.unique h'.1, ?_⟩
  have hpairs := h.2
  rw [h'.2] at hpairs
  cases hpairs
  rfl

/-- **Around a session in a call:** before it, when the buffers `borrowed` have been borrowed,
those of the matrices and of the settings are given back; after it the outputs are. -/
structure Hosts (c : LoanedCall α) (borrowed : List LoanTag) (before after : History α) : Prop where
  preliminary_before : ∀ s ∈ before, s.IsPreliminary
  acquisitions_before : History.acquisitions before = borrowed
  releases_before : History.releases before =
    c.P.tags ++ c.A.tags ++ [c.names.tag, c.values.tag]
  preliminary_after : ∀ s ∈ after, s.IsPreliminary
  releases_after : History.releases after = c.outputTags

/-- **A call is refused, or a session runs** between preliminaries. -/
theorem solve_refused_or_ran (c : LoanedCall α) (b : Backend α)
    (refusal : String → Option String) :
    ((∀ p pairs, c.Marshals p pairs → ¬ (c.primal.data.size = p.n ∧ c.dual.data.size = p.m)) ∧
        (c.solve b refusal).ending = .ok ⟨setupErrorCode, false⟩ ∧
        (c.solve b refusal).Takes Step.IsPreliminary) ∨
      ∃ p pairs before after, c.Marshals p pairs ∧ c.primal.data.size = p.n ∧
        c.dual.data.size = p.m ∧ c.Hosts [] before after ∧ c.solve b refusal =
          ⟨before ++ ((Session.run b refusal .uninitialized p (.ofAssignments pairs) c.logPath
              c.primal.data c.dual.data).steps ++ after),
            (Session.run b refusal .uninitialized p (.ofAssignments pairs) c.logPath
              c.primal.data c.dual.data).ending.map (⟨·, true⟩)⟩ := by
  have hpassage := c.passage_solve b refusal
  have hreleased := fun tags : List LoanTag => History.isPreliminary_released (α := α) tags
  have hassigned := fun pairs : List (Assignment α) => History.isPreliminary_assigned pairs
  generalize c.solve b refusal = course at hpassage ⊢
  cases hpassage with
  | notAssembled hassembling =>
    exact .inl ⟨fun p _ hmarshals => absurd hmarshals.1 (hassembling.not_isFrom p), rfl,
      List.forall_mem_append.mpr ⟨hassembling.takes_preliminary,
        List.forall_mem_cons.mpr ⟨trivial, hreleased _⟩⟩⟩
  | noSettings hassembling hpairs =>
    refine .inl ⟨fun _ _ hmarshals => ?_, rfl,
      List.forall_mem_append.mpr ⟨hassembling.takes_preliminary,
        List.forall_mem_cons.mpr ⟨trivial, hreleased _⟩⟩⟩
    have hpairs' := hmarshals.2
    rw [hpairs] at hpairs'
    cases hpairs'
  -- the program that did not fit is the only one the call can be read as
  | @outputsMisfit ss p pairs e hassembling hpairs houtputs =>
    refine .inl ⟨fun p' _ hmarshals hsizes => ?_, rfl,
      List.forall_mem_append.mpr ⟨hassembling.takes_preliminary,
        List.forall_mem_append.mpr ⟨hassigned pairs,
          List.forall_mem_append.mpr ⟨hreleased _,
            List.forall_mem_cons.mpr ⟨trivial, hreleased _⟩⟩⟩⟩⟩
    obtain rfl := hmarshals.1.unique hassembling.isFrom
    rw [checkOutputs_eq_ok_iff.mpr hsizes] at houtputs
    cases houtputs
  | @ran ss p pairs hassembling hpairs hprimal hdual =>
    have hborrows : History.acquisitions ss = [] := hassembling.acquisitions_eq
    have hhosts : c.Hosts [] (ss ++ (pairs.map .assigned ++
        [c.names.tag, c.values.tag].map .released)) (c.outputTags.map .released) := by
      refine ⟨List.forall_mem_append.mpr ⟨hassembling.takes_preliminary,
        List.forall_mem_append.mpr ⟨hassigned pairs, hreleased _⟩⟩, ?_, ?_, hreleased _,
        History.releases_released _⟩
      · simp only [History.acquisitions_append, hborrows, History.acquisitions_assigned,
          History.acquisitions_released, List.append_nil]
      · simp only [History.releases_append, hassembling.releases_of_ok,
          History.releases_assigned, History.releases_released, List.nil_append]
    refine .inr ⟨p, pairs, _, _, ⟨hassembling.isFrom, hpairs⟩, hprimal, hdual, hhosts, ?_⟩
    simp only [List.append_assoc]

end LoanedCall

/-! ## Borrowing -/

/-- The step that borrows a buffer. -/
def Loan.acquiring {β : Type} (loan : Loan β) : Step α := .acquired loan.tag loan.data.size

/-- The steps that borrow the buffers of a matrix. -/
def TripletLoans.acquiring (t : TripletLoans α) : History α :=
  [t.rows.acquiring, t.cols.acquiring, t.vals.acquiring]

/-- **The steps that borrow the buffers of a call,** in order. -/
def LoanedCall.borrowing (c : LoanedCall α) : History α :=
  c.q.acquiring :: (c.P.acquiring ++ c.A.acquiring ++ [c.l.acquiring, c.u.acquiring,
    c.names.acquiring, c.values.acquiring, c.primal.acquiring, c.dual.acquiring])

namespace LoanedCall

/-- The tags of all buffers, in the order in which they are borrowed. -/
def tags (c : LoanedCall α) : List LoanTag :=
  c.q.tag :: (c.P.tags ++ c.A.tags ++ [c.l.tag, c.u.tag, c.names.tag, c.values.tag, c.primal.tag,
    c.dual.tag])

end LoanedCall

namespace Call

/-- A matrix once its buffers are borrowed, the first one as loan `id`. -/
def loanedTriplets (id : ℕ) (t : Coordinates α) : TripletLoans α :=
  ⟨⟨⟨id, "triplet rows"⟩, t.rows⟩, ⟨⟨id + 1, "triplet columns"⟩, t.cols⟩,
    ⟨⟨id + 2, "triplet values"⟩, t.vals⟩⟩

/-- A call once its buffers are borrowed. -/
def loaned (c : Call α) (primal dual : Array α) : LoanedCall α where
  n := c.n
  m := c.m
  logPath := c.logPath
  q := ⟨⟨0, "linear objective"⟩, c.objective⟩
  P := loanedTriplets 1 c.quadratic
  A := loanedTriplets 4 c.matrix
  l := ⟨⟨7, "lower bounds"⟩, c.lower⟩
  u := ⟨⟨8, "upper bounds"⟩, c.upper⟩
  names := ⟨⟨9, "setting names"⟩, c.names⟩
  values := ⟨⟨10, "setting values"⟩, c.values⟩
  primal := ⟨⟨11, "primal output"⟩, primal⟩
  dual := ⟨⟨12, "dual output"⟩, dual⟩

variable {c : Call α} {primal dual : Array α}

variable [RoundingScalar α] {b : Backend α} {refusal : String → Option String}

/-- A backend of other widths is refused before anything is borrowed. -/
theorem solve_of_widths_ne (h : b.widths ≠ .expected) : c.solve b refusal primal dual =
    ⟨[.refused (.widthMismatch b.widths)], .ok ⟨setupErrorCode, false⟩⟩ := by
  rw [solve, Backend.checkWidths, if_neg h]
  rfl

/-- **A call borrows its buffers and goes on with them.** -/
theorem solve_of_widths_eq (h : b.widths = .expected) : c.solve b refusal primal dual =
    ⟨.called c.n c.m c.quadratic.vals.size c.matrix.vals.size ::
        ((c.loaned primal dual).borrowing ++ ((c.loaned primal dual).solve b refusal).steps),
      ((c.loaned primal dual).solve b refusal).ending⟩ := by
  rw [solve, Backend.checkWidths, if_pos h]
  rfl

omit [RoundingScalar α] in
theorem isPreliminary_borrowing (c : LoanedCall α) : ∀ s ∈ c.borrowing, s.IsPreliminary := by
  simp [LoanedCall.borrowing, TripletLoans.acquiring, Loan.acquiring, Step.IsPreliminary]

/-- **A call is refused, or a session runs that can begin,** between preliminaries. -/
theorem solve_refused_or_ran (c : Call α) (b : Backend α) (refusal : String → Option String)
    (primal dual : Array α) :
    ((∀ p pairs, (c.loaned primal dual).Marshals p pairs → ¬ Session.Fit b p primal dual) ∧
        (c.solve b refusal primal dual).ending = .ok ⟨setupErrorCode, false⟩ ∧
        (c.solve b refusal primal dual).Takes Step.IsPreliminary) ∨
      ∃ p pairs before after, (c.loaned primal dual).Marshals p pairs ∧
        Session.Fit b p primal dual ∧
        (c.loaned primal dual).Hosts (c.loaned primal dual).tags before after ∧
        c.solve b refusal primal dual =
          ⟨before ++ ((Session.run b refusal .uninitialized p (.ofAssignments pairs) c.logPath
              primal dual).steps ++ after),
            (Session.run b refusal .uninitialized p (.ofAssignments pairs) c.logPath
              primal dual).ending.map (⟨·, true⟩)⟩ := by
  by_cases hwidths : b.widths = .expected
  · have hbegin : ∀ s ∈ Step.called c.n c.m c.quadratic.vals.size c.matrix.vals.size ::
        (c.loaned primal dual).borrowing, s.IsPreliminary :=
      List.forall_mem_cons.mpr ⟨trivial, isPreliminary_borrowing _⟩
    rw [solve_of_widths_eq hwidths]
    rcases (c.loaned primal dual).solve_refused_or_ran b refusal with
      ⟨hmisfit, hending, htakes⟩ | ⟨p, pairs, before, after, hc, hprimal, hdual, hhosts, hsolve⟩
    · exact .inl ⟨fun p pairs hc hfit => hmisfit p pairs hc ⟨hfit.size_primal, hfit.size_dual⟩,
        hending, List.forall_mem_append.mpr ⟨hbegin, htakes⟩⟩
    · have hborrowed : (c.loaned primal dual).Hosts (c.loaned primal dual).tags
          (.called c.n c.m c.quadratic.vals.size c.matrix.vals.size ::
            ((c.loaned primal dual).borrowing ++ before)) after := by
        refine ⟨List.forall_mem_append.mpr ⟨hbegin, hhosts.preliminary_before⟩, ?_,
          hhosts.releases_before, hhosts.preliminary_after, hhosts.releases_after⟩
        change History.acquisitions (_ ++ before) = _
        rw [History.acquisitions_append, hhosts.acquisitions_before, List.append_nil]
        rfl
      refine .inr ⟨p, pairs, _, after, hc, ⟨hwidths, hprimal, hdual⟩, hborrowed, ?_⟩
      rw [hsolve, List.cons_append, List.append_assoc]
      rfl
  · rw [solve_of_widths_ne hwidths]
    exact .inl ⟨fun _ _ _ hfit => hwidths hfit.widths_eq, rfl,
      List.forall_mem_singleton.mpr trivial⟩

end Call

end SplitQP
