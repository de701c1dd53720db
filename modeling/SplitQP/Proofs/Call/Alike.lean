import SplitQP.Proofs.Call.Passage
/-!
# Calls that end alike

Two calls end alike where a caller cannot tell them apart by the status, by
the output buffers or by what is heard of the backend (`Course.EndsAlike`).
What is borrowed and given back around a session makes no difference to
that. So calls end alike if they are read alike, as programs on which a
session goes the same (`LoanedCall.solve_endsAlike`).
-/

namespace SplitQP

variable {α : Type}

/-- **Two calls end alike:** with the same ending, the same writes to the output buffers and
so the same in these, and the same heard of the backend. -/
structure Course.EndsAlike (x y : Course (Step α) Outcome) : Prop where
  ending_eq : y.ending = x.ending
  heard_eq : History.heard y.steps = History.heard x.steps
  writes_eq : History.writes y.steps = History.writes x.steps
  primal_eq : ∀ start, History.primal start y.steps = History.primal start x.steps
  dual_eq : ∀ start, History.dual start y.steps = History.dual start x.steps

namespace Course.EndsAlike

variable {x y z : Course (Step α) Outcome}

theorem of_writes (hending : y.ending = x.ending)
    (hheard : History.heard y.steps = History.heard x.steps)
    (hwrites : History.writes y.steps = History.writes x.steps) : x.EndsAlike y where
  ending_eq := hending
  heard_eq := hheard
  writes_eq := hwrites
  primal_eq start := by rw [History.primal_eq_foldl, History.primal_eq_foldl, hwrites]
  dual_eq start := by rw [History.dual_eq_foldl, History.dual_eq_foldl, hwrites]

theorem refl (x : Course (Step α) Outcome) : x.EndsAlike x := .of_writes rfl rfl rfl

theorem symm (h : x.EndsAlike y) : y.EndsAlike x :=
  .of_writes h.ending_eq.symm h.heard_eq.symm h.writes_eq.symm

theorem trans (hxy : x.EndsAlike y) (hyz : y.EndsAlike z) : x.EndsAlike z :=
  .of_writes (hyz.ending_eq.trans hxy.ending_eq) (hyz.heard_eq.trans hxy.heard_eq)
    (hyz.writes_eq.trans hxy.writes_eq)

/-- Refusals are alike. -/
theorem of_preliminary (hending : y.ending = x.ending) (hx : x.Takes Step.IsPreliminary)
    (hy : y.Takes Step.IsPreliminary) : x.EndsAlike y := by
  refine .of_writes hending ?_ ?_
  · rw [History.heard_of_preliminary hx, History.heard_of_preliminary hy]
  · rw [History.writes_of_preliminary hx, History.writes_of_preliminary hy]

/-- Preliminaries before and after make no difference. -/
theorem around {before after : History α} (hbefore : ∀ s ∈ before, s.IsPreliminary)
    (hafter : ∀ s ∈ after, s.IsPreliminary) (x : Course (Step α) Outcome) :
    x.EndsAlike ⟨before ++ (x.steps ++ after), x.ending⟩ := by
  refine .of_writes rfl ?_ ?_
  · rw [History.heard_append, History.heard_append, History.heard_of_preliminary hbefore,
      History.heard_of_preliminary hafter, List.nil_append, List.append_nil]
  · rw [History.writes_append, History.writes_append, History.writes_of_preliminary hbefore,
      History.writes_of_preliminary hafter, List.nil_append, List.append_nil]

end Course.EndsAlike

variable [RoundingScalar α] {b : Backend α} {refusal : String → Option String}

/-- **Calls that are read alike end alike,** where sessions on the programs they are read as
go the same. -/
theorem LoanedCall.solve_endsAlike {c c' : LoanedCall α} {R : Program α → Program α → Prop}
    (hread : ∀ p pairs, c.Marshals p pairs → ∃ p', c'.Marshals p' pairs ∧ R p p')
    (hread' : ∀ p' pairs, c'.Marshals p' pairs → ∃ p, c.Marshals p pairs)
    (hsizes : ∀ p p', R p p' → p'.n = p.n ∧ p'.m = p.m)
    (hrun : ∀ p p' settings, R p p' →
      Session.run b refusal .uninitialized p' settings c'.logPath c'.primal.data c'.dual.data =
        Session.run b refusal .uninitialized p settings c.logPath c.primal.data c.dual.data)
    (hprimal : c'.primal.data = c.primal.data) (hdual : c'.dual.data = c.dual.data) :
    (c.solve b refusal).EndsAlike (c'.solve b refusal) := by
  -- one refused and the other not cannot be: both are read or neither, and for the same sizes
  rcases c.solve_refused_or_ran b refusal with ⟨hmisfit, hending, htakes⟩ | hran
  · rcases c'.solve_refused_or_ran b refusal with ⟨-, hending', htakes'⟩ | hran'
    · exact .of_preliminary (hending'.trans hending.symm) htakes htakes'
    · obtain ⟨p', pairs, _, _, hc', hp, hd, -⟩ := hran'
      obtain ⟨p, hc⟩ := hread' p' pairs hc'
      obtain ⟨p'', hc'', hR⟩ := hread p pairs hc
      obtain ⟨rfl, -⟩ := hc'.unique hc''
      obtain ⟨hn, hm⟩ := hsizes p p' hR
      rw [hprimal, hn] at hp
      rw [hdual, hm] at hd
      exact absurd ⟨hp, hd⟩ (hmisfit p pairs hc)
  · obtain ⟨p, pairs, before, after, hc, hp, hd, hhosts, hsolve⟩ := hran
    obtain ⟨p', hc', hR⟩ := hread p pairs hc
    rcases c'.solve_refused_or_ran b refusal with ⟨hmisfit', -⟩ | hran'
    · obtain ⟨hn, hm⟩ := hsizes p p' hR
      exact absurd ⟨by rw [hprimal, hn, hp], by rw [hdual, hm, hd]⟩ (hmisfit' p' pairs hc')
    · obtain ⟨p'', pairs', before', after', hc'', -, -, hhosts', hsolve'⟩ := hran'
      obtain ⟨rfl, rfl⟩ := hc'.unique hc''
      rw [hsolve, hsolve', hrun p p' _ hR]
      generalize Session.run b refusal .uninitialized p (.ofAssignments pairs) c.logPath
        c.primal.data c.dual.data = session
      refine .trans (.symm (.around hhosts.preliminary_before hhosts.preliminary_after
        ⟨session.steps, session.ending.map (⟨·, true⟩)⟩)) ?_
      exact .around hhosts'.preliminary_before hhosts'.preliminary_after
        ⟨session.steps, session.ending.map (⟨·, true⟩)⟩

/-- **A call ends as it does once its buffers are borrowed.** -/
theorem Call.solve_endsAlike_loaned (c : Call α) (hwidths : b.widths = .expected)
    (primal dual : Array α) :
    ((c.loaned primal dual).solve b refusal).EndsAlike (c.solve b refusal primal dual) := by
  rw [solve_of_widths_eq hwidths]
  have hbefore : ∀ s ∈ Step.called c.n c.m c.quadratic.vals.size c.matrix.vals.size ::
      (c.loaned primal dual).borrowing, s.IsPreliminary :=
    List.forall_mem_cons.mpr ⟨trivial, isPreliminary_borrowing _⟩
  have haround := Course.EndsAlike.around hbefore (List.forall_mem_nil _)
    ((c.loaned primal dual).solve b refusal)
  rwa [List.append_nil] at haround

end SplitQP
