import TypeInference.Proofs.ClosedPrograms
import TypeInference.Proofs.Silence

/-!
# Reports do not influence typing

Whether mismatches are reported makes no difference but for the reports themselves, unless a report
fails. It can fail in two ways. It resolves the two types, so a variable that does not exist may first
be asked for there; and it looks for reports inside the expression by climbing from each of them, which
does not end where parent links go round.

Neither happens in a closed program whose parent links end: no variable is missing in its runs, and a
climb that meets no expression twice is at most as long as the body.
-/

namespace TypeInference

/-! ## Sessions -/

namespace Session

/-- A report in one of the bodies fails with `f`, where a mismatch is reported or where the types of a
report are closed at the end. -/
def ReportFails (s : Session) (f : Fault) : Prop :=
  ∃ (owner : Owner) (scope : Scope) (names : Names) (state : State),
    s.program.body? owner = some (scope.body, names) ∧ state.Sited scope.body ∧
    ((∃ site expected actual,
        Infer.reportMismatch site expected actual (scope.reporting true) state = .error f) ∨
      ∃ ty, Infer.close ty (scope.reporting true) state = .error f)

/-- It fails because a variable does not exist, or because a climb does not end. -/
theorem ReportFails.cause {s : Session} {f : Fault} (h : s.ReportFails f) :
    (∃ i, f = .dangling .variable i) ∨
    ∃ owner body names outer inner, s.program.body? owner = some (body, names) ∧
      body.HasExpr inner ∧ body.isAncestorOf outer inner = .error f := by
  obtain ⟨owner, scope, names, state, hbody, hstate, hfails⟩ := h
  have hcovers : Infer.Mutes.Covers (fun f => (∃ i, f = .dangling .variable i) ∨
      ∃ owner body names outer inner, s.program.body? owner = some (body, names) ∧
        body.HasExpr inner ∧ body.isAncestorOf outer inner = .error f) scope.body :=
    Infer.Mutes.covers (fun i => .inl ⟨i, rfl⟩) fun outer inner hinner f hf =>
      .inr ⟨owner, scope.body, names, outer, inner, hbody, hinner, hf⟩
  rcases hfails with ⟨site, expected, actual, hrun⟩ | ⟨ty, hrun⟩
  · exact hcovers.reported rfl hstate site expected actual f hrun
  · exact hcovers.closed rfl hstate ty f hrun

/-- A session that reports no mismatches answers what one that reports them does, with the
mismatches left out, unless the latter fails as a report does, and only the latter; and this does not
happen if the program is closed and its parent links end. -/
theorem reports_leave_types (s : Session) (owner : Owner) (σ : SessionState) :
    ((∃ f σ', s.ReportFails f ∧ (s.reporting true).infer owner σ = (.error (.fault f), σ') ∧
        (s.reporting false).infer owner σ ≠ (.error (.fault f), σ')) ∨
      (s.reporting false).infer owner σ =
        (((s.reporting true).infer owner σ).1.map Outcome.silenced,
          ((s.reporting true).infer owner σ).2)) ∧
    (Closed s.program →
      (∀ owner body names, s.program.body? owner = some (body, names) → body.Rooted) →
      (s.reporting false).infer owner σ =
        (((s.reporting true).infer owner σ).1.map Outcome.silenced,
          ((s.reporting true).infer owner σ).2)) := by
  have hcovers (owner : Owner) (body : Body) (names : Names)
      (hbody : s.program.body? owner = some (body, names)) : Infer.Mutes.Covers s.ReportFails body := by
    refine ⟨?_, ?_⟩
    · rintro scope state rfl hstate site expected actual f hrun
      exact ⟨owner, scope, names, state, hbody, hstate, .inl ⟨site, expected, actual, hrun⟩⟩
    · rintro scope state rfl hstate ty f hrun
      exact ⟨owner, scope, names, state, hbody, hstate, .inr ⟨ty, hrun⟩⟩
  have hagrees := mutes_inferWithin hcovers (s.program.bodies.length + 1) owner σ
  refine ⟨?_, fun hclosed hrooted => hagrees.resolve_left ?_⟩
  · rcases hagrees with ⟨f, σ', hf, hrun⟩ | hsame
    · by_cases hboth : (s.reporting false).infer owner σ = (.error (.fault f), σ')
      · have hfailed : (s.reporting true).infer owner σ = (.error (.fault f), σ') := hrun
        right
        rw [hboth, hfailed]
        rfl
      · exact .inl ⟨f, σ', hf, hrun, hboth⟩
    · exact .inr hsame
  -- No variable is missing in a closed program, and no climb goes on for ever.
  rintro ⟨f, σ', hf, hrun⟩
  rcases hf.cause with ⟨i, rfl⟩ | ⟨owner', body, names, outer, inner, hbody, hinner, hf⟩
  · exact (closes_inferWithin (s := s.reporting true) hclosed _ owner).fails σ _ σ' hrun i rfl
  · obtain ⟨b, hb⟩ := (hrooted owner' body names hbody).exists_isAncestorOf outer hinner
    rw [hb] at hf
    cases hf

theorem closed_pair : Closed pair.program := by
  refine Within.closed (within_or.2 ⟨within_items.2 ?_, ?_⟩)
  · have hdeclared : Within (fun _ => False) (⟨"C", some (.tuple [.bool, .bool])⟩ : Const) :=
      within_some.2 (Ty.within_tuple.2 (by simp))
    simp [pair, Items.empty, within_array, hdeclared]
  · refine within_bodies (within_cons.2 ⟨?_, within_cons.2 ⟨?_, within_singleton.2 ?_⟩⟩) <;>
      rintro v ⟨⟩

end Session

theorem Body.rooted_pair : Body.pair.Rooted := by
  have hparent (id parent : ExprId) (h : Body.pair.parent? id = .ok (some parent)) :
      id ≠ ⟨2⟩ ∧ parent = ⟨2⟩ := by
    obtain ⟨i⟩ := id
    match i, h with
    | 0, h =>
      cases h
      exact ⟨by decide, rfl⟩
    | 1, h =>
      cases h
      exact ⟨by decide, rfl⟩
    | 2, h => cases h
    | i + 3, h => cases h
  refine ⟨fun id parent h => ?_, fun id parent h hback => ?_⟩
  · rw [(hparent id parent h).2]
    exact ⟨_, rfl⟩
  · obtain ⟨hne, rfl⟩ := hparent id parent h
    -- No link leaves the root.
    rcases Relation.ReflTransGen.cases_head_iff.1 hback with heq | ⟨next, hnext, -⟩
    · exact hne heq.symm
    · cases hnext

namespace Session

/-- Both elements are reported, or nothing is; their types are the same. -/
theorem reports_leave_types_pair :
    ∃ o σ', (pair.reporting true).infer (.const ⟨0⟩) {} = (.ok o, σ') ∧
      o.diagnostics.length = 2 ∧ o.silenced.diagnostics.length = 0 ∧
      (pair.reporting false).infer (.const ⟨0⟩) {} = (.ok o.silenced, σ') := by
  have hrooted (owner : Owner) (body : Body) (names : Names)
      (hbody : pair.program.body? owner = some (body, names)) : body.Rooted := by
    obtain ⟨entry, hentry, heq⟩ := Option.map_eq_some_iff.1 hbody
    have hmem := List.mem_of_find?_eq_some hentry
    rw [List.mem_singleton.1 hmem] at heq
    cases heq
    exact Body.rooted_pair
  have hagrees := (reports_leave_types pair (.const ⟨0⟩) {}).2 closed_pair hrooted
  have hok : ((pair.reporting true).infer (.const ⟨0⟩) {}).1.toOption.map
      (fun o => (o.diagnostics.length, o.silenced.diagnostics.length)) = some (2, 0) := by
    decide +kernel
  obtain ⟨o, σ', hrun, hok⟩ := Except.exists_ok_of_fst hok
  rw [hrun] at hagrees
  obtain ⟨hlength, hsilent⟩ := Prod.mk.inj hok
  exact ⟨o, σ', hrun, hlength, hsilent, hagrees⟩

/-- A function `f<U>(S: U)`, where the resolution of the pattern `S`, a struct with a parameter, says
that the argument is a reference to an integer variable. There is no such variable. -/
def strayArgument : Session where
  program := {
    items := { Items.empty with
      paramNames := #["Self", "T", "U"],
      adts := #[⟨"S", ⟨[⟨1⟩], []⟩, .struct .unit, none⟩],
      functions := #[⟨"f", .free, ⟨[⟨2⟩], []⟩, none, [.param ⟨2⟩], .unit, false, true⟩] }
    known := {}
    bodies := [(.function ⟨0⟩,
      .ofNodes [.block .plain none [] none] [.path ["S"]] [⟨0⟩],
      Names.empty.setVariant (.pat ⟨0⟩) (.struct ⟨0⟩)
        (Subst.empty.insert ⟨1⟩ (.ref (.var (.int 7)) .shared .erased)))] }

/-- Nobody asks for the variable but the report that the pattern does not fit. -/
theorem strayArgument_fails :
    ∃ o σ σ', (strayArgument.reporting false).infer (.function ⟨0⟩) {} = (.ok o, σ) ∧
      (strayArgument.reporting true).infer (.function ⟨0⟩) {} =
        (.error (.fault (.dangling .variable 7)), σ') := by
  have hoff : ((strayArgument.reporting false).infer (.function ⟨0⟩) {}).1.toOption.isSome =
      true := by
    decide +kernel
  have hon : (match ((strayArgument.reporting true).infer (.function ⟨0⟩) {}).1 with
      | .error (.fault f) => some f
      | _ => none) = some (.dangling .variable 7) := by
    decide +kernel
  rcases hrun : (strayArgument.reporting false).infer (.function ⟨0⟩) {} with ⟨_ | o, σ⟩
  · rw [hrun] at hoff
    cases hoff
  rcases hrun' : (strayArgument.reporting true).infer (.function ⟨0⟩) {} with ⟨stop | _, σ'⟩
  · rw [hrun'] at hon
    cases stop with
    | fault f =>
      cases hon
      exact ⟨o, σ, σ', rfl, rfl⟩
    | cancelled | cycle _ | missingBody _ => cases hon
  · rw [hrun'] at hon
    cases hon

end Session

end TypeInference
