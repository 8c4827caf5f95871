import TypeInference.Proofs.Congruences
import TypeInference.Proofs.Reports

/-!
# Inference without reports of mismatches

An inference that reports mismatches is compared with one that does not. Most of what an inference
does neither looks at reports nor makes any. Where a mismatch is reported, the other run does
nothing.
-/

namespace TypeInference

/-! ## Leaving mismatches out -/

def Diagnostic.isMismatch : Diagnostic → Bool
  | .mismatch .. => true
  | .cannotDeref .. => false

/-- The reports other than mismatches. -/
def withoutMismatches (reports : List Diagnostic) : List Diagnostic :=
  reports.filter fun d => !d.isMismatch

def State.silenced (s : State) : State := s.withReports (withoutMismatches s.diagnostics)

def WalkState.silenced (w : WalkState) : WalkState := { w with toState := w.toState.silenced }

def Outcome.silenced (o : Outcome) : Outcome :=
  { o with diagnostics := withoutMismatches o.diagnostics }

/-- The session with mismatches reported, or not. -/
def Session.reporting (s : Session) (on : Bool) : Session :=
  { s with config := { s.config with reportMismatches := on } }

/-- A well-formed state with reports at expressions of the body. -/
structure State.Sited (body : Body) (s : State) : Prop where
  wellFormed : s.WellFormed
  sites : ∀ d ∈ s.diagnostics, ∀ id, d.site = .expr id → body.HasExpr id

theorem State.Sited.concat {body : Body} {s : State} (h : s.Sited body) {d : Diagnostic}
    (hd : ∀ id, d.site = .expr id → body.HasExpr id) :
    State.Sited body { s with diagnostics := s.diagnostics ++ [d] } := by
  have hevolves : s.Evolves { s with diagnostics := s.diagnostics ++ [d] } := .recorded rfl rfl
  refine ⟨(hevolves.spec h.wellFormed).1, fun d' hd' id hid => ?_⟩
  rcases List.mem_append.1 hd' with hold | hnew
  · exact h.sites d' hold id hid
  · rw [List.mem_singleton] at hnew
    exact hd id (hnew ▸ hid)

namespace Infer

variable {α β γ δ : Type} {scope : Scope} {E : Fault → Prop}

/-! ## Computations that have nothing to do with reports -/

/-- The computation neither depends on reports, or on whether mismatches are reported, nor makes
reports. -/
def Unreporting (scope : Scope) (x : Infer α) : Prop :=
  ∀ (on : Bool) (s : State) (reports : List Diagnostic),
    x (scope.reporting on) (s.withReports reports) =
      (x scope s).map fun p => (p.1, p.2.withReports reports)

namespace Unreporting

variable {x : Infer α} {f : α → Infer β}

theorem pure {a : α} : Unreporting scope (pure a : Infer α) := fun _ _ _ => rfl

theorem bindOf (hx : Unreporting scope x) (hf : ∀ a, Gives scope x a → Unreporting scope (f a)) :
    Unreporting scope (x >>= f) := by
  intro on s reports
  show (x (scope.reporting on) (s.withReports reports) >>= fun p => f p.1 (scope.reporting on) p.2) =
    (x scope s >>= fun p => f p.1 scope p.2).map fun p => (p.1, p.2.withReports reports)
  rw [hx]
  cases hrun : x scope s with
  | error e => rfl
  | ok p => exact hf p.1 ⟨s, p.2, hrun⟩ on p.2 reports

theorem bind (hx : Unreporting scope x) (hf : ∀ a, Unreporting scope (f a)) :
    Unreporting scope (x >>= f) :=
  hx.bindOf fun a _ => hf a

theorem lift {x : Except Fault α} : Unreporting scope (liftM x : Infer α) := by
  intro on s reports
  cases x with
  | error e | ok a => rfl

theorem readVars {f : Vars → Except Fault α} : Unreporting scope (readVars f) := by
  intro on s reports
  exact (lift : Unreporting scope _) on s reports

theorem onVars {act : VarM α} : Unreporting scope (onVars act) := by
  intro on s reports
  show ((liftM (act s.vars) : Infer (α × Vars)) >>= fun p => do
    set { s.withReports reports with vars := p.2 }
    return p.1) (scope.reporting on) (s.withReports reports) =
      (((liftM (act s.vars) : Infer (α × Vars)) >>= fun p => do
        set { s with vars := p.2 }
        return p.1) scope s).map fun p => (p.1, p.2.withReports reports)
  cases act s.vars with
  | error e | ok p => rfl

theorem modify {f : State → State} (hf : Silent f) :
    Unreporting scope (modify f : Infer Unit) := by
  intro on s reports
  exact congrArg (fun s => Except.ok ((), s)) (hf s reports)

theorem stateBind {f : State → Infer β} (hsame : ∀ s reports, f (s.withReports reports) = f s)
    (hf : ∀ s, Unreporting scope (f s)) : Unreporting scope (get >>= f) := by
  intro on s reports
  show f (s.withReports reports) (scope.reporting on) (s.withReports reports) = _
  rw [hsame]
  exact hf s on s reports

theorem forM {f : α → Infer PUnit} (hf : ∀ a, Unreporting scope (f a)) {xs : List α} :
    Unreporting scope (xs.forM f) := by
  induction xs with
  | nil => exact pure
  | cons x xs ih => exact (hf x).bind fun _ => ih

theorem snapshot : Unreporting scope snapshot := fun _ _ _ => rfl

theorem rollback {m : Mark} : Unreporting scope (rollback m) := modify fun _ _ => rfl

theorem probe (hx : Unreporting scope x) : Unreporting scope (probe x) :=
  snapshot.bind fun _ => hx.bind fun _ => rollback.bind fun _ => pure

theorem combineIfOk {a b : Ty} : Unreporting scope (combineIfOk a b) := by
  refine snapshot.bind fun m => onVars.bind fun ok => ?_
  cases ok with
  | true => exact (modify (f := State.commit) fun _ _ => rfl).bind fun _ => pure
  | false => exact rollback.bind fun _ => pure

theorem cacheOp (h : CacheOp α x) : Unreporting scope x := by
  cases h with
  | put p entry => exact modify fun _ _ => rfl
  | start p => exact fun _ _ _ => rfl

end Unreporting

/-- Regular computations have nothing to do with reports. -/
theorem Regular.unreporting {x : Infer α} (h : Regular scope E (Noting CacheOp) x) :
    Unreporting scope x := by
  induction h with
  | atom hx =>
    cases hx with
    | op hx => exact .cacheOp hx
    | record _ hsilent => exact .modify hsilent
  | pure a => exact .pure
  | bindOf _ _ ih ih' => exact ih.bindOf ih'
  | throw _ => exact fun _ _ _ => rfl
  | lift _ => exact .lift
  | @scopeBind β f hsame _ ih =>
    intro on s reports
    show f (scope.reporting on) (scope.reporting on) (s.withReports reports) = _
    rw [hsame]
    exact ih on s reports
  | stateBind hsame _ ih => exact .stateBind hsame ih
  | readVars _ => exact .readVars
  | onVars _ _ => exact .onVars
  | freshTy => exact fun _ _ _ => rfl
  | probe _ ih => exact ih.probe
  | combineIfOk _ => exact .combineIfOk

/-! ## Two computations -/

/-- The computation `y`, where mismatches are not reported, does what `x` does where they are, with
`ρ` of its result and without mismatches in the state, unless `x` fails with a fault of `E`. -/
structure Mutes (E : Fault → Prop) (scope : Scope) (ρ : α → β) (x : Infer α) (y : Infer β) :
    Prop where
  sited : ∀ ⦃s a s'⦄, s.Sited scope.body → x (scope.reporting true) s = .ok (a, s') →
    s'.Sited scope.body
  agrees : ∀ ⦃s⦄, s.Sited scope.body → (∃ f, E f ∧ x (scope.reporting true) s = .error f) ∨
    y (scope.reporting false) s.silenced =
      (x (scope.reporting true) s).map fun p => (ρ p.1, p.2.silenced)

namespace Mutes

variable {x : Infer α} {y : Infer β} {ρ : α → β} {f : α → Infer γ} {g : β → Infer δ} {ρ' : γ → δ}
  {expr : ExprId} {ty : Ty} {pat : PatId}

theorem pure (ρ : α → β) (a : α) :
    Mutes E scope ρ (pure a : Infer α) (pure (ρ a) : Infer β) where
  sited s _ _ hs h := by
    cases h
    exact hs
  agrees _ _ := .inr rfl

theorem bindOf (hx : Mutes E scope ρ x y)
    (hf : ∀ a, Gives (scope.reporting true) x a → Mutes E scope ρ' (f a) (g (ρ a))) :
    Mutes E scope ρ' (x >>= f) (y >>= g) where
  sited s c s' hs h := by
    obtain ⟨a, s₁, hfirst, hrest⟩ := bind_eq_ok h
    exact (hf a ⟨s, s₁, hfirst⟩).sited (hx.sited hs hfirst) hrest
  agrees s hs := by
    rcases hx.agrees hs with ⟨f, hE, herror⟩ | hsame
    · exact .inl ⟨f, hE, bind_of_error herror⟩
    -- Either both runs fail here, or both go on.
    · cases hrun : x (scope.reporting true) s with
      | error e =>
        rw [hrun] at hsame
        rw [bind_of_error hrun, bind_of_error hsame]
        exact .inr rfl
      | ok p =>
        rw [hrun] at hsame
        rw [bind_of_ok hrun, bind_of_ok hsame]
        exact (hf p.1 ⟨s, p.2, hrun⟩).agrees (hx.sited hs hrun)

theorem bind (hx : Mutes E scope ρ x y) (hf : ∀ a, Mutes E scope ρ' (f a) (g (ρ a))) :
    Mutes E scope ρ' (x >>= f) (y >>= g) :=
  hx.bindOf fun a _ => hf a

/-- What has nothing to do with reports does the same in both runs. -/
theorem of_unreporting (hx : Unreporting scope x)
    (hwellFormed : ∀ ⦃s a s'⦄, s.WellFormed → x (scope.reporting true) s = .ok (a, s') →
      s'.WellFormed) : Mutes E scope id x x where
  sited s a s' hs h := by
    refine ⟨hwellFormed hs.wellFormed h, ?_⟩
    have hrun := hx true s s.diagnostics
    cases hsame : x scope s with
    | error e =>
      rw [hsame] at hrun
      cases h.symm.trans hrun
    | ok p =>
      rw [hsame] at hrun
      cases h.symm.trans hrun
      exact hs.sites
  agrees s hs := by
    right
    have hon : x (scope.reporting true) s = _ := hx true s s.diagnostics
    rw [State.silenced, hx false s, hon]
    cases x scope s with
    | error e | ok p => rfl

theorem of_regular (hx : ∀ scope, Regular scope Fault.IsOrdinary (Noting CacheOp) x) :
    Mutes E scope id x x :=
  of_unreporting (hx scope).unreporting fun _ _ _ hs h =>
    (((hx _).quiet hs h).1.spec hs).1

theorem of_orderly [Mentioning α]
    (hx : ∀ scope, Orderly scope Fault.IsOrdinary (Noting CacheOp) (fun _ => True) x) :
    Mutes E scope id x x :=
  of_regular fun scope => (hx scope).anyway

theorem scopeBind {f : Scope → Infer α} {g : Scope → Infer β}
    (hf : ∀ on, f (scope.reporting on) = f scope) (hg : ∀ on, g (scope.reporting on) = g scope)
    (h : Mutes E scope ρ (f scope) (g scope)) : Mutes E scope ρ (read >>= f) (read >>= g) where
  sited s a s' hs hrun := by
    change f (scope.reporting true) (scope.reporting true) s = _ at hrun
    rw [hf true] at hrun
    exact h.sited hs hrun
  agrees s hs := by
    have hagrees := h.agrees hs
    rw [← hf true, ← hg false] at hagrees
    exact hagrees

theorem stateBind {f : State → Infer α} {g : State → Infer β}
    (h : ∀ s, Mutes E scope ρ (f s) (g s.silenced)) : Mutes E scope ρ (get >>= f) (get >>= g) where
  sited s _ _ hs hrun := (h s).sited hs hrun
  agrees s hs := (h s).agrees hs

/-- One run may do something that leaves no trace but a mismatch. -/
theorem skip {y : Infer δ} {ρ : γ → δ}
    (hx : ∀ ⦃s⦄, s.Sited scope.body → (∃ f, E f ∧ x (scope.reporting true) s = .error f) ∨
      ∃ a s', x (scope.reporting true) s = .ok (a, s') ∧ s'.Sited scope.body ∧
        s'.silenced = s.silenced) (hf : ∀ a, Mutes E scope ρ (f a) y) :
    Mutes E scope ρ (x >>= f) y where
  sited s c s' hs h := by
    obtain ⟨a, s₁, hfirst, hrest⟩ := bind_eq_ok h
    rcases hx hs with ⟨_, -, herror⟩ | ⟨a', s₁', hrun, hs₁, -⟩
    · rw [hfirst] at herror
      cases herror
    · rw [hfirst] at hrun
      cases hrun
      exact (hf a).sited hs₁ hrest
  agrees s hs := by
    rcases hx hs with ⟨e, hE, herror⟩ | ⟨a, s₁, hrun, hs₁, hsame⟩
    · exact .inl ⟨e, hE, bind_of_error herror⟩
    · rw [bind_of_ok hrun, ← hsame]
      exact (hf a).agrees hs₁

/-! ## Reports -/

theorem reportCannotDeref (hexpr : scope.body.HasExpr expr) :
    Mutes E scope id (reportCannotDeref expr ty) (Infer.reportCannotDeref expr ty) where
  sited s a s' hs h := by
    cases h
    refine hs.concat fun other hother => ?_
    cases hother
    exact hexpr
  agrees s hs := by
    right
    have hadded : withoutMismatches s.diagnostics ++ [.cannotDeref expr ty] =
        withoutMismatches (s.diagnostics ++ [.cannotDeref expr ty]) := by
      rw [withoutMismatches, withoutMismatches, List.filter_append]
      rfl
    exact congrArg (fun reports => Except.ok ((), s.withReports reports)) hadded

/-- The faults of `E` are all that reports in the body fail with, when a mismatch is reported and when
the types of a report are closed. -/
structure Covers (E : Fault → Prop) (body : Body) : Prop where
  reported : ∀ ⦃scope : Scope⦄ ⦃s : State⦄, scope.body = body → s.Sited body →
    ∀ site expected actual, FailsWith E (reportMismatch site expected actual (scope.reporting true) s)
  closed : ∀ ⦃scope : Scope⦄ ⦃s : State⦄, scope.body = body → s.Sited body →
    ∀ ty, FailsWith E (close ty (scope.reporting true) s)

section

variable (hvariable : ∀ i, E (.dangling .variable i))
  (hclimb : ∀ outer inner, scope.body.HasExpr inner →
    FailsWith E (scope.body.isAncestorOf outer inner)) {s : State} {site : Site}

include hvariable in
theorem resolve_failsWith (hs : s.WellFormed) (scope : Scope) (k : Var → Ty) (t : Ty) :
    FailsWith E (readVars (fun vs => t.mapM (vs.resolveNode k)) scope s) := by
  exact (hs.vars.resolve_failsWith hvariable k t).bind fun _ => .ok _

include hclimb in
theorem anyM_failsWith (hs : s.Sited scope.body) (id : ExprId) {ds : List Diagnostic}
    (hds : ds ⊆ s.diagnostics) : FailsWith E ((ds.anyM fun d => match d.site with
      | .expr other => (scope.body.isAncestorOf id other : Infer Bool)
      | .pat _ => Pure.pure false : Infer Bool) (scope.reporting true) s) := by
  induction ds with
  | nil => exact .ok _
  | cons d ds ih =>
    obtain ⟨hd, hds⟩ := List.cons_subset.1 hds
    cases hsite : d.site with
    | pat other =>
      simp only [List.anyM_cons, hsite, pure_bind, Bool.false_eq_true, if_false]
      exact ih hds
    | expr other =>
      simp only [List.anyM_cons, hsite]
      have hfails := hclimb id other (hs.sites d hd other hsite)
      cases hrun : scope.body.isAncestorOf id other with
      | error e =>
        rw [bind_of_error (e := e) rfl]
        exact .error (hfails e hrun)
      | ok found =>
        rw [bind_of_ok (show _ = Except.ok (found, s) from rfl)]
        cases found with
        | true => exact .ok _
        | false => exact ih hds

include hvariable hclimb

theorem reportMismatch_failsWith (hs : s.Sited scope.body) (site : Site) (expected actual : Ty) :
    FailsWith E (reportMismatch site expected actual (scope.reporting true) s) := by
  refine (resolve_failsWith hvariable hs.wellFormed _ _ expected).bind_of_ok ?_
  rintro ⟨e, s₁⟩ he
  obtain ⟨-, rfl⟩ := readVars_eq_ok he
  refine (resolve_failsWith hvariable hs.wellFormed _ _ _).bind_of_ok ?_
  rintro ⟨a, s₂⟩ ha
  obtain ⟨-, rfl⟩ := readVars_eq_ok ha
  dsimp only
  split
  · exact .ok _
  · cases site with
    | pat id => exact .ok _
    | expr id =>
      refine (anyM_failsWith hclimb hs id (List.Subset.refl s₂.diagnostics)).bind fun p => ?_
      obtain ⟨known, s₃⟩ := p
      cases known with
      | true | false => exact .ok _

/-- A report fails because a variable does not exist, or because a climb does not end. -/
theorem covers : Covers E scope.body where
  reported scope' s hbody hs site expected actual := by
    rw [← hbody] at hs hclimb
    exact reportMismatch_failsWith hvariable hclimb hs site expected actual
  closed _ _ _ hs ty := resolve_failsWith hvariable hs.wellFormed _ _ ty

end

section

variable (hcovers : Covers E scope.body) {s : State} {site : Site}

include hcovers

/-- Reporting a mismatch is such. -/
theorem reportMismatch_run (hs : s.Sited scope.body)
    (hsite : ∀ id, site = .expr id → scope.body.HasExpr id) (expected actual : Ty) :
    (∃ f, E f ∧ reportMismatch site expected actual (scope.reporting true) s = .error f) ∨
      ∃ u s', reportMismatch site expected actual (scope.reporting true) s = .ok (u, s') ∧
        s'.Sited scope.body ∧ s'.silenced = s.silenced := by
  cases hrun : reportMismatch site expected actual (scope.reporting true) s with
  | error f => exact .inl ⟨f, hcovers.reported rfl hs _ _ _ f hrun, rfl⟩
  | ok p =>
    refine .inr ⟨p.1, p.2, rfl, ?_⟩
    rcases reportMismatch_eq_ok hs.wellFormed hrun with hsame | ⟨e, a, -, -, -, -, -, hadded⟩
    · rw [hsame]
      exact ⟨hs, rfl⟩
    · rw [hadded]
      refine ⟨hs.concat hsite, ?_⟩
      exact congrArg s.withReports ((List.filter_append ..).trans (List.append_nil _))

/-- Whether a mismatch is reported makes no difference to what follows. -/
theorem reportMismatch (hsite : ∀ id, site = .expr id → scope.body.HasExpr id)
    (expected actual : Ty) {f : Unit → Infer α} {g : Unit → Infer β}
    (hf : Mutes E scope ρ (f ()) (g ())) :
    Mutes E scope ρ (reportMismatch site expected actual >>= f)
      (Infer.reportMismatch site expected actual >>= g) := by
  have hskip : Mutes E scope ρ (Infer.reportMismatch site expected actual >>= f) (g ()) :=
    skip (fun s hs => reportMismatch_run hcovers hs hsite _ _) fun _ => hf
  exact ⟨hskip.sited, hskip.agrees⟩

theorem coerce (hexpr : scope.body.HasExpr expr) {source target : Ty} :
    Mutes E scope id (coerce expr source target) (Infer.coerce expr source target) := by
  refine (of_regular fun _ => .resolveSettled).bind fun source => ?_
  refine (of_regular fun _ => .resolveSettled).bind fun target => ?_
  refine (of_regular fun _ => .tryCoerce).bind fun ok => ?_
  cases ok with
  | true => exact pure id true
  | false =>
    refine reportMismatch hcovers ?_ _ _ (pure id false)
    rintro _ ⟨⟩
    exact hexpr

theorem variantShape {expected : Ty} :
    Mutes E scope id (Walk.variantShape pat expected) (Walk.variantShape pat expected) := by
  refine scopeBind (fun _ => rfl) (fun _ => rfl) ?_
  split
  · exact pure id none
  · next variant explicit _ =>
    refine (of_orderly fun _ => .instantiateAdt within_true).bind fun found => ?_
    refine (of_regular fun _ => .combine).bind fun ok => ?_
    cases ok with
    | true => exact pure id _
    | false => exact reportMismatch hcovers (fun _ h => by cases h) _ _ (pure id _)

end

/-! ## Records -/

theorem writeExprTy : Mutes E scope id (writeExprTy expr ty) (Infer.writeExprTy expr ty) := by
  refine of_unreporting (fun on s reports => ?_) fun s a s' hs h => ?_
  · rw [Walk.writeExprTy_run, Walk.writeExprTy_run]
    show (if s.exprTypes.contains expr.index = true then _ else _) = _
    split
    · rfl
    · rfl
  · rw [Walk.writeExprTy_run] at h
    split at h
    · cases h
    · cases h
      exact ((s.evolves_exprTypes _).spec hs).1

theorem writeBinding : Mutes E scope id (writeBinding pat ty) (Infer.writeBinding pat ty) := by
  refine of_unreporting (.modify fun _ _ => rfl) fun s a s' hs h => ?_
  cases h
  exact ((s.evolves_bindings _).spec hs).1

theorem literal {lit : Literal} {expected : Option Ty} :
    Mutes E scope id (Walk.literal lit expected) (Walk.literal lit expected) := by
  refine of_unreporting ?_ fun s a s' hs h =>
    ((Regular.literal.keeps_records hs h).1.spec hs).1
  have hint : Unreporting scope (Walk.plainInt expected) := by
    unfold Walk.plainInt
    split
    all_goals exact fun _ _ _ => rfl
  have hfloat : Unreporting scope (Walk.plainFloat expected) := by
    unfold Walk.plainFloat
    split
    all_goals exact fun _ _ _ => rfl
  cases lit with
  | int kind =>
    cases kind with
    | none => exact hint
    | some kind => exact .pure
  | float kind =>
    cases kind with
    | none => exact hfloat
    | some kind => exact .pure
  | _ => exact .pure

/-! ## Finishing -/

theorem unreporting_defaultVar (v : Var) : Unreporting scope (defaultVar v) := by
  cases v with
  | ty i => exact .pure
  | int i | float i =>
    refine .stateBind (fun _ _ => rfl) fun s => Unreporting.lift.bind fun found => ?_
    cases found with
    | none => exact Unreporting.lift.bind fun _ => .modify fun _ _ => rfl
    | some kind => exact .pure

theorem defaultNumericVars :
    Mutes E scope id defaultNumericVars Infer.defaultNumericVars := by
  refine of_unreporting ?_ fun s a s' hs h => ((relates_defaultTypes hs h).1.spec hs).1
  refine .stateBind (fun _ _ => rfl) fun s => .forM (fun ty => ?_)
  exact Unreporting.readVars.bind fun t => .forM unreporting_defaultVar

section

variable (hcovers : Covers E scope.body)

include hcovers

theorem skipClose {f : Ty → Infer α} (hf : ∀ ty', Mutes E scope ρ (f ty') y) :
    Mutes E scope ρ (close ty >>= f) y := by
  refine skip (fun s hs => ?_) hf
  cases hrun : close ty (scope.reporting true) s with
  | error f => exact .inl ⟨f, hcovers.closed rfl hs ty f hrun, rfl⟩
  | ok p =>
    obtain ⟨-, hsame⟩ := readVars_eq_ok hrun
    exact .inr ⟨p.1, p.2, rfl, hsame ▸ hs, hsame ▸ rfl⟩

/-- The types of mismatches are closed in one run only. -/
theorem closeReports {reports : List Diagnostic} :
    Mutes E scope withoutMismatches (reports.mapM (Diagnostic.mapM close))
      ((withoutMismatches reports).mapM (Diagnostic.mapM close)) := by
  induction reports with
  | nil => exact pure withoutMismatches []
  | cons d reports ih =>
    cases d with
    | mismatch site expected actual =>
      rw [List.mapM_cons]
      show Mutes E scope _ (_ >>= _) ((withoutMismatches reports).mapM _)
      rw [← bind_pure (List.mapM _ (withoutMismatches reports))]
      simp only [Diagnostic.mapM, bind_assoc, pure_bind]
      refine skipClose hcovers fun e => skipClose hcovers fun a => ?_
      exact ih.bind fun ds => pure withoutMismatches (.mismatch site e a :: ds)
    | cannotDeref expr ty =>
      have hkept : withoutMismatches (.cannotDeref expr ty :: reports) =
          .cannotDeref expr ty :: withoutMismatches reports := rfl
      rw [hkept, List.mapM_cons, List.mapM_cons]
      simp only [Diagnostic.mapM, bind_assoc, pure_bind]
      refine (of_orderly fun _ => .close within_true).bind fun ty' => ih.bind fun ds => ?_
      exact pure withoutMismatches (.cannotDeref expr ty' :: ds)

theorem closeRecords : Mutes E scope Outcome.silenced closeRecords Infer.closeRecords := by
  refine stateBind fun s => ?_
  refine (of_orderly fun _ => .idMapM within_true fun _ _ => .close).bind fun types => ?_
  refine (of_orderly fun _ => .idMapM within_true fun _ _ => .close).bind fun bindings => ?_
  refine (of_orderly fun _ => .idMapM within_true fun _ _ => .closeMethods).bind fun methods => ?_
  refine (of_orderly fun _ => .idMapM within_true fun _ _ => .closeAdjustments).bind
    fun adjustments => ?_
  exact (closeReports hcovers).bind fun reports => pure Outcome.silenced _

/-- Finishing does the same, mismatches apart. -/
theorem finish : Mutes E scope Outcome.silenced finish Infer.finish := by
  rw [finish_eq]
  refine (of_orderly fun _ => .settlePending).bind fun _ => defaultNumericVars.bind fun _ => ?_
  exact (of_orderly fun _ => .refineCalls).bind fun _ => closeRecords hcovers

end

end Mutes

end Infer

/-! ## Sessions -/

namespace SessionM

variable {α β γ δ : Type} {E : Fault → Prop}

/-- The computation `y` does what `x` does, with `ρ` of its result, unless `x` fails with a fault of
`E`. -/
def Mutes (E : Fault → Prop) (ρ : α → β) (x : SessionM α) (y : SessionM β) : Prop :=
  ∀ σ, (∃ f σ', E f ∧ x σ = (.error (.fault f), σ')) ∨ y σ = ((x σ).1.map ρ, (x σ).2)

namespace Mutes

variable {x : SessionM α} {y : SessionM β} {ρ : α → β} {f : α → SessionM γ} {g : β → SessionM δ}
  {ρ' : γ → δ}

theorem refl : Mutes E id x x := by
  intro σ
  obtain ⟨r, σ'⟩ := x σ
  cases r with
  | error e | ok a => exact .inr rfl

theorem throw {e : Stop} : Mutes E ρ (throw e) (throw e) := fun _ => .inr rfl

theorem bindOf (hx : Mutes E ρ x y) (hf : ∀ σ a σ', x σ = (.ok a, σ') → Mutes E ρ' (f a) (g (ρ a))) :
    Mutes E ρ' (x >>= f) (y >>= g) := by
  intro σ
  rw [bind_run, bind_run]
  rcases hx σ with ⟨e, σ', hE, herror⟩ | hsame
  · rw [herror]
    exact .inl ⟨e, σ', hE, rfl⟩
  · rw [hsame]
    rcases hrun : x σ with ⟨r, σ₁⟩
    cases r with
    | error e => exact .inr rfl
    | ok a => exact hf σ a σ₁ hrun σ₁

theorem bind (hx : Mutes E ρ x y) (hf : ∀ a, Mutes E ρ' (f a) (g (ρ a))) :
    Mutes E ρ' (x >>= f) (y >>= g) :=
  hx.bindOf fun _ a _ _ => hf a

end Mutes

end SessionM

namespace Walk

open Infer

variable {α β γ δ : Type} {E : Fault → Prop} {body : Body}

/-- `Infer.Mutes` for walks. -/
structure Mutes (E : Fault → Prop) (body : Body) (ρ : α → β) (x : Walk α) (y : Walk β) : Prop where
  sited : ∀ ⦃scope : Scope⦄ ⦃w σ a w' σ'⦄, scope.body = body → w.toState.Sited body →
    x.go (scope.reporting true) w σ = (.ok (a, w'), σ') → w'.toState.Sited body
  agrees : ∀ ⦃scope : Scope⦄ ⦃w⦄, scope.body = body → w.toState.Sited body →
    SessionM.Mutes E (fun p => (ρ p.1, p.2.silenced)) (x.go (scope.reporting true) w)
      (y.go (scope.reporting false) w.silenced)

namespace Mutes

variable {x : Walk α} {y : Walk β} {ρ : α → β}

theorem bindOf {ρ' : γ → δ} {f : α → Walk γ} {g : β → Walk δ} (hx : Mutes E body ρ x y)
    (hf : ∀ a, Gives body x a → Mutes E body ρ' (f a) (g (ρ a))) :
    Mutes E body ρ' (x >>= f) (y >>= g) where
  sited scope w σ c w' σ' hbody hw h := by
    obtain ⟨a, w₁, σ₁, hfirst, hrest⟩ := bind_eq_ok h
    have hgives : Gives body x a := ⟨scope.reporting true, w, w₁, σ, σ₁, hbody, hfirst⟩
    exact (hf a hgives).sited hbody (hx.sited hbody hw hfirst) hrest
  agrees scope w hbody hw := by
    rw [go_bind, go_bind]
    refine SessionM.Mutes.bindOf (hx.agrees hbody hw) ?_
    rintro σ ⟨a, w₁⟩ σ₁ hrun
    have hgives : Gives body x a := ⟨scope.reporting true, w, w₁, σ, σ₁, hbody, hrun⟩
    exact (hf a hgives).agrees hbody (hx.sited hbody hw hrun)

theorem lift {x : Infer α} {y : Infer β} (h : ∀ scope : Scope, scope.body = body →
    Infer.Mutes E scope ρ x y) : Mutes E body ρ (liftM x : Walk α) (liftM y) where
  sited scope w σ a w' σ' hbody hw hrun := by
    subst hbody
    rw [lift_run] at hrun
    split at hrun
    · next hx =>
      cases hrun
      exact (h scope rfl).sited hw hx
    · cases hrun
  agrees scope w hbody hw σ := by
    subst hbody
    rw [lift_run, lift_run]
    have hagrees := (h scope rfl).agrees hw
    change (∃ f, E f ∧ x (scope.reporting true) w.toState = .error f) ∨
      y (scope.reporting false) w.silenced.toState =
        (x (scope.reporting true) w.toState).map fun p => (ρ p.1, p.2.silenced) at hagrees
    rcases hagrees with ⟨f, hE, herror⟩ | hsame
    · rw [herror]
      exact .inl ⟨f, σ, hE, rfl⟩
    · rw [hsame]
      cases x (scope.reporting true) w.toState with
      | error e | ok p => exact .inr rfl

theorem session {x y : SessionM α} (h : SessionM.Mutes E id x y) :
    Mutes E body id (liftM x : Walk α) (liftM y) where
  sited scope w σ a w' σ' _ hw hrun := by
    rw [session_run] at hrun
    split at hrun
    · cases hrun
      exact hw
    · cases hrun
  agrees scope w _ _ := by
    rw [go_session, go_session]
    exact h.bind fun _ _ => .inr rfl

theorem of_unchanged {a : Scope → α} (f : SessionState → SessionState)
    (hx : ∀ scope w σ, x.go scope w σ = (.ok (a scope, w), f σ))
    (ha : ∀ scope on, a (scope.reporting on) = a scope) : Mutes E body id x x where
  sited scope w σ b w' σ' _ hw hrun := by
    rw [hx] at hrun
    cases hrun
    exact hw
  agrees scope w _ _ σ := by
    rw [hx, hx, ha, ha]
    exact .inr rfl

/-- Walks in which mismatches are reported, and walks in which they are not, do the same. -/
theorem congruence (hcovers : Infer.Mutes.Covers E body) :
    Congruence body (fun _ => True) fun x y => Mutes E body id x y where
  pure a := of_unchanged (a := fun _ => a) id (fun _ _ _ => rfl) fun _ _ => rfl
  bindOf hx hf := hx.bindOf hf
  scopeBind {β f g} hf hg h := by
    refine ⟨fun scope w σ a w' σ' hbody hw hrun => ?_, fun scope w hbody hw => ?_⟩
    · change (f (scope.reporting true)).go (scope.reporting true) w σ = _ at hrun
      rw [hf scope true] at hrun
      exact (h scope hbody).sited hbody hw hrun
    · have hagrees := (h scope hbody).agrees hbody hw
      rw [← hf scope true, ← hg scope false] at hagrees
      exact hagrees
  exhausted := ⟨fun _ _ _ _ _ _ _ _ h => (by cases h), fun _ _ _ _ => .throw⟩
  infer hx := lift fun _ _ => .of_regular hx
  literal lit expected := lift fun _ _ => .literal
  writeExprTy id ty := lift fun _ _ => .writeExprTy
  writeBinding id ty := lift fun _ _ => .writeBinding
  -- Mismatches are reported where types are converted, and where a pattern names a variant.
  coerce hid source target := lift fun _ hbody => by
    subst hbody
    exact .coerce hcovers hid
  variantShape id expected := lift fun _ hbody => by
    subst hbody
    exact .variantShape hcovers
  reportCannotDeref hid ty := lift fun _ hbody => by
    subst hbody
    exact .reportCannotDeref hid
  lookUpPath id := of_unchanged (a := fun scope => scope.names.path id) SessionState.countLookUp
    (fun _ _ _ => rfl) fun _ _ => rfl
  checkCancelled := session .refl
  jumps := by
    refine ⟨fun scope w σ a w' σ' _ hw h => ?_, fun _ _ _ _ _ => .inr rfl⟩
    cases h
    exact hw
  setYielded ty _ := by
    refine ⟨fun scope w σ a w' σ' _ hw h => ?_, fun _ _ _ _ _ => .inr rfl⟩
    cases h
    exact hw
  inside b _ hx := by
    refine ⟨fun scope w σ a w' σ' hbody hw h => ?_, fun scope w hbody hw => ?_⟩
    · obtain ⟨w₁, hrun, -, rfl⟩ := inside_eq_ok h
      have hsited := hx.sited (w := w.jump (b.enter w.toJumps)) hbody hw hrun
      exact hsited
    · rw [inside_run, inside_run]
      have hagrees := hx.agrees (w := w.jump (b.enter w.toJumps)) hbody hw
      exact hagrees.bindOf fun _ _ _ _ _ => .inr rfl

end Mutes

end Walk

namespace Session

variable {s : Session} {E : Fault → Prop}

theorem answerTy_silenced (id : ConstId) (r : Except Stop Outcome) :
    s.answerTy id (r.map Outcome.silenced) = s.answerTy id r := by
  cases r with
  | error e | ok o => rfl

theorem mutes_rootTy {x y : SessionM Outcome} {id : ConstId}
    (h : SessionM.Mutes E Outcome.silenced x y) :
    SessionM.Mutes E (fun ty => ty) ((s.reporting true).rootTy id x)
      ((s.reporting false).rootTy id y) := by
  intro σ
  rw [rootTy_run, rootTy_run]
  rcases h σ with ⟨f, σ', hE, herror⟩ | hsame
  · rw [herror]
    exact .inl ⟨f, σ', hE, rfl⟩
  · right
    rw [hsame]
    show (s.answerTy id ((x σ).1.map Outcome.silenced), (x σ).2) = ((s.answerTy id (x σ).1).map _, _)
    rw [answerTy_silenced]
    cases s.answerTy id (x σ).1 with
    | error e | ok ty => rfl

theorem mutes_whileRunning {α β : Type} {ρ : α → β} {x : SessionM α} {y : SessionM β}
    (h : SessionM.Mutes E ρ x y) (owner : Owner) :
    SessionM.Mutes E ρ (whileRunning owner x) (whileRunning owner y) := by
  intro σ
  rw [whileRunning_run, whileRunning_run]
  rcases h { σ with running := owner :: σ.running } with ⟨f, σ', hE, herror⟩ | hsame
  · rw [herror]
    exact .inl ⟨f, _, hE, rfl⟩
  · rw [hsame]
    exact .inr rfl

theorem mutes_inferBody {const const' : ConstId → SessionM Ty}
    (hconst : ∀ id, SessionM.Mutes E (fun ty => ty) (const id) (const' id)) {owner : Owner}
    {body : Body} {names : Names} (hcovers : Infer.Mutes.Covers E body) :
    SessionM.Mutes E Outcome.silenced ((s.reporting true).inferBody const owner body names)
      ((s.reporting false).inferBody const' owner body names) := by
  have hitems (on : Bool) : (s.reporting on).program = s.program := rfl
  unfold inferBody
  rw [hitems, hitems]
  cases ParamEnv.ofOwner s.program.items owner with
  | error fault => exact .throw
  | ok env =>
    refine SessionM.Mutes.bind (ρ := fun p => (p.1.silenced, p.2.silenced)) ?_ fun _ _ => .inr rfl
    show SessionM.Mutes E _
      ((Walk.wholeBody _).go ((s.scope owner body names env).reporting true) {})
      ((Walk.wholeBody _).go ((s.scope owner body names env).reporting false) {})
    rw [Walk.wholeBody_run, Walk.wholeBody_run]
    have hwalk := (Walk.Mutes.congruence hcovers).entries const const' (fun _ => trivial)
      (fun id => .session (hconst id)) body.walkDepth owner
    have hfinish : Walk.Mutes E body Outcome.silenced (liftM Infer.finish : Walk Outcome)
        (liftM Infer.finish) := .lift fun _ hbody => .finish (hbody ▸ hcovers)
    have hwhole := hwalk.bindOf (f := fun _ => liftM Infer.finish)
      (g := fun _ => liftM Infer.finish) fun _ _ => hfinish
    have hbody : (s.scope owner body names env).body = body := rfl
    exact hwhole.agrees hbody ⟨wellFormed_start, nofun⟩

/-- So does the inference of a body, with the constants in it. -/
theorem mutes_inferWithin (hcovers : ∀ owner body names,
      s.program.body? owner = some (body, names) → Infer.Mutes.Covers E body)
    (n : Nat) (owner : Owner) :
    SessionM.Mutes E Outcome.silenced ((s.reporting true).inferWithin n owner)
      ((s.reporting false).inferWithin n owner) := by
  induction n generalizing owner with
  | zero => exact .throw
  | succ n ih =>
    -- Constants in the body are inferred with one level less.
    have hrest : SessionM.Mutes E Outcome.silenced
        ((s.reporting true).proceed (fun id => (s.reporting true).rootTy id
          ((s.reporting true).inferWithin n (.const id))) owner)
        ((s.reporting false).proceed (fun id => (s.reporting false).rootTy id
          ((s.reporting false).inferWithin n (.const id))) owner) := by
      refine SessionM.Mutes.refl.bind fun _ => ?_
      have hprogram (on : Bool) : (s.reporting on).program = s.program := rfl
      rw [hprogram, hprogram]
      cases hbody : s.program.body? owner with
      | none => exact .throw
      | some found =>
        refine mutes_whileRunning ?_ owner
        exact mutes_inferBody (fun id => mutes_rootTy (ih _)) (hcovers owner found.1 found.2 hbody)
    intro σ
    rw [inferWithin, inferWithin, start_run, start_run]
    split
    · exact .inr rfl
    · exact hrest σ

end Session

end TypeInference
