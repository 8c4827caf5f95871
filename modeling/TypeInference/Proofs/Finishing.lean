import TypeInference.Report
import TypeInference.Proofs.Information
import TypeInference.Proofs.Walks

/-!
# Finishing leaves nothing open

Values that variables have are never lost again, so a number that got its default width keeps it to
the end. Closing then leaves no variable in any type of the outcome.
-/

namespace TypeInference

/-! ## Closing -/

variable {t r : Ty}

theorem Ty.hasVar_eq_false_iff : t.hasVar = false ↔ t.vars = [] := by
  rw [hasVar, any, List.any_eq_false, vars, List.filterMap_eq_nil_iff]
  refine forall₂_congr fun u _ => ?_
  cases u <;> simp [isVar]

/-- There are no variables in a closed type. -/
theorem Vars.hasVar_of_close {vs : Vars} (h : vs.close t = .ok r) : r.hasVar = false := by
  rw [Ty.hasVar_eq_false_iff, List.eq_nil_iff_forall_not_mem]
  intro v hv
  obtain ⟨_, -, ⟨⟩⟩ := open_of_mem_resolve h hv

/-- What an adjusted value becomes. -/
def Adjustment.target : Adjustment → Ty
  | .deref target => target
  | .borrowRef target .. => target
  | .borrowPtr target _ => target

/-- All types of an outcome. -/
def Outcome.types (o : Outcome) : List Ty :=
  o.exprTypes.values ++ o.bindings.values ++ o.methods.values.flatten.map (·.self) ++
    o.adjustments.values.flatten.map (·.target) ++
      o.diagnostics.flatMap fun d => d.types.1.toList ++ [d.types.2]

/-- The maps have the same keys in the same order, with related values. -/
def IdMap.Rel {α β : Type} (R : α → β → Prop) (m : IdMap α) (m' : IdMap β) : Prop :=
  List.Forall₂ (fun p q => p.1 = q.1 ∧ R p.2 q.2) m.entries m'.entries

section

variable {α β : Type} {R : α → β → Prop} {xs : List α} {ys : List β} {y : β} {m : IdMap α}
  {m' : IdMap β}

theorem exists_of_forall₂ (h : List.Forall₂ R xs ys) (hy : y ∈ ys) : ∃ x, R x y := by
  induction h with
  | nil => cases hy
  | cons hxy _ ih =>
    rcases List.mem_cons.1 hy with rfl | hy
    · exact ⟨_, hxy⟩
    · exact ih hy

theorem IdMap.Rel.exists_of_mem (h : m.Rel R m') (hy : y ∈ m'.values) : ∃ x, R x y := by
  obtain ⟨⟨k, y⟩, hmem, rfl⟩ := List.mem_map.1 hy
  obtain ⟨p, -, hp⟩ := exists_of_forall₂ h hmem
  exact ⟨p.2, hp⟩

theorem IdMap.Rel.get? (h : m.Rel R m') (k : Nat) : Option.Rel R (m.get? k) (m'.get? k) := by
  obtain ⟨entries⟩ := m
  obtain ⟨entries'⟩ := m'
  change Option.Rel R (lookup k entries) (lookup k entries')
  replace h : List.Forall₂ _ entries entries' := h
  induction h with
  | nil => exact .none
  | cons hpq _ ih =>
    rw [lookup, lookup, hpq.1]
    split
    · exact .some hpq.2
    · exact ih

theorem isSome_of_rel {a : Option α} {b : Option β} (h : Option.Rel R a b) :
    b.isSome = a.isSome := by
  cases h <;> rfl

end

/-- Outcome `o` has the records of `s`, with all types closed. -/
structure State.ClosesTo (s : State) (o : Outcome) : Prop where
  exprTypes : s.exprTypes.Rel (fun t r => s.vars.close t = .ok r) o.exprTypes
  bindings : s.bindings.Rel (fun t r => s.vars.close t = .ok r) o.bindings
  methods : s.methods.Rel (List.Forall₂ fun m m' => s.vars.close m.self = .ok m'.self) o.methods
  adjustments :
    s.adjustments.Rel (List.Forall₂ fun a a' => a.mapM s.vars.close = .ok a') o.adjustments
  diagnostics : List.Forall₂ (fun d d' => d.mapM s.vars.close = .ok d') s.diagnostics o.diagnostics

/-- There are no variables in an outcome. -/
theorem State.ClosesTo.hasVar {s : State} {o : Outcome} (h : s.ClosesTo o) :
    ∀ ty ∈ o.types, ty.hasVar = false := by
  intro ty hty
  simp only [Outcome.types, List.mem_append, List.mem_map, List.mem_flatten,
    List.mem_flatMap] at hty
  rcases hty with (((hty | hty) | ⟨r, ⟨rs, hrs, hr⟩, rfl⟩) | ⟨a, ⟨as, has, ha⟩, rfl⟩) | ⟨d, hd, hty⟩
  · obtain ⟨_, h⟩ := h.exprTypes.exists_of_mem hty
    exact Vars.hasVar_of_close h
  · obtain ⟨_, h⟩ := h.bindings.exists_of_mem hty
    exact Vars.hasVar_of_close h
  · obtain ⟨_, h⟩ := h.methods.exists_of_mem hrs
    obtain ⟨_, h⟩ := exists_of_forall₂ h hr
    exact Vars.hasVar_of_close h
  · obtain ⟨_, h⟩ := h.adjustments.exists_of_mem has
    obtain ⟨a', h⟩ := exists_of_forall₂ h ha
    cases a' with
    | deref | borrowRef | borrowPtr =>
      obtain ⟨_, htarget, ⟨⟩⟩ := Except.bind_eq_ok h
      exact Vars.hasVar_of_close htarget
  · obtain ⟨d', h⟩ := exists_of_forall₂ h.diagnostics hd
    cases d' with
    | mismatch site expected actual =>
      obtain ⟨_, hexpected, h⟩ := Except.bind_eq_ok h
      obtain ⟨_, hactual, ⟨⟩⟩ := Except.bind_eq_ok h
      rcases hty with hty | hty
      · cases Option.mem_toList.1 hty
        exact Vars.hasVar_of_close hexpected
      · rw [List.mem_singleton.1 hty]
        exact Vars.hasVar_of_close hactual
    | cannotDeref expr _ =>
      obtain ⟨_, hfound, ⟨⟩⟩ := Except.bind_eq_ok h
      rcases hty with hty | hty
      · cases Option.mem_toList.1 hty
      · rw [List.mem_singleton.1 hty]
        exact Vars.hasVar_of_close hfound

namespace Infer

variable {α β : Type} {scope : Scope} {s s' : State} {f : α → Infer β} {R : α → β → Prop}
  {m' : IdMap β} {tys : List Ty} {xs : List α} {ys : List β} {m : IdMap α} {d d' : Diagnostic}
  {o : Outcome}

theorem mapM_eq_ok (hf : ∀ a b s', f a scope s = .ok (b, s') → s' = s ∧ R a b)
    (h : xs.mapM f scope s = .ok (ys, s')) : s' = s ∧ List.Forall₂ R xs ys := by
  induction xs generalizing ys s' with
  | nil =>
    cases h
    exact ⟨rfl, .nil⟩
  | cons x xs ih =>
    rw [List.mapM_cons] at h
    obtain ⟨y, s₁, hfirst, hrest⟩ := bind_eq_ok h
    obtain ⟨rfl, hy⟩ := hf x y s₁ hfirst
    obtain ⟨ys, s₂, hothers, ⟨⟩⟩ := bind_eq_ok hrest
    obtain ⟨rfl, hys⟩ := ih hothers
    exact ⟨rfl, .cons hy hys⟩

theorem idMapM_eq_ok (hf : ∀ a b s', f a scope s = .ok (b, s') → s' = s ∧ R a b)
    (h : m.mapM f scope s = .ok (m', s')) : s' = s ∧ m.Rel R m' := by
  obtain ⟨entries', s₁, hrun, ⟨⟩⟩ := bind_eq_ok h
  have hentry (p : Nat × α) (q : Nat × β) (s' : State)
      (h : (do return (p.1, ← f p.2) : Infer (Nat × β)) scope s = .ok (q, s')) :
      s' = s ∧ p.1 = q.1 ∧ R p.2 q.2 := by
    obtain ⟨b, s₂, hrun, ⟨⟩⟩ := bind_eq_ok h
    obtain ⟨rfl, hb⟩ := hf p.2 b _ hrun
    exact ⟨rfl, rfl, hb⟩
  exact mapM_eq_ok hentry hrun

theorem close_eq_ok (t r : Ty) (s' : State) (h : close t scope s = .ok (r, s')) :
    s' = s ∧ s.vars.close t = .ok r := by
  obtain ⟨hclose, rfl⟩ := readVars_eq_ok h
  exact ⟨rfl, hclose⟩

theorem mapM_closeReport (h : d.mapM close scope s = .ok (d', s')) :
    s' = s ∧ d.mapM s.vars.close = .ok d' := by
  cases d with
  | mismatch site expected actual =>
    obtain ⟨expected', s₁, hread, hrest⟩ := bind_eq_ok h
    obtain ⟨hexpected, rfl⟩ := readVars_eq_ok hread
    obtain ⟨actual', s₂, hread', hlast⟩ := bind_eq_ok hrest
    obtain ⟨hactual, rfl⟩ := readVars_eq_ok hread'
    cases hlast
    refine ⟨rfl, ?_⟩
    rw [Diagnostic.mapM, hexpected, Except.ok_bind, hactual]
    rfl
  | cannotDeref id ty =>
    obtain ⟨ty', s₁, hread, hlast⟩ := bind_eq_ok h
    obtain ⟨hty, rfl⟩ := readVars_eq_ok hread
    cases hlast
    refine ⟨rfl, ?_⟩
    rw [Diagnostic.mapM, hty]
    rfl

theorem mapM_closeAdjustment {a a' : Adjustment} (h : a.mapM close scope s = .ok (a', s')) :
    s' = s ∧ a.mapM s.vars.close = .ok a' := by
  cases a with
  | deref | borrowRef | borrowPtr =>
    obtain ⟨target, s₁, hread, hlast⟩ := bind_eq_ok h
    obtain ⟨rfl, htarget⟩ := close_eq_ok _ _ _ hread
    cases hlast
    refine ⟨rfl, ?_⟩
    rw [Adjustment.mapM, htarget]
    rfl

theorem closeResolution_eq_ok (r r' : MethodResolution) (s' : State)
    (h : (do return { r with self := ← close r.self } : Infer MethodResolution) scope s =
      .ok (r', s')) : s' = s ∧ s.vars.close r.self = .ok r'.self := by
  obtain ⟨self, s₁, hread, hlast⟩ := bind_eq_ok h
  obtain ⟨rfl, hself⟩ := close_eq_ok _ _ _ hread
  cases hlast
  exact ⟨rfl, hself⟩

/-- Closing the records changes nothing in the state. -/
theorem closeRecords_eq_ok (h : closeRecords scope s = .ok (o, s')) : s' = s ∧ s.ClosesTo o := by
  obtain ⟨_, _, ⟨⟩, h⟩ := bind_eq_ok h
  obtain ⟨exprTypes, s₁, hexprs, h⟩ := bind_eq_ok h
  obtain ⟨rfl, hexprs⟩ := idMapM_eq_ok close_eq_ok hexprs
  obtain ⟨bindings, s₂, hbindings, h⟩ := bind_eq_ok h
  obtain ⟨rfl, hbindings⟩ := idMapM_eq_ok close_eq_ok hbindings
  obtain ⟨methods, s₃, hmethods, h⟩ := bind_eq_ok h
  obtain ⟨rfl, hmethods⟩ := idMapM_eq_ok (fun _ _ _ => mapM_eq_ok closeResolution_eq_ok) hmethods
  obtain ⟨adjustments, s₄, hadjustments, h⟩ := bind_eq_ok h
  rcases idMapM_eq_ok (fun _ _ _ => mapM_eq_ok fun _ _ _ => mapM_closeAdjustment) hadjustments with
    ⟨rfl, hadjustments⟩
  obtain ⟨diagnostics, s₅, hdiagnostics, h⟩ := bind_eq_ok h
  obtain ⟨rfl, hdiagnostics⟩ := mapM_eq_ok (fun _ _ _ => mapM_closeReport) hdiagnostics
  cases h
  exact ⟨rfl, hexprs, hbindings, hmethods, hadjustments, hdiagnostics⟩

/-! ## The passes -/

/-- The passes between the defaults and closing. -/
def refineCalls : Infer Unit := do
  settlePending
  (← get).pathRefinements.forM fun (id, goal) => refinePath id goal
  (← get).methodRefinements.forM fun (id, goal) => refineMethod id goal

/-- Finishing has four passes. -/
theorem finish_eq : finish = (do
    settlePending
    defaultNumericVars
    refineCalls
    closeRecords) := by
  simp only [finish, refineCalls, bind_assoc]

theorem Orderly.refineCalls {E : Fault → Prop} {K : Atoms} [Basis scope E K] [Files K]
    {W : Var → Prop} : Orderly scope E K W refineCalls := by
  refine settlePending.bind fun _ _ _ => stateBind (fun _ _ => rfl) fun s _ hs => ?_
  refine (forM fun p hW hp => ?_).bind fun _ _ _ => stateBind (fun _ _ => rfl) fun s _ hs => ?_
  · exact refinePath ((hs.pathRefinements.mem hp).snd.mono hW)
  exact forM fun p hW hp => refineMethod ((hs.methodRefinements.mem hp).snd.mono hW)

/-- Defaults are values of variables, and nothing else. -/
theorem relates_defaultTypes (hs : s.WellFormed) (h : defaultTypes tys scope s = .ok ((), s')) :
    s.Evolves s' ∧ s.Quiet s' ∧ s'.adjustments = s.adjustments := by
  rcases defaultTypes_cases scope tys hs.vars (.refl s.vars) with ⟨vars, hrun, -, hd⟩ | ⟨-, i, hrun⟩
  · rw [h] at hrun
    cases hrun
    exact ⟨.steps hd.steps, State.quiet_of_steps hs hd.steps, rfl⟩
  · rw [h] at hrun
    cases hrun

/-- The states of a finish that succeeds: numbers get their defaults between `before` and `after`,
and in `last`, where it ends, the types are closed. -/
structure Finished (scope : Scope) (s before after last : State) (o : Outcome) : Prop where
  settled : settlePending scope s = .ok ((), before)
  defaulted : defaultNumericVars scope before = .ok ((), after)
  refined : after.Evolves last
  quiet_before : s.Quiet before
  quiet_last : s.Quiet last
  adjustments_last : last.adjustments = s.adjustments
  closed : closeRecords scope last = .ok (o, last)

/-- A finish that succeeds goes through these states. -/
theorem exists_finished (hs : s.WellFormed) (h : finish scope s = .ok (o, s')) :
    ∃ before after, Finished scope s before after s' o := by
  rw [finish_eq] at h
  obtain ⟨_, before, hsettle, h⟩ := bind_eq_ok h
  obtain ⟨_, after, hdefault, h⟩ := bind_eq_ok h
  obtain ⟨_, last, hrefine, h⟩ := bind_eq_ok h
  obtain ⟨hev, hquiet⟩ := Orderly.settlePending.anyway.quiet hs hsettle
  have hbefore := (hev.spec hs).1
  obtain ⟨hev₁, hquiet₁, hsame₁⟩ := relates_defaultTypes hbefore hdefault
  have hafter := (hev₁.spec hbefore).1
  obtain ⟨hev₂, hquiet₂⟩ := Orderly.refineCalls.anyway.quiet hafter hrefine
  have hquiets := (hquiet.trans hquiet₁).trans hquiet₂
  have hsame : last.adjustments = s.adjustments := by
    rw [Orderly.refineCalls.anyway.keeps_adjustments hafter hrefine, hsame₁,
      Orderly.settlePending.anyway.keeps_adjustments hs hsettle]
  obtain rfl := (closeRecords_eq_ok h).1
  exact ⟨before, after, hsettle, hdefault, hev₂, hquiet, hquiets, hsame, h⟩

namespace Finished

variable {before after last : State} {o : Outcome} (hs : s.WellFormed)
  (h : Finished scope s before after last o) {k : Nat} {r ty : Ty}

include h

theorem records : last.ClosesTo o := (closeRecords_eq_ok h.closed).2

theorem contains_exprTypes (k : Nat) : o.exprTypes.contains k = s.exprTypes.contains k := by
  have hrel := h.records.exprTypes.get? k
  rw [h.quiet_last.exprTypes] at hrel
  exact isSome_of_rel hrel

theorem contains_bindings (k : Nat) : o.bindings.contains k = s.bindings.contains k := by
  have hrel := h.records.bindings.get? k
  rw [h.quiet_last.bindings] at hrel
  exact isSome_of_rel hrel

/-- Every type of an expression was recorded before. -/
theorem exists_recorded (hr : o.exprTypes.get? k = some r) :
    ∃ ty, s.exprTypes.get? k = some ty ∧ last.vars.close ty = .ok r := by
  have hrel := h.records.exprTypes.get? k
  rw [hr, h.quiet_last.exprTypes] at hrel
  cases hty : s.exprTypes.get? k with
  | none =>
    rw [hty] at hrel
    cases hrel
  | some ty =>
    rw [hty] at hrel
    cases hrel with
    | some hclose => exact ⟨ty, rfl, hclose⟩

theorem exists_closed (ht : last.exprTypes.get? k = some t) :
    ∃ ty, o.exprTypes.get? k = some ty ∧ last.vars.close t = .ok ty := by
  have hrel := h.records.exprTypes.get? k
  rw [ht] at hrel
  generalize o.exprTypes.get? k = found at hrel
  cases hrel with
  | some hclose => exact ⟨_, rfl, hclose⟩

include hs

theorem wellFormed_before : before.WellFormed :=
  ((Orderly.settlePending.anyway.quiet hs h.settled).1.spec hs).1

theorem wellFormed_after : after.WellFormed := by
  have hbefore := wellFormed_before hs h
  exact ((relates_defaultTypes hbefore h.defaulted).1.spec hbefore).1

theorem wellFormed_last : last.WellFormed := (h.refined.spec (wellFormed_after hs h)).1

theorem evolves : s.Evolves last := by
  have hbefore := (Orderly.settlePending.anyway.quiet hs h.settled).1
  have hafter := (relates_defaultTypes (wellFormed_before hs h) h.defaulted).1
  exact (hbefore.trans hafter).trans h.refined

omit hs in
theorem diagnostics_closed :
    List.Forall₂ (fun d d' => d.mapM last.vars.close = .ok d') s.diagnostics o.diagnostics := by
  rw [← h.quiet_last.diagnostics]
  exact h.records.diagnostics

/-- A numeric variable that is the type of an expression has a value in the end, and the type is
closed to it. -/
theorem exists_value {v : Var} (hnumeric : ∀ i, v ≠ .ty i)
    (hv : s.exprTypes.get? k = some (.var v)) (hclose : last.vars.close (.var v) = .ok r) :
    last.vars.valueOf v = .ok (some r) := by
  have hbefore := wellFormed_before hs h
  have hmem : .var v ∈ before.exprTypes.values ++ before.bindings.values := by
    rw [h.quiet_before.exprTypes]
    exact List.mem_append_left _ (IdMap.mem_values_of_get? hv)
  obtain ⟨t, ht⟩ := exists_value_of_defaultTypes hbefore.vars h.defaulted hnumeric hmem
  have hlast := (h.refined.grows (wellFormed_after hs h)).value v t ht
  rw [hlast, (wellFormed_last hs h).vars.resolve_eq hclose, Ty.assign_var, Vars.extend,
    Vars.extendWithin_bound _ hlast]
  -- The value of a numeric variable has no variables.
  rcases Vars.valueOf_cases hlast with ⟨i, _, rfl, -⟩ | ⟨_, _, -, rfl⟩ | ⟨_, _, -, rfl⟩
  · exact absurd rfl (hnumeric i)
  · rw [Ty.assign_eq rfl]
    rfl
  · rw [Ty.assign_eq rfl]
    rfl

/-- What began as a number ends as a number of its kind. -/
theorem exists_value_of_kind {j : Vars.Kind} (hj : j ≠ .ty) (hty : s.exprTypes.get? k = some ty)
    (hkind : (j.var 0).standsFor ty = true) (hclose : last.vars.close ty = .ok r) :
    ∃ x, r = j.type x := by
  cases j with
  | ty => exact absurd rfl hj
  | int | float =>
    cases ty with
    | var v =>
      have hvalue := exists_value hs h (fun i hi => by cases hi; cases hkind) hty hclose
      rcases Vars.valueOf_cases hvalue with ⟨_, _, rfl, -⟩ | ⟨_, x, rfl, rfl⟩ | ⟨_, x, rfl, rfl⟩
      all_goals first | exact ⟨x, rfl⟩ | cases hkind
    | int x | float x =>
      rw [(wellFormed_last hs h).vars.resolve_eq hclose, Ty.assign_eq rfl]
      first | exact ⟨x, rfl⟩ | cases hkind
    | _ => cases hkind

/-- Defaults do not depend on the order of the types. -/
theorem defaultTypes_eq (hints : s.vars.ints.cells.depth = 0)
    (hfloats : s.vars.floats.cells.depth = 0)
    (hperm : tys.Perm (before.exprTypes.values ++ before.bindings.values)) :
    defaultTypes tys scope before = defaultNumericVars scope before := by
  have hev := (Orderly.settlePending.anyway.quiet hs h.settled).1
  obtain ⟨hbefore, hlater⟩ := hev.spec hs
  have hints' := (hlater.vars .int).depth_eq.trans hints
  have hfloats' := (hlater.vars .float).depth_eq.trans hfloats
  rw [h.defaulted]
  exact defaultTypes_perm hbefore.vars hints' hfloats' hperm.symm h.defaulted

end Finished

/-- Finishing has no fault of a walk. -/
theorem finish_fails : Fails scope Fault.IsOrdinary finish := by
  rw [finish_eq]
  have hrest : Regular scope Fault.IsOrdinary (Reporting CacheOp) (do
      refineCalls
      closeRecords) :=
    Orderly.refineCalls.anyway.bind fun _ => Orderly.closeRecords.anyway
  have hdefault : Fails scope Fault.IsOrdinary (do
      defaultNumericVars
      refineCalls
      closeRecords) := by
    intro s hs
    rcases defaultTypes_cases scope (s.exprTypes.values ++ s.bindings.values) hs.vars (.refl _) with
      ⟨vars, hrun, -, hd⟩ | ⟨-, i, hrun⟩
    · have hevolves : s.Evolves { s with vars } := .steps hd.steps
      rw [bind_of_ok (x := defaultNumericVars) hrun]
      exact hrest.fails_ordinary (hevolves.spec hs).1
    · rw [bind_of_error (x := defaultNumericVars) hrun]
      exact .error fun id h => by cases h
  refine Orderly.settlePending.anyway.fails_ordinary.bindOf ?_ fun _ _ => hdefault
  exact fun _ _ _ hs h => ⟨(Orderly.settlePending.anyway.quiet hs h).1, trivial⟩

end Infer

end TypeInference
