import TypeInference.Proofs.ContainedWalks
import TypeInference.Proofs.Conversions

/-!
# Closed programs

A program is closed if none of its declarations, bodies and resolutions mentions a variable. All
variables in a run of it come from the run itself, so at every point of it, inside snapshots and
outside, whatever is mentioned is in the tables.
-/

namespace TypeInference

/-! ## What a body is inferred with -/

variable {o : Outcome} {W : Var → Prop}

/-- The where-clauses in scope of an owner are closed. -/
theorem ParamEnv.closed_ofOwner {items : Items} (hitems : Closed items) {owner : Owner}
    {env : ParamEnv} (h : ofOwner items owner = .ok env) : Closed env := by
  obtain ⟨-, hfunctions, htraits, himpls, -⟩ := within_items.1 (hitems.within (W := fun _ => False))
  refine Within.closed ?_
  cases owner with
  | function id =>
    obtain ⟨fn, hfn, h⟩ := Except.bind_eq_ok h
    have hgenerics := (within_function.1 (hfunctions.entry hfn)).1
    split at h
    · cases h
      exact hgenerics
    · obtain ⟨impl, himpl, h⟩ := Except.bind_eq_ok h
      cases h
      exact within_append.2 ⟨hgenerics, (within_impl.1 (himpls.entry himpl)).1⟩
    · obtain ⟨trait, htrait, h⟩ := Except.bind_eq_ok h
      cases h
      refine within_append.2 ⟨within_append.2 ⟨hgenerics, htraits.entry htrait⟩, ?_⟩
      refine within_singleton.2 (within_wherePredicate.2 ⟨Ty.within_param, ?_⟩)
      exact within_bound.2 ⟨within_paramTys _, within_nil⟩
  | _ =>
    cases h
    exact within_nil

/-- An outcome is closed if its types are. -/
theorem Outcome.closed_of_types (h : ∀ ty ∈ o.types, ty.hasVar = false) : Closed o := by
  have hty (ty : Ty) (hmem : ty ∈ o.types) : Within (fun _ => False) ty := by
    intro v hv
    have hnone : v ∈ ([] : List Var) := Ty.hasVar_eq_false_iff.1 (h ty hmem) ▸ hv
    exact List.not_mem_nil hnone
  simp only [Outcome.types, List.mem_append, List.mem_map, List.mem_flatten, List.mem_flatMap]
    at hty
  refine Within.closed (within_outcome.2 ⟨?_, ?_, ?_, ?_, ?_⟩)
  · exact within_list.2 fun ty hmem => hty ty (.inl (.inl (.inl (.inl hmem))))
  · exact within_list.2 fun ty hmem => hty ty (.inl (.inl (.inl (.inr hmem))))
  · refine within_list.2 fun rs hrs => within_list.2 fun r hr => within_methodResolution.2 ?_
    exact hty r.self (.inl (.inl (.inr ⟨r, ⟨rs, hrs, hr⟩, rfl⟩)))
  · refine within_list.2 fun as has => within_list.2 fun a ha => ?_
    have htarget := hty a.target (.inl (.inr ⟨a, ⟨as, has, ha⟩, rfl⟩))
    cases a with
    | deref target => exact within_deref.2 htarget
    | borrowRef target region mutability => exact within_borrowRef.2 htarget
    | borrowPtr target mutability => exact within_borrowPtr.2 htarget
  · refine within_list.2 fun d hd => ?_
    have hreport (ty : Ty) (hmem : ty ∈ d.types.1.toList ∨ ty ∈ [d.types.2]) :=
      hty ty (.inr ⟨d, hd, hmem⟩)
    cases d with
    | mismatch site expected actual =>
      refine within_mismatch.2 ⟨hreport expected (.inl ?_), hreport actual (.inr ?_)⟩
      · exact List.mem_singleton_self _
      · exact List.mem_singleton_self _
    | cannotDeref expr ty => exact within_cannotDeref.2 (hreport ty (.inr (List.mem_singleton_self _)))

theorem Infer.hasVar_of_finish {scope : Scope} (h : Gives scope finish o) :
    ∀ ty ∈ o.types, ty.hasVar = false := by
  obtain ⟨s, s', h⟩ := h
  rw [finish_eq] at h
  obtain ⟨_, _, -, h⟩ := bind_eq_ok h
  obtain ⟨_, _, -, h⟩ := bind_eq_ok h
  obtain ⟨_, _, -, h⟩ := bind_eq_ok h
  exact (closeRecords_eq_ok h).2.hasVar

theorem Within.exprTy (h : Within W o) (id : ExprId) : Within W (o.exprTy id) :=
  ((within_outcome.1 h).1.get? id.index).getD Ty.within_unknown

theorem Walk.contained_visitor {const : ConstId → SessionM Ty} (hconst : ∀ id, (const id).Closes)
    (body : Body) (n : Nat) : (visitor const n).Contained body := by
  induction n with
  | zero => exact ⟨fun _ _ _ => .throw .exhausted, fun _ _ _ _ => .throw .exhausted, hconst⟩
  | succ n ih =>
    refine ⟨fun _ _ h => ?_, fun _ _ _ h => ?_, hconst⟩
    · exact .of_composed ih (A := False) (.expression (fun _ => trivial) h)
    · exact .of_composed ih (A := False) (.pattern h)

/-! ## Sessions -/

namespace Session

variable {s : Session} {const : ConstId → SessionM Ty} {owner : Owner} {body : Body} {names : Names}
  {env : ParamEnv}

section

variable (hclosed : Closed s.program)

include hclosed

theorem fits_scope (hbody : s.program.body? owner = some (body, names))
    (henv : ParamEnv.ofOwner s.program.items owner = .ok env) :
    (s.scope owner body names env).Fits body := by
  obtain ⟨hitems, hbodies⟩ := within_or.1 (hclosed.within (W := fun _ => False))
  have hpair : Within (fun _ => False) (body, names) := by
    obtain ⟨entry, hentry, heq⟩ := Option.map_eq_some_iff.1 hbody
    have hmem : Within (fun _ => False) entry :=
      Within.mem hbodies (List.mem_of_find?_eq_some hentry)
    rw [← heq]
    exact hmem.snd
  obtain ⟨hbody, hnames⟩ := within_pair.1 hpair
  have hitems : Closed s.program.items := Within.closed hitems
  have hscope : (s.scope owner body names env).IsClosed :=
    ⟨hitems, ParamEnv.closed_ofOwner hitems henv, hnames.closed, hbody.closed⟩
  exact ⟨rfl, hscope⟩

theorem stays_wholeBody (hconst : ∀ id, (const id).Closes)
    (hbody : s.program.body? owner = some (body, names))
    (henv : ParamEnv.ofOwner s.program.items owner = .ok env) (n : Nat) (σ : SessionState) :
    Walk.Stays (s.scope owner body names env) {} σ (Walk.wholeBody (Walk.visitor const n)) :=
  Walk.Contained.wholeBody (Walk.contained_visitor hconst body n) σ
    (fits_scope hclosed hbody henv) .start le_rfl

/-- Starting an inference gives closed outcomes. -/
theorem closes_start (hconst : ∀ id, (const id).Closes) (owner : Owner) :
    (s.start const owner).Closes := by
  refine ⟨fun σ f σ' h => ?_, fun σ o σ' h => ?_⟩
  all_goals
    obtain ⟨stop, σ₁, hstop, hrun⟩ | ⟨body, names, env, σ₁, r, σ₂, σ₃, hbody, henv, hwhole, hrun⟩ :=
      s.start_cases const owner σ
  · cases h.symm.trans hrun
    obtain ⟨entity, i, hentity, rfl⟩ := hstop f rfl
    exact .dangling entity i hentity
  · rcases r with stop | r
    · cases h.symm.trans hrun
      exact (stays_wholeBody hclosed hconst hbody henv body.walkDepth σ₁).fails f σ₂ hwhole
    · cases h.symm.trans hrun
  · cases h.symm.trans hrun
  · rcases r with stop | ⟨o', w'⟩
    · cases h.symm.trans hrun
    cases h.symm.trans hrun
    rw [Walk.wholeBody_run] at hwhole
    -- The last step of the walk leaves no variable in the records.
    obtain ⟨_, w, σ₂, hentries, hfinish⟩ := Walk.bind_eq_ok hwhole
    obtain ⟨state, hfinish, -⟩ := Walk.lift_eq_ok hfinish
    exact Outcome.closed_of_types (Infer.hasVar_of_finish ⟨_, state, hfinish⟩)

omit hclosed in
/-- The type of a constant is closed if the outcome for it is. -/
theorem closes_rootTy (id : ConstId) {infer : SessionM Outcome} (hinfer : infer.Closes) :
    (s.rootTy id infer).Closes := by
  refine ⟨fun σ f σ' h => ?_, fun σ ty σ' h => ?_⟩
  · obtain ⟨σ₁, h⟩ := rootTy_eq_fault h
    exact hinfer.fails σ f σ₁ h
  · rw [rootTy_run] at h
    have hanswer := congrArg Prod.fst h
    have hunknown : Closed Ty.unknown := Within.closed Ty.within_unknown
    rcases hrun : infer σ with ⟨stop | o, σ₁⟩
    · rw [hrun] at hanswer
      cases stop with
      -- A constant that depends on itself, or has no body, is of the unknown type.
      | cycle _ =>
        cases hanswer
        exact hunknown
      | missingBody _ =>
        cases hanswer
        exact hunknown
      | cancelled => cases hanswer
      | fault _ => cases hanswer
    · rw [hrun] at hanswer
      simp only [answerTy] at hanswer
      split at hanswer
      · cases hanswer
        exact ((hinfer.closed σ o σ₁ hrun).within.exprTy _).closed
      · cases hanswer
        exact hunknown

theorem closes_inferWithin (n : Nat) (owner : Owner) : (s.inferWithin n owner).Closes := by
  induction n generalizing owner with
  | zero =>
    refine ⟨fun σ f σ' h => ?_, fun σ o σ' h => ?_⟩
    · cases h
      exact .exhausted
    · cases h
  | succ n ih => exact closes_start hclosed (fun id => closes_rootTy id (ih (.const id))) owner

end

/-- The walk of a body, with constants inside constants at most `n` deep. It is what
`inferWithin (n + 1)` runs, in a new state. -/
def walk (s : Session) (n : Nat) (body : Body) : Walk Outcome :=
  Walk.wholeBody (Walk.visitor (fun id => s.rootTy id (s.inferWithin n (.const id))) body.walkDepth)

/-- In a closed program, whatever variables are mentioned at some point of the walk of a body, or of
the constants inside it, are in the tables at that point; no look-up asks for another one; and none
is left in the outcome. -/
theorem variables_in_range (s : Session) (hclosed : Closed s.program) (n : Nat) (owner : Owner)
    (σ : SessionState) :
    (∀ body names env, s.program.body? owner = some (body, names) →
      ParamEnv.ofOwner s.program.items owner = .ok env →
      Walk.Throughout State.InRange (s.walk n body) (s.scope owner body names env) {} σ) ∧
    (∀ i σ', s.inferWithin (n + 1) owner σ ≠ (.error (.fault (.dangling .variable i)), σ')) ∧
    ∀ o σ', s.inferWithin (n + 1) owner σ = (.ok o, σ') → Closed o := by
  have hconst (id : ConstId) := closes_rootTy (s := s) id (closes_inferWithin hclosed n (.const id))
  have hinfer := closes_inferWithin hclosed (n + 1) owner
  refine ⟨fun body names env hbody henv => ?_, fun i σ' h => ?_, fun o σ' h => ?_⟩
  · exact (stays_wholeBody hclosed hconst hbody henv body.walkDepth σ).throughout
  · exact hinfer.fails σ _ σ' h i rfl
  · exact hinfer.closed σ o σ' h

theorem within_bodies {W : Var → Prop} {owner : Owner} {exprs : List Expr} {pats : List Pat}
    {params : List PatId} (h : Within W exprs) :
    Within W [(owner, Body.ofNodes exprs pats params, Names.empty)] := by
  refine within_singleton.2 (within_pair.2 ⟨?_, within_pair.2 ⟨?_, within_names.2 ?_⟩⟩)
  · rintro v ⟨⟩
  · refine within_array.2 fun node hnode => ?_
    obtain ⟨⟨e, i⟩, he, rfl⟩ := List.mem_map.1 (List.mem_toArray.1 hnode)
    exact h.mem (List.fst_mem_of_mem_zipIdx he)
  · exact ⟨within_nil, within_nil, within_nil⟩

/-- A program with the array length `[1u8].len()`, where `len` is a method of all slices. Whether its
impl may be meant is tried out, with a variable for the elements. -/
def measuredSlice : Session where
  program := {
    items := { Items.empty with
      paramNames := #["Self", "T"],
      functions := #[⟨"len", .impl ⟨0⟩, .empty, some (.ref .shared), [], .int .usize, false, true⟩],
      impls := #[⟨⟨[⟨1⟩], []⟩, none, .slice (.param ⟨1⟩), []⟩] }
    known := {}
    bodies := [(.arrayLen 0, .measuredArray, .empty)] }

theorem closed_measuredSlice : Closed measuredSlice.program := by
  refine Within.closed (within_or.2 ⟨within_items.2 ?_, ?_⟩)
  · have hself : Within (fun _ => False) (SelfParam.ref .shared) := by rintro v ⟨⟩
    simp [measuredSlice, Items.empty, within_array, within_function, within_impl, Generics.empty, hself]
  · refine within_bodies (within_cons.2 ⟨?_, within_cons.2 ⟨?_, within_singleton.2 ?_⟩⟩)
    · rintro v ⟨⟩
    · rintro v ⟨⟩
    · exact within_nil (α := Ty)

/-- The variable for the elements is gone after the trial, and the one of the call takes its number. -/
theorem variables_in_range_measuredSlice :
    ∃ o σ' env, measuredSlice.infer (.arrayLen 0) {} = (.ok o, σ') ∧ Closed o ∧
      ParamEnv.ofOwner measuredSlice.program.items (.arrayLen 0) = .ok env ∧
      Walk.Throughout State.InRange (measuredSlice.walk 1 .measuredArray)
        (measuredSlice.scope (.arrayLen 0) .measuredArray .empty env) {} {} := by
  obtain ⟨hthroughout, -, hout⟩ :=
    variables_in_range measuredSlice closed_measuredSlice 1 (.arrayLen 0) {}
  have hok : (measuredSlice.infer (.arrayLen 0) {}).1.toOption.map (fun _ => ()) = some () := by
    decide +kernel
  obtain ⟨o, σ', hrun, -⟩ := Except.exists_ok_of_fst hok
  exact ⟨o, σ', .empty, hrun, hout o σ' hrun, rfl, hthroughout _ _ _ rfl rfl⟩

end Session

end TypeInference
