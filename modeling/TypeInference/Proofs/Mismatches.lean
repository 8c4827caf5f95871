import TypeInference.Proofs.Clashes
import TypeInference.Proofs.Reports

/-!
# Reported mismatches are real

A mismatch is reported where a conversion or a unification failed, with types that clash. They are
resolved at that time, and again when the outcome is made. In between variables may be bound, and
numbers get their defaults; but whatever becomes of the variables is a solution, and no solution
makes types the same that clash.
-/

namespace TypeInference

/-! ## Types that are known throughout -/

variable {v : Var} {site : Site} {d : Diagnostic}

/-- Neither unknown nor a type that may turn out to be another. -/
def Ty.isKnown : Ty → Bool
  | .unknown | .var _ | .param _ | .projection .. | .dyn _ | .existential .. => false
  | _ => true

/-- A type in which nothing unknown, no variable, parameter, projection, trait object or opaque type
occurs. -/
def Ty.Known (t : Ty) : Prop := ∀ u ∈ t.subterms, u.isKnown = true

instance (t : Ty) : Decidable t.Known :=
  inferInstanceAs (Decidable (∀ u ∈ t.subterms, u.isKnown = true))

/-- A variable that stands for an integer or float type. -/
def Var.IsNumeric (v : Var) : Prop := ∀ i, v ≠ .ty i

namespace Ty

variable {t : Ty} {σ : Var → Ty}

theorem isKnown_assign (hnode : t.isVar = false) : (t.assign σ).isKnown = t.isKnown := by
  rw [assign_eq hnode]
  cases t <;> rfl

theorem isIndefinite_eq_false_iff : Infer.isIndefinite t = false ↔
    ∀ u ∈ t.subterms, u.isKnown = true ∨ ∃ v : Var, u = .var v ∧ v.IsNumeric := by
  rw [Infer.isIndefinite, any, List.any_eq_false]
  refine forall₂_congr fun u _ => ?_
  cases u with
  | var v => cases v <;> simp [isKnown, Var.IsNumeric]
  | _ => simp [isKnown]

theorem concrete_of_definite (h : Infer.isIndefinite t = false) : t.Concrete := by
  intro u hu
  rcases isIndefinite_eq_false_iff.1 h u hu with hknown | ⟨v, rfl, -⟩
  · cases u with
    | projection | existential => cases hknown
    | _ => rfl
  · rfl

theorem isNumeric_of_mem_vars (h : Infer.isIndefinite t = false) (hv : v ∈ t.vars) :
    v.IsNumeric := by
  have hsub : Ty.var v ∈ t.subterms := by
    obtain ⟨u, hu, heq⟩ := List.mem_filterMap.1 hv
    cases u with
    | var w =>
      cases heq
      exact hu
    | _ => cases heq
  rcases isIndefinite_eq_false_iff.1 h _ hsub with hknown | ⟨w, hw, hnumeric⟩
  · cases hknown
  · cases hw
    exact hnumeric

/-- A type is known throughout once its numbers are. -/
theorem known_assign (h : Infer.isIndefinite t = false) (hσ : ∀ v ∈ t.vars, (σ v).Known) :
    (t.assign σ).Known := by
  induction t using varInduction with
  | var v =>
    rw [assign_var]
    exact hσ v (by simp)
  | node t hnode ih =>
    rw [isIndefinite_eq_false_iff, forall_mem_subterms] at h
    obtain ⟨hhead, hcomponents⟩ := h
    refine forall_mem_subterms.2 ⟨?_, ?_⟩
    · rw [isKnown_assign hnode]
      rcases hhead with hknown | ⟨v, rfl, -⟩
      · exact hknown
      · cases hnode
    · rw [components_assign hnode]
      intro c hc
      obtain ⟨d, hd, rfl⟩ := List.mem_map.1 hc
      refine ih d hd (isIndefinite_eq_false_iff.2 (hcomponents d hd)) fun v hv => ?_
      exact hσ v ((mem_vars_iff hnode).2 ⟨d, hd, hv⟩)

end Ty

/-! ## Reports during a walk -/

theorem Table.lt_size_fresh {α : Type} {t : Table α} {i : Nat} (h : i < t.fresh.size) :
    i = t.size ∨ i < t.size := by
  rw [size_fresh] at h
  omega

/-- Number variables are recorded, and the types of reported mismatches are definite and clash. -/
structure State.Honest (s : State) : Prop where
  numbers : ∀ v : Var, v.IsNumeric → s.vars.Has v → ∃ k, s.exprTypes.get? k = some (.var v)
  definite : ∀ site e a, .mismatch site e a ∈ s.diagnostics →
    Infer.isIndefinite e = false ∧ Infer.isIndefinite a = false
  clash : ∀ site e a, .mismatch site e a ∈ s.diagnostics → s.vars.Clash e a

namespace State

variable {s s' : State} {id : ExprId}

theorem honest_start : Honest {} where
  numbers v hnumeric hv := by
    cases v with
    | ty i => exact absurd rfl (hnumeric i)
    | int i | float i => exact absurd hv (Nat.not_lt_zero i)
  definite _ _ _ := nofun
  clash _ _ _ := nofun

theorem Quiet.has_iff (h : s.Quiet s') (hnumeric : v.IsNumeric) : s'.vars.Has v ↔ s.vars.Has v := by
  cases v with
  | ty i => exact absurd rfl (hnumeric i)
  | int i => rw [Vars.Has, Vars.Has, h.ints]
  | float i => rw [Vars.Has, Vars.Has, h.floats]

theorem Honest.quiet (h : s.Honest) (hs : s.WellFormed) (hevolves : s.Evolves s')
    (hquiet : s.Quiet s') : s'.Honest where
  numbers v hnumeric hv := by
    rw [hquiet.exprTypes]
    exact h.numbers v hnumeric ((hquiet.has_iff hnumeric).1 hv)
  definite site e a hd := by
    rw [hquiet.diagnostics] at hd
    exact h.definite site e a hd
  clash site e a hd := by
    rw [hquiet.diagnostics] at hd
    exact (h.clash site e a hd).mono (hevolves.grows hs)

theorem Honest.insert (h : s.Honest) (hnew : s.exprTypes.contains id.index = false) (ty : Ty) :
    Honest { s with exprTypes := s.exprTypes.insert id.index ty } where
  numbers v hnumeric hv := by
    obtain ⟨k, hk⟩ := h.numbers v hnumeric hv
    refine ⟨k, ?_⟩
    -- The key is new, so that no entry is lost.
    rw [IdMap.get?_insert, if_neg, hk]
    rintro rfl
    rw [IdMap.contains, hk] at hnew
    cases hnew
  definite := h.definite
  clash := h.clash

theorem Honest.fresh (h : s.Honest) {vars : Vars} {w : Var}
    (hnew : s.exprTypes.contains id.index = false) (hgrows : s.vars.Grows vars)
    (hhas : ∀ v : Var, v.IsNumeric → vars.Has v → v = w ∨ s.vars.Has v) :
    Honest { s with vars, exprTypes := s.exprTypes.insert id.index (.var w) } where
  numbers v hnumeric hv := by
    rcases hhas v hnumeric hv with rfl | hold
    · exact ⟨id.index, by rw [IdMap.get?_insert, if_pos rfl]⟩
    · exact (h.insert hnew (.var w)).numbers v hnumeric hold
  definite := h.definite
  clash site e a hd := (h.clash site e a hd).mono hgrows

theorem Honest.report (h : s.Honest) (hd : ∀ site e a, d = .mismatch site e a →
      Infer.isIndefinite e = false ∧ Infer.isIndefinite a = false ∧ s.vars.Clash e a) :
    Honest { s with diagnostics := s.diagnostics ++ [d] } where
  numbers := h.numbers
  definite site e a hmem := by
    rcases List.mem_append.1 hmem with hold | hnew
    · exact h.definite site e a hold
    · obtain ⟨he, ha, -⟩ := hd site e a (List.mem_singleton.1 hnew).symm
      exact ⟨he, ha⟩
  clash site e a hmem := by
    rcases List.mem_append.1 hmem with hold | hnew
    · exact h.clash site e a hold
    · exact (hd site e a (List.mem_singleton.1 hnew).symm).2.2

end State

namespace Infer

variable {scope : Scope} {s s' : State} {expected actual source target ty : Ty} {id : ExprId}

/-- Types that clash are reported honestly. -/
theorem honest_reportMismatch (hs : s.WellFormed) (hhonest : s.Honest)
    (hclash : s.vars.ResolvesConcretely expected → s.vars.ResolvesConcretely actual →
      s.vars.Clash expected actual) (h : reportMismatch site expected actual scope s = .ok ((), s')) :
    s'.Honest := by
  rcases reportMismatch_eq_ok hs h with rfl | ⟨e, a, he, ha, hdefinite, hdefinite', -, rfl⟩
  · exact hhonest
  refine hhonest.report ?_
  rintro _ _ _ ⟨⟩
  refine ⟨hdefinite, hdefinite', ?_⟩
  have hexpected := hs.vars.resolvesTo he (Ty.concrete_of_definite hdefinite)
  have hactual := hs.vars.resolvesTo ha (Ty.concrete_of_definite hdefinite')
  have hgrows := Vars.Grows.refl s.vars
  exact (Vars.Clash.alike (hgrows.alike_resolve he) (hgrows.alike_resolve ha)).1
    (hclash hexpected hactual)

theorem honest_coerce {ok : Bool} (hlimit : 2 ≤ scope.config.autoderefLimit) (hs : s.WellFormed)
    (hhonest : s.Honest) (h : coerce id source target scope s = .ok (ok, s')) : s'.Honest := by
  obtain ⟨source', target', s₁, s₂, hs₁, htry, hev, hquiet, hlast⟩ := coerce_eq_ok hs h
  have hhonest₂ := hhonest.quiet hs hev hquiet
  rcases hlast with rfl | ⟨rfl, hreport⟩
  · exact hhonest₂
  · refine honest_reportMismatch (hev.spec hs).1 hhonest₂ (fun htarget hsource => ?_) hreport
    exact (clash_of_tryCoerce hlimit hs₁ htry hsource htarget).symm

theorem honest_variantShape {id : PatId} {shape : Option (Shape × Subst)} (hs : s.WellFormed)
    (hhonest : s.Honest) (h : Walk.variantShape id expected scope s = .ok (shape, s')) :
    s'.Honest := by
  rcases variantShape_eq_ok hs h with
    rfl | ⟨variant, args, s₁, ok, s₂, hs₁, hcombine, hev, hquiet, hlast⟩
  · exact hhonest
  have hhonest₂ := hhonest.quiet hs hev hquiet
  rcases hlast with rfl | ⟨rfl, hreport⟩
  · exact hhonest₂
  · refine honest_reportMismatch (hev.spec hs).1 hhonest₂ (fun hexpected hactual => ?_) hreport
    obtain ⟨vars, hvars, rfl⟩ := onVars_eq_ok hcombine
    exact hs₁.vars.clash_after_combine hvars hexpected hactual

theorem honest_literal {lit : Literal} {expected : Option Ty} (hs : s.WellFormed)
    (hhonest : s.Honest) (h : Walk.literal lit expected scope s = .ok (ty, s'))
    (hnew : s'.exprTypes.contains id.index = false) :
    State.Honest { s' with exprTypes := s'.exprTypes.insert id.index ty } := by
  rcases literal_eq_ok h with rfl | hfresh | hfresh
  · exact hhonest.insert hnew ty
  · cases hfresh
    refine hhonest.fresh hnew ((State.Evolves.fresh .int s).grows hs) fun v hnumeric hv => ?_
    cases v with
    | ty i => exact absurd rfl (hnumeric i)
    | float i => exact .inr hv
    | int i =>
      rcases Table.lt_size_fresh hv with rfl | hlt
      · exact .inl rfl
      · exact .inr hlt
  · cases hfresh
    refine hhonest.fresh hnew ((State.Evolves.fresh .float s).grows hs) fun v hnumeric hv => ?_
    cases v with
    | ty i => exact absurd rfl (hnumeric i)
    | int i => exact .inr hv
    | float i =>
      rcases Table.lt_size_fresh hv with rfl | hlt
      · exact .inl rfl
      · exact .inr hlt

end Infer

/-- All that a walk reports is honest. -/
theorem Walk.Trace.honest {scope : Scope} {roots : List Site} {s s' : State}
    (hlimit : 2 ≤ scope.config.autoderefLimit) (hs : s.WellFormed) (hhonest : s.Honest)
    (h : Trace scope roots s s') : s'.Honest := by
  induction h with
  | quiet hevolves hquiet => exact hhonest.quiet hs hevolves hquiet
  | trans hfirst _ ih ih' => exact ih' (hfirst.wellFormed hs) (ih hs hhonest)
  | perm _ _ ih => exact ih hs hhonest
  | exprAfter _ _ _ hnew ih => exact (ih hs hhonest).insert hnew _
  | @exprBefore _ _ _ s _ _ _ hnew _ ih =>
    exact ih ((s.evolves_exprTypes _).spec hs).1 (hhonest.insert hnew _)
  | literal _ hrun hnew => exact Infer.honest_literal hs hhonest hrun hnew
  | @binding _ _ _ s _ _ _ _ ih =>
    exact ih ((s.evolves_bindings _).spec hs).1 ⟨hhonest.numbers, hhonest.definite, hhonest.clash⟩
  | pat _ _ _ ih => exact ih hs hhonest
  | coerce hvisit hrun ih =>
    exact Infer.honest_coerce hlimit (hvisit.wellFormed hs) (ih hs hhonest) hrun
  | variantShape hrun => exact Infer.honest_variantShape hs hhonest hrun
  | cannotDeref id ty s => exact hhonest.report nofun

/-! ## Reports of an outcome -/

theorem Diagnostic.mapM_eq_mismatch {f : Ty → Except Fault Ty} {e a : Ty}
    (h : d.mapM f = .ok (.mismatch site e a)) :
    ∃ e₀ a₀, d = .mismatch site e₀ a₀ ∧ f e₀ = .ok e ∧ f a₀ = .ok a := by
  cases d with
  | mismatch site e₀ a₀ =>
    obtain ⟨e, he, hrest⟩ := Except.bind_eq_ok h
    obtain ⟨a, ha, ⟨⟩⟩ := Except.bind_eq_ok hrest
    exact ⟨e₀, a₀, rfl, he, ha⟩
  | cannotDeref id ty =>
    obtain ⟨ty', -, ⟨⟩⟩ := Except.bind_eq_ok h

namespace Infer.Finished

variable {scope : Scope} {s before after last : State} {o : Outcome} (hs : s.WellFormed)
  (hhonest : s.Honest) (h : Finished scope s before after last o) {a e r t : Ty}

include hs hhonest h

theorem exists_number (hnumeric : v.IsNumeric) (hv : last.vars.Has v) :
    ∃ t, last.vars.valueOf v = .ok (some t) := by
  obtain ⟨k, hk⟩ := hhonest.numbers v hnumeric ((h.quiet_last.has_iff hnumeric).1 hv)
  have hrel := h.records.exprTypes.get? k
  rw [h.quiet_last.exprTypes, hk] at hrel
  generalize o.exprTypes.get? k = found at hrel
  cases hrel with
  | some hclose => exact ⟨_, h.exists_value hs hnumeric hk hclose⟩

theorem not_open (hnumeric : v.IsNumeric) : ¬ last.vars.Open v := by
  intro hopen
  obtain ⟨t, ht⟩ := h.exists_number hs hhonest hnumeric (Vars.has_of_rootVar hopen.1)
  rw [hopen.2] at ht
  cases ht

theorem solves_extend : Vars.Solves (last.vars.extend fun _ => .unknown) last.vars where
  solved := (h.wellFormed_last hs).vars.satisfies_extend _
  kinds := by
    constructor
    · exact fun i hi => absurd hi (h.not_open hs hhonest nofun)
    · exact fun i hi => absurd hi (h.not_open hs hhonest nofun)

theorem known_of_close (ht : isIndefinite t = false) (hclose : last.vars.close t = .ok r) :
    r.Known := by
  have hlast := (h.wellFormed_last hs).vars
  rw [hlast.resolve_eq hclose]
  refine Ty.known_assign ht fun v hv => ?_
  -- Only variables of numbers occur in the type, and they have values.
  have hground := Vars.grounded_iff.1 (Vars.grounded_of_resolve hclose) v hv
  have hnumeric := Ty.isNumeric_of_mem_vars ht hv
  obtain ⟨u, hu⟩ := h.exists_number hs hhonest hnumeric hground.has
  rw [(hlast.satisfies_extend _).value v u hu]
  rcases Vars.valueOf_cases hu with ⟨i, _, rfl, -⟩ | ⟨_, k, -, rfl⟩ | ⟨_, k, -, rfl⟩
  · exact absurd rfl (hnumeric i)
  · exact Ty.known_assign rfl nofun
  · exact Ty.known_assign rfl nofun

/-- The types of a report differ in the end. -/
theorem mismatch_differs (hd : .mismatch site e a ∈ o.diagnostics) :
    e.same a = false ∧ e.Known ∧ a.Known := by
  have hclosed := h.diagnostics_closed
  obtain ⟨i, hi, heq⟩ := List.mem_iff_getElem.1 hd
  have hlt : i < s.diagnostics.length := by rwa [hclosed.length_eq]
  have hreport : s.diagnostics[i].mapM last.vars.close = .ok (.mismatch site e a) :=
    heq ▸ hclosed.get hlt hi
  obtain ⟨e₀, a₀, hd₀, he, ha⟩ := Diagnostic.mapM_eq_mismatch hreport
  have hmem : .mismatch site e₀ a₀ ∈ s.diagnostics := hd₀ ▸ List.getElem_mem hlt
  obtain ⟨hdefinite, hdefinite'⟩ := hhonest.definite site e₀ a₀ hmem
  refine ⟨?_, h.known_of_close hs hhonest hdefinite he, h.known_of_close hs hhonest hdefinite' ha⟩
  -- Closing assigns a solution, to which types that clashed once are different.
  have hclash := (hhonest.clash site e₀ a₀ hmem).mono ((h.evolves hs).grows hs)
  have hlast := (h.wellFormed_last hs).vars
  rw [hlast.resolve_eq he, hlast.resolve_eq ha, Bool.eq_false_iff]
  exact hclash _ (h.solves_extend hs hhonest)

end Infer.Finished

/-- The body `&1`. -/
def Body.borrowedNumber : Body := .ofNodes [.literal (.int none), .unary (.ref .shared) ⟨0⟩] [] []

namespace Session

/-- If there is room for a reference and its pointee, each mismatch of an outcome is between
different types, and nothing in them is unknown, a variable, a parameter, a projection, a trait
object or an opaque type. -/
theorem infer_mismatches_differ (s : Session) (owner : Owner) (o : Outcome) (σ σ' : SessionState)
    (site : Site) (expected actual : Ty) (hlimit : 2 ≤ s.config.autoderefLimit)
    (h : s.infer owner σ = (.ok o, σ')) (hd : .mismatch site expected actual ∈ o.diagnostics) :
    expected.same actual = false ∧ expected.Known ∧ actual.Known := by
  obtain ⟨body, scope, w, before, after, last, hproduces, hfinished⟩ := exists_finished h
  have hconfig : 2 ≤ scope.config.autoderefLimit := by
    rcases hproduces.body_eq with ⟨names, env, -, -, rfl⟩
    exact hlimit
  have hhonest := hproduces.trace.honest hconfig wellFormed_start State.honest_start
  exact hfinished.mismatch_differs hproduces.wellFormed hhonest hd

/-- A program with one constant, `&1`, that is declared to be a reference to a Boolean. -/
def borrowedNumber : Session where
  program := {
    items := { Items.empty with consts := #[⟨"C", some (.ref .bool .shared .static)⟩] }
    known := {}
    bodies := [(.const ⟨0⟩, .borrowedNumber, .empty)] }
  config := { autoderefLimit := 2 }

/-- The number is still open when the mismatch is reported. -/
theorem infer_mismatches_differ_borrowedNumber : 2 ≤ borrowedNumber.config.autoderefLimit ∧
    ∃ o σ' expected actual, borrowedNumber.infer (.const ⟨0⟩) {} = (.ok o, σ') ∧
      .mismatch (.expr ⟨1⟩) expected actual ∈ o.diagnostics ∧
      expected.same actual = false ∧ expected.Known ∧ actual.Known := by
  have hlimit : 2 ≤ borrowedNumber.config.autoderefLimit := Nat.le_refl 2
  have hok : (borrowedNumber.infer (.const ⟨0⟩) {}).1.toOption.map
      (·.diagnostics.map (·.mismatched?)) = some [some ⟨1⟩] := by
    decide +kernel
  obtain ⟨o, σ', hrun, hkinds⟩ := Except.exists_ok_of_fst hok
  rcases List.mem_map.1 (hkinds ▸ List.mem_singleton_self _) with ⟨d, hd, hsite⟩
  match d, hsite with
  | .mismatch (.expr _) expected actual, rfl =>
    have hdiffer := infer_mismatches_differ borrowedNumber (.const ⟨0⟩) o {} σ' (.expr ⟨1⟩)
      expected actual hlimit hrun hd
    exact ⟨hlimit, o, σ', expected, actual, hrun, hd, hdiffer⟩

end Session

end TypeInference
