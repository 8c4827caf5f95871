import TypeInference.Proofs.DerefSequences
import TypeInference.Proofs.Information
import TypeInference.Proofs.Walks

/-!
# Types that clash

Two types *clash* if no solution of the variables makes them the same. Solutions of later variables
are solutions of earlier ones, so types that clash do so for good. Unification succeeds where there
is a solution, so types on which it fails clash.
-/

namespace TypeInference

namespace Ty

variable {t : Ty} {σ : Var → Ty}

theorem Concrete.of_assign (h : (t.assign σ).Concrete) : t.Concrete := by
  induction t using varInduction with
  | var v => exact concrete_iff.2 ⟨rfl, fun _ hc => by cases hc⟩
  | node t hnode ih =>
    obtain ⟨hhead, hcomponents⟩ := concrete_iff.1 h
    exact concrete_iff.2 ⟨(isConcrete_assign hnode).symm.trans hhead,
      fun c hc => ih c hc (hcomponents _ (assign_mem_components hnode hc))⟩

theorem size_ref (t : Ty) (m : Mutability) (r : Region) : (Ty.ref t m r).size = t.size + 1 := by
  rw [size_eq]
  simp [components, size]

end Ty

/-! ## Solutions of later variables -/

namespace Vars

variable {vs vs' : Vars} {σ : Var → Ty} {a a' b b' t u w : Ty} {m n : Mutability} {q r : Region}

/-- The assignment solves the variables and gives numbers types of their kind. -/
structure Solves (σ : Var → Ty) (vs : Vars) : Prop where
  solved : Satisfies Eq σ vs
  kinds : RespectsKinds σ vs

theorem Solves.extends (h : Solves σ vs) : Extends σ σ vs := ⟨h.solved, fun _ _ => rfl⟩

theorem Solves.before (hg : Grows vs vs') (h : Solves σ vs') : Solves σ vs where
  solved := hg.satisfies_before h.solved
  kinds := by
    have hkind {v : Var} (hv : vs.Open v) : v.standsFor (σ v) = true := by
      obtain ⟨r, hr, -⟩ := hg.root _ _ hv.1
      exact h.extends.standsFor h.kinds hr
    exact ⟨fun _ => hkind, fun _ => hkind⟩

/-- To every solution the two types are one. -/
structure Alike (vs : Vars) (t u : Ty) : Prop where
  grounded : vs.Grounded t ↔ vs.Grounded u
  assign : ∀ σ, Satisfies Eq σ vs → t.assign σ = u.assign σ

theorem Alike.refl (t : Ty) : vs.Alike t t := ⟨Iff.rfl, fun _ _ => rfl⟩

theorem Alike.trans (h : vs.Alike t u) (h' : vs.Alike u w) : vs.Alike t w where
  grounded := h.grounded.trans h'.grounded
  assign σ hσ := (h.assign σ hσ).trans (h'.assign σ hσ)

theorem Heads.alike (hg : Grows vs vs') (h : vs.Heads t u) : vs'.Alike t u where
  grounded := h.grounded_of_grows hg
  assign _ hσ := h.assign eq_equivalence (hg.satisfies_before hσ)

theorem Grows.alike_resolve (hg : Grows vs vs') (h : vs.resolve t = .ok u) : vs'.Alike t u where
  grounded := hg.grounded_resolve h
  assign _ hσ := (hg.satisfies_before hσ).resolve (fun _ _ => (Ty.assign_var ..).symm) h

theorem grounded_ref : vs.Grounded (.ref t m r) ↔ vs.Grounded t := by
  have hvars : (Ty.ref t m r).vars = t.vars := by
    rw [Ty.vars_eq_flatMap rfl]
    simp [Ty.components]
  rw [grounded_iff, grounded_iff (t := t), hvars]

theorem Alike.pointee (h : vs.Alike (.ref t m r) (.ref u n q)) : vs.Alike t u where
  grounded := grounded_ref.symm.trans (h.grounded.trans grounded_ref)
  assign σ hσ := by
    have heq := h.assign σ hσ
    rw [Ty.assign_eq rfl, Ty.assign_eq rfl] at heq
    exact (Ty.ref.inj heq).1

/-! ## Types that resolve to concrete ones -/

theorem ResolvesConcretely.alike (hs : vs.Sound) (h : vs.Alike t u)
    (ht : vs.ResolvesConcretely t) : vs.ResolvesConcretely u := by
  refine ⟨h.grounded.1 ht.1, ?_⟩
  rw [← h.assign _ (hs.satisfies_extend _)]
  exact ht.2

theorem resolvesConcretely_ref : vs.ResolvesConcretely (.ref t m r) ↔ vs.ResolvesConcretely t := by
  simp only [ResolvesConcretely, ResolvesTo, grounded_ref]
  rw [Ty.assign_eq rfl, Ty.forall_mem_subterms]
  simp [Ty.mapComponents, Ty.components, Ty.isConcrete]

theorem Grows.meets {v : Var} (hg : Grows vs vs') (h : vs.Meets t v) : vs'.Meets t v := by
  induction h with
  | here hv => exact .here hv
  | through hw hvalue _ ih => exact .through hw (hg.value _ _ hvalue) ih

/-- What resolves to a concrete type did so before, as far as its variables were there. -/
theorem ResolvesConcretely.before (hs : vs.Sound) (hs' : vs'.Sound) (hg : Grows vs vs')
    (hhas : ∀ v, vs'.Has v → vs.Has v) (h : vs'.ResolvesConcretely t) :
    vs.ResolvesConcretely t := by
  have hground : vs.Grounded t := fun v hv => hhas v (h.1 v (hg.meets hv))
  obtain ⟨r, hr⟩ := (hs.resolve_settles .var t).exists_ok hground
  have hconcrete : (t.assign (vs'.extend .var)).Concrete := h.2
  rw [(hg.alike_resolve hr).assign _ (hs'.satisfies_extend _)] at hconcrete
  exact hs.resolvesTo hr hconcrete.of_assign

/-! ## Clashes -/

/-- No solution makes the types the same. -/
def Clash (vs : Vars) (a b : Ty) : Prop := ∀ σ, Solves σ vs → ¬ Same (a.assign σ) (b.assign σ)

namespace Clash

theorem mono (hg : Grows vs vs') (h : vs.Clash a b) : vs'.Clash a b :=
  fun σ hσ => h σ (hσ.before hg)

theorem symm (h : vs.Clash a b) : vs.Clash b a :=
  fun σ hσ hsame => h σ hσ (Ty.same_symm hsame)

theorem alike (ha : vs.Alike a a') (hb : vs.Alike b b') : vs.Clash a b ↔ vs.Clash a' b' := by
  refine forall₂_congr fun σ hσ => ?_
  rw [ha.assign σ hσ.solved, hb.assign σ hσ.solved]

variable {m n : Mutability} {r q : Region}

theorem same_ref : Same ((Ty.ref a m r).assign σ) ((Ty.ref b n q).assign σ) ↔
    m = n ∧ Same (a.assign σ) (b.assign σ) := by
  rw [Ty.assign_eq rfl, Ty.assign_eq rfl]
  simp only [Same, Ty.mapComponents, Ty.same, Bool.and_eq_true, decide_eq_true_eq]

theorem ref (h : vs.Clash a b) : vs.Clash (.ref a m r) (.ref b n q) :=
  fun σ hσ hsame => h σ hσ (same_ref.1 hsame).2

theorem pointee (h : vs.Clash (.ref a m r) (.ref b m q)) : vs.Clash a b :=
  fun σ hσ hsame => h σ hσ (same_ref.2 ⟨rfl, hsame⟩)

theorem ref_ptr : vs.Clash (.ref a m r) (.ptr b n) := by
  intro σ _ hsame
  rw [Ty.assign_eq rfl, Ty.assign_eq rfl] at hsame
  cases hsame

theorem ptr (h : m ≠ n) : vs.Clash (.ptr a m) (.ptr b n) := by
  intro σ _ hsame
  rw [Ty.assign_eq rfl, Ty.assign_eq rfl] at hsame
  simp only [Ty.mapComponents, Same, Ty.same, Bool.and_eq_true, decide_eq_true_eq] at hsame
  exact h hsame.1

theorem array_slice {len : Option Nat} : vs.Clash (.array a len) (.slice b) := by
  intro σ _ hsame
  rw [Ty.assign_eq rfl, Ty.assign_eq rfl] at hsame
  cases hsame

end Clash

theorem Sound.clash_of_combine (hs : vs.Sound) (h : combine a b vs = .ok (false, vs'))
    (ha : vs.ResolvesConcretely a) (hb : vs.ResolvesConcretely b) : vs.Clash a b := by
  intro σ hσ hsame
  have hadmits := hσ.extends.admits hs hσ.kinds
  obtain ⟨_, hrun, -⟩ := (hσ.extends.solvable hs).succeeds_combineStrictly hadmits ha hb hsame
  rw [combine_of_combineStrictly hs hrun] at h
  cases h

theorem Sound.clash_after_combine (hs : vs.Sound) (h : combine a b vs = .ok (false, vs'))
    (ha : vs'.ResolvesConcretely a) (hb : vs'.ResolvesConcretely b) : vs'.Clash a b := by
  have hsteps := combine_makesSteps a b hs h
  have hg := hsteps.grows hs
  have hbefore {t : Ty} (ht : vs'.ResolvesConcretely t) : vs.ResolvesConcretely t :=
    ht.before hs (hsteps.sound hs) hg fun v => (hsteps.has_iff hs v).1
  exact (hs.clash_of_combine h (hbefore ha) (hbefore hb)).mono hg

end Vars

/-! ## Reborrowing -/

namespace Infer

variable {scope : Scope} {s s' : State} {vs : Vars} {m n : Mutability}
  {t u target a b p q source : Ty} {seq out steps : List Ty} {r : Region} {id : ExprId}
  {room depth : Nat}

theorem head_eq_ok (h : head t scope s = .ok (u, s')) : s.vars.Heads t u ∧ s' = s := by
  obtain ⟨hhead, rfl⟩ := readVars_eq_ok h
  exact ⟨Vars.heads_of_head hhead, rfl⟩

theorem alike_resolveSettled (hs : s.WellFormed) (h : resolveSettled t scope s = .ok (u, s'))
    (hg : s'.vars.Grows vs) : vs.Alike t u := by
  obtain ⟨r, s₁, hread, hrest⟩ := bind_eq_ok h
  obtain ⟨hr, rfl⟩ := readVars_eq_ok hread
  by_cases hvar : r.hasVar = true
  · rw [if_pos hvar] at hrest
    obtain ⟨_, s₂, hsettle, hread'⟩ := bind_eq_ok hrest
    obtain ⟨hu, rfl⟩ := readVars_eq_ok hread'
    have hgrows := (Orderly.settlePending.anyway.quiet hs hsettle).1.grows hs
    exact ((hgrows.trans hg).alike_resolve hr).trans (hg.alike_resolve hu)
  · rw [if_neg hvar] at hrest
    cases hrest
    exact hg.alike_resolve hr

theorem exists_ref_of_resolveSettled (h : resolveSettled (.ref t m r) scope s = .ok (u, s')) :
    ∃ t', u = .ref t' m r := by
  have hresolve {vs : Vars} {t u : Ty} (h : vs.resolve (.ref t m r) = .ok u) :
      ∃ t', u = .ref t' m r := by
    rw [Vars.resolve, Ty.mapM] at h
    obtain ⟨t', -, ⟨⟩⟩ := Except.bind_eq_ok h
    exact ⟨t', rfl⟩
  obtain ⟨t₁, s₁, hread, hrest⟩ := bind_eq_ok h
  obtain ⟨hr, rfl⟩ := readVars_eq_ok hread
  obtain ⟨t', rfl⟩ := hresolve hr
  by_cases hvar : (Ty.ref t' m r).hasVar = true
  · rw [if_pos hvar] at hrest
    obtain ⟨_, s₂, -, hread'⟩ := bind_eq_ok hrest
    exact hresolve (readVars_eq_ok hread').1
  · rw [if_neg hvar] at hrest
    cases hrest
    exact ⟨t', rfl⟩

theorem same_ref_eq_false (hs : vs.Sound) (h : vs.Alike t u) : (Ty.ref t m r).same u = false := by
  rw [Bool.eq_false_iff]
  intro hsame
  have hsize := Ty.size_eq_of_same (Ty.same_assign (vs.extend .var) hsame)
  rw [Ty.assign_eq rfl, Ty.mapComponents, Ty.size_ref, h.assign _ (hs.satisfies_extend _)] at hsize
  omega

/-- The first step from a reference leads to its pointee. -/
theorem derefSequence_ref (hlimit : 2 ≤ scope.config.autoderefLimit) (hs : s.WellFormed)
    (h : derefSequence (.ref t m r) scope s = .ok (seq, s')) :
    ∃ first pointee rest, seq = first :: pointee :: rest ∧ s'.vars.Alike t pointee := by
  obtain ⟨_, s₁, out, hresolve, hfrom, hout⟩ := derefSequence_eq_ok h
  obtain ⟨t', rfl⟩ := exists_ref_of_resolveSettled hresolve
  obtain ⟨room, hroom⟩ := Nat.exists_eq_add_of_le' hlimit
  rw [hroom, derefFrom, if_neg (by simp)] at hfrom
  obtain ⟨found, s₂, hderef, hfrom'⟩ := bind_eq_ok hfrom
  obtain ⟨_, _, ⟨⟩, hsome⟩ := bind_eq_ok hderef
  obtain ⟨pointee, _, hp, ⟨⟩⟩ := bind_eq_ok hsome
  have hs₁ := ((Regular.resolveSettled.quiet hs hresolve).1.spec hs).1
  have hev₂ := (Regular.resolveSettled.quiet hs₁ hp).1
  have hs₂ := (hev₂.spec hs₁).1
  have hev₃ := ((Orderly.derefFrom within_true within_true).anyway.quiet hs₂ hfrom').1
  have hnew : [Ty.ref t' m r].any (· == pointee) = false := by
    rw [List.any_cons, List.any_nil, Bool.or_false]
    exact same_ref_eq_false hs₂.vars (alike_resolveSettled hs₁ hp (.refl _))
  obtain ⟨rest, rfl⟩ := (isPrefix_derefFrom_succ hnew hfrom').trans hout.isPrefix
  refine ⟨_, pointee, rest, rfl, ?_⟩
  have hg₃ := hev₃.grows hs₂
  have hfirst := alike_resolveSettled hs hresolve ((hev₂.grows hs₁).trans hg₃)
  exact hfirst.pointee.trans (alike_resolveSettled hs₁ hp hg₃)

/-- A trial that fails is undone, and one that succeeds is kept. -/
theorem combineIfOk_eq_ok {ok : Bool} (hs : s.WellFormed)
    (h : combineIfOk a b scope s = .ok (ok, s')) :
    ∃ vars, Vars.combine a b s.opened.vars = .ok (ok, vars) ∧
      (ok = false → s' = s) ∧ (ok = true → vars.Grows s'.vars) := by
  obtain ⟨_, _, ⟨⟩, hrest⟩ := bind_eq_ok h
  obtain ⟨ok, s₁, hrun, hlast⟩ := bind_eq_ok hrest
  obtain ⟨vars, hcombine, rfl⟩ := onVars_eq_ok hrun
  have hopened := State.wellFormed_opened hs
  have hwork : s.opened.Evolves { s.opened with vars } :=
    .steps (Vars.combine_makesSteps a b hopened.vars hcombine)
  obtain ⟨hworked, hkept⟩ := hwork.spec hopened
  cases ok with
  | true =>
    cases hlast
    exact ⟨vars, hcombine, nofun, fun _ => State.grows_commit hworked.vars⟩
  | false =>
    cases hlast
    exact ⟨vars, hcombine, fun _ => hkept.rollback_eq, nofun⟩

/-- A reborrow goes on after a step that fails, and otherwise records what it went through. -/
theorem reborrowFrom_cons_eq_ok {ok : Bool} {step : Ty}
    (h : reborrowFrom id seq target m depth (step :: steps) scope s = .ok (ok, s')) :
    ∃ fits s₁,
      combineIfOk (.reference step m) (.reference target m) scope s = .ok (fits, s₁) ∧
      (fits = false ∧ reborrowFrom id seq target m (depth + 1) steps scope s₁ = .ok (ok, s') ∨
        fits = true ∧ ok = true ∧ (depth ≤ 1 ∧ s' = s₁ ∨ 1 < depth ∧
          adjust id (derefsTo seq depth ++ [.borrowRef (.reference step m) .erased m]) scope s₁ =
            .ok ((), s'))) := by
  rw [reborrowFrom] at h
  obtain ⟨fits, s₁, hrun, hrest⟩ := bind_eq_ok h
  refine ⟨fits, s₁, hrun, ?_⟩
  cases fits with
  | false => exact .inl ⟨rfl, hrest⟩
  | true =>
    by_cases hdepth : depth > 1
    · rw [if_pos rfl, if_pos hdepth] at hrest
      obtain ⟨_, s₂, hadjust, ⟨⟩⟩ := bind_eq_ok hrest
      exact .inr ⟨rfl, rfl, .inr ⟨hdepth, hadjust⟩⟩
    · rw [if_pos rfl, if_neg hdepth] at hrest
      cases hrest
      exact .inr ⟨rfl, rfl, .inl ⟨Nat.le_of_not_lt hdepth, rfl⟩⟩

/-- A failed reborrow has tried every step. -/
theorem reborrowFrom_eq_ok (hs : s.WellFormed)
    (h : reborrowFrom id seq target m depth steps scope s = .ok (false, s')) :
    s' = s ∧ ∀ step ∈ steps, ∃ vars,
      Vars.combine (.reference step m) (.reference target m) s.opened.vars =
        .ok (false, vars) := by
  induction steps generalizing depth with
  | nil =>
    cases h
    exact ⟨rfl, List.forall_mem_nil _⟩
  | cons step rest ih =>
    obtain ⟨_, s₁, hrun, ⟨rfl, hrest⟩ | ⟨-, ⟨⟩, -⟩⟩ := reborrowFrom_cons_eq_ok h
    obtain ⟨vars, hfirst, hsame, -⟩ := combineIfOk_eq_ok hs hrun
    cases hsame rfl
    obtain ⟨hend, hothers⟩ := ih hrest
    exact ⟨hend, List.forall_mem_cons.2 ⟨⟨vars, hfirst⟩, hothers⟩⟩

/-- Where a reborrow fails, the pointees clash. -/
theorem clash_of_reborrow (hlimit : 2 ≤ scope.config.autoderefLimit) (hs : s.WellFormed)
    (h : reborrow id (.ref t m r) u n scope s = .ok (false, s'))
    (ht : s'.vars.ResolvesConcretely t) (hu : s'.vars.ResolvesConcretely u) :
    s'.vars.Clash t u := by
  obtain ⟨seq, s₁, hseq, hrest⟩ := bind_eq_ok h
  have hs₁ := ((Regular.derefSequence.quiet hs hseq).1.spec hs).1
  obtain ⟨first, pointee, rest, rfl, halike⟩ := derefSequence_ref hlimit hs hseq
  obtain ⟨rfl, htried⟩ := reborrowFrom_eq_ok hs₁ hrest
  obtain ⟨vars, hcombine⟩ := htried pointee (.head _)
  -- The trial was rolled back, so the variables are those with which it began.
  have hopened := (State.wellFormed_opened hs₁).vars
  have hg : s'.opened.vars.Grows s'.vars :=
    hopened.grows_compressed fun k => Table.compressed_of_cells (by cases k <;> rfl)
  have hbefore {t : Ty} (ht : s'.vars.ResolvesConcretely t) :
      s'.opened.vars.ResolvesConcretely (.reference t n) :=
    Vars.resolvesConcretely_ref.2
      (ht.before hopened hs₁.vars hg fun v hv => by cases v <;> exact hv)
  have hclash := hopened.clash_of_combine hcombine (hbefore (ht.alike hs₁.vars halike)) (hbefore hu)
  exact (Vars.Clash.alike halike (.refl u)).2 (hclash.mono hg).pointee

/-! ## Conversions -/

/-- What a conversion comes to, once both types are resolved at the outermost level. -/
inductive Attempts (scope : Scope) (id : ExprId) (s : State) : Ty → Ty → Bool → State → Prop
  | unify {a b : Ty} {ok : Bool} {s' : State} : combine a b scope s = .ok (ok, s') →
    Attempts scope id s a b ok s'
  | unsize {p q elem elem' : Ty} {m n : Mutability} {len : Option Nat} {r k : Region} {ok : Bool}
    {s' : State} : borrowServes m n = true →
    s.vars.head p = .ok (.array elem len) → s.vars.head q = .ok (.slice elem') →
    combine elem elem' scope s = .ok (ok, s') →
    Attempts scope id s (.ref p m r) (.ref q n k) ok s'
  | reborrow {p q pointee : Ty} {m n : Mutability} {r k : Region} {ok : Bool} {s' : State} :
    borrowServes m n = true →
    s.vars.head q = .ok pointee → reborrow id (.ref p m r) pointee n scope s = .ok (ok, s') →
    Attempts scope id s (.ref p m r) (.ref q n k) ok s'
  | borrowPtr {p q : Ty} {m n : Mutability} {r : Region} {s₁ s' : State} : borrowServes m n = true →
    combine p q scope s = .ok (true, s₁) →
    adjust id [.borrowPtr (.ptr q n) n] scope s₁ = .ok ((), s') →
    Attempts scope id s (.ref p m r) (.ptr q n) true s'
  | refused {p q : Ty} {m n : Mutability} {r : Region} {s' : State} :
    combine p q scope s = .ok (false, s') →
    Attempts scope id s (.ref p m r) (.ptr q n) false s'
  | constPtr {p q : Ty} {ok : Bool} {s' : State} : combine p q scope s = .ok (ok, s') →
    Attempts scope id s (.ptr p .mut) (.ptr q .shared) ok s'

/-- A conversion is one attempt, which the two heads decide on. -/
theorem attempts_of_tryCoerce {ok : Bool} (h : tryCoerce id source target scope s = .ok (ok, s')) :
    ∃ a b, s.vars.head source = .ok a ∧ s.vars.head target = .ok b ∧
      Attempts scope id s a b ok s' := by
  obtain ⟨a, s₁, hread, hrest⟩ := bind_eq_ok h
  obtain ⟨ha, rfl⟩ := readVars_eq_ok hread
  obtain ⟨b, s₂, hread', hlast⟩ := bind_eq_ok hrest
  obtain ⟨hb, rfl⟩ := readVars_eq_ok hread'
  refine ⟨a, b, ha, hb, ?_⟩
  split at hlast
  · split at hlast
    · next hserves =>
      obtain ⟨p', s₃, hpointee, hnext⟩ := bind_eq_ok hlast
      obtain ⟨hp, rfl⟩ := readVars_eq_ok hpointee
      obtain ⟨q', s₄, hpointee', hend⟩ := bind_eq_ok hnext
      obtain ⟨hq, rfl⟩ := readVars_eq_ok hpointee'
      cases p' with
      | array elem len =>
        cases q' with
        | slice elem' => exact .unsize hserves hp hq hend
        | _ => exact .reborrow hserves hq hend
      | _ => exact .reborrow hserves hq hend
    · exact .unify hlast
  · split at hlast
    · next hserves =>
      obtain ⟨fits, s₃, hcombine, hend⟩ := bind_eq_ok hlast
      cases fits with
      | false =>
        cases hend
        exact .refused hcombine
      | true =>
        obtain ⟨_, s₄, hadjust, ⟨⟩⟩ := bind_eq_ok hend
        exact .borrowPtr hserves hcombine hadjust
    · exact .unify hlast
  · exact .constPtr hlast
  · exact .unify hlast

/-- Types that cannot be converted clash. -/
theorem clash_of_tryCoerce (hlimit : 2 ≤ scope.config.autoderefLimit) (hs : s.WellFormed)
    (h : tryCoerce id source target scope s = .ok (false, s'))
    (hsource : s'.vars.ResolvesConcretely source) (htarget : s'.vars.ResolvesConcretely target) :
    s'.vars.Clash source target := by
  have hev := (Regular.tryCoerce.quiet hs h).1
  have hs' := (hev.spec hs).1.vars
  have hg := hev.grows hs
  have halike {t u : Ty} (h : s.vars.head t = .ok u) : s'.vars.Alike t u :=
    (Vars.heads_of_head h).alike hg
  obtain ⟨a, b, hhead, hhead', hattempts⟩ := attempts_of_tryCoerce h
  have ha := hsource.alike hs' (halike hhead)
  have hb := htarget.alike hs' (halike hhead')
  rw [Vars.Clash.alike (halike hhead) (halike hhead')]
  cases hattempts with
  | unify hrun =>
    obtain ⟨vars, hvars, rfl⟩ := onVars_eq_ok hrun
    exact hs.vars.clash_after_combine hvars ha hb
  | unsize _ hp hq => exact ((Vars.Clash.alike (halike hp) (halike hq)).2 .array_slice).ref
  | reborrow _ hq hrun =>
    have hp' := Vars.resolvesConcretely_ref.1 ha
    have hq' := (Vars.resolvesConcretely_ref.1 hb).alike hs' (halike hq)
    have hclash := clash_of_reborrow hlimit hs hrun hp' hq'
    exact ((Vars.Clash.alike (.refl _) (halike hq)).2 hclash).ref
  | refused => exact .ref_ptr
  | constPtr => exact .ptr nofun

end Infer

end TypeInference
