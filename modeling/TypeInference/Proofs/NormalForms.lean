import TypeInference.Proofs.Coercions

/-!
# Normal forms

A projection whose trait holds without saying what the type is can only be named. It is its own
normal form, and the cache says so. When a type is normalized, all projections that are left should
be of this kind, up to what has become known of their variables since.

That takes that no other projections come in on the way: not in the values of variables or in the
cache, nor in impl headers and the where-clauses in scope.
-/

namespace TypeInference

variable {result : Normalized Ty} {known : WellKnown} {goal : TraitRef} {name : String}
  {k p q : Projection} {t : Ty} {b : Bound} {s s' s'' : State}

open Infer

/-! ## Projections inside types -/

namespace Ty

variable {N N' : Projection → Prop} {t c : Ty}

/-- The projection that a type is. -/
def projection? : Ty → Option Projection
  | .projection self trait args name => some ⟨⟨self, trait, args⟩, name⟩
  | _ => none

/-- The projections inside a type. -/
def projections (t : Ty) : List Projection := t.subterms.filterMap projection?

/-- All projections inside the type are in `N`. -/
def ProjectsIn (N : Projection → Prop) (t : Ty) : Prop := ∀ q ∈ t.projections, N q

theorem projection?_eq_some_iff {q : Projection} : t.projection? = some q ↔ t = q.toTy := by
  obtain ⟨⟨self, trait, args⟩, name⟩ := q
  cases t <;> simp [projection?, Projection.toTy, and_assoc]

/-- The projections of a type are the type itself and those of its components. -/
theorem projectsIn_iff :
    t.ProjectsIn N ↔ (∀ q, t.projection? = some q → N q) ∧ ∀ c ∈ t.components, c.ProjectsIn N := by
  unfold ProjectsIn projections
  rw [subterms_eq]
  simp only [List.mem_filterMap, List.mem_cons, List.mem_flatMap]
  constructor
  · intro h
    exact ⟨fun q hq => h q ⟨t, .inl rfl, hq⟩,
      fun c hc q ⟨u, hu, hq⟩ => h q ⟨u, .inr ⟨c, hc, hu⟩, hq⟩⟩
  · rintro ⟨hself, hcomponents⟩ q ⟨u, rfl | ⟨c, hc, hu⟩, hq⟩
    · exact hself q hq
    · exact hcomponents c hc q ⟨u, hu, hq⟩

theorem ProjectsIn.component (h : t.ProjectsIn N) (hc : c ∈ t.components) : c.ProjectsIn N :=
  (projectsIn_iff.1 h).2 c hc

theorem ProjectsIn.mono (h : t.ProjectsIn N) (hN : N ≤ N') : t.ProjectsIn N' :=
  fun q hq => hN q (h q hq)

theorem projectsIn_of_traits (h : t.projectionTraits = []) : t.ProjectsIn N := by
  intro q hq
  obtain ⟨u, hu, hq⟩ := List.mem_filterMap.1 hq
  have htrait : q.traitRef.trait ∈ t.projectionTraits := by
    refine List.mem_filterMap.2 ⟨u, hu, ?_⟩
    rw [projection?_eq_some_iff.1 hq]
    rfl
  rw [h] at htrait
  cases htrait

theorem projectsIn_of_any (h : t.any isProjection = false) : t.ProjectsIn N := by
  intro q hq
  obtain ⟨u, hu, hq⟩ := List.mem_filterMap.1 hq
  have hproj := List.any_eq_false.1 h u hu
  rw [projection?_eq_some_iff.1 hq] at hproj
  exact absurd rfl hproj

end Ty

/-! ## Related lists -/

section

variable {α β : Type} {as bs : List α} {Q : α → α → Prop} {P : α → Prop}

theorem map_eq_of_forall₂ {f : α → β} (hf : ∀ a b, Q a b → f a = f b) (h : List.Forall₂ Q as bs) :
    as.map f = bs.map f := by
  induction h with
  | nil => rfl
  | cons hab _ ih => rw [List.map_cons, List.map_cons, hf _ _ hab, ih]

theorem forall_mem_iff_of_forall₂ (hP : ∀ a b, Q a b → (P a ↔ P b)) (h : List.Forall₂ Q as bs) :
    (∀ a ∈ as, P a) ↔ ∀ b ∈ bs, P b := by
  induction h with
  | nil => simp
  | cons hab _ ih => rw [List.forall_mem_cons, List.forall_mem_cons, hP _ _ hab, ih]

theorem forall_mem_of_forall₂ (h : List.Forall₂ (fun _ b => P b) as bs) : ∀ b ∈ bs, P b := by
  induction h with
  | nil => simp
  | cons hb _ ih => exact List.forall_mem_cons.2 ⟨hb, ih⟩

end

/-! ## Judgements about traversals -/

/-- A judgement about what computations give, relative to what is known at the time. -/
structure Yielding {m : Type → Type} [Monad m] {ω : Type} [Preorder ω]
    (J : (α : Type) → ω → m α → (ω → α → Prop) → Prop) : Prop where
  pure : ∀ {α : Type} {w : ω} {a : α} {P : ω → α → Prop}, (∀ w', w ≤ w' → P w' a) →
    J α w (pure a) P
  bind : ∀ {α β : Type} {w : ω} {x : m α} {f : α → m β} {P : ω → α → Prop} {Q : ω → β → Prop},
    J α w x P → (∀ w' a, w ≤ w' → P w' a → J β w' (f a) Q) → J β w (x >>= f) Q

namespace Yielding

variable {m : Type → Type} [Monad m] [LawfulMonad m] {ω α β : Type} [Preorder ω]
  {J : (α : Type) → ω → m α → (ω → α → Prop) → Prop} (hJ : Yielding J) {w : ω}

include hJ

/-- Each member of a list is followed by the rest, when more may be known. -/
theorem mapM {f : α → m β} {xs : List α} {R : ω → α → β → Prop}
    (hmono : ∀ ⦃w w' a b⦄, w ≤ w' → R w a b → R w' a b)
    (hf : ∀ w' a, w ≤ w' → a ∈ xs → J β w' (f a) fun w b => R w a b) :
    J (List β) w (xs.mapM f) fun w bs => List.Forall₂ (R w) xs bs := by
  induction xs generalizing w with
  | nil =>
    rw [List.mapM_nil]
    exact hJ.pure fun _ _ => .nil
  | cons a xs ih =>
    rw [List.mapM_cons]
    refine hJ.bind (hf w a le_rfl (.head _)) fun w₁ b hw₁ hb => ?_
    have hrest := ih fun w' a hw' ha => hf w' a (hw₁.trans hw') (.tail _ ha)
    refine hJ.bind hrest fun w₂ bs hw₂ hbs => hJ.pure fun w₃ hw₃ => ?_
    exact .cons (hmono (hw₂.trans hw₃) hb) (hbs.imp fun _ _ => hmono hw₃)

variable {f : Ty → m Ty} {R : ω → Ty → Ty → Prop}

/-- A traversal gives what its nodes do, put together from below. -/
theorem traversal {t : Ty} (hmono : ∀ ⦃w w' c d⦄, w ≤ w' → R w c d → R w' c d)
    (hf : ∀ w' u ts, w ≤ w' → u ∈ t.subterms → List.Forall₂ (R w') u.components ts →
      J Ty w' (f (u.rebuild ts)) fun w d => R w u d) : J Ty w (t.mapM f) fun w r => R w t r := by
  induction t using Ty.componentInduction generalizing w with
  | node t ih =>
    rw [Ty.mapM_eq, Ty.mapComponentsM_eq, bind_map_left]
    refine hJ.bind (hJ.mapM hmono fun w' c hw hc => ?_) fun w' ts hw hts =>
      hf w' t ts hw t.mem_subterms_self hts
    refine ih c hc fun w'' u ts hw' hu hts => hf w'' u ts (hw.trans hw') ?_ hts
    exact Ty.mem_subterms_of_component hc hu

end Yielding

/-! ## Types that are one -/

namespace Vars

variable {vs vs' : Vars} {t r : Ty} {σ : Var → Ty}

theorem grounded_iff_components (hnode : t.isVar = false) :
    vs.Grounded t ↔ ∀ c ∈ t.components, vs.Grounded c := by
  constructor
  · exact fun h c hc => h.component hc
  · intro h
    rw [grounded_iff]
    intro v hv
    obtain ⟨c, hc, hv⟩ := (Ty.mem_vars_iff hnode).1 hv
    exact grounded_iff.1 (h c hc) v hv

namespace Identified

theorem rebuild {ts : List Ty} (h : List.Forall₂ vs.Identified t.components ts) :
    vs.Identified t (t.rebuild ts) := by
  rcases t.eq_var_or with ⟨v, rfl⟩ | hnode
  · exact refl _
  · have hnode' : (t.rebuild ts).isVar = false := by
      cases t <;> first | rfl | cases hnode
    intro vs' hg
    refine ⟨?_, fun σ hσ => ?_⟩
    · rw [grounded_iff_components hnode, grounded_iff_components hnode',
        Ty.components_rebuild h.length_eq.symm]
      exact forall_mem_iff_of_forall₂ (fun c d hcd => (hcd vs' hg).grounded) h
    · rw [Ty.assign_eq hnode, Ty.assign_eq hnode', Ty.mapComponents_rebuild _ h.length_eq.symm,
        ← Ty.rebuild_map, map_eq_of_forall₂ (fun c d hcd => (hcd vs' hg).assign σ hσ) h]

theorem assign (h : ∀ v ∈ t.vars, vs.Identified (.var v) (σ v)) :
    vs.Identified t (t.assign σ) := by
  intro vs' hg
  refine ⟨?_, fun τ hτ => ?_⟩
  · rw [grounded_iff, grounded_assign]
    exact forall₂_congr fun v hv => (h v hv vs' hg).grounded
  · rw [Ty.assign_assign]
    refine Ty.assign_congr fun v hv => ?_
    rw [← Ty.assign_var τ v]
    exact (h v hv vs' hg).assign τ hτ

theorem resolveVar {n : Nat} {v : Var} (h : vs.resolveVar .var n v = .ok r) :
    vs.Identified (.var v) r := by
  intro vs' hg
  refine ⟨hg.grounded_resolveVar h, fun σ hσ => ?_⟩
  rw [Ty.assign_var]
  exact (hg.satisfies_before hσ).resolveVar (fun v _ => (Ty.assign_var σ v).symm) h

/-- A type is one with what it resolves to. -/
theorem resolve (h : vs.resolve t = .ok r) : vs.Identified t r := by
  rw [Vars.resolve, resolveNode_eq, Ty.mapM_onVar_eq_ok_iff] at h
  obtain ⟨σ, hσ, rfl⟩ := h
  exact .assign fun v hv => .resolveVar (hσ v hv)

end Identified

theorem resolve_toTy (p : Projection) :
    vs.resolve p.toTy = (vs.resolveProjection p).map Projection.toTy := by
  rw [resolve, resolveProjection, Projection.mapM, TraitRef.mapM, Projection.toTy, Ty.mapM]
  cases p.traitRef.self.mapM (vs.resolveNode .var) with
  | error e => rfl
  | ok self =>
    cases Ty.mapListM (vs.resolveNode .var) p.traitRef.args with
    | error e | ok args => rfl

theorem resolveProjection_eq_ok_iff {p q : Projection} :
    vs.resolveProjection p = .ok q ↔ vs.resolve p.toTy = .ok q.toTy := by
  rw [resolve_toTy]
  cases vs.resolveProjection p with
  | error e => simp [Except.map]
  | ok p' =>
    obtain ⟨⟨self, trait, args⟩, name⟩ := p'
    obtain ⟨⟨self', trait', args'⟩, name'⟩ := q
    simp [Except.map, Projection.toTy, and_assoc]

end Vars

/-! ## Named projections -/

/-- The self type and the arguments of the projection have projections in `N` only. -/
def Projection.PartsIn (N : Projection → Prop) (p : Projection) : Prop :=
  ∀ c ∈ p.toTy.components, c.ProjectsIn N

theorem Projection.PartsIn.mono {N N' : Projection → Prop} (h : p.PartsIn N) (hN : N ≤ N') :
    p.PartsIn N' :=
  fun c hc => (h c hc).mono hN

theorem Ty.exists_projection?_of_mapComponents {f : Ty → Ty}
    (h : (t.mapComponents f).projection? = some q) : ∃ p, t.projection? = some p := by
  cases t with
  | projection self trait args name => exact ⟨_, rfl⟩
  | _ => cases h

namespace State

variable {s s' : State} {k p q : Projection} {t r : Ty} {σ : Var → Ty}

/-- The projection can only be named: it is its own normal form. -/
def Named (s : State) (k : Projection) : Prop :=
  s.cache.get? k = some (.normalized (.plain k.toTy))

/-- The projection is one with a named one. -/
def Names (s : State) (q : Projection) : Prop := ∃ k, s.Named k ∧ s.vars.Identified k.toTy q.toTy

/-- In the values of variables and in the normal forms of the cache, all projections are named. -/
structure Tidy (s : State) : Prop where
  vars : s.vars.Keeps (Ty.ProjectsIn s.Names)
  cache : ∀ key result, s.cache.get? key = some (.normalized result) →
    result.value.ProjectsIn s.Names

theorem Named.names (h : s.Named k) : s.Names k := ⟨k, h, .refl _⟩

theorem Names.trans (h : s.Names p) (hq : s.vars.Identified p.toTy q.toTy) : s.Names q := by
  obtain ⟨k, hk, hp⟩ := h
  exact ⟨k, hk, hp.trans hq⟩

theorem names_mono (hnamed : s.Named ≤ s'.Named) (hg : s.vars.Grows s'.vars) :
    s.Names ≤ s'.Names :=
  fun _ ⟨k, hk, hq⟩ => ⟨k, hnamed k hk, hq.grows hg⟩

/-- Assigning what variables are one with brings in no other projections. -/
theorem projectsIn_assign (ht : t.ProjectsIn s.Names)
    (hσ : ∀ v ∈ t.vars, s.vars.Identified (.var v) (σ v) ∧ (σ v).ProjectsIn s.Names) :
    (t.assign σ).ProjectsIn s.Names := by
  induction t using Ty.varInduction with
  | var v =>
    rw [Ty.assign_var]
    exact (hσ v (List.mem_singleton_self v)).2
  | node t hnode ih =>
    rw [Ty.projectsIn_iff]
    constructor
    · intro q hq
      rw [Ty.assign_eq hnode] at hq
      obtain ⟨p, hp⟩ := Ty.exists_projection?_of_mapComponents hq
      have hone : s.vars.Identified t (t.assign σ) := .assign fun v hv => (hσ v hv).1
      rw [← Ty.assign_eq hnode] at hq
      rw [Ty.projection?_eq_some_iff.1 hq, Ty.projection?_eq_some_iff.1 hp] at hone
      exact ((Ty.projectsIn_iff.1 ht).1 p hp).trans hone
    · rw [Ty.components_assign hnode, List.forall_mem_map]
      exact fun c hc => ih c hc (ht.component hc) fun v hv =>
        hσ v ((Ty.mem_vars_iff hnode).2 ⟨c, hc, hv⟩)

namespace Tidy

theorem resolveVar (h : s.Tidy) {n : Nat} {v : Var} (hr : s.vars.resolveVar .var n v = .ok r) :
    r.ProjectsIn s.Names := by
  induction n generalizing v r with
  | zero => cases hr
  | succ n ih =>
    rcases Vars.resolveVar_eq_ok hr with ⟨w, -, rfl⟩ | ⟨u, σ, hheads, -, hσ, rfl⟩
    · exact Ty.projectsIn_of_any rfl
    · refine projectsIn_assign (hheads.keeps h.vars (Ty.projectsIn_of_any rfl)) fun w hw => ?_
      exact ⟨.resolveVar (hσ w hw), ih (hσ w hw)⟩

theorem resolveProjection (h : s.Tidy) (hp : p.PartsIn s.Names)
    (hq : s.vars.resolveProjection p = .ok q) : q.PartsIn s.Names := by
  rw [Vars.resolveProjection_eq_ok_iff, Vars.resolve, Vars.resolveNode_eq,
    Ty.mapM_onVar_eq_ok_iff] at hq
  obtain ⟨σ, hσ, hassign⟩ := hq
  have hnode : p.toTy.isVar = false := rfl
  intro c hc
  rw [← hassign, Ty.components_assign hnode] at hc
  obtain ⟨d, hd, rfl⟩ := List.mem_map.1 hc
  refine projectsIn_assign (hp d hd) fun v hv => ?_
  have hv := hσ v ((Ty.mem_vars_iff hnode).2 ⟨d, hd, hv⟩)
  exact ⟨.resolveVar hv, h.resolveVar hv⟩

end Tidy

end State

/-! ## Scopes that hide no projections -/

/-- Impl headers and the bounds of the where-clauses in scope have no projections in them. -/
structure Scope.HidesNoProjections (scope : Scope) : Prop where
  headers : ∀ impl ∈ scope.items.impls, ∀ trait args, impl.traitRef = some (trait, args) →
    ∀ t ∈ impl.self :: args, t.projectionTraits = []
  env : ∀ p ∈ scope.env.bounds, ∀ t ∈ p.bound.components, t.projectionTraits = []

theorem Bound.mem_components_of_assocTy? (h : b.assocTy? name = some t) : t ∈ b.components := by
  obtain ⟨a, ha, rfl⟩ := Option.map_eq_some_iff.1 h
  exact List.mem_append_right _ (List.mem_map_of_mem (List.mem_of_find?_eq_some ha))

theorem Selection.mem_components_of_inherent (h : Selection.inherent known goal = some (.object b)) :
    ∀ c ∈ b.components, c ∈ goal.self.components := by
  unfold Selection.inherent at h
  split at h
  · next heq =>
    split at h
    · cases h
      rw [heq]
      exact fun c hc => hc
    · cases h
  · next heq =>
    obtain ⟨b', hb', ⟨⟩⟩ := Option.map_eq_some_iff.1 h
    rw [heq]
    exact fun c hc => List.mem_flatMap.2 ⟨b, List.mem_of_find?_eq_some hb', hc⟩
  · split at h <;> cases h
  · cases h

/-- The bounds that a selection names come from the where-clauses or from the goal. -/
theorem components_of_select {items : Items} {env : ParamEnv} {source : Source}
    (h : select items known env goal = .ok source) (hb : source = .param b ∨ source = .object b) :
    (∃ p ∈ env.bounds, p.bound = b) ∨ ∀ c ∈ b.components, c ∈ goal.self.components := by
  unfold select at h
  split at h
  · cases h
  dsimp only at h
  split at h
  · next hfind =>
    cases h
    obtain ⟨p, hp, ⟨⟩⟩ := List.mem_map.1 (List.mem_of_find?_eq_some hfind)
    rcases hb with hb | hb <;> cases hb
    exact .inl ⟨p, (List.mem_filter.1 hp).1, rfl⟩
  · split at h
    · next hinherent =>
      cases h
      rcases hb with rfl | rfl
      · -- The self type itself never provides a where-clause.
        unfold Selection.inherent at hinherent
        split at hinherent <;> simp at hinherent
      · exact .inr (Selection.mem_components_of_inherent hinherent)
    · split at h
      · split at h <;> cases h
      · cases h
        rcases hb with hb | hb <;> cases hb
      · cases h

/-! ## Normalization keeps states tidy -/

namespace State

variable {s : State}

theorem Tidy.withVars (h : s.Tidy) {vars : Vars} (hg : s.vars.Grows vars)
    (hkeeps : vars.Keeps (Ty.ProjectsIn s.Names)) :
    { s with vars }.Tidy ∧ s.Names ≤ { s with vars }.Names := by
  have hnames : s.Names ≤ { s with vars }.Names := names_mono (fun _ hk => hk) hg
  refine ⟨⟨⟨fun _ _ _ _ => Ty.projectsIn_of_any rfl, fun v t hv ht => ?_⟩, ?_⟩, hnames⟩
  · exact (hkeeps.value v t (Ty.projectsIn_of_any rfl) ht).mono hnames
  · exact fun key result hentry => (h.cache key result hentry).mono hnames

section

variable {p : Projection} {entry : CacheEntry}
  (hnamed : ∀ k, (k == p) = true → s.Named k → entry = .normalized (.plain k.toTy))

include hnamed

/-- A new entry takes no name away if it gives a named projection its name again. -/
theorem names_cached : s.Names ≤ { s with cache := s.cache.insert p entry }.Names := by
  refine names_mono (fun k hk => ?_) (.refl _)
  unfold Named
  rw [ProjectionCache.get?_insert]
  by_cases hkp : (k == p) = true
  · rw [if_pos hkp, hnamed k hkp hk]
  · rw [if_neg hkp]
    exact hk

theorem Tidy.cached (h : s.Tidy) (hentry : ∀ result, entry = .normalized result →
    result.value.ProjectsIn { s with cache := s.cache.insert p entry }.Names) :
    { s with cache := s.cache.insert p entry }.Tidy := by
  have hnames := names_cached hnamed
  refine ⟨⟨fun _ _ _ _ => Ty.projectsIn_of_any rfl, fun v t hv ht => ?_⟩, ?_⟩
  · exact (h.vars.value v t (Ty.projectsIn_of_any rfl) ht).mono hnames
  · intro key result hget
    rw [ProjectionCache.get?_insert] at hget
    by_cases hkp : (key == p) = true
    · rw [if_pos hkp] at hget
      exact hentry result (Option.some.inj hget)
    · rw [if_neg hkp] at hget
      exact (h.cache key result hget).mono hnames

end

theorem not_named_of_get? {k p : Projection} {entry : CacheEntry} (hkp : (k == p) = true)
    (hget : s.cache.get? p = some entry) (hentry : ∀ result, entry ≠ .normalized result) :
    ¬ s.Named k := by
  intro hk
  rw [Named, ProjectionCache.get?_congr hkp, hget] at hk
  exact hentry _ (Option.some.inj hk)

end State

namespace Infer

variable {α β : Type} {scope : Scope} {N : Projection → Prop}

/-- From a tidy state in which `N` is named the computation leads to a tidy one, in which no less is
named, and `P` holds then of its result. -/
def Tidying (scope : Scope) (α : Type) (N : Projection → Prop) (x : Infer α)
    (P : (Projection → Prop) → α → Prop) : Prop :=
  ∀ ⦃s a s'⦄, s.WellFormed → s.Tidy → N ≤ s.Names → x scope s = .ok (a, s') →
    s'.WellFormed ∧ s'.Tidy ∧ s.Names ≤ s'.Names ∧ P s'.Names a

theorem yielding_tidying : Yielding (Tidying scope) where
  pure hP := by
    intro s _ _ hs ht hN h
    cases h
    exact ⟨hs, ht, le_rfl, hP _ hN⟩
  bind hx hf := by
    intro s b s' hs ht hN h
    obtain ⟨a, s₁, hrun, hrest⟩ := bind_eq_ok h
    obtain ⟨hs₁, ht₁, hnames₁, ha⟩ := hx hs ht hN hrun
    obtain ⟨hs', ht', hnames', hb⟩ := hf s₁.Names a (hN.trans hnames₁) ha hs₁ ht₁ le_rfl hrest
    exact ⟨hs', ht', hnames₁.trans hnames', hb⟩

/-- Likewise while obligations are collected. -/
def TidyingCollected (scope : Scope) (α : Type) (N : Projection → Prop)
    (x : StateT (List Obligation) Infer α) (P : (Projection → Prop) → α → Prop) : Prop :=
  ∀ obligations, Tidying scope (α × List Obligation) N (x obligations) fun N r => P N r.1

theorem yielding_tidyingCollected : Yielding (TidyingCollected scope) where
  pure hP _ := yielding_tidying.pure hP
  bind hx hf obligations :=
    yielding_tidying.bind (hx obligations) fun N' r hN hr => hf N' r.1 hN hr r.2

namespace Tidying

variable {x : Infer α} {P Q : (Projection → Prop) → α → Prop} {s' s : State} {t : Ty}
  {p : Projection}

theorem imp (hx : Tidying scope α N x P) (hPQ : ∀ N' a, N ≤ N' → P N' a → Q N' a) :
    Tidying scope α N x Q := by
  intro s a s' hs ht hN h
  obtain ⟨hs', ht', hnames, ha⟩ := hx hs ht hN h
  exact ⟨hs', ht', hnames, hPQ _ a (hN.trans hnames) ha⟩

theorem gives (hx : Tidying scope α N x P) :
    Tidying scope α N x fun N a => P N a ∧ Gives scope x a := by
  intro s a s' hs ht hN h
  obtain ⟨hs', ht', hnames, ha⟩ := hx hs ht hN h
  exact ⟨hs', ht', hnames, ha, s, s', h⟩

theorem pure {a : α} (ha : ∀ N', N ≤ N' → P N' a) : Tidying scope α N (pure a) P :=
  yielding_tidying.pure ha

theorem bind {f : α → Infer β} {R : (Projection → Prop) → β → Prop} (hx : Tidying scope α N x P)
    (hf : ∀ N' a, N ≤ N' → P N' a → Tidying scope β N' (f a) R) :
    Tidying scope β N (x >>= f) R :=
  yielding_tidying.bind hx hf

theorem still (hx : ∀ ⦃s a s'⦄, s.Tidy → N ≤ s.Names → x scope s = .ok (a, s') →
    s' = s ∧ P s.Names a) : Tidying scope α N x P := by
  intro s a s' hs ht hN h
  obtain ⟨rfl, ha⟩ := hx ht hN h
  exact ⟨hs, ht, le_rfl, ha⟩

theorem readBind {f : Scope → Infer α} (hf : Tidying scope α N (f scope) P) :
    Tidying scope α N (read >>= f) P :=
  fun _ _ _ hs ht hN h => hf hs ht hN h

theorem liftBind {y : Except Fault β} {f : β → Infer α}
    (hf : ∀ b, y = .ok b → Tidying scope α N (f b) P) : Tidying scope α N (liftM y >>= f) P := by
  intro s a s' hs ht hN h
  obtain ⟨b, s₁, hlift, hrest⟩ := bind_eq_ok h
  obtain ⟨hy, rfl⟩ := lift_eq_ok hlift
  exact hf b hy hs ht hN hrest

theorem collected (hx : Tidying scope α N x P) :
    TidyingCollected scope α N (liftM x) P := by
  intro obligations s r s' hs ht hN h
  have hbind : (x >>= fun a => Pure.pure (a, obligations)) scope s = .ok (r, s') := h
  obtain ⟨a, s₁, hrun, ⟨⟩⟩ := bind_eq_ok hbind
  exact hx hs ht hN hrun

theorem ite {c : Prop} [Decidable c] {y : Infer α} (hx : Tidying scope α N x P)
    (hy : Tidying scope α N y P) : Tidying scope α N (if c then x else y) P := by
  split
  · exact hx
  · exact hy

theorem readVars {f : Vars → Except Fault α} :
    Tidying scope α N (readVars f) fun _ _ => True :=
  still fun _ _ _ _ _ h => ⟨(readVars_eq_ok h).2, trivial⟩

/-! ### Variables -/

theorem onVars {act : VarM Bool} (hact : ∀ N' vs, N ≤ N' → vs.Sound ∧ vs.Keeps (Ty.ProjectsIn N') →
      Vars.Safe (fun _ => True) (fun vs => vs.Sound ∧ vs.Keeps (Ty.ProjectsIn N')) False vs (act vs)) :
    Tidying scope Bool N (onVars act) fun _ _ => True := by
  intro s ok s' hs ht hN h
  obtain ⟨vars, hrun, rfl⟩ := onVars_eq_ok h
  obtain ⟨hsteps, ⟨-, hkeeps⟩, -⟩ := (hact s.Names s.vars hN ⟨hs.vars, ht.vars⟩).returns hrun
  obtain ⟨ht', hnames⟩ := ht.withVars (hsteps.grows hs.vars) hkeeps
  exact ⟨((State.Evolves.steps hsteps).spec hs).1, ht', hnames, trivial⟩

theorem governs_projectsIn (N : Projection → Prop) :
    Vars.Governs (.ok .unknown) (fun _ => True) (fun vs => vs.Sound ∧ vs.Keeps (Ty.ProjectsIn N))
      (fun a b => a.ProjectsIn N ∧ b.ProjectsIn N) False :=
  Vars.governs_keeps (Ty.projectsIn_of_any rfl) Ty.ProjectsIn.component

theorem combine {a b : Ty} (ha : a.ProjectsIn N) (hb : b.ProjectsIn N) :
    Tidying scope Bool N (combine a b) fun _ _ => True :=
  onVars fun N' _ hN hvs => (governs_projectsIn N').combineOr hvs ⟨ha.mono hN, hb.mono hN⟩

theorem unify {a b : Ty} (ha : a.ProjectsIn N) (hb : b.ProjectsIn N) :
    Tidying scope Unit N (unify a b) fun _ _ => True :=
  (combine ha hb).bind fun _ _ _ _ => pure fun _ _ => trivial

theorem combinePairs {as bs : List Ty} (has : ∀ a ∈ as, a.ProjectsIn N)
    (hbs : ∀ b ∈ bs, b.ProjectsIn N) :
    Tidying scope Bool N (combinePairs as bs) fun _ _ => True :=
  onVars fun N' _ hN hvs => (governs_projectsIn N').combinePairs hvs fun hab =>
    ⟨(has _ (List.of_mem_zip hab).1).mono hN, (hbs _ (List.of_mem_zip hab).2).mono hN⟩

theorem combineTraitRefs {a b : TraitRef} (ha : ∀ t ∈ a.header, t.ProjectsIn N)
    (hb : ∀ t ∈ b.header, t.ProjectsIn N) :
    Tidying scope Bool N (combineTraitRefs a b) fun _ _ => True :=
  onVars fun N' _ hN hvs => (governs_projectsIn N').combineTraitRefs id hvs fun hab =>
    ⟨(ha _ (List.of_mem_zip hab).1).mono hN, (hb _ (List.of_mem_zip hab).2).mono hN⟩

theorem freshTy : Tidying scope Ty N freshTy fun N t => t.ProjectsIn N := by
  intro s t s' hs ht hN h
  cases h
  have hkeeps : s.vars.freshTy.2.Keeps (Ty.ProjectsIn s.Names) := by
    refine ⟨fun _ _ _ _ => Ty.projectsIn_of_any rfl, fun v t hv hvalue => ?_⟩
    rw [Vars.valueOf_freshTy hs.vars] at hvalue
    split at hvalue
    · cases hvalue
    · exact ht.vars.value v t hv hvalue
  have hev := State.Evolves.fresh .ty s
  obtain ⟨ht', hnames⟩ := ht.withVars (hev.grows hs) hkeeps
  exact ⟨(hev.spec hs).1, ht', hnames, Ty.projectsIn_of_any rfl⟩

theorem freshSubst {generics : Generics} :
    Tidying scope Subst N (freshSubst generics) fun _ subst => subst.Plain := by
  have hloop : ∀ (ps : List ParamId) N σ, Tidying scope Subst N
      (ps.foldlM (fun subst p => do return subst.insert p (← Infer.freshTy)) σ)
      fun _ _ => True := by
    intro ps
    induction ps with
    | nil => exact fun _ _ => pure fun _ _ => trivial
    | cons p ps ih =>
      intro N σ
      rw [List.foldlM_cons]
      refine bind (P := fun _ _ => True) ?_ fun N' σ' _ _ => ih N' σ'
      exact freshTy.bind fun _ _ _ _ => pure fun _ _ => trivial
  exact (hloop generics.params N .empty).gives.imp fun _ _ _ h => plain_of_freshSubst h.2

/-! ### Types -/

/-- Projections over named ones are normalized to types over named ones. -/
def Tidies (scope : Scope) (inner : Normalizer) : Prop :=
  ∀ ⦃N : Projection → Prop⦄ ⦃p : Projection⦄ (depth : Nat), p.PartsIn N →
    Tidying scope (Option (Normalized Ty)) N (inner p depth) fun N found =>
      ∀ result, found = some result → result.value.ProjectsIn N

section

variable {inner : Normalizer} (hinner : Tidies scope inner) {p : Projection} {impl : Impl}
  {depth : Nat} {subst : Subst}

include hinner

theorem standIn (hp : p.PartsIn N) (depth : Nat) :
    Tidying scope (Normalized Ty) N (standIn inner p depth) fun N r => r.value.ProjectsIn N := by
  refine (hinner depth hp).bind fun N' found _ hfound => ?_
  cases found with
  | some result => exact pure fun _ hN => (hfound result rfl).mono hN
  | none => exact freshTy.bind fun _ _ _ ht => liftBind fun _ _ => pure fun _ hN => ht.mono hN

theorem normalizeNode (ht : ∀ c ∈ t.components, c.ProjectsIn N) (depth : Nat) :
    TidyingCollected scope Ty N (normalizeNode inner depth t) fun N r => r.ProjectsIn N := by
  intro obligations
  unfold Infer.normalizeNode
  split
  · next self trait args name =>
    have hlift := (standIn hinner (p := ⟨⟨self, trait, args⟩, name⟩) ht depth).collected
    refine yielding_tidyingCollected.bind hlift (fun _ r _ hr => ?_) obligations
    exact fun _ => pure fun _ hN => hr.mono hN
  · next hother =>
    refine pure fun _ hN => Ty.projectsIn_iff.2 ⟨fun q hq => ?_, fun c hc => (ht c hc).mono hN⟩
    exact absurd (Ty.projection?_eq_some_iff.1 hq) (hother _ _ _ _)

theorem normalizeTyWith : Tidying scope (Normalized Ty) N (normalizeTyWith inner t depth) fun N r =>
      r.value.ProjectsIn N := by
  unfold Infer.normalizeTyWith
  by_cases hany : t.any Ty.isProjection = true
  · rw [if_pos hany]
    have htraversal : TidyingCollected scope Ty N (t.mapM (Infer.normalizeNode inner depth))
        fun N r => r.ProjectsIn N := by
      refine yielding_tidyingCollected.traversal (R := fun N _ d => d.ProjectsIn N)
        (fun _ _ _ _ hN h => h.mono hN) fun N' u ts _ _ hts => normalizeNode hinner ?_ depth
      rw [Ty.components_rebuild hts.length_eq.symm]
      exact forall_mem_of_forall₂ hts
    exact (htraversal []).bind fun _ _ _ hr => pure fun _ hN => hr.mono hN
  · rw [if_neg hany]
    exact pure fun _ _ => Ty.projectsIn_of_any (Bool.eq_false_iff.2 hany)

theorem normalizeListWith {ts : List Ty} :
    Tidying scope (Normalized (List Ty)) N (normalizeListWith inner ts depth) fun _ _ => True := by
  refine (yielding_tidying.mapM (R := fun _ _ _ => True) (fun _ _ _ _ _ h => h)
    fun _ t _ _ => ?_).bind fun _ _ _ _ => pure fun _ _ => trivial
  exact (normalizeTyWith hinner).imp fun _ _ _ _ => trivial

/-! ### Where-clauses -/

theorem instantiateBound {p : WherePredicate} :
    Tidying scope (List Obligation) N (instantiateBound inner subst depth p) fun _ _ => True := by
  refine bind (P := fun _ _ => True) ?_ fun _ goal _ _ => ?_
  · refine (normalizeTyWith hinner).bind fun _ _ _ _ => ?_
    exact (normalizeListWith hinner).bind fun _ _ _ _ => pure fun _ _ => trivial
  · refine (yielding_tidying.mapM (R := fun _ _ _ => True) (fun _ _ _ _ _ h => h)
      fun _ a _ _ => ?_).bind fun _ _ _ _ => pure fun _ _ => trivial
    exact (normalizeTyWith hinner).bind fun _ _ _ _ => pure fun _ _ => trivial

theorem instantiateBoundsWith {bounds : List WherePredicate} :
    Tidying scope (List Obligation) N (instantiateBoundsWith inner bounds subst depth)
      fun _ _ => True :=
  (yielding_tidying.mapM (R := fun _ _ _ => True) (fun _ _ _ _ _ h => h)
    fun _ _ _ _ => instantiateBound hinner).bind fun _ _ _ _ => pure fun _ _ => trivial

/-! ### Associated types -/

/-- What is read has named projections only. -/
def Reads (N : Projection → Prop) (found : Selection (Option (Normalized Ty))) : Prop :=
  ∀ result, found = .ok (some result) → result.value.ProjectsIn N

variable (hscope : scope.HidesNoProjections)

include hscope

omit hinner in
theorem instantiateHeader (himpl : impl ∈ scope.items.impls) :
    Tidying scope (Option (Subst × TraitRef)) N (instantiateHeader impl) fun N found =>
      ∀ subst header, found = some (subst, header) → ∀ t ∈ header.header, t.ProjectsIn N := by
  unfold Infer.instantiateHeader
  split
  · next trait args htraitRef =>
    refine freshSubst.bind fun _ subst _ hsubst => pure fun _ _ => ?_
    rintro _ _ ⟨⟩
    have hplain : ∀ t ∈ impl.self :: args, (subst.apply t).projectionTraits = [] := by
      intro t ht
      refine List.eq_nil_iff_forall_not_mem.2 fun tr htr => ?_
      have htr := hsubst.mem_projectionTraits htr
      rw [hscope.headers impl himpl trait args htraitRef t ht] at htr
      cases htr
    obtain ⟨hself, hargs⟩ := List.forall_mem_cons.1 hplain
    refine List.forall_mem_cons.2 ⟨Ty.projectsIn_of_traits hself, ?_⟩
    exact List.forall_mem_map.2 fun t ht => Ty.projectsIn_of_traits (hargs t ht)
  · exact pure fun _ _ _ _ h => nomatch h

/-- What an impl says is normalized. -/
theorem projectImpl (himpl : impl ∈ scope.items.impls) (hp : p.PartsIn N) :
    Tidying scope _ N (projectImpl inner impl p depth) Reads := by
  have herr {N : Projection → Prop} : Tidying scope _ N
      (Pure.pure .err : Infer (Selection (Option (Normalized Ty)))) Reads :=
    pure fun _ _ _ h => nomatch h
  unfold Infer.projectImpl
  cases impl.assocTy? p.name with
  | none => exact herr
  | some assoc =>
    refine (instantiateHeader hscope himpl).bind fun N₁ found hN₁ hheader => ?_
    cases found with
    | none => exact herr
    | some found =>
      obtain ⟨subst, header⟩ := found
      refine (combineTraitRefs (hheader subst header rfl) (hp.mono hN₁)).bind fun _ _ _ _ => ?_
      refine ite ?_ herr
      refine (instantiateBoundsWith hinner).bind
        fun _ _ _ _ => liftBind fun d _ => ?_
      refine (normalizeTyWith hinner).bind fun _ ty _ hty => pure fun _ hN result h => ?_
      cases h
      exact hty.mono hN

omit hinner hscope in
theorem projectBound {bound : Bound} (hbound : ∀ c ∈ bound.components, c.ProjectsIn N)
    (hp : p.PartsIn N) : Tidying scope _ N (projectBound bound p) Reads := by
  have hanswer {N' : Projection → Prop} (agrees : Bool) (hN : N ≤ N') : Tidying scope _ N'
      (if agrees = true then Pure.pure (.ok ((bound.assocTy? p.name).map .plain))
        else Pure.pure .err : Infer (Selection (Option (Normalized Ty)))) Reads := by
    refine ite (pure fun _ hN' result h => ?_) (pure fun _ _ _ h => nomatch h)
    obtain ⟨t, ht, rfl⟩ := Option.map_eq_some_iff.1 (Selection.ok.inj h)
    exact (hbound t (Bound.mem_components_of_assocTy? ht)).mono (hN.trans hN')
  unfold Infer.projectBound
  refine ite ?_ ?_
  · refine (combinePairs (fun a ha => hbound a (List.mem_append_left _ ha)) fun b hb => ?_).bind
      fun _ agrees hN _ => hanswer agrees hN
    exact hp b (.tail _ hb)
  · exact (pure (P := fun _ _ => True) fun _ _ => trivial).bind fun _ agrees hN _ =>
      hanswer agrees hN

omit hinner hscope in
theorem projectBuiltin (hp : p.PartsIn N) : Tidying scope _ N (projectBuiltin p) Reads := by
  have hnone {N : Projection → Prop} : Tidying scope _ N
      (Pure.pure (.ok none) : Infer (Selection (Option (Normalized Ty)))) Reads :=
    pure fun _ _ _ h => nomatch h
  obtain ⟨hself, hargs⟩ := List.forall_mem_cons.1 hp
  unfold Infer.projectBuiltin
  split
  · next params ret heq =>
    rw [show p.traitRef.self = .fn params ret from heq] at hself
    have hret {N' : Projection → Prop} (hN : N ≤ N') : Tidying scope _ N'
        (Pure.pure (.ok (some (.plain ret))) : Infer (Selection (Option (Normalized Ty)))) Reads := by
      refine pure fun _ hN' result h => ?_
      cases h
      exact (hself.component (c := ret) (by simp [Ty.components])).mono (hN.trans hN')
    refine ite ?_ hnone
    split
    · next args hhead =>
      refine (unify ?_ (hargs args (List.mem_of_head? hhead))).bind fun _ _ hN _ => hret hN
      refine Ty.projectsIn_iff.2 ⟨fun _ h => ?_, fun c hc => ?_⟩
      · cases h
      · exact hself.component (List.mem_append_left _ hc)
    · exact hret le_rfl
  · exact hnone

/-- Whatever is read for a projection has named projections only. -/
theorem project (hp : p.PartsIn N) : Tidying scope _ N (project inner p depth) Reads := by
  refine readBind ?_
  cases hselect : select scope.items scope.known scope.env p.traitRef with
  | err | ambiguous => exact pure fun _ _ _ h => nomatch h
  | ok source =>
    have hbound (b : Bound) (hb : source = .param b ∨ source = .object b) :
        ∀ c ∈ b.components, c.ProjectsIn N := by
      intro c hc
      rcases components_of_select hselect hb with ⟨w, hw, rfl⟩ | hmem
      · exact Ty.projectsIn_of_traits (hscope.env w hw c hc)
      · exact (hp p.self (.head _)).component (hmem c hc)
    cases source with
    | impl id =>
      refine readBind (liftBind fun impl himpl => ?_)
      exact projectImpl hinner hscope (Items.mem_impls himpl) hp
    | param b => exact projectBound (hbound b (.inl rfl)) hp
    | object b => exact projectBound (hbound b (.inr rfl)) hp
    | builtin => exact projectBuiltin hp

end

/-! ### The cache -/

theorem filterM {p : α → Infer Bool} (hp : ∀ N a, Tidying scope Bool N (p a) fun _ _ => True)
    {xs : List α} : Tidying scope (List α) N (xs.filterM p) fun _ _ => True := by
  have hloop : ∀ N (acc : List α), Tidying scope (List α) N (xs.filterAuxM p acc)
      fun _ _ => True := by
    induction xs with
    | nil => exact fun _ _ => pure fun _ _ => trivial
    | cons x xs ih => exact fun N acc => (hp N x).bind fun N' _ _ _ => ih N' _
  exact (hloop N []).bind fun _ _ _ _ => pure fun _ _ => trivial

theorem forCache (hresult : result.value.ProjectsIn N) :
    Tidying scope (Normalized Ty) N (forCache result) fun N kept => kept.value.ProjectsIn N := by
  refine readVars.bind fun N₁ _ hN₁ _ => ite ?_ ?_
  · refine (filterM (fun N o => ?_)).bind fun N₂ _ hN₂ _ => ?_
    · refine ite (readVars.bind fun _ _ _ _ => ?_) (pure fun _ _ => trivial)
      exact pure fun _ _ => trivial
    · exact pure fun _ hN => hresult.mono (hN₁.trans (hN₂.trans hN))
  · exact pure fun _ hN => hresult.mono (hN₁.trans hN)

/-- The answer has named projections only. -/
def Answers (N : Projection → Prop) (found : Option (Normalized Ty)) : Prop :=
  ∀ result, found = some result → result.value.ProjectsIn N

theorem answers_unknown : Answers N (some (.plain .unknown)) := by
  intro _ h
  cases h
  exact Ty.projectsIn_of_any rfl

/-- What an entry gives is tidy, and leaves it as it is up to its obligations. -/
theorem of_answerFromCache {entry : CacheEntry} {found : Option (Normalized Ty)} (ht : s.Tidy)
    (hentry : s.cache.get? p = some entry) (h : answerFromCache p entry scope s = .ok (found, s')) :
    s'.Tidy ∧ s.Names ≤ s'.Names ∧ Answers s'.Names found := by
  cases entry with
  | ambiguous =>
    cases h
    exact ⟨ht, le_rfl, nofun⟩
  | inProgress | error =>
    cases h
    exact ⟨ht, le_rfl, answers_unknown⟩
  | normalized cached =>
    have hcached : cached.value.ProjectsIn s.Names := ht.cache p cached hentry
    obtain ⟨isOpen, s₁, hopen, h⟩ := bind_eq_ok h
    obtain ⟨-, rfl⟩ := readVars_eq_ok hopen
    cases isOpen with
    | true =>
      cases h
      refine ⟨ht, le_rfl, fun _ h => ?_⟩
      cases h
      exact hcached
    -- The entry loses its obligations; if it was a name, it stays the same one.
    | false =>
      cases h
      have hnamed : ∀ k, (k == p) = true → s₁.Named k →
          CacheEntry.normalized (.plain cached.value) = .normalized (.plain k.toTy) := by
        intro k hkp hk
        rw [State.Named, ProjectionCache.get?_congr hkp, hentry] at hk
        cases hk
        rfl
      have hnames := State.names_cached hnamed
      refine ⟨ht.cached hnamed fun _ h => ?_, hnames, fun _ h => ?_⟩
      · cases h
        exact hcached.mono hnames
      · cases h
        exact hcached.mono hnames

/-- What is found for a projection in progress is remembered; if that is nothing but its name, it is
a named one from then on. -/
theorem of_remember {found : Selection (Option (Normalized Ty))} {answer : Option (Normalized Ty)}
    (hs : s.WellFormed) (ht : s.Tidy) (hp : p.PartsIn s.Names) (hfound : Reads s.Names found)
    (hprogress : s.cache.get? p = some .inProgress)
    (h : remember p found scope s = .ok (answer, s')) :
    s'.Tidy ∧ s.Names ≤ s'.Names ∧ Answers s'.Names answer := by
  have hnamed {s : State} (hprogress : s.cache.get? p = some .inProgress) (entry : CacheEntry) :
      ∀ k, (k == p) = true → s.Named k → entry = .normalized (.plain k.toTy) :=
    fun k hkp hk => absurd hk (State.not_named_of_get? hkp hprogress nofun)
  match found, h with
  | .ok (some result), h =>
    obtain ⟨kept, s₁, hkept, h⟩ := bind_eq_ok h
    have hresult := hfound result rfl
    obtain ⟨hs₁, ht₁, hnames₁, hvalue⟩ := forCache hresult hs ht le_rfl hkept
    -- Choosing what to keep leaves the projection in progress.
    have hregular : Regular scope (fun _ => True) (fun _ _ => False) (Infer.forCache result) :=
      (Orderly.forCache within_true).anyway
    have hlasts := ((hregular.spec carries_lasts (fun hx => hx.elim) hs hkept).2 hs).2
    have hnamed₁ := hnamed (hlasts.inProgress_iff.2 hprogress) (.normalized kept)
    have hnames := State.names_cached hnamed₁
    cases h
    refine ⟨ht₁.cached hnamed₁ fun _ h => ?_, hnames₁.trans hnames, fun _ h => ?_⟩
    · cases h
      exact hvalue.mono hnames
    · cases h
      exact hresult.mono (hnames₁.trans hnames)
  -- Nothing is found, and the projection becomes a name.
  | .ok none, h =>
    cases h
    have hnamed := hnamed hprogress (.normalized (.plain p.toTy))
    have hnames := State.names_cached hnamed
    have hself : p.toTy.ProjectsIn (State.Names
        { s with cache := s.cache.insert p (.normalized (.plain p.toTy)) }) := by
      refine Ty.projectsIn_iff.2 ⟨fun q hq => ?_, fun c hc => (hp c hc).mono hnames⟩
      cases hq
      refine State.Named.names ?_
      rw [State.Named, ProjectionCache.get?_insert, if_pos (Projection.same_refl p)]
    refine ⟨ht.cached hnamed fun _ h => ?_, hnames, fun _ h => ?_⟩
    · cases h
      exact hself
    · cases h
      exact hself
  | .err, h =>
    cases h
    have hnamed := hnamed hprogress .error
    exact ⟨ht.cached hnamed nofun, State.names_cached hnamed, answers_unknown⟩
  | .ambiguous, h =>
    cases h
    have hnamed := hnamed hprogress .ambiguous
    exact ⟨ht.cached hnamed nofun, State.names_cached hnamed, nofun⟩

/-- Normalization keeps states tidy and gives types over named projections. -/
theorem normalizeWithin (hscope : scope.HidesNoProjections) (n : Nat) :
    Tidies scope (normalizeWithin n) := by
  -- The associated types of impls are normalized with one level less.
  induction n with
  | zero =>
    intro _ _ _ _ _ _ _ _ _ _ h
    cases h
  | succ n ih =>
    intro N p depth hp s found s' hs ht hN h
    have hev := (relates_normalizeWithin (n + 1) p depth hs h).1
    refine ⟨(hev.spec hs).1, ?_⟩
    obtain ⟨q, hq, hrest⟩ := normalizeWithin_eq_ok h
    have hparts := ht.resolveProjection (hp.mono hN) hq
    rcases hrest with ⟨-, rfl, rfl⟩ | ⟨-, ⟨entry, hcached, hfound⟩ |
      ⟨habsent, answer, s₃, hproject, hremember⟩⟩
    · exact ⟨ht, le_rfl, nofun⟩
    · exact of_answerFromCache ht hcached hfound
    · have hs₂ := ((State.Evolves.cached s q .inProgress).spec hs).1
      -- The mark that the projection is in progress takes the place of no name.
      have hnamed : ∀ k, (k == q) = true → s.Named k →
          CacheEntry.inProgress = .normalized (.plain k.toTy) := by
        intro k hkq hk
        rw [State.Named, ProjectionCache.get?_congr hkq, habsent] at hk
        cases hk
      have hnames₂ := State.names_cached hnamed
      have ht₂ := ht.cached hnamed nofun
      obtain ⟨hs₃, ht₃, hnames₃, hread⟩ :=
        project ih hscope (hparts.mono hnames₂) hs₂ ht₂ le_rfl hproject
      have hlasts := ((relates_project carries_lasts (relates_normalizeWithin n) hs₂
        hproject).2 hs₂).2
      have hprogress : s₃.cache.get? q = some .inProgress := by
        refine hlasts.inProgress_iff.2 ?_
        rw [ProjectionCache.get?_insert, if_pos (Projection.same_refl q)]
      obtain ⟨ht', hnames', hanswer⟩ := of_remember hs₃ ht₃
        (hparts.mono (hnames₂.trans hnames₃)) hread hprogress hremember
      exact ⟨ht', hnames₂.trans (hnames₃.trans hnames'), hanswer⟩

/-- So does the normal form of a type. -/
theorem normalizeTy (hscope : scope.HidesNoProjections) {depth : Nat} :
    Tidying scope (Normalized Ty) N (normalizeTy t depth) fun N r => r.value.ProjectsIn N :=
  normalizeTyWith (fun _ _ depth hp => readBind (normalizeWithin hscope _ depth hp))

end Tidying

end Infer

/-! ## Normalizing a normal form -/

/-- The variables are the same, and so is what the cache says of every projection. -/
structure State.SameEntries (s s' : State) : Prop where
  vars : s'.vars = s.vars
  cache : ∀ key, s'.cache.get? key = s.cache.get? key

theorem State.SameEntries.refl (s : State) : s.SameEntries s := ⟨rfl, fun _ => rfl⟩

theorem State.SameEntries.trans (h : s.SameEntries s') (h' : s'.SameEntries s'') :
    s.SameEntries s'' :=
  ⟨h'.vars.trans h.vars, fun key => (h'.cache key).trans (h.cache key)⟩

/-- The projection is named, and is the resolution of `q`. -/
structure State.Fixes (s : State) (k q : Projection) : Prop where
  named : s.Named k
  isTyVar : k.self.isTyVar = false
  resolution : s.vars.resolveProjection q = .ok k

theorem State.Fixes.identified (h : s.Fixes k q) : s.vars.Identified q.toTy k.toTy :=
  .resolve (Vars.resolveProjection_eq_ok_iff.1 h.resolution)

theorem State.Fixes.trans (hs : s.vars.Sound) (h : s.Fixes k p)
    (hq : s.vars.Identified p.toTy q.toTy) : s.Fixes k q where
  named := h.named
  isTyVar := h.isTyVar
  resolution := Vars.resolveProjection_eq_ok_iff.2
    ((hq _ (.refl _)).resolveNode_eq hs (Vars.resolveProjection_eq_ok_iff.1 h.resolution))

theorem State.Fixes.sameEntries (h : s.Fixes k q) (hsame : s.SameEntries s') : s'.Fixes k q where
  named := (hsame.cache k).trans h.named
  isTyVar := h.isTyVar
  resolution := hsame.vars ▸ h.resolution

namespace Infer

variable {scope : Scope} {s : State} {k p : Projection} {t : Ty}

theorem answerFromCache_of_fixes (hs : s.vars.Sound) (hk : s.Fixes k p) :
    ∃ s', answerFromCache k (.normalized (.plain k.toTy)) scope s =
      .ok (some (.plain k.toTy), s') ∧ s.SameEntries s' := by
  have hvars : s.vars.isOpen k.toTy = .ok k.toTy.hasVar := by
    have hresolved := (hk.trans hs hk.identified).resolution
    rw [Vars.isOpen, Vars.resolveProjection_eq_ok_iff.1 hresolved]
    rfl
  have hisOpen : isOpen (Normalized.plain k.toTy).value scope s = .ok (k.toTy.hasVar, s) :=
    readVars_of_ok hvars
  simp only [answerFromCache]
  rw [bind_of_ok hisOpen]
  by_cases hopen : k.toTy.hasVar = true
  · rw [if_pos hopen]
    exact ⟨s, rfl, .refl s⟩
  · -- The entry is replaced by itself.
    rw [if_neg hopen]
    refine ⟨_, rfl, rfl, fun key => ?_⟩
    show (s.cache.insert k _).get? key = s.cache.get? key
    rw [ProjectionCache.get?_insert]
    by_cases hkey : (key == k) = true
    · rw [if_pos hkey, ProjectionCache.get?_congr hkey]
      exact hk.named.symm
    · rw [if_neg hkey]

/-- A named projection is its own normal form. -/
theorem normalizeWithin_of_fixes (hs : s.vars.Sound) (hk : s.Fixes k p) (n depth : Nat) :
    ∃ s', normalizeWithin (n + 1) p depth scope s = .ok (some (.plain k.toTy), s') ∧
      s.SameEntries s' := by
  have hread : readVars (fun vs => vs.resolveProjection p) scope s = .ok (k, s) :=
    readVars_of_ok hk.resolution
  have hstart : cacheStart k scope s = .ok (some (.normalized (.plain k.toTy)), s) := by
    rw [cacheStart_run, ProjectionCache.start, hk.named]
  rw [normalizeWithin, bind_of_ok hread, hk.isTyVar, if_neg Bool.false_ne_true,
    bind_of_ok hstart]
  exact answerFromCache_of_fixes hs hk

theorem normalizeNode_of_fixes (hs : s.vars.Sound) (hnesting : 0 < scope.fuel.nesting)
    (hk : s.Fixes k p) (depth : Nat) :
    ∃ s', normalizeNode normalize? depth p.toTy [] scope s = .ok ((k.toTy, []), s') ∧
      s.SameEntries s' := by
  obtain ⟨n, hn⟩ : ∃ n, scope.fuel.nesting = n + 1 := ⟨_, (Nat.succ_pred_eq_of_pos hnesting).symm⟩
  obtain ⟨s', hrun, hsame⟩ : ∃ s', normalizeWithin (n + 1) p depth scope s =
      .ok (some (.plain k.toTy), s') ∧ s.SameEntries s' :=
    normalizeWithin_of_fixes hs hk n depth
  have hfound : normalize? p depth scope s = .ok (some (.plain k.toTy), s') := by
    rw [← hn] at hrun
    exact hrun
  have hstandIn : standIn normalize? p depth scope s = .ok (.plain k.toTy, s') :=
    ok_then hfound rfl
  have hlift : (standIn normalize? p depth >>= fun r => pure (r, ([] : List Obligation))) scope s =
      .ok ((.plain k.toTy, []), s') :=
    ok_then hstandIn rfl
  have hwhole := bind_of_ok (f := fun r => pure (r.1.value, r.2 ++ r.1.obligations)) hlift
  exact ⟨s', hwhole, hsame⟩

/-- In states like `s` the computation changes nothing, collects nothing, and `P` holds of its
result: no more is named afterwards. -/
def Idles (scope : Scope) (s : State) (α : Type) (N : Projection → Prop)
    (x : StateT (List Obligation) Infer α) (P : (Projection → Prop) → α → Prop) : Prop :=
  ∀ ⦃s₁⦄, s.SameEntries s₁ → ∃ a s₂, x [] scope s₁ = .ok ((a, []), s₂) ∧ s.SameEntries s₂ ∧ P N a

theorem yielding_idles : Yielding (Idles scope s) where
  pure hP s₁ hs₁ := ⟨_, s₁, rfl, hs₁, hP _ le_rfl⟩
  bind {_ _ N x f _ _} hx hf s₁ hs₁ := by
    obtain ⟨a, s₂, hrun, hs₂, ha⟩ := hx hs₁
    obtain ⟨b, s₃, hrest, hs₃, hb⟩ := hf N a le_rfl ha hs₂
    have hwhole := bind_of_ok (f := fun r => f r.1 r.2) hrun
    exact ⟨b, s₃, hwhole.trans hrest, hs₃, hb⟩

/-- A type over named projections is one with its normal form. -/
theorem normalizeTy_of_fixes (hs : s.vars.Sound) (hnesting : 0 < scope.fuel.nesting)
    (ht : ∀ q ∈ t.projections, ∃ k, s.Fixes k q) (depth : Nat) :
    ∃ again s', normalizeTy t depth scope s = .ok (.plain again, s') ∧ s.SameEntries s' ∧
      s.vars.Identified t again := by
  unfold normalizeTy normalizeTyWith
  by_cases hany : t.any Ty.isProjection = true
  · rw [if_pos hany]
    have htraversal : Idles scope s Ty s.Names (t.mapM (normalizeNode normalize? depth))
        fun _ again => s.vars.Identified t again := by
      refine yielding_idles.traversal (R := fun _ => s.vars.Identified) (fun _ _ _ _ _ h => h) ?_
      intro _ u ts _ hu hts s₁ hs₁
      have hone : s.vars.Identified u (u.rebuild ts) := .rebuild hts
      generalize hr : u.rebuild ts = r at hone ⊢
      by_cases hprojection : ∃ q : Projection, r = q.toTy
      · obtain ⟨q, rfl⟩ := hprojection
        obtain ⟨p, hp⟩ : ∃ p, u.projection? = some p := by
          cases u <;> first | cases hr | exact ⟨_, rfl⟩
        obtain ⟨k, hk⟩ := ht p (List.mem_filterMap.2 ⟨u, hu, hp⟩)
        rw [Ty.projection?_eq_some_iff.1 hp] at hone ⊢
        obtain ⟨s₂, hrun, hsame⟩ := normalizeNode_of_fixes (hs₁.vars ▸ hs) hnesting
          ((hk.trans hs hone).sameEntries hs₁) depth
        exact ⟨k.toTy, s₂, hrun, hs₁.trans hsame, hk.identified⟩
      · unfold normalizeNode
        split
        · exact absurd ⟨⟨⟨_, _, _⟩, _⟩, rfl⟩ hprojection
        · exact ⟨r, s₁, rfl, hs₁, hone⟩
    obtain ⟨again, s', hrun, hsame, hone⟩ := htraversal (.refl s)
    exact ⟨again, s', ok_then hrun rfl, hsame, hone⟩
  · rw [if_neg hany]
    exact ⟨t, s, rfl, .refl s, .refl t⟩

end Infer

/-! ## Normal forms of reachable states -/

theorem State.tidy_start : State.Tidy {} where
  vars := by
    refine ⟨fun _ _ _ _ => Ty.projectsIn_of_any rfl, fun v t _ hvalue => ?_⟩
    cases v <;> cases hvalue
  cache _ _ h := nomatch h

/-- A projection that is in the cache after a normalization is not one of a variable. -/
theorem History.isTyVar_of_named {scope : Scope} {v : Versions State Mark}
    (h : History (Works scope) v) {depth : Nat}
    (hrun : normalizeTy t depth scope v.current = .ok (result, s')) (hk : s'.Named k) :
    k.self.isTyVar = false := by
  have hs : v.current.WellFormed := h.wellFormed_of_evolves fun _ _ hs h => h.evolves hs
  have hdiscard : (normalizeTy t depth >>= fun _ => pure ()) scope v.current = .ok ((), s') :=
    bind_of_ok hrun
  have hcall : Calls scope v.current s' := .operation (.normalizeTy t depth) hdiscard
  cases hold : v.current.cache.get? k with
  | some entry => exact h.isTyVar_of_cached hold
  | none => exact ((hcall.lasts hs).added k _ hold hk).2

/-- Where impl headers and the where-clauses in scope have no projections in them, a tidy state stays
tidy when a type is normalized, and all projections that are left in the type are named ones, whether
they come from the type, from impls, from objects and opaque types or from function types. As long
as nothing more is known of these than when they were named, so that what they resolve to is named, the
result is a normal form: normalizing it again gives a type that resolves to the same one, asks for
nothing and changes nothing about variables. -/
theorem History.normal_form_stays {scope : Scope} {v : Versions State Mark}
    (h : History (Works scope) v) (hscope : scope.HidesNoProjections) (htidy : v.current.Tidy)
    {t : Ty} {depth : Nat} {result : Normalized Ty} {s' : State}
    (hrun : normalizeTy t depth scope v.current = .ok (result, s')) :
    s'.Tidy ∧ (∀ q ∈ result.value.projections, s'.Names q) ∧
    (0 < scope.fuel.nesting →
      (∀ q ∈ result.value.projections, ∃ k, s'.Named k ∧ s'.vars.resolveProjection q = .ok k) →
      ∀ depth', ∃ again s'', normalizeTy result.value depth' scope s' = .ok (.plain again, s'') ∧
        s''.vars = s'.vars ∧
        ∀ r, s''.vars.resolve again = .ok r ↔ s'.vars.resolve result.value = .ok r) := by
  have hs : v.current.WellFormed := h.wellFormed_of_evolves fun _ _ hs h => h.evolves hs
  obtain ⟨hs', htidy', -, hnames⟩ := Tidying.normalizeTy hscope hs htidy le_rfl hrun
  refine ⟨htidy', hnames, fun hnesting hresolved depth' => ?_⟩
  have hfixes : ∀ q ∈ result.value.projections, ∃ k, s'.Fixes k q := by
    intro q hq
    obtain ⟨k, hk, hresolution⟩ := hresolved q hq
    exact ⟨k, hk, h.isTyVar_of_named hrun hk, hresolution⟩
  obtain ⟨again, s'', hagain, hsame, hone⟩ :=
    normalizeTy_of_fixes hs'.vars hnesting hfixes depth'
  refine ⟨again, s'', hagain, hsame.vars, fun r => ?_⟩
  rw [hsame.vars]
  have halike := hone _ (.refl _)
  exact ⟨halike.symm.resolveNode_eq hs'.vars, halike.resolveNode_eq hs'.vars⟩

/-- A function of a `T: Iter`, next to an impl that gives references the items of what they point
to. -/
def Scope.wrapping : Scope :=
  { Scope.bare with
    items := { Items.empty with
      paramNames := #["Self", "T", "X"]
      traits := #[⟨"Iter", .empty, ["Item"]⟩, ⟨"Wrap", .empty, ["Out"]⟩]
      impls := #[
        { generics := ⟨[⟨2⟩], []⟩
          traitRef := some (⟨1⟩, [])
          self := Ty.reference (.param ⟨2⟩) .shared
          assocTypes := [⟨"Out", .projection (.param ⟨2⟩) ⟨0⟩ [] "Item"⟩] }] }
    env := ⟨[⟨.param ⟨1⟩, ⟨⟨0⟩, [], []⟩⟩]⟩ }

theorem Scope.hidesNoProjections_wrapping : Scope.wrapping.HidesNoProjections where
  headers impl himpl trait args htraitRef := by
    obtain rfl := List.mem_singleton.1 (Array.mem_toList_iff.2 himpl)
    cases htraitRef
    decide
  env := by decide

/-- The item of a `T` is reached through the impl, and can only be named. -/
theorem History.normal_form_stays_wrapping :
    let out : Ty := .projection (Ty.reference (.param ⟨1⟩) .shared) ⟨1⟩ [] "Out"
    let item : Projection := ⟨⟨.param ⟨1⟩, ⟨0⟩, []⟩, "Item"⟩
    ∃ v s', History (Works .wrapping) v ∧ v.current.Tidy ∧ Scope.wrapping.HidesNoProjections ∧
      normalizeTy (.slice out) 0 .wrapping v.current = .ok (.plain (.slice item.toTy), s') ∧
      s'.Names item ∧
      ∃ again s'', normalizeTy (.slice item.toTy) 0 .wrapping s' = .ok (.plain again, s'') ∧
        s''.vars.resolve again = .ok (.slice item.toTy) := by
  intro out item
  have hstart : History (Works .wrapping) { current := {} } := .start
  obtain ⟨s', hrun, hnamed, hitem, hslice⟩ : ∃ s', normalizeTy (.slice out) 0 .wrapping {} =
      .ok (.plain (.slice item.toTy), s') ∧ s'.Named item ∧
      s'.vars.resolveProjection item = .ok item ∧
      s'.vars.resolve (.slice item.toTy) = .ok (.slice item.toTy) :=
    ⟨_, rfl, rfl, rfl, rfl⟩
  have htidy := State.tidy_start
  obtain ⟨-, hnames, hagain⟩ := hstart.normal_form_stays Scope.hidesNoProjections_wrapping htidy hrun
  refine ⟨_, s', hstart, htidy, Scope.hidesNoProjections_wrapping, hrun, ?_, ?_⟩
  · exact hnames item (List.mem_singleton_self item)
  · have hresolved (q : Projection) (hq : q ∈ (Ty.slice item.toTy).projections) :
        ∃ k, s'.Named k ∧ s'.vars.resolveProjection q = .ok k := by
      obtain rfl := List.mem_singleton.1 hq
      exact ⟨item, hnamed, hitem⟩
    obtain ⟨again, s'', hrun', -, hsame⟩ := hagain (by decide) hresolved 0
    exact ⟨again, s'', hrun', (hsame _).2 hslice⟩

/-- A function of a `T: Iter<Item = <bool as Other>::Out>`, next to an impl that gives `bool` the
output `i32`. -/
def Scope.binding : Scope :=
  { Scope.bare with
    items := { Items.empty with
      paramNames := #["Self", "T"]
      traits := #[⟨"Iter", .empty, ["Item"]⟩, ⟨"Other", .empty, ["Out"]⟩]
      impls := #[
        { generics := .empty
          traitRef := some (⟨1⟩, [])
          self := .bool
          assocTypes := [⟨"Out", .int .i32⟩] }] }
    env := ⟨[⟨.param ⟨1⟩, ⟨⟨0⟩, [], [⟨"Item", .projection .bool ⟨1⟩ [] "Out"⟩]⟩⟩]⟩ }

/-- The binding of a where-clause is handed on as it stands, though it can be normalized further. -/
theorem Infer.normalizeTy_binding :
    let item : Ty := .projection (.param ⟨1⟩) ⟨0⟩ [] "Item"
    let out : Ty := .projection .bool ⟨1⟩ [] "Out"
    ∃ s' s'', normalizeTy item 0 .binding {} = .ok (.plain out, s') ∧
      normalizeTy out 0 .binding s' = .ok (.plain (.int .i32), s'') :=
  ⟨_, _, rfl, rfl⟩

end TypeInference
