import TypeInference.Proofs.Fitting
import TypeInference.Proofs.Histories

/-!
# New variables for parameters

A declaration is used with new variables in place of its parameters. Nothing refers to a new
variable before it is combined with something, and what the other variables stand for stays as it
was.
-/

namespace TypeInference

/-! ## Variables that nothing refers to -/

namespace Vars

variable {vs vs' : Vars} {v w : Var} {a b t : Ty} {c : Except Fault Ty} {ok : Bool}

/-- The variable is open, and no other variable leads to it. -/
structure Untouched (vs : Vars) (v : Var) : Prop where
  isOpen : vs.Open v
  apart : Keeps (fun t => v ∉ t.vars) vs

/-- Linking other variables leaves a variable open. -/
theorem Links.keeps_open (h : Links c vs w t ok vs') (hv : vs.Open v) (hw : v ≠ w)
    (ht : t ≠ .var v) : vs'.Open v := by
  have hbinds {u : Var} {x : Ty} (hu : v ≠ u) (hb : vs.Binds u x vs') : vs'.Open v := by
    refine ⟨(hb.root_eq v).trans hv.1, (hb.value_other v ?_).trans hv.2⟩
    rw [hv.1]
    exact fun heq => hu (Except.ok.inj heq)
  cases h with
  | @merged u _ heq _ hmerges =>
    refine ⟨?_, (hmerges.value_eq v).trans hv.2⟩
    have hu : v ≠ u := fun hvu => ht (hvu ▸ heq)
    rw [hmerges.root_eq, hv.1]
    exact congrArg Except.ok (if_neg hu)
  | bound _ hb => exact hbinds hw hb
  | boundBy heq _ hb => exact hbinds (fun hvu => ht (hvu ▸ heq)) hb
  | cyclic _ _ _ _ hb => exact hbinds hw hb
  | kept => exact hv

/-- Unifying types without the variable does not touch it. -/
theorem Untouched.evaluates (h : vs.Untouched v) (ha : v ∉ a.vars) (hb : v ∉ b.vars)
    (heval : Evaluates c (.pair a b) vs ok vs') : vs'.Untouched v := by
  have hcomponent {t u : Ty} (ht : v ∉ t.vars) (hu : u ∈ t.components) : v ∉ u.vars := fun hv =>
    ht ((Ty.mem_vars_iff (Ty.isVar_of_mem_components hu)).2 ⟨u, hu, hv⟩)
  refine heval.keeps_of_links (D := fun t => v ∉ t.vars) hcomponent Untouched.apart ?_ h ⟨ha, hb⟩
  intro vs vs' w t ok hvs hw ht hlinks
  refine ⟨hlinks.keeps_open hvs.isOpen ?_ ?_, ?_⟩
  · rintro rfl
    exact hw (by simp)
  · rintro rfl
    exact ht (by simp)
  · exact hlinks.keeps hvs.apart hw ht (by simp [Ty.vars, Ty.subterms])

theorem rootVar_freshTy (hs : vs.Sound) (v : Var) :
    vs.freshTy.2.rootVar v = if v = .ty vs.tys.size then .ok v else vs.rootVar v := by
  cases v with
  | ty i =>
    show (do return Var.ty (← vs.tys.fresh.root i)) = _
    rw [Table.root_fresh hs.tys]
    by_cases hi : i = vs.tys.size
    · rw [if_pos hi, if_pos (congrArg Var.ty hi), hi]
      rfl
    · rw [if_neg hi, if_neg fun h => hi (Var.ty.inj h)]
      rfl
  | int i | float i => rfl

theorem valueOf_freshTy (hs : vs.Sound) (v : Var) :
    vs.freshTy.2.valueOf v = if v = .ty vs.tys.size then .ok none else vs.valueOf v := by
  cases v with
  | ty i =>
    show vs.tys.fresh.value i = _
    by_cases hi : i = vs.tys.size
    · have hroot : vs.tys.fresh.root i = .ok i := by rw [Table.root_fresh hs.tys, if_pos hi, hi]
      have hnone : vs.tys.stored? i = none := by
        rw [Table.stored?, Table.cell?_eq_none_iff.2 (by omega)]
        rfl
      rw [if_pos (congrArg Var.ty hi), Table.value_eq hroot, Table.stored?_fresh, hnone]
    · rw [if_neg fun h => hi (Var.ty.inj h), valueOf, Table.value, Table.value,
        Table.root_fresh hs.tys, if_neg hi]
      simp only [Table.stored?_fresh]
  | int i | float i => rfl

theorem Untouched.freshTy (hs : vs.Sound) (h : vs.Untouched v) : vs.freshTy.2.Untouched v := by
  have hne : v ≠ .ty vs.tys.size := by
    rintro rfl
    exact absurd (has_of_valueOf h.isOpen.2) (lt_irrefl _)
  refine ⟨⟨?_, ?_⟩, ?_, ?_⟩
  · rw [rootVar_freshTy hs, if_neg hne, h.isOpen.1]
  · rw [valueOf_freshTy hs, if_neg hne, h.isOpen.2]
  · intro u r hu hr
    rw [rootVar_freshTy hs] at hr
    split at hr
    · cases hr
      exact hu
    · exact h.apart.root u r hu hr
  · intro u x hu hx
    rw [valueOf_freshTy hs] at hx
    split at hx
    · cases hx
    · exact h.apart.value u x hu hx

/-- Nothing refers to a new variable. -/
theorem untouched_freshTy (hs : vs.Sound) : vs.freshTy.2.Untouched (.ty vs.tys.size) := by
  refine ⟨⟨?_, ?_⟩, ?_, ?_⟩
  · rw [rootVar_freshTy hs, if_pos rfl]
  · rw [valueOf_freshTy hs, if_pos rfl]
  · intro u r hu hr
    rw [rootVar_freshTy hs] at hr
    split at hr
    · cases hr
      exact hu
    · -- Roots and values of the variables before are about these.
      simp only [Ty.vars_var, List.mem_singleton]
      rintro rfl
      exact absurd (has_of_rootVar (rootVar_rootVar hr)) (lt_irrefl _)
  · intro u x hu hx hmem
    rw [valueOf_freshTy hs] at hx
    split at hx
    · cases hx
    · exact absurd (hs.lt_size_of_valueOf hx hmem) (lt_irrefl _)

end Vars

/-! ## Fresh variables for parameters -/

/-- A substitution has given new variables to the parameters `ps`, different ones and to no other
parameter. -/
structure Instantiates (ps : List ParamId) (vs vs' : Vars) (σ : Subst) : Prop where
  sound : vs'.Sound
  kept : ∀ v, vs.Has v → vs'.rootVar v = vs.rootVar v ∧ vs'.valueOf v = vs.valueOf v
  size_le : vs.tys.size ≤ vs'.tys.size
  var : ∀ p ∈ ps, ∃ i, σ.lookup p = .var (.ty i) ∧ vs.tys.size ≤ i ∧ vs'.Untouched (.ty i)
  other : ∀ p, p ∉ ps → σ.lookup p = .param p
  distinct : ∀ p ∈ ps, ∀ q, σ.lookup p = σ.lookup q → p = q

namespace Instantiates

variable {ps : List ParamId} {vs vs' : Vars} {σ : Subst}

theorem empty (hs : vs.Sound) : Instantiates [] vs vs .empty where
  sound := hs
  kept _ _ := ⟨rfl, rfl⟩
  size_le := Nat.le_refl _
  var _ hp := by cases hp
  other p _ := by simp [Subst.lookup, Subst.get?, Subst.empty]
  distinct _ hp := by cases hp

variable (h : Instantiates ps vs vs' σ)

include h

/-- One more parameter gets a new variable. -/
theorem insert (p : ParamId) :
    Instantiates (p :: ps) vs vs'.freshTy.2 (σ.insert p vs'.freshTy.1) := by
  have hlookup (q : ParamId) : (σ.insert p vs'.freshTy.1).lookup q =
      if q = p then .var (.ty vs'.tys.size) else σ.lookup q := by
    by_cases hq : q = p
    · rw [if_pos hq, hq, Subst.lookup_insert_self]
      rfl
    · rw [if_neg hq, Subst.lookup_insert_of_ne hq]
  -- The variables so far exist, so the new one is different.
  have hold (q : ParamId) : σ.lookup q ≠ .var (.ty vs'.tys.size) := by
    intro hsame
    by_cases hq : q ∈ ps
    · obtain ⟨i, hi, -, huntouched⟩ := h.var q hq
      rw [hi] at hsame
      cases hsame
      exact absurd (Vars.has_of_valueOf huntouched.isOpen.2) (lt_irrefl _)
    · rw [h.other q hq] at hsame
      cases hsame
  refine ⟨h.sound.freshTy, ?_, ?_, ?_, ?_, ?_⟩
  · intro v hv
    have hne : v ≠ .ty vs'.tys.size := by
      rintro rfl
      exact absurd (Nat.lt_of_lt_of_le hv h.size_le) (lt_irrefl _)
    rw [Vars.rootVar_freshTy h.sound, Vars.valueOf_freshTy h.sound, if_neg hne, if_neg hne]
    exact h.kept v hv
  · show vs.tys.size ≤ vs'.tys.fresh.size
    rw [Table.size_fresh]
    exact Nat.le_succ_of_le h.size_le
  · intro q hq
    rw [hlookup]
    by_cases hqp : q = p
    · rw [if_pos hqp]
      exact ⟨_, rfl, h.size_le, Vars.untouched_freshTy h.sound⟩
    · rw [if_neg hqp]
      obtain ⟨i, hi, hle, huntouched⟩ := h.var q ((List.mem_cons.1 hq).resolve_left hqp)
      exact ⟨i, hi, hle, huntouched.freshTy h.sound⟩
  · intro q hq
    rw [hlookup, if_neg fun hqp : q = p => hq (hqp ▸ List.mem_cons_self)]
    exact h.other q fun hmem => hq (.tail _ hmem)
  · intro q hq q' hsame
    rw [hlookup, hlookup] at hsame
    by_cases hqp : q = p
    · rw [if_pos hqp] at hsame
      split at hsame
      · next hqp' => rw [hqp, hqp']
      · exact absurd hsame.symm (hold q')
    · rw [if_neg hqp] at hsame
      split at hsame
      · exact absurd hsame (hold q)
      · exact h.distinct q ((List.mem_cons.1 hq).resolve_left hqp) q' hsame

theorem congr {qs : List ParamId} (hmem : ∀ p, p ∈ qs ↔ p ∈ ps) :
    Instantiates qs vs vs' σ where
  sound := h.sound
  kept := h.kept
  size_le := h.size_le
  var p hp := h.var p ((hmem p).1 hp)
  other p hp := h.other p fun hp' => hp ((hmem p).2 hp')
  distinct p hp := h.distinct p ((hmem p).1 hp)

theorem grows : vs.Grows vs' where
  value v t hv := (h.kept v (Vars.has_of_valueOf hv)).2.trans hv
  root v w hw := by
    have hw' := Vars.rootVar_rootVar hw
    refine ⟨w, (h.kept v (Vars.has_of_rootVar hw)).1.trans hw, ?_⟩
    exact (h.kept w (Vars.has_of_rootVar hw')).1.trans hw'

theorem open_of_open (v : Var) (hv : vs.Open v) : vs'.Open v := by
  obtain ⟨hroot, hvalue⟩ := h.kept v (Vars.has_of_rootVar hv.1)
  exact ⟨hroot.trans hv.1, hvalue.trans hv.2⟩

end Instantiates

namespace Infer

/-- Every parameter gets a variable of its own. -/
theorem instantiates_of_freshSubst {scope : Scope} {generics : Generics} {s s' : State} {σ : Subst}
    (hs : s.vars.Sound) (h : freshSubst generics scope s = .ok (σ, s')) :
    Instantiates generics.params s.vars s'.vars σ := by
  -- The induction is over the parameters that are left; `ps` have been given variables.
  have hparams : ∀ (todo ps : List ParamId) {σ σ' : Subst} {s₁ : State},
      Instantiates ps s.vars s₁.vars σ → (todo.foldlM (fun subst p => do
        return subst.insert p (← freshTy)) σ : Infer Subst) scope s₁ = .ok (σ', s') →
      Instantiates (todo ++ ps) s.vars s'.vars σ' := by
    intro todo
    induction todo with
    | nil =>
      intro ps σ σ' s₁ hσ hrun
      cases hrun
      exact hσ
    | cons p todo ih =>
      intro ps σ σ' s₁ hσ hrun
      rw [List.foldlM_cons] at hrun
      obtain ⟨_, s₂, ⟨⟩, hrun⟩ := bind_eq_ok hrun
      refine (ih (p :: ps) (hσ.insert p) hrun).congr fun q => ?_
      simp only [List.mem_append, List.mem_cons]
      tauto
  simpa using hparams generics.params [] (.empty hs) h

end Infer

/-! ## Types that resolve to types of a form -/

namespace Vars

variable {vs vs' : Vars} {t r : Ty} {p : Ty → Bool}

/-- The type resolves to one in which `p` holds throughout. -/
def Shows (vs : Vars) (p : Ty → Bool) (t : Ty) : Prop :=
  ∃ r, vs.resolve t = .ok r ∧ ∀ u ∈ r.subterms, p u = true

instance (vs : Vars) (p : Ty → Bool) (t : Ty) : Decidable (vs.Shows p t) :=
  match hr : vs.resolve t with
  | .ok r => decidable_of_iff (∀ u ∈ r.subterms, p u = true)
      ⟨fun hall => ⟨r, hr, hall⟩, fun ⟨_, hr', hall⟩ => Except.ok.inj (hr.symm.trans hr') ▸ hall⟩
  | .error _ => isFalse fun ⟨_, hr', _⟩ => nomatch hr.symm.trans hr'

theorem resolvesTo_of_open {v : Var} (hp : Superficial p) (hv : vs.Open v) :
    ResolvesTo p vs (.var v) := by
  refine ⟨grounded_of_unbound hv.2, ?_⟩
  rw [Ty.assign_var, extend_of_open hv]
  intro u hu
  rw [List.mem_singleton.1 hu]
  exact hp.var v

theorem resolvesTo_of_resolve (hp : Superficial p) (hs' : vs'.Sound) (hg : Grows vs vs')
    (hopen : ∀ v, vs.Open v → vs'.Open v) (hr : vs.resolve t = .ok r)
    (hall : ∀ u ∈ r.subterms, p u = true) : ResolvesTo p vs' t := by
  have hvars : ∀ v ∈ r.vars, vs'.Open v := fun v hv => hopen v (isOpen_of_mem_resolve hr hv)
  have hresolved : ResolvesTo p vs' r := by
    clear hr
    induction r using Ty.varInduction with
    | var v => exact resolvesTo_of_open hp (hvars v (by simp))
    | node r hnode ih =>
      obtain ⟨hself, hcomponents⟩ := Ty.forall_mem_subterms.1 hall
      refine (resolvesTo_iff hp hnode).2 ⟨hself, fun c hc => ih c hc (hcomponents c hc) ?_⟩
      exact fun v hv => hvars v ((Ty.mem_vars_iff hnode).2 ⟨c, hc, hv⟩)
  refine ⟨(hg.grounded_resolve hr).2 hresolved.1, ?_⟩
  have hσ := hg.satisfies_before (hs'.satisfies_extend .var)
  rw [hσ.resolve (fun v _ => (Ty.assign_var ..).symm) hr]
  exact hresolved.2

/-- Types that resolve well do so with new variables in them. -/
theorem ResolvesTo.apply {params : List ParamId} {σ : Subst} (hp : Superficial p)
    (hσ : Instantiates params vs vs' σ) (ht : ResolvesTo p vs' t) :
    ResolvesTo p vs' (σ.apply t) := by
  induction t using Ty.varInduction with
  | var v => exact ht
  | node t hnode ih =>
    obtain ⟨hself, hcomponents⟩ := (resolvesTo_iff hp hnode).1 ht
    by_cases hhole : ∃ q ∈ params, t = .param q
    · obtain ⟨q, hq, rfl⟩ := hhole
      obtain ⟨i, hi, -, huntouched⟩ := hσ.var q hq
      rw [Subst.apply_param, hi]
      exact resolvesTo_of_open hp huntouched.isOpen
    · have hkept : ∀ q, t = .param q → σ.lookup q = .param q := fun q hq =>
        hσ.other q fun hmem => hhole ⟨q, hmem, hq⟩
      rw [Subst.apply_of_kept hkept, resolvesTo_iff hp (by rw [Ty.isVar_mapComponents, hnode]),
        hp.mapComponents, Ty.components_mapComponents, List.forall_mem_map]
      exact ⟨hself, fun c hc => ih c hc (hcomponents c hc)⟩

theorem among_resolvesTo (hs : vs.Sound) : vs.Among (ResolvesTo p vs) where
  sound := hs
  keeps := keeps_resolvesTo hs
  has _ hv := hv.1.has

theorem regime_resolvesTo (hp : Superficial p) (hstructural : ∀ t, p t = true → t.isStructural = true) :
    Regime (ResolvesTo p vs) where
  component ht hu := ht.component hp hu
  structural ht := hstructural _ (ht.holds hp)
  unknown := resolvesTo_unknown hp

end Vars

end TypeInference
