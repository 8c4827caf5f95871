import TypeInference.Proofs.Unification

/-!
# Solutions

Variables that are merged or bound are equations, and an assignment of types to variables is a
*solution* if it satisfies them: it gives every variable what it gives the root of its class and
what it makes of the value of its class. Equality may be taken up to something, such as the names
of regions.
-/

namespace TypeInference.Vars

variable {vs vs' : Vars} {R R' : Ty → Ty → Prop} {σ s : Var → Ty} {v w : Var} {t h : Ty}

/-- The assignment satisfies what is known of the variables, with equality up to `R`. -/
structure Satisfies (R : Ty → Ty → Prop) (σ : Var → Ty) (vs : Vars) : Prop where
  root : ∀ v r, vs.rootVar v = .ok r → R (σ v) (σ r)
  value : ∀ v t, vs.valueOf v = .ok (some t) → R (σ v) (t.assign σ)

theorem Satisfies.mono (hR : ∀ a b, R a b → R' a b) (hσ : Satisfies R σ vs) :
    Satisfies R' σ vs where
  root v r h := hR _ _ (hσ.root v r h)
  value v t h := hR _ _ (hσ.value v t h)

theorem Heads.assign (hR : Equivalence R) (hσ : Satisfies R σ vs) (hh : vs.Heads t h) :
    R (t.assign σ) (h.assign σ) := by
  induction hh with
  | node _ => exact hR.refl _
  | @bound v t h hvalue _ ih =>
    rw [Ty.assign_var]
    exact hR.trans (hσ.value v t hvalue) ih
  | @unbound v r _ hroot =>
    rw [Ty.assign_var, Ty.assign_var]
    exact hσ.root v r hroot

/-! ## Solutions and steps -/

theorem Merges.satisfies (hR : Equivalence R) (h : vs.Merges v w vs') (hσ : Satisfies R σ vs)
    (heq : R (σ v) (σ w)) : Satisfies R σ vs' := by
  constructor
  · intro u r hr
    rw [h.root_eq] at hr
    obtain ⟨q, hroot, rfl⟩ := Except.map_eq_ok hr
    have hq := hσ.root u q hroot
    show R (σ u) (σ (if q = w then v else q))
    -- What had the root `w` has the root `v` now, which is assigned the same.
    split
    · next hloser =>
      rw [hloser] at hq
      exact hR.trans hq (hR.symm heq)
    · exact hq
  · intro u t ht
    rw [h.value_eq] at ht
    exact hσ.value u t ht

theorem Merges.root_loser (h : vs.Merges v w vs') : vs'.rootVar w = .ok v := by
  rw [h.root_eq, h.open_loser.1]
  simp [Except.map]

theorem Binds.satisfies (hR : Equivalence R) (h : vs.Binds v t vs') (hσ : Satisfies R σ vs)
    (heq : R (σ v) (t.assign σ)) : Satisfies R σ vs' := by
  constructor
  · intro u r hr
    rw [h.root_eq] at hr
    exact hσ.root u r hr
  · intro u t' ht'
    by_cases hu : vs.rootVar u = .ok v
    · rw [h.value_self u hu] at ht'
      cases ht'
      exact hR.trans (hσ.root u v hu) heq
    · rw [h.value_other u hu] at ht'
      exact hσ.value u t' ht'

/-- What solves the variables solved them before. -/
theorem Grows.satisfies_before (h : Grows vs vs') (hσ : Satisfies Eq σ vs') :
    Satisfies Eq σ vs where
  root v w hw := by
    obtain ⟨r, hv, hw⟩ := h.root v w hw
    exact (hσ.root v r hv).trans (hσ.root w r hw).symm
  value v t ht := hσ.value v t (h.value v t ht)

/-! ## Extending an assignment of the open variables -/

/-- What a variable becomes if open variables become what `s` assigns to them and values are followed
at most `n` levels deep. -/
def extendWithin (vs : Vars) (s : Var → Ty) : Nat → Var → Ty
  | 0, v => s v
  | n + 1, v =>
    match vs.valueOf v with
    | .ok (some t) => t.assign (vs.extendWithin s n)
    | _ => s ((vs.rootVar v).toOption.getD v)

/-- What a variable becomes if open variables become what `s` assigns to them. -/
def extend (vs : Vars) (s : Var → Ty) : Var → Ty := vs.extendWithin s (vs.tys.size + 1)

theorem extendWithin_bound (n : Nat) (hvalue : vs.valueOf v = .ok (some t)) :
    vs.extendWithin s (n + 1) v = t.assign (vs.extendWithin s n) := by
  rw [extendWithin, hvalue]

theorem extendWithin_unbound (n : Nat) (hvalue : vs.valueOf v = .ok none)
    (hroot : vs.rootVar v = .ok w) : vs.extendWithin s (n + 1) v = s w := by
  rw [extendWithin, hvalue, hroot]
  rfl

/-- How deep values are followed does not matter once it suffices. -/
theorem Sound.extendWithin_eq (hs : vs.Sound) (s : Var → Ty) {n m : Nat}
    (hn : ∀ i u, v = .ty i → vs.tys.root i = .ok u → Trail vs.Mentions vs.tys.size n u)
    (hm : ∀ i u, v = .ty i → vs.tys.root i = .ok u → Trail vs.Mentions vs.tys.size m u) :
    vs.extendWithin s (n + 1) v = vs.extendWithin s (m + 1) v := by
  -- Both depths leave a step for every class that is still ahead.
  induction n using Nat.strong_induction_on generalizing m v with
  | _ n ih =>
    cases hvalue : vs.valueOf v with
    | error e => simp only [extendWithin, hvalue]
    | ok x =>
      cases x with
      | none => simp only [extendWithin, hvalue]
      | some t =>
        rw [extendWithin_bound n hvalue, extendWithin_bound m hvalue]
        refine Ty.assign_congr ?_
        intro w hw
        obtain ⟨i, u, rfl, hu, -⟩ := exists_root_of_valueOf hvalue hw
        have hlt := Table.root_lt_size hu
        obtain ⟨n, rfl, hnext⟩ := (hn i u rfl hu).exists_succ hs.acyclic hlt
        obtain ⟨m, rfl, hnext'⟩ := (hm i u rfl hu).exists_succ hs.acyclic hlt
        refine ih n (Nat.lt_succ_self n) ?_ ?_
        · rintro j x rfl hx
          exact hnext x (.single (mentions_of_valueOf hu hvalue hw hx))
        · rintro j x rfl hx
          exact hnext' x (.single (mentions_of_valueOf hu hvalue hw hx))

theorem extend_of_open (hv : vs.Open v) : vs.extend s v = s v :=
  extendWithin_unbound _ hv.2 hv.1

/-- Whatever is assigned to the open variables extends to a solution. -/
theorem Sound.satisfies_extend (hs : vs.Sound) (s : Var → Ty) :
    Satisfies Eq (vs.extend s) vs := by
  constructor
  · intro v r hr
    obtain ⟨x, hvalue⟩ := exists_valueOf_of_rootVar hr
    have hvalue' := (valueOf_rootVar hr).trans hvalue
    cases x with
    | none =>
      rw [extend, extendWithin_unbound _ hvalue hr,
        extendWithin_unbound _ hvalue' (rootVar_rootVar hr)]
    | some t => rw [extend, extendWithin_bound _ hvalue, extendWithin_bound _ hvalue']
  · intro v t hvalue
    rw [extend, extendWithin_bound _ hvalue]
    refine Ty.assign_congr ?_
    intro w hw
    obtain ⟨i, u, rfl, hu, -⟩ := exists_root_of_valueOf hvalue hw
    have hlt := Table.root_lt_size hu
    have htrail : Trail vs.Mentions vs.tys.size vs.tys.size u := .start (Nat.le_refl _)
    obtain ⟨n, hn, hnext⟩ := htrail.exists_succ hs.acyclic hlt
    -- On the left the value is one level further from the end than on the right.
    conv_lhs => rw [hn]
    refine hs.extendWithin_eq s ?_ fun _ _ _ _ => .start (Nat.le_refl _)
    rintro j x rfl hx
    exact hnext x (.single (mentions_of_valueOf hu hvalue hw hx))

/-! ## Resolution and solutions -/

section

variable {s openVar : Var → Ty} {n : Nat} {r : Ty}

theorem Satisfies.resolveVar (hσ : Satisfies Eq σ vs)
    (hopen : ∀ v, vs.Open v → σ v = (openVar v).assign s)
    (hr : vs.resolveVar openVar n v = .ok r) : σ v = r.assign s := by
  induction n generalizing v r with
  | zero => cases hr
  | succ n ih =>
    rcases resolveVar_eq_ok hr with ⟨w, hheads, rfl⟩ | ⟨h, τ, hheads, -, hτ, rfl⟩
    · have heq := hheads.assign eq_equivalence hσ
      rw [Ty.assign_var, Ty.assign_var] at heq
      rw [heq, hopen w hheads.isOpen]
    · have heq := hheads.assign eq_equivalence hσ
      rw [Ty.assign_var] at heq
      rw [heq, Ty.assign_assign]
      exact Ty.assign_congr fun w hw => ih (hτ w hw)

theorem Satisfies.resolve (hσ : Satisfies Eq σ vs)
    (hopen : ∀ v, vs.Open v → σ v = (openVar v).assign s)
    (hr : t.mapM (vs.resolveNode openVar) = .ok r) : t.assign σ = r.assign s := by
  rw [resolveNode_eq] at hr
  obtain ⟨τ, hτ, rfl⟩ := Ty.mapM_onVar_eq_ok_iff.1 hr
  rw [Ty.assign_assign]
  exact Ty.assign_congr fun v hv => hσ.resolveVar hopen (hτ v hv)

end

end TypeInference.Vars
