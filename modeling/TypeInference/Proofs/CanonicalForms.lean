import TypeInference.Proofs.Affected
import TypeInference.Proofs.Coercions

/-!
# Canonical forms of types

To resolve a type is to compute a canonical form of it: no variable is left in the form of which
something is known, so the form is its own. A resolution looks up roots and compresses the ways to
them, and any number of these look-ups leaves every form as it is.
-/

namespace TypeInference

open Relation (EqvGen)

namespace Vars

variable {vs vs' : Vars} {v w : Var} {t u r : Ty}

/-! ## Types that stand for one another -/

/-- The types are one, or variables of one class. -/
inductive Coincide (vs : Vars) : Ty → Ty → Prop
  | refl (t : Ty) : Coincide vs t t
  | member {v w : Var} : vs.SameClass v w → Coincide vs (.var v) (.var w)

/-- The types coincide, or the first is a variable and the second its value. -/
inductive StandsFor (vs : Vars) : Ty → Ty → Prop
  | coincide {t u : Ty} : vs.Coincide t u → StandsFor vs t u
  | value {v : Var} {t : Ty} : vs.valueOf v = .ok (some t) → StandsFor vs (.var v) t

/-- The types have one pattern, and what the second has in a place of it stands for what the first
has there. -/
def Interchanges (vs : Vars) (t u : Ty) : Prop :=
  ∃ (pattern : Ty) (σ τ : Var → Ty), t = pattern.assign σ ∧ u = pattern.assign τ ∧
    ∀ v ∈ pattern.vars, vs.StandsFor (σ v) (τ v)

theorem Coincide.alike (h : vs.Coincide t u) : vs.Alike t u := by
  cases h with
  | refl => exact .refl t
  | member h =>
    obtain ⟨r, hv, hw⟩ := h
    refine ⟨(grounded_rootVar hv).trans (grounded_rootVar hw).symm, fun σ hσ => ?_⟩
    rw [Ty.assign_var, Ty.assign_var, hσ.root _ _ hv, hσ.root _ _ hw]

theorem StandsFor.alike (h : vs.StandsFor t u) : vs.Alike t u := by
  cases h with
  | coincide h => exact h.alike
  | value hvalue =>
    refine ⟨grounded_of_valueOf hvalue, fun σ hσ => ?_⟩
    rw [Ty.assign_var, hσ.value _ _ hvalue]

/-- Types that differ in how they name a class have one form. -/
theorem Interchanges.alike (h : vs.Interchanges t u) : vs.Alike t u := by
  obtain ⟨pattern, σ, τ, rfl, rfl, hstands⟩ := h
  refine ⟨?_, fun ρ hρ => ?_⟩
  · rw [grounded_assign, grounded_assign]
    exact forall₂_congr fun v hv => (hstands v hv).alike.grounded
  · rw [Ty.assign_assign, Ty.assign_assign]
    exact Ty.assign_congr fun v hv => (hstands v hv).alike.assign ρ hρ

theorem alike_of_eqvGen (h : EqvGen vs.Interchanges t u) : vs.Alike t u := by
  induction h with
  | rel _ _ h => exact h.alike
  | refl t => exact .refl t
  | symm _ _ _ ih => exact ih.symm
  | trans _ _ _ _ _ ih ih' => exact ih.trans ih'

/-! ## Variables that stay as they are -/

/-- Every variable has the representative and the value it had. -/
structure Unchanged (vs vs' : Vars) : Prop where
  root : ∀ v, vs'.rootVar v = vs.rootVar v
  value : ∀ v, vs'.valueOf v = vs.valueOf v

namespace Unchanged

theorem refl (vs : Vars) : Unchanged vs vs := ⟨fun _ => rfl, fun _ => rfl⟩

theorem symm (h : Unchanged vs vs') : Unchanged vs' vs :=
  ⟨fun v => (h.root v).symm, fun v => (h.value v).symm⟩

theorem trans {vs₂ : Vars} (h : Unchanged vs vs') (h' : Unchanged vs' vs₂) : Unchanged vs vs₂ :=
  ⟨fun v => (h'.root v).trans (h.root v), fun v => (h'.value v).trans (h.value v)⟩

theorem satisfies (h : Unchanged vs vs') (hσ : Satisfies Eq σ vs) : Satisfies Eq σ vs' where
  root v r hr := hσ.root v r (h.root v ▸ hr)
  value v t ht := hσ.value v t (h.value v ▸ ht)

end Unchanged

theorem Extends.unchanged (hσ : Extends .var σ vs) (h : Unchanged vs vs') : Extends .var σ vs' where
  solved := h.satisfies hσ.solved
  agrees v hv := hσ.agrees v ⟨h.root v ▸ hv.1, h.value v ▸ hv.2⟩

theorem Keeps.unchanged (hD : Keeps D vs) (h : Unchanged vs vs') : Keeps D vs' where
  root v r hv hr := hD.root v r hv (h.root v ▸ hr)
  value v t hv ht := hD.value v t hv (h.value v ▸ ht)

/-- Where no class and no value changes, types keep their forms. -/
theorem Unchanged.resolve (h : Unchanged vs vs') (hs : vs.Sound) (hs' : vs'.Sound)
    (hr : vs.resolve t = .ok r) : vs'.resolve t = .ok r := by
  have hhas (v : Var) (hv : vs.Grounded (.var v)) : vs'.Has v := by
    obtain ⟨root, hroot⟩ := hs.exists_rootVar hv.has
    exact has_of_rootVar ((h.root v).trans hroot)
  have hground := ((keeps_grounded vs).unchanged h).grounded Grounded.component hhas
    (grounded_of_resolve hr)
  obtain ⟨r', hr'⟩ := (hs'.resolve_settles .var t).exists_ok hground
  have hσ := hs.extends_extend .var
  have heq := (hσ.resolve hr).symm.trans ((hσ.unchanged h).resolve hr')
  rw [Ty.assign_var_self, Ty.assign_var_self] at heq
  exact heq ▸ hr'

/-- Looking up a root changes no class and no value. -/
theorem Sound.unchanged_find (hs : vs.Sound) (h : vs.find w = .ok vs') : Unchanged vs vs' := by
  have hcompressed := find_compressed h
  refine ⟨fun v => ?_, fun v => ?_⟩ <;> obtain ⟨k, i, rfl⟩ := exists_kind v
  · rw [rootVar_eq, rootVar_eq, (hcompressed k).root_eq (hs.forest k)]
  · rw [valueOf_eq, valueOf_eq, (hcompressed k).value_eq (hs.forest k)]

/-- Look-ups one after the other. -/
theorem Sound.unchanged_finds {ws : List Var} (hs : vs.Sound) (h : ws.foldlM Vars.find vs = .ok vs') :
    vs'.Sound ∧ Unchanged vs vs' := by
  induction ws generalizing vs with
  | nil =>
    cases h
    exact ⟨hs, .refl _⟩
  | cons w ws ih =>
    rw [List.foldlM_cons] at h
    obtain ⟨vs₁, hfind, hrest⟩ := Except.bind_eq_ok h
    obtain ⟨hs', hunchanged⟩ := ih (hs.find hfind) hrest
    exact ⟨hs', (hs.unchanged_find hfind).trans hunchanged⟩

theorem exists_find (h : vs.rootVar v = .ok w) : ∃ vs', vs.find v = .ok vs' := by
  cases v with
  | ty i | int i | float i =>
    obtain ⟨r, hr, -⟩ := Except.map_eq_ok h
    obtain ⟨t, hfind, -⟩ := Table.exists_find hr
    simp only [find, hfind]
    exact ⟨_, rfl⟩

theorem Sound.exists_finds {ws : List Var} (hs : vs.Sound) (hws : ∀ w ∈ ws, vs.Has w) :
    ∃ vs', ws.foldlM Vars.find vs = .ok vs' := by
  induction ws generalizing vs with
  | nil => exact ⟨vs, rfl⟩
  | cons w ws ih =>
    rw [List.forall_mem_cons] at hws
    obtain ⟨r, hr⟩ := hs.exists_rootVar hws.1
    obtain ⟨vs₁, hfind⟩ := exists_find hr
    have hhas (u : Var) (hu : u ∈ ws) : vs₁.Has u := by
      obtain ⟨root, hroot⟩ := hs.exists_rootVar (hws.2 u hu)
      exact has_of_rootVar (((hs.unchanged_find hfind).root u).trans hroot)
    rw [List.foldlM_cons, hfind]
    exact ih (hs.find hfind) hhas

end Vars

/-! ## The canonical form -/

open Infer

/-- At all times resolution gives a canonical form. No variable is left in it but roots without a
value, and the form resolves to itself. The types that are made from the type by exchanging
variables within their classes, or with the values of these, have the same form. Nothing changes
meanwhile, except that ways are compressed as roots are looked up. However many variables are looked
up, this goes through and leaves all roots and values, and so the form. -/
theorem History.resolve_canonical {scope : Scope} {v : Versions State Mark} {t : Ty}
    (h : History (Walk.Works scope) v) (ht : v.current.vars.Grounded t) :
    ∃ r, resolve t scope v.current = .ok (r, v.current) ∧
      (∀ w ∈ r.vars, v.current.vars.Open w) ∧
      resolve r scope v.current = .ok (r, v.current) ∧
      (∀ u, EqvGen v.current.vars.Interchanges t u →
        resolve u scope v.current = .ok (r, v.current)) ∧
      ∀ ws : List Var, ((∀ w ∈ ws, v.current.vars.Has w) →
          ∃ vars, ws.foldlM Vars.find v.current.vars = .ok vars) ∧
        ∀ vars, ws.foldlM Vars.find v.current.vars = .ok vars → vars.resolve t = .ok r ∧
          ∀ x, vars.rootVar x = v.current.vars.rootVar x ∧
            vars.valueOf x = v.current.vars.valueOf x := by
  have hs := h.wellFormed.vars
  obtain ⟨r, hr⟩ := (hs.resolve_settles .var t).exists_ok ht
  have hresolved : v.current.vars.Resolved r := fun _ => Vars.isOpen_of_mem_resolve hr
  refine ⟨r, readVars_of_ok hr, hresolved, readVars_of_ok (hresolved.resolve hs), fun u hu => ?_,
    fun ws => ⟨hs.exists_finds, fun vars hws => ?_⟩⟩
  · exact readVars_of_ok ((Vars.alike_of_eqvGen hu).resolveNode_eq hs hr)
  · obtain ⟨hs', hfinds⟩ := hs.unchanged_finds hws
    exact ⟨hfinds.resolve hs hs' hr, fun x => ⟨hfinds.root x, hfinds.value x⟩⟩

/-- Two variables are merged and bound to the slices of a third. -/
theorem History.resolve_canonical_slice : ∃ v, History (Walk.Works .bare) v ∧
    v.current.vars.SameClass (.ty 0) (.ty 1) ∧
    v.current.vars.valueOf (.ty 1) = .ok (some (.slice (.var (.ty 2)))) ∧
    resolve (.tuple [.var (.ty 1), .slice (.var (.ty 2))]) .bare v.current =
      .ok (.tuple [.slice (.var (.ty 2)), .slice (.var (.ty 2))], v.current) := by
  have hstart := History.atStart .bare
  have hthree := ((hstart.operate .freshTy rfl).operate .freshTy rfl).operate .freshTy rfl
  have hmerged := hthree.operate (.combine (.var (.ty 0)) (.var (.ty 1))) rfl
  have hbound := hmerged.operate (.combine (.var (.ty 0)) (.slice (.var (.ty 2)))) rfl
  obtain ⟨v, h, hclass, hvalue, hresolve⟩ : ∃ v, History (Walk.Works .bare) v ∧
      v.current.vars.SameClass (.ty 0) (.ty 1) ∧
      v.current.vars.valueOf (.ty 1) = .ok (some (.slice (.var (.ty 2)))) ∧
      v.current.vars.resolve (.tuple [.var (.ty 0), .var (.ty 1)]) =
        .ok (.tuple [.slice (.var (.ty 2)), .slice (.var (.ty 2))]) :=
    ⟨_, hbound, ⟨_, rfl, rfl⟩, rfl, rfl⟩
  obtain ⟨r, hrun, -, -, hsame, -⟩ := h.resolve_canonical (Vars.grounded_of_resolve hresolve)
  cases hrun.symm.trans (readVars_of_ok hresolve)
  refine ⟨v, h, hclass, hvalue, hsame _ (.rel _ _ ⟨.tuple [.var (.ty 0), .var (.ty 1)], .var,
    fun w => if w = .ty 0 then .var (.ty 1) else .slice (.var (.ty 2)), rfl, rfl, ?_⟩)⟩
  have hvars : (Ty.tuple [.var (.ty 0), .var (.ty 1)]).vars = [.ty 0, .ty 1] := rfl
  rw [hvars]
  simpa using ⟨.coincide (.member hclass), .value hvalue⟩

end TypeInference
