import TypeInference.Proofs.Completeness
import TypeInference.Proofs.Defaults
import TypeInference.Proofs.Mentions

/-!
# Variables in range

The variables of a state are in range if no value in their tables mentions a variable that is not in
its table. As long as types mention only variables in the tables, whatever is read of the variables
can be read and mentions only such variables again, and unification keeps the variables in range
with every step that it makes.
-/

namespace TypeInference.Vars

open Relation

variable {vs vs' : Vars} {a b t : Ty} {v : Var}

/-- The values in the tables mention variables of the tables only. -/
structure InRange (vs : Vars) : Prop where
  sound : vs.Sound
  stored : ∀ i t, vs.tys.stored? i = some t → Within vs.Has t

namespace InRange

theorem empty : Vars.InRange ∅ := by
  refine ⟨sound_empty, fun i t h => ?_⟩
  cases h

section

variable (h : vs.InRange)

include h

/-- Roots and values of types in range are in range. -/
theorem keeps : Keeps (Within vs.Has) vs := by
  constructor
  · intro v r _ hr
    exact Ty.within_var.2 (has_of_rootVar (rootVar_rootVar hr))
  · intro v t _ hvalue
    rcases valueOf_cases hvalue with ⟨i, u, -, -, hstored⟩ | ⟨i, k, -, rfl⟩ | ⟨i, k, -, rfl⟩
    · exact h.stored u t hstored
    · exact Ty.within_int
    · exact Ty.within_float

theorem grounded (ht : Within vs.Has t) : vs.Grounded t :=
  h.keeps.grounded (fun ht hu => ht.component hu) (fun _ => Ty.within_var.1) ht

/-! ## Reading -/

/-- A type in range has a head in range. -/
theorem exists_head (ht : Within vs.Has t) :
    ∃ r, vs.head t = .ok r ∧ Within vs.Has r := by
  obtain ⟨r, hr⟩ := (h.sound.head_settles t).exists_ok (h.grounded ht)
  exact ⟨r, hr, (heads_of_head hr).keeps h.keeps ht⟩

/-- A type in range resolves to one in range. -/
theorem exists_resolve (ht : Within vs.Has t) :
    ∃ r, vs.resolve t = .ok r ∧ Within vs.Has r := by
  obtain ⟨r, hr⟩ := (h.sound.resolve_settles .var t).exists_ok (h.grounded ht)
  refine ⟨r, hr, fun v hv => ?_⟩
  exact has_of_rootVar (isOpen_of_mem_resolve hr hv).1

/-- Once closed it has no variables. -/
theorem exists_close (ht : Within vs.Has t) :
    ∃ r, vs.close t = .ok r ∧ Closed r := by
  obtain ⟨r, hr⟩ := (h.sound.resolve_settles (fun _ => .unknown) t).exists_ok (h.grounded ht)
  refine ⟨r, hr, fun v hv => ?_⟩
  obtain ⟨u, -, ⟨⟩⟩ := open_of_mem_resolve hr hv

theorem exists_resolveList {ts : List Ty} (hts : Within vs.Has ts) :
    ∃ rs, ts.mapM vs.resolve = .ok rs ∧ Within vs.Has rs := by
  induction ts with
  | nil => exact ⟨[], rfl, within_nil⟩
  | cons t ts ih =>
    obtain ⟨ht, hts⟩ := within_cons.1 hts
    obtain ⟨r, hr, hr'⟩ := h.exists_resolve ht
    obtain ⟨rs, hrs, hrs'⟩ := ih hts
    refine ⟨r :: rs, ?_, within_cons.2 ⟨hr', hrs'⟩⟩
    rw [List.mapM_cons, hr, Except.ok_bind, hrs]
    rfl

theorem exists_resolveTraitRef {r : TraitRef} (hr : Within vs.Has r) :
    ∃ r', vs.resolveTraitRef r = .ok r' ∧ Within vs.Has r' := by
  obtain ⟨hself, hargs⟩ := within_traitRef.1 hr
  obtain ⟨self, hself, hself'⟩ := h.exists_resolve hself
  obtain ⟨args, hargs, hargs'⟩ := h.exists_resolveList hargs
  refine ⟨⟨self, r.trait, args⟩, ?_, within_traitRef.2 ⟨hself', hargs'⟩⟩
  change r.self.mapM (vs.resolveNode .var) = _ at hself
  change r.args.mapM (Ty.mapM (vs.resolveNode .var)) = _ at hargs
  rw [resolveTraitRef, TraitRef.mapM, Ty.mapListM_eq, hself, Except.ok_bind, hargs]
  rfl

theorem exists_resolveProjection {p : Projection} (hp : Within vs.Has p) :
    ∃ p', vs.resolveProjection p = .ok p' ∧ Within vs.Has p' := by
  obtain ⟨r, hr, hr'⟩ := h.exists_resolveTraitRef (within_projection.1 hp)
  refine ⟨⟨r, p.name⟩, ?_, within_projection.2 hr'⟩
  change p.traitRef.mapM (vs.resolveNode .var) = _ at hr
  rw [resolveProjection, Projection.mapM, hr]
  rfl

theorem exists_resolvePredicate {p : Predicate} (hp : Within vs.Has p) :
    ∃ p', p.mapM (vs.resolveNode .var) = .ok p' ∧ Within vs.Has p' := by
  cases p with
  | trait goal =>
    obtain ⟨r, hr, hr'⟩ := h.exists_resolveTraitRef (within_trait.1 hp)
    change goal.mapM (vs.resolveNode .var) = _ at hr
    refine ⟨.trait r, ?_, within_trait.2 hr'⟩
    rw [Predicate.mapM, hr]
    rfl
  | projection p ty =>
    obtain ⟨hp, hty⟩ := within_projectionPredicate.1 hp
    obtain ⟨q, hq, hq'⟩ := h.exists_resolveProjection hp
    obtain ⟨r, hr, hr'⟩ := h.exists_resolve hty
    change p.mapM (vs.resolveNode .var) = _ at hq
    change ty.mapM (vs.resolveNode .var) = _ at hr
    refine ⟨.projection q r, ?_, within_projectionPredicate.2 ⟨hq', hr'⟩⟩
    rw [Predicate.mapM, hq, Except.ok_bind, hr]
    rfl

theorem exists_isAffected {i : Nat} (hi : vs.Has (.ty i)) :
    ∃ affected, vs.isAffected i = .ok affected := by
  obtain ⟨r, hr⟩ := Table.exists_root h.sound.tys hi
  rw [isAffected, hr, Except.ok_bind]
  split
  · exact ⟨true, rfl⟩
  · rw [Table.value_eq hr]
    exact ⟨_, rfl⟩

end

/-! ## New variables -/

theorem has_fresh (k : Kind) (vs : Vars) : vs.Has ≤ (k.fresh vs).Has := by
  intro v hv
  obtain ⟨l, i, rfl⟩ := exists_kind v
  have hle : (l.table vs).size ≤ (l.table (k.fresh vs)).size :=
    Kind.forall_table_put (R := fun t t' => t.size ≤ t'.size) (fun _ => Nat.le_refl _)
      (Nat.le_of_lt (Table.size_lt_fresh _)) l
  exact has_iff.2 (Nat.lt_of_lt_of_le (has_iff.1 hv) hle)

theorem within_fresh (k : Kind) (vs : Vars) :
    Within (k.fresh vs).Has (Ty.var (k.var (k.table vs).size)) := by
  cases k <;> exact Ty.within_var.2 (Table.size_lt_fresh _)

theorem fresh (h : vs.InRange) (k : Kind) : (k.fresh vs).InRange := by
  refine ⟨h.sound.fresh k, fun i t hstored => (h.stored i t ?_).mono (has_fresh k vs)⟩
  rw [← hstored]
  cases k with
  | ty => exact (Table.stored?_fresh i).symm
  | int | float => rfl

/-! ## Steps -/

/-- The winner may have inherited its value. -/
theorem stored_of_merged {tys : Table Ty} {i j n : Nat} (h : vs.tys.Merged i j tys)
    (hn : tys.stored? n = some t) : ∃ n', vs.tys.stored? n' = some t := by
  by_cases hni : n = i
  · rw [hni, h.stored_winner] at hn
    rcases Option.or_eq_some_iff.1 hn with hn | ⟨-, hn⟩
    · exact ⟨i, hn⟩
    · exact ⟨j, hn⟩
  · exact ⟨n, (h.stored_eq n hni).symm.trans hn⟩

/-- A step among types in range keeps the variables in range. -/
theorem step (h : vs.InRange) (hstep : Step vs vs') (hkeeps : Keeps (Within vs.Has) vs') :
    vs'.InRange := by
  have hsteps : Steps vs vs' := .single hstep
  have hhas : vs.Has ≤ vs'.Has := fun v => (hsteps.has_iff h.sound v).2
  refine ⟨hsteps.sound h.sound, ?_⟩
  cases hstep with
  | @merge k i j tbl hi hj hunion =>
    cases k with
    | int | float => exact fun n t hstored => (h.stored n t hstored).mono hhas
    | ty =>
      have hmerged := merged_of_union h.sound.tys hi.root_stored.1 hj.root_stored.1 hunion
      intro n t hstored
      obtain ⟨n', hstored⟩ := stored_of_merged hmerged hstored
      exact (h.stored n' t hstored).mono hhas
  | @bindTy i u tys hi hoccurs hbind =>
    have hbound := bound_of_bind h.sound.tys hi.root_stored.1 hbind
    intro k t hstored
    change tys.stored? k = some t at hstored
    by_cases hk : k = i
    · rw [hk] at hstored
      have hvalue : { vs with tys }.valueOf (.ty i) = .ok (some t) := by
        show tys.value i = _
        rw [Table.value_eq ((hbound.root_eq i).trans hi.root_stored.1), hstored]
      exact (hkeeps.value _ _ (Ty.within_var.2 (has_of_rootVar hi.1)) hvalue).mono hhas
    · rw [hbound.stored_eq k hk] at hstored
      exact (h.stored k t hstored).mono hhas
  | @number k _ _ _ hk =>
    cases k with
    | ty => exact absurd rfl hk
    | int | float => exact fun n t hstored => (h.stored n t hstored).mono hhas

end InRange

/-- Steps of unification that keep the variables in range. -/
def Passes : Vars → Vars → Prop := ReflTransGen fun vs vs' => Step vs vs' ∧ vs'.InRange

namespace Passes

theorem steps (h : Passes vs vs') : Steps vs vs' := ReflTransGen.mono (fun _ _ h => h.1) _ _ h

theorem inRange (h : Passes vs vs') (hvs : vs.InRange) : vs'.InRange := by
  cases h with
  | refl => exact hvs
  | tail _ hlast => exact hlast.2

theorem has_eq (h : Passes vs vs') (hvs : vs.InRange) : vs'.Has = vs.Has :=
  funext fun v => propext (h.steps.has_iff hvs.sound v)

end Passes

/-! ## Unification -/

/-- Combining a variable with a type whose variables exist does not fail. -/
theorem Sound.exists_combineVar (hs : vs.Sound) (hv : vs.Open v)
    (ht : ∀ w, t = .var w → vs.Open w) (hrange : ∀ j, .ty j ∈ t.vars → j < vs.tys.size) :
    ∃ ok vs', combineVar (.ok .unknown) v t vs = .ok (ok, vs') := by
  rcases t.eq_tyVar_or with ⟨j, rfl⟩ | hvar
  · exact ⟨true, Vars.exists_combineVar hs hv ht (fun _ _ => nofun) nofun⟩
  cases hkind : v.standsFor t with
  | false => exact ⟨_, _, combineVar_apart _ hvar hkind vs⟩
  | true =>
    cases v with
    | ty i =>
      obtain ⟨occurs, hoccurs, -⟩ := hs.exists_occursIn i hrange
      cases occurs with
      | false =>
        refine ⟨true, Vars.exists_combineVar hs hv ht ?_ fun _ => hkind⟩
        rintro _ ⟨⟩ -
        exact hoccurs
      | true =>
        -- A variable that occurs in the type is bound to the unknown type.
        have hroot := hv.root_stored.1
        obtain ⟨tys, hbind, -⟩ := Table.exists_bind (x := Ty.unknown) hs.tys hroot
        refine ⟨true, { vs with tys }, ?_⟩
        rw [combineVar_general _ i hvar, hroot, Except.ok_bind, hoccurs, Except.ok_bind]
        simp only [if_true, Except.ok_bind, hbind]
        rfl
    | int i | float i => exact ⟨true, Vars.exists_combineVar hs hv ht nofun fun _ => hkind⟩

/-- Unification among types whose variables exist does not fail, and keeps what linking variables
keeps. -/
theorem governs_existing {D : Ty → Prop} {J : Vars → Prop} (hunknown : D .unknown)
    (hcomponent : Ty.Inherited D)
    (hJ : ∀ {vs vs' v t ok}, J vs → Keeps D vs' → Links (.ok .unknown) vs v t ok vs' → J vs') :
    Governs (.ok .unknown) (fun _ => False)
      (fun vs => vs.Sound ∧ Keeps D vs ∧ (∀ v, D (.var v) → vs.Has v) ∧ J vs)
      (fun a b => D a ∧ D b) False := by
  refine governs_of_keeps (D := D) tolerant_unknown hcomponent (fun h => ⟨h.1, h.2.1⟩) ?_ ?_
  · rintro vs t ⟨hs, hkeeps, hhas, -⟩ ht
    obtain ⟨r, hr⟩ := (hs.head_settles t).exists_ok (hkeeps.grounded hcomponent hhas ht)
    rw [hr]
    exact .ok r
  · rintro vs v t ⟨hs, hkeeps, hhas, h⟩ hDv hDt hv ht
    have hground := hkeeps.grounded hcomponent hhas hDt
    obtain ⟨ok, vs', hrun⟩ := hs.exists_combineVar hv ht fun j hj => hground _ (.here hj)
    rw [hrun]
    refine ⟨.ok _, fun ok' vs' hlinks => ?_⟩
    have hkeeps' := hlinks.keeps hkeeps hDv hDt hunknown
    exact ⟨hlinks.steps.sound hs, hkeeps', fun v hv => (hlinks.steps.has_iff hs v).2 (hhas v hv),
      hJ h hkeeps' hlinks⟩

theorem Sound.exists_combine (hs : vs.Sound) (ha : vs.Grounded a) (hb : vs.Grounded b) :
    ∃ ok vs', combine a b vs = .ok (ok, vs') := by
  have hunknown : vs.Grounded .unknown := grounded_iff.2 fun v hv => by cases hv
  have hrun := (governs_existing (J := fun _ => True) hunknown Grounded.component
    fun _ _ _ => trivial).combineOr ⟨hs, keeps_grounded vs, fun v hv => hv.has, trivial⟩ ⟨ha, hb⟩
  obtain ⟨ok, vs', hrun, -⟩ := hrun.exists_ok
  exact ⟨ok, vs', hrun⟩

theorem Links.passes {ok : Bool} {c : Except Fault Ty} (hlinks : Links c vs v t ok vs')
    (h : vs.InRange) (hkeeps : Keeps (Within vs.Has) vs') : Passes vs vs' := by
  cases hlinks with
  | merged _ hstep _ => exact .single ⟨hstep, h.step hstep hkeeps⟩
  | bound hstep _ => exact .single ⟨hstep, h.step hstep hkeeps⟩
  | boundBy _ hstep _ | cyclic _ _ _ hstep _ => exact .single ⟨hstep, h.step hstep hkeeps⟩
  | kept => exact .refl

section

variable (h : vs.InRange)

include h

theorem InRange.governs_passes :
    Governs (.ok .unknown) (fun _ => False)
      (fun vs' => vs'.Sound ∧ Keeps (Within vs.Has) vs' ∧
        (∀ v, Within vs.Has (Ty.var v) → vs'.Has v) ∧ Passes vs vs')
      (fun a b => Within vs.Has a ∧ Within vs.Has b) False := by
  refine governs_existing Ty.within_unknown (fun ht hu => ht.component hu) ?_
  intro vs₁ vs' v t ok hpasses hkeeps hlinks
  refine ReflTransGen.trans hpasses (hlinks.passes (hpasses.inRange h) ?_)
  rwa [hpasses.has_eq h]

theorem InRange.passes_refl : vs.Sound ∧ Keeps (Within vs.Has) vs ∧
    (∀ v, Within vs.Has (Ty.var v) → vs.Has v) ∧ Passes vs vs :=
  ⟨h.sound, h.keeps, fun _ hv => Ty.within_var.1 hv, .refl⟩

/-- Unifying types in range does not fail and keeps the variables in range. -/
theorem InRange.exists_combine (ha : Within vs.Has a) (hb : Within vs.Has b) :
    ∃ ok vs', combine a b vs = .ok (ok, vs') ∧ Passes vs vs' := by
  obtain ⟨ok, vs', hrun, -, h', -⟩ := (h.governs_passes.combineOr h.passes_refl ⟨ha, hb⟩).exists_ok
  exact ⟨ok, vs', hrun, h'.2.2.2⟩

theorem InRange.exists_combinePairs {as bs : List Ty} (has : Within vs.Has as)
    (hbs : Within vs.Has bs) :
    ∃ ok vs', combinePairs as bs vs = .ok (ok, vs') ∧ Passes vs vs' := by
  obtain ⟨ok, vs', hrun, -, h', -⟩ := (h.governs_passes.combinePairs h.passes_refl fun hab =>
    ⟨has.mem (List.of_mem_zip hab).1, hbs.mem (List.of_mem_zip hab).2⟩).exists_ok
  exact ⟨ok, vs', hrun, h'.2.2.2⟩

theorem InRange.exists_combineTraitRefs {r r' : TraitRef} (hr : Within vs.Has r)
    (hr' : Within vs.Has r') :
    ∃ ok vs', combineTraitRefs r r' vs = .ok (ok, vs') ∧ Passes vs vs' := by
  have hheader {r : TraitRef} (hr : Within vs.Has r) {t : Ty} (ht : t ∈ r.header) :
      Within vs.Has t := by
    obtain ⟨hself, hargs⟩ := within_traitRef.1 hr
    rcases List.mem_cons.1 ht with rfl | ht
    · exact hself
    · exact hargs.mem ht
  obtain ⟨ok, vs', hrun, -, h', -⟩ := (h.governs_passes.combineTraitRefs id h.passes_refl fun hab =>
    ⟨hheader hr (List.of_mem_zip hab).1, hheader hr' (List.of_mem_zip hab).2⟩).exists_ok
  exact ⟨ok, vs', hrun, h'.2.2.2⟩

end

/-! ## Defaults -/

/-- So do defaults. -/
theorem Defaults.inRange {xs : List Var} (hdefaults : vs.Defaults xs vs') (h : vs.InRange) :
    vs'.InRange := by
  refine ⟨hdefaults.steps.sound h.sound, fun i t hstored => ?_⟩
  rw [hdefaults.tys] at hstored
  exact (h.stored i t hstored).mono fun v => (hdefaults.steps.has_iff h.sound v).2

end TypeInference.Vars
