import TypeInference.Proofs.Faults
import TypeInference.Proofs.Soundness

/-!
# Completeness of unification

If some substitution of the open variables makes two types equal, unification succeeds, and whatever
it binds and merges, the substitution agrees with. So what unification makes of the variables is a
most general solution.

Projections and opaque types are left out: two projections may be equal without looking equal.
-/

namespace TypeInference

/-! ## Types without projections and opaque types -/

/-- Neither a projection nor an opaque type. -/
def Ty.isConcrete : Ty → Bool
  | .projection .. | .existential .. => false
  | _ => true

/-- Types of this form are compared as a whole, not by their components: projections, and opaque
types that no declaration names. -/
def Ty.isWhole : Ty → Bool
  | .projection .. => true
  | .existential decl _ => decl.isNone
  | _ => false

/-- A type in which no projection and no opaque type occurs. -/
def Ty.Concrete (t : Ty) : Prop := ∀ u ∈ t.subterms, u.isConcrete = true

instance (t : Ty) : Decidable t.Concrete :=
  inferInstanceAs (Decidable (∀ u ∈ t.subterms, u.isConcrete = true))

/-- No type is of two kinds of numbers. -/
theorem Var.standsFor_disjoint {v w : Var} {t : Ty} (hother : v.standsFor (.var w) = false)
    (hw : (Ty.var w).isTyVar = false) (ht : w.standsFor t = true) :
    v.standsFor t = false ∧ t.isTyVar = false := by
  cases t with
  | var u =>
    cases u <;> cases v <;> cases w <;>
      simp_all [standsFor, Ty.isTyVar, Ty.isIntegral, Ty.isFloat]
  | int | float =>
    cases v <;> cases w <;> simp_all [standsFor, Ty.isTyVar, Ty.isIntegral, Ty.isFloat]
  | _ =>
    cases w with
    | ty => cases hw
    | _ => cases ht

theorem Var.standsFor_of_common {u v : Var} {t : Ty} (hv : (Ty.var v).isTyVar = false)
    (hu : u.standsFor t = true) (ht : v.standsFor t = true) : u.standsFor (.var v) = true := by
  by_contra hother
  rw [(standsFor_disjoint (Bool.eq_false_iff.2 hother) hv ht).1] at hu
  cases hu

namespace Ty

variable {a b t : Ty} {σ : Var → Ty} {as bs : List Ty}

theorem forall_mem_subterms {p : Ty → Prop} :
    (∀ u ∈ t.subterms, p u) ↔ p t ∧ ∀ c ∈ t.components, ∀ u ∈ c.subterms, p u := by
  rw [subterms_eq]
  simp only [List.mem_cons, List.mem_flatMap, forall_eq_or_imp, forall_exists_index, and_imp]
  refine and_congr_right ?_
  intro _
  constructor
  · exact fun h c hc u hu => h u c hc hu
  · exact fun h u c hc hu => h c hc u hu

theorem concrete_iff : t.Concrete ↔ t.isConcrete = true ∧ ∀ c ∈ t.components, c.Concrete :=
  forall_mem_subterms

theorem not_isWhole_of_isConcrete (h : t.isConcrete = true) : t.isWhole = false := by
  cases t with
  | projection | existential => cases h
  | _ => rfl

theorem isConcrete_assign (hnode : t.isVar = false) :
    (t.assign σ).isConcrete = t.isConcrete := by
  rw [assign_eq hnode]
  cases t <;> rfl

/-! ## Types that are the same -/

theorem standsFor_erase (v : Var) (t : Ty) : v.standsFor t.erase = v.standsFor t := by
  rw [erase_eq]
  cases v <;> cases t <;> rfl

theorem standsFor_eq_of_same (v : Var) (h : a.same b = true) : v.standsFor a = v.standsFor b := by
  rw [← standsFor_erase v a, (same_iff a b).1 h, standsFor_erase]

theorem standsFor_assign_node (v : Var) (hnode : t.isVar = false) :
    v.standsFor (t.assign σ) = v.standsFor t := by
  rw [assign_eq hnode]
  cases t with
  | var w => cases hnode
  | _ => cases v <;> rfl

theorem sameList_iff_forall₂ :
    sameList as bs = true ↔ List.Forall₂ (fun a b => a.same b = true) as bs := by
  induction as generalizing bs with
  | nil => cases bs <;> simp [sameList]
  | cons a as ih => cases bs <;> simp [sameList, ih]

theorem forall₂_of_sameList_map (h : sameList (as.map (assign σ)) (bs.map (assign σ)) = true) :
    List.Forall₂ (fun x y => (x.assign σ).same (y.assign σ) = true) as bs := by
  have hpairs := sameList_iff_forall₂.1 h
  rwa [List.forall₂_map_left_iff, List.forall₂_map_right_iff] at hpairs

theorem lengthsAgree_of_eq {m n : Option Nat} (h : m = n) : Vars.lengthsAgree m n = true := by
  subst h
  cases m with
  | none => rfl
  | some m => exact decide_eq_true rfl

/-- Types that an assignment makes the same, and that are not so already, have components that face
each other and that it makes the same. -/
theorem exists_faces?_of_same (ha : a.isVar = false) (hb : b.isVar = false)
    (hwhole : a.isWhole = false) (hne : a.same b = false)
    (h : (a.assign σ).same (b.assign σ) = true) :
    ∃ as bs, a.faces? b = some (as, bs) ∧
      List.Forall₂ (fun x y => (x.assign σ).same (y.assign σ) = true) as bs := by
  rw [assign_eq ha, assign_eq hb] at h
  -- An assignment keeps the form of a type, so that both have the same form.
  cases a <;> cases b <;> first | (cases h; done) | skip
  all_goals simp only [mapComponents, Bound.mapComponents, same, Bound.same, Bool.and_eq_true,
    decide_eq_true_eq] at h
  case ref.ref | ptr.ptr => exact ⟨_, _, if_pos h.1, .cons h.2 .nil⟩
  case array.array => exact ⟨_, _, if_pos (lengthsAgree_of_eq h.1), .cons h.2 .nil⟩
  case slice.slice => exact ⟨_, _, rfl, .cons h .nil⟩
  case tuple.tuple =>
    have hpairs := forall₂_of_sameList_map h
    exact ⟨_, _, if_pos hpairs.length_eq, hpairs⟩
  case fn.fn =>
    have hpairs := forall₂_of_sameList_map h.1
    exact ⟨_, _, if_pos hpairs.length_eq, List.rel_append hpairs (.cons h.2 .nil)⟩
  case adt.adt =>
    have hpairs := forall₂_of_sameList_map h.2
    exact ⟨_, _, if_pos ⟨h.1, hpairs.length_eq⟩, hpairs⟩
  case dyn.dyn => exact ⟨[], [], if_pos h.1.1, .nil⟩
  case existential.existential decl _ decl' _ =>
    obtain rfl := h.1
    cases decl with
    | none => cases hwhole
    | some i => exact ⟨[], [], if_pos (by simp), .nil⟩
  case projection.projection => cases hwhole
  case var.var => cases ha
  -- A type without components is assigned itself.
  all_goals simp_all [same]

theorem settles_eq_false_iff :
    a.settles b = false ↔ a.same b = false ∧ a.isNever = false ∧ b.isNever = false := by
  simp only [settles, Bool.or_eq_false_iff, and_assoc]
  rfl

theorem not_isWhole_of_faces? {p : List Ty × List Ty} (h : a.faces? b = some p) :
    a.isWhole = false := by
  cases a with
  | projection => cases b <;> cases h
  | existential decl =>
    cases decl with
    | none => cases b <;> cases h
    | some i => rfl
  | _ => rfl

end Ty

namespace HasTask

variable {x y r s : Ty} {as bs : List Ty} {σ : Var → Ty}

theorem same_components (h : HasTask x y (.components as bs))
    (hsame : (x.assign σ).same (y.assign σ) = true) :
    List.Forall₂ (fun a b => (a.assign σ).same (b.assign σ) = true) as bs := by
  cases h with
  | components hsettled _ hfaces =>
    obtain ⟨hx, hy⟩ := Ty.isVar_of_faces? hfaces
    obtain ⟨as', bs', hfaces', hpairs⟩ := Ty.exists_faces?_of_same hx hy
      (Ty.not_isWhole_of_faces? hfaces) (Ty.settles_eq_false_iff.1 hsettled).1 hsame
    cases hfaces.symm.trans hfaces'
    exact hpairs

theorem same_signature (h : HasTask x y (.signature as bs r s))
    (hsame : (x.assign σ).same (y.assign σ) = true) :
    List.Forall₂ (fun a b => (a.assign σ).same (b.assign σ) = true) as bs ∧
      (r.assign σ).same (s.assign σ) = true := by
  cases h with
  | signature =>
    rw [Ty.assign_eq rfl, Ty.assign_eq rfl] at hsame
    simp only [Ty.mapComponents, Ty.same, Bool.and_eq_true] at hsame
    exact ⟨Ty.forall₂_of_sameList_map hsame.1, hsame.2⟩

end HasTask

namespace Vars

variable {i : Nat} {s : Var → Ty} {x : Option Ty}

open Relation

variable {vs vs' : Vars} {v : Var} {a b t : Ty} {σ : Var → Ty} {D : Ty → Prop}
  {c : Except Fault Ty}

/-- Types are the same up to the names of regions. -/
abbrev Same (a b : Ty) : Prop := a.same b = true

theorem same_equivalence : Equivalence Same :=
  ⟨Ty.same_refl, Ty.same_symm, Ty.same_trans⟩

/-! ## The occurs check finds nothing -/

theorem Satisfies.size_le_of_reaches (hσ : Satisfies Same σ vs) {u w : Nat}
    (h : ReflTransGen vs.Mentions u w) : (σ (.ty w)).size ≤ (σ (.ty u)).size := by
  -- Each reference leads from a variable to one that is part of its value.
  induction h with
  | refl => exact Nat.le_refl _
  | @tail x w _ hm ih =>
    obtain ⟨t, i, hx, ht, hi, hw⟩ := hm
    have hvalue : vs.valueOf (.ty x) = .ok (some t) := by
      rw [valueOf, Table.value_eq hx, ht]
    calc (σ (.ty w)).size = (σ (.ty i)).size :=
          (Ty.size_eq_of_same (hσ.root _ _ (rootVar_ty.2 hw))).symm
      _ ≤ (t.assign σ).size := Ty.size_le_of_mem_vars σ hi
      _ = (σ (.ty x)).size := (Ty.size_eq_of_same (hσ.value _ _ hvalue)).symm
      _ ≤ _ := ih

/-- By size, no variable occurs in a type that it is to equal. -/
theorem Satisfies.not_occurs (hσ : Satisfies Same σ vs) (hnode : t.isVar = false)
    (h : Same (σ (.ty i)) (t.assign σ)) : ¬ vs.Occurs i t := by
  rintro ⟨w, u, hw, hu, hreach⟩
  -- What `t` mentions is assigned less than `t` is, and what leads on to `i` no less than `i`.
  have hlt := Ty.size_lt_of_mem_vars σ hnode hw
  have hroot := Ty.size_eq_of_same (hσ.root _ _ (rootVar_ty.2 hu))
  have hle := hσ.size_le_of_reaches hreach
  have heq := Ty.size_eq_of_same h
  omega

/-- So the occurs check finds nothing. -/
theorem Sound.occursIn_eq_false (hs : vs.Sound) (hσ : Satisfies Same σ vs) (ht : vs.Grounded t)
    (hvar : t.isTyVar = false) (h : Same (σ (.ty i)) (t.assign σ)) :
    vs.occursIn i t = .ok false := by
  rcases t.eq_var_or with ⟨v, rfl⟩ | hnode
  · cases v with
    | ty j => cases hvar
    | _ => rfl
  · have hrange : ∀ j, .ty j ∈ t.vars → j < vs.tys.size := fun j hj =>
      (grounded_iff.1 ht (.ty j) hj).has
    obtain ⟨found, hfound, hiff⟩ := hs.exists_occursIn i hrange
    cases found with
    | false => exact hfound
    | true => exact absurd (hiff.1 rfl) (hσ.not_occurs hnode h)

/-! ## Linking a variable succeeds -/

/-- The types that unification may meet, and what an assignment has to do with them. -/
structure Admits (D : Ty → Prop) (σ : Var → Ty) : Prop where
  component : Ty.Inherited D
  unknown : D .unknown
  concrete : ∀ {t : Ty}, D t → t.isVar = false → t.isConcrete = true
  integral : ∀ {i : Nat}, D (.var (.int i)) → (σ (.int i)).isIntegral = true
  float : ∀ {i : Nat}, D (.var (.float i)) → (σ (.float i)).isFloat = true

/-- The assignment solves the variables, and the types that may be met stay among themselves. -/
structure Solvable (D : Ty → Prop) (σ : Var → Ty) (vs : Vars) : Prop where
  sound : vs.Sound
  keeps : Keeps D vs
  has : ∀ v, D (.var v) → vs.Has v
  solved : Satisfies Same σ vs

/-- Linking succeeds where the kind is right and the occurs check finds nothing. -/
theorem exists_combineVar (hs : vs.Sound) (hv : vs.Open v) (ht : ∀ w, t = .var w → vs.Open w)
    (hoccurs : ∀ i, v = .ty i → t.isTyVar = false → vs.occursIn i t = .ok false)
    (hkind : t.isTyVar = false → v.standsFor t = true) :
    ∃ vs', combineVar c v t vs = .ok (true, vs') := by
  have hgeneral {i : Nat} {t : Ty} (hi : vs.Open (.ty i)) (hvar : t.isTyVar = false)
      (hoccurs : vs.occursIn i t = .ok false) :
      ∃ vs', combineVar c (.ty i) t vs = .ok (true, vs') := by
    have hroot := hi.root_stored.1
    obtain ⟨tys, hbind, -⟩ := Table.exists_bind (x := t) hs.tys hroot
    refine ⟨{ vs with tys }, ?_⟩
    rw [combineVar_general c i hvar, hroot, Except.ok_bind, hoccurs, Except.ok_bind]
    simp only [Bool.false_eq_true, if_false, pure_bind, hbind, Except.ok_bind]
    rfl
  obtain ⟨k, i, rfl⟩ := exists_kind v
  have hroot := (open_iff.1 hv).1
  cases linking k t with
  | same k j =>
    have hroot' := (open_iff.1 (ht _ rfl)).1
    obtain ⟨tbl, hunion, -⟩ := Table.exists_union (hs.forest k) hroot hroot'
    rw [combineVar_same, hunion]
    exact ⟨_, rfl⟩
  | general hvar => exact hgeneral hv hvar (hoccurs i rfl hvar)
  | swapped j hk =>
    rw [combineVar_swapped c hk]
    exact hgeneral (ht _ rfl) (isTyVar_of_number hk i) (occursIn_number hk i j)
  | number x hk =>
    obtain ⟨tbl, hbind, -⟩ := Table.exists_bind (x := x) (hs.forest k) hroot
    rw [combineVar_number c hk, hbind]
    exact ⟨_, rfl⟩
  | apart hvar hno => exact absurd (hkind hvar) (by rw [hno i]; decide)

/-- What a solution makes the same is of the right kind. -/
theorem Admits.standsFor (hA : Admits D σ) (hv : D (.var v)) (ht : D t)
    (hvar : t.isTyVar = false) (h : Same (σ v) (t.assign σ)) : v.standsFor t = true := by
  have hkind {v : Var} (hv : D (.var v)) : v.standsFor (σ v) = true := by
    cases v with
    | ty i => rfl
    | int i => exact hA.integral hv
    | float i => exact hA.float hv
  have hassigned := (Ty.standsFor_eq_of_same v h).symm.trans (hkind hv)
  rcases t.eq_var_or with ⟨w, rfl⟩ | hnode
  · exact Var.standsFor_of_common hvar hassigned (hkind ht)
  · rwa [Ty.standsFor_assign_node v hnode] at hassigned

theorem Solvable.grounded (hA : Admits D σ) (h : Solvable D σ vs) (ht : D t) : vs.Grounded t :=
  h.keeps.grounded hA.component h.has ht

theorem Solvable.exists_combineVar (hA : Admits D σ) (h : Solvable D σ vs) (hv : vs.Open v)
    (hopen : ∀ w, t = .var w → vs.Open w) (hDv : D (.var v)) (hDt : D t)
    (hsame : Same (σ v) (t.assign σ)) : ∃ vs', combineVar c v t vs = .ok (true, vs') := by
  refine Vars.exists_combineVar h.sound hv hopen ?_ fun hvar => hA.standsFor hDv hDt hvar hsame
  rintro i rfl hvar
  exact h.sound.occursIn_eq_false h.solved (h.grounded hA hDt) hvar hsame

/-- Linking what a solution makes the same keeps it a solution. -/
theorem Links.satisfies {ok : Bool} (hc : ∀ u, c ≠ .ok u) (h : Links c vs v t ok vs')
    (hσ : Satisfies Same σ vs) (hsame : Same (σ v) (t.assign σ)) : Satisfies Same σ vs' := by
  cases h with
  | merged ht _ hmerges =>
    rw [ht, Ty.assign_var] at hsame
    exact hmerges.satisfies same_equivalence hσ hsame
  | bound _ hbinds => exact hbinds.satisfies same_equivalence hσ hsame
  | boundBy ht _ hbinds =>
    rw [ht, Ty.assign_var] at hsame
    refine hbinds.satisfies same_equivalence hσ ?_
    rw [Ty.assign_var]
    exact Ty.same_symm hsame
  | cyclic _ _ hcycle _ _ => exact absurd hcycle (hc _)
  | kept => exact hσ

/-! ## Unification succeeds -/

/-- Unifying what a solution makes the same succeeds and keeps it a solution. -/
theorem governs_solvable (hc : ∀ u, c ≠ .ok u) (hA : Admits D σ) :
    Governs c (fun _ => False) (Solvable D σ)
      (fun a b => D a ∧ D b ∧ Same (a.assign σ) (b.assign σ)) True where
  tolerant u hu := absurd hu (hc u)
  sound h := h.sound
  head {vs a b} h hQ := by
    have hhead {t : Ty} (ht : D t) : FailsWith (fun _ => False) (vs.head t) := by
      obtain ⟨r, hr⟩ := (h.sound.head_settles t).exists_ok (h.grounded hA ht)
      rw [hr]
      exact .ok r
    exact ⟨hhead hQ.1, hhead hQ.2.1⟩
  heads h hQ ha hb := by
    have hx := ha.assign same_equivalence h.solved
    have hy := hb.assign same_equivalence h.solved
    exact ⟨ha.keeps h.keeps hQ.1, hb.keeps h.keeps hQ.2.1,
      Ty.same_trans (Ty.same_symm hx) (Ty.same_trans hQ.2.2 hy)⟩
  components hQ htask _ _ hab := by
    obtain ⟨has, hbs⟩ := htask.each_components hA.component hA.component hQ.1 hQ.2.1
    exact ⟨has _ (List.of_mem_zip hab).1, hbs _ (List.of_mem_zip hab).2,
      (List.forall₂_iff_zip.1 (htask.same_components hQ.2.2)).2 hab⟩
  signature hQ htask := by
    obtain ⟨⟨has, hbs⟩, hr, hs⟩ := htask.each_signature hA.component hA.component hQ.1 hQ.2.1
    obtain ⟨hparams, hresult⟩ := htask.same_signature hQ.2.2
    exact ⟨fun hab => ⟨has _ (List.of_mem_zip hab).1, hbs _ (List.of_mem_zip hab).2,
      (List.forall₂_iff_zip.1 hparams).2 hab⟩, hr, hs, hresult⟩
  apart hQ htask := by
    cases htask with
    | apart hx hy hsettled hfaces =>
      obtain ⟨_, _, hfaces', -⟩ := Ty.exists_faces?_of_same hx hy
        (Ty.not_isWhole_of_isConcrete (hA.concrete hQ.1 hx))
        (Ty.settles_eq_false_iff.1 hsettled).1 hQ.2.2
      rw [hfaces] at hfaces'
      cases hfaces'
  link {vs _ _ t v} h hQ htask hv ht := by
    obtain ⟨hDv, hDt, hsame⟩ : D (.var v) ∧ D t ∧ Same (σ v) (t.assign σ) := by
      cases htask with
      | left => exact hQ
      | right => exact ⟨hQ.2.1, hQ.1, Ty.same_symm hQ.2.2⟩
    obtain ⟨vs₁, hrun⟩ := h.exists_combineVar (c := c) hA hv ht hDv hDt hsame
    rw [hrun]
    refine ⟨.ok _, fun ok vs' heq hlinks => ⟨?_, fun _ => ?_⟩⟩
    · have hsteps := hlinks.steps
      exact {
        sound := hsteps.sound h.sound
        keeps := hlinks.keeps h.keeps hDv hDt hA.unknown
        has := fun v hv => (hsteps.has_iff h.sound v).2 (h.has v hv)
        solved := hlinks.satisfies hc h.solved hsame }
    · cases heq
      rfl

theorem Solvable.succeeds_combineStrictly (hA : Admits D σ) (h : Solvable D σ vs) (ha : D a)
    (hb : D b) (hsame : Same (a.assign σ) (b.assign σ)) :
    ∃ vs', combineStrictly a b vs = .ok (true, vs') ∧ Steps vs vs' ∧ Solvable D σ vs' := by
  have hc : ∀ u, (Except.error .exhausted : Except Fault Ty) ≠ .ok u := fun _ h => by cases h
  obtain ⟨ok, vs', hrun, hsteps, h', hok⟩ :=
    ((governs_solvable hc hA).combineOr h ⟨ha, hb, hsame⟩).exists_ok
  cases hok trivial
  exact ⟨vs', hrun, hsteps, h'⟩

/-! ## Substitutions of the open variables -/

/-- Numeric variables become types of their kind. -/
structure RespectsKinds (s : Var → Ty) (vs : Vars) : Prop where
  integral : ∀ i, vs.Open (.int i) → (s (.int i)).isIntegral = true
  float : ∀ i, vs.Open (.float i) → (s (.float i)).isFloat = true

/-- The assignment solves the variables and does to open ones what `s` does. -/
structure Extends (s σ : Var → Ty) (vs : Vars) : Prop where
  solved : Satisfies Eq σ vs
  agrees : ∀ v, vs.Open v → σ v = s v

theorem Sound.extends_extend (hs : vs.Sound) (s : Var → Ty) : Extends s (vs.extend s) vs :=
  ⟨hs.satisfies_extend s, fun _ hv => extend_of_open hv⟩

theorem Extends.resolve {r : Ty} (h : Extends s σ vs) (hr : vs.resolve t = .ok r) :
    t.assign σ = r.assign s := by
  refine h.solved.resolve (fun v hv => ?_) hr
  rw [Ty.assign_var]
  exact h.agrees v hv

/-- Extensions of a substitution respect kinds as well. -/
theorem Extends.standsFor {w : Var} (h : Extends s σ vs) (hkinds : RespectsKinds s vs)
    (hroot : vs.rootVar v = .ok w) : v.standsFor (σ v) = true := by
  obtain ⟨x, hvalue⟩ := exists_valueOf_of_rootVar hroot
  cases x with
  | none =>
    have hopen : vs.Open w := ⟨rootVar_rootVar hroot, (valueOf_rootVar hroot).trans hvalue⟩
    obtain ⟨k, i, r, rfl, rfl, -⟩ := rootVar_cases hroot
    rw [h.solved.root _ _ hroot, h.agrees _ hopen]
    cases k with
    | ty => rfl
    | int => exact hkinds.integral r hopen
    | float => exact hkinds.float r hopen
  | some t =>
    rw [h.solved.value _ _ hvalue]
    rcases valueOf_cases hvalue with ⟨_, _, rfl, -⟩ | ⟨_, k, rfl, rfl⟩ | ⟨_, k, rfl, rfl⟩
    · rfl
    all_goals exact Ty.standsFor_assign_node _ rfl

/-! ## Types that resolve to concrete ones -/

/-- All variables that are met in the type exist, and `p` holds of all types on the way. -/
def ResolvesTo (p : Ty → Bool) (vs : Vars) (t : Ty) : Prop :=
  vs.Grounded t ∧ ∀ u ∈ (t.assign (vs.extend .var)).subterms, p u = true

/-- Whether `p` holds of a type depends on its outermost level only, and for an unknown type and a
variable it does. -/
structure Superficial (p : Ty → Bool) : Prop where
  mapComponents : ∀ (t : Ty) (f : Ty → Ty), p (t.mapComponents f) = p t
  unknown : p .unknown = true
  var : ∀ v, p (.var v) = true

section

variable {p : Ty → Bool}

theorem Sound.resolvesTo (hs : vs.Sound) {r : Ty} (hr : vs.resolve t = .ok r)
    (hall : ∀ u ∈ r.subterms, p u = true) : ResolvesTo p vs t := by
  refine ⟨grounded_of_resolve hr, ?_⟩
  rwa [(hs.extends_extend .var).resolve hr, Ty.assign_var_self]

/-- Roots and values of types that resolve well resolve well. -/
theorem keeps_resolvesTo (hs : vs.Sound) : Keeps (ResolvesTo p vs) vs := by
  have hsolved := hs.satisfies_extend .var
  constructor
  · rintro v r ⟨hground, hp⟩ hr
    refine ⟨(keeps_grounded vs).root v r hground hr, ?_⟩
    rw [Ty.assign_var] at hp ⊢
    rwa [← hsolved.root v r hr]
  · rintro v t ⟨hground, hp⟩ hvalue
    refine ⟨(keeps_grounded vs).value v t hground hvalue, ?_⟩
    rw [Ty.assign_var] at hp
    rwa [← hsolved.value v t hvalue]

/-- A type resolves well if its components do. -/
theorem resolvesTo_iff (hp : Superficial p) (hnode : t.isVar = false) :
    ResolvesTo p vs t ↔ p t = true ∧ ∀ c ∈ t.components, ResolvesTo p vs c := by
  have hself : p (t.assign (vs.extend .var)) = p t := by
    rw [Ty.assign_eq hnode, hp.mapComponents]
  have hground : vs.Grounded t ↔ ∀ c ∈ t.components, vs.Grounded c := by
    refine ⟨fun h c hc => h.component hc, fun h => grounded_iff.2 fun v hv => ?_⟩
    obtain ⟨c, hc, hv⟩ := (Ty.mem_vars_iff hnode).1 hv
    exact grounded_iff.1 (h c hc) v hv
  unfold ResolvesTo
  rw [Ty.forall_mem_subterms, hself, Ty.components_assign hnode, List.forall_mem_map, hground]
  constructor
  · rintro ⟨hg, ht, hcomponents⟩
    exact ⟨ht, fun c hc => ⟨hg c hc, hcomponents c hc⟩⟩
  · rintro ⟨ht, hcomponents⟩
    exact ⟨fun c hc => (hcomponents c hc).1, ht, fun c hc => (hcomponents c hc).2⟩

variable (hp : Superficial p)

include hp

theorem ResolvesTo.holds (h : ResolvesTo p vs t) : p t = true := by
  rcases t.eq_var_or with ⟨v, rfl⟩ | hnode
  · exact hp.var v
  · exact ((resolvesTo_iff hp hnode).1 h).1

theorem ResolvesTo.component {u : Ty} (h : ResolvesTo p vs t) (hu : u ∈ t.components) :
    ResolvesTo p vs u :=
  ((resolvesTo_iff hp (Ty.isVar_of_mem_components hu)).1 h).2 u hu

theorem resolvesTo_unknown : ResolvesTo p vs .unknown :=
  (resolvesTo_iff hp rfl).2 ⟨hp.unknown, fun _ hc => by cases hc⟩

end

/-- The resolved form has no projection and no opaque type in it. -/
abbrev ResolvesConcretely : Vars → Ty → Prop := ResolvesTo Ty.isConcrete

theorem superficial_isConcrete : Superficial Ty.isConcrete where
  mapComponents t _ := by cases t <;> rfl
  unknown := rfl
  var _ := rfl

theorem Extends.admits (hs : vs.Sound) (h : Extends s σ vs) (hkinds : RespectsKinds s vs) :
    Admits vs.ResolvesConcretely σ where
  component h hu := h.component superficial_isConcrete hu
  unknown := resolvesTo_unknown superficial_isConcrete
  concrete h _ := h.holds superficial_isConcrete
  integral hD := h.standsFor hkinds (hs.exists_rootVar hD.1.has).choose_spec
  float hD := h.standsFor hkinds (hs.exists_rootVar hD.1.has).choose_spec

theorem Extends.solvable (hs : vs.Sound) (h : Extends s σ vs) :
    Solvable vs.ResolvesConcretely σ vs where
  sound := hs
  keeps := keeps_resolvesTo hs
  has _ hv := hv.1.has
  solved := h.solved.mono fun _ b hab => by
    rw [hab]
    exact Ty.same_refl b

end Vars

end TypeInference
