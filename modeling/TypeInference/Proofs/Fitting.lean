import TypeInference.Proofs.Headers
import TypeInference.Proofs.Information

/-!
# What successful unification leaves

Where a type has been unified successfully with another one, it *fits* that one from then on: what
its variables stand for looks like the other type wherever that is not open. Two types that one type
fits may match. The exceptions are in the parameters of the relation.
-/

namespace TypeInference

/-! ## One level of a type -/

variable {R S : Ty → Ty → Prop}

namespace Ty

variable {a b c : Ty}

/-- Unification compares the type as matching does, by its outermost level and its parts. -/
def isStructural : Ty → Bool
  | .never | .dyn _ | .existential .. => false
  | _ => true

/-- Not an array of unknown length. -/
def isMeasured : Ty → Bool
  | .array _ none => false
  | _ => true

/-- If both types are arrays, `L` holds of their lengths. -/
def LengthsBy (L : Option Nat → Option Nat → Prop) : Ty → Ty → Prop
  | .array _ m, .array _ n => L m n
  | _, _ => True

theorem LengthsBy.imp {L L' : Option Nat → Option Nat → Prop} (hL : ∀ m n, L m n → L' m n)
    (h : a.LengthsBy L b) : a.LengthsBy L' b := by
  cases a with
  | array =>
    cases b with
    | array => exact hL _ _ h
    | _ => trivial
  | _ => trivial

theorem agrees_of_faces? {as bs : List Ty} (h : a.faces? b = some (as, bs))
    (ha : a.isStructural = true) : a.agrees b = true ∧ as = a.parts ∧ bs = b.parts := by
  unfold faces? at h
  split at h
  case h_8 | h_9 => cases ha
  case h_10 => cases h
  all_goals
    simp only [Option.ite_none_right_eq_some, Option.some.injEq, Prod.mk.injEq] at h
    grind [agrees, parts]

theorem not_isStructural_of_isNever (h : a.isNever = true) : a.isStructural ≠ true := by
  rw [eq_never_of_isNever h]
  nofun

theorem isVar_of_agrees (h : a.agrees b = true) (ha : a.isVar = false) : b.isVar = false := by
  cases b with
  | var v =>
    cases a with
    | var w => cases ha
    | _ => cases h
  | _ => rfl

/-- Types that are the same agree, level by level. -/
theorem agrees_of_same (h : a.same b = true) (ha : a.isVar = false) :
    a.agrees b = true ∧ a.LengthsBy Eq b ∧
      List.Forall₂ (fun x y => x.same y = true) a.parts b.parts := by
  cases a with
  | var v => cases ha
  | ref x m r | ptr x m | array x m =>
    cases b with
    | ref | ptr | array =>
      simp_all [same, agrees, parts, LengthsBy, lengthsAgree_of_eq]
    | _ => cases h
  | slice x =>
    cases b with
    | slice y => exact ⟨rfl, trivial, .cons h .nil⟩
    | _ => cases h
  | tuple xs =>
    cases b with
    | tuple ys =>
      have hparts := sameList_iff_forall₂.1 h
      exact ⟨decide_eq_true hparts.length_eq, trivial, hparts⟩
    | _ => cases h
  | fn xs x =>
    cases b with
    | fn ys y =>
      simp only [same, Bool.and_eq_true] at h
      have hparams := sameList_iff_forall₂.1 h.1
      exact ⟨decide_eq_true hparams.length_eq, trivial, List.rel_append hparams (.cons h.2 .nil)⟩
    | _ => cases h
  | adt i xs =>
    cases b with
    | adt j ys =>
      simp only [same, Bool.and_eq_true, decide_eq_true_eq] at h
      have hparts := sameList_iff_forall₂.1 h.2
      exact ⟨decide_eq_true ⟨h.1, hparts.length_eq⟩, trivial, hparts⟩
    | _ => cases h
  | dyn x =>
    cases b with
    | dyn y =>
      obtain ⟨i, xs, _⟩ := x
      obtain ⟨j, ys, _⟩ := y
      simp only [same, Bound.same, Bool.and_eq_true, decide_eq_true_eq] at h
      have hparts := sameList_iff_forall₂.1 h.1.2
      exact ⟨decide_eq_true ⟨h.1.1, hparts.length_eq⟩, trivial, hparts⟩
    | _ => cases h
  | _ =>
    cases b with
    | bool | char | str | int | float | existential | param | projection | unknown | never =>
      exact ⟨h, trivial, .nil⟩
    | _ => cases h

/-- Agreeing is transitive where it does not depend on lengths that are unknown. -/
theorem agrees_trans (hnode : a.isVar = false) (hab : a.agrees b = true) (hlength : a.LengthsBy Eq b)
    (hac : a.agrees c = true) : b.agrees c = true := by
  cases a with
  | var v => cases hnode
  | ref | ptr | array | slice | tuple | fn | adt | dyn =>
    cases b <;> first
      | cases hab; done
      | cases c <;> first
        | cases hac; done
        | simp_all [agrees, LengthsBy]
  | _ =>
    have hbc : b.same c = true := same_trans (same_symm hab) hac
    cases b with
    | bool | char | str | int | float | existential | param | projection | unknown | never =>
      exact hbc
    | _ => cases hab

end Ty

theorem Ty.var_cases (t : Ty) : (∃ i, t = .var (.ty i)) ∨
    (∃ v, t = .var v ∧ (Ty.var v).isTyVar = false) ∨ t.isVar = false := by
  cases t with
  | var v =>
    cases v with
    | ty i => exact .inl ⟨i, rfl⟩
    | int i | float i => exact .inr (.inl ⟨_, rfl, rfl⟩)
  | _ => exact .inr (.inr rfl)

/-! ## Heads of later variables -/

namespace Vars

variable {vs vs' : Vars} {v w : Var} {r t h h' : Ty} {as bs : List Ty}

/-- A type that is known stays as it is. -/
theorem Heads.later (hg : Grows vs vs') (hh : vs.Heads t h) (hnode : h.isVar = false) :
    vs'.Heads t h := by
  induction hh with
  | node ht => exact .node ht
  | bound hvalue _ ih => exact .bound (hg.value _ _ hvalue) (ih hnode)
  | unbound _ _ => cases hnode

theorem standsFor_of_valueOf (hvalue : vs.valueOf v = .ok (some t))
    (hv : (Ty.var v).isTyVar = false) : t.isVar = false ∧ v.standsFor t = true := by
  rcases valueOf_cases hvalue with ⟨_, _, rfl, -⟩ | ⟨_, k, rfl, rfl⟩ | ⟨_, k, rfl, rfl⟩
  · cases hv
  · exact ⟨rfl, rfl⟩
  · exact ⟨rfl, rfl⟩

theorem standsFor_rootVar (hroot : vs.rootVar v = .ok w) (u : Var) :
    u.standsFor (.var w) = u.standsFor (.var v) := by
  obtain ⟨k, _, _, rfl, rfl, -⟩ := rootVar_cases hroot
  cases k <;> cases u <;> rfl

theorem standsFor_of_rootVar (hroot : vs.rootVar v = .ok w) (t : Ty) :
    w.standsFor t = v.standsFor t := by
  obtain ⟨k, _, _, rfl, rfl, -⟩ := rootVar_cases hroot
  cases k <;> rfl

theorem Heads.standsFor (hh : vs.Heads (.var v) h) : v.standsFor h = true := by
  rcases (Ty.var v).eq_tyVar_or with ⟨i, hi⟩ | hv
  · cases hi
    rfl
  · cases hh with
    | node hnode => cases hnode
    | bound hvalue htail =>
      obtain ⟨hnode, hkind⟩ := standsFor_of_valueOf hvalue hv
      rwa [htail.eq_of_node hnode]
    | unbound _ hroot =>
      rw [standsFor_rootVar hroot]
      cases v <;> rfl

theorem exists_heads_of_number {q : Var} (hv : (Ty.var v).isTyVar = false)
    (hroot : vs.rootVar v = .ok q) : ∃ h, vs.Heads (.var v) h := by
  obtain ⟨x, hx⟩ := exists_valueOf_of_rootVar hroot
  cases x with
  | none => exact ⟨_, .unbound hx hroot⟩
  | some t => exact ⟨t, .bound hx (.node (standsFor_of_valueOf hx hv).1)⟩

/-- A number stays a number. -/
theorem Heads.number_later (hg : Grows vs vs') (hv : (Ty.var v).isTyVar = false)
    (hh : vs.Heads t h) (hkind : v.standsFor h = true) :
    ∃ h', vs'.Heads t h' ∧ v.standsFor h' = true := by
  induction hh with
  | node ht => exact ⟨_, .node ht, hkind⟩
  | bound hvalue _ ih =>
    obtain ⟨h', hheads, hkind'⟩ := ih hkind
    exact ⟨h', .bound (hg.value _ _ hvalue) hheads, hkind'⟩
  | @unbound u q _ hroot =>
    -- The class may have got a value by now, which then is a number.
    obtain ⟨q', hu, -⟩ := hg.root u q hroot
    rw [standsFor_rootVar hroot] at hkind
    obtain ⟨hnumeric, hsame⟩ := Var.standsFor_congr hv hkind
    obtain ⟨h', hheads⟩ := exists_heads_of_number hnumeric hu
    exact ⟨h', hheads, (hsame h').trans hheads.standsFor⟩

/-- The type is a variable of which nothing is known yet. -/
def OpenIn (vs : Vars) (t : Ty) : Prop := ∃ i, vs.Heads t (.var (.ty i))

/-- What is open was open before. -/
theorem OpenIn.before (hs : vs.Sound) (hsteps : Steps vs vs') (h : vs'.OpenIn t) :
    vs.OpenIn t := by
  obtain ⟨i, hheads⟩ := h
  generalize hu : Ty.var (.ty i) = u at hheads
  induction hheads with
  | node hnode =>
    rw [← hu] at hnode
    cases hnode
  | @bound v t u hvalue htail ih =>
    obtain ⟨r, hr⟩ := hs.exists_rootVar ((hsteps.has_iff hs v).1 (has_of_valueOf hvalue))
    obtain ⟨x, hx⟩ := exists_valueOf_of_rootVar hr
    cases x with
    | some x =>
      rw [(hsteps.grows hs).value v x hx] at hvalue
      cases hvalue
      obtain ⟨j, hj⟩ := ih hu
      exact ⟨j, .bound hx hj⟩
    | none =>
      -- A numeric variable has no general variable for its value.
      have hv := (Heads.bound hvalue htail).standsFor
      cases hu
      obtain ⟨k, _, j, rfl, rfl, -⟩ := rootVar_cases hr
      cases k <;> first | exact ⟨j, .unbound hx hr⟩ | cases hv
  | @unbound v r hvalue hroot =>
    cases hu
    have hbefore := hsteps.unbound_before hs hvalue
    obtain ⟨q, hq⟩ := exists_rootVar_of_valueOf hbefore
    obtain ⟨k, _, _, rfl, hr, -⟩ := rootVar_cases hroot
    obtain ⟨l, _, j, hl, rfl, -⟩ := rootVar_cases hq
    cases k <;> cases hr
    cases l <;> cases hl
    exact ⟨j, .unbound hbefore hq⟩

/-! ## Fitting -/

/-- What `r` stands for looks like `g`, wherever `g` is not open. The lengths of arrays are related
by `L`. Where `U` holds, `r` may be unknown. -/
inductive Fits (vs : Vars) (L : Option Nat → Option Nat → Prop) (U : Ty → Prop) : Ty → Ty → Prop
  | general (r : Ty) (i : Nat) : Fits vs L U r (.var (.ty i))
  | number {r h : Ty} {v : Var} : (Ty.var v).isTyVar = false → vs.Heads r h →
    v.standsFor h = true → Fits vs L U r (.var v)
  | node {r h g : Ty} : vs.Heads r h → h.isVar = false → h.agrees g = true → h.LengthsBy L g →
    List.Forall₂ (Fits vs L U) h.parts g.parts → Fits vs L U r g
  | unknown {r g : Ty} : vs.Heads r .unknown → U r → g.isVar = false → Fits vs L U r g

namespace Fits

variable {L L' : Option Nat → Option Nat → Prop} {U U' : Ty → Prop} {g : Ty}

theorem forall₂_imp (h : List.Forall₂ R as bs) (himp : ∀ a ∈ as, ∀ b ∈ bs, R a b → S a b) :
    List.Forall₂ S as bs := by
  induction h with
  | nil => exact .nil
  | cons hab _ ih =>
    refine .cons (himp _ (.head _) _ (.head _) hab) (ih ?_)
    exact fun a ha b hb => himp a (.tail _ ha) b (.tail _ hb)

/-- Types go on to fit. -/
theorem mono (hg : Grows vs vs') (hL : ∀ m n, L m n → L' m n) (hU : ∀ t, U t → U' t)
    (h : Fits vs L U r g) : Fits vs' L' U' r g := by
  induction g using Ty.componentInduction generalizing r with
  | node g ih =>
    cases h with
    | general r i => exact .general r i
    | number hv hheads hkind =>
      obtain ⟨h', hheads', hkind'⟩ := hheads.number_later hg hv hkind
      exact .number hv hheads' hkind'
    | node hheads hnode hagrees hlength hparts =>
      refine .node (hheads.later hg hnode) hnode hagrees (hlength.imp hL) ?_
      exact forall₂_imp hparts fun a _ b hb hab => ih b (g.parts_sublist.subset hb) hab
    | unknown hheads hr hnode => exact .unknown (hheads.later hg rfl) (hU _ hr) hnode

theorem along (hheads : vs.Heads r t) (ht : t.isVar = false) (hU : ¬ U t)
    (h : Fits vs L U t g) : Fits vs L U r g := by
  cases h with
  | general _ i => exact .general r i
  | number hv hheads' hkind => exact .number hv (hheads'.eq_of_node ht ▸ hheads) hkind
  | node hheads' hnode hagrees hlength hparts =>
    exact .node (hheads'.eq_of_node ht ▸ hheads) hnode hagrees hlength hparts
  | unknown _ hr _ => exact absurd hr hU

/-- A type fits itself. -/
theorem of_same (hs : vs.Sound) (hL : ∀ m n, m = n → L m n) (h : r.same g = true)
    (hhas : ∀ v ∈ r.vars, vs.Has v) : Fits vs L U r g := by
  induction r using Ty.varInduction generalizing g with
  | var v =>
    cases g with
    | var w =>
      obtain rfl : v = w := of_decide_eq_true h
      rcases (Ty.var v).eq_tyVar_or with ⟨i, hi⟩ | hv
      · rw [hi]
        exact .general _ i
      · obtain ⟨q, hq⟩ := hs.exists_rootVar (hhas v (by simp))
        obtain ⟨h, hheads⟩ := exists_heads_of_number hv hq
        exact .number hv hheads hheads.standsFor
    | _ => cases h
  | node r hnode ih =>
    obtain ⟨hagrees, hlength, hparts⟩ := Ty.agrees_of_same h hnode
    refine .node (.node hnode) hnode hagrees (hlength.imp hL) ?_
    refine forall₂_imp hparts fun c hc d _ hcd => ?_
    have hc := r.parts_sublist.subset hc
    exact ih c hc hcd fun v hv => hhas v ((Ty.mem_vars_iff hnode).2 ⟨c, hc, hv⟩)

end Fits

/-! ## Unification makes types fit -/

/-- The types among which unification works: it can only be tolerant with lengths there. -/
structure Regime (D : Ty → Prop) : Prop where
  component : Ty.Inherited D
  structural : ∀ {t : Ty}, D t → t.isStructural = true
  unknown : D .unknown

variable {D : Ty → Prop} {c : Except Fault Ty} {a b g : Ty} {p : Problem} {ok : Bool}
  {vs₁ : Vars}

/-- Where both types are already known, `r` fits `g` because of the run that ends in `vs'`. -/
abbrev FitsAfter (vs vs' : Vars) (r g : Ty) : Prop := Fits vs' (fun _ _ => True) vs.OpenIn r g

theorem not_openIn (hnode : t.isVar = false) : ¬ vs.OpenIn t := by
  rintro ⟨i, hheads⟩
  cases hheads.eq_of_node hnode
  cases hnode

theorem occursIn_of_standsFor (hv : (Ty.var v).isTyVar = false) (ht : v.standsFor t = true)
    (root : Nat) : vs.occursIn root t = .ok false := by
  rcases Var.eq_of_standsFor hv ht with ⟨k, rfl⟩ | ⟨k, rfl⟩ | ⟨w, rfl, hw⟩
  · rfl
  · rfl
  · cases w with
    | ty => cases hw
    | _ => rfl

theorem isNever_of_standsFor (hv : (Ty.var v).isTyVar = false) (ht : v.standsFor t = true) :
    t.isNever = false := by
  rcases Var.eq_of_standsFor hv ht with ⟨k, rfl⟩ | ⟨k, rfl⟩ | ⟨w, rfl, -⟩ <;> rfl

theorem Heads.self (hh : vs.Heads r t) : vs.Heads t t := by
  rcases t.eq_var_or with ⟨v, rfl⟩ | hvar
  · exact .unbound hh.isOpen.2 hh.isOpen.1
  · exact .node hvar

theorem Binds.heads {x : Ty} (hbinds : vs.Binds v x vs') (hr : vs.Heads r (.var v))
    (hx : vs'.Heads x h) : vs'.Heads r h := by
  generalize ht : Ty.var v = t at hr
  induction hr with
  | node hnode =>
    rw [← ht] at hnode
    cases hnode
  | @bound u t y hvalue _ ih =>
    -- The bindings on the way stay, because their classes are not open.
    refine .bound ((hbinds.value_other u ?_).trans hvalue) (ih ht)
    intro hroot
    rw [← valueOf_rootVar hroot, hbinds.isOpen.2] at hvalue
    cases hvalue
  | unbound _ hroot =>
    cases ht
    exact .bound (hbinds.value_self _ hroot) hx

/-- A variable that is linked with a number becomes one. -/
theorem Links.number (hs : vs.Sound) (hw : (Ty.var w).isTyVar = false)
    (hr : vs.Heads r (.var v)) (ht : vs.Heads t t) (hkind : w.standsFor t = true)
    (h : Links c vs v t true vs') : ∃ h', vs'.Heads r h' ∧ w.standsFor h' = true := by
  have hgrows := h.steps.grows hs
  generalize hok : true = ok at h
  cases h with
  | merged heq _ hmerges =>
    -- What has been merged is of one kind.
    rw [heq, ← standsFor_rootVar hmerges.root_loser] at hkind
    exact hr.number_later hgrows hw hkind
  | bound _ hbinds =>
    obtain ⟨h', hheads, hkind'⟩ := ht.number_later hgrows hw hkind
    exact ⟨h', hbinds.heads hr hheads, hkind'⟩
  | @boundBy u _ heq _ hbinds =>
    rw [heq] at hkind
    have hu := (Var.standsFor_congr hw hkind).1
    cases (standsFor_of_valueOf (hbinds.value_self u hbinds.isOpen.1) hu).1
  | cyclic _ hoccurs _ _ _ =>
    rw [occursIn_of_standsFor hw hkind] at hoccurs
    cases hoccurs
  | kept =>
    rw [isNever_of_standsFor hw hkind] at hok
    cases hok

/-- A variable fits what it is linked with. -/
theorem Links.fits {L : Option Nat → Option Nat → Prop} (hL : ∀ m n, m = n → L m n)
    (hs : vs.Sound) (hr : vs.Heads r (.var v)) (hg : vs.Heads g t)
    (hhas : ∀ w ∈ g.vars, vs.Has w) (hstructural : t.isStructural = true)
    (h : Links c vs v t true vs') : Fits vs' L vs.OpenIn r g := by
  rcases g.var_cases with ⟨i, rfl⟩ | ⟨w, rfl, hw⟩ | hvar
  · exact .general r i
  · obtain ⟨h', hheads, hkind⟩ := h.number hs hw hr hg.self hg.standsFor
    exact .number hw hheads hkind
  · cases hg.eq_of_node hvar
    have hsteps := h.steps
    generalize hok : true = ok at h
    cases h with
    | merged heq _ _ =>
      rw [heq] at hvar
      cases hvar
    | bound _ hbinds =>
      have hself : Fits vs' L vs.OpenIn t t :=
        .of_same (hsteps.sound hs) hL t.same_refl fun w hw =>
          (hsteps.has_iff hs w).2 (hhas w hw)
      exact .along (hbinds.heads hr (.node hvar)) hvar (not_openIn hvar) hself
    | boundBy heq _ _ =>
      rw [heq] at hvar
      cases hvar
    | cyclic hv _ _ _ hbinds =>
      cases hv
      exact .unknown (hbinds.heads hr (.node rfl)) ⟨_, hr⟩ hvar
    | kept =>
      exact absurd hstructural (Ty.not_isStructural_of_isNever hok.symm)

/-- What a variable is linked with fits it. -/
theorem Links.fits_node (ha : a.isVar = false) (hstructural : a.isStructural = true)
    (hw : vs.Heads g (.var v)) (h : Links c vs v a true vs') : FitsAfter vs vs' a g := by
  rcases g.var_cases with ⟨i, rfl⟩ | ⟨_, rfl, hty⟩ | hvar
  · exact .general a i
  · obtain ⟨hv, hsame⟩ := Var.standsFor_congr hty hw.standsFor
    generalize hok : true = ok at h
    cases h with
    | merged heq _ _ =>
      rw [heq] at ha
      cases ha
    | bound _ hbinds =>
      have hvalue := hbinds.value_self v hbinds.isOpen.1
      exact .number hty (.node ha) ((hsame a).trans (standsFor_of_valueOf hvalue hv).2)
    | boundBy heq _ _ =>
      rw [heq] at ha
      cases ha
    | cyclic heq _ _ _ _ =>
      rw [heq] at hv
      cases hv
    | kept =>
      exact absurd hstructural (Ty.not_isStructural_of_isNever hok.symm)
  · cases hw.eq_of_node hvar
    cases hvar

/-- Sound variables, all of which exist and lead to types of which `D` holds again. -/
structure Among (D : Ty → Prop) (vs : Vars) : Prop where
  sound : vs.Sound
  keeps : Keeps D vs
  has : ∀ v, D (.var v) → vs.Has v

theorem Among.has_vars (hD : Regime D) (hvs : vs.Among D) (ht : D t) : ∀ v ∈ t.vars, vs.Has v :=
  fun v hv => hvs.has v (Ty.of_mem_vars hD.component ht hv)

theorem Among.evaluates (hvs : vs.Among D) (hD : Regime D) (h : Evaluates c p vs ok vs')
    (hp : p.Each D D) : vs'.Among D where
  sound := h.steps.sound hvs.sound
  keeps := h.keeps hD.component hD.unknown hvs.keeps hp
  has v hv := (h.steps.has_iff hvs.sound v).2 (hvs.has v hv)

/-- A number fits what it is the same as, or the numeric variable that stands for that. -/
theorem fits_of_same (hvs : vs.Among D) (hhas : ∀ v ∈ a.vars, vs.Has v) (ha : a.isVar = false)
    (hb : vs.Heads b t) (h : a.same t = true) : FitsAfter vs vs a b := by
  rcases b.var_cases with ⟨i, rfl⟩ | ⟨w, rfl, hw⟩ | hvar
  · exact .general a i
  · refine .number hw (.node ha) ?_
    exact (Ty.standsFor_eq_of_same w h).trans hb.standsFor
  · cases hb.eq_of_node hvar
    exact .of_same hvs.sound (fun _ _ _ => trivial) h hhas

theorem fits_of_faces? (ha : a.isStructural = true) (hb : vs.Heads b t)
    (hfaces : a.faces? t = some (as, bs)) (h : List.Forall₂ (FitsAfter vs vs') as bs) :
    FitsAfter vs vs' a b := by
  have hnode := (Ty.isVar_of_faces? hfaces).1
  rcases b.var_cases with ⟨i, rfl⟩ | ⟨w, rfl, hw⟩ | hvar
  · exact .general a i
  · -- A number has no components.
    rcases Var.eq_of_standsFor hw hb.standsFor with ⟨k, rfl⟩ | ⟨k, rfl⟩ | ⟨u, rfl, -⟩
    all_goals cases a <;> cases hfaces
  · cases hb.eq_of_node hvar
    obtain ⟨hagrees, rfl, rfl⟩ := Ty.agrees_of_faces? hfaces ha
    refine .node (.node hnode) hnode hagrees ?_ h
    cases a with
    | array =>
      cases t <;> trivial
    | _ => trivial

theorem FitsAfter.later (h : FitsAfter vs vs₁ a b) (hs : vs₁.Sound) (hsteps : Steps vs₁ vs') :
    FitsAfter vs vs' a b :=
  Fits.mono (hsteps.grows hs) (fun _ _ h => h) (fun _ h => h) h

theorem FitsAfter.earlier (h : FitsAfter vs₁ vs' a b) (hs : vs.Sound) (hsteps : Steps vs vs₁) :
    FitsAfter vs vs' a b :=
  Fits.mono (.refl vs') (fun _ _ h => h) (fun _ h => h.before hs hsteps) h

theorem FitsAfter.along (h : FitsAfter vs vs' t b) (ha : vs.Heads a t) (hnode : t.isVar = false)
    (hs : vs.Sound) (hsteps : Steps vs vs') : FitsAfter vs vs' a b :=
  Fits.along (ha.later (hsteps.grows hs) hnode) hnode (not_openIn hnode) h

/-- Types that unify fit. -/
theorem Evaluates.fits (hD : Regime D) (h : Evaluates c p vs ok vs') (hvs : vs.Among D)
    (hp : p.Each D D) (hok : ok = true) : p.Holds (FitsAfter vs vs') := by
  induction h with
  | nil => exact .nil
  | cons hfirst hrest ih ih' =>
    obtain ⟨hok', hok⟩ := Bool.and_eq_true_iff.1 hok
    obtain ⟨ha, has⟩ := List.forall_mem_cons.1 hp.1
    obtain ⟨hb, hbs⟩ := List.forall_mem_cons.1 hp.2
    have hvs₁ := hvs.evaluates hD hfirst ⟨ha, hb⟩
    refine .cons ((ih hvs ⟨ha, hb⟩ hok).later hvs₁.sound hrest.steps) ?_
    exact (ih' hvs₁ ⟨has, hbs⟩ hok').imp fun _ _ h => h.earlier hvs.sound hfirst.steps
  | link ha hb htask hlinks =>
    cases htask with
    | left =>
      exact (hok ▸ hlinks).fits (fun _ _ _ => trivial) hvs.sound ha hb (hvs.has_vars hD hp.2)
        (hD.structural (hb.keeps hvs.keeps hp.2))
    | right w hnode =>
      have hfits := (hok ▸ hlinks).fits_node hnode (hD.structural (ha.keeps hvs.keeps hp.1)) hb
      exact hfits.along ha hnode hvs.sound hlinks.steps
  | decided ha hb htask =>
    rw [hok] at htask
    have hx := ha.keeps hvs.keeps hp.1
    cases htask with
    | settled hnode _ hsettled =>
      refine FitsAfter.along ?_ ha hnode hvs.sound .refl
      simp only [Ty.settles, Bool.or_eq_true] at hsettled
      rcases hsettled with (hsame | hnever) | hnever
      · exact fits_of_same hvs (hvs.has_vars hD hx) hnode hb hsame
      · exact absurd (hD.structural hx) (Ty.not_isStructural_of_isNever hnever)
      · have hy := hb.keeps hvs.keeps hp.2
        exact absurd (hD.structural hy) (Ty.not_isStructural_of_isNever hnever)
  | components ha hb htask hlist ih =>
    have hx := ha.keeps hvs.keeps hp.1
    have hparts := ih hvs (htask.each_components hD.component hD.component hx
      (hb.keeps hvs.keeps hp.2)) hok
    cases htask with
    | components _ _ hfaces =>
      have hfits := fits_of_faces? (hD.structural hx) hb hfaces hparts
      exact hfits.along ha (Ty.isVar_of_faces? hfaces).1 hvs.sound hlist.steps
  | signature ha hb htask hlist hlast ih ih' =>
    have hx := ha.keeps hvs.keeps hp.1
    obtain ⟨hparams, hresult⟩ :=
      htask.each_signature hD.component hD.component hx (hb.keeps hvs.keeps hp.2)
    have hvs₁ := hvs.evaluates hD hlist hparams
    have hparams := (ih hvs hparams rfl).imp fun _ _ h => h.later hvs₁.sound hlast.steps
    have hresult := (ih' hvs₁ hresult hok).earlier hvs.sound hlist.steps
    cases htask with
    | signature _ hlength =>
      have hfits := fits_of_faces? (hD.structural hx) hb (if_pos hlength)
        (List.rel_append hparams (.cons hresult .nil))
      exact hfits.along ha rfl hvs.sound (hlist.steps.trans hlast.steps)
  | refused => cases hok

end Vars

/-! ## Types that one type fits -/

namespace Header

open Vars

variable {vs vs' : Vars} {r g g' : Ty} {v : Var}

theorem compare_ne_no_of_outcome (h : g.outcome g' = some .maybe) : compare [g] [g'] ≠ .no := by
  rw [compare_singleton, h]
  nofun

theorem outcome_var_left (h : v.standsFor g = true) : (Ty.var v).outcome g = some .maybe := by
  rw [(Ty.outcome_var v g).1, h]
  rfl

theorem outcome_var_right (h : v.standsFor g = true) : g.outcome (.var v) = some .maybe := by
  rw [(Ty.outcome_var v g).2, h]
  rfl

theorem standsFor_of_agrees {h : Ty} (hv : (Ty.var v).isTyVar = false) (hnode : h.isVar = false)
    (hkind : v.standsFor h = true) (hagrees : h.agrees g = true) : v.standsFor g = true := by
  rcases Var.eq_of_standsFor hv hkind with ⟨k, rfl⟩ | ⟨k, rfl⟩ | ⟨w, rfl, -⟩
  · cases g with
    | int => cases v <;> exact hkind
    | _ => cases hagrees
  · cases g with
    | float => cases v <;> exact hkind
    | _ => cases hagrees
  · cases hnode

theorem outcome_of_agrees (hg : g.isVar = false) (hg' : g'.isVar = false)
    (h : g.agrees g' = true) : g.outcome g' = some .maybe ∨ g.outcome g' = none := by
  rw [Ty.outcome, Ty.openVerdict?_node hg hg', h]
  cases g.isIndefinite || g'.isIndefinite with
  | true => exact .inl rfl
  | false => exact .inr rfl

theorem compare_of_forall₂ {rs gs gs' : List Ty} (h : List.Forall₂ R rs gs)
    (h' : List.Forall₂ S rs gs')
    (hpairs : ∀ g ∈ gs, ∀ r g', R r g → S r g' → compare [g] [g'] ≠ .no) :
    compare gs gs' ≠ .no := by
  induction h generalizing gs' with
  | nil =>
    cases h'
    nofun
  | cons hrg _ ih =>
    cases h' with
    | cons hrg' hrest' =>
      rw [compare_cons, ne_eq, Verdict.min_eq_no, not_or]
      exact ⟨hpairs _ (.head _) _ _ hrg hrg',
        ih hrest' fun g hg => hpairs g (.tail _ hg)⟩

/-- Types that one type fits may match: it fitted the first already when it was unified with the
second. -/
theorem compare_of_fits (hs : vs.Sound) (hsteps : Steps vs vs')
    (h : Fits vs Eq (fun _ => True) r g) (h' : FitsAfter vs vs' r g') :
    compare [g] [g'] ≠ .no := by
  have hgrows := hsteps.grows hs
  induction g using Ty.componentInduction generalizing r g' with
  | node g ih =>
    cases h with
    | general _ i => exact compare_ne_no_of_outcome (outcome_var_left rfl)
    | @number _ hd v hv hheads hkind =>
      obtain ⟨u, hu, hkindu⟩ := hheads.number_later hgrows hv hkind
      refine compare_ne_no_of_outcome ?_
      cases h' with
      | general _ i => exact outcome_var_right rfl
      | number hw hheads' hkind' =>
        cases hu.unique hheads'
        exact outcome_var_left (Var.standsFor_of_common hw hkindu hkind')
      | node hheads' hnode' hagrees' _ _ =>
        cases hu.unique hheads'
        exact outcome_var_left (standsFor_of_agrees hv hnode' hkindu hagrees')
      | unknown _ hopen _ =>
        obtain ⟨i, hopen⟩ := hopen
        cases hheads.unique hopen
        cases v with
        | ty => cases hv
        | _ => cases hkind
    | node hheads hnode hagrees hlength hparts =>
      have hlater := hheads.later hgrows hnode
      cases h' with
      | general _ i => exact compare_ne_no_of_outcome (outcome_var_right rfl)
      | number hw hheads' hkind' =>
        cases hlater.unique hheads'
        exact compare_ne_no_of_outcome
          (outcome_var_right (standsFor_of_agrees hw hnode hkind' hagrees))
      | node hheads' _ hagrees' _ hparts' =>
        cases hlater.unique hheads'
        have hg := Ty.isVar_of_agrees hagrees hnode
        have hg' := Ty.isVar_of_agrees hagrees' hnode
        rcases outcome_of_agrees hg hg' (Ty.agrees_trans hnode hagrees hlength hagrees')
          with hopen | hnone
        · exact compare_ne_no_of_outcome hopen
        · rw [compare_singleton, hnone]
          exact compare_of_forall₂ hparts hparts' fun c hc _ _ => ih c (g.parts_sublist.subset hc)
      | unknown _ hopen _ =>
        obtain ⟨i, hopen⟩ := hopen
        cases hheads.unique hopen
        cases hnode
    | unknown hheads _ hg =>
      have hlater := hheads.later hgrows rfl
      refine compare_ne_no_of_outcome ?_
      cases h' with
      | general _ i => exact outcome_var_right rfl
      | @number _ _ w hw hheads' hkind' =>
        cases hlater.unique hheads'
        cases w with
        | ty => cases hw
        | _ => cases hkind'
      | node hheads' _ hagrees' _ _ =>
        cases hlater.unique hheads'
        rw [Ty.outcome, Ty.openVerdict?_node hg (Ty.isVar_of_agrees hagrees' rfl)]
        cases g' with
        | unknown => simp [Ty.isIndefinite]
        | _ => cases hagrees'
      | unknown _ hopen _ =>
        obtain ⟨i, hopen⟩ := hopen
        cases hheads.unique hopen

end Header

end TypeInference
