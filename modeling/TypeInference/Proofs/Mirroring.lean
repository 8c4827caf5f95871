import TypeInference.Proofs.CanonicalForms

/-!
# Unification from either side

Two runs of unification go side by side. The second has the types in the other order, and variables
replaced by what they stand for. What the first makes of a variable the second makes of what stands
for it.
-/

namespace TypeInference

open Relation

/-! ## Tasks from the other side -/

namespace Ty

variable {a b : Ty} {ρ : Var → Ty}

theorem lengthsAgree_comm (m n : Option Nat) : Vars.lengthsAgree m n = Vars.lengthsAgree n m := by
  cases m <;> cases n <;> simp [Vars.lengthsAgree, eq_comm]

/-- Components that face each other do so in the other order, after a change of all of them. -/
theorem faces?_swap (f : Ty → Ty) (a b : Ty) :
    (b.mapComponents f).faces? (a.mapComponents f) =
      (a.faces? b).map fun p => (p.2.map f, p.1.map f) := by
  cases a <;> cases b <;> first | rfl | skip
  all_goals simp only [mapComponents, faces?, Bound.mapComponents, List.length_map, lengthsAgree_comm]
  all_goals grind

theorem isNever_assign (h : a.isVar = false) : (a.assign ρ).isNever = a.isNever := by
  rw [assign_eq h]
  cases a <;> rfl

end Ty

/-- What is to be done with the types in the other order, after an assignment. -/
def Task.mirror (ρ : Var → Ty) : Task → Task
  | .link v t => .link v (t.assign ρ)
  | .decided ok => .decided ok
  | .components as bs => .components (bs.map (Ty.assign ρ)) (as.map (Ty.assign ρ))
  | .signature as bs r s =>
    .signature (bs.map (Ty.assign ρ)) (as.map (Ty.assign ρ)) (s.assign ρ) (r.assign ρ)

/-- One of the types is a variable. -/
def Task.isLink : Task → Bool
  | .link .. => true
  | _ => false

/-- The types in the other order, after an assignment. -/
def Problem.mirror (ρ : Var → Ty) : Problem → Problem
  | .pair a b => .pair (b.assign ρ) (a.assign ρ)
  | .list as bs => .list (bs.map (Ty.assign ρ)) (as.map (Ty.assign ρ))

namespace HasTask

variable {x y r s : Ty} {as bs : List Ty} {task task' : Task} {ρ σ : Var → Ty}

theorem isVar_eq_false (h : HasTask x y task) (hlink : task.isLink = false) :
    x.isVar = false ∧ y.isVar = false := by
  cases h with
  | left | right => cases hlink
  | settled hx hy | apart hx hy => exact ⟨hx, hy⟩
  | components _ _ hfaces => exact Ty.isVar_of_faces? hfaces
  | signature => exact ⟨rfl, rfl⟩

/-- The task of the types in the other order is the mirrored task, or none is left. -/
theorem mirror (h : HasTask x y task) (hlink : task.isLink = false) :
    HasTask (y.assign ρ) (x.assign ρ) (task.mirror ρ) ∨
      HasTask (y.assign ρ) (x.assign ρ) (.decided true) ∧ x.settles y = false ∧
        (x.assign ρ).same (y.assign ρ) = true := by
  obtain ⟨hx, hy⟩ := h.isVar_eq_false hlink
  have hx' : (x.assign ρ).isVar = false := Ty.isVar_assign hx
  have hy' : (y.assign ρ).isVar = false := Ty.isVar_assign hy
  have hfaces := Ty.faces?_swap (Ty.assign ρ) x y
  rw [← Ty.assign_eq hx, ← Ty.assign_eq hy] at hfaces
  have hsettles : (y.assign ρ).settles (x.assign ρ) = false →  x.settles y = false := by
    simp only [Ty.settles_eq_false_iff, Ty.isNever_assign hx, Ty.isNever_assign hy]
    refine fun h => ⟨Bool.eq_false_iff.2 fun hxy => ?_, h.2.2, h.2.1⟩
    exact Bool.eq_false_iff.1 h.1 (Ty.same_symm (Ty.same_assign ρ hxy))
  cases hsettled : (y.assign ρ).settles (x.assign ρ) with
  | true =>
    cases hxy : x.settles y with
    | true =>
      cases h.unique (.settled hx hy hxy)
      exact .inl (.settled hy' hx' hsettled)
    | false =>
      refine .inr ⟨.settled hy' hx' hsettled, rfl, Ty.same_symm ?_⟩
      have hnever := (Ty.settles_eq_false_iff.1 hxy).2
      contrapose hsettled
      simp_all [Ty.settles_eq_false_iff, Ty.isNever_assign]
  | false =>
    refine .inl ?_
    cases h with
    | left | right => cases hlink
    | settled _ _ hxy =>
      rw [hsettles hsettled] at hxy
      cases hxy
    | apart _ _ _ hnone => exact .apart hy' hx' hsettled (by rw [hfaces, hnone]; rfl)
    | components _ hfn hsome =>
      rw [hsome] at hfaces
      refine .components hsettled (fun ys r hfn' => ?_) hfaces
      rw [hfn'] at hfaces
      cases x with
      | var v => cases hx
      | fn as r => exact hfn as r rfl
      | _ =>
        rw [Ty.assign_eq rfl] at hfaces
        cases hfaces
    | signature _ hlength =>
      rw [Ty.assign_eq hx, Ty.assign_eq hy] at hsettled ⊢
      exact .signature hsettled (by simp [hlength])

end HasTask

namespace Vars

variable {vs vs₁ ws ws₁ : Vars} {v v' w w' r r' : Var} {t u h x x' : Ty} {ρ σ : Var → Ty}
  {D : Ty → Prop} {V : Var → Prop} {c : Except Fault Ty} {ok ok' : Bool}

/-! ## Classes -/

theorem SameClass.symm (h : vs.SameClass v w) : vs.SameClass w v := by
  obtain ⟨r, hv, hw⟩ := h
  exact ⟨r, hw, hv⟩

theorem SameClass.rootVar_eq (h : vs.SameClass v w) : vs.rootVar v = vs.rootVar w := by
  obtain ⟨r, hv, hw⟩ := h
  rw [hv, hw]

theorem SameClass.trans {u : Var} (h : vs.SameClass v w) (h' : vs.SameClass w u) :
    vs.SameClass v u := by
  obtain ⟨r, hw, hu⟩ := h'
  exact ⟨r, h.rootVar_eq.trans hw, hu⟩

theorem SameClass.valueOf_eq (h : vs.SameClass v w) : vs.valueOf v = vs.valueOf w := by
  obtain ⟨r, hv, hw⟩ := h
  rw [← valueOf_rootVar hv, valueOf_rootVar hw]

theorem SameClass.of_rootVar (h : vs.rootVar v = .ok w) : vs.SameClass v w :=
  ⟨w, h, rootVar_rootVar h⟩

theorem sameClass_iff (hw : vs.rootVar w = .ok w) : vs.SameClass v w ↔ vs.rootVar v = .ok w :=
  ⟨fun h => h.rootVar_eq.trans hw, .of_rootVar⟩

theorem SameClass.grows (hg : Grows vs vs₁) (h : vs.SameClass v w) : vs₁.SameClass v w := by
  obtain ⟨r, hv, hw⟩ := h
  exact hg.sameClass hv hw

theorem Coincide.grows (hg : Grows vs vs₁) (h : vs.Coincide t u) : vs₁.Coincide t u := by
  cases h with
  | refl => exact .refl t
  | member h => exact .member (h.grows hg)

theorem Coincide.heads (hcoincide : vs.Coincide t u) (hh : vs.Heads t h) : vs.Heads u h := by
  cases hcoincide with
  | refl => exact hh
  | member hclass =>
    cases hh with
    | node hnode => cases hnode
    | bound hvalue hh => exact .bound (hclass.valueOf_eq ▸ hvalue) hh
    | unbound hvalue hroot =>
      exact .unbound (hclass.valueOf_eq ▸ hvalue) (hclass.rootVar_eq ▸ hroot)

theorem Merges.satisfies_iff (h : vs.Merges v w vs₁) :
    Satisfies Eq σ vs₁ ↔ Satisfies Eq σ vs ∧ σ v = σ w := by
  constructor
  · exact fun hσ => ⟨h.grows.satisfies_before hσ, (hσ.root w v h.root_loser).symm⟩
  · exact fun hσ => h.satisfies eq_equivalence hσ.1 hσ.2

theorem Binds.satisfies_iff (h : vs.Binds v t vs₁) :
    Satisfies Eq σ vs₁ ↔ Satisfies Eq σ vs ∧ σ v = t.assign σ := by
  constructor
  · exact fun hσ => ⟨h.grows.satisfies_before hσ, hσ.value v t (h.value_self v h.isOpen.1)⟩
  · exact fun hσ => h.satisfies eq_equivalence hσ.1 hσ.2

/-- After a merge two variables are in one class if they were, or were in the merged ones. -/
theorem Merges.sameClass_iff (h : vs.Merges v w vs₁) {x y : Var} :
    vs₁.SameClass x y ↔ vs.SameClass x y ∨
      (vs.SameClass x v ∨ vs.SameClass x w) ∧ (vs.SameClass y v ∨ vs.SameClass y w) := by
  have hroot {x q : Var} (hx : vs.rootVar x = .ok q) :
      vs₁.rootVar x = .ok (if q = w then v else q) := by
    rw [h.root_eq, hx]
    rfl
  have hmerged {x : Var} (hx : vs.SameClass x v ∨ vs.SameClass x w) : vs₁.rootVar x = .ok v := by
    rcases hx with hx | hx
    · rw [hroot (hx.rootVar_eq.trans h.open_winner.1), ite_self]
    · rw [hroot (hx.rootVar_eq.trans h.open_loser.1), if_pos rfl]
  constructor
  · rintro ⟨r, hx, hy⟩
    have hcases {x : Var} (hx : vs₁.rootVar x = .ok r) :
        vs.rootVar x = .ok r ∨ r = v ∧ vs.SameClass x w := by
      rw [h.root_eq] at hx
      obtain ⟨q, hq, hr⟩ := Except.map_eq_ok hx
      split at hr
      · next heq => exact .inr ⟨hr.symm, heq ▸ .of_rootVar hq⟩
      · exact .inl (hr ▸ hq)
    rcases hcases hx with hx | ⟨rfl, hx⟩
    · rcases hcases hy with hy | ⟨rfl, hy⟩
      · exact .inl ⟨r, hx, hy⟩
      · exact .inr ⟨.inl (.of_rootVar hx), .inr hy⟩
    · rcases hcases hy with hy | ⟨-, hy⟩
      · exact .inr ⟨.inr hx, .inl (.of_rootVar hy)⟩
      · exact .inl (hx.trans hy.symm)
  · rintro (⟨r, hx, hy⟩ | ⟨hx, hy⟩)
    · exact ⟨_, hroot hx, hroot hy⟩
    · exact ⟨v, hmerged hx, hmerged hy⟩

theorem Binds.sameClass_iff (h : vs.Binds v t vs₁) {x y : Var} :
    vs₁.SameClass x y ↔ vs.SameClass x y := by
  simp only [SameClass, h.root_eq]

/-! ## Mirrored variables -/

/-- The variables of two runs, where `ws` has `ρ v` in the place of `v`. Both have the same solutions,
and treat the variables of which `V` holds alike, which are those that both have. What is combined
has the property `D`. -/
structure Mirrors (D : Ty → Prop) (V : Var → Prop) (ρ : Var → Ty) (vs ws : Vars) : Prop where
  sound : vs.Sound
  sound' : ws.Sound
  keeps : Keeps D vs
  range : ∀ v, D (.var v) → ∀ w ∈ (ρ v).vars, ws.Has w
  assigned : ∀ σ, Satisfies Eq σ vs → ∀ v, D (.var v) → (ρ v).assign σ = σ v
  unfolds : ∀ v, D (.var v) → (∃ t, vs.valueOf v = .ok (some t) ∧ ρ v = t.assign ρ) ∨
    ∃ w, ρ v = .var w ∧ V w ∧ vs.SameClass v w
  solutions : ∀ σ, Satisfies Eq σ vs ↔ Satisfies Eq σ ws
  classes : ∀ v w, V v → V w → (vs.SameClass v w ↔ ws.SameClass v w)
  value : ∀ v x, V v → vs.valueOf v = .ok x → ∃ y, ws.valueOf v = .ok y ∧
    Option.Rel (fun t u => ws.Coincide (t.assign ρ) u) x y

/-- A representative on the one side and one on the other of what both sides name. -/
def Linked (V : Var → Prop) (vs ws : Vars) (r r' : Var) : Prop :=
  ∃ w, V w ∧ vs.rootVar w = .ok r ∧ ws.rootVar w = .ok r'

/-- What a type stands for on the one side and on the other. -/
inductive Reflects (V : Var → Prop) (ρ : Var → Ty) (vs ws : Vars) : Ty → Ty → Prop
  | node {t u : Ty} : t.isVar = false → u = t.assign ρ → Reflects V ρ vs ws t u
  | root {r r' : Var} : Linked V vs ws r r' → Reflects V ρ vs ws (.var r) (.var r')

theorem Linked.standsFor (h : Linked V vs ws r r') (t : Ty) : r.standsFor t = r'.standsFor t := by
  obtain ⟨w, -, hr, hr'⟩ := h
  rw [standsFor_of_rootVar hr, standsFor_of_rootVar hr']

theorem Linked.standsFor_var (h : Linked V vs ws r r') (u : Var) :
    u.standsFor (.var r) = u.standsFor (.var r') := by
  obtain ⟨w, -, hr, hr'⟩ := h
  rw [standsFor_rootVar hr, standsFor_rootVar hr']

namespace Mirrors

variable (hm : Mirrors D V ρ vs ws)

include hm

/-- What a type stands for on the one side is reflected on the other. -/
theorem exists_heads (hh : vs.Heads t h) (ht : D t) :
    ∃ h', ws.Heads (t.assign ρ) h' ∧ Reflects V ρ vs ws h h' := by
  induction hh with
  | node hnode => exact ⟨_, .node (Ty.isVar_assign hnode), .node hnode rfl⟩
  | @bound v t h hvalue _ ih =>
    obtain ⟨h', hheads, hreflects⟩ := ih (hm.keeps.value v t ht hvalue)
    refine ⟨h', ?_, hreflects⟩
    rw [Ty.assign_var]
    rcases hm.unfolds v ht with ⟨t', ht', hρ⟩ | ⟨w, hρ, hw, hclass⟩
    · cases hvalue.symm.trans ht'
      rwa [hρ]
    · obtain ⟨y, hy, hrel⟩ := hm.value w _ hw (hclass.valueOf_eq ▸ hvalue)
      cases hrel with
      | some hcoincide =>
        rw [hρ]
        exact .bound hy (hcoincide.heads hheads)
  | @unbound v r hvalue hroot =>
    rw [Ty.assign_var]
    rcases hm.unfolds v ht with ⟨t, ht, -⟩ | ⟨w, hρ, hw, hclass⟩
    · cases hvalue.symm.trans ht
    · obtain ⟨y, hy, hrel⟩ := hm.value w _ hw (hclass.valueOf_eq ▸ hvalue)
      cases hrel with
      | none =>
        obtain ⟨r', hr'⟩ := exists_rootVar_of_valueOf hy
        rw [hρ]
        exact ⟨_, .unbound hy hr', .root ⟨w, hw, hclass.rootVar_eq ▸ hroot, hr'⟩⟩

theorem assign_eq (hr : Linked V vs ws r r') (hσ : Satisfies Eq σ vs) : σ r = σ r' := by
  obtain ⟨w, -, hr, hr'⟩ := hr
  rw [← hσ.root w r hr, ((hm.solutions σ).1 hσ).root w r' hr']

theorem sameClass_iff (hr : Linked V vs ws r r') (hv : V v) :
    vs.SameClass v r ↔ ws.SameClass v r' := by
  obtain ⟨w, hw, hr, hr'⟩ := hr
  have hclass : vs.SameClass w r := .of_rootVar hr
  have hclass' : ws.SameClass w r' := .of_rootVar hr'
  constructor
  · exact fun h => ((hm.classes v w hv hw).1 (h.trans hclass.symm)).trans hclass'
  · exact fun h => ((hm.classes v w hv hw).2 (h.trans hclass'.symm)).trans hclass

theorem next (hsteps : Steps vs vs₁) (hsteps' : Steps ws ws₁)
    (hkeeps : Keeps D vs₁) (hsolutions : ∀ σ, Satisfies Eq σ vs₁ ↔ Satisfies Eq σ ws₁)
    (hclasses : ∀ v w, V v → V w → (vs₁.SameClass v w ↔ ws₁.SameClass v w))
    (hvalue : ∀ v x, V v → vs₁.valueOf v = .ok x → ∃ y, ws₁.valueOf v = .ok y ∧
      Option.Rel (fun t u => ws.Coincide (t.assign ρ) u) x y) : Mirrors D V ρ vs₁ ws₁ where
  sound := hsteps.sound hm.sound
  sound' := hsteps'.sound hm.sound'
  keeps := hkeeps
  range v hv w hw := (hsteps'.has_iff hm.sound' w).2 (hm.range v hv w hw)
  assigned σ hσ := hm.assigned σ ((hsteps.grows hm.sound).satisfies_before hσ)
  unfolds v hv := by
    rcases hm.unfolds v hv with ⟨t, ht, hρ⟩ | ⟨w, hρ, hw, hclass⟩
    · exact .inl ⟨t, (hsteps.grows hm.sound).value _ t ht, hρ⟩
    · exact .inr ⟨w, hρ, hw, hclass.grows (hsteps.grows hm.sound)⟩
  solutions := hsolutions
  classes := hclasses
  value v x hv hx := by
    obtain ⟨y, hy, hrel⟩ := hvalue v x hv hx
    refine ⟨y, hy, ?_⟩
    cases hrel with
    | none => exact .none
    | some h => exact .some (h.grows (hsteps'.grows hm.sound'))

/-- Merging on both sides keeps them mirrored. -/
theorem merge (hv : Linked V vs ws v v') (hw : Linked V vs ws w w')
    (hDv : D (.var v)) (h : vs.Merges v w vs₁) (h' : ws.Merges w' v' ws₁) (hsteps : Steps vs vs₁)
    (hsteps' : Steps ws ws₁) : Mirrors D V ρ vs₁ ws₁ := by
  refine hm.next hsteps hsteps' (h.keeps hm.keeps hDv) (fun σ => ?_) (fun x y hx hy => ?_)
    fun x y hx hy => ?_
  · rw [h.satisfies_iff, h'.satisfies_iff, ← hm.solutions]
    refine and_congr_right fun hσ => ?_
    rw [hm.assign_eq hv hσ, hm.assign_eq hw hσ]
    exact eq_comm
  · rw [h.sameClass_iff, h'.sameClass_iff, hm.classes x y hx hy, hm.sameClass_iff hv hx,
      hm.sameClass_iff hw hx, hm.sameClass_iff hv hy, hm.sameClass_iff hw hy,
      or_comm (a := ws.SameClass x v'), or_comm (a := ws.SameClass y v')]
  · rw [h.value_eq] at hy
    rw [h'.value_eq]
    exact hm.value x y hx hy

theorem assign_assign (hcomponent : Ty.Inherited D) (hσ : Satisfies Eq σ vs) (ht : D t) :
    (t.assign ρ).assign σ = t.assign σ := by
  rw [Ty.assign_assign]
  exact Ty.assign_congr fun v hv => hm.assigned σ hσ v (Ty.of_mem_vars hcomponent ht hv)

/-- Binding on both sides keeps them mirrored. -/
theorem bind (hcomponent : Ty.Inherited D) (hv : Linked V vs ws v v')
    (hx : D x) (hcoincide : ws.Coincide (x.assign ρ) x') (h : vs.Binds v x vs₁)
    (h' : ws.Binds v' x' ws₁) (hsteps : Steps vs vs₁) (hsteps' : Steps ws ws₁) :
    Mirrors D V ρ vs₁ ws₁ := by
  refine hm.next hsteps hsteps' (h.keeps hm.keeps hx) (fun σ => ?_) (fun a b ha hb => ?_)
    fun a y ha hy => ?_
  · rw [h.satisfies_iff, h'.satisfies_iff, ← hm.solutions]
    refine and_congr_right fun hσ => ?_
    rw [hm.assign_eq hv hσ, ← hm.assign_assign hcomponent hσ hx,
      hcoincide.alike.assign σ ((hm.solutions σ).1 hσ)]
  · rw [h.sameClass_iff, h'.sameClass_iff]
    exact hm.classes a b ha hb
  · have hroot : vs.rootVar a = .ok v ↔ ws.rootVar a = .ok v' := by
      rw [← Vars.sameClass_iff h.isOpen.1, ← Vars.sameClass_iff h'.isOpen.1]
      exact hm.sameClass_iff hv ha
    by_cases ha' : vs.rootVar a = .ok v
    · rw [h.value_self a ha'] at hy
      cases hy
      exact ⟨_, h'.value_self a (hroot.1 ha'), .some hcoincide⟩
    · rw [h.value_other a ha'] at hy
      rw [h'.value_other a fun h => ha' (hroot.2 h)]
      exact hm.value a y ha hy

end Mirrors

/-! ## Mirrored links -/

/-- What becomes of two open variables, by their kinds. -/
structure LinksVars (vs : Vars) (v w : Var) (ok : Bool) (vs₁ : Vars) : Prop where
  merged : v.standsFor (.var w) = true → w.standsFor (.var v) = true →
    ok = true ∧ vs.Merges v w vs₁
  bound : v.standsFor (.var w) = true → w.standsFor (.var v) = false →
    ok = true ∧ vs.Binds v (.var w) vs₁
  boundBy : v.standsFor (.var w) = false → w.standsFor (.var v) = true →
    ok = true ∧ vs.Binds w (.var v) vs₁
  kept : v.standsFor (.var w) = false → w.standsFor (.var v) = false → ok = false ∧ vs₁ = vs

/-- Linking two open variables merges them or binds one to the other, by their kinds. -/
theorem Links.of_vars (h : Links c vs v (.var w) ok vs₁) : LinksVars vs v w ok vs₁ := by
  have hnumeric {u q : Var} (h : vs.Binds u (.var q) vs₁) (hq : (Ty.var q).isTyVar = false) :
      u.standsFor (.var q) = true ∧ q.standsFor (.var u) = false := by
    rcases valueOf_cases (h.value_self u h.isOpen.1) with ⟨_, _, rfl, -⟩ | ⟨_, _, -, ht⟩ | ⟨_, _, -, ht⟩
    · cases q with
      | ty i => cases hq
      | _ => exact ⟨rfl, rfl⟩
    · cases ht
    · cases ht
  cases h with
  | merged heq _ hmerges =>
    cases heq
    have hkind : v.standsFor (.var w) = true ∧ w.standsFor (.var v) = true := by
      rw [← standsFor_rootVar hmerges.root_loser v, standsFor_rootVar hmerges.root_loser w]
      constructor
      · cases v <;> rfl
      · cases w <;> rfl
    constructor <;> simp_all
  | bound _ hbinds hvar _ =>
    have hkind := hnumeric hbinds hvar
    constructor <;> simp_all
  | boundBy heq _ hbinds hvar =>
    cases heq
    have hkind := hnumeric hbinds hvar
    constructor <;> simp_all
  | cyclic hv hoccurs _ _ _ hvar =>
    subst hv
    cases w with
    | ty i => cases hvar
    | _ => cases hoccurs
  | kept hvar hkind =>
    have hkind' : w.standsFor (.var v) = false := by
      cases w with
      | ty i => cases hvar
      | _ => cases v <;> first | rfl | cases hkind
    constructor <;> simp_all [Ty.isNever]

/-- Whether the variable would occur in its own value. -/
def occursVar (vs : Vars) : Var → Ty → Except Fault Bool
  | .ty i, t => vs.occursIn i t
  | _, _ => .ok false

theorem Sound.eq_false_of_occursVar (hs : vs.Sound) (hσ : Satisfies Eq σ vs)
    (hnode : t.isVar = false) (hhas : ∀ w ∈ t.vars, vs.Has w) (heq : σ v = t.assign σ) {b : Bool}
    (h : vs.occursVar v t = .ok b) : b = false := by
  cases v with
  | ty i =>
    obtain ⟨found, hfound, hiff⟩ := hs.exists_occursIn i fun j hj => hhas _ hj
    cases hfound.symm.trans h
    have hσ' : Satisfies Same σ vs := hσ.mono fun a b (hab : a = b) => hab ▸ a.same_refl
    have hsame : Same (σ (.ty i)) (t.assign σ) := heq ▸ Ty.same_refl _
    exact Bool.eq_false_iff.2 fun hb => hσ'.not_occurs hnode hsame (hiff.1 hb)
  | _ =>
    cases h
    rfl

/-- What becomes of an open variable and a type that is no variable. -/
structure LinksNode (vs : Vars) (v : Var) (t : Ty) (ok : Bool) (vs₁ : Vars) : Prop where
  bound : v.standsFor t = true → ok = true ∧ ∃ b, vs.occursVar v t = .ok b ∧
    vs.Binds v (if b = true then .unknown else t) vs₁
  kept : v.standsFor t = false → ok = t.isNever ∧ vs₁ = vs

theorem Links.of_node (h : Links c vs v t ok vs₁) (ht : t.isVar = false) :
    LinksNode vs v t ok vs₁ := by
  cases h with
  | merged heq | boundBy heq =>
    subst heq
    cases ht
  | bound _ hbinds _ hoccurs =>
    have hkind : v.standsFor t = true := by
      rcases valueOf_cases (hbinds.value_self v hbinds.isOpen.1) with
        ⟨_, _, rfl, -⟩ | ⟨_, _, rfl, rfl⟩ | ⟨_, _, rfl, rfl⟩
      all_goals rfl
    have hoccurs : vs.occursVar v t = .ok false := by
      cases v with
      | ty i => exact hoccurs i rfl
      | _ => rfl
    refine ⟨fun _ => ⟨rfl, false, hoccurs, hbinds⟩, fun h => ?_⟩
    rw [hkind] at h
    cases h
  | cyclic hv hoccurs _ _ hbinds =>
    subst hv
    exact ⟨fun _ => ⟨rfl, true, hoccurs, hbinds⟩, fun h => by cases h⟩
  | kept _ hkind =>
    refine ⟨fun h => ?_, fun _ => ⟨rfl, rfl⟩⟩
    rw [hkind] at h
    cases h

namespace Mirrors

variable (hcomponent : Ty.Inherited D) (hm : Mirrors D V ρ vs ws)

include hcomponent hm

/-- Linked variables are linked on the other side as well. -/
theorem link_vars (hv : Linked V vs ws v v') (hw : Linked V vs ws w w')
    (hopen : vs.Open v) (hopen' : vs.Open w) (hDv : D (.var v)) (hDw : D (.var w))
    (h : Links c vs v (.var w) ok vs₁) (h' : Links c ws w' (.var v') ok' ws₁) :
    ok' = ok ∧ Mirrors D V ρ vs₁ ws₁ := by
  have hkind : w'.standsFor (.var v') = w.standsFor (.var v) := by
    rw [← hw.standsFor, hv.standsFor_var]
  have hkind' : v'.standsFor (.var w') = v.standsFor (.var w) := by
    rw [← hv.standsFor, hw.standsFor_var]
  have hsteps := h.steps
  have hsteps' := h'.steps
  have hvars := h.of_vars
  have hvars' := h'.of_vars
  -- What an open variable is replaced by is in the class of the other representative.
  have hcoincide {r r' : Var} (hr : Linked V vs ws r r') (hDr : D (.var r))
      (hopen : vs.Open r) : ws.Coincide ((Ty.var r).assign ρ) (.var r') := by
    rw [Ty.assign_var]
    rcases hm.unfolds r hDr with ⟨t, ht, -⟩ | ⟨q, hρ, hq, hclass⟩
    · cases hopen.2.symm.trans ht
    · rw [hρ]
      exact .member ((hm.sameClass_iff hr hq).1 hclass.symm)
  cases hl : v.standsFor (.var w) with
  | true =>
    cases hr : w.standsFor (.var v) with
    | true =>
      obtain ⟨rfl, hmerges⟩ := hvars.merged hl hr
      obtain ⟨rfl, hmerges'⟩ := hvars'.merged (hkind.trans hr) (hkind'.trans hl)
      exact ⟨rfl, hm.merge hv hw hDv hmerges hmerges' hsteps hsteps'⟩
    | false =>
      obtain ⟨rfl, hbinds⟩ := hvars.bound hl hr
      obtain ⟨rfl, hbinds'⟩ := hvars'.boundBy (hkind.trans hr) (hkind'.trans hl)
      exact ⟨rfl, hm.bind hcomponent hv hDw (hcoincide hw hDw hopen') hbinds hbinds' hsteps hsteps'⟩
  | false =>
    cases hr : w.standsFor (.var v) with
    | true =>
      obtain ⟨rfl, hbinds⟩ := hvars.boundBy hl hr
      obtain ⟨rfl, hbinds'⟩ := hvars'.bound (hkind.trans hr) (hkind'.trans hl)
      exact ⟨rfl, hm.bind hcomponent hw hDv (hcoincide hv hDv hopen) hbinds hbinds' hsteps hsteps'⟩
    | false =>
      obtain ⟨rfl, rfl⟩ := hvars.kept hl hr
      obtain ⟨rfl, rfl⟩ := hvars'.kept (hkind.trans hr) (hkind'.trans hl)
      exact ⟨rfl, hm⟩

/-- The occurs check gives the same answer on both sides, because they have the same solutions. -/
theorem occursVar_eq (hv : Linked V vs ws v v') (ht : D t)
    (hnode : t.isVar = false) {b b' : Bool} (h : vs.occursVar v t = .ok b)
    (h' : ws.occursVar v' (t.assign ρ) = .ok b')
    (hbinds : vs.Binds v (if b = true then .unknown else t) vs₁)
    (hbinds' : ws.Binds v' (if b' = true then .unknown else t.assign ρ) ws₁) (hs : vs₁.Sound)
    (hs' : ws₁.Sound) : b' = b := by
  have hfalse {σ : Var → Ty} (hσ : Satisfies Eq σ vs) (heq : σ v = t.assign σ) :
      b = false ∧ b' = false := by
    have hhas : ∀ w ∈ t.vars, vs.Has w := by
      intro w hw
      rcases hm.unfolds w (Ty.of_mem_vars hcomponent ht hw) with ⟨_, hvalue, -⟩ | ⟨_, -, -, _, hroot, -⟩
      · exact has_of_valueOf hvalue
      · exact has_of_rootVar hroot
    refine ⟨hm.sound.eq_false_of_occursVar hσ hnode hhas heq h, ?_⟩
    refine hm.sound'.eq_false_of_occursVar ((hm.solutions σ).1 hσ) (Ty.isVar_assign hnode) ?_ ?_ h'
    · intro w hw
      obtain ⟨u, hu, hw⟩ := Ty.mem_vars_assign.1 hw
      exact hm.range u (Ty.of_mem_vars hcomponent ht hu) w hw
    · rw [← hm.assign_eq hv hσ, heq, hm.assign_assign hcomponent hσ ht]
  cases b with
  | false =>
    obtain ⟨hσ, heq⟩ := hbinds.satisfies_iff.1 (hs.satisfies_extend .var)
    exact (hfalse hσ heq).2
  | true =>
    cases b' with
    | true => rfl
    | false =>
      obtain ⟨hσ, heq⟩ := hbinds'.satisfies_iff.1 (hs'.satisfies_extend .var)
      have hσ := (hm.solutions _).2 hσ
      refine (hfalse hσ ?_).1.symm
      rw [hm.assign_eq hv hσ, heq]
      exact hm.assign_assign hcomponent hσ ht

/-- What a variable is linked to is linked on the other side as well. -/
theorem link_node (hunknown : D .unknown) (hv : Linked V vs ws v v')
    (ht : D t) (hnode : t.isVar = false) (h : Links c vs v t ok vs₁)
    (h' : Links c ws v' (t.assign ρ) ok' ws₁) : ok' = ok ∧ Mirrors D V ρ vs₁ ws₁ := by
  have hkind : v'.standsFor (t.assign ρ) = v.standsFor t := by
    rw [← hv.standsFor, Ty.standsFor_assign_node v hnode]
  have hlinks := h.of_node hnode
  have hlinks' := h'.of_node (Ty.isVar_assign hnode)
  cases hk : v.standsFor t with
  | true =>
    obtain ⟨rfl, b, hoccurs, hbinds⟩ := hlinks.bound hk
    obtain ⟨rfl, b', hoccurs', hbinds'⟩ := hlinks'.bound (hkind.trans hk)
    obtain rfl := hm.occursVar_eq hcomponent hv ht hnode hoccurs hoccurs' hbinds hbinds'
      (h.steps.sound hm.sound) (h'.steps.sound hm.sound')
    refine ⟨rfl, hm.bind hcomponent hv ?_ ?_ hbinds hbinds' h.steps h'.steps⟩
    · split <;> assumption
    · split
      · exact .refl _
      · exact .refl _
  | false =>
    obtain ⟨rfl, rfl⟩ := hlinks.kept hk
    obtain ⟨rfl, rfl⟩ := hlinks'.kept (hkind.trans hk)
    refine ⟨?_, hm⟩
    rw [Ty.assign_eq hnode]
    cases t <;> rfl

end Mirrors

/-! ## Mirrored runs -/

variable {p : Problem} {a b y y' : Ty} {task : Task}

theorem Heads.same_assign (hσ : Satisfies Eq σ vs) (ha : vs.Heads a x) (hb : vs.Heads b y)
    (h : Same (a.assign σ) (b.assign σ)) : Same (x.assign σ) (y.assign σ) := by
  rwa [← ha.assign eq_equivalence hσ, ← hb.assign eq_equivalence hσ]

theorem Extends.eq_of_same (hσ : Extends .var σ vs) (hv : vs.Open v)
    (ht : ∀ w, t = .var w → vs.Open w) (h : Same (σ v) (t.assign σ)) : t = .var v := by
  rw [hσ.agrees v hv] at h
  rcases t.eq_var_or with ⟨w, rfl⟩ | hnode
  · rw [Ty.assign_var, hσ.agrees w (ht w rfl)] at h
    simpa [Same, Ty.same, eq_comm] using h
  · rw [Ty.assign_eq hnode] at h
    cases t <;> first | cases h | cases hnode

theorem Links.unchanged (h : Links c vs v (.var v) ok vs₁) : ok = true ∧ Unchanged vs vs₁ := by
  have hkind : v.standsFor (.var v) = true := by cases v <;> rfl
  obtain ⟨rfl, hmerges⟩ := h.of_vars.merged hkind hkind
  refine ⟨rfl, fun w => ?_, hmerges.value_eq⟩
  rw [hmerges.root_eq]
  cases vs.rootVar w with
  | error e => rfl
  | ok r =>
    by_cases hr : r = v <;> simp [Except.map, hr]

/-- Types that are the same as far as the variables are known need nothing, unless a type is compared
as a whole. -/
theorem Evaluates.unchanged (hcomponent : Ty.Inherited D)
    (h : Evaluates c p vs ok vs₁) (hσ : Extends .var σ vs) (hD : Keeps D vs) (hp : p.Each D D)
    (hsame : p.Holds fun a b => Same (a.assign σ) (b.assign σ))
    (hok : ok = true ∨ ∀ t, D t → t.isWhole = false) : ok = true ∧ Unchanged vs vs₁ := by
  induction h with
  | nil => exact ⟨rfl, .refl _⟩
  | cons _ _ ih ih' =>
    obtain ⟨ha, has⟩ := List.forall_mem_cons.1 hp.1
    obtain ⟨hb, hbs⟩ := List.forall_mem_cons.1 hp.2
    obtain ⟨hab, hrest⟩ := List.forall₂_cons.1 hsame
    rw [Bool.and_eq_true] at hok
    obtain ⟨rfl, hfirst⟩ := ih hσ hD ⟨ha, hb⟩ hab (hok.imp_left And.right)
    obtain ⟨rfl, hrest⟩ := ih' (hσ.unchanged hfirst) (hD.unchanged hfirst) ⟨has, hbs⟩ hrest
      (hok.imp_left And.left)
    exact ⟨rfl, hfirst.trans hrest⟩
  | link ha hb htask hlinks =>
    have hheads := ha.same_assign hσ.solved hb hsame
    cases htask with
    | left v =>
      obtain rfl := hσ.eq_of_same ha.isOpen (by rintro w rfl; exact hb.isOpen) hheads
      exact hlinks.unchanged
    | right w hnode =>
      obtain rfl := hσ.eq_of_same hb.isOpen (by rintro w rfl; cases hnode) (Ty.same_symm hheads)
      cases hnode
  | decided ha hb htask =>
    cases htask with
    | settled => exact ⟨rfl, .refl _⟩
    | apart hnode hnode' hsettled hfaces =>
      have hwhole := hok.resolve_left Bool.false_ne_true _ (ha.keeps hD hp.1)
      obtain ⟨as, bs, hfaces', -⟩ := Ty.exists_faces?_of_same hnode hnode' hwhole
        (Ty.settles_eq_false_iff.1 hsettled).1 (ha.same_assign hσ.solved hb hsame)
      cases hfaces.symm.trans hfaces'
  | components ha hb htask _ ih =>
    exact ih hσ hD
      (htask.each_components hcomponent hcomponent (ha.keeps hD hp.1) (hb.keeps hD hp.2))
      (htask.same_components (ha.same_assign hσ.solved hb hsame)) hok
  | signature ha hb htask _ _ ih ih' =>
    have heach := htask.each_signature hcomponent hcomponent (ha.keeps hD hp.1) (hb.keeps hD hp.2)
    have hsame := htask.same_signature (ha.same_assign hσ.solved hb hsame)
    obtain ⟨-, hfirst⟩ := ih hσ hD heach.1 hsame.1 (.inl rfl)
    obtain ⟨rfl, hrest⟩ := ih' (hσ.unchanged hfirst) (hD.unchanged hfirst) heach.2 hsame.2 hok
    exact ⟨rfl, hfirst.trans hrest⟩
  | refused ha hb htask _ ih =>
    exact ih hσ hD
      (htask.each_signature hcomponent hcomponent (ha.keeps hD hp.1) (hb.keeps hD hp.2)).1
      (htask.same_signature (ha.same_assign hσ.solved hb hsame)).1 hok

namespace Mirrors

theorem heads_node (hm : Mirrors D V ρ vs ws) (hh : vs.Heads t h) (ht : D t)
    (hnode : h.isVar = false) : ws.Heads (t.assign ρ) (h.assign ρ) := by
  obtain ⟨h', hheads, hreflects⟩ := hm.exists_heads hh ht
  cases hreflects with
  | node _ heq => exact heq ▸ hheads
  | root => cases hnode

theorem unchanged (hm : Mirrors D V ρ vs ws) (h : Unchanged vs vs₁) (hsteps : Steps vs vs₁) :
    Mirrors D V ρ vs₁ ws := by
  refine hm.next hsteps .refl (hm.keeps.unchanged h) (fun σ => ?_) (fun v w hv hw => ?_)
    fun v x hv hx => ?_
  · rw [← hm.solutions σ]
    exact ⟨h.symm.satisfies, h.satisfies⟩
  · rw [← hm.classes v w hv hw]
    simp only [SameClass, h.root]
  · exact hm.value v x hv (h.value v ▸ hx)

variable (hcomponent : Ty.Inherited D)

include hcomponent

/-- The other side does the same as the one, or else the types are the same to it and the one side
comes to nothing more. -/
theorem performs (hm : Mirrors D V ρ vs ws) (ha : vs.Heads a x) (hb : vs.Heads b y)
    (hp : (Problem.pair a b).Each D D) (htask : HasTask x y task) (hlink : task.isLink = false)
    (h : Evaluates c (.pair a b) vs ok vs₁)
    (h' : Evaluates c (.pair (b.assign ρ) (a.assign ρ)) ws ok' ws₁)
    (hok : ok = true ∨ (∀ t, D t → t.isWhole = false) ∨ ρ = .var) :
    Performs c (task.mirror ρ) ws ok' ws₁ ∨ ok' = ok ∧ Mirrors D V ρ vs₁ ws₁ := by
  obtain ⟨hx, hy⟩ := htask.isVar_eq_false hlink
  have ha' := hm.heads_node ha hp.1 hx
  have hb' := hm.heads_node hb hp.2 hy
  rcases htask.mirror hlink with htask' | ⟨htask', hsettled, hsame⟩
  · exact .inl (h'.performs hb' ha' htask')
  obtain ⟨rfl, rfl⟩ := h'.performs hb' ha' htask'
  refine .inr ?_
  have hok' : ok = true ∨ ∀ t, D t → t.isWhole = false := by
    refine hok.imp_right fun h => h.resolve_right fun hρ => ?_
    rw [hρ, Ty.assign_var_self, Ty.assign_var_self, (Ty.settles_eq_false_iff.1 hsettled).1] at hsame
    cases hsame
  have hσ := hm.sound.extends_extend .var
  have hsame' : Same (a.assign (vs.extend .var)) (b.assign (vs.extend .var)) := by
    have hsame := Ty.same_assign (vs.extend .var) hsame
    rwa [hm.assign_assign hcomponent hσ.solved (ha.keeps hm.keeps hp.1),
      hm.assign_assign hcomponent hσ.solved (hb.keeps hm.keeps hp.2),
      ← ha.assign eq_equivalence hσ.solved, ← hb.assign eq_equivalence hσ.solved] at hsame
  obtain ⟨rfl, hunchanged⟩ := h.unchanged hcomponent hσ hm.keeps hp hsame' hok'
  exact ⟨rfl, hm.unchanged hunchanged h.steps⟩

/-- Mirrored problems have the same verdict, and leave mirrored variables. -/
theorem evaluates (hunknown : D .unknown) (hm : Mirrors D V ρ vs ws)
    (h : Evaluates c p vs ok vs₁) (h' : Evaluates c (p.mirror ρ) ws ok' ws₁) (hp : p.Each D D)
    (hok : ok = true ∨ (∀ t, D t → t.isWhole = false) ∨ ρ = .var) :
    ok' = ok ∧ Mirrors D V ρ vs₁ ws₁ := by
  induction h generalizing ws ok' ws₁ with
  | nil =>
    cases h'
    exact ⟨rfl, hm⟩
  | cons _ _ ih ih' =>
    obtain ⟨ha, has⟩ := List.forall_mem_cons.1 hp.1
    obtain ⟨hb, hbs⟩ := List.forall_mem_cons.1 hp.2
    rw [Bool.and_eq_true] at hok
    cases h' with
    | cons hfirst hrest =>
      obtain ⟨rfl, hm⟩ := ih hm hfirst ⟨ha, hb⟩ (hok.imp_left And.right)
      obtain ⟨rfl, hm⟩ := ih' hm hrest ⟨has, hbs⟩ (hok.imp_left And.left)
      exact ⟨rfl, hm⟩
  | link ha hb htask hlinks =>
    obtain ⟨x', ha', hx⟩ := hm.exists_heads ha hp.1
    obtain ⟨y', hb', hy⟩ := hm.exists_heads hb hp.2
    have hDx := ha.keeps hm.keeps hp.1
    have hDy := hb.keeps hm.keeps hp.2
    cases htask with
    | left v =>
      cases hx with
      | node hnode => cases hnode
      | root hv =>
        cases hy with
        | node hnode heq =>
          subst heq
          exact hm.link_node hcomponent hunknown hv hDy hnode hlinks
            (h'.performs hb' ha' (.right _ (Ty.isVar_assign hnode)))
        | root hw =>
          exact hm.link_vars hcomponent hv hw ha.isOpen hb.isOpen hDx hDy hlinks
            (h'.performs hb' ha' (.left _ _))
    | right w hnode =>
      cases hx with
      | root => cases hnode
      | node _ heq =>
        subst heq
        cases hy with
        | node hnode => cases hnode
        | root hw =>
          exact hm.link_node hcomponent hunknown hw hDx hnode hlinks
            (h'.performs hb' ha' (.left _ _))
  | decided ha hb htask =>
    rcases hm.performs hcomponent ha hb hp htask rfl (.decided ha hb htask) h' hok with
      ⟨rfl, rfl⟩ | hdone
    · exact ⟨rfl, hm⟩
    · exact hdone
  | components ha hb htask hlist ih =>
    have heach := htask.each_components hcomponent hcomponent (ha.keeps hm.keeps hp.1)
      (hb.keeps hm.keeps hp.2)
    rcases hm.performs hcomponent ha hb hp htask rfl (.components ha hb htask hlist) h' hok with
      hlist' | hdone
    · exact ih hm hlist' heach hok
    · exact hdone
  | signature ha hb htask hlist hresult ih ih' =>
    have heach := htask.each_signature hcomponent hcomponent (ha.keeps hm.keeps hp.1)
      (hb.keeps hm.keeps hp.2)
    rcases hm.performs hcomponent ha hb hp htask rfl (.signature ha hb htask hlist hresult) h' hok with
      (⟨ws₂, hlist', hresult'⟩ | ⟨-, hlist'⟩) | hdone
    · obtain ⟨-, hm⟩ := ih hm hlist' heach.1 (.inl rfl)
      exact ih' hm hresult' heach.2 hok
    · cases (ih hm hlist' heach.1 (.inl rfl)).1
    · exact hdone
  | refused ha hb htask hlist ih =>
    have heach := htask.each_signature hcomponent hcomponent (ha.keeps hm.keeps hp.1)
      (hb.keeps hm.keeps hp.2)
    rcases hm.performs hcomponent ha hb hp htask rfl (.refused ha hb htask hlist) h' hok with
      (⟨ws₂, hlist', hresult'⟩ | ⟨rfl, hlist'⟩) | hdone
    · cases (ih hm hlist' heach.1 hok).1
    · exact ih hm hlist' heach.1 hok
    · exact hdone

end Mirrors

/-! ## Where the runs start -/

/-- Variables mirror themselves. -/
theorem Sound.mirrors_self (hs : vs.Sound) :
    Mirrors vs.Grounded (fun _ => True) .var vs vs where
  sound := hs
  sound' := hs
  keeps := keeps_grounded vs
  range v hv w hw := by
    cases List.mem_singleton.1 hw
    exact hv.has
  assigned _ _ v _ := Ty.assign_var ..
  unfolds v hv := by
    obtain ⟨r, hr⟩ := hs.exists_rootVar hv.has
    exact .inr ⟨v, rfl, trivial, r, hr, hr⟩
  solutions _ := .rfl
  classes _ _ _ _ := .rfl
  value v x _ hx := by
    refine ⟨x, hx, ?_⟩
    cases x with
    | none => exact .none
    | some t =>
      refine .some ?_
      rw [Ty.assign_var_self]
      exact .refl t

/-- Variables mirror themselves with every type resolved. -/
theorem Sound.mirrors_resolved (hs : vs.Sound) (hD : Keeps D vs) (hground : ∀ t, D t → vs.Grounded t) :
    Mirrors D vs.Open (vs.extend .var) vs vs where
  sound := hs
  sound' := hs
  keeps := hD
  range v hv w hw := by
    obtain ⟨r, hr⟩ := (hs.resolve_settles .var (.var v)).exists_ok (hground _ hv)
    have heq := hs.resolve_eq hr
    rw [Ty.assign_var] at heq
    exact has_of_rootVar (isOpen_of_mem_resolve hr (heq ▸ hw)).1
  assigned σ hσ v hv := by
    obtain ⟨r, hr⟩ := (hs.resolve_settles .var (.var v)).exists_ok (hground _ hv)
    have heq := hs.resolve_eq hr
    have hassign := hσ.resolve (fun v _ => (Ty.assign_var ..).symm) hr
    rw [Ty.assign_var] at heq hassign
    rw [hassign, heq]
  unfolds v hv := by
    have hsolved := hs.satisfies_extend .var
    obtain ⟨r, hr⟩ := hs.exists_rootVar (hground _ hv).has
    obtain ⟨x, hx⟩ := exists_valueOf_of_rootVar hr
    cases x with
    | some t => exact .inl ⟨t, hx, hsolved.value v t hx⟩
    | none =>
      have hopen : vs.Open r := ⟨rootVar_rootVar hr, (valueOf_rootVar hr).trans hx⟩
      exact .inr ⟨r, (hsolved.root v r hr).trans (extend_of_open hopen), hopen, .of_rootVar hr⟩
  solutions _ := .rfl
  classes _ _ _ _ := .rfl
  value v x hv hx := by
    cases hv.2.symm.trans hx
    exact ⟨_, hx, .none⟩

/-- Both orders of two types have the same verdict, and lead to variables that mirror each other. -/
theorem Sound.exists_combine_comm (hs : vs.Sound) (ha : vs.Grounded a) (hb : vs.Grounded b) :
    ∃ ok vs₁ ws₁, combine a b vs = .ok (ok, vs₁) ∧ combine b a vs = .ok (ok, ws₁) ∧
      Mirrors vs.Grounded (fun _ => True) .var vs₁ ws₁ := by
  obtain ⟨ok, vs₁, hrun⟩ := hs.exists_combine ha hb
  obtain ⟨ok', ws₁, hrun'⟩ := hs.exists_combine hb ha
  have h' := derives_combineOr tolerant_unknown b a hs hrun'
  rw [← Ty.assign_var_self a, ← Ty.assign_var_self b] at h'
  obtain ⟨rfl, hm⟩ := hs.mirrors_self.evaluates Grounded.component
    (grounded_iff.2 fun _ hv => by cases hv) (derives_combineOr tolerant_unknown a b hs hrun) h'
    ⟨ha, hb⟩ (.inr (.inr rfl))
  exact ⟨ok', vs₁, ws₁, hrun, hrun', hm⟩

end Vars

open Infer

/-- At all times two types can be combined in either order. The verdict is the same, the same
variables are in one class afterwards, and the classes have the same values, except that a value
that is a variable may be another one of its class. -/
theorem History.combine_comm {scope : Scope} {v : Versions State Mark} {a b : Ty}
    (h : History (Walk.Works scope) v) (ha : v.current.vars.Grounded a)
    (hb : v.current.vars.Grounded b) :
    ∃ ok vs ws, combine a b scope v.current = .ok (ok, { v.current with vars := vs }) ∧
      combine b a scope v.current = .ok (ok, { v.current with vars := ws }) ∧
      (∀ x y, vs.SameClass x y ↔ ws.SameClass x y) ∧
      ∀ x value, vs.valueOf x = .ok value →
        ∃ value', ws.valueOf x = .ok value' ∧ Option.Rel ws.Coincide value value' := by
  have hs := h.wellFormed.vars
  obtain ⟨ok, vs, ws, hrun, hrun', hm⟩ := hs.exists_combine_comm ha hb
  refine ⟨ok, vs, ws, combine_run hrun, combine_run hrun', fun x y => hm.classes x y trivial trivial,
    fun x value hvalue => ?_⟩
  have hvalue := hm.value x value trivial hvalue
  simpa only [Ty.assign_var_self] using hvalue

/-- Two variables are merged, and the first of either order represents both. -/
theorem History.combine_comm_vars : ∃ v vs ws, History (Walk.Works .bare) v ∧
    combine (.var (.ty 0)) (.var (.ty 1)) .bare v.current =
      .ok (true, { v.current with vars := vs }) ∧ vs.rootVar (.ty 0) = .ok (.ty 0) ∧
    combine (.var (.ty 1)) (.var (.ty 0)) .bare v.current =
      .ok (true, { v.current with vars := ws }) ∧ ws.rootVar (.ty 0) = .ok (.ty 1) ∧
    ∀ x y, vs.SameClass x y ↔ ws.SameClass x y := by
  have hstart := History.atStart .bare
  have htwo := (hstart.operate .freshTy rfl).operate .freshTy rfl
  obtain ⟨v, s, s', h, hvars, hrun, hroot, hrun', hroot'⟩ : ∃ v s s', History (Walk.Works .bare) v ∧
      (v.current.vars.valueOf (.ty 0) = .ok none ∧ v.current.vars.valueOf (.ty 1) = .ok none) ∧
      combine (.var (.ty 0)) (.var (.ty 1)) .bare v.current = .ok (true, s) ∧
      s.vars.rootVar (.ty 0) = .ok (.ty 0) ∧
      combine (.var (.ty 1)) (.var (.ty 0)) .bare v.current = .ok (true, s') ∧
      s'.vars.rootVar (.ty 0) = .ok (.ty 1) :=
    ⟨_, _, _, htwo, ⟨rfl, rfl⟩, rfl, rfl, rfl, rfl⟩
  obtain ⟨ok, vs, ws, hcombine, hcombine', hclasses, -⟩ := h.combine_comm
    (Vars.grounded_of_unbound hvars.1) (Vars.grounded_of_unbound hvars.2)
  cases hcombine.symm.trans hrun
  cases hcombine'.symm.trans hrun'
  exact ⟨v, vs, ws, h, hcombine, hroot, hcombine', hroot', hclasses⟩

/-- Two types and their resolved forms. Where no projection and no opaque type without a declaration
is left in these, the verdict on the types is the verdict on the forms, and types with the same form
agree. A type that is compared as a whole is compared as it stands, with the variables that have
values in it: the forms agree if the types do, but not the other way round. -/
theorem History.combine_resolved {scope : Scope} {v : Versions State Mark} {a b : Ty}
    (h : History (Walk.Works scope) v) (ha : v.current.vars.Grounded a)
    (hb : v.current.vars.Grounded b) :
    ∃ ra rb ok ok' s s', resolve a scope v.current = .ok (ra, v.current) ∧
      resolve b scope v.current = .ok (rb, v.current) ∧
      combine a b scope v.current = .ok (ok, s) ∧ combine ra rb scope v.current = .ok (ok', s') ∧
      (ok = true → ok' = true) ∧
      ((∀ t ∈ ra.subterms ++ rb.subterms, t.isWhole = false) →
        ok = ok' ∧ (ra.same rb = true → ok = true)) := by
  have hs := h.wellFormed.vars
  obtain ⟨ra, hra⟩ := (hs.resolve_settles .var a).exists_ok ha
  obtain ⟨rb, hrb⟩ := (hs.resolve_settles .var b).exists_ok hb
  have heqa := hs.resolve_eq hra
  have heqb := hs.resolve_eq hrb
  -- The forms mirror the types in the other order.
  obtain ⟨ok, vs, ws, hab, hba, -⟩ := hs.exists_combine_comm ha hb
  have hground {u r : Ty} (hr : v.current.vars.resolve u = .ok r) : v.current.vars.Grounded r :=
    Vars.grounded_of_resolve (Vars.Resolved.resolve hs fun _ => Vars.isOpen_of_mem_resolve hr)
  obtain ⟨ok', us, hforms⟩ := hs.exists_combine (hground hra) (hground hrb)
  have hderives := Vars.derives_combineOr Vars.tolerant_unknown b a hs hba
  have hderives' := Vars.derives_combineOr Vars.tolerant_unknown ra rb hs hforms
  rw [heqa, heqb] at hderives'
  refine ⟨ra, rb, ok, ok', _, _, readVars_of_ok hra, readVars_of_ok hrb, combine_run hab,
    combine_run hforms, fun hok => ?_, fun hwhole => ?_⟩
  · have hm := hs.mirrors_resolved (Vars.keeps_grounded _) fun _ ht => ht
    exact (hm.evaluates Vars.Grounded.component (Vars.grounded_iff.2 fun _ hv => by cases hv)
      hderives hderives' ⟨hb, ha⟩ (.inl hok)).1.trans hok
  · have hp : Vars.Superficial fun t => !t.isWhole := by
      refine ⟨fun t f => ?_, rfl, fun _ => rfl⟩
      cases t <;> rfl
    let D := Vars.ResolvesTo (fun t => !t.isWhole) v.current.vars
    have hD : (Problem.pair b a).Each D D :=
      ⟨hs.resolvesTo hrb fun t ht => by rw [hwhole t (List.mem_append_right _ ht)]; rfl,
        hs.resolvesTo hra fun t ht => by rw [hwhole t (List.mem_append_left _ ht)]; rfl⟩
    have hwhole' : ∀ t, Vars.ResolvesTo (fun t => !t.isWhole) v.current.vars t → t.isWhole = false :=
      fun t ht => Bool.not_inj (ht.holds hp)
    have hkeeps := Vars.keeps_resolvesTo (p := fun t => !t.isWhole) hs
    have hm := hs.mirrors_resolved hkeeps fun _ ht => ht.1
    refine ⟨(hm.evaluates (fun ht hu => ht.component hp hu) (Vars.resolvesTo_unknown hp) hderives
      hderives' hD (.inr (.inl hwhole'))).1.symm, fun hsame => ?_⟩
    rw [heqa, heqb] at hsame
    exact (hderives.unchanged (fun ht hu => ht.component hp hu) (hs.extends_extend .var) hkeeps hD
      (Ty.same_symm hsame) (.inr hwhole')).1

/-- A variable that is bound to a number, and the slices of it, agree with slices of that number. -/
theorem History.combine_resolved_slice : ∃ v s s', History (Walk.Works .bare) v ∧
    resolve (.slice (.var (.ty 0))) .bare v.current = .ok (.slice (.int .u8), v.current) ∧
    combine (.slice (.var (.ty 0))) (.slice (.int .u8)) .bare v.current = .ok (true, s) ∧
    combine (.slice (.int .u8)) (.slice (.int .u8)) .bare v.current = .ok (true, s') := by
  have hstart := History.atStart .bare
  have hbound := (hstart.operate .freshTy rfl).operate (.combine (.var (.ty 0)) (.int .u8)) rfl
  obtain ⟨v, h, hresolve, hresolve'⟩ : ∃ v, History (Walk.Works .bare) v ∧
      v.current.vars.resolve (.slice (.var (.ty 0))) = .ok (.slice (.int .u8)) ∧
      v.current.vars.resolve (.slice (.int .u8)) = .ok (.slice (.int .u8)) :=
    ⟨_, hbound, rfl, rfl⟩
  obtain ⟨ra, rb, ok, ok', s, s', hra, hrb, hrun, hrun', -, hverdict⟩ := h.combine_resolved
    (Vars.grounded_of_resolve hresolve) (Vars.grounded_of_resolve hresolve')
  cases hra.symm.trans (readVars_of_ok hresolve)
  cases hrb.symm.trans (readVars_of_ok hresolve')
  obtain ⟨rfl, hsame⟩ := hverdict (by decide)
  cases hsame rfl
  exact ⟨v, s, s', h, hra, hrun, hrun'⟩

/-- The output of a variable is not the output of the number that it is bound to, though both resolve
to the same projection. -/
theorem History.bound_projection_apart : ∃ v s s', History (Walk.Works .bare) v ∧
    resolve (.projection (.var (.ty 0)) ⟨0⟩ [] "Out") .bare v.current =
      .ok (.projection (.int .u8) ⟨0⟩ [] "Out", v.current) ∧
    combine (.projection (.var (.ty 0)) ⟨0⟩ [] "Out") (.projection (.int .u8) ⟨0⟩ [] "Out") .bare
      v.current = .ok (false, s) ∧
    combine (.projection (.int .u8) ⟨0⟩ [] "Out") (.projection (.int .u8) ⟨0⟩ [] "Out") .bare
      v.current = .ok (true, s') := by
  have hstart := History.atStart .bare
  have hbound := (hstart.operate .freshTy rfl).operate (.combine (.var (.ty 0)) (.int .u8)) rfl
  exact ⟨_, _, _, hbound, rfl, rfl, rfl⟩

end TypeInference
