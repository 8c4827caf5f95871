import TypeInference.Trait.Select
import TypeInference.Proofs.Completeness

/-!
# Matching, one level at a time

Matching two types has three steps: a type that is open decides, then the heads, then the parts.
What the first two steps say is the `outcome`.

An assignment to the variables is more knowledge about them. What is decided at the head should stay
so, and it does with two exceptions. A numeric variable matches no unknown type and no projection,
but a numeric type may. And existential types are compared as they stand, also where variables in
them are open.
-/

namespace TypeInference

/-! ## Verdicts in turn -/

variable {t a b : Ty} {w u v : Var}

namespace Verdict

theorem min_assoc (u v w : Verdict) : (u.min v).min w = u.min (v.min w) := by
  cases u <;> cases v <;> cases w <;> rfl

theorem min_eq_no {v w : Verdict} : v.min w = .no ↔ v = .no ∨ w = .no := by
  cases v <;> cases w <;> simp [min]

section

variable {m : Type → Type} [Monad m] [LawfulMonad m]

theorem andM_yes (x : m Verdict) : andM x (pure .yes) = x := by
  unfold andM
  conv_rhs => rw [← bind_pure x]
  congr 1
  funext v
  cases v <;> simp [min]

theorem yes_andM (x : m Verdict) : andM (pure .yes) x = x := by
  unfold andM
  rw [pure_bind]
  conv_rhs => rw [← bind_pure x]
  show (x >>= fun w => pure (Verdict.yes.min w)) = _
  congr 1
  funext v
  cases v <;> rfl

theorem andM_andM (x y z : m Verdict) : andM (andM x y) z = andM x (andM y z) := by
  simp only [andM, bind_assoc]
  congr 1
  funext v
  cases v with
  | no => simp
  | maybe | yes =>
    simp only [bind_assoc, pure_bind]
    congr 1
    funext w
    cases w with
    | no => simp [min]
    | maybe | yes =>
      simp only [bind_assoc, pure_bind, ← min_assoc]
      rfl

end

end Verdict

/-! ## Heads and parts -/

namespace Ty

/-- The types inside a type that matching compares one by one. -/
def parts : Ty → List Ty
  | .ref t _ _ | .ptr t _ | .array t _ | .slice t => [t]
  | .tuple ts | .adt _ ts => ts
  | .fn ts t => ts ++ [t]
  | .dyn b => b.args
  | _ => []

/-- Whether matching two types goes on with their parts. -/
def agrees : Ty → Ty → Bool
  | .ref _ m _, .ref _ n _ | .ptr _ m, .ptr _ n => m = n
  | .array _ m, .array _ n => Vars.lengthsAgree m n
  | .slice _, .slice _ => true
  | .tuple as, .tuple bs => as.length = bs.length
  | .fn as _, .fn bs _ => as.length = bs.length
  | .adt i as, .adt j bs => i = j ∧ as.length = bs.length
  | .dyn a, .dyn b => a.trait = b.trait ∧ a.args.length = b.args.length
  | a, b => a == b

/-- What matching two types says before it looks at their parts, if that is enough. -/
def outcome (a b : Ty) : Option Verdict :=
  match a.openVerdict? b with
  | some v => some v
  | none => if a.agrees b then none else some .no

section

variable {m : Type → Type} [Monad m] [LawfulMonad m] {hole : ParamId → Ty → Option (m Verdict)}
  {a b : Ty}

theorem matchListM_singleton (a b : Ty) : matchListM hole [a] [b] = a.matchM hole b := by
  rw [matchListM, matchListM, Verdict.andM_yes]
  simp

theorem matchListM_append {as bs : List Ty} (h : as.length = bs.length) (a b : Ty) :
    matchListM hole (as ++ [a]) (bs ++ [b]) =
      Verdict.andM (matchListM hole as bs) (a.matchM hole b) := by
  induction as generalizing bs with
  | nil =>
    cases bs with
    | nil =>
      rw [List.nil_append, List.nil_append, matchListM_singleton]
      simp only [matchListM, Verdict.yes_andM]
    | cons => cases h
  | cons x xs ih =>
    cases bs with
    | nil => cases h
    | cons y ys =>
      simp only [List.cons_append, matchListM, ih (Nat.succ.inj h), Verdict.andM_andM]

omit [LawfulMonad m] in
theorem matchM_of_default
    (hmatch : a.matchM hole b = pure ((a.openVerdict? b).getD (.ofBool (a == b))))
    (hagrees : a.agrees b = (a == b)) (hparts : a.parts = [] ∨ (a == b) = false) :
    a.matchM hole b = match a.outcome b with
      | some v => pure v
      | none => matchListM hole a.parts b.parts := by
  rw [hmatch, outcome, hagrees]
  cases a.openVerdict? b with
  | some v => rfl
  | none =>
    rcases hparts with hparts | hne
    · rw [hparts]
      cases a == b <;> simp [matchListM, Verdict.ofBool]
    · simp [hne, Verdict.ofBool]

/-- Matching looks at the heads, and then at the parts. -/
theorem matchM_eq (hhole : ∀ p, a = .param p → hole p b = none) :
    a.matchM hole b = match a.outcome b with
      | some v => pure v
      | none => matchListM hole a.parts b.parts := by
  cases a with
  | param p =>
    refine matchM_of_default ?_ rfl (Or.inl rfl)
    rw [matchM, hhole p rfl]
  | ref | ptr | array | slice | tuple =>
    cases b <;> first
      | exact matchM_of_default rfl rfl (Or.inr rfl)
      | simp only [matchM, outcome, openVerdict?, agrees, parts, matchListM_singleton]
        split <;> simp_all
  | fn xs x =>
    cases b with
    | fn ys y =>
      simp only [matchM, outcome, openVerdict?, agrees, parts]
      by_cases hlength : xs.length = ys.length
      · simp [hlength, matchListM_append hlength]
      · simp [hlength]
    | _ => exact matchM_of_default rfl rfl (Or.inr rfl)
  | adt i xs =>
    cases b with
    | adt j ys =>
      simp only [matchM, outcome, openVerdict?, agrees, parts]
      by_cases hsame : i = j ∧ xs.length = ys.length
      · simp [hsame]
      · simp [hsame]
    | _ => exact matchM_of_default rfl rfl (Or.inr rfl)
  | dyn x =>
    obtain ⟨i, xs, _⟩ := x
    cases b with
    | dyn y =>
      obtain ⟨j, ys, _⟩ := y
      simp only [matchM, outcome, openVerdict?, agrees, parts]
      by_cases hsame : i = j ∧ xs.length = ys.length
      · simp [hsame]
      · simp [hsame]
    | _ => exact matchM_of_default rfl rfl (Or.inr rfl)
  | _ => exact matchM_of_default rfl rfl (Or.inl rfl)

end

end Ty

/-! ## Verdicts at the head -/

/-- A numeric variable stands for numeric types and variables. -/
theorem Var.eq_of_standsFor (hv : (Ty.var v).isTyVar = false) (ht : v.standsFor t = true) :
    (∃ k, t = .int k) ∨ (∃ k, t = .float k) ∨ ∃ w, t = .var w ∧ (Ty.var w).isTyVar = false := by
  cases t with
  | int k => exact .inl ⟨k, rfl⟩
  | float k => exact .inr (.inl ⟨k, rfl⟩)
  | var w =>
    refine .inr (.inr ⟨w, rfl, ?_⟩)
    cases w with
    | ty =>
      cases v with
      | ty => cases hv
      | _ => cases ht
    | _ => rfl
  | _ =>
    cases v with
    | ty => cases hv
    | _ => cases ht

theorem Var.standsFor_symm (h : v.standsFor (.var w) = false) (hw : (Ty.var w).isTyVar = false) :
    w.standsFor (.var v) = false ∧ (Ty.var v).isTyVar = false := by
  cases v with
  | ty => cases h
  | int | float =>
    cases w with
    | ty => cases hw
    | int | float => exact ⟨h, rfl⟩

theorem Var.standsFor_congr (hv : (Ty.var v).isTyVar = false) (hu : v.standsFor (.var u) = true) :
    (Ty.var u).isTyVar = false ∧ ∀ t, v.standsFor t = u.standsFor t := by
  cases v with
  | ty => cases hv
  | int | float => cases u <;> first | exact ⟨rfl, fun _ => rfl⟩ | cases hu

theorem Var.standsFor_trans (h : v.standsFor (.var w) = true) (ht : v.standsFor t = false) :
    w.standsFor t = false := by
  cases v with
  | ty => cases ht
  | _ => exact ((standsFor_congr rfl h).2 t).symm.trans ht

namespace Ty

/-- A type that stands for one that is not known. -/
def isIndefinite : Ty → Bool
  | .unknown | .projection .. => true
  | _ => false

def isExistential : Ty → Bool
  | .existential .. => true
  | _ => false

theorem openVerdict?_var (v : Var) (b : Ty) :
    (Ty.var v).openVerdict? b = some (if v.standsFor b || b.isTyVar then .maybe else .no) ∧
    b.openVerdict? (.var v) = some (if v.standsFor b || b.isTyVar then .maybe else .no) := by
  cases b with
  | var w => cases v <;> cases w <;> exact ⟨rfl, rfl⟩
  | _ => cases v <;> exact ⟨rfl, rfl⟩

theorem openVerdict?_node (ha : a.isVar = false) (hb : b.isVar = false) :
    a.openVerdict? b = if a.isIndefinite || b.isIndefinite then some .maybe else none := by
  cases a with
  | var => cases ha
  | _ =>
    cases b with
    | var => cases hb
    | _ => rfl

theorem outcome_var (v : Var) (b : Ty) :
    (Ty.var v).outcome b = some (if v.standsFor b || b.isTyVar then .maybe else .no) ∧
    b.outcome (.var v) = some (if v.standsFor b || b.isTyVar then .maybe else .no) := by
  simp only [outcome, openVerdict?_var, and_self]

theorem isVar_of_outcome_eq_none (h : a.outcome b = none) : a.isVar = false ∧ b.isVar = false := by
  constructor
  · cases a with
    | var v => simp [outcome_var] at h
    | _ => rfl
  · cases b with
    | var v => simp [outcome_var] at h
    | _ => rfl

/-- A number matches no type that is not of its kind. -/
theorem outcome_of_standsFor (ha : v.standsFor a = true) (hb : v.standsFor b = false)
    (hty : b.isTyVar = false) (hdefinite : b.isIndefinite = true → a.isVar = true) :
    a.outcome b = some .no ∧ b.outcome a = some .no := by
  rcases b.eq_var_or with ⟨w, rfl⟩ | hvar
  · obtain ⟨hv, hvty⟩ := Var.standsFor_symm hb hty
    have hw := Var.standsFor_disjoint hv hvty ha
    simp [outcome_var, hw]
  · cases a with
    | var w => simp [outcome_var, Var.standsFor_trans ha hb, hty]
    | int =>
      cases b with
      | var => cases hvar
      | unknown | projection => cases hdefinite rfl
      | int =>
        cases v with
        | float => cases ha
        | _ => cases hb
      | _ => exact ⟨rfl, rfl⟩
    | float =>
      cases b with
      | var => cases hvar
      | unknown | projection => cases hdefinite rfl
      | float =>
        cases v with
        | int => cases ha
        | _ => cases hb
      | _ => exact ⟨rfl, rfl⟩
    | _ =>
      cases v with
      | ty => cases hb
      | _ => cases ha

/-- Whether heads agree does not depend on the components. -/
theorem agrees_mapComponents {f h : Ty → Ty} (ha : a.isIndefinite = false)
    (hexistential : a.isExistential = false ∨ b.isExistential = false) :
    (a.mapComponents f).agrees (b.mapComponents h) = a.agrees b := by
  cases a with
  | unknown | projection => cases ha
  | existential =>
    cases b with
    | existential => rcases hexistential with h | h <;> cases h
    | _ => rfl
  | tuple | fn | adt | dyn =>
    cases b <;> first
      | rfl
      | simp [agrees, mapComponents, Bound.mapComponents]
  | _ => cases b <;> rfl

theorem parts_sublist (t : Ty) : t.parts.Sublist t.components := by
  cases t with
  | dyn b => exact List.sublist_append_left ..
  | existential | projection => exact List.nil_sublist _
  | _ => exact List.Sublist.refl _

theorem parts_mapComponents (f : Ty → Ty) (t : Ty) : (t.mapComponents f).parts = t.parts.map f := by
  cases t with
  | fn ts t => simp [mapComponents, parts]
  | _ => rfl

theorem isIndefinite_mapComponents (f : Ty → Ty) (t : Ty) :
    (t.mapComponents f).isIndefinite = t.isIndefinite := by
  cases t <;> rfl

/-! ## Under assignments -/

/-- Every variable is assigned a type that it may stand for. -/
def KeepsKinds (σ : Var → Ty) : Prop :=
  ∀ v : Var, v.standsFor (σ v) = true

/-- The numeric variables of a type stay variables. -/
def KeepsNumbers (σ : Var → Ty) (t : Ty) : Prop :=
  ∀ v ∈ t.vars, (Ty.var v).isTyVar = false → (σ v).isVar = true

/-- The existential types in a type stay as they are. -/
def KeepsExistentials (σ : Var → Ty) (t : Ty) : Prop :=
  ∀ u ∈ t.subterms, u.isExistential = true → u.assign σ = u

/-- The assignments `τ` to the first type and `σ` to the second do not decide what matching the
types does not take for open. -/
structure Harmless (τ σ : Var → Ty) (a b : Ty) : Prop where
  numbersRight : a.any isIndefinite = true → KeepsNumbers σ b
  numbersLeft : b.any isIndefinite = true → KeepsNumbers τ a
  existentials : a.any isExistential = true → b.any isExistential = true →
    KeepsExistentials τ a ∧ KeepsExistentials σ b

theorem any_self {p : Ty → Bool} (h : p t = true) : t.any p = true :=
  List.any_eq_true.2 ⟨t, mem_subterms_self t, h⟩

section

variable {σ τ : Var → Ty} {a b : Ty} {v : Var}

theorem standsFor_assign (hσ : KeepsKinds σ) (hb : v.standsFor b = false) (hty : b.isTyVar = false) :
    v.standsFor (b.assign σ) = false ∧ (b.assign σ).isTyVar = false := by
  rcases b.eq_var_or with ⟨w, rfl⟩ | hnode
  · rw [assign_var]
    exact Var.standsFor_disjoint hb hty (hσ w)
  · constructor
    · exact (standsFor_assign_node v hnode).trans hb
    · rw [assign_eq hnode]
      cases b with
      | var => cases hnode
      | _ => rfl

theorem isIndefinite_eq_false (hv : (Ty.var v).isTyVar = false) (ht : v.standsFor t = true) :
    t.isIndefinite = false := by
  rcases Var.eq_of_standsFor hv ht with ⟨k, rfl⟩ | ⟨k, rfl⟩ | ⟨w, rfl, -⟩ <;> rfl

theorem isIndefinite_assign (hσ : KeepsKinds σ) (hty : b.isTyVar = false) :
    (b.assign σ).isIndefinite = b.isIndefinite := by
  rcases b.eq_var_or with ⟨w, rfl⟩ | hnode
  · rw [assign_var, isIndefinite_eq_false hty (hσ w)]
    rfl
  · rw [assign_eq hnode, isIndefinite_mapComponents]

/-- A variable that matches nothing keeps to that. -/
theorem outcome_assign_var (hτ : KeepsKinds τ) (hσ : KeepsKinds σ)
    (hno : (v.standsFor b || b.isTyVar) = false)
    (hkeeps : b.any isIndefinite = true → KeepsNumbers τ (.var v)) :
    (τ v).outcome (b.assign σ) = some .no ∧ (b.assign σ).outcome (τ v) = some .no := by
  obtain ⟨hv, hty⟩ := Bool.or_eq_false_iff.1 hno
  obtain ⟨hv', hty'⟩ := standsFor_assign hσ hv hty
  refine outcome_of_standsFor (hτ v) hv' hty' ?_
  intro hindefinite
  rw [isIndefinite_assign hσ hty] at hindefinite
  refine hkeeps (any_self hindefinite) v (by simp) ?_
  cases v with
  | ty => cases hv
  | _ => rfl

/-- What is decided at the head of two types stays decided. -/
theorem outcome_assign_node (ha : a.isVar = false) (hb : b.isVar = false) (h : Harmless τ σ a b) :
    a.outcome b = some .maybe ∨ (a.assign τ).outcome (b.assign σ) = a.outcome b := by
  cases hopen : a.isIndefinite || b.isIndefinite with
  | true =>
    left
    rw [outcome, openVerdict?_node ha hb, hopen, if_pos rfl]
  | false =>
    right
    have hagrees : (a.assign τ).agrees (b.assign σ) = a.agrees b := by
      by_cases hexistential : a.isExistential = true ∧ b.isExistential = true
      · obtain ⟨hτ, hσ⟩ := h.existentials (any_self hexistential.1) (any_self hexistential.2)
        rw [hτ a (mem_subterms_self a) hexistential.1, hσ b (mem_subterms_self b) hexistential.2]
      · rw [assign_eq ha, assign_eq hb]
        refine agrees_mapComponents (Bool.or_eq_false_iff.1 hopen).1 ?_
        simpa [imp_iff_not_or] using hexistential
    have ha' : (a.assign τ).isVar = false := isVar_assign ha
    have hb' : (b.assign σ).isVar = false := isVar_assign hb
    rw [outcome, outcome, hagrees, openVerdict?_node ha hb, openVerdict?_node ha' hb',
      assign_eq ha, assign_eq hb, isIndefinite_mapComponents, isIndefinite_mapComponents]

/-- So it is with variables. -/
theorem outcome_assign (hτ : KeepsKinds τ) (hσ : KeepsKinds σ) (h : Harmless τ σ a b) :
    a.outcome b = some .maybe ∨ (a.assign τ).outcome (b.assign σ) = a.outcome b := by
  rcases a.eq_var_or with ⟨v, rfl⟩ | ha
  · cases hopen : v.standsFor b || b.isTyVar with
    | true =>
      left
      rw [(outcome_var v b).1, hopen, if_pos rfl]
    | false =>
      right
      rw [assign_var, (outcome_assign_var hτ hσ hopen h.numbersLeft).1, (outcome_var v b).1, hopen]
      rfl
  · rcases b.eq_var_or with ⟨v, rfl⟩ | hb
    · cases hopen : v.standsFor a || a.isTyVar with
      | true =>
        left
        rw [(outcome_var v a).2, hopen, if_pos rfl]
      | false =>
        right
        rw [assign_var, (outcome_assign_var hσ hτ hopen h.numbersRight).2, (outcome_var v a).2,
          hopen]
        rfl
    · exact outcome_assign_node ha hb h

end

end Ty

end TypeInference
