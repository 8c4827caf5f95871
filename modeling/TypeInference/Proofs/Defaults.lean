import TypeInference.Infer.Finish
import TypeInference.Proofs.Evolution
import TypeInference.Proofs.Solutions

/-!
# Default widths

Finishing goes through the recorded types and gives the numeric variables that are left in them
their default. Which type comes first does not matter: a variable that one type leaves open is open
in the others as well, until it gets its default, and that is the same for all variables of a kind.
-/

namespace TypeInference

/-! ## Variables of resolved types -/

namespace Vars

variable {vs vs' vs'' : Vars} {v w : Var} {t r : Ty} {xs ys : List Var} {openVar : Var → Ty}

theorem open_of_mem_resolveVar {n : Nat} (hr : vs.resolveVar openVar n v = .ok r) (hw : w ∈ r.vars) :
    ∃ u, vs.Open u ∧ w ∈ (openVar u).vars := by
  induction n generalizing v r with
  | zero => cases hr
  | succ n ih =>
    rcases resolveVar_eq_ok hr with ⟨u, hheads, rfl⟩ | ⟨h, σ, -, -, hσ, rfl⟩
    · exact ⟨u, hheads.isOpen, hw⟩
    · obtain ⟨u, hu, hw⟩ := Ty.mem_vars_assign.1 hw
      exact ih (hσ u hu) hw

/-- The variables of a resolved type come from open ones. -/
theorem open_of_mem_resolve (hr : t.mapM (vs.resolveNode openVar) = .ok r) (hw : w ∈ r.vars) :
    ∃ u, vs.Open u ∧ w ∈ (openVar u).vars := by
  rw [resolveNode_eq] at hr
  obtain ⟨σ, hσ, rfl⟩ := Ty.mapM_onVar_eq_ok_iff.1 hr
  obtain ⟨u, hu, hw⟩ := Ty.mem_vars_assign.1 hw
  exact open_of_mem_resolveVar (hσ u hu) hw

/-- Resolving is assigning what the variables say. -/
theorem Sound.resolve_eq (hs : vs.Sound) (hr : t.mapM (vs.resolveNode openVar) = .ok r) :
    r = t.assign (vs.extend openVar) := by
  have hassign : t.assign (vs.extend openVar) = r.assign .var := by
    refine (hs.satisfies_extend openVar).resolve (fun v hv => ?_) hr
    rw [extend_of_open hv, Ty.assign_var_self]
  rw [hassign, Ty.assign_var_self]

theorem isOpen_of_mem_resolve (hr : vs.resolve t = .ok r) (hw : w ∈ r.vars) : vs.Open w := by
  obtain ⟨u, hu, hw⟩ := open_of_mem_resolve hr hw
  simp only [Ty.vars_var, List.mem_singleton] at hw
  exact hw ▸ hu

end Vars

/-! ## Filling tables -/

/-- The cell with `x` for its value, unless it has one. -/
def Cell.orDefault {α : Type} (x : α) (c : Cell α) : Cell α :=
  { c with value := c.value.or (some x) }

namespace Table

variable {α : Type} {t t' t'' : Table α} {x y : α} {P Q : Nat → Prop} {v i : Nat}

/-- Table `t'` is `t`, where the variables of which `P` holds have the value `x` if they had
none. -/
structure Filled (t : Table α) (x : α) (P : Nat → Prop) (t' : Table α) : Prop where
  filled : ∀ i, P i → t'.cell? i = (t.cell? i).map (·.orDefault x)
  kept : ∀ i, ¬ P i → t'.cell? i = t.cell? i

theorem Filled.refl (hP : ∀ i, ¬ P i) : Filled t x P t :=
  ⟨fun i hi => absurd hi (hP i), fun _ _ => rfl⟩

/-- Filling twice is filling once. -/
theorem Filled.trans (h : Filled t x P t') (h' : Filled t' x Q t'') :
    Filled t x (fun i => P i ∨ Q i) t'' := by
  have hidem (c : Cell α) : (c.orDefault x).orDefault x = c.orDefault x := by
    rcases c with ⟨parent, _ | value⟩ <;> rfl
  constructor
  · intro i hi
    by_cases hQ : Q i
    · by_cases hP : P i
      · rw [h'.filled i hQ, h.filled i hP, Option.map_map]
        exact congrArg (Option.map · _) (funext hidem)
      · rw [h'.filled i hQ, h.kept i hP]
    · rw [h'.kept i hQ, h.filled i (hi.resolve_right hQ)]
  · intro i hi
    rw [h'.kept i fun hQ => hi (Or.inr hQ), h.kept i fun hP => hi (Or.inl hP)]

theorem Filled.congr (h : Filled t x P t') (hPQ : ∀ i, P i ↔ Q i) : Filled t x Q t' :=
  ⟨fun i hi => h.filled i ((hPQ i).2 hi), fun i hi => h.kept i fun hP => hi ((hPQ i).1 hP)⟩

theorem Filled.stored (h : Filled t x P t') (hP : P i) {c : Cell α} (hc : t.cell? i = some c) :
    t'.stored? i = some (c.value.getD x) := by
  rw [stored?, h.filled i hP, hc]
  rcases c with ⟨parent, _ | value⟩ <;> rfl

/-- Without an open snapshot, the variables that are filled decide the table. -/
theorem Filled.unique (h : Filled t x P t') (h' : Filled t x P t'')
    (hlog : t'.cells.log = t''.cells.log) (hdepth : t'.cells.depth = t''.cells.depth) :
    t' = t'' := by
  have hcell (i : Nat) : t'.cells.current[i]? = t''.cells.current[i]? := by
    by_cases hP : P i
    · exact (h.filled i hP).trans (h'.filled i hP).symm
    · exact (h.kept i hP).trans (h'.kept i hP).symm
  obtain ⟨⟨current, log, depth⟩⟩ := t'
  obtain ⟨⟨current', log', depth'⟩⟩ := t''
  cases hlog
  cases hdepth
  cases Array.ext_getElem? hcell
  rfl

theorem find_of_root (h : t.root v = .ok v) : t.find v = .ok (v, t) := by
  obtain ⟨c, hcell, hparent⟩ := (leads_of_rootWithin h).root_cell
  rw [find, findWithin, hcell]
  simp only [hparent, if_pos]

theorem bind_of_unbound [BEq α] (h : t.root v = .ok v) (hv : t.stored? v = none) :
    t.bind v x = .ok (t.update v ({ · with value := some x })) := by
  rw [bind, find_of_root h]
  show Except.ok (if t.stored? v == some x then t else _) = _
  rw [hv]
  rfl

/-- Binding an open variable fills it. -/
theorem filled_of_bind [BEq α] (h : t.root v = .ok v) (hv : t.stored? v = none)
    (hbind : t.bind v x = .ok t') : Filled t x (· = v) t' := by
  rw [bind_of_unbound h hv] at hbind
  cases hbind
  constructor
  · rintro i rfl
    rw [cell?_update, if_pos rfl]
    obtain ⟨c, hcell, -⟩ := (leads_of_rootWithin h).root_cell
    rw [stored?, hcell, Option.bind_some] at hv
    rw [hcell, Option.map_some, Option.map_some, Cell.orDefault, hv]
    rfl
  · intro i hi
    rw [cell?_update, if_neg fun h => hi h.symm]

theorem filled_self (hv : t.stored? v = some y) : Filled t x (· = v) t := by
  constructor
  · rintro i rfl
    rcases hcell : t.cell? i with _ | c
    · rfl
    · rw [stored?, hcell, Option.bind_some] at hv
      rw [Option.map_some, Cell.orDefault, hv]
      obtain ⟨parent, value⟩ := c
      cases hv
      rfl
  · exact fun _ _ => rfl

end Table

/-! ## Defaulting variables -/

namespace Vars

variable {vs vs' vs'' : Vars} {v w : Var} {t r : Ty} {xs ys : List Var} {k : Kind} {i : Nat}

/-- Variables `vs'` are `vs`, where the numeric variables among `xs` have their default if they had
no value. -/
structure Defaults (vs : Vars) (xs : List Var) (vs' : Vars) : Prop where
  steps : Steps vs vs'
  root_eq : ∀ v, vs'.rootVar v = vs.rootVar v
  tys : vs'.tys = vs.tys
  ints : vs.ints.Filled .default (fun i => .int i ∈ xs) vs'.ints
  floats : vs.floats.Filled .default (fun i => .float i ∈ xs) vs'.floats

namespace Defaults

theorem refl (vs : Vars) : vs.Defaults [] vs where
  steps := .refl
  root_eq _ := rfl
  tys := rfl
  ints := .refl fun _ => List.not_mem_nil
  floats := .refl fun _ => List.not_mem_nil

theorem trans (h : vs.Defaults xs vs') (h' : vs'.Defaults ys vs'') :
    vs.Defaults (xs ++ ys) vs'' where
  steps := h.steps.trans h'.steps
  root_eq v := (h'.root_eq v).trans (h.root_eq v)
  tys := h'.tys.trans h.tys
  ints := (h.ints.trans h'.ints).congr fun _ => List.mem_append.symm
  floats := (h.floats.trans h'.floats).congr fun _ => List.mem_append.symm

theorem congr (h : vs.Defaults xs vs') (hints : ∀ i, .int i ∈ xs ↔ .int i ∈ ys)
    (hfloats : ∀ i, .float i ∈ xs ↔ .float i ∈ ys) : vs.Defaults ys vs' :=
  { h with ints := h.ints.congr hints, floats := h.floats.congr hfloats }

end Defaults

/-- What an open variable of the kind stands for in the end. -/
def Kind.default : (k : Kind) → k.Value
  | .ty => .unknown
  | .int => IntTy.default
  | .float => FloatTy.default

theorem defaults_put (hk : k ≠ .ty) {tbl : Table k.Value} (hsteps : Steps vs (k.put vs tbl))
    (hroot : ∀ v, (k.put vs tbl).rootVar v = vs.rootVar v)
    (h : (k.table vs).Filled k.default (· = i) tbl) : vs.Defaults [k.var i] (k.put vs tbl) := by
  cases k with
  | ty => exact absurd rfl hk
  | int =>
    refine ⟨hsteps, hroot, rfl, h.congr fun j => ?_, .refl fun j => ?_⟩ <;> simp [Kind.var]
  | float =>
    refine ⟨hsteps, hroot, rfl, .refl fun j => ?_, h.congr fun j => ?_⟩ <;> simp [Kind.var]

theorem defaults_bind (hk : k ≠ .ty) {tbl : Table k.Value} (hs : vs.Sound) (hi : vs.Open (k.var i))
    (h : (k.table vs).bind i k.default = .ok tbl) : vs.Defaults [k.var i] (k.put vs tbl) := by
  obtain ⟨hroot, hstored⟩ := open_iff.1 hi
  exact defaults_put hk (.single (.number hk hi h))
    (hs.binds hi h).root_eq (Table.filled_of_bind hroot hstored h)

theorem defaults_self (hk : k ≠ .ty) {x : k.Value} (h : (k.table vs).stored? i = some x) :
    vs.Defaults [k.var i] vs := by
  have hself : k.put vs (k.table vs) = vs := by cases k <;> rfl
  have hput : vs.Defaults [k.var i] (k.put vs (k.table vs)) :=
    defaults_put hk (by rw [hself]) (fun _ => by rw [hself]) (Table.filled_self h)
  rwa [hself] at hput

namespace Defaults

theorem kept (h : vs.Defaults xs vs') (hi : k.var i ∉ xs) :
    (k.table vs').cell? i = (k.table vs).cell? i := by
  cases k with
  | ty => exact congrArg (·.cell? i) h.tys
  | int => exact h.ints.kept i hi
  | float => exact h.floats.kept i hi

theorem stored (h : vs.Defaults xs vs') (hk : k ≠ .ty) (hi : k.var i ∈ xs) {c : Cell k.Value}
    (hc : (k.table vs).cell? i = some c) :
    (k.table vs').stored? i = some (c.value.getD k.default) := by
  cases k with
  | ty => exact absurd rfl hk
  | int => exact h.ints.stored hi hc
  | float => exact h.floats.stored hi hc

/-- A variable that is no longer open has its default. -/
theorem closed (h : vs.Defaults xs vs') (hv : vs.Open v) (hclosed : ¬ vs'.Open v) :
    v ∈ xs ∧ ∃ t, vs'.valueOf v = .ok (some t) ∧ t.vars = [] := by
  have hroot := (h.root_eq v).trans hv.1
  rcases exists_valueOf_of_rootVar hroot with ⟨_ | t, hvalue⟩
  · exact absurd ⟨hroot, hvalue⟩ hclosed
  refine ⟨?_, t, hvalue, ?_⟩
  · obtain ⟨k, i, rfl⟩ := exists_kind v
    by_contra hmem
    refine hclosed (open_iff.2 ⟨rootVar_iff.1 hroot, ?_⟩)
    rw [Table.stored?_eq_of_cell? (h.kept hmem), (open_iff.1 hv).2]
  · rcases valueOf_cases hvalue with ⟨i, _, rfl, -⟩ | ⟨_, _, -, rfl⟩ | ⟨_, _, -, rfl⟩
    · rw [valueOf, h.tys] at hvalue
      have hopen : vs.tys.value i = .ok none := hv.2
      rw [hopen] at hvalue
      cases hvalue
    all_goals rfl

variable (hs : vs.Sound) (h : vs.Defaults xs vs')

include hs h

theorem grounded_iff : vs'.Grounded t ↔ vs.Grounded t := by
  have hvalue {w : Var} {u : Ty} (hw : vs'.valueOf w = .ok (some u)) :
      vs.valueOf w = .ok (some u) ∨ u.vars = [] := by
    rcases valueOf_cases hw with ⟨i, _, rfl, -⟩ | ⟨_, _, -, rfl⟩ | ⟨_, _, -, rfl⟩
    · left
      rwa [valueOf, h.tys] at hw
    · exact .inr rfl
    · exact .inr rfl
  constructor
  · intro hg v hv
    refine (Steps.has_iff hs h.steps v).1 (hg v ?_)
    clear hg
    induction hv with
    | here hv => exact .here hv
    | through hw hvalue _ ih => exact .through hw ((Steps.grows hs h.steps).value _ _ hvalue) ih
  · intro hg v hv
    refine (Steps.has_iff hs h.steps v).2 (hg v ?_)
    clear hg
    induction hv with
    | here hv => exact .here hv
    | @through t u v w hw hu hmeets ih =>
      rcases hvalue hu with hu | hnone
      · exact .through hw hu ih
      · cases hmeets with
        | here hv | through hv =>
          rw [hnone] at hv
          cases hv

/-- A type is left with the variables that are still open. -/
theorem mem_vars_resolve {r' : Ty} (hr : vs.resolve t = .ok r) (hr' : vs'.resolve t = .ok r') :
    w ∈ r'.vars ↔ w ∈ r.vars ∧ vs'.Open w := by
  have hs' := Steps.sound hs h.steps
  have hsolved := hs'.satisfies_extend .var
  -- Both resolved types become the same by what is known of the variables afterwards.
  have heq : r' = r.assign (vs'.extend .var) := by
    have hbefore := (Steps.grows hs h.steps).satisfies_before hsolved
    rw [hs'.resolve_eq hr']
    exact hbefore.resolve (fun v _ => by rw [Ty.assign_var]) hr
  rw [heq, Ty.mem_vars_assign]
  constructor
  · rintro ⟨u, hu, hw⟩
    by_cases hopen : vs'.Open u
    · rw [extend_of_open hopen, Ty.vars_var, List.mem_singleton] at hw
      exact hw ▸ ⟨hu, hopen⟩
    · obtain ⟨-, x, hvalue, hnone⟩ := h.closed (isOpen_of_mem_resolve hr hu) hopen
      rw [hsolved.value u x hvalue, Ty.mem_vars_assign, hnone] at hw
      obtain ⟨_, ⟨⟩, -⟩ := hw
  · rintro ⟨hw, hopen⟩
    refine ⟨w, hw, ?_⟩
    rw [extend_of_open hopen, Ty.vars_var]
    exact List.mem_singleton_self w

end Defaults

/-- Variables whose root is defaulted have a value. -/
theorem Defaults.exists_value (h : vs.Defaults xs vs') (hnumeric : ∀ i, v ≠ .ty i)
    (hroot : vs.rootVar v = .ok w) (hw : w ∈ xs) : ∃ t, vs'.valueOf v = .ok (some t) := by
  have hroot' := (h.root_eq v).trans hroot
  obtain ⟨k, i, r, rfl, rfl, hr⟩ := rootVar_cases hroot
  have hk : k ≠ .ty := by
    rintro rfl
    exact hnumeric i rfl
  obtain ⟨c, hcell, -⟩ := (Table.leads_of_rootWithin hr).root_cell
  refine ⟨k.type (c.value.getD k.default), ?_⟩
  rw [valueOf_eq, Table.value_eq (rootVar_iff.1 hroot'), h.stored hk hw hcell]
  rfl

/-- Where nothing is logged, the variables that are left open decide the variables. -/
theorem Defaults.unique (h : vs.Defaults xs vs') (h' : vs.Defaults ys vs'')
    (hmem : ∀ v, v ∈ xs ↔ v ∈ ys) (hints : vs.ints.cells.depth = 0)
    (hfloats : vs.floats.cells.depth = 0) : vs' = vs'' := by
  have hlater := Steps.later h.steps
  have hlater' := Steps.later h'.steps
  have htys : vs'.tys = vs''.tys := h.tys.trans h'.tys.symm
  have heq : vs'.ints = vs''.ints := (h.ints.congr fun i => hmem (.int i)).unique h'.ints
    (((hlater .int).log_eq hints).trans ((hlater' .int).log_eq hints).symm)
    ((hlater .int).depth_eq.trans (hlater' .int).depth_eq.symm)
  have heq' : vs'.floats = vs''.floats := (h.floats.congr fun i => hmem (.float i)).unique h'.floats
    (((hlater .float).log_eq hfloats).trans ((hlater' .float).log_eq hfloats).symm)
    ((hlater .float).depth_eq.trans (hlater' .float).depth_eq.symm)
  obtain ⟨tys, ints, floats⟩ := vs'
  cases htys
  cases heq
  cases heq'
  rfl

/-- The variables that are left of a type when it is resolved. -/
def openVars (vs : Vars) (t : Ty) : List Var :=
  match vs.resolve t with
  | .ok r => r.vars
  | .error _ => []

end Vars

namespace Infer

variable {tys : List Ty}

open Vars

variable {α β : Type} {scope : Scope} {s s' : State} {v : Var} {xs : List Var} {x : Except Fault α}
  {f : α → Infer β} {a : α} {e : Fault} {vs : Vars}

theorem bind_of_ok {x : Infer α} (h : x scope s = .ok (a, s')) :
    (x >>= f) scope s = f a scope s' := by
  show (x scope s >>= fun p => f p.1 scope p.2) = _
  rw [h]
  rfl

theorem ok_then {x : Infer α} {r : Except Fault (β × State)} (h : x scope s = .ok (a, s'))
    (hf : f a scope s' = r) : (x >>= f) scope s = r :=
  (bind_of_ok h).trans hf

theorem lift_of_ok (h : x = .ok a) : (liftM x : Infer α) scope s = .ok (a, s) := by
  rw [h]
  rfl

theorem readVars_of_ok {f : Vars → Except Fault α} (h : f s.vars = .ok a) :
    readVars f scope s = .ok (a, s) :=
  ok_then rfl (lift_of_ok h)

theorem bind_of_error {x : Infer α} (h : x scope s = .error e) : (x >>= f) scope s = .error e := by
  show (x scope s >>= fun p => f p.1 scope p.2) = _
  rw [h]
  rfl

theorem lift_of_error (h : x = .error e) : (liftM x : Infer α) scope s = .error e := by
  rw [h]
  rfl

/-- A representative gets its default unless it has a value. -/
theorem defaultVar_run (scope : Scope) (hs : s.vars.Sound) (hv : s.vars.rootVar v = .ok v) :
    ∃ vars, defaultVar v scope s = .ok ((), { s with vars }) ∧ s.vars.Defaults [v] vars := by
  obtain ⟨k, i, rfl⟩ := exists_kind v
  have hroot := rootVar_iff.1 hv
  have hvalue := Table.value_eq hroot
  by_cases hk : k = .ty
  · subst hk
    refine ⟨s.vars, rfl, (Defaults.refl _).congr ?_ ?_⟩ <;> simp [Kind.var]
  cases hstored : (k.table s.vars).stored? i with
  | none =>
    have hopen := open_iff.2 ⟨hroot, hstored⟩
    have hbind := Table.bind_of_unbound (x := k.default) hroot hstored
    refine ⟨_, ?_, defaults_bind hk hs hopen hbind⟩
    cases k with
    | ty => exact absurd rfl hk
    | int | float =>
      refine ok_then rfl (ok_then (lift_of_ok hvalue) ?_)
      rw [hstored]
      exact ok_then (lift_of_ok hbind) rfl
  | some x =>
    refine ⟨s.vars, ?_, defaults_self hk hstored⟩
    cases k with
    | ty => exact absurd rfl hk
    | int | float =>
      refine ok_then rfl (ok_then (lift_of_ok hvalue) ?_)
      rw [hstored]
      rfl

theorem defaultVars_run (scope : Scope) (hs : s.vars.Sound)
    (hxs : ∀ v ∈ xs, s.vars.rootVar v = .ok v) :
    ∃ vars, xs.forM defaultVar scope s = .ok ((), { s with vars }) ∧ s.vars.Defaults xs vars := by
  induction xs generalizing s with
  | nil => exact ⟨s.vars, rfl, .refl _⟩
  | cons v xs ih =>
    obtain ⟨vars, hrun, hfirst⟩ := defaultVar_run scope hs (hxs v (.head _))
    have hxs' : ∀ w ∈ xs, vars.rootVar w = .ok w := fun w hw =>
      (hfirst.root_eq w).trans (hxs w (.tail _ hw))
    obtain ⟨vars', hrun', hrest⟩ := ih (s := { s with vars }) (hfirst.steps.sound hs) hxs'
    exact ⟨vars', ok_then hrun hrun', hfirst.trans hrest⟩

/-- Gives default widths to the numeric variables of types. -/
def defaultTypes (tys : List Ty) : Infer Unit :=
  tys.forM fun ty => do
    (← resolve ty).vars.forM defaultVar

/-- After a type, also its open variables are defaulted. -/
theorem defaultType_run {ty r r' : Ty} (scope : Scope) (hs : vs.Sound) (h : vs.Defaults xs s.vars)
    (hr : vs.resolve ty = .ok r) (hr' : s.vars.resolve ty = .ok r') :
    ∃ vars, (do (← resolve ty).vars.forM defaultVar : Infer Unit) scope s =
        .ok ((), { s with vars }) ∧
      vs.Defaults (xs ++ r.vars) vars := by
  have hs' := Steps.sound hs h.steps
  have hroots : ∀ v ∈ r'.vars, s.vars.rootVar v = .ok v := fun v hv =>
    (isOpen_of_mem_resolve hr' hv).1
  obtain ⟨vars, hrun, hdefaults⟩ := defaultVars_run scope hs' hroots
  have hresolve : resolve ty scope s = .ok (r', s) := readVars_of_ok hr'
  refine ⟨vars, ok_then hresolve hrun, ?_⟩
  -- The variables of the type that are not defaulted now were so before.
  have hmem (v : Var) : v ∈ xs ++ r'.vars ↔ v ∈ xs ++ r.vars := by
    rw [List.mem_append, List.mem_append, h.mem_vars_resolve hs hr hr']
    constructor
    · exact Or.imp_right And.left
    · rintro (hv | hv)
      · exact .inl hv
      · by_cases hopen : s.vars.Open v
        · exact .inr ⟨hv, hopen⟩
        · exact .inl (h.closed (isOpen_of_mem_resolve hr hv) hopen).1
  exact (h.trans hdefaults).congr (fun i => hmem (.int i)) fun i => hmem (.float i)

/-- All types are gone through, or one of them is not grounded. -/
theorem defaultTypes_cases (scope : Scope) (tys : List Ty) (hs : vs.Sound)
    (h : vs.Defaults xs s.vars) :
    (∃ vars, defaultTypes tys scope s = .ok ((), { s with vars }) ∧
      (∀ ty ∈ tys, vs.Grounded ty) ∧ vs.Defaults (xs ++ tys.flatMap vs.openVars) vars) ∨
    (¬ ∀ ty ∈ tys, vs.Grounded ty) ∧
      ∃ i, defaultTypes tys scope s = .error (.dangling .variable i) := by
  induction tys generalizing s xs with
  | nil =>
    left
    refine ⟨s.vars, rfl, fun _ => List.not_mem_nil.elim, ?_⟩
    rwa [List.flatMap_nil, List.append_nil]
  | cons ty tys ih =>
    have hs' := Steps.sound hs h.steps
    rcases hs'.resolve_settles .var ty with ⟨r', hr'⟩ | ⟨hground, i, herror⟩
    · have hground := (h.grounded_iff hs).1 (grounded_of_resolve hr')
      obtain ⟨r, hr⟩ := (hs.resolve_settles .var ty).exists_ok hground
      obtain ⟨vars, hrun, hfirst⟩ := defaultType_run scope hs h hr hr'
      have hopen : vs.openVars ty = r.vars := by
        rw [openVars, show vs.resolve ty = .ok r from hr]
      rcases ih (s := { s with vars }) hfirst with ⟨vars', hrun', hgrounds, hrest⟩ | ⟨hno, i, hrun'⟩
      · left
        refine ⟨vars', ok_then hrun hrun', ?_, ?_⟩
        · exact List.forall_mem_cons.2 ⟨hground, hgrounds⟩
        · rwa [List.flatMap_cons, hopen, ← List.append_assoc]
      · right
        exact ⟨fun hall => hno (List.forall_mem_cons.1 hall).2, i, ok_then hrun hrun'⟩
    · right
      refine ⟨fun hall => hground ((h.grounded_iff hs).2 (hall ty (.head _))), i, ?_⟩
      have hresolve : resolve ty scope s = .error (.dangling .variable i) :=
        ok_then rfl (lift_of_error herror)
      exact bind_of_error (bind_of_error hresolve)

/-- The order of the types does not matter where no snapshot is open. -/
theorem defaultTypes_perm {tys' : List Ty} (hs : s.vars.Sound)
    (hints : s.vars.ints.cells.depth = 0) (hfloats : s.vars.floats.cells.depth = 0)
    (hperm : tys.Perm tys') (h : defaultTypes tys scope s = .ok ((), s')) :
    defaultTypes tys' scope s = .ok ((), s') := by
  have hstart := Defaults.refl s.vars
  rcases defaultTypes_cases scope tys hs hstart with ⟨vars, hrun, hground, hd⟩ | ⟨-, i, hrun⟩
  · rcases defaultTypes_cases scope tys' hs hstart with ⟨vars', hrun', -, hd'⟩ | ⟨hno, -⟩
    · rw [h] at hrun
      cases hrun
      have hmem (v : Var) : v ∈ [] ++ tys.flatMap s.vars.openVars ↔
          v ∈ [] ++ tys'.flatMap s.vars.openVars :=
        (hperm.flatMap_right s.vars.openVars).mem_iff
      rw [hrun', hd.unique hd' hmem hints hfloats]
    · exact absurd (fun ty hty => hground ty (hperm.mem_iff.2 hty)) hno
  · rw [h] at hrun
    cases hrun

/-- In the end every recorded number has a value. -/
theorem exists_value_of_defaultTypes (hs : s.vars.Sound)
    (h : defaultTypes tys scope s = .ok ((), s')) (hnumeric : ∀ i, v ≠ .ty i) (hv : .var v ∈ tys) :
    ∃ t, s'.vars.valueOf v = .ok (some t) := by
  rcases defaultTypes_cases scope tys hs (.refl s.vars) with
    ⟨vars, hrun, hground, hd⟩ | ⟨-, j, hrun⟩
  · rw [h] at hrun
    cases hrun
    have hg := hground _ hv
    obtain ⟨w, hroot⟩ := hs.exists_rootVar hg.has
    rcases exists_valueOf_of_rootVar hroot with ⟨_ | t, hvalue⟩
    · -- The variable resolves to the root of its class, which gets the default.
      refine hd.exists_value hnumeric hroot (List.mem_append_right _ ?_)
      refine List.mem_flatMap.2 ⟨_, hv, ?_⟩
      obtain ⟨r, hr⟩ := (hs.resolve_settles .var _).exists_ok hg
      rw [openVars, show s.vars.resolve _ = .ok r from hr, hs.resolve_eq hr, Ty.assign_var, extend,
        extendWithin_unbound _ hvalue hroot]
      exact List.mem_singleton_self _
    · exact ⟨t, (Steps.grows hs hd.steps).value _ _ hvalue⟩
  · rw [h] at hrun
    cases hrun

end Infer

end TypeInference
