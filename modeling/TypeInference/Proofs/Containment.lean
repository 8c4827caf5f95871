import TypeInference.Proofs.Ranges
import TypeInference.Proofs.Regular

/-!
# Computations that stay in range

A state is in range if neither its variables nor anything it records mentions a variable that is not
in its table. Rolling a snapshot back takes variables away, and new variables then reuse their
numbers, so this has to hold not only at the end of a computation but at every point of it
(`Infer.Throughout`), and nothing may leave a snapshot that is rolled back.

A computation whose arguments mention variables of `W` only is *contained* in `W` if, from a state
in range with these variables, it stays in range throughout, never asks for a missing variable, and
gives something in range (`Infer.Contained`).
-/

namespace TypeInference

open Relation

/-! ## States -/

namespace State

variable {W W' : Var → Prop} {s s' : State}

/-- All variables that the state records are in `W`. -/
structure Holds (W : Var → Prop) (s : State) : Prop where
  cache : Within W s.cache.entries.current
  pending : Within W s.pending
  exprTypes : Within W s.exprTypes
  bindings : Within W s.bindings
  methods : Within W s.methods
  adjustments : Within W s.adjustments
  diagnostics : Within W s.diagnostics
  pathRefinements : Within W s.pathRefinements
  methodRefinements : Within W s.methodRefinements

theorem Holds.mono (h : s.Holds W) (hW : W ≤ W') : s.Holds W' := by
  cases h
  constructor <;> exact Within.mono (by assumption) hW

theorem Holds.of_forall (h : ∀ v, W v) : s.Holds W := by constructor <;> exact fun v _ => h v

/-- All variables that the state mentions are in its tables. -/
structure InRange (s : State) : Prop where
  kept : s.Kept
  vars : s.vars.InRange
  holds : s.Holds s.vars.Has

namespace InRange

variable {vars : Vars}

theorem start : State.InRange {} where
  kept := kept_start
  vars := .empty
  holds := by constructor <;> exact within_nil

variable (h : s.InRange)

include h

theorem wellFormed : s.WellFormed := ⟨h.vars.sound, h.kept⟩

theorem withVars (hchange : s.Evolves { s with vars }) (hvars : vars.InRange)
    (hhas : s.vars.Has ≤ vars.Has) : { s with vars }.InRange where
  kept := (hchange.spec h.wellFormed).1.kept
  vars := hvars
  holds := { h.holds.mono hhas with }

theorem passed (hpasses : s.vars.Passes vars) : { s with vars }.InRange :=
  h.withVars (.steps hpasses.steps) (hpasses.inRange h.vars) (hpasses.has_eq h.vars).ge

theorem chain (hpasses : s.vars.Passes vars) :
    ReflTransGen (fun vs vs' => vs.Step vs' ∧ { s with vars := vs' }.InRange) s.vars vars := by
  induction hpasses with
  | refl => exact .refl
  | tail hpasses hlast ih => exact ih.tail ⟨hlast.1, h.passed (hpasses.tail hlast)⟩

theorem recorded (hvars : s'.vars = s.vars) (hcache : s'.cache = s.cache)
    (hholds : s'.Holds s.vars.Has) : s'.InRange where
  kept := ((Evolves.recorded hvars hcache).spec h.wellFormed).1.kept
  vars := hvars ▸ h.vars
  holds := hvars ▸ hholds

theorem cached {p : Projection} {entry : CacheEntry} (hp : Within s.vars.Has p)
    (hentry : Within s.vars.Has entry) : { s with cache := s.cache.insert p entry }.InRange where
  kept := ((State.Evolves.cached s p entry).spec h.wellFormed).1.kept
  vars := h.vars
  holds := { h.holds with cache := h.holds.cache.cacheInsert hp hentry }

theorem opened : s.opened.InRange where
  kept := kept_opened s
  vars := ⟨sound_opened h.vars.sound, h.vars.stored⟩
  holds := { h.holds with }

theorem commit (hkept : s.commit.Kept) : s.commit.InRange where
  kept := hkept
  vars := ⟨sound_commit h.vars.sound, h.vars.stored⟩
  holds := { h.holds with }

end InRange

/-- One of the records of the state, other than the types of expressions, is another one. -/
inductive Rewrites : State → State → Prop
  | pending (s : State) (obligations : List Obligation) :
    Rewrites s { s with pending := obligations }
  | bindings (s : State) (tys : IdMap Ty) : Rewrites s { s with bindings := tys }
  | paths (s : State) (values : IdMap (List Value)) : Rewrites s { s with paths := values }
  | methods (s : State) (methods : IdMap (List MethodResolution)) : Rewrites s { s with methods }
  | fields (s : State) (fields : IdMap (List FieldResolution)) : Rewrites s { s with fields }
  | adjustments (s : State) (adjustments : IdMap (List Adjustment)) :
    Rewrites s { s with adjustments }
  | diagnostics (s : State) (reports : List Diagnostic) :
    Rewrites s { s with diagnostics := reports }
  | pathRefinements (s : State) (goals : List (ExprId × TraitRef)) :
    Rewrites s { s with pathRefinements := goals }
  | methodRefinements (s : State) (goals : List (ExprId × TraitRef)) :
    Rewrites s { s with methodRefinements := goals }

theorem Rewrites.vars_eq (h : s.Rewrites s') : s'.vars = s.vars := by cases h <;> rfl

theorem Rewrites.cache_eq (h : s.Rewrites s') : s'.cache = s.cache := by cases h <;> rfl

end State

/-- The declarations, names and nodes in scope mention no variables. -/
structure Scope.IsClosed (scope : Scope) : Prop where
  items : Closed scope.items
  env : Closed scope.env
  names : Closed scope.names
  body : Closed scope.body

/-- What is in scope mentions variables of `W` only. -/
structure Scope.Within (W : Var → Prop) (scope : Scope) : Prop where
  items : TypeInference.Within W scope.items
  env : TypeInference.Within W scope.env
  names : TypeInference.Within W scope.names
  body : TypeInference.Within W scope.body

section

variable {W : Var → Prop} {scope : Scope}

theorem Scope.IsClosed.within (h : scope.IsClosed) : scope.Within W :=
  ⟨h.items.within, h.env.within, h.names.within, h.body.within⟩

namespace Scope.Within

theorem of_forall (h : ∀ v, W v) : scope.Within W := by constructor <;> exact fun v _ => h v

variable (h : scope.Within W)

include h

theorem adts : TypeInference.Within W scope.items.adts := (within_items.1 h.items).1

theorem functions : TypeInference.Within W scope.items.functions := (within_items.1 h.items).2.1

theorem traits : TypeInference.Within W scope.items.traits := (within_items.1 h.items).2.2.1

theorem impls : TypeInference.Within W scope.items.impls := (within_items.1 h.items).2.2.2.1

theorem consts : TypeInference.Within W scope.items.consts := (within_items.1 h.items).2.2.2.2

end Scope.Within

end

/-- Numbers that name nothing are among the faults. -/
class Fault.Admits (E : Fault → Prop) : Prop where
  dangling : ∀ entity i, E (.dangling entity i)

theorem Fault.Admits.named {E : Fault → Prop} [Fault.Admits E] (entity : Entity) (i : Nat)
    (_ : entity ≠ .variable) : E (.dangling entity i) :=
  dangling entity i

instance : Fault.Admits fun _ => True := ⟨fun _ _ => trivial⟩

instance : Fault.Admits Fault.IsDangling := ⟨fun _ _ => trivial⟩

instance : Fault.Admits (· ≠ .exhausted) := ⟨fun _ _ h => by cases h⟩

/-- The fault is another one than a missing variable. -/
def Fault.SparesVariables (f : Fault) : Prop := ∀ i, f ≠ .dangling .variable i

theorem Fault.SparesVariables.exhausted : Fault.SparesVariables .exhausted := fun i h => by cases h

theorem Fault.SparesVariables.tooDeep : Fault.SparesVariables .tooDeep := fun i h => by cases h

theorem Fault.SparesVariables.dangling (entity : Entity) (i : Nat) (h : entity ≠ .variable) :
    Fault.SparesVariables (.dangling entity i) := by
  rintro j ⟨⟩
  exact h rfl

namespace Infer

/-! ## The points of a run -/

variable {s' s : State}

/-- Computations without anything in between: they look at something, fail, or make one change. -/
inductive Elementary : (α : Type) → Infer α → Prop
  | pure {α : Type} (a : α) : Elementary α (pure a)
  | throw {α : Type} (e : Fault) : Elementary α (throw e)
  | lift {α : Type} (x : Except Fault α) : Elementary α (liftM x)
  | read : Elementary Scope read
  | get : Elementary State get
  | readVars {α : Type} (f : Vars → Except Fault α) : Elementary α (readVars f)
  | freshTy : Elementary Ty freshTy
  | freshInt : Elementary Ty freshInt
  | freshFloat : Elementary Ty freshFloat
  | defaultVar (v : Var) : Elementary Unit (defaultVar v)
  | cachePut (p : Projection) (entry : CacheEntry) : Elementary Unit (cachePut p entry)
  | cacheStart (p : Projection) : Elementary (Option CacheEntry) (cacheStart p)
  | writeExprTy (id : ExprId) (ty : Ty) : Elementary Unit (writeExprTy id ty)
  | record {f : State → State} : (∀ s : State, s.Rewrites (f s)) →
    Elementary Unit (modify f : Infer Unit)

/-- `P` holds at every point of the run of a computation from a state: before it, after every step
that it makes, and after it. Where a snapshot is rolled back, nothing is left of what was done
inside but a truth value. -/
inductive Throughout (P : State → Prop) (scope : Scope) : {α : Type} → Infer α → State → Prop
  | elementary {α : Type} {x : Infer α} {s : State} : Elementary α x → P s →
    (∀ a s', x scope s = .ok (a, s') → P s') → Throughout P scope x s
  /-- Unification goes through a sequence of steps and does not fail. -/
  | unification {act : VarM Bool} {s : State} {ok : Bool} {vars : Vars} : P s →
    act s.vars = .ok (ok, vars) →
    ReflTransGen (fun vs vs' => vs.Step vs' ∧ P { s with vars := vs' }) s.vars vars →
    Throughout P scope (onVars act) s
  | bind {α β : Type} {x : Infer α} {f : α → Infer β} {s : State} : Throughout P scope x s →
    (∀ a s', x scope s = .ok (a, s') → Throughout P scope (f a) s') →
    Throughout P scope (x >>= f) s
  | probe {x : Infer Bool} {s : State} : P s → Throughout P scope x s.opened →
    (∀ answer s', probe x scope s = .ok (answer, s') → s' = s) → Throughout P scope (probe x) s
  | combineIfOk {a b : Ty} {s : State} : P s → Throughout P scope (combine a b) s.opened →
    (∀ ok s', combineIfOk a b scope s = .ok (ok, s') → P s' ∧ (ok = false → s' = s)) →
    Throughout P scope (combineIfOk a b) s

/-- What holds throughout holds at the end. -/
theorem Throughout.after {P : State → Prop} {scope : Scope} {α : Type} {x : Infer α} {a : α}
    (h : Throughout P scope x s) (hrun : x scope s = .ok (a, s')) : P s' := by
  induction h generalizing s' with
  | elementary _ _ hafter => exact hafter _ _ hrun
  | @unification act s ok vars hbefore hact hchain =>
    obtain ⟨vars', hact', rfl⟩ := onVars_eq_ok hrun
    rw [hact] at hact'
    cases hact'
    cases hchain with
    | refl => exact hbefore
    | tail _ hlast => exact hlast.2
  | bind _ _ _ ih' =>
    obtain ⟨a, s₁, hfirst, hnext⟩ := bind_eq_ok hrun
    exact ih' a s₁ hfirst hnext
  | probe hbefore _ hsame _ =>
    rw [hsame _ _ hrun]
    exact hbefore
  | combineIfOk _ _ hafter _ => exact (hafter _ _ hrun).1

/-! ## Containment -/

variable {α β : Type} {W W' : Var → Prop} {scope : Scope} {s : State} {ty : Ty}

section

variable [Mentioning α] [Mentioning β] {e : Fault}

/-- The computation stays in range when run in a state. -/
structure Stays (scope : Scope) (s : State) (x : Infer α) : Prop where
  throughout : Throughout State.InRange scope x s
  fails : FailsWith Fault.SparesVariables (x scope s)
  ok : ∀ a s', x scope s = .ok (a, s') → s.vars.Has ≤ s'.vars.Has ∧ Within s'.vars.Has a

/-- The computation stays in range in all states with the variables of `W`. -/
def Contained (W : Var → Prop) (x : Infer α) : Prop :=
  ∀ ⦃scope s⦄, scope.IsClosed → s.InRange → W ≤ s.vars.Has → Stays scope s x

/-- The computation stays in range in all states with the variables of `W`. Where these may be any
variables, it is regular. -/
structure Orderly (scope : Scope) (E : Fault → Prop) (K : Atoms)
    (W : Var → Prop) (x : Infer α) : Prop where
  regular : (∀ v, W v) → Regular scope E K x
  stays : scope.IsClosed → ∀ ⦃s⦄, s.InRange → W ≤ s.vars.Has → Stays scope s x

variable {E : Fault → Prop} {K : Atoms} {x : Infer α}

theorem Orderly.anyway (h : Orderly scope E K (fun _ => True) x) : Regular scope E K x :=
  h.regular fun _ => trivial

/-- One computation after the other stays in range. -/
theorem Stays.bind {f : α → Infer β} (hx : Stays scope s x)
    (hf : ∀ a s', x scope s = .ok (a, s') → Stays scope s' (f a)) : Stays scope s (x >>= f) where
  throughout := .bind hx.throughout fun a s' hrun => (hf a s' hrun).throughout
  fails := hx.fails.bind_of_ok fun p hrun => (hf p.1 p.2 hrun).fails
  ok := by
    intro b s' hrun
    obtain ⟨a, s₁, hfirst, hnext⟩ := bind_eq_ok hrun
    obtain ⟨hgrows, hb⟩ := (hf a s₁ hfirst).ok b s' hnext
    exact ⟨(hx.ok a s₁ hfirst).1.trans hgrows, hb⟩

/-- A computation without anything in between need only end well. -/
theorem Stays.of_elementary (hx : Elementary α x) (hs : s.InRange)
    (hfails : FailsWith Fault.SparesVariables (x scope s)) (hok : ∀ a s', x scope s = .ok (a, s') →
      s'.InRange ∧ s.vars.Has ≤ s'.vars.Has ∧ Within s'.vars.Has a) : Stays scope s x :=
  ⟨.elementary hx hs fun a s' h => (hok a s' h).1, hfails, fun a s' h => (hok a s' h).2⟩

theorem Stays.of_ok {a : α} (hx : Elementary α x) (hs : s.InRange) (hrun : x scope s = .ok (a, s'))
    (hs' : s'.InRange) (hgrows : s.vars.Has ≤ s'.vars.Has) (ha : Within s'.vars.Has a) :
    Stays scope s x := by
  refine .of_elementary hx hs (hrun ▸ .ok _) fun b s'' h => ?_
  rw [hrun] at h
  cases h
  exact ⟨hs', hgrows, ha⟩

theorem Stays.of_error (hx : Elementary α x) (hs : s.InRange) (hrun : x scope s = .error e)
    (he : e.SparesVariables) : Stays scope s x := by
  refine .of_elementary hx hs (hrun ▸ .error he) fun b s'' h => ?_
  rw [hrun] at h
  cases h

omit [Mentioning α] in
theorem Stays.record {f : State → State} (hf : ∀ s : State, s.Rewrites (f s))
    (hs : s.InRange) (hholds : (f s).Holds s.vars.Has) : Stays scope s (modify f : Infer Unit) := by
  have hrecords := hf s
  refine .of_ok (.record hf) hs rfl ?_ ?_ within_plain
  · exact hs.recorded hrecords.vars_eq hrecords.cache_eq hholds
  · rw [hrecords.vars_eq]

namespace Orderly

variable {f : α → Infer β} {x : Except Fault α}

/-! ## Rules -/

theorem pure {a : α} (ha : Within W a) : Orderly scope E K W (pure a : Infer α) :=
  ⟨fun _ => .pure a, fun _ _ hs hW => .of_ok (.pure a) hs rfl hs le_rfl (ha.mono hW)⟩

theorem throw (he : E e) (hspares : e.SparesVariables) :
    Orderly scope E K W (throw e : Infer α) :=
  ⟨fun _ => .throw he, fun _ _ hs _ => .of_error (.throw e) hs rfl hspares⟩

/-- What follows may rely on what the first computation gives being in range. -/
theorem bindOf {x : Infer α} (hx : Orderly scope E K W x)
    (hf : ∀ {W'} a, Gives scope x a → W ≤ W' → Within W' a → Orderly scope E K W' (f a)) :
    Orderly scope E K W (x >>= f) := by
  refine ⟨fun hW => ?_, fun hscope s hs hW => ?_⟩
  · exact (hx.regular hW).bindOf fun a ha => (hf a ha le_rfl fun v _ => hW v).regular hW
  · have hfirst := hx.stays hscope hs hW
    refine hfirst.bind fun a s' hrun => ?_
    obtain ⟨hgrows, ha⟩ := hfirst.ok a s' hrun
    have hnext := hf a ⟨s, s', hrun⟩ (hW.trans hgrows) ha
    exact hnext.stays hscope (hfirst.throughout.after hrun) le_rfl

theorem bind {x : Infer α} (hx : Orderly scope E K W x)
    (hf : ∀ {W'} a, W ≤ W' → Within W' a → Orderly scope E K W' (f a)) :
    Orderly scope E K W (x >>= f) :=
  hx.bindOf fun a _ => hf a

theorem andThen {x : Infer α} (hx : Orderly scope E K W x) (hf : ∀ a, Orderly scope E K W (f a)) :
    Orderly scope E K W (x >>= f) := by
  refine ⟨fun hW => (hx.regular hW).bind fun a => (hf a).regular hW, fun hscope s hs hW => ?_⟩
  have hfirst := hx.stays hscope hs hW
  refine hfirst.bind fun a s' hrun => ?_
  exact (hf a).stays hscope (hfirst.throughout.after hrun) (hW.trans (hfirst.ok a s' hrun).1)

/-- What can be looked up is orderly if it does not ask for variables. -/
theorem lift (hx : FailsWith E x) (hspares : FailsWith Fault.SparesVariables x)
    (ha : ∀ a, x = .ok a → Within W a) : Orderly scope E K W (liftM x : Infer α) := by
  refine ⟨fun _ => .lift hx, fun hscope s hs hW => ?_⟩
  cases hok : x with
  | error e => exact .of_error (.lift _) hs rfl (hspares e hok)
  | ok a => exact .of_ok (.lift _) hs rfl hs le_rfl ((ha a hok).mono hW)

omit [Mentioning α]

theorem liftBindOf (hx : FailsWith E x) (hspares : FailsWith Fault.SparesVariables x)
    (hf : ∀ a, x = .ok a → Orderly scope E K W (f a)) :
    Orderly scope E K W (liftM x >>= f) := by
  -- Where the value comes from says more than that it is in range, so nothing is asked of it here.
  have : Plain α := ⟨⟩
  have hfirst : Orderly scope E K W (liftM x : Infer α) := lift hx hspares fun _ _ => within_plain
  refine ⟨fun hW => (hfirst.regular hW).bindOf fun a ha => ?_, fun hscope s hs hW => ?_⟩
  · obtain ⟨s, s', hrun⟩ := ha
    exact (hf a (lift_eq_ok hrun).1).regular hW
  · refine (hfirst.stays hscope hs hW).bind fun a s' hrun => ?_
    obtain ⟨hok, rfl⟩ := lift_eq_ok hrun
    exact (hf a hok).stays hscope hs hW

theorem liftBind [Fault.Admits E]
    (hx : ∀ {E : Fault → Prop}, (∀ entity i, entity ≠ .variable → E (.dangling entity i)) →
      FailsWith E x)
    (hf : ∀ a, x = .ok a → Orderly scope E K W (f a)) :
    Orderly scope E K W (liftM x >>= f) :=
  liftBindOf (hx Fault.Admits.named) (hx Fault.SparesVariables.dangling) hf

end Orderly

end

namespace Orderly

variable {E : Fault → Prop} {K : Atoms} {f : State → State} {a b : Ty}
  {p : Projection}

section

variable [Mentioning β] {f : Scope → Infer β}

theorem readBindOf (hregular : Regular scope E K (f scope) → Regular scope E K (read >>= f))
    (hf : scope.Within W → Orderly scope E K W (f scope)) : Orderly scope E K W (read >>= f) := by
  refine ⟨fun hW => hregular ((hf (.of_forall hW)).regular hW), fun hscope s hs hW => ?_⟩
  have : Plain Scope := ⟨⟩
  have hfirst : Stays scope s (read : Infer Scope) := .of_ok .read hs rfl hs le_rfl within_plain
  refine hfirst.bind fun _ _ h => ?_
  cases h
  exact (hf hscope.within).stays hscope hs hW

theorem readBind (hsame : (fun on => f (scope.reporting on)) = fun _ => f scope)
    (hf : scope.Within W → Orderly scope E K W (f scope)) : Orderly scope E K W (read >>= f) :=
  readBindOf (.scopeBind (congrFun hsame)) hf

/-- What is read from the state mentions only variables in range. -/
theorem stateBindOf {f : State → Infer β}
    (hregular : (∀ s, Regular scope E K (f s)) → Regular scope E K (get >>= f))
    (hf : ∀ {W'} s, W ≤ W' → State.Holds W' s → Orderly scope E K W' (f s)) :
    Orderly scope E K W (get >>= f) := by
  refine ⟨fun hW => hregular fun s => (hf s le_rfl (.of_forall hW)).regular hW, ?_⟩
  intro hscope s hs hW
  have : Plain State := ⟨⟩
  have hfirst : Stays scope s (get : Infer State) := .of_ok .get hs rfl hs le_rfl within_plain
  refine hfirst.bind fun _ _ h => ?_
  cases h
  exact (hf s hW hs.holds).stays hscope hs le_rfl

theorem stateBind {f : State → Infer β} (hsame : ∀ s reports, f (s.withReports reports) = f s)
    (hf : ∀ {W'} s, W ≤ W' → State.Holds W' s → Orderly scope E K W' (f s)) :
    Orderly scope E K W (get >>= f) :=
  stateBindOf (.stateBind hsame) hf

variable {entity : Entity} {xs : Array α} {i : Nat}

theorem entryBind [Fault.Admits E] [Mentioning α] {f : α → Infer β} (hxs : Within W xs)
    (hentity : entity ≠ .variable) (hf : ∀ a, Within W a → Orderly scope E K W (f a)) :
    Orderly scope E K W ((liftM (entry entity xs i) : Infer α) >>= f) :=
  liftBind (fun h => entry_failsWith (h _ _ hentity)) fun a ha => hf a (hxs.entry ha)

end

/-- Reading variables in range gives something in range. -/
theorem readVars [Mentioning α] {f : Vars → Except Fault α}
    (hfails : ∀ vs : Vars, vs.Sound → FailsWith E (f vs))
    (hf : ∀ vs : Vars, vs.InRange → W ≤ vs.Has → ∃ a, f vs = .ok a ∧ Within vs.Has a) :
    Orderly scope E K W (readVars f) := by
  refine ⟨fun _ => .readVars hfails, fun hscope s hs hW => ?_⟩
  obtain ⟨a, hrun, ha⟩ := hf s.vars hs.vars hW
  have hread : Infer.readVars f scope s = .ok (a, s) := readVars_of_ok hrun
  exact .of_ok (.readVars f) hs hread hs le_rfl ha

/-- Unification stays in range at every step. -/
theorem onVars {act : VarM Bool} (hsteps : Vars.MakesSteps act)
    (hfails : ∀ vs : Vars, vs.Sound → FailsWith E (act vs))
    (hact : ∀ vs : Vars, vs.InRange → W ≤ vs.Has →
      ∃ ok vs', act vs = .ok (ok, vs') ∧ vs.Passes vs') : Orderly scope E K W (onVars act) := by
  refine ⟨fun _ => .onVars hsteps hfails, fun hscope s hs hW => ?_⟩
  obtain ⟨ok, vars, hrun, hpasses⟩ := hact s.vars hs.vars hW
  have hwhole : Infer.onVars act scope s = .ok (ok, { s with vars }) :=
    ok_then rfl (ok_then (lift_of_ok hrun) rfl)
  refine ⟨.unification hs hrun (hs.chain hpasses), ?_, fun _ _ h => ?_⟩
  · rw [hwhole]
    exact .ok _
  · rw [hwhole] at h
    cases h
    exact ⟨(hpasses.has_eq hs.vars).ge, within_plain⟩

/-- A new variable is in range. -/
theorem fresh {x : Infer Ty} (k : Vars.Kind) (hregular : Regular scope E K x)
    (hx : Elementary Ty x) (hrun : ∀ scope s, x scope s =
      .ok (.var (k.var (k.table s.vars).size), { s with vars := k.fresh s.vars })) :
    Orderly scope E K W x := by
  refine ⟨fun _ => hregular, fun hscope s hs hW => ?_⟩
  have hhas := Vars.InRange.has_fresh k s.vars
  have hs' := hs.withVars (.fresh k s) (hs.vars.fresh k) hhas
  exact .of_ok hx hs (hrun scope s) hs' hhas (Vars.InRange.within_fresh k s.vars)

theorem freshTy : Orderly scope E K W freshTy :=
  fresh .ty .freshTy .freshTy fun _ _ => rfl

theorem freshInt [Reports K] : Orderly scope E K W freshInt :=
  fresh .int .freshInt .freshInt fun _ _ => rfl

theorem freshFloat [Reports K] : Orderly scope E K W freshFloat :=
  fresh .float .freshFloat .freshFloat fun _ _ => rfl

/-- Work on variables and cache is taken back, and only a truth value is left of it. -/
theorem probe {x : Infer Bool} (hx : Orderly scope E K W x)
    (hconfined : Orderly scope (fun _ => True) CacheOp (fun _ => True) x) :
    Orderly scope E K W (probe x) := by
  refine ⟨fun hW => .probe (hx.regular hW), fun hscope s hs hW => ?_⟩
  have hinside : Stays scope s.opened x := hx.stays hscope hs.opened hW
  have hsame : ∀ answer s', Infer.probe x scope s = .ok (answer, s') → s' = s :=
    fun _ _ h => Keeps.probe hconfined.anyway hs.wellFormed h
  refine ⟨.probe hs hinside.throughout hsame, hinside.fails.bind fun _ => .ok _, fun a s' h => ?_⟩
  rw [hsame a s' h]
  exact ⟨le_rfl, within_plain⟩

theorem combine [Fault.Admits E] (ha : Within W a) (hb : Within W b) :
    Orderly scope E K W (combine a b) :=
  onVars (Vars.combine_makesSteps a b)
    (fun _ hs => hs.combine_failsWith (Fault.Admits.dangling _) a b)
    fun _ hvs hW => hvs.exists_combine (ha.mono hW) (hb.mono hW)

/-- Unification is in range also where it is taken back. -/
theorem combineIfOk [Fault.Admits E] (ha : Within W a) (hb : Within W b) :
    Orderly scope E K W (combineIfOk a b) := by
  refine ⟨fun _ => .combineIfOk fun _ hs => hs.combine_failsWith (Fault.Admits.dangling _) a b, ?_⟩
  intro hscope s hs hW
  obtain ⟨ok, vars, hrun, hpasses⟩ :=
    hs.opened.vars.exists_combine (ha.mono hW) (hb.mono hW)
  have hinside : Stays scope s.opened (Infer.combine a b) :=
    (combine (E := E) (K := K) ha hb).stays hscope hs.opened hW
  have hcombine : Infer.combine a b scope s.opened = .ok (ok, { s.opened with vars }) :=
    ok_then rfl (ok_then (lift_of_ok hrun) rfl)
  have hevolves : s.opened.Evolves { s.opened with vars } := .steps hpasses.steps
  have hspec := hevolves.spec (State.wellFormed_opened hs.wellFormed)
  -- What a success has bound stays; a failure is taken back.
  have hafter : Infer.combineIfOk a b scope s =
      .ok (ok, if ok then State.commit { s.opened with vars } else s) := by
    refine ok_then rfl (ok_then hcombine ?_)
    cases ok with
    | true => rfl
    | false =>
      show Except.ok (false, State.rollback s.mark { s.opened with vars }) = _
      rw [hspec.2.rollback_eq]
      rfl
  have hcommit : (State.commit { s.opened with vars }).InRange := by
    refine (hs.opened.passed hpasses).commit ?_
    exact ((State.Evolves.committed hevolves).spec hs.wellFormed).1.kept
  have hhas : s.vars.Has ≤ (State.commit { s.opened with vars }).vars.Has :=
    (hpasses.has_eq hs.opened.vars).ge
  refine ⟨.combineIfOk hs hinside.throughout fun ok' s' h => ?_, ?_, fun ok' s' h => ?_⟩
  · rw [hafter] at h
    cases h
    cases ok with
    | true => exact ⟨hcommit, fun h => by cases h⟩
    | false => exact ⟨hs, fun _ => rfl⟩
  · rw [hafter]
    exact .ok _
  · rw [hafter] at h
    cases h
    cases ok with
    | true => exact ⟨hhas, within_plain⟩
    | false => exact ⟨le_rfl, within_plain⟩

/-! ### Records -/

theorem record (hregular : Regular scope E K (modify f : Infer Unit))
    (hf : ∀ s : State, s.Rewrites (f s))
    (hholds : ∀ {W'} {s : State}, W ≤ W' → s.Holds W' → (f s).Holds W') :
    Orderly scope E K W (modify f : Infer Unit) :=
  ⟨fun _ => hregular, fun _ _ hs hW => .record hf hs (hholds hW hs.holds)⟩

theorem file [Files K] (hsilent : Silent f) (hsame : ∀ s : State, s.SameConversions (f s))
    (hf : ∀ s : State, s.Rewrites (f s))
    (hholds : ∀ {W'} {s : State}, W ≤ W' → s.Holds W' → (f s).Holds W') :
    Orderly scope E K W (modify f : Infer Unit) :=
  record (.atom (Records.record hsame hsilent)) hf hholds

theorem cachePut {entry : CacheEntry} (hregular : Regular scope E K (cachePut p entry))
    (hp : Within W p) (hentry : Within W entry) : Orderly scope E K W (cachePut p entry) := by
  refine ⟨fun _ => hregular, fun hscope s hs hW => ?_⟩
  have hs' := hs.cached (hp.mono hW) (hentry.mono hW)
  exact .of_ok (.cachePut p entry) hs rfl hs' le_rfl within_plain

theorem cacheStart (hregular : Regular scope E K (cacheStart p)) (hp : Within W p) :
    Orderly scope E K W (cacheStart p) := by
  refine ⟨fun _ => hregular, fun hscope s hs hW => ?_⟩
  have hrun := cacheStart_run p scope s
  cases hfound : s.cache.get? p with
  | some entry =>
    rw [ProjectionCache.start, hfound] at hrun
    have hentry := (hs.holds.cache.cacheGet? p).of_some hfound
    exact .of_ok (.cacheStart p) hs hrun hs le_rfl (within_some.2 hentry)
  | none =>
    rw [ProjectionCache.start, hfound] at hrun
    have hs' := hs.cached (hp.mono hW) within_inProgress
    exact .of_ok (.cacheStart p) hs hrun hs' le_rfl within_none

/-! ### Control -/

section

variable [Mentioning α] [Mentioning β] {xs : List α} {p : α → Infer Bool} {f : α → Infer β}
  {x y : Infer α}

theorem discard (hx : Orderly scope E K W x) : Orderly scope E K W (discard x) :=
  hx.bind fun _ _ _ => pure within_plain

omit [Mentioning α] in
/-- A list is gone through in range, whatever variables are added on the way. -/
theorem mapM (hf : ∀ {W'} a, W ≤ W' → a ∈ xs → Orderly scope E K W' (f a)) :
    Orderly scope E K W (xs.mapM f) := by
  induction xs generalizing W with
  | nil => exact pure within_nil
  | cons a xs ih =>
    rw [List.mapM_cons]
    refine (hf a le_rfl (.head _)).bind fun b hW hb => ?_
    have hrest := ih fun a hW' ha => hf a (hW.trans hW') (.tail _ ha)
    exact hrest.bind fun bs hW' hbs => pure (within_cons.2 ⟨hb.mono hW', hbs⟩)

omit [Mentioning α] in
theorem foldlM {f : β → α → Infer β} {b : β} (hb : Within W b)
    (hf : ∀ {W'} b a, W ≤ W' → a ∈ xs → Within W' b → Orderly scope E K W' (f b a)) :
    Orderly scope E K W (xs.foldlM f b) := by
  induction xs generalizing W b with
  | nil => exact pure hb
  | cons a xs ih =>
    rw [List.foldlM_cons]
    refine (hf b a le_rfl (.head _) hb).bind fun b' hW hb' => ?_
    exact ih hb' fun b a hW' ha hb => hf b a (hW.trans hW') (.tail _ ha) hb

omit [Mentioning α] in
theorem forM {f : α → Infer PUnit} (hf : ∀ {W'} a, W ≤ W' → a ∈ xs → Orderly scope E K W' (f a)) :
    Orderly scope E K W (xs.forM f) := by
  induction xs generalizing W with
  | nil => exact pure within_plain
  | cons a xs ih =>
    refine (hf a le_rfl (.head _)).bind fun _ hW _ => ?_
    exact ih fun a hW' ha => hf a (hW.trans hW') (.tail _ ha)

omit [Mentioning α] in
theorem anyM (hp : ∀ {W'} a, W ≤ W' → a ∈ xs → Orderly scope E K W' (p a)) :
    Orderly scope E K W (xs.anyM p) := by
  induction xs generalizing W with
  | nil => exact pure within_plain
  | cons a xs ih =>
    refine (hp a le_rfl (.head _)).bind fun found hW _ => ?_
    cases found with
    | true => exact pure within_plain
    | false => exact ih fun a hW' ha => hp a (hW.trans hW') (.tail _ ha)

theorem filterM (hxs : Within W xs) (hp : ∀ {W'} a, W ≤ W' → a ∈ xs → Orderly scope E K W' (p a)) :
    Orderly scope E K W (xs.filterM p) := by
  have hloop : ∀ {W'} acc, W ≤ W' → Within W' acc →
      Orderly scope E K W' (xs.filterAuxM p acc) := by
    induction xs with
    | nil => exact fun acc _ hacc => pure hacc
    | cons a xs ih =>
      intro W' acc hW hacc
      obtain ⟨ha, hxs⟩ := within_cons.1 hxs
      refine (hp a hW (.head _)).bind fun keep hW' _ => ?_
      refine ih hxs (fun a hW ha => hp a hW (.tail _ ha)) _ (hW.trans hW') ?_
      cases keep with
      | true => exact within_cons.2 ⟨ha.mono (hW.trans hW'), hacc.mono hW'⟩
      | false => exact hacc.mono hW'
  refine (hloop [] le_rfl within_nil).bind fun kept _ hkept => pure ?_
  exact hkept.subset (List.reverse_subset.2 (List.Subset.refl _))

theorem optionMapM {x : Option α} (hx : Within W x)
    (hf : ∀ a, Within W a → Orderly scope E K W (f a)) : Orderly scope E K W (x.mapM f) := by
  cases x with
  | none => exact pure within_none
  | some a => exact (hf a (within_some.1 hx)).bind fun _ _ hb => pure (within_some.2 hb)

end

end Orderly

/-! ### Types -/

theorem Contained.writeBinding {id : PatId} (hty : Within W ty) :
    Contained W (writeBinding id ty) :=
  fun _ _ _ hs hW => .record (fun s => .bindings s _) hs
    { hs.holds with bindings := hs.holds.bindings.insert _ (hty.mono hW) }

/-- The type of an expression may be recorded if it is in range. -/
theorem Contained.writeExprTy {id : ExprId} (hty : Within W ty) :
    Contained W (writeExprTy id ty) := by
  intro scope s hscope hs hW
  cases hwritten : s.exprTypes.contains id.index with
  | true =>
    have hrun : Infer.writeExprTy id ty scope s = .error (.writtenTwice id.index) := by
      refine ok_then rfl ?_
      rw [hwritten]
      rfl
    exact .of_error (.writeExprTy id ty) hs hrun fun i h => by cases h
  | false =>
    have hrun : Infer.writeExprTy id ty scope s =
        .ok ((), { s with exprTypes := s.exprTypes.insert id.index ty }) := by
      refine ok_then rfl ?_
      rw [hwritten]
      rfl
    refine .of_ok (.writeExprTy id ty) hs hrun ?_ le_rfl within_plain
    have htypes := hs.holds.exprTypes.insert id.index (hty.mono hW)
    exact hs.recorded rfl rfl { hs.holds with exprTypes := htypes }

end Infer

end TypeInference
