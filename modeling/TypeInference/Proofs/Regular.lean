import TypeInference.Proofs.Evolution
import TypeInference.Proofs.Faults

/-!
# Regular computations

Most of what an inference does is put together from few parts: it makes and unifies variables,
reads from them, and opens and closes snapshots. Such computations are *regular*. The parts that are
left open are its *atoms*: work on the cache, the records that an inference keeps, without
conversions (`Infer.Filing`) or with them (`Infer.Noting`), and reports and variables for numbers
besides (`Infer.Reporting`). The types of expressions and bindings are not among the records.
-/

namespace TypeInference

/-- Variables, cache and recorded types are the same. -/
structure State.SameTypes (s s' : State) : Prop where
  vars : s'.vars = s.vars
  cache : s'.cache = s.cache
  exprTypes : s'.exprTypes = s.exprTypes
  bindings : s'.bindings = s.bindings

/-- The reports are the same, too. -/
structure State.SameReports (s s' : State) : Prop extends s.SameTypes s' where
  diagnostics : s'.diagnostics = s.diagnostics

/-- The conversions are the same, too. -/
structure State.SameConversions (s s' : State) : Prop extends s.SameReports s' where
  adjustments : s'.adjustments = s.adjustments

/-- The state with other reports. -/
def State.withReports (s : State) (reports : List Diagnostic) : State :=
  { s with diagnostics := reports }

/-- The scope with mismatches reported, or not. -/
def Scope.reporting (scope : Scope) (on : Bool) : Scope :=
  { scope with config := { scope.config with reportMismatches := on } }

/-- Only the variables and the cache are other ones. -/
def State.Confined (s s' : State) : Prop := s' = s.restore s'.snapshot

namespace Infer

/-- A class of computations. -/
abbrev Atoms := (α : Type) → Infer α → Prop

variable {α β : Type} {scope : Scope} {E : Fault → Prop} {K : Atoms} {x : Infer α}
  {R : State → State → Prop}

/-- `a` is a result of the computation. -/
def Gives (scope : Scope) (x : Infer α) (a : α) : Prop := ∃ s s', x scope s = .ok (a, s')

/-- A computation in `scope` that is put together from atoms of which `K` holds and from parts whose
faults are among `E`. -/
inductive Regular (scope : Scope) (E : Fault → Prop) (K : Atoms) :
    {α : Type} → Infer α → Prop
  | atom {α : Type} {x : Infer α} : K α x → Regular scope E K x
  | pure {α : Type} (a : α) : Regular scope E K (pure a : Infer α)
  /-- What follows need only be regular for results that there are. -/
  | bindOf {α β : Type} {x : Infer α} {f : α → Infer β} : Regular scope E K x →
    (∀ a, Gives scope x a → Regular scope E K (f a)) → Regular scope E K (x >>= f)
  | throw {α : Type} {e : Fault} : E e → Regular scope E K (throw e : Infer α)
  | lift {α : Type} {x : Except Fault α} : FailsWith E x → Regular scope E K (liftM x : Infer α)
  /-- Whether mismatches are reported is not looked at. -/
  | scopeBind {β : Type} {f : Scope → Infer β} : (∀ on, f (scope.reporting on) = f scope) →
    Regular scope E K (f scope) → Regular scope E K (read >>= f)
  /-- Reports are not looked at. -/
  | stateBind {β : Type} {f : State → Infer β} : (∀ s reports, f (s.withReports reports) = f s) →
    (∀ s, Regular scope E K (f s)) → Regular scope E K (get >>= f)
  | readVars {α : Type} {f : Vars → Except Fault α} : (∀ vs, vs.Sound → FailsWith E (f vs)) →
    Regular scope E K (readVars f)
  | onVars {act : VarM Bool} : Vars.MakesSteps act → (∀ vs, vs.Sound → FailsWith E (act vs)) →
    Regular scope E K (onVars act)
  | freshTy : Regular scope E K freshTy
  | probe {α : Type} {x : Infer α} : Regular scope E K x → Regular scope E K (probe x)
  | combineIfOk {a b : Ty} : (∀ vs, vs.Sound → FailsWith E (Vars.combine a b vs)) →
    Regular scope E K (combineIfOk a b)

/-! ## What holds along a regular computation -/

/-- A relation between earlier and later states that holds along all parts of regular computations
but their atoms. -/
structure Transports (R : State → State → Prop) : Prop where
  refl : ∀ s, R s s
  trans : ∀ {s s' s''}, R s s' → R s' s'' → R s s''
  steps : ∀ {s : State} {vars : Vars}, s.WellFormed → s.vars.Steps vars → R s { s with vars }
  freshTy : ∀ s : State, R s { s with vars := s.vars.freshTy.2 }
  probed : ∀ {s s' : State}, s.WellFormed → s.opened.Evolves s' → R s.opened s' →
    R s (s'.rollback s.mark)
  committed : ∀ {s s' : State}, s.WellFormed → s.opened.Evolves s' → R s.opened s' → R s s'.commit

/-- The relation also holds along whatever else is done to the variables and to the records. -/
structure Carries (R : State → State → Prop) : Prop extends Transports R where
  vars : ∀ {s : State} {vars : Vars}, s.Evolves { s with vars } → R s { s with vars }
  recorded : ∀ {s s' : State}, s.SameTypes s' → R s s'
  steps _ h := vars (.steps h)
  freshTy s := vars (.fresh .ty s)

theorem carries_true : Carries fun _ _ => True where
  refl _ := trivial
  trans _ _ := trivial
  vars _ := trivial
  recorded _ := trivial
  probed _ _ _ := trivial
  committed _ _ _ := trivial

/-- The computation relates the states before and after by `R`, and by the changes of
`State.Evolves`. -/
def Relates (scope : Scope) (R : State → State → Prop) (x : Infer α) : Prop :=
  ∀ ⦃s a s'⦄, s.WellFormed → x scope s = .ok (a, s') → s.Evolves s' ∧ R s s'

namespace Relates

variable {R R' : State → State → Prop} {x : Infer α}

theorem imp (hx : Relates scope R x) (h : ∀ {s s'}, R s s' → R' s s') : Relates scope R' x := by
  intro s a s' hs hrun
  obtain ⟨hevolves, hrelated⟩ := hx hs hrun
  exact ⟨hevolves, h hrelated⟩

variable (hR : Transports R)

include hR

theorem bindOf {f : α → Infer β} (hx : Relates scope R x)
    (hf : ∀ a, Gives scope x a → Relates scope R (f a)) : Relates scope R (x >>= f) := by
  intro s b s' hs h
  obtain ⟨a, s₁, hrun, h⟩ := bind_eq_ok h
  obtain ⟨hfirst, hRfirst⟩ := hx hs hrun
  obtain ⟨hnext, hRnext⟩ := hf a ⟨s, s₁, hrun⟩ (hfirst.spec hs).1 h
  exact ⟨hfirst.trans hnext, hR.trans hRfirst hRnext⟩

theorem of_eq (hx : ∀ ⦃s a s'⦄, x scope s = .ok (a, s') → s' = s) : Relates scope R x := by
  intro s a s' _ h
  rw [hx h]
  exact ⟨.refl s, hR.refl s⟩

theorem onVars {act : VarM Bool} (hact : Vars.MakesSteps act) : Relates scope R (onVars act) := by
  intro s a s' hs h
  obtain ⟨vars, hrun, rfl⟩ := onVars_eq_ok h
  have hsteps := hact hs.vars hrun
  exact ⟨.steps hsteps, hR.steps hs hsteps⟩

theorem probe (hx : Relates scope R x) : Relates scope R (probe x) := by
  intro s a s' hs h
  obtain ⟨m, s₁, ⟨⟩, h⟩ := bind_eq_ok h
  obtain ⟨b, s₂, hrun, ⟨⟩⟩ := bind_eq_ok h
  obtain ⟨hwork, hRwork⟩ := hx (State.wellFormed_opened hs) hrun
  exact ⟨.probed hwork, hR.probed hs hwork hRwork⟩

theorem combineIfOk {a b : Ty} : Relates scope R (combineIfOk a b) := by
  intro s ok s' hs h
  obtain ⟨m, s₁, ⟨⟩, h⟩ := bind_eq_ok h
  obtain ⟨found, s₂, hrun, h⟩ := bind_eq_ok h
  rcases onVars hR (Vars.combine_makesSteps a b) (State.wellFormed_opened hs) hrun with
    ⟨hwork, hRwork⟩
  -- Success closes the snapshot, failure rolls it back.
  cases found with
  | true =>
    cases h
    exact ⟨.committed hwork, hR.committed hs hwork hRwork⟩
  | false =>
    cases h
    exact ⟨.probed hwork, hR.probed hs hwork hRwork⟩

end Relates

namespace Regular

variable {R : State → State → Prop} {x : Infer α}

/-- A relation that holds along the parts of a regular computation holds along the whole. -/
theorem relates (hR : Transports R) (hK : ∀ {α : Type} {x : Infer α}, K α x → Relates scope R x)
    (h : Regular scope E K x) : Relates scope R x := by
  induction h with
  | atom hx => exact hK hx
  | pure a =>
    refine .of_eq hR fun s _ _ h => ?_
    cases h
    rfl
  | bindOf _ _ ih ih' => exact ih.bindOf hR ih'
  | throw _ =>
    refine .of_eq hR fun s _ _ h => ?_
    cases h
  | lift _ => exact .of_eq hR fun s _ _ h => (lift_eq_ok h).2
  | scopeBind _ _ ih => exact fun s _ _ hs h => ih hs h
  | stateBind _ _ ih => exact fun s _ _ hs h => ih s hs h
  | readVars _ => exact .of_eq hR fun s _ _ h => (readVars_eq_ok h).2
  | onVars hact _ => exact .onVars hR hact
  | freshTy =>
    intro s _ _ _ h
    cases h
    exact ⟨.fresh .ty s, hR.freshTy s⟩
  | probe _ ih => exact ih.probe hR
  | combineIfOk _ => exact .combineIfOk hR

theorem spec (hR : Carries R) (hK : ∀ {α : Type} {x : Infer α}, K α x → Relates scope R x)
    (h : Regular scope E K x) : Relates scope R x :=
  h.relates hR.toTransports hK

/-- More atoms allow for more regular computations. -/
theorem mono {K' : Atoms} (hK : ∀ {α : Type} {x : Infer α}, K α x → K' α x)
    (h : Regular scope E K x) : Regular scope E K' x := by
  induction h with
  | atom hx => exact .atom (hK hx)
  | pure a => exact .pure a
  | bindOf _ _ ih ih' => exact .bindOf ih ih'
  | throw he => exact .throw he
  | lift hx => exact .lift hx
  | scopeBind hsame _ ih => exact .scopeBind hsame ih
  | stateBind hsame _ ih => exact .stateBind hsame ih
  | readVars hf => exact .readVars hf
  | onVars hact hfails => exact .onVars hact hfails
  | freshTy => exact .freshTy
  | probe _ ih => exact .probe ih
  | combineIfOk hcombine => exact .combineIfOk hcombine

end Regular

/-! ## Faults -/

/-- In well-formed states the faults of the computation are among `E`. -/
def Fails (scope : Scope) (E : Fault → Prop) (x : Infer α) : Prop :=
  ∀ ⦃s⦄, s.WellFormed → FailsWith E (x scope s)

theorem Fails.bindOf {f : α → Infer β} (hx : Fails scope E x)
    (hevolves : Relates scope (fun _ _ => True) x) (hf : ∀ a, Gives scope x a → Fails scope E (f a)) :
    Fails scope E (x >>= f) := by
  intro s hs
  refine (hx hs).bind_of_ok ?_
  rintro ⟨a, s₁⟩ hrun
  exact hf a ⟨s, s₁, hrun⟩ ((hevolves hs hrun).1.spec hs).1

theorem Fails.onVars {act : VarM α} (hact : ∀ vs, vs.Sound → FailsWith E (act vs)) :
    Fails scope E (onVars act) := by
  intro s hs
  have hrun : FailsWith E ((liftM (act s.vars) : Infer (α × Vars)) scope s) :=
    (hact s.vars hs.vars).bind fun _ => .ok _
  exact hrun.bind fun _ => .ok _

/-- The faults of a regular computation are those of its parts. -/
theorem Regular.failsWith
    (hK : ∀ {α : Type} {x : Infer α}, K α x → Fails scope E x ∧ Relates scope (fun _ _ => True) x)
    (h : Regular scope E K x) : Fails scope E x := by
  induction h with
  | atom hx => exact (hK hx).1
  | pure a => exact fun s _ => .ok _
  | bindOf hx _ ih ih' => exact ih.bindOf (hx.spec carries_true fun hx => (hK hx).2) ih'
  | throw he => exact fun s _ => .error he
  | lift hx => exact fun s _ => hx.bind fun _ => .ok _
  | scopeBind _ _ ih => exact fun s hs => ih hs
  | stateBind _ _ ih => exact fun s hs => ih s hs
  | freshTy => exact fun s _ => .ok _
  | readVars hf => exact fun s hs => (hf s.vars hs.vars).bind fun _ => .ok _
  | onVars _ hact => exact .onVars hact
  | probe _ ih => exact fun s hs => (ih (State.wellFormed_opened hs)).bind fun _ => .ok _
  | combineIfOk hcombine =>
    intro s hs
    have hrun : Fails scope E (Infer.combine _ _) := .onVars hcombine
    refine (hrun (State.wellFormed_opened hs)).bind ?_
    rintro ⟨ok, s'⟩
    cases ok with
    | true | false => exact .ok _

/-! ## Records and reports -/

/-- A change that neither depends on the reports nor changes them. -/
def Silent (f : State → State) : Prop :=
  ∀ (s : State) (reports : List Diagnostic), f (s.withReports reports) = (f s).withReports reports

/-- Work of which `K` holds, and records that leave the same what `S` says. -/
inductive Recording (S : State → State → Prop) (K : Atoms) : (α : Type) → Infer α → Prop
  | op {α : Type} {x : Infer α} : K α x → Recording S K α x
  | record {f : State → State} : (∀ s, S s (f s)) → Silent f →
    Recording S K Unit (modify f : Infer Unit)

/-- Work of which `K` holds, and records other than types, reports and conversions. -/
abbrev Filing := Recording State.SameConversions

/-- Work of which `K` holds, and records other than types and reports. -/
abbrev Noting := Recording State.SameReports

/-- Work of which `K` holds, all records other than types, and variables for numbers. Reports may
be looked at. -/
inductive Reporting (K : Atoms) : (α : Type) → Infer α → Prop
  | op {α : Type} {x : Infer α} : K α x → Reporting K α x
  | read : Reporting K Scope read
  | get : Reporting K State get
  | record {f : State → State} : (∀ s : State, s.SameTypes (f s)) →
    Reporting K Unit (modify f : Infer Unit)
  | freshInt : Reporting K Ty freshInt
  | freshFloat : Reporting K Ty freshFloat

/-- Records that leave the same what `S` says are among the atoms. -/
class Records (S : State → State → Prop) (K : Atoms) : Prop where
  record : ∀ {f : State → State}, (∀ s, S s (f s)) → Silent f → K Unit (modify f : Infer Unit)

/-- Records other than types, reports and conversions are among the atoms. -/
abbrev Files := Records State.SameConversions

/-- Records other than types and reports are among the atoms. -/
abbrev Notes := Records State.SameReports

/-- All records other than types, and variables for numbers, are among the atoms, and so are looks
at everything. -/
class Reports (K : Atoms) : Prop where
  read : K Scope read
  get : K State get
  record : ∀ {f : State → State}, (∀ s : State, s.SameTypes (f s)) → K Unit (modify f : Infer Unit)
  freshInt : K Ty freshInt
  freshFloat : K Ty freshFloat

instance [Notes K] : Files K := ⟨fun hf => Records.record fun s => (hf s).toSameReports⟩

instance [Reports K] : Notes K := ⟨fun hf _ => Reports.record fun s => (hf s).toSameTypes⟩

instance {S : State → State → Prop} : Records S (Recording S K) := ⟨.record⟩

instance : Reports (Reporting K) := ⟨.read, .get, .record, .freshInt, .freshFloat⟩

theorem Relates.modify {f : State → State} (hf : ∀ s : State, s.SameTypes (f s))
    (hR : ∀ s, R s (f s)) : Relates scope R (modify f : Infer Unit) := by
  intro s _ _ _ h
  cases h
  exact ⟨.recorded (hf s).vars (hf s).cache, hR s⟩

/-- Records are related if leaving the same what `S` says is. -/
theorem Recording.relates {S : State → State → Prop} (hS : ∀ {s s'}, S s s' → s.SameTypes s')
    (hR : ∀ {s s'}, S s s' → R s s')
    (hK : ∀ {α : Type} {x : Infer α}, K α x → Relates scope R x) (h : Recording S K α x) :
    Relates scope R x := by
  cases h with
  | op hx => exact hK hx
  | record hf _ => exact .modify (fun s => hS (hf s)) fun s => hR (hf s)

theorem Reporting.relates (hR : Carries R)
    (hK : ∀ {α : Type} {x : Infer α}, K α x → Relates scope R x) (h : Reporting K α x) :
    Relates scope R x := by
  cases h with
  | op hx => exact hK hx
  | read | get =>
    refine .of_eq hR.toTransports fun s _ _ h => ?_
    cases h
    rfl
  | record hf => exact .modify hf fun s => hR.recorded (hf s)
  | freshInt =>
    intro s _ _ _ h
    cases h
    exact ⟨.fresh .int s, hR.vars (.fresh .int s)⟩
  | freshFloat =>
    intro s _ _ _ h
    cases h
    exact ⟨.fresh .float s, hR.vars (.fresh .float s)⟩

theorem Reporting.fails (hK : ∀ {α : Type} {x : Infer α}, K α x → Fails scope E x)
    (h : Reporting K α x) : Fails scope E x := by
  cases h with
  | op hx => exact hK hx
  | read | get | record _ | freshInt | freshFloat => exact fun s _ => .ok _

theorem Regular.noting (h : Regular scope E (Filing K) x) : Regular scope E (Noting K) x := by
  refine h.mono fun hx => ?_
  cases hx with
  | op hx => exact .op hx
  | record hf hsilent => exact .record (fun s => (hf s).toSameReports) hsilent

theorem Regular.reporting (h : Regular scope E (Noting K) x) : Regular scope E (Reporting K) x := by
  refine h.mono fun hx => ?_
  cases hx with
  | op hx => exact .op hx
  | record hf _ => exact .record fun s => (hf s).toSameTypes

/-! ## Rules -/

namespace Regular

variable {f : α → Infer β} {x y : Infer α} {p : α → Infer Bool} {xs : List α}

theorem bind (hx : Regular scope E K x) (hf : ∀ a, Regular scope E K (f a)) :
    Regular scope E K (x >>= f) :=
  hx.bindOf fun a _ => hf a

theorem readBind {f : Scope → Infer β} (hsame : ∀ on, f (scope.reporting on) = f scope)
    (hf : Regular scope E K (f scope)) :
    Regular scope E K (MonadReader.read >>= f) :=
  scopeBind hsame hf

theorem reads {f : Scope → Infer β} (hsame : ∀ on, f (scope.reporting on) = f scope)
    (hf : ∀ scope', Regular scope E K (f scope')) :
    Regular scope E K (MonadReader.read >>= f) :=
  scopeBind hsame (hf scope)

theorem record [Notes K] {f : State → State} (hsilent : Silent f)
    (hf : ∀ s : State, s.SameReports (f s)) : Regular scope E K (modify f : Infer Unit) :=
  atom (Records.record hf hsilent)

theorem read [Reports K] : Regular scope E K (MonadReader.read : Infer Scope) := atom Reports.read

theorem get [Reports K] : Regular scope E K (MonadState.get : Infer State) := atom Reports.get

theorem report [Reports K] {d : Diagnostic} : Regular scope E K (report d) :=
  atom (Reports.record fun _ => ⟨rfl, rfl, rfl, rfl⟩)

theorem freshInt [Reports K] : Regular scope E K freshInt := atom Reports.freshInt

theorem freshFloat [Reports K] : Regular scope E K freshFloat := atom Reports.freshFloat

theorem discard (hx : Regular scope E K x) : Regular scope E K (discard x) :=
  hx.bind fun _ => pure ()

end Regular

/-! ## Work on the cache -/

/-- Work on the cache. -/
inductive CacheOp : (α : Type) → Infer α → Prop
  | put (p : Projection) (entry : CacheEntry) : CacheOp Unit (cachePut p entry)
  | start (p : Projection) : CacheOp (Option CacheEntry) (cacheStart p)

theorem cacheStart_run (p : Projection) (scope : Scope) (s : State) :
    cacheStart p scope s =
      .ok ((s.cache.start p).1, { s with cache := (s.cache.start p).2 }) := rfl

theorem CacheOp.spec {scope : Scope} {α : Type} {x : Infer α} (h : CacheOp α x) :
    Relates scope (fun s s' => ∃ cache, s' = { s with cache }) x := by
  cases h with
  | put p entry =>
    intro s _ _ _ h
    cases h
    exact ⟨.cached s p entry, _, rfl⟩
  | start p =>
    intro s _ s' _ h
    rw [cacheStart_run] at h
    cases h
    refine ⟨?_, _, rfl⟩
    unfold ProjectionCache.start
    split
    · exact .refl s
    · exact .cached s p .inProgress

theorem CacheOp.fails {scope : Scope} {E : Fault → Prop} {α : Type} {x : Infer α}
    (h : CacheOp α x) : Fails scope E x := by
  cases h with
  | put p entry | start p => exact fun s _ => .ok _

theorem CacheOp.relates {scope : Scope} {α : Type} {x : Infer α} (h : CacheOp α x) :
    Relates scope (fun _ _ => True) x :=
  h.spec.imp fun _ => trivial

theorem transports_confined : Transports State.Confined where
  refl _ := rfl
  trans {s s' s''} h h' := by
    rw [State.Confined, h', h]
    rfl
  steps _ _ := rfl
  freshTy _ := rfl
  probed {s s'} _ _ h := by
    rw [State.Confined, h]
    rfl
  committed {s s'} _ _ h := by
    rw [State.Confined, h]
    rfl

theorem Regular.confined {scope : Scope} {E : Fault → Prop} {α : Type} {x : Infer α}
    (hx : Regular scope E CacheOp x) : Relates scope State.Confined x := by
  refine hx.relates transports_confined fun hx => hx.spec.imp ?_
  rintro s _ ⟨_, rfl⟩
  rfl

/-- A computation that returns leaves the state as it was. -/
def Keeps {α : Type} (scope : Scope) (x : Infer α) : Prop :=
  ∀ ⦃s a s'⦄, s.WellFormed → x scope s = .ok (a, s') → s' = s

namespace Keeps

variable {α β : Type} {scope : Scope} {E : Fault → Prop} {x y : Infer α} {f : α → Infer β}
  {xs : List α}

theorem pure (a : α) : Keeps scope (pure a : Infer α) := by
  intro s _ s' _ h
  cases h
  rfl

theorem bind (hx : Keeps scope x) (hf : ∀ a, Keeps scope (f a)) : Keeps scope (x >>= f) := by
  intro s b s' hs h
  obtain ⟨a, s₁, hfirst, hnext⟩ := bind_eq_ok h
  cases hx hs hfirst
  exact hf a hs hnext

theorem read : Keeps scope (read : Infer Scope) := by
  intro s _ s' _ h
  cases h
  rfl

theorem lift {x : Except Fault α} : Keeps scope (liftM x : Infer α) :=
  fun _ _ _ _ h => (lift_eq_ok h).2

theorem readVars {f : Vars → Except Fault α} : Keeps scope (readVars f) :=
  fun _ _ _ _ h => (readVars_eq_ok h).2

theorem probe (hx : Regular scope E CacheOp x) : Keeps scope (probe x) := by
  intro s a s' hs h
  obtain ⟨m, s₁, ⟨⟩, h⟩ := bind_eq_ok h
  obtain ⟨b, s₂, hrun, ⟨⟩⟩ := bind_eq_ok h
  have hopened := State.wellFormed_opened hs
  obtain ⟨hwork, hconfined⟩ := hx.confined hopened hrun
  show s₂.rollback s.mark = s
  rw [(hwork.spec hopened).2.rollback_eq, hconfined]
  rfl

theorem mapM (hf : ∀ a, Keeps scope (f a)) : Keeps scope (xs.mapM f) :=
  mapM_closed (P := Keeps scope) ⟨pure, bind⟩ fun a _ => hf a

theorem filterM {p : α → Infer Bool} (hp : ∀ a, Keeps scope (p a)) :
    Keeps scope (xs.filterM p) := by
  have hloop : ∀ acc, Keeps scope (xs.filterAuxM p acc) := by
    induction xs with
    | nil => exact fun acc => pure acc
    | cons x xs ih => exact fun acc => (hp x).bind fun _ => ih _
  exact (hloop []).bind fun _ => pure _

end Keeps

end Infer

end TypeInference
