import TypeInference.Proofs.Steps

/-!
# How unification proceeds

Unification compares two types level by level. An open variable is bound or merged, and a variable
of the first type that is not open is followed to what it stands for. Other types are settled at
their level, or have components that *face* each other and are combined in turn.
-/

namespace TypeInference

/-- The components of two types that have to be equal for the types to be equal, where neither type
is a variable; `none` if the types differ at the outermost level. -/
def Ty.faces? : Ty → Ty → Option (List Ty × List Ty)
  | .ref a m _, .ref b n _ => if m = n then some ([a], [b]) else none
  | .ptr a m, .ptr b n => if m = n then some ([a], [b]) else none
  | .array a m, .array b n => if Vars.lengthsAgree m n then some ([a], [b]) else none
  | .slice a, .slice b => some ([a], [b])
  | .tuple as, .tuple bs => if as.length = bs.length then some (as, bs) else none
  | .fn as a, .fn bs b => if as.length = bs.length then some (as ++ [a], bs ++ [b]) else none
  | .adt i as, .adt j bs => if i = j ∧ as.length = bs.length then some (as, bs) else none
  | .dyn a, .dyn b => if a.trait = b.trait then some ([], []) else none
  | .existential c _, .existential d _ => if c.isSome && c = d then some ([], []) else none
  | _, _ => none

theorem Ty.eq_var_or (t : Ty) : (∃ v, t = .var v) ∨ t.isVar = false := by
  cases t with
  | var v => exact .inl ⟨v, rfl⟩
  | _ => exact .inr rfl

theorem Ty.isVar_of_mem_components {t u : Ty} (hu : u ∈ t.components) : t.isVar = false := by
  cases t with
  | var => cases hu
  | _ => rfl

theorem Ty.eq_tyVar_or (t : Ty) : (∃ i, t = .var (.ty i)) ∨ t.isTyVar = false := by
  cases t with
  | var v =>
    cases v with
    | ty i => exact .inl ⟨i, rfl⟩
    | _ => exact .inr rfl
  | _ => exact .inr rfl

theorem Ty.eq_never_of_isNever {t : Ty} (h : t.isNever = true) : t = .never := by
  cases t with
  | never => rfl
  | _ => cases h

/-- Whether a variable may stand for a type of this form. -/
def Var.standsFor : Var → Ty → Bool
  | .ty _, _ => true
  | .int _, t => t.isIntegral
  | .float _, t => t.isFloat

namespace Vars

variable {i : Nat}

open Relation

variable {vs vs' : Vars} {a b h t : Ty} {v w : Var} {ok : Bool}

section equations

variable (onCycle : Except Fault Ty) (follow : Var → Ty → VarM Bool) {k : Kind}

/-! ## Variables -/

/-- A variable of a kind, and a type that it has to equal. -/
inductive Linking : Kind → Ty → Prop
  | same (k : Kind) (j : Nat) : Linking k (.var (k.var j))
  | general {t : Ty} : t.isTyVar = false → Linking .ty t
  | swapped {k : Kind} (j : Nat) : k ≠ .ty → Linking k (.var (.ty j))
  | number {k : Kind} (x : k.Value) : k ≠ .ty → Linking k (k.type x)
  | apart {k : Kind} {t : Ty} : t.isTyVar = false → (∀ i, (k.var i).standsFor t = false) →
    Linking k t

/-- What a variable may have to equal. -/
theorem linking (k : Kind) (t : Ty) : Linking k t := by
  cases k with
  | ty =>
    rcases t.eq_tyVar_or with ⟨j, rfl⟩ | hvar
    · exact .same .ty j
    · exact .general hvar
  | int | float =>
    cases t with
    | var w =>
      cases w with
      | ty j => exact .swapped j nofun
      | _ => first | exact .apart rfl fun _ => rfl | exact .same _ _
    | int x => first | exact .apart rfl fun _ => rfl | exact .number (k := .int) x nofun
    | float x => first | exact .apart rfl fun _ => rfl | exact .number (k := .float) x nofun
    | _ => exact .apart rfl fun _ => rfl

/-- Two variables of one kind are merged. -/
theorem combineVar_same (k : Kind) (i j : Nat) (vs : Vars) :
    combineVar onCycle (k.var i) (.var (k.var j)) vs = (do
      let tbl ← (k.table vs).union i j
      return (true, k.put vs tbl)) := by
  cases k <;> simp only [Kind.var, combineVar, combineTyVar, combineIntVar, combineFloatVar,
    StateT.bind_run, StateT.get_run, StateT.lift_run, StateT.set_run, StateT.pure_run,
    Except.ok_bind, bind_assoc] <;> rfl

/-- A general variable takes a type, unless it occurs in it. -/
theorem combineVar_general (i : Nat) (ht : t.isTyVar = false) (vs : Vars) :
    combineVar onCycle (.ty i) t vs = (do
      let root ← vs.tys.root i
      let cyclic ← vs.occursIn root t
      let value ← if cyclic then onCycle else pure t
      let tys ← vs.tys.bind root value
      return (true, { vs with tys })) := by
  have hmatch : combineTyVar onCycle i t = (do
      let vs ← get
      let root ← vs.tys.root i
      let value ← if ← vs.occursIn root t then onCycle else pure t
      set { vs with tys := ← vs.tys.bind root value }) := by
    unfold combineTyVar
    refine bind_congr ?_
    intro vs
    cases t with
    | var v =>
      cases v with
      | ty i => cases ht
      | _ => rfl
    | _ => rfl
  rw [combineVar, hmatch]
  simp only [StateT.bind_run, StateT.get_run, StateT.lift_run, Except.ok_bind, bind_assoc]
  refine bind_congr fun root => bind_congr fun cyclic => ?_
  cases cyclic with
  | true =>
    simp only [if_true, StateT.bind_run, StateT.lift_run, StateT.set_run, bind_assoc,
      Except.ok_bind]
    rfl
  | false =>
    simp only [Bool.false_eq_true, if_false, StateT.bind_run, StateT.pure_run, StateT.lift_run,
      StateT.set_run, bind_assoc, Except.ok_bind]
    rfl

theorem combineVar_swapped (hk : k ≠ .ty) (i j : Nat) (vs : Vars) :
    combineVar onCycle (k.var i) (.var (.ty j)) vs =
      combineVar onCycle (.ty j) (.var (k.var i)) vs := by
  cases k with
  | ty => exact absurd rfl hk
  | int | float => rfl

theorem combineVar_number (hk : k ≠ .ty) (i : Nat) (x : k.Value) (vs : Vars) :
    combineVar onCycle (k.var i) (k.type x) vs = (do
      let tbl ← (k.table vs).bind i x
      return (true, k.put vs tbl)) := by
  cases k with
  | ty => exact absurd rfl hk
  | int | float =>
    simp only [Kind.var, Kind.type, combineVar, combineIntVar, combineFloatVar, StateT.bind_run,
      StateT.get_run, StateT.lift_run, StateT.set_run, StateT.pure_run, Except.ok_bind, bind_assoc]
    rfl

/-- A variable for a number is left alone by a type of another kind. -/
theorem combineVar_apart (ht : t.isTyVar = false) (hv : v.standsFor t = false) (vs : Vars) :
    combineVar onCycle v t vs = .ok (t.isNever, vs) := by
  cases v with
  | ty i => cases hv
  | int i | float i =>
    cases t with
    | var w =>
      cases w with
      | ty j => cases ht
      | _ => first | rfl | cases hv
    | _ => first | rfl | cases hv

end equations

/-- What becomes of an open variable `v` and a resolved type `t`. -/
inductive Links (onCycle : Except Fault Ty) (vs : Vars) (v : Var) (t : Ty) : Bool → Vars → Prop
  | merged {w : Var} {vs' : Vars} :
    t = .var w → vs.Step vs' → vs.Merges v w vs' → Links onCycle vs v t true vs'
  | bound {vs' : Vars} : vs.Step vs' → vs.Binds v t vs' → t.isTyVar = false →
    (∀ i, v = .ty i → vs.occursIn i t = .ok false) → Links onCycle vs v t true vs'
  /-- A general variable takes the numeric variable `v` as its value. -/
  | boundBy {w : Var} {vs' : Vars} :
    t = .var w → vs.Step vs' → vs.Binds w (.var v) vs' → (Ty.var v).isTyVar = false →
      Links onCycle vs v t true vs'
  /-- The variable would occur in its own value. -/
  | cyclic {i : Nat} {vs' : Vars} :
    v = .ty i → vs.occursIn i t = .ok true → onCycle = .ok .unknown → vs.Step vs' →
      vs.Binds v .unknown vs' → t.isTyVar = false → Links onCycle vs v t true vs'
  /-- A numeric variable and a type that is not of its kind. -/
  | kept : t.isTyVar = false → v.standsFor t = false → Links onCycle vs v t t.isNever vs

/-- Variables that would occur in their own value are bound to the unknown type, if at all. -/
def Tolerant (onCycle : Except Fault Ty) : Prop := ∀ u, onCycle = .ok u → u = .unknown

variable {onCycle : Except Fault Ty} {k : Kind}

theorem isTyVar_of_number (hk : k ≠ .ty) (i : Nat) : (Ty.var (k.var i)).isTyVar = false := by
  cases k <;> first | rfl | exact absurd rfl hk

theorem occursIn_number (hk : k ≠ .ty) (i j : Nat) :
    vs.occursIn j (.var (k.var i)) = .ok false := by
  cases k <;> first | rfl | exact absurd rfl hk

theorem binds_of_combineVar (hs : vs.Sound) (hi : vs.Open (.ty i)) (hvar : t.isTyVar = false)
    (hoccurs : vs.occursIn i t = .ok false) (h : combineVar onCycle (.ty i) t vs = .ok (ok, vs')) :
    ok = true ∧ vs.Step vs' ∧ vs.Binds (.ty i) t vs' := by
  have hroot := hi.root_stored.1
  rw [combineVar_general onCycle i hvar, hroot, Except.ok_bind, hoccurs, Except.ok_bind] at h
  obtain ⟨value, hvalue, h⟩ := Except.bind_eq_ok h
  obtain rfl : t = value := Except.ok.inj hvalue
  obtain ⟨tys, hbind, ⟨⟩⟩ := Except.bind_eq_ok h
  exact ⟨rfl, .bindTy hi hoccurs hbind, hs.binds (k := .ty) hi hbind⟩

/-- An open variable is merged, bound, or left alone. -/
theorem links_of_combineVar (hcycle : Tolerant onCycle) (hs : vs.Sound) (hv : vs.Open v)
    (ht : ∀ w, t = .var w → vs.Open w) (h : combineVar onCycle v t vs = .ok (ok, vs')) :
    Links onCycle vs v t ok vs' := by
  obtain ⟨k, i, rfl⟩ := exists_kind v
  cases linking k t with
  -- Two variables of one kind are merged without an occurs check: both classes are open.
  | same k j =>
    rw [combineVar_same] at h
    obtain ⟨tbl, hunion, ⟨⟩⟩ := Except.bind_eq_ok h
    have hj := ht _ rfl
    exact .merged rfl (.merge hv hj hunion) (hs.merges hv hj hunion)
  | general hvar =>
    have hroot := hv.root_stored.1
    have hrun := h
    rw [Kind.var, combineVar_general onCycle i hvar, hroot, Except.ok_bind] at hrun
    obtain ⟨cyclic, hoccurs, hrun⟩ := Except.bind_eq_ok hrun
    cases cyclic with
    | false =>
      obtain ⟨rfl, hstep, hbinds⟩ := binds_of_combineVar hs hv hvar hoccurs h
      refine .bound hstep hbinds hvar ?_
      rintro _ ⟨⟩
      exact hoccurs
    | true =>
      obtain ⟨value, hvalue, hrun⟩ := Except.bind_eq_ok hrun
      obtain ⟨tys, hbind, ⟨⟩⟩ := Except.bind_eq_ok hrun
      obtain rfl := hcycle value hvalue
      exact .cyclic rfl hoccurs hvalue (.bindTy hv rfl hbind)
        (hs.binds (k := .ty) hv hbind) hvar
  -- A numeric variable is bound to a general one, whichever side that is on.
  | swapped j hk =>
    have hvar := isTyVar_of_number hk i
    rw [combineVar_swapped _ hk] at h
    obtain ⟨rfl, hstep, hbinds⟩ := binds_of_combineVar hs (ht _ rfl) hvar (occursIn_number hk i j) h
    exact .boundBy rfl hstep hbinds hvar
  | number x hk =>
    rw [combineVar_number _ hk] at h
    obtain ⟨tbl, hbind, ⟨⟩⟩ := Except.bind_eq_ok h
    have hbinds := hs.binds hv hbind
    refine .bound (.number hk hv hbind) hbinds ?_ ?_
    · cases k <;> first | rfl | exact absurd rfl hk
    · rintro i' hi'
      cases k <;> first | exact absurd rfl hk | cases hi'
  | apart hvar hkind =>
    rw [combineVar_apart _ hvar (hkind i)] at h
    cases h
    exact .kept hvar (hkind i)

theorem Links.steps (h : Links onCycle vs v t ok vs') : Steps vs vs' := by
  cases h with
  | merged _ hstep _ => exact .single hstep
  | bound hstep _ | boundBy _ hstep _ | cyclic _ _ _ hstep _ => exact .single hstep
  | kept => exact .refl

/-! ## One level of two types -/

section equations

variable (onCycle : Except Fault Ty) (follow : Var → Ty → VarM Bool) {inside next : Ty → VarM Bool}
  {e : Fault}

theorem combineWith_of_var (hb : vs.head b = .ok (.var v)) :
    combineWith onCycle a b inside vs = combineVar onCycle v a vs := by
  simp only [combineWith, StateT.bind_run, StateT.get_run, StateT.lift_run, Except.ok_bind, hb]

theorem combineWith_of_node (hb : vs.head b = .ok h) (hnode : h.isVar = false) :
    combineWith onCycle a b inside vs =
      if (a == h || a.isNever || h.isNever) = true then .ok (true, vs) else inside h vs := by
  have hmatch : combineWith onCycle a b inside vs =
      (if (a == h || a.isNever || h.isNever) = true then pure true else inside h : VarM Bool)
        vs := by
    simp only [combineWith, StateT.bind_run, StateT.get_run, StateT.lift_run, Except.ok_bind, hb]
    cases h with
    | var v => cases hnode
    | _ => rfl
  rw [hmatch]
  split <;> rfl

theorem combineWith_of_error (hb : vs.head b = .error e) :
    combineWith onCycle a b inside vs = .error e := by
  simp only [combineWith, StateT.bind_run, StateT.get_run, StateT.lift_run, Except.ok_bind, hb]
  rfl

/-- Combines the components of `a`, which is not a variable, with those of `b`. -/
def combineInside : Ty → Ty → VarM Bool
  | .fn as a, .fn bs b => do
    if as.length = bs.length then
      if ← combineListBy onCycle follow as bs then combineBy onCycle follow a b else return false
    else
      return false
  | a, b =>
    match a.faces? b with
    | some (as, bs) => combineListBy onCycle follow as bs
    | none => pure false

/-- Types that are no variables are combined by their components. -/
theorem combineBy_eq (ha : a.isVar = false) (b : Ty) :
    combineBy onCycle follow a b =
      combineWith onCycle a b (combineInside onCycle follow a) := by
  -- Only what is done with the components differs between the constructors.
  have hinside : ∀ i : Ty → VarM Bool, (∀ t, i t = combineInside onCycle follow a t) →
      combineWith onCycle a b i = combineWith onCycle a b (combineInside onCycle follow a) :=
    fun _ h => congrArg (combineWith onCycle a b) (funext h)
  cases a with
  | var v => cases ha
  | ref | ptr | array | tuple | adt | dyn =>
    rw [combineBy]
    refine hinside _ ?_
    intro t
    cases t <;> simp only [combineInside, Ty.faces?]
    split <;> simp_all [combineListBy]
  | slice =>
    rw [combineBy]
    refine hinside _ ?_
    intro t
    cases t <;> simp [combineInside, Ty.faces?, combineListBy]
  | fn =>
    rw [combineBy]
    refine hinside _ ?_
    intro t
    cases t <;> rfl
  | existential c _ =>
    rw [combineBy]
    refine hinside _ ?_
    intro t
    cases t with
    | existential d _ =>
      cases h : c.isSome && decide (c = d) <;>
        simp [combineInside, Ty.faces?, h, combineListBy]
    | _ => rfl
  | _ =>
    refine hinside (fun _ => pure false) ?_
    intro t
    cases t <;> rfl

/-- Combines a variable with `b`: an open variable is bound or merged, and otherwise `next` combines
what it stands for. -/
def followWith (v : Var) (b : Ty) (next : Ty → VarM Bool) : VarM Bool := do
  let vs ← get
  match ← vs.head (.var v) with
  | .var root => combineVar onCycle root (← vs.head b)
  | a => next a

theorem followWithin_succ (n : Nat) (v : Var) (b : Ty) :
    followWithin onCycle (n + 1) v b =
      followWith onCycle v b fun a => combineBy onCycle (followWithin onCycle n) a b := rfl

theorem followWith_of_var (hv : vs.head (.var v) = .ok (.var w)) :
    followWith onCycle v b next vs = (do combineVar onCycle w (← vs.head b) vs) := by
  simp only [followWith, StateT.bind_run, StateT.get_run, StateT.lift_run, Except.ok_bind, hv,
    bind_assoc]

theorem followWith_of_node (hv : vs.head (.var v) = .ok h) (hnode : h.isVar = false) :
    followWith onCycle v b next vs = next h vs := by
  simp only [followWith, StateT.bind_run, StateT.get_run, StateT.lift_run, Except.ok_bind, hv]
  cases h with
  | var v => cases hnode
  | _ => rfl

theorem followWith_of_error (hv : vs.head (.var v) = .error e) :
    followWith onCycle v b next vs = .error e := by
  simp only [followWith, StateT.bind_run, StateT.get_run, StateT.lift_run, Except.ok_bind, hv]
  rfl

theorem follow_run (v : Var) (b : Ty) (vs : Vars) :
    Vars.follow onCycle v b vs = followWithin onCycle (vs.tys.size + 1) v b vs := rfl

end equations

end Vars

/-! ## Facing components -/

namespace Ty

variable {a b : Ty} {as bs : List Ty}

/-- As many components of the one type face as many of the other. -/
theorem faces?_eq_some (h : a.faces? b = some (as, bs)) :
    ((∀ x ∈ as, x ∈ a.components) ∧ ∀ y ∈ bs, y ∈ b.components) ∧ as.length = bs.length := by
  unfold faces? at h
  split at h
  case h_10 => cases h
  all_goals
    simp only [Option.ite_none_right_eq_some, Option.some.injEq, Prod.mk.injEq] at h
    grind [components]

theorem isVar_of_faces? (h : a.faces? b = some (as, bs)) : a.isVar = false ∧ b.isVar = false := by
  unfold faces? at h
  split at h
  case h_10 => cases h
  all_goals exact ⟨rfl, rfl⟩

/-- Components face each other after a change of all of them. -/
theorem faces?_mapComponents (f : Ty → Ty) (h : a.faces? b = some (as, bs)) :
    (a.mapComponents f).faces? (b.mapComponents f) = some (as.map f, bs.map f) := by
  unfold faces? at h
  split at h
  case h_10 => cases h
  all_goals
    simp only [Option.ite_none_right_eq_some, Option.some.injEq, Prod.mk.injEq] at h
    simp only [mapComponents, faces?]
    grind [Bound.mapComponents]

theorem faces?_assign (σ : Var → Ty) (h : a.faces? b = some (as, bs)) :
    (a.assign σ).faces? (b.assign σ) = some (as.map (assign σ), bs.map (assign σ)) := by
  obtain ⟨ha, hb⟩ := isVar_of_faces? h
  rw [assign_eq ha, assign_eq hb]
  exact faces?_mapComponents _ h

end Ty

/-! ## What is left to do -/

/-- What unification does with two types that are resolved at the outermost level. -/
inductive Task where
  /-- An open variable takes a type. -/
  | link (v : Var) (t : Ty)
  /-- Nothing is left to be done. -/
  | decided (ok : Bool)
  /-- The components that face each other are combined. -/
  | components (as bs : List Ty)
  /-- Parameters are combined, and the results if these agree. -/
  | signature (as bs : List Ty) (a b : Ty)

/-- The types agree at once, if they are no variables. -/
def Ty.settles (a b : Ty) : Bool := a == b || a.isNever || b.isNever

/-- Two types and what is to be done with them. -/
inductive HasTask : Ty → Ty → Task → Prop
  | left (v : Var) (b : Ty) : HasTask (.var v) b (.link v b)
  | right {a : Ty} (w : Var) : a.isVar = false → HasTask a (.var w) (.link w a)
  | settled {a b : Ty} : a.isVar = false → b.isVar = false → a.settles b = true →
    HasTask a b (.decided true)
  | apart {a b : Ty} : a.isVar = false → b.isVar = false → a.settles b = false →
    a.faces? b = none → HasTask a b (.decided false)
  | components {a b : Ty} {as bs : List Ty} : a.settles b = false →
    (∀ xs x, a ≠ .fn xs x) → a.faces? b = some (as, bs) → HasTask a b (.components as bs)
  | signature {as bs : List Ty} {r s : Ty} : (Ty.fn as r).settles (.fn bs s) = false →
    as.length = bs.length → HasTask (.fn as r) (.fn bs s) (.signature as bs r s)

/-- There is always something to be done. -/
theorem exists_hasTask (a b : Ty) : ∃ task, HasTask a b task := by
  rcases a.eq_var_or with ⟨v, rfl⟩ | ha
  · exact ⟨_, .left v b⟩
  rcases b.eq_var_or with ⟨w, rfl⟩ | hb
  · exact ⟨_, .right w ha⟩
  cases hsettled : a.settles b with
  | true => exact ⟨_, .settled ha hb hsettled⟩
  | false =>
    cases hfaces : a.faces? b with
    | none => exact ⟨_, .apart ha hb hsettled hfaces⟩
    | some p =>
      by_cases hfn : ∀ xs x, a ≠ .fn xs x
      · exact ⟨_, .components hsettled hfn hfaces⟩
      · push Not at hfn
        obtain ⟨as, r, rfl⟩ := hfn
        cases b with
        | fn bs s =>
          have hlength := (Option.ite_none_right_eq_some.1 hfaces).1
          exact ⟨_, .signature hsettled hlength⟩
        | _ => cases hfaces

namespace HasTask

variable {x y r s a b t : Ty} {as bs : List Ty} {task task' : Task}

/-- What is to be done is determined by the two types. -/
theorem unique (h : HasTask x y task) (h' : HasTask x y task') : task = task' := by
  cases h <;> cases h' <;> simp_all [Ty.faces?, Ty.isVar]

theorem mem_components (h : HasTask x y (.components as bs)) :
    (∀ a ∈ as, a ∈ x.components) ∧ ∀ b ∈ bs, b ∈ y.components := by
  cases h with
  | components _ _ hfaces => exact (Ty.faces?_eq_some hfaces).1

theorem mem_signature (h : HasTask x y (.signature as bs r s)) :
    (∀ a ∈ as ++ [r], a ∈ x.components) ∧ ∀ b ∈ bs ++ [s], b ∈ y.components := by
  cases h with
  | signature => exact ⟨fun _ ha => ha, fun _ hb => hb⟩

theorem length_eq (h : HasTask x y (.components as bs)) : as.length = bs.length := by
  cases h with
  | components _ _ hfaces => exact (Ty.faces?_eq_some hfaces).2

theorem length_eq_signature (h : HasTask x y (.signature as bs r s)) : as.length = bs.length := by
  cases h with
  | signature _ hlength => exact hlength

theorem isOpen {vs : Vars} {v : Var} (h : HasTask x y (.link v t)) (ha : vs.Heads a x)
    (hb : vs.Heads b y) : vs.Open v ∧ ∀ w, t = .var w → vs.Open w := by
  cases h with
  | left =>
    refine ⟨ha.isOpen, ?_⟩
    rintro w rfl
    exact hb.isOpen
  | right w hnode =>
    refine ⟨hb.isOpen, ?_⟩
    rintro w rfl
    cases hnode

end HasTask

namespace Vars

section

variable {c : Except Fault Ty} {f : Var → Ty → VarM Bool} {vs : Vars} {a b h t : Ty} {v : Var}
  {n : Nat} {e : Fault} {task : Task}

/-- Does what is to be done. -/
def runTask (c : Except Fault Ty) (f : Var → Ty → VarM Bool) : Task → VarM Bool
  | .link v t => combineVar c v t
  | .decided ok => pure ok
  | .components as bs => combineListBy c f as bs
  | .signature as bs a b => do
    if ← combineListBy c f as bs then combineBy c f a b else return false

/-- Combining types is doing what is to be done with their heads. -/
theorem combineBy_run (htask : HasTask a t task) (ha : a.isVar = false) (hb : vs.head b = .ok t) :
    combineBy c f a b vs = runTask c f task vs := by
  rw [combineBy_eq c f ha]
  cases htask with
  | left => cases ha
  | right => exact combineWith_of_var c hb
  | settled _ ht hsettled =>
    rw [combineWith_of_node c hb ht]
    exact if_pos hsettled
  | apart _ ht hsettled hfaces =>
    rw [combineWith_of_node c hb ht]
    refine (if_neg (Bool.eq_false_iff.1 hsettled)).trans (congrFun ?_ vs)
    fun_cases combineInside c f a t <;> simp_all [Ty.faces?, runTask]
  | components hsettled hfn hfaces =>
    rw [combineWith_of_node c hb (Ty.isVar_of_faces? hfaces).2]
    refine (if_neg (Bool.eq_false_iff.1 hsettled)).trans (congrFun ?_ vs)
    fun_cases combineInside c f a t <;> simp_all [runTask]
  | signature hsettled hlength =>
    rw [combineWith_of_node c hb rfl]
    refine (if_neg (Bool.eq_false_iff.1 hsettled)).trans (congrFun ?_ vs)
    exact if_pos hlength

/-- So it is for a variable that is followed. -/
theorem followWithin_run {n : Nat} (htask : HasTask h t task) (hv : vs.head (.var v) = .ok h)
    (hb : vs.head b = .ok t) :
    followWithin c (n + 1) v b vs = runTask c (followWithin c n) task vs := by
  rw [followWithin_succ]
  rcases h.eq_var_or with ⟨w, rfl⟩ | hnode
  · rw [followWith_of_var c hv, hb]
    cases htask with
    | left => rfl
    | right _ hnode | settled hnode | apart hnode => cases hnode
    | components _ _ hfaces => cases (Ty.isVar_of_faces? hfaces).1
  · rw [followWith_of_node c hv hnode]
    exact combineBy_run htask hnode hb

theorem combineBy_of_error (ha : a.isVar = false) (hb : vs.head b = .error e) :
    combineBy c f a b vs = .error e := by
  rw [combineBy_eq c f ha, combineWith_of_error c hb]

theorem followWithin_of_error (hv : vs.head (.var v) = .error e) :
    followWithin c (n + 1) v b vs = .error e := by
  rw [followWithin_succ, followWith_of_error c hv]

theorem followWithin_of_other_error (hv : vs.head (.var v) = .ok h) (hb : vs.head b = .error e) :
    followWithin c (n + 1) v b vs = .error e := by
  rw [followWithin_succ]
  rcases h.eq_var_or with ⟨w, rfl⟩ | hnode
  · rw [followWith_of_var c hv, hb]
    rfl
  · rw [followWith_of_node c hv hnode, combineBy_of_error hnode hb]

end

/-! ## Types that roots and values stay among -/

/-- What roots and values lead to from types of which `D` holds are such types again. -/
structure Keeps (D : Ty → Prop) (vs : Vars) : Prop where
  root : ∀ v r, D (.var v) → vs.rootVar v = .ok r → D (.var r)
  value : ∀ v t, D (.var v) → vs.valueOf v = .ok (some t) → D t

section

variable {D : Ty → Prop} {vs vs' : Vars} {h t u : Ty} {v w : Var} {onCycle : Except Fault Ty}
  {ok : Bool}

theorem Heads.keeps (hD : Keeps D vs) (hh : vs.Heads t h) (ht : D t) : D h := by
  induction hh with
  | node _ => exact ht
  | bound hvalue _ ih => exact ih (hD.value _ _ ht hvalue)
  | unbound _ hroot => exact hD.root _ _ ht hroot

theorem Merges.keeps (h : vs.Merges v w vs') (hD : Keeps D vs) (hv : D (.var v)) :
    Keeps D vs' := by
  constructor
  · intro u r hu hr
    rw [h.root_eq] at hr
    obtain ⟨q, hroot, rfl⟩ := Except.map_eq_ok hr
    -- Whatever had the root `w` now has the root `v`.
    split
    · exact hv
    · exact hD.root u q hu hroot
  · intro u t hu ht
    rw [h.value_eq] at ht
    exact hD.value u t hu ht

theorem Binds.keeps (h : vs.Binds v t vs') (hD : Keeps D vs) (ht : D t) : Keeps D vs' := by
  constructor
  · intro u r hu hr
    rw [h.root_eq] at hr
    exact hD.root u r hu hr
  · intro u t' hu ht'
    by_cases hroot : vs.rootVar u = .ok v
    · rw [h.value_self u hroot] at ht'
      cases ht'
      exact ht
    · rw [h.value_other u hroot] at ht'
      exact hD.value u t' hu ht'

/-- Linking among types keeps roots and values among them. -/
theorem Links.keeps (h : Links onCycle vs v t ok vs') (hD : Keeps D vs) (hv : D (.var v))
    (ht : D t) (hunknown : D .unknown) : Keeps D vs' := by
  cases h with
  | merged _ _ hmerges => exact hmerges.keeps hD hv
  | bound _ hbinds => exact hbinds.keeps hD ht
  | boundBy _ _ hbinds => exact hbinds.keeps hD hv
  | cyclic _ _ _ _ hbinds => exact hbinds.keeps hD hunknown
  | kept => exact hD

/-- Where all types of which `D` holds are known to have existing variables, these are grounded. -/
theorem Keeps.grounded (hD : Keeps D vs) (hcomponent : Ty.Inherited D)
    (hhas : ∀ v, D (.var v) → vs.Has v) (ht : D t) : vs.Grounded t := by
  intro v hmeets
  induction hmeets with
  | here hv => exact hhas _ (Ty.of_mem_vars hcomponent ht hv)
  | through hw hvalue _ ih => exact ih (hD.value _ _ (Ty.of_mem_vars hcomponent ht hw) hvalue)

theorem Grounded.component (h : vs.Grounded t) (hu : u ∈ t.components) : vs.Grounded u := by
  refine grounded_iff.2 fun v hv => grounded_iff.1 h v ?_
  exact (Ty.mem_vars_iff (Ty.isVar_of_mem_components hu)).2 ⟨u, hu, hv⟩

/-- Roots and values of grounded types are grounded. -/
theorem keeps_grounded (vs : Vars) : Keeps vs.Grounded vs := by
  constructor
  · intro v r hv hr
    obtain ⟨x, hx⟩ := exists_valueOf_of_rootVar hr
    have hx' := (valueOf_rootVar hr).trans hx
    cases x with
    | none => exact grounded_of_unbound hx'
    | some t => exact (grounded_of_valueOf hx').2 ((grounded_of_valueOf hx).1 hv)
  · intro v t hv hvalue
    exact (grounded_of_valueOf hvalue).1 hv

end

/-! ## Relations that unification respects -/

/-- What running a unification gives. -/
abbrev Run := Except Fault (Bool × Vars)

/-- Runs of `x` and `y` from states related by `S` are related by `ρ`. -/
def Related (S : Vars → Vars → Prop) (ρ : Vars → Vars → Run → Run → Prop) (x y : VarM Bool) :
    Prop :=
  ∀ ⦃vs ws⦄, S vs ws → ρ vs ws (x vs) (y ws)

/-- Runs of unification are related as soon as what they are composed of is. The two sides may differ
in the states that they start from, and in what becomes of variables that would occur in their own
value. -/
structure Respects (c d : Except Fault Ty) (S : Vars → Vars → Prop)
    (ρ : Vars → Vars → Run → Run → Prop) : Prop where
  head : ∀ {vs ws : Vars} (t : Ty), S vs ws → ws.head t = vs.head t
  size : ∀ {vs ws : Vars}, S vs ws → ws.tys.size = vs.tys.size
  error : ∀ {vs ws : Vars} (e : Fault), S vs ws → ρ vs ws (.error e) (.error e)
  done : ∀ {vs ws : Vars} (ok : Bool), S vs ws → ρ vs ws (.ok (ok, vs)) (.ok (ok, ws))
  bind : ∀ {x y : VarM Bool} {k l : Bool → VarM Bool}, Related S ρ x y →
    (∀ ok, Related S ρ (k ok) (l ok)) → Related S ρ (x >>= k) (y >>= l)
  link : ∀ {vs ws : Vars} {v : Var} {t : Ty}, S vs ws → vs.Open v →
    (∀ w, t = .var w → vs.Open w) → ρ vs ws (combineVar c v t vs) (combineVar d v t ws)

namespace Respects

variable {c d : Except Fault Ty} {S : Vars → Vars → Prop} {ρ : Vars → Vars → Run → Run → Prop}
  {f g : Var → Ty → VarM Bool} {a b x y : Ty} {v : Var} {as bs : List Ty} {vs ws : Vars}

section

variable (hρ : Respects c d S ρ)

include hρ

theorem pure (ok : Bool) : Related S ρ (pure ok) (pure ok) :=
  fun _ _ h => hρ.done ok h

theorem combineListBy
    (h : ∀ a ∈ as, ∀ b, Related S ρ (combineBy c f a b) (combineBy d g a b)) (bs : List Ty) :
    Related S ρ (combineListBy c f as bs) (combineListBy d g as bs) := by
  induction as generalizing bs with
  | nil =>
    simp only [Vars.combineListBy]
    exact hρ.pure true
  | cons a as ih =>
    cases bs with
    | nil =>
      simp only [Vars.combineListBy]
      exact hρ.pure true
    | cons b bs =>
      simp only [Vars.combineListBy]
      refine hρ.bind (h a (.head _) b) fun _ => ?_
      exact hρ.bind (ih (fun x hx => h x (List.mem_cons_of_mem a hx)) bs) fun _ => hρ.pure _

/-- What is to be done is related if combining the components is. -/
theorem runTask {task : Task} (htask : HasTask x y task)
    (hx : ∀ u ∈ x.components, ∀ b, Related S ρ (combineBy c f u b) (combineBy d g u b))
    (h : S vs ws) (ha : vs.Heads a x) (hb : vs.Heads b y) :
    ρ vs ws (runTask c f task vs) (runTask d g task ws) := by
  cases task with
  | link v t => exact hρ.link h (htask.isOpen ha hb).1 (htask.isOpen ha hb).2
  | decided ok => exact hρ.done ok h
  | components as bs =>
    exact hρ.combineListBy (fun u hu => hx u (htask.mem_components.1 u hu)) bs h
  | signature as bs r s =>
    have has := htask.mem_signature.1
    refine hρ.bind (hρ.combineListBy (fun u hu => hx u (has u (List.mem_append_left _ hu))) bs) ?_ h
    intro ok
    cases ok with
    | true => exact hx r (has r (by simp)) s
    | false => exact hρ.pure false

/-- Combining two types is related if following variables is. -/
theorem combineBy (hfollow : ∀ v b, Related S ρ (f v b) (g v b))
    (a b : Ty) : Related S ρ (combineBy c f a b) (combineBy d g a b) := by
  -- Variables are left to `f` and `g`; below every other node the components are smaller.
  induction a using Ty.varInduction generalizing b with
  | var v =>
    simp only [Vars.combineBy]
    exact hfollow v b
  | node a hnode ih =>
    intro vs ws h
    have hsame := hρ.head b h
    cases hb : vs.head b with
    | error e =>
      rw [combineBy_of_error hnode hb, combineBy_of_error hnode (hsame.trans hb)]
      exact hρ.error e h
    | ok t =>
      obtain ⟨task, htask⟩ := exists_hasTask a t
      rw [combineBy_run htask hnode hb, combineBy_run htask hnode (hsame.trans hb)]
      exact hρ.runTask htask ih h (.node hnode) (heads_of_head hb)

/-- Following variables is related, however many there are. -/
theorem followWithin (n : Nat) (v : Var) (b : Ty) :
    Related S ρ (followWithin c n v b) (followWithin d n v b) := by
  -- What a variable stands for is combined with one variable less to follow.
  induction n generalizing v b with
  | zero => exact fun _ _ h => hρ.error .exhausted h
  | succ n ih =>
    intro vs ws h
    have hsame := hρ.head (.var v) h
    have hsame' := hρ.head b h
    cases hv : vs.head (.var v) with
    | error e =>
      rw [followWithin_of_error hv, followWithin_of_error (hsame.trans hv)]
      exact hρ.error e h
    | ok x =>
      cases hb : vs.head b with
      | error e =>
        rw [followWithin_of_other_error hv hb,
          followWithin_of_other_error (hsame.trans hv) (hsame'.trans hb)]
        exact hρ.error e h
      | ok y =>
        obtain ⟨task, htask⟩ := exists_hasTask x y
        rw [followWithin_run htask hv hb, followWithin_run htask (hsame.trans hv) (hsame'.trans hb)]
        exact hρ.runTask htask (fun u _ => hρ.combineBy ih u) h (heads_of_head hv)
          (heads_of_head hb)

theorem combineOr (a b : Ty) :
    Related S ρ (combineOr c a b) (combineOr d a b) := by
  refine hρ.combineBy (fun v b vs ws h => ?_) a b
  rw [follow_run, follow_run, hρ.size h]
  exact hρ.followWithin _ v b h

end

theorem combinePairs (hρ : Respects (.ok .unknown) (.ok .unknown) S ρ) (as bs : List Ty) :
    Related S ρ (combinePairs as bs) (combinePairs as bs) :=
  hρ.combineListBy (fun a _ => hρ.combineOr a) bs

theorem combineTraitRefs (hρ : Respects (.ok .unknown) (.ok .unknown) S ρ) (r r' : TraitRef) :
    Related S ρ (combineTraitRefs r r') (combineTraitRefs r r') := by
  unfold Vars.combineTraitRefs
  split
  · refine hρ.bind (hρ.combineOr _ _) fun ok => ?_
    cases ok with
    | true => exact hρ.combinePairs _ _
    | false => exact hρ.pure false
  · exact hρ.pure false

end Respects

/-- The run changes the variables by steps. -/
def MakesSteps (x : VarM Bool) : Prop :=
  ∀ ⦃vs ok vs'⦄, vs.Sound → x vs = .ok (ok, vs') → Steps vs vs'

theorem tolerant_unknown : Tolerant (.ok .unknown) := fun _ h => (Except.ok.inj h).symm

end Vars

end TypeInference
