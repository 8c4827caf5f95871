import TypeInference.Proofs.ExactSelection
import TypeInference.Proofs.Fixpoints
import TypeInference.Proofs.Lookups

/-!
# Overloaded methods

A trait with a parameter can be implemented for one struct at several types. A method that takes a
value of the parameter is then overloaded: the type of its argument has to say which impl is meant
(`Program.Overloads`).
-/

namespace TypeInference

/-! ## Impls for other types -/

/-- The impl has no methods for receivers of the type, whatever is known of the variables. -/
def Impl.Excludes (impl : Impl) (t : Ty) : Prop :=
  ∀ (scope : Scope) (s : State), s.WellFormed →
    ∃ s', Infer.mayBeSelf impl t scope s = .ok (false, s')

/-- A struct that implements a trait with one parameter at `n` types, and the method of the trait
that takes a value of the parameter. -/
structure Program.Overloads (p : Program) (n : Nat) where
  struct : AdtId
  trait : TraitId
  param : ParamId
  method : String
  /-- The declaration of the method in the trait. -/
  declared : FnId
  ret : Ty
  /-- The types at which the struct implements the trait. -/
  arg : Fin n → Ty
  impl : Fin n → ImplId
  /-- The method as the impls define it. -/
  fn : Fin n → FnId
  two_le : 2 ≤ n
  not_boxed : p.known.boxed ≠ some struct
  no_deref : ∀ deref, p.known.deref = some deref →
    Selection.candidates p.items ⟨.adt struct [], deref, []⟩ = []
  trait_eq : ∃ name assocTypes, p.items.trait trait = .ok ⟨name, ⟨[param], []⟩, assocTypes⟩
  param_ne_self : param ≠ .self
  traitMethod_eq : p.items.traitMethod trait method = .ok (some declared)
  declared_eq : ∃ hasBody, p.items.function declared =
    .ok ⟨method, .trait trait, .empty, some (.ref .shared), [.param param], ret, false, hasBody⟩
  ret_determined : ret.Determined
  arg_determined : ∀ i, (arg i).Determined
  arg_distinct : ∀ i j, i ≠ j → (arg i == arg j) = false
  impl_eq : ∀ i, ∃ assocTypes,
    p.items.impl (impl i) = .ok ⟨.empty, some (trait, [arg i]), .adt struct [], assocTypes⟩
  implMethod_eq : ∀ i, p.items.implMethod (impl i) method = .ok (some (fn i))
  fn_eq : ∀ i, ∃ f, p.items.function (fn i) = .ok f ∧ f.name = method ∧
    f.owner = .impl (impl i) ∧ f.selfParam = some (.ref .shared)
  /-- Another impl with a function of that name is for other receivers. -/
  other_methods : ∀ id other, p.items.impl id = .ok other → (∀ i, impl i ≠ id) →
    ∃ fn, p.items.implMethod id method = .ok fn ∧
      (fn.isSome = true → other.Excludes (.adt struct []))
  /-- Another impl of the trait does not apply to the struct at any of the types. -/
  other_impls : ∀ id other, p.items.impl id = .ok other → (∀ i, impl i ≠ id) →
    other.trait? = some trait → ∀ i, other.mayApply ⟨.adt struct [], trait, [arg i]⟩ = false

namespace Program.Overloads

variable {p : Program} {n : Nat} (o : p.Overloads n)

/-- The struct as a type. -/
def self : Ty := .adt o.struct []

/-- The goal that the struct implements the trait at a type. -/
def goal (t : Ty) : TraitRef := ⟨o.self, o.trait, [t]⟩

/-- The method of one of the impls, as method lookup finds it. -/
def candidate (i : Fin n) : Candidate := ⟨o.fn i, o.self, 0, .impl (o.impl i)⟩

/-- The declaration of the method in the trait, in place of the methods of the impls. -/
def collapsed : Candidate := ⟨o.declared, o.self, 0, .collapsed o.trait⟩

theorem self_determined : o.self.Determined := Ty.determined_iff.2 ⟨rfl, fun _ hc => by cases hc⟩

theorem impl_injective {i j : Fin n} (h : o.impl i = o.impl j) : i = j := by
  by_contra hne
  obtain ⟨_, hi⟩ := o.impl_eq i
  obtain ⟨_, hj⟩ := o.impl_eq j
  rw [h, hj] at hi
  have harg : o.arg j = o.arg i := by
    injection hi with hi
    injection hi with _ href _ _
    simpa using href
  have hdistinct := o.arg_distinct j i (Ne.symm hne)
  rw [harg] at hdistinct
  exact absurd hdistinct (by simp [BEq.beq, Ty.same_refl])

end Program.Overloads

/-! ## Selection -/

theorem Items.mem_traitIds {items : Items} {id : TraitId} {trait : Trait}
    (h : items.trait id = .ok trait) : id ∈ items.traitIds := by
  have hlt := (Array.getElem?_eq_some_iff.1 (entry_eq_ok h)).1
  exact List.mem_map.2 ⟨id.index, List.mem_range.2 hlt, rfl⟩

namespace Program.Overloads

variable {p : Program} {n : Nat} (o : p.Overloads n) {t : Ty} {i k : Fin n}

theorem mayApply_iff (i : Fin n) (assocTypes : List Assoc) :
    Impl.mayApply ⟨.empty, some (o.trait, [o.arg i]), .adt o.struct [], assocTypes⟩ (o.goal t) =
      true ↔ Header.compare [o.arg i] [t] ≠ .no := by
  have hself : Header.compare [o.self] [o.self] = .yes := by
    rw [Header.compare_determined o.self_determined o.self_determined]
    show Verdict.ofBool (o.self.same o.self) = _
    rw [Ty.same_refl]
    rfl
  have hmatch : Header.matchGoal [] [o.self, o.arg i] [o.self, t] =
      Header.compare [o.arg i] [t] := by
    rw [Header.matchGoal_nil, Header.compare_cons, hself]
    cases Header.compare [o.arg i] [t] <;> rfl
  rw [← hmatch]
  show decide (Header.matchGoal [] [o.self, o.arg i] [o.self, t] ≠ .no) = true ↔ _
  rw [decide_eq_true_iff]

theorem impl_mem_candidates (h : Header.compare [o.arg i] [t] ≠ .no) :
    o.impl i ∈ Selection.candidates p.items (o.goal t) := by
  obtain ⟨assocTypes, heq⟩ := o.impl_eq i
  refine Items.mem_implsWhere_iff.2 ⟨_, heq, ?_⟩
  simp only [Bool.and_eq_true, decide_eq_true_eq]
  exact ⟨rfl, (o.mayApply_iff i assocTypes).2 h⟩

/-- At one of the types only the impl for that type is a candidate. -/
theorem mem_candidates_iff {id : ImplId} :
    id ∈ Selection.candidates p.items (o.goal (o.arg k)) ↔ id = o.impl k := by
  constructor
  · intro hmem
    obtain ⟨impl, himpl, h⟩ := Items.mem_implsWhere_iff.1 hmem
    simp only [Bool.and_eq_true, decide_eq_true_eq] at h
    by_cases hid : ∃ i, o.impl i = id
    · obtain ⟨i, rfl⟩ := hid
      obtain ⟨assocTypes, heq⟩ := o.impl_eq i
      rw [himpl] at heq
      cases heq
      have hmatch := (o.mayApply_iff i assocTypes).1 h.2
      rw [Header.compare_determined (o.arg_determined i) (o.arg_determined k)] at hmatch
      by_contra hne
      rw [o.arg_distinct i k fun hik => hne (congrArg o.impl hik)] at hmatch
      exact hmatch rfl
    · have hfalse := o.other_impls id impl himpl (fun i hi => hid ⟨i, hi⟩) h.1 k
      rw [show impl.mayApply (o.goal (o.arg k)) = false from hfalse] at h
      cases h.2
  · rintro rfl
    refine o.impl_mem_candidates ?_
    rw [Header.compare_determined (o.arg_determined k) (o.arg_determined k)]
    show Verdict.ofBool ((o.arg k).same (o.arg k)) ≠ _
    rw [Ty.same_refl]
    exact nofun

/-- At one of the types the goal selects the impl for that type. -/
theorem select_goal (k : Fin n) :
    select p.items p.known .empty (o.goal (o.arg k)) = .ok (.impl (o.impl k)) := by
  have honly : Selection.candidates p.items (o.goal (o.arg k)) = [o.impl k] := by
    refine List.perm_singleton.1 ((List.perm_ext_iff_of_nodup ?_ (List.nodup_singleton _)).2 ?_)
    · exact p.items.nodup_implsWhere _
    · intro id
      rw [o.mem_candidates_iff, List.mem_singleton]
  rw [select_of_impls rfl (ParamEnv.forall_mem_empty _) rfl, honly]

/-- While the parameter is open, the goal is ambiguous. -/
theorem select_open (i : Nat) :
    select p.items p.known .empty (o.goal (.var (.ty i))) = .ambiguous := by
  have hmem : ∀ k, o.impl k ∈ Selection.candidates p.items (o.goal (.var (.ty i))) := by
    intro k
    have hmaybe := Header.compare_ne_no_of_outcome (g := o.arg k)
      (Header.outcome_var_right (v := .ty i) rfl)
    exact o.impl_mem_candidates hmaybe
  have hne : o.impl ⟨0, by have := o.two_le; omega⟩ ≠ o.impl ⟨1, o.two_le⟩ := by
    intro h
    cases congrArg Fin.val (o.impl_injective h)
  rw [select_of_impls rfl (ParamEnv.forall_mem_empty _) rfl]
  split
  · next hnone =>
    have h := hmem ⟨1, o.two_le⟩
    rw [hnone] at h
    cases h
  · next only honly =>
    rw [honly] at hmem
    exact absurd ((List.mem_singleton.1 (hmem _)).trans (List.mem_singleton.1 (hmem _)).symm) hne
  · rfl

/-- A scope in which the method can be called: the trait is visible and nothing else is assumed. -/
structure In (scope : Scope) : Prop where
  items : scope.items = p.items
  known : scope.known = p.known
  env : scope.env = .empty
  fuel : scope.fuel = {}
  limit : 0 < scope.config.autoderefLimit
  visible : ∀ traits, scope.names.traitsInScope = some traits → o.trait ∈ traits

end Program.Overloads

/-! ## The obligation -/

namespace Infer

variable {scope : Scope} {s : State}

theorem instantiateBounds_nil (subst : Subst) (depth : Nat) :
    instantiateBounds [] subst depth scope s = .ok ([], s) := rfl

theorem freshSubst_empty : freshSubst .empty scope s = .ok (.empty, s) := rfl

theorem tryCoerce_var {source target : Ty} {v : Var} (expr : ExprId)
    (hsource : source.isVar = false) (htarget : head target scope s = .ok (.var v, s)) :
    tryCoerce expr source target scope s = combine source (.var v) scope s := by
  refine ok_then (head_node hsource) (ok_then htarget ?_)
  cases source with
  | ptr pointee m => cases m <;> rfl
  | _ => rfl

/-- A single obligation that is decided at once is gone after settling. -/
theorem settlePending_of_decided {obligation : Obligation} {rounds : Nat}
    (hrounds : scope.fuel.rounds = rounds + 2) (hpending : s.pending = [obligation])
    (h : process obligation scope { s with pending := [] } =
      .ok (.decided [], { s with pending := [] })) :
    settlePending scope s = .ok ((), { s with pending := [] }) := by
  have hround : round false [obligation] scope { s with pending := [] } =
      .ok (some ⟨true, [], []⟩, { s with pending := [] }) :=
    ok_then h rfl
  have hsettle : settle false s.pending scope { s with pending := [] } =
      .ok ((true, []), { s with pending := [] }) := by
    refine ok_then rfl ?_
    rw [hrounds, hpending, settleWithin_of_some rfl hround]
    rfl
  exact ok_then rfl (ok_then rfl (bind_of_ok hsettle))

end Infer

namespace Program.Overloads

open Infer

variable {p : Program} {n i : Nat} {o : p.Overloads n} {scope : Scope} {s : State}

theorem resolveTraitRef_goal {t u : Ty} (ht : s.vars.resolve t = .ok u) :
    s.vars.resolveTraitRef (o.goal t) = .ok (o.goal u) := by
  have hself : s.vars.resolve o.self = .ok o.self :=
    Vars.mapM_resolveNode_of_vars .var o.self_determined.vars
  rw [Vars.resolve] at ht hself
  simp only [Vars.resolveTraitRef, TraitRef.mapM, goal, Ty.mapListM, ht, hself]
  rfl

theorem blocked_open (h : o.In scope) (hs : s.vars.Sound) (hi : s.vars.Open (.ty i)) :
    (Obligation.ofTrait 0 (o.goal (.var (.ty i)))).Blocked scope s := by
  refine .trait (Nat.zero_le _) (resolveTraitRef_goal (hs.resolve_open hi)) ?_
  rw [h.items, h.known, h.env]
  exact o.select_open i

/-- The impl at one of the types holds there without further ado. -/
theorem confirm_goal (h : o.In scope) (k : Fin n) (depth : Nat) :
    confirm (o.goal (o.arg k)) (.impl (o.impl k)) depth scope s = .ok (some [], s) := by
  obtain ⟨assocTypes, heq⟩ := o.impl_eq k
  rw [← h.items] at heq
  have hheader : instantiateHeader ⟨.empty, some (o.trait, [o.arg k]), .adt o.struct [], assocTypes⟩
      scope s = .ok (some (.empty, o.goal (o.arg k)), s) := by
    refine ok_then freshSubst_empty ?_
    simp only [Subst.applyList, List.map_cons, List.map_nil, (o.arg_determined k).apply]
    rfl
  have hdetermined : ∀ t ∈ (o.goal (o.arg k)).header, t.Determined := by
    intro t ht
    rcases List.mem_cons.1 ht with rfl | ht
    · exact o.self_determined
    · cases List.mem_singleton.1 ht
      exact o.arg_determined k
  have hagrees : combineTraitRefs (o.goal (o.arg k)) (o.goal (o.arg k)) scope s = .ok (true, s) :=
    ok_then rfl (ok_then (lift_of_ok (Vars.combineTraitRefs_self hdetermined))
      rfl)
  refine ok_then rfl (ok_then (lift_of_ok heq) ?_)
  exact ok_then hheader (ok_then hagrees rfl)

section

variable {α : Type} (h : o.In scope) {k : Fin n} {t : Ty} (ht : s.vars.resolve t = .ok (o.arg k))

include h ht

theorem resolveSelect_run {f : TraitRef → Selection Source → Infer α} :
    (resolveTraitRef (o.goal t) >>= fun r => selectGoal r >>= f r) scope s =
      f (o.goal (o.arg k)) (.ok (.impl (o.impl k))) scope s := by
  have hselect : selectGoal (o.goal (o.arg k)) scope s = .ok (.ok (.impl (o.impl k)), s) := by
    refine ok_then rfl ?_
    rw [h.items, h.known, h.env, o.select_goal k]
    rfl
  exact ok_then (readVars_of_ok (resolveTraitRef_goal ht)) (bind_of_ok hselect)

theorem process_goal : process (.ofTrait 0 (o.goal t)) scope s = .ok (.decided [], s) := by
  refine (process_trait (Nat.zero_le _) _).trans ((resolveSelect_run h ht).trans ?_)
  exact ok_then (lift_of_ok rfl) (bind_of_ok (confirm_goal h k 1))

end

end Program.Overloads

/-! ## The receiver -/

namespace Infer

variable {scope : Scope} {s : State}

theorem firstAccepted_byRef (cs : List Candidate) (id : AdtId) :
    firstAccepted (cs.zip (cs.map fun _ => some ((Ty.adt id []).reference .shared)))
      ([Ty.adt id []].flatMap receiverForms) = cs := by
  let self := Ty.adt id []
  let params := cs.map fun c => (c, some (self.reference .shared))
  have hzip : cs.zip (cs.map fun _ => some (self.reference .shared)) = params := by
    induction cs with
    | nil => rfl
    | cons c cs ih => exact congrArg ((c, some (self.reference .shared)) :: ·) ih
  have hvalue : params.filter (·.2 == some self) = [] := by
    rw [List.filter_eq_nil_iff]
    intro q hq hsame
    obtain ⟨c, -, rfl⟩ := List.mem_map.1 hq
    cases hsame
  have hreference : params.filter (·.2 == some (self.reference .shared)) = params := by
    rw [List.filter_eq_self]
    intro q hq
    obtain ⟨c, -, rfl⟩ := List.mem_map.1 hq
    exact (self.reference .shared).same_refl
  have hfirst : params.map (·.1) = cs := by
    rw [List.map_map]
    exact List.map_id cs
  rw [hzip]
  show (if (params.filter (·.2 == some self)).isEmpty then
    if (params.filter (·.2 == some (self.reference .shared))).isEmpty then
      firstAccepted params [self.reference .mut]
    else (params.filter (·.2 == some (self.reference .shared))).map (·.1)
    else (params.filter (·.2 == some self)).map (·.1)) = cs
  rw [hvalue, hreference, hfirst]
  cases cs with
  | nil | cons c cs => rfl

/-- A projection on a trait reference that nothing satisfies is unknown, and the cache notes it. -/
theorem normalize?_of_err {q : Projection} {nesting : Nat}
    (hnesting : scope.fuel.nesting = nesting + 1) (hread : s.vars.resolveProjection q = .ok q)
    (hself : q.self.isTyVar = false) (habsent : s.cache.get? q = none)
    (hselect : select scope.items scope.known scope.env q.traitRef = .err) (depth : Nat) :
    ∃ cache, normalize? q depth scope s = .ok (some (.plain .unknown), { s with cache }) := by
  have hresolved : readVars (fun vs => vs.resolveProjection q) scope s = .ok (q, s) :=
    readVars_of_ok hread
  let started : State := { s with cache := s.cache.insert q .inProgress }
  have hstart : cacheStart q scope s = .ok (none, started) := by
    rw [cacheStart_run, ProjectionCache.start, habsent]
  have hgoal : selectGoal q.traitRef scope started = .ok (.err, started) := by
    refine ok_then rfl ?_
    rw [hselect]
    rfl
  have hproject : project (normalizeWithin nesting) q depth scope started = .ok (.err, started) :=
    ok_then hgoal rfl
  refine ⟨started.cache.insert q .error, ok_then rfl ?_⟩
  rw [hnesting, normalizeWithin, bind_of_ok hresolved, hself, if_neg Bool.false_ne_true,
    bind_of_ok hstart]
  exact ok_then hproject rfl

end Infer

namespace Program.Overloads

open Infer

variable {p : Program} {n i : Nat} {o : p.Overloads n} {scope : Scope} {s : State}

theorem derefThroughTrait_self (h : o.In scope) (hcache : s.cache = ∅) :
    ∃ cache, derefThroughTrait o.self scope s = .ok (none, { s with cache }) := by
  unfold derefThroughTrait
  rw [bind_of_ok rfl]
  cases hderef : scope.known.deref with
  | none => exact ⟨s.cache, rfl⟩
  | some deref =>
    have hnone : Selection.candidates p.items ⟨o.self, deref, []⟩ = [] :=
      o.no_deref deref (h.known ▸ hderef)
    have hselect : select scope.items scope.known scope.env ⟨o.self, deref, []⟩ = .err := by
      rw [h.items, h.known, h.env, select_of_impls rfl (ParamEnv.forall_mem_empty _) rfl, hnone]
    have hnesting : scope.fuel.nesting = 2 ^ 60 - 1 + 1 := by
      rw [h.fuel]
      rfl
    have habsent : s.cache.get? ⟨⟨o.self, deref, []⟩, "Target"⟩ = none := by
      rw [hcache]
      rfl
    obtain ⟨cache, hrun⟩ := normalize?_of_err hnesting rfl rfl habsent hselect 0
    exact ⟨cache, ok_then hrun rfl⟩

/-- The struct dereferences to nothing. -/
theorem derefSequence_self (h : o.In scope) (hcache : s.cache = ∅) :
    ∃ cache, derefSequence o.self scope s = .ok ([o.self], { s with cache }) := by
  obtain ⟨cache, hnone⟩ := derefThroughTrait_self h hcache
  have hderef : deref o.self scope s = .ok (none, { s with cache }) := by
    refine ok_then rfl ?_
    rw [if_neg (by rw [h.known]; exact o.not_boxed)]
    exact hnone
  have hauto : autoderef o.self scope s = .ok (none, { s with cache }) :=
    ok_then hderef rfl
  obtain ⟨room, hroom⟩ := Nat.exists_eq_succ_of_ne_zero (Nat.ne_of_gt h.limit)
  have hfrom : derefFrom scope.config.autoderefLimit [] o.self scope s =
      .ok ([o.self], { s with cache }) := by
    rw [hroom]
    exact ok_then hauto rfl
  refine ⟨cache, ?_⟩
  rw [derefSequence, bind_of_ok (resolveSettled_determined o.self_determined)]
  exact ok_then rfl (ok_then hfrom rfl)

/-! ## Method lookup -/

theorem combine_self : combine o.self (Subst.empty.apply o.self) scope s = .ok (true, s) := by
  have hself := o.self_determined.isVar
  rw [o.self_determined.apply]
  exact combine_same hself hself o.self.same_refl

theorem mayBeSelf_impl (hs : s.WellFormed) (traitRef : Option (TraitId × List Ty))
    (assocTypes : List Assoc) :
    mayBeSelf ⟨.empty, traitRef, o.self, assocTypes⟩ o.self scope s = .ok (true, s) := by
  have hrun : mayBeSelf ⟨.empty, traitRef, o.self, assocTypes⟩ o.self scope s =
      .ok (true, s.opened.rollback s.mark) :=
    ok_then rfl (ok_then combine_self rfl)
  rw [hrun, Keeps.mayBeSelf hs hrun]

theorem mayBeSelf_other (hs : s.WellFormed) (scope : Scope) {id : ImplId} {impl : Impl}
    (himpl : p.items.impl id = .ok impl) (hother : ∀ i, o.impl i ≠ id) :
    p.items.implMethod id o.method = .ok none ∨
      ∃ fn, p.items.implMethod id o.method = .ok (some fn) ∧
        mayBeSelf impl o.self scope s = .ok (false, s) := by
  obtain ⟨fn, hfn, hexcludes⟩ := o.other_methods id impl himpl hother
  cases fn with
  | none => exact .inl hfn
  | some fn =>
    obtain ⟨s', hrun⟩ := hexcludes rfl scope s hs
    cases Keeps.mayBeSelf hs hrun
    exact .inr ⟨fn, hfn, hrun⟩

/-- The place of an impl in the family. -/
def index? (o : p.Overloads n) (id : ImplId) : Option (Fin n) :=
  (List.finRange n).find? fun i => o.impl i = id

theorem index?_impl (i : Fin n) : o.index? (o.impl i) = some i := by
  cases hfind : o.index? (o.impl i) with
  | none =>
    have hne := List.find?_eq_none.1 hfind i (List.mem_finRange i)
    exact absurd (decide_eq_true rfl) hne
  | some j =>
    have hsame := List.find?_some (p := fun j => decide (o.impl j = o.impl i)) hfind
    rw [o.impl_injective (of_decide_eq_true hsame)]

section

variable (h : o.In scope)

include h

/-- The candidates are the methods of all the impls. -/
theorem implCandidates_run (hs : s.WellFormed) :
    ∃ is : List (Fin n), (∀ i, i ∈ is) ∧
      implCandidates o.method 0 o.self scope s = .ok (is.map o.candidate, s) := by
  let ids := p.items.inherentImpls ++ p.items.traitImpls
  refine ⟨ids.filterMap o.index?, ?_, ?_⟩
  · intro i
    obtain ⟨assocTypes, heq⟩ := o.impl_eq i
    have hmem : o.impl i ∈ p.items.traitImpls := Items.mem_implsWhere heq rfl
    exact List.mem_filterMap.2 ⟨o.impl i, List.mem_append_right _ hmem, index?_impl i⟩
  have hfound : (ids.map fun id => (o.index? id).map o.candidate).filterMap id =
      (ids.filterMap o.index?).map o.candidate := by
    rw [List.filterMap_map, List.map_filterMap]
    rfl
  rw [← hfound]
  refine ok_then rfl ?_
  rw [h.items]
  refine ok_then (mapM_of_ok (g := fun id => (o.index? id).map o.candidate) ?_) rfl
  intro id hid
  obtain ⟨impl, himpl⟩ : ∃ impl, p.items.impl id = .ok impl := by
    rcases List.mem_append.1 hid with hid | hid <;>
      exact (Items.mem_implsWhere_iff.1 hid).imp fun _ h => h.1
  by_cases hmine : ∃ i, o.impl i = id
  · obtain ⟨i, rfl⟩ := hmine
    obtain ⟨assocTypes, heq⟩ := o.impl_eq i
    have hself : mayBeSelf _ o.self scope s = .ok (true, s) :=
      mayBeSelf_impl hs (some (o.trait, [o.arg i])) assocTypes
    rw [index?_impl]
    refine ok_then (lift_of_ok (o.implMethod_eq i)) ?_
    exact ok_then (lift_of_ok heq) (ok_then hself rfl)
  · have hother : ∀ i, o.impl i ≠ id := fun i hi => hmine ⟨i, hi⟩
    have hnone : o.index? id = none :=
      List.find?_eq_none.2 fun i _ hi => hother i (of_decide_eq_true hi)
    rw [hnone]
    rcases mayBeSelf_other hs scope himpl hother with hnone | ⟨fn, hfn, hself⟩
    · exact ok_then (lift_of_ok hnone) rfl
    · refine ok_then (lift_of_ok hfn) ?_
      exact ok_then (lift_of_ok himpl) (ok_then hself rfl)

theorem candidates_run (hs : s.WellFormed) :
    ∃ is : List (Fin n), (∀ i, i ∈ is) ∧
      candidates [o.self] o.method scope s = .ok (is.map o.candidate, s) := by
  obtain ⟨is, hall, himpls⟩ := implCandidates_run h hs
  refine ⟨is, hall, ?_⟩
  have hbounds : boundCandidates o.method 0 o.self (scope.env.boundsFor o.self) .bound scope s =
      .ok ([], s) := by
    rw [h.env]
    rfl
  have hstep : stepCandidates o.method 0 o.self scope s = .ok (is.map o.candidate, s) := by
    refine ok_then himpls (ok_then rfl (ok_then hbounds ?_))
    refine ok_then rfl ?_
    rw [List.append_nil]
    show Except.ok (is.map o.candidate ++ [], s) = _
    rw [List.append_nil]
  refine ok_then (mapM_of_ok (g := fun _ => is.map o.candidate) ?_) ?_
  · intro q hq
    cases List.mem_singleton.1 hq
    exact hstep
  · show Except.ok ((is.map o.candidate ++ []), s) = _
    rw [List.append_nil]

theorem traitOf_fn (i : Fin n) :
    scope.items.traitOf (o.fn i) = .ok (some o.trait) := by
  obtain ⟨f, hf, -, howner, -⟩ := o.fn_eq i
  obtain ⟨assocTypes, himpl⟩ := o.impl_eq i
  rw [h.items, Items.traitOf, hf, Except.ok_bind, howner]
  show (p.items.impl (o.impl i) >>= fun impl => pure impl.trait?) = _
  rw [himpl]
  rfl

theorem keepVisible_run (is : List (Fin n)) :
    keepVisible (is.map o.candidate) scope s = .ok (is.map o.candidate, s) := by
  let traits := scope.names.traitsInScope.getD scope.items.traitIds
  have hmem : o.trait ∈ traits := by
    cases hscope : scope.names.traitsInScope with
    | some found =>
      simp only [traits, hscope]
      exact h.visible found hscope
    | none =>
      obtain ⟨name, assocTypes, htrait⟩ := o.trait_eq
      simp only [traits, hscope]
      rw [h.items]
      exact Items.mem_traitIds htrait
  have hvisible : ∀ c ∈ is.map o.candidate, isVisible traits c scope s = .ok (true, s) := by
    intro c hc
    obtain ⟨i, -, rfl⟩ := List.mem_map.1 hc
    obtain ⟨assocTypes, himpl⟩ := o.impl_eq i
    rw [← h.items] at himpl
    refine ok_then rfl (ok_then (lift_of_ok himpl) ?_)
    show Except.ok (traits.contains o.trait, s) = _
    rw [List.contains_iff_mem.2 hmem]
  refine ok_then (bind_of_ok rfl) (ok_then (filterM_of_ok hvisible) ?_)
  rw [ite_self]
  rfl

theorem keepHolding_run (hs : s.WellFormed) (is : List (Fin n)) :
    keepHolding (is.map o.candidate) scope s = .ok (is.map o.candidate, s) := by
  refine filterM_of_ok ?_
  intro c hc
  obtain ⟨i, -, rfl⟩ := List.mem_map.1 hc
  obtain ⟨assocTypes, himpl⟩ := o.impl_eq i
  rw [← h.items] at himpl
  have hsettle : settle true [] scope s.opened = .ok ((true, []), s.opened) := by
    refine ok_then rfl ?_
    rw [h.fuel]
    rfl
  have htrial : (do
      let subst ← freshSubst .empty
      if ← combine o.self (subst.apply o.self) then
        let bounds ← instantiateBounds [] subst 0
        return (← settle true bounds).1
      else
        return false : Infer Bool) scope s.opened = .ok (true, s.opened) := by
    refine ok_then freshSubst_empty (ok_then combine_self ?_)
    exact ok_then (instantiateBounds_nil _ _) (ok_then hsettle rfl)
  have hrun : implHolds (o.impl i) o.self scope s = .ok (true, s.opened.rollback s.mark) := by
    refine ok_then rfl (ok_then (lift_of_ok himpl) ?_)
    exact ok_then rfl (ok_then htrial rfl)
  show implHolds (o.impl i) o.self scope s = _
  rw [hrun, Keeps.implHolds hs hrun]

theorem keepAccepting_run (is : List (Fin n)) :
    keepAccepting [o.self] (is.map o.candidate) scope s = .ok (is.map o.candidate, s) := by
  let byRef : Option Ty := some (o.self.reference .shared)
  have hparam : ∀ c ∈ is.map o.candidate, selfParamTy c scope s = .ok (byRef, s) := by
    intro c hc
    obtain ⟨i, -, rfl⟩ := List.mem_map.1 hc
    obtain ⟨f, hf, -, -, hself⟩ := o.fn_eq i
    rw [← h.items] at hf
    refine ok_then rfl (ok_then (lift_of_ok hf) ?_)
    rw [hself]
    exact bind_of_ok (resolve_determined (o.self_determined.reference .shared))
  have hsteps : [o.self].mapM resolve scope s = .ok ([o.self], s) :=
    ok_then (resolve_determined o.self_determined) rfl
  refine ok_then (mapM_of_ok hparam) (ok_then hsteps ?_)
  exact congrArg (fun cs => Except.ok (cs, s)) (firstAccepted_byRef ..)

theorem allM_traitOf (is : List (Fin n)) :
    (is.map o.fn).allM (fun fn => do
      return (← scope.items.traitOf fn) = some o.trait : FnId → Except Fault Bool) = .ok true := by
  induction is with
  | nil => rfl
  | cons i is ih =>
    have hfirst : (do return (← scope.items.traitOf (o.fn i)) = some o.trait : Except Fault Bool) =
        .ok true := by
      rw [traitOf_fn h i]
      exact congrArg Except.ok (decide_eq_true rfl)
    rw [List.map_cons, List.allM, hfirst]
    exact ih

/-- Two or more of the methods have one declaration in common. -/
theorem collapse?_run (first second : Fin n) (rest : List (Fin n)) :
    collapse? scope.items ((first :: second :: rest).map o.fn) = .ok (some o.declared) := by
  obtain ⟨f, hf, hname, -⟩ := o.fn_eq first
  have hall := allM_traitOf h (second :: rest)
  rw [List.map_cons] at hall
  rw [List.map_cons, List.map_cons, collapse?, traitOf_fn h first, Except.ok_bind]
  dsimp only
  rw [hall, Except.ok_bind, if_pos rfl, h.items, hf, Except.ok_bind, hname]
  exact o.traitMethod_eq

theorem collapseCandidates_run (first second : Fin n) (rest : List (Fin n)) :
    collapseCandidates ((first :: second :: rest).map o.candidate) scope s =
      .ok (some o.collapsed, s) := by
  have hfns : ((first :: second :: rest).map o.candidate).map (·.fn) =
      (first :: second :: rest).map o.fn := List.map_map
  have htrait : scope.items.traitOf o.declared = .ok (some o.trait) := by
    obtain ⟨hasBody, hdeclared⟩ := o.declared_eq
    rw [h.items, Items.traitOf, hdeclared]
    rfl
  refine ok_then rfl ?_
  rw [hfns]
  refine ok_then (lift_of_ok (collapse?_run h first second rest)) ?_
  exact ok_then (lift_of_ok htrait) rfl

/-- Method lookup puts the declaration of the trait in the place of the methods. -/
theorem pick_run (hs : s.WellFormed) {is : List (Fin n)} (hall : ∀ i, i ∈ is) :
    pick [o.self] (is.map o.candidate) scope s = .ok (some o.collapsed, s) := by
  -- There are at least two impls, so every stage applies.
  obtain ⟨first, second, rest, rfl⟩ : ∃ first second rest, is = first :: second :: rest := by
    have hzero := hall ⟨0, Nat.lt_of_lt_of_le Nat.two_pos o.two_le⟩
    have hone := hall ⟨1, o.two_le⟩
    cases is with
    | nil => cases hzero
    | cons first is =>
      cases is with
      | nil =>
        have heq := (List.mem_singleton.1 hzero).trans (List.mem_singleton.1 hone).symm
        cases congrArg Fin.val heq
      | cons second rest => exact ⟨first, second, rest, rfl⟩
  let cs := (first :: second :: rest).map o.candidate
  have hnarrow {stage : List Candidate → Infer (List Candidate)}
      (hstage : stage cs scope s = .ok (cs, s)) : narrow stage cs scope s = .ok (cs, s) := by
    rw [narrow, if_pos (by simp [cs])]
    exact hstage
  rw [pick, bind_of_ok (hnarrow (keepVisible_run h _)), bind_of_ok (hnarrow (keepHolding_run h hs _)),
    bind_of_ok (hnarrow (keepAccepting_run h _))]
  exact collapseCandidates_run h first second rest

end

/-! ## Calling the method -/

/-- The state after the method is instantiated at a call: a new variable stands for the parameter of
the trait, the struct has to implement the trait at it, and the impl is to be named later. -/
def instantiated (o : p.Overloads n) (call : ExprId) (s : State) : State :=
  let goal := o.goal s.vars.freshTy.1
  { s with
    vars := s.vars.freshTy.2
    pending := s.pending ++ [.ofTrait 0 goal]
    methodRefinements := s.methodRefinements ++ [(call, goal)] }

/-- The substitution for the declaration of the method. -/
def subst (o : p.Overloads n) (t : Ty) : Subst :=
  (Subst.empty.insert o.param t).insert .self o.self

theorem apply_param (t : Ty) : (o.subst t).apply (.param o.param) = t := by
  show (o.subst t).lookup o.param = t
  rw [subst, Subst.lookup_insert_of_ne o.param_ne_self, Subst.lookup_insert_self]

theorem apply_param_self (t : Ty) :
    ((o.subst t).insert .self o.self).apply (.param o.param) = t := by
  show ((o.subst t).insert .self o.self).lookup o.param = t
  rw [Subst.lookup_insert_of_ne o.param_ne_self]
  exact apply_param t

theorem instantiate_trait :
    instantiate ⟨[o.param], []⟩ (some o.self) scope s =
      .ok (o.subst s.vars.freshTy.1, { s with vars := s.vars.freshTy.2 }) := by
  have hfresh : freshSubst ⟨[o.param], []⟩ scope s =
      .ok (Subst.empty.insert o.param s.vars.freshTy.1, { s with vars := s.vars.freshTy.2 }) := rfl
  refine ok_then hfresh ?_
  exact ok_then (ok_then (instantiateBounds_nil ..) register_nil) rfl

theorem methodOuterSubst_run (h : o.In scope) (call : ExprId) (fn : Function) :
    methodOuterSubst call fn o.collapsed scope s =
      .ok (o.subst s.vars.freshTy.1, o.instantiated call s) := by
  obtain ⟨name, assocTypes, htrait⟩ := o.trait_eq
  rw [← h.items] at htrait
  have hargs : (o.subst s.vars.freshTy.1).applyList [.param o.param] = [s.vars.freshTy.1] :=
    congrArg (fun t => [t]) (apply_param s.vars.freshTy.1)
  have hfile : ∀ args, args = [s.vars.freshTy.1] →
      (do
        register [.ofTrait 0 ⟨o.self, o.trait, args⟩]
        refineMethodLater call ⟨o.self, o.trait, args⟩
        return o.subst s.vars.freshTy.1 : Infer Subst) scope { s with vars := s.vars.freshTy.2 } =
          .ok (o.subst s.vars.freshTy.1, o.instantiated call s) := by
    rintro _ rfl
    rfl
  refine ok_then rfl (ok_then (lift_of_ok htrait) ?_)
  exact ok_then instantiate_trait (hfile _ hargs)

/-- The method takes a variable for its parameter, and leaves a goal for it. -/
theorem instantiateMethod_run (h : o.In scope) (call : ExprId) :
    instantiateMethod call o.collapsed [] scope s =
      .ok (⟨[s.vars.freshTy.1], o.ret⟩, o.instantiated call s) := by
  obtain ⟨hasBody, hdeclared⟩ := o.declared_eq
  rw [← h.items] at hdeclared
  let outer := (o.subst s.vars.freshTy.1).insert .self o.self
  have hparams : outer.applyList [.param o.param] = [s.vars.freshTy.1] :=
    congrArg (fun t => [t]) (apply_param_self s.vars.freshTy.1)
  have hnormal : normalizedList (outer.applyList [.param o.param]) scope (o.instantiated call s) =
      .ok ([s.vars.freshTy.1], o.instantiated call s) := by
    rw [hparams]
    refine normalizedList_of_no_projection ?_
    intro t ht
    cases List.mem_singleton.1 ht
    rfl
  have hret : normalized (outer.apply o.ret) scope (o.instantiated call s) =
      .ok (o.ret, o.instantiated call s) := by
    rw [o.ret_determined.apply]
    exact normalized_of_no_projection o.ret_determined.any_isProjection
  refine ok_then rfl (ok_then (lift_of_ok hdeclared) ?_)
  refine ok_then (methodOuterSubst_run h call _) ?_
  refine ok_then freshSubst_empty (ok_then rfl ?_)
  refine ok_then (ok_then (instantiateBounds_nil ..) register_nil) ?_
  exact ok_then hnormal (ok_then hret rfl)

/-- How the receiver becomes the self argument. -/
def borrow (o : p.Overloads n) : List Adjustment :=
  [.borrowRef (o.self.reference .shared) .erased .shared]

theorem adjustReceiver_run {receiver : ExprId} (hnew : s.adjustments.get? receiver.index = none) :
    adjustReceiver receiver [o.self] (o.self.reference .shared) scope s =
      .ok ((), { s with adjustments := s.adjustments.insert receiver.index o.borrow }) := by
  have hborrow : receiverBorrow? o.self (o.self.reference .shared) = some o.borrow := by
    have hinner : (o.self == o.self) = true := o.self.same_refl
    show (if (o.self == o.self) = true then some o.borrow else none) = _
    rw [if_pos hinner]
  have hadjust : adjust receiver o.borrow scope s =
      .ok ((), { s with adjustments := s.adjustments.insert receiver.index o.borrow }) := by
    refine ok_then (bind_of_ok rfl) ?_
    rw [hnew]
    rfl
  refine ok_then (resolve_determined (o.self_determined.reference .shared)) ?_
  refine ok_then (resolve_determined o.self_determined) ?_
  rw [hborrow]
  exact hadjust

/-- The argument gives the variable its type. -/
theorem coerce_argument (h : o.In scope) (hs : s.vars.Sound) (hi : s.vars.Open (.ty i))
    (hpending : s.pending = [.ofTrait 0 (o.goal (.var (.ty i)))]) (argument : ExprId) (k : Fin n) :
    ∃ vars, coerce argument (o.arg k) (.var (.ty i)) scope s = .ok (true, { s with vars }) ∧
      vars.resolve (.var (.ty i)) = .ok (o.arg k) := by
  obtain ⟨vars, hcombine, hstep, hbinds⟩ := hs.binds_of_combine_open hi (o.arg_determined k)
  refine ⟨vars, ?_, (hstep.sound hs).resolve_of_binds hbinds (o.arg_determined k)⟩
  -- The obligation on the variable waits as long as the variable is open.
  have hsettle : settlePending scope s = .ok ((), s) := by
    refine settlePending_of_blocked ?_ (by rw [h.fuel]; exact nofun)
    intro obligation hmem
    rw [hpending] at hmem
    cases List.mem_singleton.1 hmem
    exact blocked_open h hs hi
  have hresolve : resolve (.var (.ty i)) scope s = .ok (.var (.ty i), s) :=
    readVars_of_ok (hs.resolve_open hi)
  have hsettled : resolveSettled (.var (.ty i)) scope s = .ok (.var (.ty i), s) :=
    ok_then hresolve (ok_then hsettle hresolve)
  have hhead : head (.var (.ty i)) scope s = .ok (.var (.ty i), s) :=
    readVars_of_ok (hs.head_of_open hi)
  have htry := (tryCoerce_var argument (o.arg_determined k).isVar hhead).trans (combine_run hcombine)
  refine ok_then (resolveSettled_determined (o.arg_determined k)) ?_
  exact ok_then hsettled (ok_then htry rfl)

end Program.Overloads

end TypeInference
