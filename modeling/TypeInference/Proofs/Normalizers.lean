import TypeInference.Proofs.Containment

/-!
# Unification, records and normalization

What the operations of an inference are made of is orderly: work on variables, records, and the
normalization of projections. Which projections a normalization asks for is kept track of, so that a
bound on them bounds its depth.
-/

namespace TypeInference

/-- The types that a where-clause mentions, under a substitution. -/
def WherePredicate.typesUnder (p : WherePredicate) (subst : Subst) : List Ty :=
  subst.apply p.self :: (subst.applyBound p.bound).components

namespace Infer

variable {r' r a b : TraitRef} {bounds : List WherePredicate} {n d depth : Nat} {ts : List Ty}
  {scope : Scope} {vs : Vars} {p q : Projection} {E : Fault → Prop}
  {K K' : Atoms} {W W' : Var → Prop}

/-- Reading the associated type of an impl for `p` at `depth` may need the projection `q` at depth
`d`: one inside a where-clause of the impl, or one inside the associated type. -/
def Asks (scope : Scope) (impl : Impl) (p : Projection) (depth : Nat) (q : Projection) (d : Nat) :
    Prop :=
  ∃ subst header, Gives scope (instantiateHeader impl) (some (subst, header)) ∧
    header.trait = p.traitRef.trait ∧
    ((d = depth ∧ ∃ b ∈ impl.generics.bounds, ∃ t ∈ b.typesUnder subst,
        q.traitRef.trait ∈ t.projectionTraits) ∨
      (d = depth + 1 ∧ ∃ assoc, impl.assocTy? p.name = some assoc ∧
        q.traitRef.trait ∈ ((subst.insert .self p.self).apply assoc).projectionTraits))

/-- References that unify are to the same trait. -/
theorem trait_eq_of_combineTraitRefs {agrees : Bool} (h : Gives scope (combineTraitRefs a b) agrees)
    (htrue : agrees = true) : a.trait = b.trait := by
  obtain ⟨s, s', hrun⟩ := h
  by_contra hne
  rw [combineTraitRefs, Vars.combineTraitRefs, if_neg fun h => hne h.1] at hrun
  cases hrun
  cases htrue

theorem trait_eq_of_mapM (h : vs.resolveTraitRef r = .ok r') : r'.trait = r.trait := by
  obtain ⟨_, -, h⟩ := Except.bind_eq_ok h
  obtain ⟨_, -, ⟨⟩⟩ := Except.bind_eq_ok h
  rfl

theorem trait_eq_of_resolveTraitRef (h : Gives scope (resolveTraitRef r) r') :
    r'.trait = r.trait := by
  obtain ⟨s, s', hrun⟩ := h
  exact trait_eq_of_mapM (readVars_eq_ok hrun).1

theorem trait_eq_of_resolveProjection (h : Gives scope (readVars (·.resolveProjection p)) q) :
    q.traitRef.trait = p.traitRef.trait := by
  obtain ⟨s, s', hrun⟩ := h
  obtain ⟨r, hr, ⟨⟩⟩ := Except.bind_eq_ok (readVars_eq_ok hrun).1
  exact trait_eq_of_mapM hr

theorem eq_of_deeper (h : Obligation.deeper depth = .ok d) : d = depth + 1 := by
  unfold Obligation.deeper at h
  split at h
  · cases h
    rfl
  · cases h

section

variable {E : Fault → Prop} (hE : ∀ entity i, entity ≠ .variable → E (.dangling entity i))

include hE

theorem collapse?_failsWith (items : Items) (ids : List FnId) :
    FailsWith E (collapse? items ids) := by
  have htraitOf := items.traitOf_failsWith hE
  unfold collapse?
  split
  · refine (htraitOf _).bind fun trait => ?_
    split
    · refine (FailsWith.allM fun fn => (htraitOf fn).bind fun _ => .ok _).bind fun same => ?_
      split
      · exact (entry_failsWith (hE _ _ (by decide))).bind fun _ => items.traitMethod_failsWith hE _ _
      · exact .ok _
    · exact .ok _
  · exact .ok _

theorem argsAt_failsWith (items : Items) (i : Nat) (uses : List (FnId × PathResolution)) :
    FailsWith E (argsAt items i uses) := by
  refine FailsWith.bind (.mapM fun _ _ => ?_) fun _ => .ok _
  exact (entry_failsWith (hE _ _ (by decide))).bind fun _ => .ok _

end

theorem resolveTraitRef_failsWith [Fault.Admits E] (hs : vs.Sound) (r : TraitRef) :
    FailsWith E (vs.resolveTraitRef r) := by
  have hresolve := hs.resolve_failsWith (Fault.Admits.dangling (E := E) _) .var
  rw [Vars.resolveTraitRef, TraitRef.mapM, Ty.mapListM_eq]
  exact (hresolve r.self).bind fun _ => (FailsWith.mapM fun t _ => hresolve t).bind fun _ => .ok _

namespace Orderly

variable {scope : Scope} {E : Fault → Prop} {K : Atoms} {W : Var → Prop}
  {t a b ty : Ty} {as bs : List Ty} {subst : Subst} {goal : TraitRef} {id : ExprId} {p : Projection}
  {inner : Normalizer} {depth : Nat} {impl : Impl} {bound : Bound}

/-! ## Variables and unification -/

theorem freshSubst {generics : Generics} : Orderly scope E K W (freshSubst generics) :=
  foldlM within_emptySubst fun _ p _ _ hsubst =>
    freshTy.bind fun _ hW ht => pure ((hsubst.mono hW).substInsert p ht)

section

variable [Fault.Admits E]

theorem head (ht : Within W t) : Orderly scope E K W (head t) :=
  readVars (fun _ hs => hs.head_failsWith (Fault.Admits.dangling _) t)
    fun _ hvs hW => hvs.exists_head (ht.mono hW)

theorem resolve (ht : Within W t) : Orderly scope E K W (resolve t) :=
  readVars (fun _ hs => hs.resolve_failsWith (Fault.Admits.dangling _) .var t)
    fun _ hvs hW => hvs.exists_resolve (ht.mono hW)

theorem close (ht : Within W t) : Orderly scope E K W (close t) := by
  refine readVars (fun _ hs => (hs.resolve_settles _ t).failsWith (Fault.Admits.dangling _))
    fun vs hvs hW => ?_
  obtain ⟨r, hr, hclosed⟩ := hvs.exists_close (ht.mono hW)
  exact ⟨r, hr, hclosed.within⟩

theorem resolveTraitRef (hgoal : Within W goal) : Orderly scope E K W (resolveTraitRef goal) :=
  readVars (fun _ hs => resolveTraitRef_failsWith hs goal)
    fun _ hvs hW => hvs.exists_resolveTraitRef (hgoal.mono hW)

theorem resolveProjection (hp : Within W p) :
    Orderly scope E K W (Infer.readVars fun vs => vs.resolveProjection p) :=
  readVars (fun _ hs => (resolveTraitRef_failsWith hs p.traitRef).bind fun _ => .ok _)
    fun _ hvs hW => hvs.exists_resolveProjection (hp.mono hW)

theorem isOpen (ht : Within W t) : Orderly scope E K W (isOpen t) := by
  refine readVars (fun _ hs => hs.isOpen_failsWith (Fault.Admits.dangling _) t) fun vs hvs hW => ?_
  obtain ⟨r, hr, -⟩ := hvs.exists_resolve (ht.mono hW)
  refine ⟨r.hasVar, ?_, within_plain⟩
  rw [Vars.isOpen, hr]
  rfl

theorem isAffected {i : Nat} (hi : W (.ty i)) : Orderly scope E K W (isAffected i) := by
  refine readVars (fun _ hs => hs.isAffected_failsWith (Fault.Admits.dangling _) i) fun vs hvs hW => ?_
  obtain ⟨affected, haffected⟩ := hvs.exists_isAffected (hW _ hi)
  exact ⟨affected, haffected, within_plain⟩

theorem unify (ha : Within W a) (hb : Within W b) : Orderly scope E K W (unify a b) :=
  (combine ha hb).discard

/-- Trying whether types unify leaves nothing behind. -/
theorem canCombine (ha : Within W a) (hb : Within W b) : Orderly scope E K W (canCombine a b) :=
  probe (combine ha hb) (combine within_true within_true)

theorem combinePairs (has : Within W as) (hbs : Within W bs) :
    Orderly scope E K W (combinePairs as bs) :=
  onVars (Vars.combinePairs_makesSteps as bs)
    (fun _ hs => hs.combinePairs_failsWith (Fault.Admits.dangling _) as bs)
    fun _ hvs hW => hvs.exists_combinePairs (has.mono hW) (hbs.mono hW)

theorem combineTraitRefs {r r' : TraitRef} (hr : Within W r) (hr' : Within W r') :
    Orderly scope E K W (combineTraitRefs r r') :=
  onVars (Vars.combineTraitRefs_makesSteps r r')
    (fun _ hs => hs.combineTraitRefs_failsWith (Fault.Admits.dangling _) r r')
    fun _ hvs hW => hvs.exists_combineTraitRefs (hr.mono hW) (hr'.mono hW)

end

/-! ## Records and reports -/

theorem selectGoal (hgoal : Within W goal) : Orderly scope E K W (selectGoal goal) :=
  readBind rfl fun hscope => pure (hscope.env.select hgoal _ _)

theorem exprTy : Orderly scope E K W (exprTy id) :=
  stateBind (fun _ _ => rfl) fun _ _ hs => pure ((hs.exprTypes.get? _).getD Ty.within_unknown)

theorem bindingTy {id : PatId} : Orderly scope E K W (bindingTy id) :=
  stateBind (fun _ _ => rfl) fun _ _ hs => pure ((hs.bindings.get? _).getD Ty.within_unknown)

theorem pathOf : Orderly scope E K W (pathOf id) :=
  stateBind (fun _ _ => rfl) fun _ _ _ => pure (within_list.2 fun _ _ => within_plain)

theorem adjust [Notes K] {adjustments : List Adjustment} (h : Within W adjustments) :
    Orderly scope E K W (adjust id adjustments) := by
  have hbefore : Orderly scope E K W (adjustmentsOf id) :=
    stateBind (fun _ _ => rfl) fun _ _ hs => pure ((hs.adjustments.get? _).getD within_nil)
  refine hbefore.bind fun before hW hbefore => ?_
  refine record (.record (fun _ _ => rfl) fun _ => ⟨⟨rfl, rfl, rfl, rfl⟩, rfl⟩)
    (fun s => .adjustments s _) fun hW' hs => ?_
  have hboth := within_append.2 ⟨hbefore.mono hW', h.mono (hW.trans hW')⟩
  exact { hs with adjustments := hs.adjustments.insert _ hboth }

section

variable [Files K]

theorem register {obligations : List Obligation} (h : Within W obligations) :
    Orderly scope E K W (register obligations) :=
  file (fun _ _ => rfl) (fun _ => ⟨⟨⟨rfl, rfl, rfl, rfl⟩, rfl⟩, rfl⟩) (fun s => .pending s _)
    fun hW hs =>
    { hs with pending := within_append.2 ⟨hs.pending, h.mono hW⟩ }

theorem writePath {values : List Value} : Orderly scope E K W (writePath id values) :=
  file (fun _ _ => rfl) (fun _ => ⟨⟨⟨rfl, rfl, rfl, rfl⟩, rfl⟩, rfl⟩) (fun s => .paths s _)
    fun _ hs => { hs with }

theorem writeMethods {methods : List MethodResolution} (h : Within W methods) :
    Orderly scope E K W (writeMethods id methods) :=
  file (fun _ _ => rfl) (fun _ => ⟨⟨⟨rfl, rfl, rfl, rfl⟩, rfl⟩, rfl⟩) (fun s => .methods s _)
    fun hW hs =>
    { hs with methods := hs.methods.insert _ (h.mono hW) }

theorem writeFields {fields : List FieldResolution} : Orderly scope E K W (writeFields id fields) :=
  file (fun _ _ => rfl) (fun _ => ⟨⟨⟨rfl, rfl, rfl, rfl⟩, rfl⟩, rfl⟩) (fun s => .fields s _)
    fun _ hs => { hs with }

theorem refinePathLater (h : Within W goal) : Orderly scope E K W (refinePathLater id goal) :=
  file (fun _ _ => rfl) (fun _ => ⟨⟨⟨rfl, rfl, rfl, rfl⟩, rfl⟩, rfl⟩) (fun s => .pathRefinements s _)
    fun hW hs =>
    { hs with
      pathRefinements := within_append.2 ⟨hs.pathRefinements,
        within_singleton.2 (within_pair.2 ⟨within_plain, h.mono hW⟩)⟩ }

theorem refineMethodLater (h : Within W goal) : Orderly scope E K W (refineMethodLater id goal) :=
  file (fun _ _ => rfl) (fun _ => ⟨⟨⟨rfl, rfl, rfl, rfl⟩, rfl⟩, rfl⟩) (fun s => .methodRefinements s _)
    fun hW hs =>
    { hs with
      methodRefinements := within_append.2 ⟨hs.methodRefinements,
        within_singleton.2 (within_pair.2 ⟨within_plain, h.mono hW⟩)⟩ }

end

theorem report [Reports K] {d : Diagnostic} (hd : Within W d) : Orderly scope E K W (report d) :=
  record .report (fun s => .diagnostics s _) fun hW hs =>
    { hs with
      diagnostics := within_append.2 ⟨hs.diagnostics, within_singleton.2 (hd.mono hW)⟩ }

theorem reportCannotDeref [Reports K] (hty : Within W ty) :
    Orderly scope E K W (reportCannotDeref id ty) :=
  report (within_cannotDeref.2 hty)

end Orderly

theorem deeper_failsWith (htooDeep : E .tooDeep) (depth : Nat) :
    FailsWith E (Obligation.deeper depth) := by
  unfold Obligation.deeper
  split
  · exact .ok _
  · exact .error htooDeep

/-! ## Normalization -/

/-- The obligations that a normalization has collected are in range as well. -/
def Collects (scope : Scope) (E : Fault → Prop) (K : Atoms) (W : Var → Prop)
    {α : Type} [Mentioning α] (x : StateT (List Obligation) Infer α) : Prop :=
  ∀ obligations, Within W obligations → Orderly scope E K W (x obligations)

namespace Collects

variable {α β : Type} [Mentioning α] [Mentioning β] {scope : Scope} {E : Fault → Prop}
  {K : Atoms} {W : Var → Prop} {f : α → StateT (List Obligation) Infer β}

theorem pure {a : α} (ha : Within W a) :
    Collects scope E K W (pure a : StateT (List Obligation) Infer α) :=
  fun _ hobligations => .pure (within_pair.2 ⟨ha, hobligations⟩)

theorem bind {x : StateT (List Obligation) Infer α} (hx : Collects scope E K W x)
    (hf : ∀ {W'} a, W ≤ W' → Within W' a → Collects scope E K W' (f a)) :
    Collects scope E K W (x >>= f) :=
  fun obligations hobligations => .bind (hx obligations hobligations) fun r hW hr =>
    hf r.1 hW hr.fst r.2 hr.snd

theorem lift {x : Infer α} (hx : Orderly scope E K W x) :
    Collects scope E K W (liftM x : StateT (List Obligation) Infer α) :=
  fun _ hobligations => hx.bind fun _ hW ha =>
    .pure (within_pair.2 ⟨ha, hobligations.mono hW⟩)

theorem append {new : List Obligation} (hnew : Within W new) :
    Collects scope E K W (modify (· ++ new) : StateT (List Obligation) Infer Unit) :=
  fun _ hobligations =>
    .pure (within_pair.2 ⟨within_plain, within_append.2 ⟨hobligations, hnew⟩⟩)

omit [Mentioning α] in
theorem mapM {xs : List α} (hf : ∀ {W'} a, W ≤ W' → a ∈ xs → Collects scope E K W' (f a)) :
    Collects scope E K W (xs.mapM f) := by
  induction xs generalizing W with
  | nil =>
    rw [List.mapM_nil]
    exact pure within_nil
  | cons a xs ih =>
    rw [List.mapM_cons]
    refine (hf a le_rfl (.head _)).bind fun b hW₁ hb => ?_
    have hrest := ih fun a hW ha => hf a (hW₁.trans hW) (.tail _ ha)
    exact hrest.bind fun bs hW₂ hbs => pure (within_cons.2 ⟨hb.mono hW₂, hbs⟩)

/-- Of the types that a traversal meets, only projections matter. -/
theorem traversal {t : Ty} {f : Ty → StateT (List Obligation) Infer Ty} (ht : Within W t)
    (hf : ∀ {W'} r, W ≤ W' → Within W' r →
      (∀ tr, r.projectionTrait? = some tr → tr ∈ t.projectionTraits) → Collects scope E K W' (f r)) :
    Collects scope E K W (t.mapM f) := by
  induction t using Ty.componentInduction generalizing W with
  | node t ih =>
    rw [Ty.mapM_eq, Ty.mapComponentsM_eq, bind_map_left]
    refine (mapM fun c hW hc => ?_).bind fun rs hW hrs =>
      hf _ hW (Ty.within_rebuild (ht.mono hW) hrs) fun tr htr => ?_
    · refine ih c hc ((ht.component hc).mono hW) fun r hW' hr htraits => ?_
      refine hf r (hW.trans hW') hr fun tr htr => ?_
      exact Ty.projectionTraits_of_component hc (htraits tr htr)
    · exact Ty.mem_projectionTraits_iff.2 (.inl ((Ty.projectionTrait?_rebuild t rs).symm.trans htr))

end Collects

/-- What stands in for the projections of these traits is orderly. -/
def Serves (scope : Scope) (E : Fault → Prop) (K : Atoms) (W : Var → Prop)
    (inner : Normalizer) (depth : Nat) (traits : List TraitId) : Prop :=
  ∀ ⦃W'⦄ q, W ≤ W' → Within W' q → q.traitRef.trait ∈ traits →
    Orderly scope E K W' (standIn inner q depth)

theorem Serves.mono {inner : Normalizer} {traits : List TraitId}
    (h : Serves scope E K W inner depth traits) (hW : W ≤ W') :
    Serves scope E K W' inner depth traits :=
  fun _ q hW' => h q (hW.trans hW')

namespace Orderly

variable {scope : Scope} {E : Fault → Prop} {K : Atoms} {W : Var → Prop}
  {t : Ty} {ts : List Ty} {subst : Subst} {p : Projection} {inner : Normalizer} {depth n : Nat}
  {impl : Impl} {bound : Bound} {bounds : List WherePredicate}

theorem deeper {α : Type} [Mentioning α] {f : Nat → Infer α}
    (hdeeper : FailsWith E (Obligation.deeper depth))
    (hf : ∀ d, d = depth + 1 → Orderly scope E K W (f d)) :
    Orderly scope E K W ((liftM (Obligation.deeper depth) : Infer Nat) >>= f) :=
  liftBindOf hdeeper (deeper_failsWith .tooDeep depth) fun d hd => hf d (eq_of_deeper hd)

/-- What has no normal form is stood in for by a variable, with an obligation. -/
theorem standIn (hp : Within W p) (hinner : Orderly scope E K W (inner p depth))
    (hdeeper : FailsWith E (Obligation.deeper depth)) :
    Orderly scope E K W (standIn inner p depth) := by
  refine hinner.bind fun found hW₁ hfound => ?_
  cases found with
  | some result => exact pure (within_some.1 hfound)
  | none =>
    refine freshTy.bind fun v hW₂ hv => deeper hdeeper fun d _ => pure ?_
    refine within_normalized.2 ⟨hv, within_singleton.2 (within_ofProjection.2 ⟨?_, hv⟩)⟩
    exact hp.mono (hW₁.trans hW₂)

/-- A type is normalized in range if what stands in for its projections is. -/
theorem normalizeTyWith (ht : Within W t)
    (hserves : Serves scope E K W inner depth t.projectionTraits) :
    Orderly scope E K W (normalizeTyWith inner t depth) := by
  have hall : Collects scope E K W (t.mapM (normalizeNode inner depth)) := by
    refine .traversal ht fun {W'} r hW hr htraits => ?_
    cases r with
    | projection self trait args name =>
      have hp : Within W' (⟨⟨self, trait, args⟩, name⟩ : Projection) :=
        within_traitRef.2 (Ty.within_proj.1 hr)
      refine (Collects.lift (hserves _ hW hp (htraits trait rfl))).bind fun result _ hresult => ?_
      obtain ⟨hvalue, hnew⟩ := within_normalized.1 hresult
      exact (Collects.append hnew).bind fun _ hW _ => .pure (hvalue.mono hW)
    | _ => exact .pure hr
  refine of_ite ?_ (pure (within_normalized.2 ⟨ht, within_nil⟩))
  exact (hall [] within_nil).bind fun r _ hr => pure (within_normalized.2 ⟨hr.fst, hr.snd⟩)

theorem normalizeListWith (hts : Within W ts)
    (hserves : ∀ t ∈ ts, Serves scope E K W inner depth t.projectionTraits) :
    Orderly scope E K W (normalizeListWith inner ts depth) := by
  refine (mapM fun t hW ht => normalizeTyWith ((hts.mem ht).mono hW) ((hserves t ht).mono hW)).bind
    fun results _ hresults => pure (within_normalized.2 ⟨?_, ?_⟩)
  · exact hresults.map fun r hr => (within_normalized.1 hr).1
  · refine within_list.2 fun o ho => ?_
    obtain ⟨r, hr, ho⟩ := List.mem_flatMap.1 ho
    exact (within_normalized.1 (hresults.mem hr)).2.mem ho

theorem normalizeTraitRefWith {r : TraitRef} (hr : Within W r)
    (hserves : ∀ t ∈ r.self :: r.args, Serves scope E K W inner depth t.projectionTraits) :
    Orderly scope E K W (normalizeTraitRefWith inner r depth) := by
  obtain ⟨hself, hargs⟩ := within_traitRef.1 hr
  refine (normalizeTyWith hself (hserves _ (.head _))).bind fun self hW₁ hself => ?_
  refine (normalizeListWith (hargs.mono hW₁) fun t ht => (hserves t (.tail _ ht)).mono hW₁).bind
    fun args hW₂ hargs => pure ?_
  obtain ⟨hvalue, hobligations⟩ := within_normalized.1 (hself.mono hW₂)
  obtain ⟨hvalue', hobligations'⟩ := within_normalized.1 hargs
  exact within_normalized.2 ⟨within_traitRef.2 ⟨hvalue, hvalue'⟩,
    within_append.2 ⟨hobligations, hobligations'⟩⟩

/-- The obligations of a where-clause are in range. -/
theorem instantiateBound {p : WherePredicate} (hp : Within W p) (hsubst : Within W subst)
    (hserves : ∀ t ∈ p.typesUnder subst, Serves scope E K W inner depth t.projectionTraits) :
    Orderly scope E K W (instantiateBound inner subst depth p) := by
  obtain ⟨hself, hbound⟩ := within_wherePredicate.1 hp
  have hbound := hsubst.applyBound hbound
  have hgoal : Within W ((subst.applyBound p.bound).withSelf (subst.apply p.self)) :=
    within_traitRef.2 ⟨hsubst.apply hself, (within_bound.1 hbound).1⟩
  refine (normalizeTraitRefWith hgoal fun t ht => hserves t ?_).bind fun goal hW₁ hgoal => ?_
  · rcases List.mem_cons.1 ht with rfl | ht
    · exact .head _
    · exact .tail _ (List.mem_append_left _ ht)
  obtain ⟨hgoal, hobligations⟩ := within_normalized.1 hgoal
  refine (mapM fun a hW₂ ha => ?_).bind fun assocs hW₂ hassocs => pure ?_
  · have hty : Within _ a.ty := ((within_bound.1 hbound).2.mem ha).mono (hW₁.trans hW₂)
    have hmem : a.ty ∈ p.typesUnder subst :=
      .tail _ (List.mem_append_right _ (List.mem_map_of_mem ha))
    refine (normalizeTyWith hty ((hserves _ hmem).mono (hW₁.trans hW₂))).bind
      fun ty hW₃ hty => pure ?_
    obtain ⟨hty, hobligations⟩ := within_normalized.1 hty
    refine within_append.2 ⟨hobligations, within_singleton.2 (within_ofProjection.2 ⟨?_, hty⟩)⟩
    exact hgoal.mono (hW₂.trans hW₃)
  · simp only [within_append]
    exact ⟨⟨hobligations.mono hW₂, hassocs.flatten⟩,
      within_singleton.2 (within_ofTrait.2 (hgoal.mono hW₂))⟩

theorem instantiateBoundsWith (hbounds : Within W bounds) (hsubst : Within W subst)
    (hserves : ∀ p ∈ bounds, ∀ t ∈ p.typesUnder subst,
      Serves scope E K W inner depth t.projectionTraits) :
    Orderly scope E K W (instantiateBoundsWith inner bounds subst depth) := by
  refine (mapM fun p hW hp => ?_).bind fun _ _ h => pure h.flatten
  exact instantiateBound ((hbounds.mem hp).mono hW) (hsubst.mono hW)
    fun t ht => (hserves p hp t ht).mono hW

/-- Impl headers get variables of their own. -/
theorem instantiateHeader (himpl : Within W impl) :
    Orderly scope E K W (instantiateHeader impl) := by
  obtain ⟨-, htraitRef, hself, -⟩ := within_impl.1 himpl
  unfold Infer.instantiateHeader
  split
  · next trait args heq =>
    have hargs := (htraitRef.of_some heq).snd
    refine freshSubst.bind fun subst hW hsubst => pure (within_some.2 ?_)
    refine within_pair.2 ⟨hsubst, within_traitRef.2 ⟨?_, ?_⟩⟩
    · exact hsubst.apply (hself.mono hW)
    · exact hsubst.applyList (hargs.mono hW)
  · exact pure within_none

variable [Fault.Admits E]

/-- Using an impl is orderly if normalizing what it asks for is. -/
theorem projectImpl (himpl : Within W impl) (hp : Within W p)
    (hasked : ∀ {W'} q d, W ≤ W' → Within W' q → Asks scope impl p depth q d →
      Orderly scope E K W' (Infer.standIn inner q d))
    (hdeeper : FailsWith E (Obligation.deeper depth)) :
    Orderly scope E K W (projectImpl inner impl p depth) := by
  have hbounds : Within W impl.generics.bounds := (within_impl.1 himpl).1
  unfold Infer.projectImpl
  cases hname : impl.assocTy? p.name with
  | none => exact pure within_err
  | some assoc =>
    have hassoc := (himpl.implAssocTy? p.name).of_some hname
    refine (instantiateHeader himpl).bindOf fun header hgives hW₁ hheader => ?_
    match header, hgives, hheader with
    | none, _, _ => exact pure within_err
    | some (subst, header), hgives, hheader =>
      obtain ⟨hsubst, hheader⟩ := within_pair.1 (within_some.1 hheader)
      refine (combineTraitRefs hheader (hp.mono hW₁)).bindOf fun agrees hagrees hW₂ _ => ?_
      split
      · next htrue =>
        have htrait := trait_eq_of_combineTraitRefs hagrees htrue
        have hW := hW₁.trans hW₂
        have hsubst := hsubst.mono hW₂
        have hself := (within_traitRef.1 (hp.mono hW)).1
        refine (instantiateBoundsWith (hbounds.mono hW) hsubst fun b hb t ht _ q hW' hq hmem =>
          hasked q depth (hW.trans hW') hq
            ⟨subst, header, hgives, htrait, .inl ⟨rfl, b, hb, t, ht, hmem⟩⟩).bind
          fun bounds hW₃ hbounds => deeper hdeeper fun d hd => ?_
        have happlied := ((hsubst.substInsert .self hself).apply (hassoc.mono hW)).mono hW₃
        refine (normalizeTyWith happlied fun _ q hW' hq hmem =>
          hasked q d ((hW.trans hW₃).trans hW') hq
            ⟨subst, header, hgives, htrait, .inr ⟨hd, assoc, hname, hmem⟩⟩).bind
          fun ty hW₄ hty => pure ?_
        obtain ⟨hvalue, hobligations⟩ := within_normalized.1 hty
        exact within_ok.2 (within_some.2 (within_normalized.2
          ⟨hvalue, within_append.2 ⟨hbounds.mono hW₄, hobligations⟩⟩))
      · exact pure within_err

theorem projectBound (hbound : Within W bound) (hp : Within W p) :
    Orderly scope E K W (projectBound bound p) := by
  have hargs := (within_bound.1 hbound).1
  have hgoal := (within_traitRef.1 hp).2
  have hanswer {W' : Var → Prop} (hW : W ≤ W') :
      Within W' (Selection.ok ((bound.assocTy? p.name).map (Normalized.plain (α := Ty)))) := by
    refine within_ok.2 ?_
    exact ((hbound.mono hW).assocTy? p.name).optionMap fun t ht =>
      within_normalized.2 ⟨ht, within_nil⟩
  unfold Infer.projectBound
  refine of_ite ?_ ?_
  · exact (combinePairs hargs hgoal).bind fun _ hW _ => of_ite (pure (hanswer hW)) (pure within_err)
  · exact (pure (a := true) within_plain).bind fun _ hW _ =>
      of_ite (pure (hanswer hW)) (pure within_err)

theorem projectBuiltin (hp : Within W p) : Orderly scope E K W (projectBuiltin p) := by
  obtain ⟨hself, hargs⟩ := within_traitRef.1 hp
  unfold Infer.projectBuiltin
  split
  · next params ret heq =>
    rw [show p.traitRef.self = .fn params ret from heq] at hself
    obtain ⟨hparams, hret⟩ := Ty.within_fn.1 hself
    have hanswer {W' : Var → Prop} (hW : W ≤ W') :
        Within W' (Selection.ok (some (Normalized.plain ret))) :=
      within_ok.2 (within_some.2 (within_normalized.2 ⟨hret.mono hW, within_nil⟩))
    refine of_ite ?_ (pure (within_ok.2 within_none))
    split
    · next args hhead =>
      have hargs := hargs.head?.of_some hhead
      exact (unify (Ty.within_tuple.2 hparams) hargs).bind fun _ hW _ => pure (hanswer hW)
    · exact pure (hanswer le_rfl)
  · exact pure (within_ok.2 within_none)

/-- A projection is found in an impl, in a bound or in a function type. -/
theorem project (hp : Within W p)
    (hasked : ∀ {W'} id impl q d, scope.items.impl id = .ok impl → W ≤ W' → Within W' q →
      Asks scope impl p depth q d → Orderly scope E K W' (Infer.standIn inner q d))
    (hdeeper : FailsWith E (Obligation.deeper depth)) :
    Orderly scope E K W (project inner p depth) := by
  refine (selectGoal hp).bind fun selected hW hselected => ?_
  have hp := hp.mono hW
  match selected, hselected with
  | .ok (.impl id), _ =>
    refine readBind rfl fun hscope => ?_
    refine liftBind (fun h => entry_failsWith (h _ _ (by decide))) fun impl himpl => ?_
    refine projectImpl (hscope.impls.entry himpl) hp (fun q d hW' => ?_) hdeeper
    exact hasked id impl q d himpl (hW.trans hW')
  | .ok (.param bound), hselected =>
    exact projectBound (within_paramSource.1 (within_ok.1 hselected)) hp
  | .ok (.object bound), hselected =>
    exact projectBound (within_objectSource.1 (within_ok.1 hselected)) hp
  | .ok .builtin, _ => exact projectBuiltin hp
  | .err, _ => exact pure within_err
  | .ambiguous, _ => exact pure within_ambiguous

/-! ### The cache -/

theorem isOpenPredicate {p : Predicate} (hp : Within W p) :
    Orderly scope E K W (isOpenPredicate p) := by
  have hread : Orderly scope E K W (Infer.readVars fun vs => p.mapM (vs.resolveNode .var)) := by
    refine readVars (fun vs hs => ?_) fun _ hvs hW => hvs.exists_resolvePredicate (hp.mono hW)
    cases p with
    | trait goal => exact (resolveTraitRef_failsWith hs goal).bind fun _ => .ok _
    | projection p ty =>
      refine ((resolveTraitRef_failsWith hs p.traitRef).bind fun _ => .ok _).bind fun _ => ?_
      exact (hs.resolve_failsWith (Fault.Admits.dangling _) .var ty).bind fun _ => .ok _
  exact hread.bind fun _ _ _ => pure within_plain

/-- Only obligations that are open are kept. -/
theorem forCache {result : Normalized Ty} (h : Within W result) :
    Orderly scope E K W (forCache result) := by
  obtain ⟨hvalue, hobligations⟩ := within_normalized.1 h
  refine (isOpen hvalue).andThen fun _ => of_ite ?_ ?_
  · refine (filterM hobligations fun o hW₂ ho => ?_).bind fun kept hW₂ hkept => ?_
    · have ho : Within _ o := (hobligations.mem ho).mono hW₂
      exact of_ite (isOpenPredicate ho) (pure within_plain)
    · exact pure (within_normalized.2 ⟨hvalue.mono hW₂, hkept⟩)
  · exact pure (within_normalized.2 ⟨hvalue, within_nil⟩)

omit [Fault.Admits E] in
theorem within_plainUnknown : Within W (some (Normalized.plain Ty.unknown)) :=
  within_some.2 (within_normalized.2 ⟨Ty.within_unknown, within_nil⟩)

section

variable (hput : ∀ p entry, Regular scope E K (Infer.cachePut p entry))

include hput

/-- Answers of the cache are in range. -/
theorem answerFromCache {entry : CacheEntry} (hp : Within W p) (hentry : Within W entry) :
    Orderly scope E K W (answerFromCache p entry) := by
  cases entry with
  | ambiguous => exact pure within_none
  | inProgress | error => exact pure within_plainUnknown
  | normalized cached =>
    have hcached := within_normalizedEntry.1 hentry
    have hvalue := (within_normalized.1 hcached).1
    have hplain : Within W (Normalized.plain cached.value) :=
      within_normalized.2 ⟨hvalue, within_nil⟩
    refine (isOpen hvalue).andThen fun _ => of_ite ?_ ?_
    · exact pure (within_some.2 hcached)
    · refine (cachePut (hput ..) hp (within_normalizedEntry.2 hplain)).bind ?_
      exact fun _ hW₂ _ => pure (within_some.2 (hplain.mono hW₂))

/-- What is remembered is in range. -/
theorem remember {found : Selection (Option (Normalized Ty))} (hp : Within W p)
    (hfound : Within W found) : Orderly scope E K W (remember p found) := by
  match found, hfound with
  | .ok (some result), hfound =>
    have hresult := within_some.1 (within_ok.1 hfound)
    refine (forCache hresult).bind fun kept hW₁ hkept => ?_
    refine (cachePut (hput ..) (hp.mono hW₁) (within_normalizedEntry.2 hkept)).andThen fun _ => ?_
    exact pure (within_some.2 (hresult.mono hW₁))
  | .ok none, _ =>
    have hplain : Within W (Normalized.plain p.toTy) :=
      within_normalized.2 ⟨hp.toTy, within_nil⟩
    refine (cachePut (hput ..) hp (within_normalizedEntry.2 hplain)).andThen fun _ => ?_
    exact pure (within_some.2 hplain)
  | .err, _ =>
    exact (cachePut (hput ..) hp within_errorEntry).andThen fun _ => pure within_plainUnknown
  | .ambiguous, _ =>
    exact (cachePut (hput ..) hp within_ambiguousEntry).andThen fun _ => pure within_none

/-- One level of normalization is orderly if projecting is. -/
theorem normalizeWithin_succ (hp : Within W p)
    (hstart : ∀ p, Regular scope E K (Infer.cacheStart p))
    (hproject : ∀ {W'} q, Within W' q → q.traitRef.trait = p.traitRef.trait →
      Orderly scope E K W' (Infer.project (normalizeWithin n) q depth)) :
    Orderly scope E K W (normalizeWithin (n + 1) p depth) := by
  refine (resolveProjection hp).bindOf fun q hq _ hp => of_ite (pure within_none) ?_
  have htrait := trait_eq_of_resolveProjection hq
  refine (cacheStart (hstart q) hp).bind fun entry hW₁ hentry => ?_
  have hp := hp.mono hW₁
  cases entry with
  | some entry => exact answerFromCache hput hp (within_some.1 hentry)
  | none =>
    refine (hproject q hp htrait).bind fun found hW₂ hfound => ?_
    exact remember hput (hp.mono hW₂) hfound

end

end Orderly

/-- Normalization is regular, and depths may run out. -/
class Normalizes (scope : Scope) (E : Fault → Prop) (K : Atoms) : Prop
    extends Fault.Admits E where
  tooDeep : E .tooDeep
  normalize : ∀ p depth, Regular scope E K (normalize? p depth)

/-- What the operations of an inference are composed of: normalization is regular, and the faults
are those of all bounded recursions. -/
class Basis (scope : Scope) (E : Fault → Prop) (K : Atoms) : Prop
    extends Normalizes scope E K where
  exhausted : E .exhausted

/-- Normalization is orderly, however deep it goes. -/
theorem orderly_normalizeWithin [Fault.Admits E] (hexhausted : E .exhausted) (htooDeep : E .tooDeep)
    (hp : Within W p) : Orderly scope E CacheOp W (normalizeWithin n p depth) := by
  -- The associated types of impls are normalized with one level less.
  induction n generalizing W p depth with
  | zero => exact .throw hexhausted .exhausted
  | succ n ih =>
    refine .normalizeWithin_succ (fun _ _ => .atom (.put ..)) hp (fun _ => .atom (.start _)) ?_
    intro W' q hq _
    refine .project hq (fun _ _ _ d _ _ hq _ => .standIn hq (ih hq) ?_) ?_
    · exact deeper_failsWith htooDeep d
    · exact deeper_failsWith htooDeep depth

theorem Basis.mono [hbasis : Basis scope E K] (hK : ∀ {α : Type} {x : Infer α}, K α x → K' α x) :
    Basis scope E K' where
  dangling := hbasis.dangling
  tooDeep := hbasis.tooDeep
  exhausted := hbasis.exhausted
  normalize p depth := (hbasis.normalize p depth).mono hK

instance {scope : Scope} {E : Fault → Prop} {K : Atoms} [Basis scope E K] :
    Basis scope E (Filing K) :=
  .mono Recording.op

instance {scope : Scope} {E : Fault → Prop} {K : Atoms} [Basis scope E K] :
    Basis scope E (Noting K) :=
  Basis.mono .op

instance {scope : Scope} {E : Fault → Prop} {K : Atoms} [Basis scope E K] :
    Basis scope E (Reporting K) :=
  Basis.mono .op

theorem basis_cacheOp [Fault.Admits E] (hexhausted : E .exhausted) (htooDeep : E .tooDeep) :
    Basis scope E CacheOp where
  exhausted := hexhausted
  tooDeep := htooDeep
  normalize _ _ := .reads (fun _ => rfl) fun _ =>
    (orderly_normalizeWithin hexhausted htooDeep within_true).anyway

instance (scope : Scope) : Basis scope (fun _ => True) CacheOp := basis_cacheOp trivial trivial

/-- Normalization as a whole. -/
inductive NormalizeOp : (α : Type) → Infer α → Prop
  | call (p : Projection) (depth : Nat) : NormalizeOp (Option (Normalized Ty)) (normalize? p depth)

theorem normalizes_normalizeOp [Fault.Admits E] (htooDeep : E .tooDeep) :
    Normalizes scope E NormalizeOp where
  tooDeep := htooDeep
  normalize p depth := .atom (.call p depth)

instance (scope : Scope) : Basis scope (fun _ => True) NormalizeOp :=
  { normalizes_normalizeOp trivial with exhausted := trivial }

theorem NormalizeOp.confined {α : Type} {x : Infer α} (h : NormalizeOp α x) :
    Relates scope State.Confined x := by
  cases h with
  | call p depth =>
    have hregular : Regular scope (fun _ => True) CacheOp (normalize? p depth) :=
      Normalizes.normalize p depth
    exact hregular.confined

theorem NormalizeOp.relates {α : Type} {x : Infer α} (h : NormalizeOp α x) :
    Relates scope (fun _ _ => True) x :=
  h.confined.imp fun _ => trivial

theorem Contained.of_orderly {α : Type} [Mentioning α] {x : Infer α}
    (h : ∀ scope, Orderly scope (fun _ => True) (Reporting CacheOp) W x) : Contained W x :=
  fun scope _ hscope hs => (h scope).stays hscope hs

end Infer

end TypeInference
