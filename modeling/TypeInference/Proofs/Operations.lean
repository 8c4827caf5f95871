import TypeInference.Proofs.Normalizers

/-!
# The operations of an inference

Every operation of an inference is orderly: it is regular, and contained in whatever its arguments
are within. Each section follows one module of the inference; an operation's lemma cites those of the
operations that it calls.
-/

namespace TypeInference

namespace Infer

namespace Orderly

variable {scope : Scope} {E : Fault → Prop} {K : Atoms} {W : Var → Prop}
  {t a b ty : Ty} {ts : List Ty} {subst explicit : Subst} {queue : List Obligation}
  {target step source selfParam : Ty} {uses : List (FnId × PathResolution)} {args seq : List Ty}
  {c : Candidate} {bounds : List WherePredicate} {generics : Generics} {goal : TraitRef}
  {bound : Bound} {expr id : ExprId} {name : String} {derefCount depth : Nat}
  {strict labelled : Bool} {fn : Function} {p : Projection}

section

variable [Normalizes scope E K] {α : Type}

/-! ## Normalization as an operation -/

theorem normalize? (hp : Within W p) : Orderly scope E K W (normalize? p depth) where
  regular _ := Normalizes.normalize p depth
  stays :=
    (readBind rfl fun _ =>
      orderly_normalizeWithin (E := fun _ => True) trivial trivial hp).stays

/-- A computation at the next depth, if that is within the limit. -/
theorem descend [Mentioning α] {f : Nat → Infer α} (hf : ∀ d, Orderly scope E K W (f d)) :
    Orderly scope E K W ((liftM (Obligation.deeper depth) : Infer Nat) >>= f) :=
  deeper (deeper_failsWith (Normalizes.tooDeep scope K) depth) fun d _ => hf d

theorem normalizeProjection (hp : Within W p) :
    Orderly scope E K W (normalizeProjection p depth) :=
  standIn hp (normalize? hp) (deeper_failsWith (Normalizes.tooDeep scope K) depth)

theorem normalizeTy (ht : Within W t) : Orderly scope E K W (normalizeTy t depth) :=
  normalizeTyWith ht fun _ _ _ hq _ => normalizeProjection hq

theorem normalizeList (hts : Within W ts) :
    Orderly scope E K W (Infer.normalizeListWith Infer.normalize? ts depth) :=
  normalizeListWith hts fun _ _ _ _ _ hq _ => normalizeProjection hq

theorem instantiateBounds (hbounds : Within W bounds) (hsubst : Within W subst) :
    Orderly scope E K W (instantiateBounds bounds subst depth) :=
  instantiateBoundsWith hbounds hsubst fun _ _ _ _ _ _ _ hq _ => normalizeProjection hq

omit [Normalizes scope E K] in
/-- The obligations of a result are registered along with it. -/
theorem registered [Files K] [Mentioning α] {x : Infer (Normalized α)} (hx : Orderly scope E K W x) :
    Orderly scope E K W (do
      let result ← x
      Infer.register result.obligations
      return result.value) := by
  refine hx.bind fun result _ hresult => ?_
  obtain ⟨hvalue, hobligations⟩ := within_normalized.1 hresult
  exact (register hobligations).andThen fun _ => pure hvalue

theorem normalized [Files K] (ht : Within W t) : Orderly scope E K W (normalized t) :=
  registered (normalizeTy ht)

theorem normalizedList [Files K] (hts : Within W ts) : Orderly scope E K W (normalizedList ts) :=
  registered (normalizeList hts)

theorem projected [Files K] {p : Projection} (hp : Within W p) :
    Orderly scope E K W (projected p) :=
  registered (normalizeProjection hp)

/-! ## Obligations -/

theorem confirmBound (hbound : Within W bound) (hgoal : Within W goal) :
    Orderly scope E K W (if bound.args.length = goal.args.length then do
      return if ← Infer.combinePairs bound.args goal.args then some [] else none
    else return none : Infer (Option (List Obligation))) := by
  refine of_ite ?_ (pure within_none)
  refine (combinePairs (within_bound.1 hbound).1 (within_traitRef.1 hgoal).2).andThen fun _ => ?_
  exact pure (of_ite (within_some.2 within_nil) within_none)

theorem confirm {source : Source} (hgoal : Within W goal) (hsource : Within W source) :
    Orderly scope E K W (confirm goal source depth) := by
  match source, hsource with
  | .impl id, _ =>
    refine readBind rfl fun hscope => ?_
    refine entryBind hscope.impls (by decide) fun impl himpl => ?_
    refine (instantiateHeader himpl).bind fun header hW₁ hheader => ?_
    match header, hheader with
    | none, _ => exact pure within_none
    | some (subst, header), hheader =>
      obtain ⟨hsubst, hheader⟩ := within_pair.1 (within_some.1 hheader)
      refine (combineTraitRefs hheader (hgoal.mono hW₁)).andThen fun _ => ?_
      refine of_ite ?_ (pure within_none)
      have hbounds : Within W impl.generics.bounds := (within_impl.1 himpl).1
      refine (instantiateBounds (hbounds.mono hW₁) hsubst).bind ?_
      exact fun _ _ h => pure (within_some.2 h)
  | .param bound, hsource => exact confirmBound (within_paramSource.1 hsource) hgoal
  | .object bound, hsource => exact confirmBound (within_objectSource.1 hsource) hgoal
  | .builtin, _ =>
    obtain ⟨hself, hargs⟩ := within_traitRef.1 hgoal
    rw [Infer.confirm]
    split
    · next params ret args hfn hhead =>
      rw [hfn] at hself
      have hparams := Ty.within_tuple.2 (Ty.within_fn.1 hself).1
      refine (combine hparams (hargs.head?.of_some hhead)).andThen fun _ => ?_
      exact pure (of_ite (within_some.2 within_nil) within_none)
    · exact pure (within_some.2 within_nil)

/-- An obligation is worked on within its own variables and new ones. -/
theorem process {o : Obligation} (ho : Within W o) : Orderly scope E K W (process o) := by
  have hpredicate := within_obligation.1 ho
  refine readBind rfl fun hscope => of_ite (pure within_failed) ?_
  split
  · next goal heq =>
    rw [heq] at hpredicate
    refine (resolveTraitRef (within_trait.1 hpredicate)).bind fun goal _ hgoal => ?_
    refine (selectGoal hgoal).bind fun selected hW hselected => ?_
    have hgoal := hgoal.mono hW
    cases selected with
    | ok source =>
      refine descend fun depth => ?_
      refine (confirm hgoal (within_ok.1 hselected)).bind fun nested _ hnested => ?_
      cases nested with
      | some nested => exact pure (within_decided.2 (within_some.1 hnested))
      | none => exact pure within_failed
    | err => exact pure within_failed
    | ambiguous => exact pure within_stalled
  · next p ty heq =>
    rw [heq] at hpredicate
    obtain ⟨hp, hty⟩ := within_projectionPredicate.1 hpredicate
    refine descend fun depth => (normalize? hp).bind fun result hW₁ hresult => ?_
    cases result with
    | none => exact pure within_stalled
    | some result =>
      obtain ⟨hvalue, hobligations⟩ := within_normalized.1 (within_some.1 hresult)
      refine (combine hvalue (hty.mono hW₁)).andThen fun _ => pure ?_
      exact of_ite (within_decided.2 hobligations) within_failed

/-- So is every obligation of a round, and those that come up in it. -/
theorem round (hqueue : Within W queue) : Orderly scope E K W (round strict queue) := by
  induction queue generalizing W with
  | nil => exact pure (within_some.2 (within_round.2 ⟨within_nil, within_nil⟩))
  | cons o rest ih =>
    obtain ⟨ho, hrest⟩ := within_cons.1 hqueue
    -- After the first obligation comes the rest of the round, whatever became of the first.
    have hnext {W' : Var → Prop} {k : Option Round → Infer (Option Round)} (hW : W ≤ W')
        (hnone : ∀ W'', Orderly scope E K W'' (k none))
        (hsome : ∀ {W''} r, W' ≤ W'' → Within W'' r → Orderly scope E K W'' (k (some r))) :
        Orderly scope E K W' (Infer.round strict rest >>= k) := by
      refine (ih (hrest.mono hW)).bind fun r hW hr => ?_
      cases r with
      | none => exact hnone _
      | some r => exact hsome r hW (within_some.1 hr)
    refine (process ho).bind fun progress hW₁ hprogress => ?_
    cases progress with
    | decided nested =>
      refine hnext hW₁ (fun _ => pure within_none) fun r hW₂ hr =>
        pure (within_some.2 (within_round.2 ?_))
      obtain ⟨hstalled, hnested⟩ := within_round.1 hr
      exact ⟨hstalled, within_append.2 ⟨(within_decided.1 hprogress).mono hW₂, hnested⟩⟩
    | stalled =>
      refine hnext hW₁ (fun _ => pure within_none) fun r hW₂ hr =>
        pure (within_some.2 (within_round.2 ?_))
      obtain ⟨hstalled, hnested⟩ := within_round.1 hr
      exact ⟨within_cons.2 ⟨ho.mono (hW₁.trans hW₂), hstalled⟩, hnested⟩
    | failed =>
      refine of_ite (pure within_none) ?_
      exact hnext hW₁ (fun _ => pure within_none) fun r _ hr =>
        pure (within_some.2 (within_round.2 (within_round.1 hr)))

end

variable [Basis scope E K] {i n : Nat} {impl : Impl}

theorem settleWithin (hqueue : Within W queue) :
    Orderly scope E K W (settleWithin strict n queue) := by
  induction n generalizing W queue with
  | zero => exact throw (Basis.exhausted scope K) .exhausted
  | succ n ih =>
    refine of_ite (pure (within_pair.2 ⟨within_plain, within_nil⟩)) ?_
    refine (round hqueue).bind fun r _ hr => ?_
    cases r with
    | none => exact pure (within_pair.2 ⟨within_plain, within_nil⟩)
    | some r =>
      have hrest := within_append.2 (within_round.1 (within_some.1 hr))
      exact of_ite (ih hrest) (pure (within_pair.2 ⟨within_plain, hrest⟩))

theorem settle (hqueue : Within W queue) : Orderly scope E K W (settle strict queue) :=
  readBind rfl fun _ => settleWithin hqueue

theorem settlePending [Files K] : Orderly scope E K W settlePending := by
  refine stateBind (fun _ _ => rfl) fun {W'} s _ hs => ?_
  have hempty : Orderly scope E K W' (modify fun s => { s with pending := [] } : Infer Unit) :=
    file (fun _ _ => rfl) (fun _ => ⟨⟨⟨rfl, rfl, rfl, rfl⟩, rfl⟩, rfl⟩) (fun s => .pending s [])
      fun _ hs => { hs with pending := within_nil }
  refine hempty.andThen fun _ => (settle hs.pending).bind fun p _ hp => ?_
  exact file (fun _ _ => rfl) (fun _ => ⟨⟨⟨rfl, rfl, rfl, rfl⟩, rfl⟩, rfl⟩) (fun s => .pending s _)
    fun hW hs => { hs with pending := within_append.2 ⟨hp.snd.mono hW, hs.pending⟩ }

theorem resolveSettled [Files K] (ht : Within W t) : Orderly scope E K W (resolveSettled t) :=
  (resolve ht).bind fun _ _ ht =>
    of_ite (settlePending.andThen fun _ => resolve ht) (pure ht)

theorem meetsBounds {self : Ty} (himpl : Within W impl) (hself : Within W self) :
    Orderly scope E K W (do
      let subst ← Infer.freshSubst impl.generics
      if ← Infer.combine self (subst.apply impl.self) then
        let bounds ← Infer.instantiateBounds impl.generics.bounds subst 0
        return (← Infer.settle true bounds).1
      else
        return false : Infer Bool) := by
  obtain ⟨hgenerics, -, himplSelf, -⟩ := within_impl.1 himpl
  refine freshSubst.bind fun subst hW₁ hsubst => ?_
  refine (combine (hself.mono hW₁) (hsubst.apply (himplSelf.mono hW₁))).andThen fun _ => ?_
  refine of_ite ?_ (pure within_plain)
  have hbounds := (within_generics.1 hgenerics).mono hW₁
  refine (instantiateBounds hbounds hsubst).bind fun bounds _ hbounds => ?_
  exact (settle hbounds).bind fun _ _ _ => pure within_plain

theorem implHolds {id : ImplId} {self : Ty} (hself : Within W self) :
    Orderly scope E K W (implHolds id self) :=
  readBind rfl fun hscope => entryBind hscope.impls (by decide) fun _ himpl =>
    probe (meetsBounds himpl hself) (meetsBounds within_true within_true)

/-! ## Reports -/

theorem hasReportWithin [Reports K] : Orderly scope E K W (hasReportWithin id) := by
  refine readBind rfl fun _ => ?_
  refine stateBindOf (Regular.get.bind ·) fun s _ _ => anyM fun d _ _ => ?_
  split
  · exact lift (Body.isAncestorOf_failsWith Fault.Admits.named _ (Basis.exhausted scope K) _ _)
      (Body.isAncestorOf_failsWith .dangling _ .exhausted _ _) fun _ _ => within_plain
  · exact pure within_plain

theorem reportMismatch [Reports K] {site : Site} (ha : Within W a) (hb : Within W b) :
    Orderly scope E K W (reportMismatch site a b) := by
  refine readBindOf (fun h => Regular.read.bindOf fun _ hread => ?_) fun _ => ?_
  · obtain ⟨s, s', ⟨⟩⟩ := hread
    exact h
  refine of_ite ?_ (pure within_plain)
  refine (resolve ha).bind fun a hW ha => (resolve (hb.mono hW)).bind fun b hW' hb => ?_
  have hmismatch : Within _ (Diagnostic.mismatch site _ _) := within_mismatch.2 ⟨ha.mono hW', hb⟩
  refine of_ite (pure within_plain) ?_
  cases site with
  | expr id => exact hasReportWithin.andThen fun _ => of_ite (pure within_plain) (report hmismatch)
  | pat id =>
    exact (pure within_plain).andThen fun _ => of_ite (pure within_plain) (report hmismatch)

/-! ## Joins -/

theorem joinTwo (ha : Within W a) (hb : Within W b) : Orderly scope E K W (joinTwo a b) := by
  refine (head ha).bind fun t hW₁ _ => ?_
  split
  · exact pure (hb.mono hW₁)
  · exact pure (of_ite Ty.within_unknown (hb.mono hW₁))
  · exact (unify (ha.mono hW₁) (hb.mono hW₁)).andThen fun _ => pure (ha.mono hW₁)

theorem join (hts : Within W ts) : Orderly scope E K W (join ts) := by
  cases ts with
  | nil => exact pure Ty.within_unknown
  | cons first rest =>
    obtain ⟨hfirst, hrest⟩ := within_cons.1 hts
    exact foldlM hfirst fun b a hW ha hb => joinTwo hb ((hrest.mem ha).mono hW)

theorem breakTysWithin {label : Option String} :
    Orderly scope E K W (breakTysWithin label n labelled id) := by
  induction n generalizing W labelled id with
  | zero => exact throw (Basis.exhausted scope K) .exhausted
  | succ n ih =>
    refine readBind rfl fun hscope => ?_
    refine liftBind (scope.body.expr_failsWith · id) fun e _ => ?_
    refine (mapM fun child _ _ => liftBind (scope.body.expr_failsWith · child) fun e _ => ?_).bind
      fun _ _ h => pure h.flatten
    split
    · next _ value _ =>
      refine ih.bind fun inner _ hinner => of_ite ?_ (pure hinner)
      have hvalue {W' : Var → Prop} : Orderly scope E K W' (breakValueTy value) := by
        cases value with
        | some value => exact exprTy
        | none => exact pure Ty.within_unit
      exact hvalue.bind fun ty hW hty =>
        pure (within_append.2 ⟨hinner.mono hW, within_singleton.2 hty⟩)
    · exact pure within_nil
    · exact of_ite (ih ..) (pure within_nil)
    · exact of_ite (ih ..) (pure within_nil)
    · exact of_ite (ih ..) (pure within_nil)
    · exact of_ite (ih ..) (pure within_nil)
    · exact ih ..

theorem joinBreaks {base : Ty} (hbase : Within W base) :
    Orderly scope E K W (joinBreaks id base labelled) := by
  refine readBind rfl fun hscope => ?_
  refine liftBind (scope.body.expr_failsWith · id) fun _ _ => of_ite ?_ ?_
  · refine breakTysWithin.bind fun breaks hW hbreaks => ?_
    exact join (within_cons.2 ⟨hbase.mono hW, hbreaks⟩)
  · exact join (within_singleton.2 hbase)

/-! ## Uses of declarations -/

theorem registerBounds [Files K] (hgenerics : Within W generics) (hsubst : Within W subst) :
    Orderly scope E K W (registerBounds generics subst) :=
  (instantiateBounds hgenerics hsubst).bind fun _ _ h => register h

theorem instantiate [Files K] {self : Option Ty} (hgenerics : Within W generics)
    (hself : Within W self) :
    Orderly scope E K W (instantiate generics self) := by
  refine freshSubst.bind fun fresh hW₁ hfresh => ?_
  have hgenerics := hgenerics.mono hW₁
  cases self with
  | some self =>
    have hsubst := hfresh.substInsert .self ((within_some.1 hself).mono hW₁)
    exact (registerBounds hgenerics hsubst).andThen fun _ => pure hsubst
  | none => exact (registerBounds hgenerics hfresh).andThen fun _ => pure hfresh

theorem pin {vars : Subst} (hexplicit : Within W explicit) (hvars : Within W vars) :
    Orderly scope E K W (pin explicit vars) := by
  refine forM fun e hW he => of_ite ?_ (pure within_plain)
  have hty : Within W e.2 := within_subst.1 hexplicit e (List.mem_reverse.1 he)
  split
  · next var hget => exact unify (((hvars.substGet? e.1).of_some hget).mono hW) (hty.mono hW)
  · exact pure within_plain

/-- Which impl is meant is left to a goal, once that is settled. -/
theorem instantiateTrait [Files K] {id : TraitId} {self : Ty} {later : TraitRef → Infer Unit}
    (hself : Within W self) (hlater : ∀ {W' goal}, Within W' goal →
      Orderly scope E K W' (later goal)) (htraits : Within W scope.items.traits) :
    Orderly scope E K W (do
      let generics := (← scope.items.trait id).generics
      let subst ← Infer.instantiate generics (some self)
      let goal : TraitRef := ⟨self, id, subst.applyList generics.paramTys⟩
      Infer.register [.ofTrait 0 goal]
      later goal
      return subst) := by
  refine entryBind htraits (by decide) fun decl hdecl => ?_
  refine (instantiate hdecl (within_some.2 hself)).bind fun subst hW hsubst => ?_
  have hgoal : Within _ (⟨self, id, subst.applyList decl.generics.paramTys⟩ : TraitRef) :=
    within_traitRef.2 ⟨hself.mono hW, hsubst.applyList (within_paramTys _)⟩
  refine (register (within_singleton.2 (within_ofTrait.2 hgoal))).andThen fun _ => ?_
  exact (hlater hgoal).andThen fun _ => pure hsubst

theorem instantiateOwner [Files K] (hexplicit : Within W explicit) :
    Orderly scope E K W (instantiateOwner expr fn explicit) := by
  have hself := hexplicit.substGet? .self
  refine readBind rfl fun hscope => ?_
  cases fn.owner with
  | free => exact pure within_emptySubst
  | impl id =>
    refine entryBind hscope.impls (by decide) fun impl himpl => ?_
    obtain ⟨hgenerics, -, himplSelf, -⟩ := within_impl.1 himpl
    refine (instantiate hgenerics within_none).bind fun subst hW₁ hsubst => ?_
    have happlied := hsubst.apply (himplSelf.mono hW₁)
    split
    · next explicitSelf hget =>
      refine (unify happlied ((hself.of_some hget).mono hW₁)).andThen fun _ => pure ?_
      exact hsubst.substInsert _ happlied
    · exact pure (hsubst.substInsert _ happlied)
  | trait id =>
    -- `Self` is what the path says, or a new variable.
    cases hget : explicit.get? .self with
    | some self => exact instantiateTrait (hself.of_some hget) refinePathLater hscope.traits
    | none =>
      exact freshTy.bind fun _ hW hself =>
        instantiateTrait hself refinePathLater (hscope.traits.mono hW)

theorem instantiateFn [Files K] {id : FnId} (hexplicit : Within W explicit) :
    Orderly scope E K W (instantiateFn expr id explicit) := by
  refine readBind rfl fun hscope => ?_
  refine entryBind hscope.functions (by decide) fun fn hfn => ?_
  refine (instantiateOwner hexplicit).bind fun outer hW₁ houter => ?_
  refine freshSubst.bind fun own hW₂ hown => ?_
  have hW := hW₁.trans hW₂
  have hsubst := (houter.mono hW₂).union hown
  have hgenerics := (within_function.1 hfn).1.mono hW
  refine (registerBounds hgenerics hsubst).bind fun _ hW₃ _ => ?_
  refine (pin (hexplicit.mono (hW.trans hW₃)) (hsubst.mono hW₃)).bind fun _ hW₄ _ => ?_
  refine readBind rfl fun _ => normalized ?_
  have hW' := hW₃.trans hW₄
  exact (hsubst.mono hW').apply ((hfn.valueTy _).mono (hW.trans hW'))

omit [Basis scope E K] in
theorem agreedArg (hargs : Within W args) : Orderly scope E K W (agreedArg args) := by
  cases args with
  | nil => exact pure within_none
  | cons first rest =>
    obtain ⟨hfirst, -⟩ := within_cons.1 hargs
    exact of_ite (pure (within_some.2 hfirst)) (freshTy.bind fun _ _ ht => pure (within_some.2 ht))

/-- The arguments that paths give to a parameter are among those of the paths. -/
theorem within_of_argsAt {items : Items} (huses : Within W uses)
    (hargs : argsAt items i uses = .ok args) : Within W args := by
  obtain ⟨found, hfound, hargs⟩ := Except.bind_eq_ok hargs
  cases hargs
  refine (within_of_mapM (fun use huse ty hty => ?_) hfound).filterMap
  obtain ⟨fn, -, hty⟩ := Except.bind_eq_ok hty
  cases hty
  have hsubst : Within W use.2.subst := (huses.mem huse).snd
  refine within_option.2 fun ty hty => ?_
  obtain ⟨p, -, hty⟩ := Option.bind_eq_some_iff.1 hty
  exact within_option.1 (hsubst.substGet? p) ty hty

theorem collapsedArgs {fn : FnId} (huses : Within W uses) :
    Orderly scope E K W (collapsedArgs fn uses) := by
  refine readBind rfl fun hscope => ?_
  refine entryBind hscope.functions (by decide) fun decl _ => ?_
  refine (foldlM within_emptySubst fun subst param hW _ hsubst => ?_).bind
    fun subst hW hsubst => ?_
  · refine liftBind (argsAt_failsWith · _ _ _) fun args hargs => ?_
    refine (agreedArg (within_of_argsAt (huses.mono hW) hargs)).bind fun agreed hW' hagreed => ?_
    cases agreed with
    | some ty => exact pure ((hsubst.mono hW').substInsert _ (within_some.1 hagreed))
    | none => exact pure (hsubst.mono hW')
  · have hself : Within W (uses.head?.bind (·.2.subst.get? .self)) :=
      huses.head?.optionBind fun use huse => Within.substGet? (σ := use.2.subst) huse.snd _
    split
    · next self hget => exact pure (hsubst.substInsert _ ((hself.of_some hget).mono hW))
    · exact pure hsubst

theorem instantiateAdt [Files K] {id : AdtId} (hexplicit : Within W explicit) :
    Orderly scope E K W (instantiateAdt id explicit) := by
  refine readBind rfl fun hscope => entryBind hscope.adts (by decide) fun adt hadt => ?_
  refine (instantiate (within_adt.1 hadt).1 within_none).bind fun subst hW₁ hsubst => ?_
  refine (pin (hexplicit.mono hW₁) hsubst).andThen fun _ => pure ?_
  exact within_pair.2 ⟨hadt.mono hW₁,
    within_pair.2 ⟨hsubst, hsubst.applyList (within_paramTys _)⟩⟩

theorem instantiateCtor [Files K] {variant : VariantRef} (hexplicit : Within W explicit) :
    Orderly scope E K W (instantiateCtor variant explicit) := by
  refine (instantiateAdt hexplicit).bind ?_
  rintro _ ⟨adt, subst, args⟩ _ h
  obtain ⟨hadt, h⟩ := within_pair.1 h
  obtain ⟨hsubst, hargs⟩ := within_pair.1 h
  have hty : Within _ (Ty.adt variant.adt args) := Ty.within_adt.2 hargs
  dsimp only
  split
  · next fields heq =>
    have hfields := within_tupleShape.1 ((hadt.shape? variant).of_some heq)
    exact normalized (Ty.within_fn.2 ⟨hsubst.applyList hfields, hty⟩)
  · exact normalized hty

theorem wellKnownTy {id : Option AdtId} (hargs : Within W args) :
    Orderly scope E K W (wellKnownTy id args) := by
  cases id with
  | none => exact pure Ty.within_unknown
  | some id =>
    refine readBind rfl fun hscope => ?_
    refine entryBind hscope.adts (by decide) fun adt _ => pure ?_
    refine Ty.within_adt.2 (Within.subset (within_append.2 ⟨hargs, ?_⟩) (List.take_subset _ _))
    refine within_list.2 fun t ht => ?_
    rw [(List.mem_replicate.1 ht).2]
    exact Ty.within_unknown

/-! ## Method lookup -/

theorem meetsSelf (himpl : Within W impl) (hty : Within W ty) :
    Orderly scope E K W (do
      let subst ← Infer.freshSubst impl.generics
      Infer.combine ty (subst.apply impl.self) : Infer Bool) := by
  have hself := (within_impl.1 himpl).2.2.1
  refine freshSubst.bind fun subst hW hsubst => ?_
  exact combine (hty.mono hW) (hsubst.apply (hself.mono hW))

theorem mayBeSelf (himpl : Within W impl) (hty : Within W ty) :
    Orderly scope E K W (mayBeSelf impl ty) :=
  probe (meetsSelf himpl hty) (meetsSelf within_true within_true)

theorem implCandidates (hstep : Within W step) :
    Orderly scope E K W (implCandidates name derefCount step) := by
  refine readBind rfl fun hscope => ?_
  refine (mapM fun id hW _ => ?_).bind fun found _ hfound => pure ?_
  · refine liftBind (scope.items.implMethod_failsWith · id name) fun method _ => ?_
    cases method with
    | none => exact pure within_none
    | some fn =>
      refine entryBind (hscope.impls.mono hW) (by decide) fun impl himpl => ?_
      refine (mayBeSelf himpl (hstep.mono hW)).andThen fun _ => of_ite (pure ?_) (pure within_none)
      exact within_some.2 (within_candidate.2 ⟨hstep.mono hW, within_implCandidate⟩)
  · exact hfound.filterMap

theorem boundCandidates {bounds : List Bound} {source : Bound → CandidateSource}
    (hstep : Within W step) (hsource : ∀ b ∈ bounds, Within W (source b)) :
    Orderly scope E K W (boundCandidates name derefCount step bounds source) := by
  refine readBind rfl fun hscope => ?_
  refine (mapM fun b hW hb => ?_).bind fun found _ hfound => pure ?_
  · refine liftBind (scope.items.traitMethod_failsWith · _ name) fun method _ => ?_
    cases method with
    | none => exact pure within_none
    | some fn =>
      refine pure (within_some.2 (within_candidate.2 ⟨hstep.mono hW, ?_⟩))
      exact (hsource b hb).mono hW
  · exact hfound.filterMap

theorem within_objectBounds (ht : Within W t) : Within W (objectBounds t) := by
  cases t with
  | dyn b => exact within_singleton.2 (Ty.within_dyn.1 ht)
  | existential _ bs => exact Ty.within_existential.1 ht
  | _ => exact within_nil

theorem stepCandidates (hstep : Within W step) :
    Orderly scope E K W (stepCandidates name derefCount step) := by
  refine of_ite (pure within_nil) ?_
  refine (implCandidates hstep).bind fun impls hW₁ himpls => ?_
  refine readBind rfl fun hscope => (boundCandidates (hstep.mono hW₁) fun b hb =>
    within_boundCandidate.2 ((hscope.env.boundsFor step).mem hb)).bind fun bounds hW₂ hbounds => ?_
  have hstep := hstep.mono (hW₁.trans hW₂)
  refine (boundCandidates hstep fun b hb =>
    within_objectCandidate.2 ((within_objectBounds hstep).mem hb)).bind fun objects hW₃ hobjects => ?_
  refine pure (within_append.2 ⟨within_append.2 ⟨?_, ?_⟩, hobjects⟩)
  · exact himpls.mono (hW₂.trans hW₃)
  · exact hbounds.mono hW₃

theorem candidates {steps : List Ty} (hsteps : Within W steps) :
    Orderly scope E K W (candidates steps name) := by
  refine (mapM fun p hW hp => ?_).bind fun _ _ h => pure h.flatten
  exact stepCandidates ((hsteps.mem (List.fst_mem_of_mem_zipIdx hp)).mono hW)

theorem isVisible {inScope : List TraitId} : Orderly scope E K W (isVisible inScope c) := by
  unfold Infer.isVisible
  split
  · refine readBind rfl fun hscope => entryBind hscope.impls (by decide) fun impl _ => ?_
    split
    · exact pure within_plain
    · exact pure within_plain
  · exact pure within_plain

variable {cs : List Candidate} {steps genericArgs rest : List Ty}
  {adjustments borrow : List Adjustment}

theorem keepVisible (hcs : Within W cs) : Orderly scope E K W (keepVisible cs) := by
  have hscope : Orderly scope E K W traitsInScope :=
    readBind rfl fun _ => pure (within_list.2 fun _ _ => within_plain)
  refine hscope.bind fun inScope hW₁ _ => ?_
  refine (filterM (hcs.mono hW₁) fun c _ _ => isVisible).bind fun visible hW₂ hvisible => ?_
  exact pure (of_ite (hcs.mono (hW₁.trans hW₂)) hvisible)

theorem keepHolding (hcs : Within W cs) : Orderly scope E K W (keepHolding cs) := by
  refine filterM hcs fun c hW hc => ?_
  split
  · exact implHolds ((within_candidate.1 (hcs.mem hc)).1.mono hW)
  · exact pure within_plain

theorem selfParamTy (hc : Within W c) : Orderly scope E K W (selfParamTy c) := by
  refine readBind rfl fun hscope => ?_
  refine entryBind hscope.functions (by decide) fun fn hfn => ?_
  have hparam := (within_function.1 hfn).2.1
  split
  · next p heq =>
    have hty := (hparam.of_some heq).selfTy (within_candidate.1 hc).1
    exact (resolve hty).bind fun _ _ ht => pure (within_some.2 ht)
  · exact pure within_none

/-- The candidates that accept a form are among those given. -/
theorem within_firstAccepted {pairs : List (Candidate × Option Ty)} (hpairs : Within W pairs)
    (forms : List Ty) : Within W (firstAccepted pairs forms) := by
  induction forms with
  | nil => exact within_nil
  | cons form forms ih =>
    unfold firstAccepted
    dsimp only
    split
    · exact ih
    · refine within_list.2 fun c hc => ?_
      obtain ⟨p, hp, rfl⟩ := List.mem_map.1 hc
      exact (hpairs.mem (List.mem_filter.1 hp).1).fst

theorem keepAccepting (hsteps : Within W steps) (hcs : Within W cs) :
    Orderly scope E K W (keepAccepting steps cs) := by
  refine (mapM fun c hW hc => selfParamTy ((hcs.mem hc).mono hW)).bind fun params hW₁ hparams => ?_
  refine (mapM fun t hW ht => resolve ((hsteps.mem ht).mono (hW₁.trans hW))).bind
    fun resolved hW₂ _ => pure (within_firstAccepted (within_list.2 fun p hp => ?_) _)
  have hmem := List.of_mem_zip hp
  exact within_pair.2 ⟨(hcs.mem hmem.1).mono (hW₁.trans hW₂), (hparams.mem hmem.2).mono hW₂⟩

theorem collapseCandidates (hcs : Within W cs) : Orderly scope E K W (collapseCandidates cs) := by
  refine readBind rfl fun hscope => ?_
  refine liftBind (collapse?_failsWith · _ _) fun fn _ => ?_
  cases fn with
  | none => exact pure within_none
  | some fn =>
    refine liftBind (scope.items.traitOf_failsWith · fn) fun trait _ => ?_
    cases trait with
    | none => exact pure within_none
    | some trait =>
      refine pure (hcs.head?.optionMap fun c hc => ?_)
      exact within_candidate.2 ⟨(within_candidate.1 hc).1, within_collapsed⟩

/-- Each stage leaves some of the candidates that there were. -/
theorem pick (hsteps : Within W steps) (hcs : Within W cs) :
    Orderly scope E K W (pick steps cs) := by
  have hnarrow {W : Var → Prop} {stage : List Candidate → Infer (List Candidate)}
      {cs : List Candidate} (hcs : Within W cs) (hstage : Orderly scope E K W (stage cs)) :
      Orderly scope E K W (narrow stage cs) := of_ite hstage (pure hcs)
  refine (hnarrow hcs (keepVisible hcs)).bind fun cs hW₁ hcs => ?_
  refine (hnarrow hcs (keepHolding hcs)).bind fun cs hW₂ hcs => ?_
  have hsteps := hsteps.mono (hW₁.trans hW₂)
  refine (hnarrow hcs (keepAccepting hsteps hcs)).bind fun cs hW₃ hcs => ?_
  split
  · exact pure within_none
  · exact pure (within_some.2 (within_singleton.1 hcs))
  · exact collapseCandidates hcs

theorem methodOuterSubst [Files K] (hc : Within W c) :
    Orderly scope E K W (methodOuterSubst expr fn c) := by
  obtain ⟨hself, hsource⟩ := within_candidate.1 hc
  refine readBind rfl fun hscope => ?_
  cases heq : c.source with
  | impl id =>
    refine entryBind hscope.impls (by decide) fun impl himpl => ?_
    obtain ⟨hgenerics, htraitRef, himplSelf, -⟩ := within_impl.1 himpl
    refine (instantiate hgenerics within_none).bind fun subst hW₁ hsubst => ?_
    refine (unify (hself.mono hW₁) (hsubst.apply (himplSelf.mono hW₁))).andThen fun _ => ?_
    split
    · next trait _ args _ hargs =>
      have hargs := (htraitRef.of_some hargs).snd.mono hW₁
      refine entryBind (hscope.traits.mono hW₁) (by decide) fun decl _ => pure ?_
      exact ((hsubst.applyList hargs).zip _).ofPairs
    · exact pure hsubst
  | bound bound =>
    rw [heq] at hsource
    refine entryBind hscope.traits (by decide) fun decl _ => pure ?_
    exact ((within_bound.1 (within_boundCandidate.1 hsource)).1.zip _).ofPairs
  | object bound =>
    rw [heq] at hsource
    refine entryBind hscope.traits (by decide) fun decl _ => pure ?_
    exact ((within_bound.1 (within_objectCandidate.1 hsource)).1.zip _).ofPairs
  | collapsed trait => exact instantiateTrait hself refineMethodLater hscope.traits

theorem instantiateMethod [Files K] (hc : Within W c) (hargs : Within W genericArgs) :
    Orderly scope E K W (instantiateMethod expr c genericArgs) := by
  refine readBind rfl fun hscope => ?_
  refine entryBind hscope.functions (by decide) fun fn hfn => ?_
  refine (methodOuterSubst hc).bind fun outer hW₁ houter => ?_
  refine freshSubst.bind fun own hW₂ hown => ?_
  have hself := (within_candidate.1 hc).1.mono (hW₁.trans hW₂)
  have hsubst := ((houter.mono hW₂).substInsert .self hself).union hown
  refine (forM fun p hW hp => ?_).bind fun _ hW₃ _ => ?_
  · obtain ⟨param, arg⟩ := p
    have harg := (hargs.mem (List.of_mem_zip hp).2).mono ((hW₁.trans hW₂).trans hW)
    dsimp only
    split
    · next var hget => exact unify (((hown.substGet? param).of_some hget).mono hW) harg
    · exact pure within_plain
  · have hfn := hfn.mono ((hW₁.trans hW₂).trans hW₃)
    have hsubst := hsubst.mono hW₃
    obtain ⟨hgenerics, -, hparams, -⟩ := within_function.1 hfn
    refine (registerBounds hgenerics hsubst).andThen fun _ => ?_
    refine (normalizedList (hsubst.applyList hparams)).bind fun params hW₅ hparams => ?_
    have hret := (hsubst.apply (hfn.outputTy scope.known)).mono hW₅
    refine (normalized hret).bind fun ret hW₆ hret => ?_
    exact pure (within_signature.2 ⟨hparams.mono hW₆, hret⟩)

/-! ## Dereferencing and coercion -/

theorem derefThroughTrait [Files K] (ht : Within W t) :
    Orderly scope E K W (derefThroughTrait t) := by
  refine readBind rfl fun _ => ?_
  split
  · next trait _ =>
    have hp : Within W (⟨⟨t, trait, []⟩, "Target"⟩ : Projection) :=
      within_traitRef.2 ⟨ht, within_nil⟩
    refine (normalize? hp).bind fun result _ hresult => ?_
    split
    · next result =>
      obtain ⟨hvalue, hobligations⟩ := within_normalized.1 (within_some.1 hresult)
      split
      · exact pure within_none
      · exact pure within_none
      · exact (register hobligations).andThen fun _ => pure (within_some.2 hvalue)
    · exact pure within_none
  · exact pure within_none

theorem deref [Files K] (ht : Within W t) : Orderly scope E K W (deref t) := by
  unfold Infer.deref
  split
  · exact pure (within_some.2 (Ty.within_ref.1 ht))
  · exact pure (within_some.2 (Ty.within_ptr.1 ht))
  · exact readBind rfl fun _ =>
      of_ite (pure (Ty.within_adt.1 ht).head?) (derefThroughTrait ht)
  · exact pure within_none
  · exact pure within_none
  · exact pure within_none
  · exact derefThroughTrait ht

theorem autoderef [Files K] (ht : Within W t) : Orderly scope E K W (autoderef t) := by
  unfold Infer.autoderef
  split
  · exact pure within_none
  · refine (deref ht).bind fun target _ htarget => ?_
    cases target with
    | some target =>
      exact (resolveSettled (within_some.1 htarget)).bind fun _ _ h => pure (within_some.2 h)
    | none => exact pure within_none

theorem derefFrom [Files K] {room : Nat} (hseq : Within W seq) (ht : Within W t) :
    Orderly scope E K W (derefFrom room seq t) := by
  induction room generalizing W seq t with
  | zero => exact pure hseq
  | succ room ih =>
    refine of_ite (pure hseq) ((autoderef ht).bind fun target hW htarget => ?_)
    have hnext := (within_append.2 ⟨hseq, within_singleton.2 ht⟩).mono hW
    cases target with
    | some target => exact ih hnext (within_some.1 htarget)
    | none => exact pure hnext

theorem derefSequence [Files K] (ht : Within W t) : Orderly scope E K W (derefSequence t) := by
  refine (resolveSettled ht).bind fun t _ ht => readBind rfl fun _ => ?_
  refine (derefFrom within_nil ht).bind fun seq _ hseq => ?_
  split
  · next elem len hlast =>
    have helem := hseq.mem (List.mem_of_getLast? hlast)
    refine pure (within_append.2 ⟨hseq, within_singleton.2 (Ty.within_slice.2 ?_)⟩)
    exact Ty.within_array.1 helem
  · exact pure hseq

theorem within_derefsTo (hseq : Within W seq) (depth : Nat) : Within W (derefsTo seq depth) := by
  refine Within.map (hseq.subset fun t ht => ?_) fun t ht => within_deref.2 ht
  exact List.mem_of_mem_take (List.mem_of_mem_drop ht)

theorem within_receiverBorrow? (hself : Within W selfParam)
    (h : receiverBorrow? step selfParam = some borrow) : Within W borrow := by
  unfold receiverBorrow? at h
  split at h
  · cases h
    exact within_nil
  · split at h
    · split at h
      · cases h
        exact within_singleton.2 (within_borrowRef.2 hself)
      · cases h
    · cases h

theorem adjustReceiver [Notes K] {receiver : ExprId} (hsteps : Within W steps)
    (hself : Within W selfParam) :
    Orderly scope E K W (adjustReceiver receiver steps selfParam) := by
  have hfrom : ∀ {W : Var → Prop} {rest : List Ty} {selfParam : Ty} (depth : Nat),
      Within W steps → Within W rest → Within W selfParam →
      Orderly scope E K W (adjustReceiverFrom receiver steps selfParam depth rest) := by
    intro W rest
    induction rest generalizing W with
    | nil => exact fun _ _ _ _ => pure within_plain
    | cons step rest ih =>
      intro selfParam depth hsteps hrest hself
      obtain ⟨hstep, hrest⟩ := within_cons.1 hrest
      refine (resolve hstep).bind fun step hW _ => ?_
      have hsteps := hsteps.mono hW
      have hself := hself.mono hW
      split
      · next borrow heq =>
        have hborrow := within_receiverBorrow? hself heq
        exact adjust (within_append.2 ⟨within_derefsTo hsteps depth, hborrow⟩)
      · exact ih (depth + 1) hsteps (hrest.mono hW) hself
  exact (resolve hself).bind fun _ hW hself => hfrom 0 (hsteps.mono hW) (hsteps.mono hW) hself

theorem reborrowFrom [Notes K] (expr : ExprId) (mutability : Mutability) (depth : Nat)
    (hseq : Within W seq) (hrest : Within W rest) (htarget : Within W target) :
    Orderly scope E K W (reborrowFrom expr seq target mutability depth rest) := by
  induction rest generalizing W depth with
  | nil => exact pure within_plain
  | cons step rest ih =>
    obtain ⟨hstep, hrest⟩ := within_cons.1 hrest
    have hborrowed := Ty.within_reference (m := mutability).2 hstep
    refine (combineIfOk hborrowed (Ty.within_reference.2 htarget)).andThen fun _ => ?_
    refine of_ite (of_ite ?_ (pure within_plain)) ?_
    · have hderefs := within_derefsTo hseq depth
      have hborrow := within_singleton.2
        (within_borrowRef (r := .erased) (m := mutability).2 hborrowed)
      exact (adjust (within_append.2 ⟨hderefs, hborrow⟩)).bind fun _ _ _ => pure within_plain
    · exact ih (depth + 1) hseq hrest htarget

theorem reborrow [Notes K] {mutability : Mutability} (hsource : Within W source)
    (htarget : Within W target) :
    Orderly scope E K W (reborrow expr source target mutability) := by
  refine (derefSequence hsource).bind fun seq hW hseq => ?_
  have hrest := hseq.subset (List.drop_subset 1 seq)
  exact reborrowFrom expr mutability 1 hseq hrest (htarget.mono hW)

theorem tryCoerce [Notes K] (expr : ExprId) (hsource : Within W source)
    (htarget : Within W target) :
    Orderly scope E K W (tryCoerce expr source target) := by
  refine (head hsource).bind fun source hW₁ hsource => ?_
  refine (head (htarget.mono hW₁)).bind fun target hW₂ htarget => ?_
  have hsource := hsource.mono hW₂
  split
  · refine of_ite ?_ (combine hsource htarget)
    have hs := Ty.within_ref.1 hsource
    have ht := Ty.within_ref.1 htarget
    refine (head hs).bind fun s hW₃ hs => (head (ht.mono hW₃)).bind fun t hW₄ ht => ?_
    split
    · exact combine (Ty.within_array.1 (hs.mono hW₄)) (Ty.within_slice.1 ht)
    · exact reborrow (hsource.mono (hW₃.trans hW₄)) ht
  · refine of_ite ?_ (combine hsource htarget)
    refine (combine (Ty.within_ref.1 hsource) (Ty.within_ptr.1 htarget)).bind fun ok hW₃ _ => ?_
    refine of_ite ?_ (pure within_plain)
    refine (adjust (within_singleton.2 (within_borrowPtr.2 ?_))).bind fun _ _ _ => ?_
    · exact htarget.mono hW₃
    · exact pure within_plain
  · exact combine (Ty.within_ptr.1 hsource) (Ty.within_ptr.1 htarget)
  · exact combine hsource htarget

theorem coerce [Reports K] (hsource : Within W source) (htarget : Within W target) :
    Orderly scope E K W (coerce expr source target) := by
  refine (resolveSettled hsource).bind fun source hW₁ hsource => ?_
  refine (resolveSettled (htarget.mono hW₁)).bind fun target hW₂ htarget => ?_
  have hsource := hsource.mono hW₂
  refine (tryCoerce expr hsource htarget).bind fun ok hW₃ _ => of_ite (pure within_plain) ?_
  refine (reportMismatch (htarget.mono hW₃) (hsource.mono hW₃)).bind fun _ _ _ => ?_
  exact pure within_plain

/-! ## Finishing -/

theorem implFunction (hgoal : Within W goal) {fn : FnId} :
    Orderly scope E K W (implFunction goal fn) := by
  refine readBind rfl fun _ => (resolveTraitRef hgoal).bind fun goal _ hgoal => ?_
  refine (selectGoal hgoal).bind fun found _ _ => ?_
  split
  · next id _ =>
    refine liftBind (fun h => entry_failsWith (h _ _ (by decide))) fun fn _ => ?_
    refine liftBind (scope.items.implMethod_failsWith · id fn.name) fun method _ => ?_
    cases method with
    | some concrete => exact pure (within_some.2 (within_pair.2 ⟨within_plain, within_plain⟩))
    | none => exact pure within_none
  · exact pure within_none

theorem refinePath [Files K] (hgoal : Within W goal) :
    Orderly scope E K W (refinePath id goal) := by
  refine pathOf.bind fun values hW _ => ?_
  split
  · next fn _ =>
    refine (implFunction (hgoal.mono hW)).bind fun found _ _ => ?_
    cases found with
    | some _ => exact writePath
    | none => exact pure within_plain
  · exact pure within_plain

theorem refineMethod [Files K] (hgoal : Within W goal) :
    Orderly scope E K W (refineMethod id goal) := by
  refine stateBind (fun _ _ => rfl) fun s hW hs => ?_
  split
  · next first hfirst =>
    have hfound := (hs.methods.get? id.index).optionBind fun _ h => h.head?
    rw [hfirst] at hfound
    have hself := within_methodResolution.1 (within_some.1 hfound)
    refine (implFunction (hgoal.mono hW)).bind fun found hW _ => ?_
    cases found with
    | some _ =>
      exact writeMethods (within_singleton.2 (within_methodResolution.2 (hself.mono hW)))
    | none => exact pure within_plain
  · exact pure within_plain

omit [Basis scope E K] in
/-- Each entry of a map is dealt with on its own. -/
theorem idMapM {α β : Type} [Mentioning α] [Mentioning β] {f : α → Infer β} {m : IdMap α}
    (hm : Within W m) (hf : ∀ {W'} a, W ≤ W' → Within W' a → Orderly scope E K W' (f a)) :
    Orderly scope E K W (m.mapM f) := by
  have hentries : Orderly scope E K W
      (m.entries.mapM fun p => do return (p.1, ← f p.2) : Infer (List (Nat × β))) := by
    refine mapM fun p hW hp => ?_
    have hvalue := (hm.mem (List.mem_map_of_mem hp)).mono hW
    exact (hf p.2 hW hvalue).bind fun _ _ hb => pure (within_pair.2 ⟨within_plain, hb⟩)
  refine hentries.bind fun entries _ h => pure ?_
  exact h.map fun p hp => hp.snd

theorem closeMethods {methods : List MethodResolution} (h : Within W methods) :
    Orderly scope E K W (methods.mapM fun r => do return { r with self := ← Infer.close r.self }) := by
  refine mapM fun r hW hr => ?_
  have hself := within_methodResolution.1 (h.mem hr)
  refine (close (hself.mono hW)).bind fun self _ hself => pure ?_
  exact within_methodResolution.2 hself

theorem closeAdjustments (h : Within W adjustments) :
    Orderly scope E K W (adjustments.mapM (Adjustment.mapM Infer.close)) := by
  refine mapM fun a hW ha => ?_
  have ha := (h.mem ha).mono hW
  cases a with
  | deref target =>
    exact (close (within_deref.1 ha)).bind fun _ _ ht => pure (within_deref.2 ht)
  | borrowRef target region mutability =>
    exact (close (within_borrowRef.1 ha)).bind fun _ _ ht => pure (within_borrowRef.2 ht)
  | borrowPtr target mutability =>
    exact (close (within_borrowPtr.1 ha)).bind fun _ _ ht => pure (within_borrowPtr.2 ht)

theorem closeReport {d : Diagnostic} (h : Within W d) :
    Orderly scope E K W (d.mapM Infer.close) := by
  cases d with
  | mismatch site expected actual =>
    obtain ⟨hexpected, hactual⟩ := within_mismatch.1 h
    refine (close hexpected).bind fun expected hW hexpected => ?_
    refine (close (hactual.mono hW)).bind fun actual hW' hactual => pure ?_
    exact within_mismatch.2 ⟨hexpected.mono hW', hactual⟩
  | cannotDeref expr ty =>
    exact (close (within_cannotDeref.1 h)).bind fun _ _ ht => pure (within_cannotDeref.2 ht)

/-- All that is recorded is closed with the variables at the end. -/
theorem closeRecords [Reports K] : Orderly scope E K W closeRecords := by
  refine stateBindOf (Regular.get.bind ·) fun s _ hs => ?_
  refine (idMapM hs.exprTypes fun _ _ h => close h).bind fun exprTypes hW₁ hexprs => ?_
  have hs := hs.mono hW₁
  refine (idMapM hs.bindings fun _ _ h => close h).bind fun bindings hW₂ hbindings => ?_
  have hs := hs.mono hW₂
  refine (idMapM hs.methods fun _ _ h => closeMethods h).bind fun methods hW₃ hmethods => ?_
  have hs := hs.mono hW₃
  refine (idMapM hs.adjustments fun _ _ h => closeAdjustments h).bind
    fun adjustments hW₄ hadjustments => ?_
  have hs := hs.mono hW₄
  have hreports : Orderly scope E K _ (s.diagnostics.mapM (Diagnostic.mapM Infer.close)) :=
    mapM fun d hW hd => closeReport ((hs.diagnostics.mem hd).mono hW)
  refine hreports.bind fun reports hW₅ hreports => pure (within_outcome.2 ?_)
  exact ⟨hexprs.mono (((hW₂.trans hW₃).trans hW₄).trans hW₅),
    hbindings.mono ((hW₃.trans hW₄).trans hW₅), hmethods.mono (hW₄.trans hW₅),
    hadjustments.mono hW₅, hreports⟩

end Orderly

end Infer

end TypeInference
