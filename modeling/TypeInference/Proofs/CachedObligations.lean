import TypeInference.Proofs.Strata

/-!
# The obligations that normalization hands back

Normalizing a projection gives a type together with obligations: the where-clauses of the impl that
was used, and those of the projections inside. The cache keeps some of them, and whoever meets the
projection again gets them back with the depth they had when they were made. So depths alone say
nothing about obligations that follow from one another.

Ranks do, if where-clauses are on traits of no higher rank and bind associated types of lower rank
only (`Items.Graded`).
-/

namespace TypeInference

/-! ## Ranks of obligations -/

variable {t : Ty}

/-- The trait of a predicate. -/
def Predicate.traitId : Predicate → TraitId
  | .trait goal => goal.trait
  | .projection p _ => p.traitRef.trait

/-- The rank of the trait that an obligation is about. -/
def Obligation.rank (rank : TraitId → Nat) (o : Obligation) : Nat := rank o.predicate.traitId

@[simp] theorem Obligation.rank_ofTrait (rank : TraitId → Nat) (depth : Nat) (goal : TraitRef) :
    (Obligation.ofTrait depth goal).rank rank = rank goal.trait := rfl

@[simp] theorem Obligation.rank_ofProjection (rank : TraitId → Nat) (depth : Nat) (p : Projection)
    (ty : Ty) : (Obligation.ofProjection depth p ty).rank rank = rank p.traitRef.trait := rfl

/-- An impl of `trait` also has where-clauses only on traits of no higher rank, and of lower rank
where these bind associated types. -/
@[mk_iff]
structure Impl.Graded (rank : TraitId → Nat) (impl : Impl) (trait : TraitId) : Prop
    extends impl.Stratified rank trait where
  goals : ∀ b ∈ impl.generics.bounds, rank b.bound.trait ≤ rank trait
  bindings : ∀ b ∈ impl.generics.bounds, ∀ _ ∈ b.bound.assoc, rank b.bound.trait < rank trait

instance (rank : TraitId → Nat) (impl : Impl) (trait : TraitId) :
    Decidable (impl.Graded rank trait) :=
  decidable_of_iff' _ (Impl.graded_iff ..)

def Items.Graded (items : Items) (rank : TraitId → Nat) : Prop :=
  ∀ impl ∈ items.impls, ∀ trait ∈ impl.trait?, impl.Graded rank trait

instance (items : Items) (rank : TraitId → Nat) : Decidable (items.Graded rank) :=
  inferInstanceAs (Decidable (∀ impl ∈ items.impls, ∀ trait ∈ impl.trait?, _))

/-- The obligation is of lower rank than `r`, or it is a where-clause at `depth` of rank `r` at
most. -/
def Obligation.Follows (rank : TraitId → Nat) (r depth : Nat) (o : Obligation) : Prop :=
  o.rank rank < r ∨ o.rank rank ≤ r ∧ o.depth = depth ∧ o.predicate.isProjection = false

theorem Obligation.Follows.rank_le {rank : TraitId → Nat} {r depth : Nat} {o : Obligation}
    (h : o.Follows rank r depth) : o.rank rank ≤ r := by
  rcases h with h | h
  · exact h.le
  · exact h.1

/-! ## The cache -/

/-- The obligations of the entry are of lower rank than `r`. -/
def CacheEntry.Below (rank : TraitId → Nat) (r : Nat) : CacheEntry → Prop
  | .normalized result => ∀ o ∈ result.obligations, o.rank rank < r
  | _ => True

theorem CacheEntry.below_plain {rank : TraitId → Nat} {r : Nat} :
    (CacheEntry.normalized (.plain t)).Below rank r := fun o ho => by cases ho

theorem Projection.trait_eq_of_beq {p q : Projection} (h : (p == q) = true) :
    p.traitRef.trait = q.traitRef.trait :=
  congrArg (·.traitRef.trait) (beq_iff.1 h)

namespace ProjectionCache

variable {rank : TraitId → Nat} {cache : ProjectionCache} {key : Projection} {entry : CacheEntry}

/-- Every entry has obligations of lower rank than its projection. -/
def Ranked (rank : TraitId → Nat) (cache : ProjectionCache) : Prop :=
  ∀ key entry, cache.get? key = some entry → entry.Below rank (rank key.traitRef.trait)

theorem Ranked.insert (h : cache.Ranked rank)
    (hentry : entry.Below rank (rank key.traitRef.trait)) : (cache.insert key entry).Ranked rank := by
  intro k e hk
  rw [get?_insert] at hk
  split at hk
  · next hkey =>
    cases hk
    rwa [Projection.trait_eq_of_beq hkey]
  · exact h k e hk

theorem Ranked.start (h : cache.Ranked rank) (key : Projection) :
    (cache.start key).2.Ranked rank := by
  unfold ProjectionCache.start
  split
  · exact h
  · exact h.insert trivial

end ProjectionCache

/-! ## Computations -/

/-- A well-formed state with a ranked cache. -/
structure State.Ranked (rank : TraitId → Nat) (s : State) : Prop where
  wellFormed : s.WellFormed
  cache : s.cache.Ranked rank

namespace Infer

variable {α β : Type} {scope : Scope} {rank : TraitId → Nat} {entry : CacheEntry}

theorem carries_ranked (rank : TraitId → Nat) :
    Carries fun s s' => s.cache.Ranked rank → s'.cache.Ranked rank where
  refl _ h := h
  trans h h' hs := h' (h hs)
  vars _ h := h
  recorded h hs := h.cache ▸ hs
  probed hs hinner _ h := by
    rw [(hinner.spec (State.wellFormed_opened hs)).2.rollback_eq]
    exact h
  committed _ _ h := h

/-- From ranked states the computation leads to ranked states, and `Q` holds of its result. -/
def Yields (scope : Scope) (rank : TraitId → Nat) (x : Infer α) (Q : α → Prop) : Prop :=
  ∀ ⦃s a s'⦄, s.Ranked rank → x scope s = .ok (a, s') → s'.Ranked rank ∧ Q a

namespace Yields

variable {x : Infer α} {P Q : α → Prop} {f : α → Infer β} {R : β → Prop} {xs : List α}
  {p : Projection}

theorem mono (hx : Yields scope rank x P) (hPQ : ∀ a, P a → Q a) : Yields scope rank x Q :=
  fun _ a _ hs h => (hx hs h).imp_right (hPQ a)

theorem bind (hx : Yields scope rank x P) (hf : ∀ a, P a → Yields scope rank (f a) R) :
    Yields scope rank (x >>= f) R := by
  intro s b s' hs h
  obtain ⟨a, s₁, hrun, h⟩ := bind_eq_ok h
  obtain ⟨hs₁, ha⟩ := hx hs hrun
  exact hf a ha hs₁ h

theorem of_orderly [Mentioning α]
    (hx : Orderly scope (fun _ => True) (fun _ _ => False) (fun _ => True) x) :
    Yields scope rank x (Gives scope x) := by
  intro s a s' hs h
  rcases hx.anyway.spec (carries_ranked rank) (fun hx => hx.elim) hs.wellFormed h with
    ⟨hevolves, hcache⟩
  exact ⟨⟨(hevolves.spec hs.wellFormed).1, hcache hs.cache⟩, s, s', h⟩

theorem pure {a : α} (ha : Q a) : Yields scope rank (pure a : Infer α) Q := by
  intro s _ s' hs h
  cases h
  exact ⟨hs, ha⟩

theorem readBind {f : Scope → Infer α} (hf : Yields scope rank (f scope) Q) :
    Yields scope rank (read >>= f) Q :=
  fun _ _ _ hs h => hf hs h

theorem liftBind {y : Except Fault β} {f : β → Infer α}
    (hf : ∀ b, y = .ok b → Yields scope rank (f b) Q) : Yields scope rank (liftM y >>= f) Q := by
  intro s a s' hs h
  obtain ⟨b, s₁, hrun, hrest⟩ := bind_eq_ok h
  obtain ⟨hb, rfl⟩ := lift_eq_ok hrun
  exact hf b hb hs hrest

theorem ite {c : Prop} [Decidable c] {y : Infer α} (hx : Yields scope rank x Q)
    (hy : Yields scope rank y Q) : Yields scope rank (if c then x else y) Q := by
  split
  · exact hx
  · exact hy

theorem mapM (hf : ∀ a ∈ xs, Yields scope rank (f a) R) :
    Yields scope rank (xs.mapM f) fun bs => ∀ b ∈ bs, R b := by
  induction xs with
  | nil =>
    rw [List.mapM_nil]
    exact pure fun b hb => by cases hb
  | cons x xs ih =>
    rw [List.mapM_cons]
    refine (hf x (.head _)).bind fun b hb => ?_
    refine (ih fun a ha => hf a (List.mem_cons_of_mem x ha)).bind fun bs hbs => pure ?_
    intro c hc
    rcases List.mem_cons.1 hc with rfl | hc
    · exact hb
    · exact hbs c hc

/-- What is kept was asked about. -/
theorem filterM {p : α → Infer Bool} {R : α → Prop}
    (hp : ∀ a ∈ xs, Yields scope rank (p a) fun kept => kept = true → R a) :
    Yields scope rank (xs.filterM p) fun kept => ∀ a ∈ kept, R a := by
  have hloop : ∀ acc : List α, (∀ a ∈ acc, R a) →
      Yields scope rank (xs.filterAuxM p acc) fun kept => ∀ a ∈ kept, R a := by
    induction xs with
    | nil => exact fun acc hacc => pure hacc
    | cons x xs ih =>
      intro acc hacc
      refine (hp x (.head _)).bind fun kept hkept => ?_
      refine ih (fun a ha => hp a (List.mem_cons_of_mem x ha)) _ ?_
      cases kept with
      | false => exact hacc
      | true => exact List.forall_mem_cons.2 ⟨hkept rfl, hacc⟩
  refine (hloop [] fun a ha => by cases ha).bind fun kept hkept => pure ?_
  exact fun a ha => hkept a (List.mem_reverse.1 ha)

theorem cachePut (hentry : entry.Below rank (rank p.traitRef.trait)) :
    Yields scope rank (cachePut p entry) fun _ => True := by
  intro s _ s' hs h
  have hevolves := ((CacheOp.put p entry).spec hs.wellFormed h).1
  cases h
  exact ⟨⟨(hevolves.spec hs.wellFormed).1, hs.cache.insert hentry⟩, trivial⟩

theorem cacheStart : Yields scope rank (cacheStart p) fun found =>
      ∀ entry, found = some entry → entry.Below rank (rank p.traitRef.trait) := by
  intro s found s' hs h
  have hevolves := ((CacheOp.start p).spec hs.wellFormed h).1
  rw [cacheStart_run] at h
  cases h
  refine ⟨⟨(hevolves.spec hs.wellFormed).1, hs.cache.start p⟩, fun entry hentry => ?_⟩
  refine hs.cache p entry ?_
  unfold ProjectionCache.start at hentry
  split at hentry
  · next found => exact found.trans hentry
  · cases hentry

end Yields

/-! ## Normalization -/

/-- `O` holds of the obligations of a result. -/
def Bears (O : Obligation → Prop) {α : Type} (r : Normalized α) : Prop := ∀ o ∈ r.obligations, O o

theorem bears_plain (O : Obligation → Prop) (a : α) : Bears O (Normalized.plain a) :=
  fun o ho => by cases ho

/-- `O` holds of the obligations of what a selection finds. -/
def Finds (O : Obligation → Prop) (found : Selection (Option (Normalized Ty))) : Prop :=
  ∀ r, found = .ok (some r) → Bears O r

theorem finds_plain {O : Obligation → Prop} (found : Option Ty) :
    Finds O (.ok (found.map .plain)) := by
  intro r hr
  obtain ⟨t, -, rfl⟩ := Option.map_eq_some_iff.1 (Selection.ok.inj hr)
  exact bears_plain O t

theorem finds_err {O : Obligation → Prop} : Finds O .err := fun r hr => by cases hr

namespace Yields

variable {O : Obligation → Prop} {inner : Normalizer} {depth : Nat}

theorem standIn {p : Projection}
    (hinner : Yields scope rank (inner p depth) fun found => ∀ r, found = some r → Bears O r)
    (hself : ∀ d v, O (.ofProjection d p v)) :
    Yields scope rank (Infer.standIn inner p depth) (Bears O) := by
  refine hinner.bind fun found hfound => ?_
  cases found with
  | some r => exact pure (hfound r rfl)
  | none =>
    refine (of_orderly .freshTy).bind fun v _ => ?_
    exact liftBind fun d _ => pure (List.forall_mem_singleton.2 (hself d v))

/-- The obligations at a node are those of the projection that is asked for there. -/
theorem normalizeNode {obligations : List Obligation} (h : ∀ o ∈ obligations, O o)
    (hasked : ∀ q : Projection, t.projectionTrait? = some q.traitRef.trait →
      Yields scope rank (Infer.standIn inner q depth) (Bears O)) :
    Yields scope rank (Infer.normalizeNode inner depth t obligations) fun r => ∀ o ∈ r.2, O o := by
  cases t with
  | projection self trait args name =>
    let q : Projection := ⟨⟨self, trait, args⟩, name⟩
    have hresult : Yields scope rank
        (Infer.standIn inner q depth >>= fun r => Pure.pure (r, obligations))
        fun r => Bears O r.1 ∧ r.2 = obligations :=
      (hasked q rfl).bind fun r hr => pure ⟨hr, rfl⟩
    show Yields scope rank ((Infer.standIn inner q depth >>= fun r => Pure.pure (r, obligations)) >>=
      fun r => Pure.pure (r.1.value, r.2 ++ r.1.obligations)) _
    exact hresult.bind fun r hr => pure (List.forall_mem_append.2 ⟨hr.2 ▸ h, hr.1⟩)
  | _ => exact pure h

/-- The obligations of a type are those of the projections inside it. -/
theorem normalizeTyWith (hasked : ∀ q : Projection, q.traitRef.trait ∈ t.projectionTraits →
      Yields scope rank (Infer.standIn inner q depth) (Bears O)) :
    Yields scope rank (Infer.normalizeTyWith inner t depth) (Bears O) := by
  -- The obligations collected so far are carried along the traversal.
  let Collects {β : Type} (x : StateT (List Obligation) Infer β) : Prop :=
    ∀ obligations : List Obligation, (∀ o ∈ obligations, O o) →
      Yields scope rank (x obligations) fun r => ∀ o ∈ r.2, O o
  have hmap : Collects (t.mapM (Infer.normalizeNode inner depth)) := by
    have hP : Sequential (StateT (List Obligation) Infer) Collects := ⟨fun a obligations h => pure h,
      fun hx hf obligations h => (hx obligations h).bind fun r hr => hf r.1 r.2 hr⟩
    refine Ty.mapM_closed hP fun r hr => ?_
    exact fun obligations h => normalizeNode h fun q hq => hasked q (hr _ hq)
  refine ite ?_ (pure (bears_plain O t))
  exact (hmap [] fun o ho => by cases ho).bind fun r hr => pure hr

theorem normalizeListWith {ts : List Ty}
    (hasked : ∀ t ∈ ts, ∀ q : Projection, q.traitRef.trait ∈ t.projectionTraits →
      Yields scope rank (Infer.standIn inner q depth) (Bears O)) :
    Yields scope rank (Infer.normalizeListWith inner ts depth) (Bears O) := by
  refine (mapM fun t ht => normalizeTyWith (hasked t ht)).bind fun results hresults => pure ?_
  intro o ho
  obtain ⟨r, hr, ho⟩ := List.mem_flatMap.1 ho
  exact hresults r hr o ho

/-- A where-clause leads to the obligations of the projections in it, to one for every associated
type that it binds, and to one for its trait. -/
theorem instantiateBound {p : WherePredicate} {subst : Subst}
    (hasked : ∀ t ∈ p.typesUnder subst, ∀ q : Projection, q.traitRef.trait ∈ t.projectionTraits →
      Yields scope rank (Infer.standIn inner q depth) (Bears O))
    (hgoal : ∀ goal : TraitRef, goal.trait = p.bound.trait → O (.ofTrait depth goal))
    (hbinding : ∀ a ∈ p.bound.assoc, ∀ q ty, q.traitRef.trait = p.bound.trait →
      O (.ofProjection depth q ty)) :
    Yields scope rank (Infer.instantiateBound inner subst depth p) fun os => ∀ o ∈ os, O o := by
  have hcomponent : ∀ t ∈ (subst.applyBound p.bound).components, t ∈ p.typesUnder subst :=
    fun t ht => .tail _ ht
  have htraitRef : Yields scope rank
      (normalizeTraitRefWith inner ((subst.applyBound p.bound).withSelf (subst.apply p.self)) depth)
      fun r => Bears O r ∧ r.value.trait = p.bound.trait := by
    refine (normalizeTyWith (hasked _ (.head _))).bind fun self hself => ?_
    refine (normalizeListWith fun t ht => hasked t ?_).bind fun args hargs => pure ?_
    · exact hcomponent t (List.mem_append_left _ ht)
    · refine ⟨List.forall_mem_append.2 ⟨hself, hargs⟩, ?_⟩
      rw [Subst.applyBound_eq]
      rfl
  refine htraitRef.bind fun goal hgoal' => ?_
  refine (mapM (R := fun os => ∀ o ∈ os, O o) fun a ha => ?_).bind fun assocs hassocs => pure ?_
  · have hty : a.ty ∈ (subst.applyBound p.bound).components :=
      List.mem_append_right _ (List.mem_map_of_mem ha)
    refine (normalizeTyWith (hasked _ (hcomponent _ hty))).bind fun ty hty => pure ?_
    refine List.forall_mem_append.2 ⟨hty, List.forall_mem_singleton.2 ?_⟩
    rw [Subst.applyBound_eq] at ha
    obtain ⟨b, hb, -⟩ := List.mem_map.1 ha
    exact hbinding b hb _ _ hgoal'.2
  · refine List.forall_mem_append.2 ⟨List.forall_mem_append.2 ⟨hgoal'.1, ?_⟩, ?_⟩
    · intro o ho
      obtain ⟨os, hos, ho⟩ := List.mem_flatten.1 ho
      exact hassocs os hos o ho
    · exact List.forall_mem_singleton.2 (hgoal _ hgoal'.2)

theorem instantiateBoundsWith {bounds : List WherePredicate} {subst : Subst}
    (hbound : ∀ p ∈ bounds,
      Yields scope rank (Infer.instantiateBound inner subst depth p) fun os => ∀ o ∈ os, O o) :
    Yields scope rank (Infer.instantiateBoundsWith inner bounds subst depth)
      fun os => ∀ o ∈ os, O o := by
  refine (mapM hbound).bind fun results hresults => pure ?_
  intro o ho
  obtain ⟨os, hos, ho⟩ := List.mem_flatten.1 ho
  exact hresults os hos o ho

/-! ### The impls of graded traits -/

variable {p q : Projection} {impl : Impl} {id : ImplId} {trait : TraitId} {subst : Subst}
  {r d : Nat}

/-- The normalization of the projection hands back obligations that follow from it. -/
def Graded (scope : Scope) (rank : TraitId → Nat) (inner : Normalizer) (p : Projection)
    (depth : Nat) : Prop :=
  Yields scope rank (inner p depth) fun found =>
    ∀ r, found = some r → Bears (Obligation.Follows rank (rank p.traitRef.trait) depth) r

theorem Graded.standIn (h : Graded scope rank inner q d) (hq : rank q.traitRef.trait < r) :
    Yields scope rank (Infer.standIn inner q d) (Bears (Obligation.Follows rank r depth)) := by
  refine Yields.standIn (h.mono fun found hfound result hresult o ho => Or.inl ?_) ?_
  · exact (hfound result hresult o ho).rank_le.trans_lt hq
  · exact fun _ _ => Or.inl hq

/-- An impl is used for a goal that its header agrees with, and then it is one of the trait of the
goal. -/
theorem ofHeader {goal : TraitRef} {k : Subst → Infer α} {other : α} {R : α → Prop}
    (hgraded : scope.items.Graded rank) (himpl : scope.items.impl id = .ok impl) (hother : R other)
    (hk : ∀ subst, subst.Plain → impl.Graded rank goal.trait → Yields scope rank (k subst) R) :
    Yields scope rank (do
      let some (subst, header) ← Infer.instantiateHeader impl | return other
      if ← Infer.combineTraitRefs header goal then k subst else return other) R := by
  refine (of_orderly (.instantiateHeader within_true)).bind fun header hheader => ?_
  match header, hheader with
  | none, _ => exact pure hother
  | some (subst, header), hheader =>
    obtain ⟨hplain, himplements⟩ := instantiateHeader_eq_some hheader
    refine (of_orderly (.combineTraitRefs within_true within_true)).bind fun agrees hagrees => ?_
    split
    · next htrue =>
      have htrait := trait_eq_of_combineTraitRefs hagrees htrue
      exact hk subst hplain
        (hgraded impl (Items.mem_impls himpl) _ (himplements.trans (congrArg some htrait)))
    · exact pure hother

/-- The where-clauses of a graded impl follow from the projection. -/
theorem whereClauses (hgraded : impl.Graded rank trait) (hplain : subst.Plain)
    (hinner : ∀ q, rank q.traitRef.trait < rank trait → Graded scope rank inner q depth) :
    Yields scope rank (Infer.instantiateBoundsWith inner impl.generics.bounds subst depth)
      fun os => ∀ o ∈ os, o.Follows rank (rank trait) depth := by
  refine instantiateBoundsWith fun b hb => instantiateBound (fun t ht q hq => ?_) ?_ ?_
  · have hlt := hgraded.rank_lt_of_bound hplain hb ht hq
    exact (hinner q hlt).standIn hlt
  · intro goal hgoal
    refine .inr ⟨?_, rfl, rfl⟩
    rw [Obligation.rank_ofTrait, hgoal]
    exact hgraded.goals b hb
  · intro a ha q ty hq
    refine .inl ?_
    rw [Obligation.rank_ofProjection, hq]
    exact hgraded.bindings b hb a ha

/-- The obligations of an impl follow from the projection. -/
theorem projectImpl (hgraded : scope.items.Graded rank) (himpl : scope.items.impl id = .ok impl)
    (hinner : ∀ q d, rank q.traitRef.trait < rank p.traitRef.trait → Graded scope rank inner q d) :
    Yields scope rank (Infer.projectImpl inner impl p depth)
      (Finds (Obligation.Follows rank (rank p.traitRef.trait) depth)) := by
  unfold Infer.projectImpl
  cases hassoc : impl.assocTy? p.name with
  | none => exact pure finds_err
  | some assoc =>
    refine ofHeader hgraded himpl finds_err fun subst hplain himpl => ?_
    refine (whereClauses himpl hplain fun q hq => hinner q depth hq).bind fun bounds hbounds => ?_
    refine liftBind fun d _ => ?_
    refine (normalizeTyWith (O := Obligation.Follows rank (rank p.traitRef.trait) depth)
      fun q hq => ?_).bind fun ty hty => pure ?_
    · have hlt := himpl.rank_lt_of_assocTy hplain hassoc hq
      exact (hinner q d hlt).standIn hlt
    · rintro r ⟨⟩
      exact List.forall_mem_append.2 ⟨hbounds, hty⟩

theorem projectBound {bound : Bound} :
    Yields scope rank (Infer.projectBound bound p) (Finds O) := by
  unfold Infer.projectBound
  refine ite ?_ ?_
  · exact (of_orderly (.combinePairs within_true within_true)).bind fun _ _ =>
      ite (pure (finds_plain _)) (pure finds_err)
  · exact (of_orderly (.pure (a := true) within_true)).bind fun _ _ =>
      ite (pure (finds_plain _)) (pure finds_err)

theorem projectBuiltin : Yields scope rank (Infer.projectBuiltin p) (Finds O) := by
  unfold Infer.projectBuiltin
  split
  · refine ite ?_ (pure (finds_plain none))
    split
    · exact (of_orderly (.unify within_true within_true)).bind fun _ _ => pure (finds_plain (some _))
    · exact pure (finds_plain (some _))
  · exact pure (finds_plain none)

theorem project (hgraded : scope.items.Graded rank)
    (hinner : ∀ q d, rank q.traitRef.trait < rank p.traitRef.trait → Graded scope rank inner q d) :
    Yields scope rank (Infer.project inner p depth)
      (Finds (Obligation.Follows rank (rank p.traitRef.trait) depth)) := by
  refine (of_orderly (.selectGoal within_true)).bind fun selected _ => ?_
  match selected with
  | .ok (.impl id) =>
    exact readBind (liftBind fun impl himpl => projectImpl hgraded himpl hinner)
  | .ok (.param bound) => exact projectBound
  | .ok (.object bound) => exact projectBound
  | .ok .builtin => exact projectBuiltin
  | .err => exact pure finds_err
  | .ambiguous => exact pure fun _ h => by cases h

/-! ### The cache -/

/-- Where-clauses are not kept, so that what is kept is of lower rank. -/
theorem forCache {result : Normalized Ty} (h : Bears (Obligation.Follows rank r depth) result) :
    Yields scope rank (Infer.forCache result) fun kept =>
      (CacheEntry.normalized kept).Below rank r := by
  refine (of_orderly (.isOpen within_true)).bind fun isOpen _ => ite ?_ ?_
  · refine (filterM (R := fun o : Obligation => o.rank rank < r) fun o ho => ?_).bind
      fun kept hkept => pure hkept
    cases hprojection : o.predicate.isProjection with
    | true =>
      refine (of_orderly (.isOpenPredicate within_true)).mono fun _ _ _ => ?_
      refine (h o ho).resolve_right fun hclause => ?_
      rw [hprojection] at hclause
      cases hclause.2.2
    | false => exact pure fun hkept => by cases hkept
  · exact pure fun o ho => by cases ho

/-- What the cache hands back is of lower rank. -/
theorem answerFromCache (h : entry.Below rank (rank p.traitRef.trait)) :
    Yields scope rank (Infer.answerFromCache p entry) fun found => ∀ r, found = some r →
      Bears (Obligation.Follows rank (rank p.traitRef.trait) depth) r := by
  cases entry with
  | ambiguous => exact pure fun r hr => by cases hr
  | inProgress | error =>
    refine pure fun r hr => ?_
    cases hr
    exact bears_plain _ _
  | normalized cached =>
    refine (of_orderly (.isOpen within_true)).bind fun isOpen _ => ite (pure ?_) ?_
    · intro r hr
      cases hr
      exact fun o ho => Or.inl (h o ho)
    · refine (cachePut CacheEntry.below_plain).bind fun _ _ => pure fun r hr => ?_
      cases hr
      exact bears_plain _ _

/-- What is remembered is of lower rank. -/
theorem remember {found : Selection (Option (Normalized Ty))}
    (h : Finds (Obligation.Follows rank (rank p.traitRef.trait) depth) found) :
    Yields scope rank (Infer.remember p found) fun found => ∀ r, found = some r →
      Bears (Obligation.Follows rank (rank p.traitRef.trait) depth) r := by
  match found with
  | .ok (some result) =>
    have hresult := h result rfl
    refine (forCache hresult).bind fun kept hkept => (cachePut hkept).bind fun _ _ => pure ?_
    rintro r ⟨⟩
    exact hresult
  | .ok none =>
    refine (cachePut CacheEntry.below_plain).bind fun _ _ => pure ?_
    rintro r ⟨⟩
    exact bears_plain _ _
  | .err =>
    refine (cachePut (by trivial)).bind fun _ _ => pure ?_
    rintro r ⟨⟩
    exact bears_plain _ _
  | .ambiguous =>
    refine (cachePut (by trivial)).bind fun _ _ => pure ?_
    rintro r ⟨⟩

/-- Normalizing a projection gives obligations that follow from it. -/
theorem normalizeWithin (hgraded : scope.items.Graded rank) (n : Nat) (p : Projection)
    (depth : Nat) : Graded scope rank (Infer.normalizeWithin n) p depth := by
  induction n generalizing p depth with
  | zero =>
    intro s _ _ _ h
    cases h
  | succ n ih =>
    refine (of_orderly (.resolveProjection within_true)).bind fun q hq => ?_
    refine ite (pure fun r hr => by cases hr) ?_
    rw [← trait_eq_of_resolveProjection hq]
    refine cacheStart.bind fun found hfound => ?_
    cases found with
    | some entry => exact answerFromCache (hfound entry rfl)
    | none => exact (project hgraded fun q d _ => ih q d).bind fun found hfound => remember hfound

theorem normalize? (hgraded : scope.items.Graded rank) (p : Projection) (depth : Nat) :
    Graded scope rank Infer.normalize? p depth :=
  readBind (normalizeWithin hgraded _ p depth)

end Yields

/-! ## Reachable states -/

theorem NormalizeOp.keeps_ranked {x : Infer α} (h : NormalizeOp α x)
    (hgraded : scope.items.Graded rank) :
    Relates scope (fun s s' => s.cache.Ranked rank → s'.cache.Ranked rank) x := by
  intro s a s' hs hrun
  refine ⟨(h.relates hs hrun).1, fun hcache => ?_⟩
  cases h with
  | call p depth => exact (Yields.normalize? hgraded p depth ⟨hs, hcache⟩ hrun).1.cache

end Infer

open Infer in
/-- The cache of an inference is ranked at all times, whatever has been taken back. -/
theorem Reachable.ranked {scope : Scope} {rank : TraitId → Nat} {v : Versions State Mark}
    (h : Reachable scope v) (hgraded : scope.items.Graded rank) : v.current.Ranked rank := by
  have hcongr : ∀ ⦃s s' : State⦄, s'.snapshot = s.snapshot →
      s.cache.Ranked rank → s'.cache.Ranked rank := by
    intro s s' hsnapshot hs
    have hcache : s'.cache = s.cache := congrArg Snapshot.cache hsnapshot
    rwa [hcache]
  have hholds := h.history.holds (P := fun s => s.cache.Ranked rank) ?_ (fun _ _ h => nomatch h)
    (fun _ h => h) (fun _ h => h) hcongr
  · exact ⟨hholds.1, hholds.2⟩
  · intro s s' hs hranked hchange
    rcases hchange with ⟨op, hrun⟩ | hsnapshot
    · have hkeeps := op.relates (E := fun _ => True) (K := NormalizeOp) (carries_ranked rank)
        fun hx => hx.keeps_ranked hgraded
      exact (hkeeps hs hrun).imp_right fun h => h hranked
    · refine ⟨.recorded (congrArg Snapshot.vars hsnapshot) (congrArg Snapshot.cache hsnapshot), ?_⟩
      exact hcongr hsnapshot hranked

end TypeInference
