import TypeInference.Proofs.Reachable

/-!
# How deep projections lead into each other

The associated type that an impl gives to a projection may contain projections in turn, and so may
the where-clauses of the impl. Nothing bounds how deep this leads: a projection that comes back is
noticed in the cache, but the types of the projections may grow for ever (`Items.growing`), and the
depth that is counted along the way is compared with no limit.

What bounds it is an order on the traits. If what an impl of a trait mentions are projections of
traits of lower rank (`Items.Stratified`), normalization leads from a rank to lower ones only, and
reaches a result within as many levels.
-/

namespace TypeInference

/-! ## Ranks of traits -/

variable {vs vs' : Vars} {s s' : State} {v root : Var} {inner : Normalizer} {k depth i j n : Nat}
  {name : String} {id : ImplId} {ok : Bool} {t : Ty} {trait : TraitId} {key other p : Projection}

def Ty.isSelf : Ty → Bool
  | .param p => p = .self
  | _ => false

/-- An impl of `trait` mentions projections of traits of lower rank only, and its associated types
do not mention `Self`, which may stand for any type. -/
@[mk_iff]
structure Impl.Stratified (rank : TraitId → Nat) (impl : Impl) (trait : TraitId) : Prop where
  bounds : ∀ b ∈ impl.generics.bounds, ∀ t ∈ b.self :: b.bound.components,
    ∀ tr ∈ t.projectionTraits, rank tr < rank trait
  assocTypes : ∀ a ∈ impl.assocTypes, ∀ tr ∈ a.ty.projectionTraits, rank tr < rank trait
  withoutSelf : ∀ a ∈ impl.assocTypes, a.ty.any Ty.isSelf = false

instance (rank : TraitId → Nat) (impl : Impl) (trait : TraitId) :
    Decidable (impl.Stratified rank trait) :=
  decidable_of_iff' _ (Impl.stratified_iff ..)

def Items.Stratified (items : Items) (rank : TraitId → Nat) : Prop :=
  ∀ impl ∈ items.impls, ∀ trait ∈ impl.trait?, impl.Stratified rank trait

instance (items : Items) (rank : TraitId → Nat) : Decidable (items.Stratified rank) :=
  inferInstanceAs (Decidable (∀ impl ∈ items.impls, ∀ trait ∈ impl.trait?, _))

theorem Items.mem_impls {items : Items} {impl : Impl} (h : items.impl id = .ok impl) :
    impl ∈ items.impls :=
  Array.mem_of_getElem? (entry_eq_ok h)

namespace Subst

variable {subst : Subst} {p : ParamId} {t : Ty}

theorem plain_empty : Subst.empty.Plain := by
  intro p
  simp [lookup, get?, empty, Ty.projectionTraits, Ty.subterms, Ty.projectionTrait?]

theorem Plain.insert (hs : subst.Plain) (ht : t.projectionTraits = []) :
    (subst.insert p t).Plain := by
  intro q
  by_cases hq : q = p
  · rw [hq, lookup_insert_self, ht]
  · rw [lookup_insert_of_ne hq, hs q]

end Subst

namespace Impl.Stratified

variable {rank : TraitId → Nat} {impl : Impl} {trait tr : TraitId} {subst : Subst}
  {t assoc self : Ty}

theorem rank_lt_of_bound (h : impl.Stratified rank trait) (hplain : subst.Plain)
    {b : WherePredicate} (hb : b ∈ impl.generics.bounds) (ht : t ∈ b.typesUnder subst)
    (htr : tr ∈ t.projectionTraits) : rank tr < rank trait := by
  rw [WherePredicate.typesUnder, Subst.applyBound_eq, Bound.components_mapComponents,
    ← List.map_cons] at ht
  obtain ⟨u, hu, rfl⟩ := List.mem_map.1 ht
  exact h.bounds b hb u hu _ (hplain.mem_projectionTraits htr)

theorem rank_lt_of_assocTy (h : impl.Stratified rank trait) (hplain : subst.Plain)
    (hassoc : impl.assocTy? name = some assoc)
    (htr : tr ∈ ((subst.insert .self self).apply assoc).projectionTraits) :
    rank tr < rank trait := by
  obtain ⟨a, ha, rfl⟩ := Option.map_eq_some_iff.1 hassoc
  have ha := List.mem_of_find?_eq_some ha
  rcases Subst.mem_projectionTraits_apply htr with htr | ⟨p, hp, htr⟩
  · exact h.assocTypes a ha _ htr
  · have hne : p ≠ .self := by
      rintro rfl
      exact List.any_eq_false.1 (h.withoutSelf a ha) _ hp rfl
    rw [Subst.lookup_insert_of_ne hne, hplain p] at htr
    cases htr

end Impl.Stratified

namespace Infer

variable {scope : Scope} {impl : Impl} {p q : Projection} {depth d n : Nat} {rank : TraitId → Nat}
  {subst : Subst}

theorem plain_of_freshSubst {generics : Generics} (h : Gives scope (freshSubst generics) subst) :
    subst.Plain := by
  have hparams : ∀ (ps : List ParamId) {subst subst' : Subst} {s s' : State}, subst.Plain →
      (ps.foldlM (fun subst p => do return subst.insert p (← freshTy)) subst : Infer Subst) scope s =
        .ok (subst', s') → subst'.Plain := by
    intro ps
    induction ps with
    | nil =>
      intro subst subst' s s' hplain hrun
      cases hrun
      exact hplain
    | cons p ps ih =>
      intro subst subst' s s' hplain hrun
      rw [List.foldlM_cons] at hrun
      obtain ⟨_, s₁, ⟨⟩, hrun⟩ := bind_eq_ok hrun
      exact ih (hplain.insert rfl) hrun
  obtain ⟨s, s', hrun⟩ := h
  exact hparams generics.params Subst.plain_empty hrun

theorem instantiateHeader_eq_some {header : TraitRef}
    (h : Gives scope (instantiateHeader impl) (some (subst, header))) :
    subst.Plain ∧ impl.trait? = some header.trait := by
  obtain ⟨s, s', hrun⟩ := h
  cases htrait : impl.traitRef with
  | none =>
    simp only [instantiateHeader, htrait] at hrun
    cases hrun
  | some traitRef =>
    simp only [instantiateHeader, htrait] at hrun
    obtain ⟨subst, s₁, hsubst, ⟨⟩⟩ := bind_eq_ok hrun
    exact ⟨plain_of_freshSubst ⟨s, _, hsubst⟩, by rw [Impl.trait?, htrait]; rfl⟩

/-- What reading an associated type asks for is of lower rank. -/
theorem Asks.rank_lt (h : Asks scope impl p depth q d) (hstrata : scope.items.Stratified rank)
    (himpl : scope.items.impl id = .ok impl) :
    rank q.traitRef.trait < rank p.traitRef.trait ∧ d ≤ depth + 1 := by
  obtain ⟨subst, header, hheader, htrait, h⟩ := h
  obtain ⟨hplain, himplements⟩ := instantiateHeader_eq_some hheader
  have hbelow := hstrata impl (Items.mem_impls himpl) _ (himplements.trans (congrArg some htrait))
  rcases h with ⟨rfl, b, hb, t, ht, hq⟩ | ⟨rfl, assoc, hassoc, hq⟩
  · exact ⟨hbelow.rank_lt_of_bound hplain hb ht hq, Nat.le_succ d⟩
  · exact ⟨hbelow.rank_lt_of_assocTy hplain hassoc hq, Nat.le_refl _⟩

/-- With more levels than the rank of a trait its projections are never given up. -/
theorem orderly_of_stratified {E : Fault → Prop} [Fault.Admits E]
    (hstrata : scope.items.Stratified rank) (hn : rank p.traitRef.trait < n)
    (hdeeper : ∀ d ≤ depth + rank p.traitRef.trait, FailsWith E (Obligation.deeper d))
    {W : Var → Prop} (hp : Within W p) : Orderly scope E CacheOp W (normalizeWithin n p depth) := by
  induction n generalizing p depth W with
  | zero => cases hn
  | succ n ih =>
    refine .normalizeWithin_succ (fun _ _ => .atom (.put ..)) hp (fun _ => .atom (.start _)) ?_
    intro _ p' hp htrait
    rw [← htrait] at hn hdeeper
    refine .project hp (fun id impl q d himpl _ hq hasks => ?_) (hdeeper depth (Nat.le_add_right ..))
    obtain ⟨hrank, hd⟩ := hasks.rank_lt hstrata himpl
    exact .standIn hq (ih (by omega) (fun d' hd' => hdeeper d' (by omega)) hq)
      (hdeeper d (by omega))

/-- Where there are as many levels as ranks, normalization never runs out of them. -/
theorem normalize?_ne_exhausted (hstrata : scope.items.Stratified rank)
    (hnesting : ∀ trait, rank trait < scope.fuel.nesting) (hs : s.WellFormed) :
    normalize? p depth scope s ≠ .error .exhausted := by
  have hregular : Regular scope (· ≠ .exhausted) CacheOp (normalize? p depth) :=
    .readBind (fun _ => rfl) (orderly_of_stratified hstrata (hnesting _) (fun d _ =>
      deeper_failsWith (fun h => by cases h) d) within_true).anyway
  intro hrun
  exact hregular.failsWith (fun hx => ⟨hx.fails, hx.relates⟩) hs _ hrun rfl

end Infer

open Infer

/-- In a reachable state, if impls mention only projections of traits of lower rank, a projection
reaches a result: the answer, or the fault that something does not exist that the projection or a
declaration refers to. As many levels as the rank of its trait suffice, and at most as many depths
are used. -/
theorem Reachable.normalization_ends {scope : Scope} {v : Versions State Mark}
    (h : Reachable scope v) {rank : TraitId → Nat} (hstrata : scope.items.Stratified rank)
    {p : Projection} {depth n : Nat} (hn : rank p.traitRef.trait < n)
    (hdepth : depth + rank p.traitRef.trait < Obligation.maxDepth) :
    (∃ found s, normalizeWithin n p depth scope v.current = .ok (found, s)) ∨
      ∃ entity i, normalizeWithin n p depth scope v.current = .error (.dangling entity i) := by
  have hdeeper : ∀ d ≤ depth + rank p.traitRef.trait,
      FailsWith Fault.IsDangling (Obligation.deeper d) := by
    intro d hd
    rw [Obligation.deeper, if_pos (Nat.lt_of_le_of_lt hd hdepth)]
    exact .ok _
  have hregular :=
    (orderly_of_stratified (E := Fault.IsDangling) hstrata hn hdeeper within_true).anyway
  have hfails := hregular.failsWith (fun hx => ⟨hx.fails, hx.relates⟩) h.wellFormed
  cases hrun : normalizeWithin n p depth scope v.current with
  | ok found => exact Or.inl ⟨found.1, found.2, rfl⟩
  | error e =>
    have he := hfails e hrun
    cases e with
    | dangling entity i => exact Or.inr ⟨entity, i, rfl⟩
    | _ => cases he

/-- A slice has an output if its elements have one of the inner kind, and it is the same. -/
def Items.layered : Items := { Items.empty with
  paramNames := #["Self", "T"]
  traits := #[⟨"Outer", .empty, ["Out"]⟩, ⟨"Inner", .empty, ["Out"]⟩]
  impls := #[
    ⟨⟨[⟨1⟩], [⟨.projection (.param ⟨1⟩) ⟨1⟩ [] "Out", ⟨⟨1⟩, [], []⟩⟩]⟩, some (⟨0⟩, []),
      .slice (.param ⟨1⟩), [⟨"Out", .projection (.param ⟨1⟩) ⟨1⟩ [] "Out"⟩]⟩,
    ⟨.empty, some (⟨1⟩, []), .bool, [⟨"Out", .bool⟩]⟩] }

def Scope.layered : Scope := { Scope.bare with items := .layered }

theorem Items.stratified_layered : Items.layered.Stratified fun trait => 1 - trait.index := by
  decide

/-- The output of a slice is that of its elements, one level down. -/
theorem Reachable.normalization_ends_layered : ∃ found s,
    normalizeWithin 2 ⟨⟨.slice .bool, ⟨0⟩, []⟩, "Out"⟩ 0 .layered {} = .ok (found, s) := by
  have hstart : Reachable .layered { current := {} } := .start
  refine (hstart.normalization_ends Items.stratified_layered (by decide) (by decide)).resolve_right ?_
  rintro ⟨entity, i, hfault⟩
  have hok : (normalizeWithin 2 ⟨⟨.slice .bool, ⟨0⟩, []⟩, "Out"⟩ 0 .layered {}).toOption.isSome =
      true := by decide +kernel
  rw [hfault] at hok
  cases hok

/-! ## Without an order -/

theorem Vars.open_freshTy (hs : vs.Sound) : vs.freshTy.2.Open (.ty vs.tys.size) := by
  have hroot : vs.tys.fresh.root vs.tys.size = .ok vs.tys.size := by
    rw [Table.root_fresh hs.tys, if_pos rfl]
  refine ⟨rootVar_ty.2 hroot, ?_⟩
  have hvalue : vs.tys.fresh.value vs.tys.size = .ok none := by
    rw [Table.value_eq hroot, Table.stored?_fresh, Table.stored?,
      Table.cell?_eq_none_iff.2 (Nat.le_refl _)]
    rfl
  exact hvalue

theorem Vars.head_of_node (ht : t.isVar = false) : vs.head t = .ok t := by
  cases t with
  | var v => cases ht
  | _ => rfl

theorem Vars.Sound.head_of_unbound (hs : vs.Sound) (hroot : vs.rootVar v = .ok root)
    (hvalue : vs.valueOf v = .ok none) : vs.head (.var v) = .ok (.var root) := by
  obtain ⟨u, hu⟩ := (hs.head_settles _).exists_ok (grounded_of_unbound hvalue)
  rw [hu]
  cases heads_of_head hu with
  | node hvar => cases hvar
  | bound hsome _ =>
    rw [hvalue] at hsome
    cases hsome
  | unbound _ hroot' =>
    rw [hroot] at hroot'
    cases hroot'
    rfl

theorem Vars.Sound.head_of_open (hs : vs.Sound) (hv : vs.Open v) :
    vs.head (.var v) = .ok (.var v) :=
  hs.head_of_unbound hv.1 hv.2

theorem Vars.Sound.binds_of_combine (hs : vs.Sound) (hi : vs.Open (.ty i)) (ht : t.vars = [])
    (h : combine (.var (.ty i)) t vs = .ok (ok, vs')) :
    ok = true ∧ vs.Step vs' ∧ vs.Binds (.ty i) t vs' := by
  have hnode : t.isVar = false := by
    cases t with
    | var v => cases ht
    | _ => rfl
  have hother : t.isTyVar = false := by
    cases t with
    | var v => cases hnode
    | _ => rfl
  have hoccurs : vs.occursIn i t = .ok false := by
    rw [occursIn, mentions, ht]
    rfl
  have hrun : combineVar (.ok .unknown) (.ty i) t vs = .ok (ok, vs') := by
    have hfollow : followWithin (.ok .unknown) (vs.tys.size + 1) (.ty i) t vs = .ok (ok, vs') := h
    rw [followWithin_succ, followWith_of_var _ (hs.head_of_open hi), head_of_node hnode] at hfollow
    exact hfollow
  exact binds_of_combineVar hs hi hother hoccurs hrun

theorem Vars.Sound.binds_of_combineTraitRefs (hs : vs.Sound) (hi : vs.Open (.ty i))
    (ht : t.vars = [])
    (h : combineTraitRefs ⟨.var (.ty i), trait, []⟩ ⟨t, trait, []⟩ vs = .ok (ok, vs')) :
    ok = true ∧ vs.Step vs' ∧ vs.Binds (.ty i) t vs' := by
  rw [combineTraitRefs, if_pos ⟨rfl, rfl⟩, StateT.bind_run] at h
  obtain ⟨⟨same, vs₁⟩, hself, h⟩ := Except.bind_eq_ok h
  obtain ⟨rfl, hbinds⟩ := hs.binds_of_combine hi ht hself
  cases h
  exact ⟨rfl, hbinds⟩

/-- A slice inside a slice, and so on `k` times. -/
def Ty.slices : Nat → Ty
  | 0 => .bool
  | k + 1 => .slice (slices k)

theorem Ty.vars_slices (k : Nat) : (Ty.slices k).vars = [] := by
  induction k with
  | zero => rfl
  | succ k ih =>
    rw [slices]
    simpa [Ty.vars, Ty.subterms] using ih

theorem Ty.size_slices (k : Nat) : (Ty.slices k).size = k + 1 := by
  induction k with
  | zero => rfl
  | succ k ih => simpa [slices, Ty.size, Ty.subterms] using ih

/-- Every type has an output, which is that of the slices of the type. -/
def Items.growing : Items := { Items.empty with
  paramNames := #["Self", "T"]
  traits := #[⟨"Grow", .empty, ["Out"]⟩]
  impls := #[⟨⟨[⟨1⟩], []⟩, some (⟨0⟩, []), .param ⟨1⟩,
    [⟨"Out", .projection (.slice (.param ⟨1⟩)) ⟨0⟩ [] "Out"⟩]⟩] }

/-- The output of a type. -/
def Projection.output (t : Ty) : Projection := ⟨⟨t, ⟨0⟩, []⟩, "Out"⟩

theorem Projection.output_slices_beq (h : j ≠ k) :
    (output (Ty.slices j) == output (Ty.slices k)) = false := by
  rw [Bool.eq_false_iff]
  intro hsame
  have hself : (Ty.slices j).same (Ty.slices k) = true := by
    simpa [output, BEq.beq, Projection.same, TraitRef.same, Ty.sameList] using hsame
  have hsize := Ty.size_eq_of_same hself
  rw [Ty.size_slices, Ty.size_slices] at hsize
  exact h (Nat.succ.inj hsize)

theorem ProjectionCache.get?_start {cache : ProjectionCache} (habsent : cache.get? key = none)
    (hne : (key == other) = false) : (cache.start key).2.get? other = cache.get? other := by
  have hne' : ¬ (other == key) = true := by
    rw [Projection.beq_iff]
    exact fun heq => by simp [Projection.beq_iff.2 heq.symm] at hne
  rw [start, habsent, get?_insert, if_neg hne']

theorem Vars.Sound.resolve_slice (hs : vs.Sound) (hvalue : vs.valueOf v = .ok (some t))
    (ht : t.vars = []) : vs.resolve (.slice (.var v)) = .ok (.slice t) := by
  have hground : vs.Grounded (.slice (.var v)) := by
    refine grounded_iff.2 fun w hw => ?_
    obtain rfl : w = v := by simpa [Ty.vars, Ty.subterms] using hw
    refine (grounded_of_valueOf hvalue).2 (grounded_iff.2 fun u hu => ?_)
    rw [ht] at hu
    cases hu
  obtain ⟨r, hr⟩ := (hs.resolve_settles .var _).exists_ok hground
  have hassign : t.assign (vs.extend .var) = t := by
    rw [Ty.assign_congr (τ := .var) (by simp [ht]), Ty.assign_var_self]
  rw [resolve, hr, hs.resolve_eq hr, Ty.assign_eq rfl]
  have hv := (hs.satisfies_extend .var).value v t hvalue
  simp [Ty.mapComponents, hv, hassign]

/-- The scope of `Items.growing`. -/
def Scope.growing : Scope := { Scope.bare with items := .growing }

theorem select_growing (k : Nat) :
    select Scope.growing.items Scope.growing.known Scope.growing.env
      (Projection.output (Ty.slices k)).traitRef = .ok (.impl ⟨0⟩) := by
  cases k <;> rfl

theorem Infer.asks_of_normalizeTyWith {scope : Scope} {r : Normalized Ty}
    (h : normalizeTyWith inner (.projection (.slice (.var v)) trait [] name) depth scope s =
      .ok (r, s')) :
    ∃ found s₁, inner ⟨⟨.slice (.var v), trait, []⟩, name⟩ depth scope s = .ok (found, s₁) := by
  have hany : (Ty.projection (.slice (.var v)) trait [] name).any Ty.isProjection = true := rfl
  rw [normalizeTyWith, if_pos hany] at h
  obtain ⟨r, s₁, hmap, -⟩ := bind_eq_ok h
  have hnode : (Ty.projection (.slice (.var v)) trait [] name).mapM (normalizeNode inner depth) =
      normalizeNode inner depth (.projection (.slice (.var v)) trait [] name) := by
    simp [Ty.mapM, Ty.mapListM, normalizeNode]
  rw [hnode] at hmap
  have hstandIn : ((standIn inner ⟨⟨.slice (.var v), trait, []⟩, name⟩ depth >>= fun result =>
      pure (result, ([] : List Obligation))) >>= fun r =>
      pure (r.1.value, r.2 ++ r.1.obligations)) scope s = .ok (r, s₁) := hmap
  obtain ⟨_, _, hasked, -⟩ := bind_eq_ok hstandIn
  obtain ⟨_, _, hasked, -⟩ := bind_eq_ok hasked
  obtain ⟨found, s₂, hasked, -⟩ := bind_eq_ok hasked
  exact ⟨found, s₂, hasked⟩

theorem Infer.asks_growing {found : Selection (Option (Normalized Ty))} (hs : s.WellFormed)
    (h : project inner (.output (Ty.slices k)) depth .growing s = .ok (found, s')) :
    ∃ q d s₁ r s₂, inner q d .growing s₁ = .ok (r, s₂) ∧ s₁.WellFormed ∧ s₁.cache = s.cache ∧
      s₁.vars.resolveProjection q = .ok (.output (Ty.slices (k + 1))) := by
  obtain ⟨selected, s₁, hselect, h⟩ := bind_eq_ok h
  obtain ⟨_, _, ⟨⟩, hselect⟩ := bind_eq_ok hselect
  cases hselect
  rw [select_growing] at h
  obtain ⟨_, _, ⟨⟩, h⟩ := bind_eq_ok h
  obtain ⟨impl, s₂, himpl, h⟩ := bind_eq_ok h
  obtain ⟨himpl, rfl⟩ := lift_eq_ok himpl
  cases himpl
  -- The parameter of the impl becomes a fresh variable, which takes the type.
  obtain ⟨header, s₃, hheader, h⟩ := bind_eq_ok h
  obtain ⟨subst, s₄, ⟨⟩, hheader⟩ := bind_eq_ok hheader
  cases hheader
  obtain ⟨agrees, s₅, hagrees, h⟩ := bind_eq_ok h
  obtain ⟨vars, hcombine, rfl⟩ := onVars_eq_ok hagrees
  have hsound := hs.vars.freshTy
  rcases hsound.binds_of_combineTraitRefs (Vars.open_freshTy hs.vars) (Ty.vars_slices k) hcombine
    with ⟨rfl, hstep, hbinds⟩
  obtain ⟨bounds, s₃, ⟨⟩, h⟩ := bind_eq_ok h
  obtain ⟨d, s₄, hdeeper, h⟩ := bind_eq_ok h
  obtain ⟨-, rfl⟩ := lift_eq_ok hdeeper
  obtain ⟨ty, s₅, hty, -⟩ := bind_eq_ok h
  obtain ⟨r, s₆, hasked⟩ := asks_of_normalizeTyWith (v := .ty s₂.vars.tys.size) hty
  have hevolves : s₂.Evolves { s₂ with vars } :=
    .trans (.fresh .ty s₂) (.steps (s := { s₂ with vars := s₂.vars.freshTy.2 }) (.single hstep))
  have hs' := (hevolves.spec hs).1
  have hvalue := hbinds.value_self _ (Vars.open_freshTy hs.vars).1
  refine ⟨_, d, _, r, s₆, hasked, hs', rfl, ?_⟩
  have hslice := hs'.vars.resolve_slice hvalue (Ty.vars_slices k)
  rw [Vars.resolveProjection, Projection.mapM, TraitRef.mapM, ← Vars.resolve, hslice]
  rfl

/-- The output of a type is in progress until those of all larger ones are known. -/
theorem Infer.normalizeWithin_growing {found : Option (Normalized Ty)} (hs : s.WellFormed)
    (hp : s.vars.resolveProjection p = .ok (.output (Ty.slices k)))
    (hcache : ∀ j, k ≤ j → s.cache.get? (.output (Ty.slices j)) = none) :
    normalizeWithin n p depth .growing s ≠ .ok (found, s') := by
  induction n generalizing k depth p s s' found with
  | zero =>
    intro h
    cases h
  | succ n ih =>
    intro h
    obtain ⟨q, s₁, hread, h⟩ := bind_eq_ok h
    obtain ⟨hread, rfl⟩ := readVars_eq_ok hread
    obtain rfl : Projection.output (Ty.slices k) = q := Except.ok.inj (hp.symm.trans hread)
    have hself : (Projection.output (Ty.slices k)).self.isTyVar = false := by
      cases k <;> rfl
    rw [hself] at h
    obtain ⟨entry, s₂, hstart, h⟩ := bind_eq_ok h
    have habsent := hcache k (Nat.le_refl k)
    have hstarted := ((CacheOp.start _).spec hs hstart).1.spec hs
    rw [cacheStart_run] at hstart
    obtain ⟨hentry, rfl⟩ := Prod.mk.inj (Except.ok.inj hstart)
    obtain rfl : none = entry := by
      rw [← hentry, ProjectionCache.start, habsent]
    obtain ⟨found, s₃, hproject, -⟩ := bind_eq_ok h
    obtain ⟨q, d, s₄, r, s₅, hasked, hs₄, hcache₄, hq⟩ := asks_growing hstarted.1 hproject
    refine ih hs₄ hq (fun j hj => ?_) hasked
    rw [hcache₄, ProjectionCache.get?_start habsent (Projection.output_slices_beq (by omega))]
    exact hcache j (by omega)

/-- No number of levels is enough for the output of a type: from the start of an inference, at
whatever depth, its normalization has no result. -/
theorem Infer.normalization_grows : Reachable .growing { current := {} } ∧
    ∀ n depth found s, normalizeWithin n (.output .bool) depth .growing {} ≠ .ok (found, s) := by
  refine ⟨.start, fun n depth found s => ?_⟩
  exact normalizeWithin_growing (k := 0) ⟨Vars.sound_empty, State.kept_start⟩ rfl fun _ _ => rfl

end TypeInference
