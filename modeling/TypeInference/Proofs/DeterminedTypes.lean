import TypeInference.Proofs.Applicability
import TypeInference.Proofs.CacheEntries

/-!
# Determined types

A rigid type leaves nothing open to a comparison: there are no variables or projections in it,
nothing is unknown, and all lengths are there. Two of them match if they are the same and cannot
match otherwise.

In a determined type there are no parameters and nothing opaque either. Resolving, closing,
substituting and normalizing leave such a type as it is, and an open variable takes any of them.
-/

namespace TypeInference

/-- Nothing is left open to a comparison at the outermost level of a type. -/
def Ty.isRigid : Ty → Bool
  | .var _ | .unknown | .projection .. => false
  | .array _ len => len.isSome
  | .dyn bound => bound.assoc.isEmpty
  | _ => true

/-- A type without variables and projections in which nothing is unknown, arrays have a known length,
and trait objects bind no associated types. -/
def Ty.Rigid (t : Ty) : Prop := ∀ u ∈ t.subterms, u.isRigid = true

instance (t : Ty) : Decidable t.Rigid :=
  inferInstanceAs (Decidable (∀ u ∈ t.subterms, u.isRigid = true))

/-- Nothing is left open at the outermost level of a type. -/
def Ty.isDetermined : Ty → Bool
  | .var _ | .unknown | .projection .. | .param _ | .existential .. | .never => false
  | .array _ len => len.isSome
  | .dyn bound => bound.assoc.isEmpty
  | _ => true

/-- A type without variables, parameters, projections and opaque types in which nothing is unknown or
never there, arrays have a known length, and trait objects bind no associated types. -/
def Ty.Determined (t : Ty) : Prop := ∀ u ∈ t.subterms, u.isDetermined = true

instance (t : Ty) : Decidable t.Determined :=
  inferInstanceAs (Decidable (∀ u ∈ t.subterms, u.isDetermined = true))

namespace Ty

variable {a b t : Ty}

theorem rigid_iff : t.Rigid ↔ t.isRigid = true ∧ ∀ c ∈ t.components, c.Rigid :=
  forall_mem_subterms

theorem isVar_of_isRigid (ht : t.isRigid = true) : t.isVar = false := by
  cases t with
  | var v => cases ht
  | _ => rfl

theorem Determined.rigid (ht : t.Determined) : t.Rigid := by
  intro u hu
  have hdetermined := ht u hu
  cases u with
  | var | unknown | projection => cases hdetermined
  | array | dyn => exact hdetermined
  | _ => rfl

theorem determined_iff :
    t.Determined ↔ t.isDetermined = true ∧ ∀ c ∈ t.components, c.Determined :=
  forall_mem_subterms

theorem determined_unit : Ty.unit.Determined := by decide

namespace Determined

variable (ht : t.Determined)

include ht

theorem reference (m : Mutability) : (t.reference m).Determined := by
  refine determined_iff.2 ⟨rfl, ?_⟩
  intro c hc
  cases List.mem_singleton.1 hc
  exact ht

theorem isVar : t.isVar = false := by
  cases t with
  | var v => cases (determined_iff.1 ht).1
  | _ => rfl

theorem isNever : t.isNever = false := by
  cases t with
  | never => cases (determined_iff.1 ht).1
  | _ => rfl

theorem isUnknown : t.isUnknown = false := by
  cases t with
  | unknown => cases (determined_iff.1 ht).1
  | _ => rfl

theorem vars : t.vars = [] := by
  rw [← hasVar_eq_false_iff, hasVar, any, List.any_eq_false]
  intro u hu hvar
  cases u with
  | var v => cases ht _ hu
  | _ => cases hvar

theorem any_isProjection : t.any Ty.isProjection = false := by
  rw [any, List.any_eq_false]
  intro u hu hprojection
  cases u with
  | projection => cases ht _ hu
  | _ => cases hprojection

theorem apply (s : Subst) : s.apply t = t := by
  induction t using componentInduction with
  | node t ih =>
    obtain ⟨hself, hcomponents⟩ := determined_iff.1 ht
    have hsame : t.mapComponents s.apply = t := by
      rw [mapComponents_congr (g := id) fun c hc => ih c hc (hcomponents c hc), mapComponents_id]
    have hnode : s.apply t = s.replace (t.mapComponents s.apply) := map_eq s.replace t
    rw [hnode, hsame]
    cases t with
    | param => cases hself
    | _ => rfl

end Determined

/-! ## Matching -/

/-- Rigid types are told apart by their heads. -/
theorem outcome_rigid (ha : a.isRigid = true) (hb : b.isRigid = true) :
    a.outcome b = if a.agrees b then none else some .no := by
  have hopen : a.openVerdict? b = none := by
    cases a with
    | var | unknown | projection => cases ha
    | _ =>
      cases b with
      | var | unknown | projection => cases hb
      | _ => rfl
  rw [outcome, hopen]

theorem length_parts_of_agrees (hnode : a.isVar = false) (h : a.agrees b = true) :
    a.parts.length = b.parts.length := by
  have hagrees := h
  unfold agrees at hagrees
  split at hagrees
  case h_9 => exact (agrees_of_same hagrees hnode).2.2.length_eq
  all_goals simp_all [parts]

theorem same_of_agrees (ha : a.isRigid = true) (hb : b.isRigid = true) (hagrees : a.agrees b = true)
    (hparts : List.Forall₂ (fun x y => x.same y = true) a.parts b.parts) : a.same b = true := by
  cases a with
  | var | unknown | projection => cases ha
  | ref | ptr | slice =>
    cases b with
    | ref | ptr | slice => first | cases hagrees; done | simp_all [agrees, same, parts]
    | _ => cases hagrees
  | array x m =>
    cases b with
    | array y n =>
      -- Both lengths are there, so that they agree means that they are equal.
      obtain ⟨m, rfl⟩ := Option.isSome_iff_exists.1 ha
      obtain ⟨n, rfl⟩ := Option.isSome_iff_exists.1 hb
      simp_all [agrees, Vars.lengthsAgree, same, parts]
    | _ => cases hagrees
  | tuple xs =>
    cases b with
    | tuple ys => exact sameList_iff_forall₂.2 hparts
    | _ => cases hagrees
  | adt i xs =>
    cases b with
    | adt j ys =>
      simp only [agrees, decide_eq_true_eq] at hagrees
      simp only [same, hagrees.1, decide_true, Bool.true_and]
      exact sameList_iff_forall₂.2 hparts
    | _ => cases hagrees
  | fn xs x =>
    cases b with
    | fn ys y =>
      have hlength : ys.length = xs.length := (of_decide_eq_true hagrees).symm
      rw [parts, parts] at hparts
      have hparams := List.forall₂_take_append _ _ _ hparts
      have hret := List.forall₂_drop_append _ _ _ hparts
      rw [hlength, List.take_left] at hparams
      rw [hlength, List.drop_left] at hret
      simp only [same, sameList_iff_forall₂.2 hparams, Bool.true_and]
      simpa using hret
    | _ => cases hagrees
  | dyn x =>
    cases b with
    | dyn y =>
      obtain ⟨i, xs, as⟩ := x
      obtain ⟨j, ys, bs⟩ := y
      obtain rfl : as = [] := List.isEmpty_iff.1 ha
      obtain rfl : bs = [] := List.isEmpty_iff.1 hb
      simp only [agrees, decide_eq_true_eq] at hagrees
      simp only [same, Bound.same, hagrees.1, decide_true, Bool.true_and, Assoc.sameList,
        Bool.and_true]
      exact sameList_iff_forall₂.2 hparts
    | _ => cases hagrees
  | bool | char | str | int | float | existential | param | never => exact hagrees

/-- They are the same if they agree and their parts are the same. -/
theorem same_iff_agrees (ha : a.isRigid = true) (hb : b.isRigid = true) :
    a.same b = true ↔ a.agrees b = true ∧ sameList a.parts b.parts = true := by
  rw [sameList_iff_forall₂]
  constructor
  · intro h
    obtain ⟨hagrees, -, hparts⟩ := agrees_of_same h (isVar_of_isRigid ha)
    exact ⟨hagrees, hparts⟩
  · rintro ⟨hagrees, hparts⟩
    exact same_of_agrees ha hb hagrees hparts

end Ty

namespace Header

variable {a b : Ty} {as bs : List Ty}

theorem compare_forall₂ (hlength : as.length = bs.length)
    (h : ∀ a ∈ as, ∀ b ∈ bs, compare [a] [b] = .ofBool (a == b)) :
    compare as bs = .ofBool (Ty.sameList as bs) := by
  induction as generalizing bs with
  | nil =>
    cases bs with
    | nil => rfl
    | cons => cases hlength
  | cons a as ih =>
    cases bs with
    | nil => cases hlength
    | cons b bs =>
      have hfirst := h a (.head _) b (.head _)
      have hrest := ih (Nat.succ.inj hlength) fun c hc d hd =>
        h c (.tail _ hc) d (.tail _ hd)
      rw [compare_cons, hfirst, hrest, Ty.sameList]
      show (Verdict.ofBool (a.same b)).min _ = _
      cases a.same b <;> cases Ty.sameList as bs <;> rfl

/-- Rigid types match if they are the same and cannot match otherwise. -/
theorem compare_rigid (ha : a.Rigid) (hb : b.Rigid) : compare [a] [b] = .ofBool (a == b) := by
  induction a using Ty.componentInduction generalizing b with
  | node a ih =>
    obtain ⟨haself, hacomponents⟩ := Ty.rigid_iff.1 ha
    obtain ⟨hbself, hbcomponents⟩ := Ty.rigid_iff.1 hb
    have hsame : (a == b) = (a.agrees b && Ty.sameList a.parts b.parts) := by
      rw [Bool.eq_iff_iff, Bool.and_eq_true]
      exact Ty.same_iff_agrees haself hbself
    rw [compare_singleton, Ty.outcome_rigid haself hbself, hsame]
    by_cases hagrees : a.agrees b = true
    · have hparts : ∀ c ∈ a.parts, ∀ d ∈ b.parts, compare [c] [d] = .ofBool (c == d) := by
        intro c hc d hd
        have hc' := a.parts_sublist.subset hc
        exact ih c hc' (hacomponents c hc') (hbcomponents d (b.parts_sublist.subset hd))
      have hlength := Ty.length_parts_of_agrees (Ty.isVar_of_isRigid haself) hagrees
      rw [if_pos hagrees, Option.getD_none, compare_forall₂ hlength hparts, hagrees, Bool.true_and]
    · rw [if_neg hagrees, Option.getD_some, Bool.eq_false_iff.2 hagrees]
      rfl

theorem compare_determined (ha : a.Determined) (hb : b.Determined) :
    compare [a] [b] = .ofBool (a == b) :=
  compare_rigid ha.rigid hb.rigid

theorem matchAllFrom_of_compare
    (h : ∀ a ∈ as, ∀ holes b, matchFrom [] holes a b = (compare [a] [b], holes)) (holes : Holes)
    (bs : List Ty) : matchAllFrom [] holes as bs = (compare as bs, holes) := by
  induction as generalizing bs with
  | nil => rfl
  | cons a as ih =>
    cases bs with
    | nil => rfl
    | cons b bs =>
      have hrest := ih (fun c hc => h c (.tail _ hc)) bs
      rw [matchAllFrom_cons, compare_cons, h a List.mem_cons_self]
      dsimp only
      rw [hrest]
      cases compare [a] [b] <;> rfl

theorem matchFrom_nil (a : Ty) (holes : Holes) (b : Ty) :
    matchFrom [] holes a b = (compare [a] [b], holes) := by
  induction a using Ty.componentInduction generalizing holes b with
  | node a ih =>
    have hparts := matchAllFrom_of_compare fun c hc => ih c (a.parts_sublist.subset hc)
    rw [matchFrom_eq (by simp), compare_singleton]
    cases a.outcome b with
    | some v => rfl
    | none => exact hparts holes b.parts

/-- Without holes, matching is comparing. -/
theorem matchGoal_nil (header goal : List Ty) : matchGoal [] header goal = compare header goal := by
  rw [matchGoal_eq, matchAllFrom_of_compare fun a _ => matchFrom_nil a]

end Header

/-! ## Unification -/

namespace Vars

variable {vs vs' : Vars} {a b t : Ty} {v : Var}

theorem mapM_resolveNode_of_vars (openVar : Var → Ty) (ht : t.vars = []) :
    t.mapM (vs.resolveNode openVar) = .ok t := by
  have hnone : ∀ v ∈ t.vars, vs.resolveVar openVar (vs.tys.size + 1) v = pure (.var v) := by
    intro v hv
    simp [ht] at hv
  rw [resolveNode_eq, Ty.mapM_onVar_eq_pure hnone, Ty.assign_var_self]
  rfl

theorem Sound.resolve_open (hs : vs.Sound) (hv : vs.Open v) :
    vs.resolve (.var v) = .ok (.var v) := by
  have hnode : vs.resolve (.var v) = vs.resolveVar .var (vs.tys.size + 1) v := rfl
  rw [hnode, resolveVar_succ, hs.head_of_open hv]
  rfl

theorem combine_same (ha : a.isVar = false) (hb : b.isVar = false) (h : (a == b) = true) :
    combine a b vs = .ok (true, vs) := by
  have hrun : combine a b vs = combineBy (pure .unknown) (follow (pure .unknown)) a b vs := rfl
  rw [hrun, combineBy_eq _ _ ha, combineWith_of_node _ (head_of_node hb) hb, h]
  rfl

theorem combinePairs_self {as : List Ty} (h : ∀ a ∈ as, a.isVar = false) :
    combinePairs as as vs = .ok (true, vs) := by
  induction as with
  | nil => rfl
  | cons a as ih =>
    have ha := h a (.head _)
    have hfirst : combine a a vs = .ok (true, vs) := combine_same ha ha a.same_refl
    have hrest := ih fun c hc => h c (.tail _ hc)
    have hrun : combinePairs (a :: as) (a :: as) vs =
        (do
          let ok ← combine a a
          let rest ← combinePairs as as
          return rest && ok : VarM Bool) vs := rfl
    rw [hrun, StateT.bind_run, hfirst, Except.ok_bind, StateT.bind_run, hrest]
    rfl

/-- A determined trait reference unifies with itself. -/
theorem combineTraitRefs_self {r : TraitRef} (h : ∀ t ∈ r.header, t.Determined) :
    combineTraitRefs r r vs = .ok (true, vs) := by
  have hself := (h r.self (.head _)).isVar
  have hargs : ∀ t ∈ r.args, t.isVar = false := fun t ht =>
    (h t (.tail _ ht)).isVar
  rw [combineTraitRefs, if_pos ⟨rfl, rfl⟩, StateT.bind_run,
    combine_same hself hself r.self.same_refl]
  exact combinePairs_self hargs

/-- An open variable takes a determined type. -/
theorem Sound.binds_of_combine_open (hs : vs.Sound) {i : Nat} (hi : vs.Open (.ty i))
    (ht : t.Determined) :
    ∃ vs', combine t (.var (.ty i)) vs = .ok (true, vs') ∧ vs.Step vs' ∧
      vs.Binds (.ty i) t vs' := by
  have hother : t.isTyVar = false := by
    cases t with
    | var v => cases ht.isVar
    | _ => rfl
  have hoccurs : vs.occursIn i t = .ok false := by
    rw [occursIn, mentions, ht.vars]
    rfl
  have hopen (w : Var) (hw : t = .var w) : vs.Open w := by
    rw [hw] at ht
    cases ht.isVar
  obtain ⟨vs', hbind⟩ := Vars.exists_combineVar (c := pure .unknown) hs hi hopen
    (by rintro _ ⟨⟩ -; exact hoccurs) fun _ => rfl
  obtain ⟨-, hstep, hbinds⟩ := binds_of_combineVar hs hi hother hoccurs hbind
  refine ⟨vs', ?_, hstep, hbinds⟩
  have hrun : combine t (.var (.ty i)) vs =
      combineBy (pure .unknown) (follow (pure .unknown)) t (.var (.ty i)) vs := rfl
  rw [hrun, combineBy_eq _ _ ht.isVar, combineWith_of_var _ (hs.head_of_open hi), hbind]

theorem Sound.resolve_of_binds (hs' : vs'.Sound) (h : vs.Binds v t vs') (ht : t.Determined) :
    vs'.resolve (.var v) = .ok t := by
  have hvalue := h.value_self v h.isOpen.1
  have hground : vs'.Grounded (.var v) := by
    refine (grounded_of_valueOf hvalue).2 (grounded_iff.2 fun w hw => ?_)
    rw [ht.vars] at hw
    cases hw
  obtain ⟨r, hr⟩ := (hs'.resolve_settles .var _).exists_ok hground
  have hassign : t.assign (vs'.extend .var) = t := by
    rw [Ty.assign_congr (τ := .var) (by simp [ht.vars]), Ty.assign_var_self]
  rw [resolve, hr, hs'.resolve_eq hr, Ty.assign_var, (hs'.satisfies_extend .var).value v t hvalue,
    hassign]

end Vars

/-! ## Inference steps -/

namespace Infer

variable {α β : Type} {scope : Scope} {s : State} {t a b : Ty} {xs : List α} {f : α → Infer Bool}
  {ok : Bool} {vars : Vars}

theorem mapM_of_ok {f : α → Infer β} {g : α → β} (h : ∀ x ∈ xs, f x scope s = .ok (g x, s)) :
    xs.mapM f scope s = .ok (xs.map g, s) := by
  induction xs with
  | nil => rfl
  | cons x xs ih =>
    have hrest := ih fun y hy => h y (.tail _ hy)
    rw [List.mapM_cons, bind_of_ok (h x (.head _)), bind_of_ok hrest]
    rfl

theorem filterAuxM_of_ok (h : ∀ x ∈ xs, f x scope s = .ok (true, s)) (acc : List α) :
    xs.filterAuxM f acc scope s = .ok (xs.reverse ++ acc, s) := by
  induction xs generalizing acc with
  | nil => rfl
  | cons x xs ih =>
    have hrest := ih (fun y hy => h y (.tail _ hy)) (x :: acc)
    rw [List.filterAuxM, bind_of_ok (h x (.head _)), List.reverse_cons, List.append_assoc]
    exact hrest

theorem filterM_of_ok (h : ∀ x ∈ xs, f x scope s = .ok (true, s)) :
    xs.filterM f scope s = .ok (xs, s) := by
  rw [List.filterM, bind_of_ok (filterAuxM_of_ok h []), List.append_nil, List.reverse_reverse]
  rfl

theorem resolve_determined (ht : t.Determined) : resolve t scope s = .ok (t, s) :=
  readVars_of_ok (Vars.mapM_resolveNode_of_vars .var ht.vars)

theorem close_determined (ht : t.Determined) : close t scope s = .ok (t, s) :=
  readVars_of_ok (Vars.mapM_resolveNode_of_vars _ ht.vars)

theorem head_node (ht : t.isVar = false) : head t scope s = .ok (t, s) :=
  readVars_of_ok (Vars.head_of_node ht)

theorem resolveSettled_determined (ht : t.Determined) :
    resolveSettled t scope s = .ok (t, s) := by
  have hclosed : ¬ t.hasVar = true := by
    rw [Ty.hasVar_eq_false_iff.2 ht.vars]
    exact Bool.false_ne_true
  rw [resolveSettled, bind_of_ok (resolve_determined ht), if_neg hclosed]
  rfl

theorem combine_run (h : Vars.combine a b s.vars = .ok (ok, vars)) :
    combine a b scope s = .ok (ok, { s with vars }) :=
  ok_then rfl (ok_then (lift_of_ok h) rfl)

theorem unify_run (h : Vars.combine a b s.vars = .ok (ok, vars)) :
    unify a b scope s = .ok ((), { s with vars }) := by
  show (combine a b >>= fun _ => pure ()) scope s = _
  exact bind_of_ok (combine_run h)

theorem combine_same (ha : a.isVar = false) (hb : b.isVar = false) (h : (a == b) = true) :
    combine a b scope s = .ok (true, s) :=
  combine_run (Vars.combine_same ha hb h)

theorem register_nil : register [] scope s = .ok ((), s) := by
  have hpending : s.pending ++ [] = s.pending := List.append_nil _
  show Except.ok ((), { s with pending := s.pending ++ [] }) = _
  rw [hpending]

theorem normalizeTyWith_of_no_projection {inner : Normalizer} (ht : t.any Ty.isProjection = false)
    (depth : Nat) : normalizeTyWith inner t depth scope s = .ok (.plain t, s) := by
  rw [normalizeTyWith, if_neg (by simp [ht])]
  rfl

theorem normalized_of_no_projection (ht : t.any Ty.isProjection = false) :
    normalized t scope s = .ok (t, s) := by
  have hnormal : normalizeTy t 0 scope s = .ok (.plain t, s) :=
    normalizeTyWith_of_no_projection ht 0
  rw [normalized, bind_of_ok hnormal]
  exact bind_of_ok register_nil

/-- Types without projections are their own normal forms. -/
theorem normalizedList_of_no_projection {ts : List Ty}
    (hts : ∀ t ∈ ts, t.any Ty.isProjection = false) :
    normalizedList ts scope s = .ok (ts, s) := by
  have hmap : ts.mapM (normalizeTyWith normalize? · 0) scope s = .ok (ts.map .plain, s) :=
    mapM_of_ok fun t ht => normalizeTyWith_of_no_projection (hts t ht) 0
  have hvalues : (ts.map Normalized.plain).map (·.value) = ts := by
    rw [List.map_map]
    exact List.map_id ts
  have hobligations : (ts.map Normalized.plain).flatMap (·.obligations) = [] := by
    simp [Normalized.plain]
  have hnormal : normalizeListWith normalize? ts 0 scope s = .ok (.plain ts, s) := by
    rw [normalizeListWith, bind_of_ok hmap, hvalues, hobligations]
    rfl
  rw [normalizedList, bind_of_ok hnormal]
  exact bind_of_ok register_nil

end Infer

end TypeInference
