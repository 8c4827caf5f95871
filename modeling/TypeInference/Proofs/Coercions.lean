import TypeInference.Proofs.DeterminedTypes
import TypeInference.Proofs.Dereferences
import TypeInference.Proofs.Fixpoints

/-!
# Coercions

What a conversion that succeeds says about the two types, and what becomes of a value that is
converted to the type it has.

A value of a type is converted to that type by unifying the type with itself. References are the
exception. They are always reborrowed, and reborrowing looks for the pointee in the dereference
sequence of the reference.
-/

namespace TypeInference

variable {q r : Region} {m n : Mutability}

open Infer

/-! ## Compatible types -/

theorem Compatible.pointee {a b : Ty} (h : Compatible (.ref a m r) (.ref b n q)) :
    Compatible a b := by
  cases h with
  | same h =>
    rw [Ty.same, Bool.and_eq_true] at h
    exact .same h.2
  | ref _ _ _ h => exact h

namespace Vars

variable {vs vs₁ vs₂ vs' : Vars} {a b : Ty} {σ : Var → Ty}

/-- Every variable that is unknown in `vs'` is unknown in `vs` already. -/
def BindsNoneToUnknown (vs vs' : Vars) : Prop :=
  ∀ v, vs'.valueOf v = .ok (some .unknown) → vs.valueOf v = .ok (some .unknown)

theorem BindsNoneToUnknown.not_bindsUnknown (h : vs.BindsNoneToUnknown vs')
    (hbefore : vs.Grows vs₁) (hafter : vs₂.Grows vs') : ¬ BindsUnknown vs₁ vs₂ := by
  rintro ⟨v, hnone, hunknown⟩
  have hvalue := hbefore.value v .unknown (h v (hafter.value v .unknown hunknown))
  rw [hnone] at hvalue
  cases hvalue

/-- Unification that succeeds makes types compatible, whatever else becomes of the variables. -/
theorem Sound.combine_agrees (hs : vs₁.Sound) (h : vs.BindsNoneToUnknown vs')
    (hbefore : vs.Grows vs₁) (hrun : combine a b vs₁ = .ok (true, vs₂)) (hafter : vs₂.Grows vs')
    (hσ : Satisfies Eq σ vs') : Compatible (a.assign σ) (b.assign σ) := by
  have hstrict := combineStrictly_of_combine hs hrun (h.not_bindsUnknown hbefore hafter)
  exact reconciles_combineStrictly hs hstrict (hafter.satisfies_before hσ)

theorem combine_pointees {m : Mutability} {r : Region}
    (h : combine (.ref a m r) (.ref b m q) vs = .ok (false, vs')) :
    combine a b vs = .ok (false, vs') := by
  have hrun : combineBy (pure .unknown) (follow (pure .unknown)) (.ref a m r) (.ref b m q) vs =
      .ok (false, vs') := h
  rw [combineBy, combineWith_of_node _ (head_of_node rfl) rfl] at hrun
  split at hrun
  · cases hrun
  · simp only [if_true] at hrun
    exact hrun

end Vars

/-! ## The rules -/

/-- A borrow of the first kind does for one of the second. -/
def Mutability.Serves (m n : Mutability) : Prop := m = n ∨ m = .mut ∧ n = .shared

theorem Infer.borrowServes_iff : borrowServes m n = true ↔ m.Serves n := by
  simp [borrowServes, Mutability.Serves]

/-- A value of the first type may be used where the second is expected, by one of the rules of
conversion. That a dereference of the value has the type `b` is up to `fits b`. -/
inductive Ty.Serves (fits : Ty → Prop) : Ty → Ty → Prop
  | compatible {a b : Ty} : Compatible a b → Serves fits a b
  | unsize {a b : Ty} {m n : Mutability} (len : Option Nat) (r q : Region) : m.Serves n →
    Compatible a b → Serves fits (.ref (.array a len) m r) (.ref (.slice b) n q)
  | borrowPtr {a b : Ty} {m n : Mutability} (r : Region) : m.Serves n → Compatible a b →
    Serves fits (.ref a m r) (.ptr b n)
  | constPtr {a b : Ty} : Compatible a b → Serves fits (.ptr a .mut) (.ptr b .shared)
  | reborrow {b : Ty} {m n : Mutability} (a : Ty) (r q : Region) : m.Serves n → fits b →
    Serves fits (.ref a m r) (.ref b n q)

/-- Of the dereferences of `source`, as found in state `s`, one that is not the first is compatible
with `b` in state `s'`, and those between could not be unified with the pointee of `target`. -/
def State.DerefFits (scope : Scope) (s s' : State) (source target b : Ty) : Prop :=
  ∃ seq s₁ depth step q n r pointee,
    s.vars.head target = .ok (.ref q n r) ∧ s.vars.head q = .ok pointee ∧
    derefSequence source scope s = .ok (seq, s₁) ∧ 1 ≤ depth ∧ seq[depth]? = some step ∧
    (∀ u, s'.vars.resolve step = .ok u → Compatible u b) ∧
    (scope.IsClosed → s.InRange → Within s.vars.Has source → Within s.vars.Has target →
      ∃ u, s'.vars.resolve step = .ok u) ∧
    ∀ j t, 1 ≤ j → j < depth → seq[j]? = some t → canCombine t pointee scope s₁ = .ok (false, s₁)

namespace Infer

variable {scope : Scope} {s s' s₁ : State} {id : ExprId} {a b source target p pointee : Ty}
  {m n : Mutability} {seq steps : List Ty} {r k : Region}

variable (hs : s.WellFormed)

include hs

/-! ## Trials -/

theorem canCombine_of_combineIfOk
    (h : combineIfOk (.reference a m) (.reference b m) scope s = .ok (false, s')) :
    s' = s ∧ canCombine a b scope s = .ok (false, s) := by
  obtain ⟨vars, hcombine, hsame, -⟩ := combineIfOk_eq_ok hs h
  have hpointees := Vars.combine_pointees hcombine
  have hopened := State.wellFormed_opened hs
  have hwork : s.opened.Evolves { s.opened with vars } :=
    .steps (Vars.combine_makesSteps a b hopened.vars hpointees)
  refine ⟨hsame rfl, ok_then rfl (ok_then (combine_run hpointees) ?_)⟩
  exact congrArg (fun s => Except.ok (false, s)) (hwork.spec hopened).2.rollback_eq

theorem reborrowFrom_eq_true {depth : Nat}
    (h : reborrowFrom id seq target m depth steps scope s = .ok (true, s')) :
    ∃ (j : Nat) (step : Ty) (vars : Vars), steps[j]? = some step ∧
      Vars.combine (.reference step m) (.reference target m) s.opened.vars = .ok (true, vars) ∧
      vars.Grows s'.vars ∧
      (∀ i t, i < j → steps[i]? = some t → canCombine t target scope s = .ok (false, s)) ∧
      s'.adjustments = if depth + j > 1 then
        s.adjustments.insert id.index ((s.adjustments.get? id.index).getD [] ++
          (derefsTo seq (depth + j) ++ [.borrowRef (.reference step m) .erased m]))
        else s.adjustments := by
  induction steps generalizing depth with
  | nil => cases h
  | cons step rest ih =>
    obtain ⟨_, s₁, hrun, ⟨rfl, hrest⟩ | ⟨rfl, -, hend⟩⟩ := reborrowFrom_cons_eq_ok h
    · obtain ⟨rfl, hfailed⟩ := canCombine_of_combineIfOk hs hrun
      obtain ⟨j, fitting, vars, hj, hcombine, hgrows, hothers, hadjustments⟩ := ih hrest
      rw [Nat.add_right_comm, Nat.add_assoc] at hadjustments
      refine ⟨j + 1, fitting, vars, hj, hcombine, hgrows, fun i t hi ht => ?_, hadjustments⟩
      cases i with
      | zero =>
        cases ht
        exact hfailed
      | succ i => exact hothers i t (by omega) ht
    · obtain ⟨vars, hcombine, -, hgrows⟩ := combineIfOk_eq_ok hs hrun
      have hkept := (Orderly.combineIfOk within_true within_true).anyway.keeps_adjustments hs hrun
      refine ⟨0, step, vars, rfl, hcombine, ?_⟩
      rcases hend with ⟨hdepth, rfl⟩ | ⟨hdepth, ⟨⟩⟩
      · refine ⟨hgrows rfl, fun i t hi => absurd hi (by omega), ?_⟩
        rw [Nat.add_zero, if_neg hdepth.not_gt, hkept]
      · refine ⟨hgrows rfl, fun i t hi => absurd hi (by omega), ?_⟩
        rw [Nat.add_zero, if_pos hdepth, ← hkept]

theorem derefSequence_of_head (hhead : s.vars.head a = .ok b)
    (h : derefSequence b scope s = .ok (seq, s')) : derefSequence a scope s = .ok (seq, s') := by
  have halike : s.vars.Alike b a := ((Vars.heads_of_head hhead).alike (.refl _)).symm
  obtain ⟨r, s₁, hsettled, hrest⟩ := bind_eq_ok h
  obtain ⟨t, s₂, hread, hnext⟩ := bind_eq_ok hsettled
  obtain ⟨hresolve, rfl⟩ := readVars_eq_ok hread
  have hread' : resolve a scope s₂ = .ok (t, s₂) :=
    readVars_of_ok (halike.resolveNode_eq hs.vars hresolve)
  exact ok_then (ok_then hread' hnext) hrest

/-! ## Conversions that succeed -/

theorem derefFits_of_reborrow {q : Ty} (hsource : s.vars.head source = .ok (.ref p m r))
    (htarget : s.vars.head target = .ok (.ref q n k)) (hpointee : s.vars.head q = .ok pointee)
    (hrun : reborrow id (.ref p m r) pointee n scope s = .ok (true, s'))
    (hunknown : s.vars.BindsNoneToUnknown s'.vars) :
    s.DerefFits scope s' source target (q.assign (s'.vars.extend .var)) := by
  obtain ⟨seq, s₁, hseq, hrest⟩ := bind_eq_ok hrun
  have hev := (Regular.derefSequence.quiet hs hseq).1
  have hs₁ := (hev.spec hs).1
  have hev' := ((Orderly.reborrowFrom id n 1 within_true within_true within_true).anyway.quiet hs₁
    hrest).1
  have hs' := (hev'.spec hs₁).1.vars
  have hσ := hs'.satisfies_extend .var
  obtain ⟨j, step, vars, hj, hcombine, hgrows, hothers, -⟩ := reborrowFrom_eq_true hs₁ hrest
  rw [List.getElem?_drop] at hj
  refine ⟨seq, s₁, 1 + j, step, q, n, k, pointee, htarget, hpointee,
    derefSequence_of_head hs hsource hseq, by omega, hj, fun u hu => ?_, ?_, ?_⟩
  · have hopened := (hev.grows hs).trans (State.grows_opened hs₁.vars)
    have hfits := (State.wellFormed_opened hs₁).vars.combine_agrees hunknown hopened hcombine
      hgrows hσ
    have halike := (Vars.heads_of_head hpointee).alike ((hev.trans hev').grows hs)
    rw [hs'.resolve_eq hu, halike.assign _ hσ]
    rw [Ty.reference, Ty.reference, Ty.assign_eq rfl, Ty.assign_eq rfl] at hfits
    exact hfits.pointee
  · intro hclosed hrange hwithin hwithin'
    obtain ⟨_, hheads, hrefers⟩ := hrange.vars.exists_head hwithin
    rw [hsource] at hheads
    cases hheads
    obtain ⟨_, hheads', hrefers'⟩ := hrange.vars.exists_head hwithin'
    rw [htarget] at hheads'
    cases hheads'
    obtain ⟨_, hheads'', hwithin''⟩ := hrange.vars.exists_head (Ty.within_ref.1 hrefers')
    rw [hpointee] at hheads''
    cases hheads''
    -- The sequence is found in range, and what follows only adds variables.
    have hfound := Contained.of_orderly (fun _ => .derefSequence hrefers) hclosed hrange le_rfl
    obtain ⟨hgrows, hseq'⟩ := hfound.ok _ _ hseq
    have hafter := hfound.throughout.after hseq
    have hdropped := hseq'.subset (List.drop_subset 1 seq)
    have hrest' := Contained.of_orderly (fun _ => .reborrowFrom id n 1 hseq' hdropped
      (hwithin''.mono hgrows)) hclosed hafter le_rfl
    have hstep := (hseq'.mem (List.mem_of_getElem? hj)).mono (hrest'.ok _ _ hrest).1
    obtain ⟨u, hu, -⟩ := (hrest'.throughout.after hrest).vars.exists_resolve hstep
    exact ⟨u, hu⟩
  -- The search starts at the second entry of the sequence.
  · intro i t hi hij ht
    refine hothers (i - 1) t (by omega) ?_
    rw [List.getElem?_drop, Nat.add_sub_cancel' hi]
    exact ht

theorem combine_agrees {σ : Var → Ty}
    (hunknown : s.vars.BindsNoneToUnknown s'.vars) (hrun : combine a b scope s = .ok (true, s₁))
    (hvars : s'.vars = s₁.vars) (hσ : Vars.Satisfies Eq σ s'.vars) :
    Compatible (a.assign σ) (b.assign σ) := by
  obtain ⟨vars, hcombine, rfl⟩ := onVars_eq_ok hrun
  refine hs.vars.combine_agrees hunknown (.refl _) hcombine ?_ hσ
  rw [hvars]
  exact .refl _

theorem tryCoerce_serves (hrun : tryCoerce id source target scope s = .ok (true, s'))
    (hunknown : s.vars.BindsNoneToUnknown s'.vars) :
    Ty.Serves (s.DerefFits scope s' source target) (source.assign (s'.vars.extend .var))
      (target.assign (s'.vars.extend .var)) := by
  have hev := (Regular.tryCoerce.quiet hs hrun).1
  have hσ := (hev.spec hs).1.vars.satisfies_extend .var
  have hassign {t u : Ty} (h : s.vars.head t = .ok u) :
      t.assign (s'.vars.extend .var) = u.assign (s'.vars.extend .var) :=
    ((Vars.heads_of_head h).alike (hev.grows hs)).assign _ hσ
  obtain ⟨a, b, hsource, htarget, hattempts⟩ := attempts_of_tryCoerce hrun
  rw [hassign hsource, hassign htarget]
  cases hattempts with
  | unify hcombine => exact .compatible (combine_agrees hs hunknown hcombine rfl hσ)
  | @unsize p q elem elem' m n len r k _ _ hserves hp hq hcombine =>
    rw [Ty.assign_eq rfl, Ty.assign_eq (t := .ref q n k) rfl, Ty.mapComponents, Ty.mapComponents,
      hassign hp, hassign hq, Ty.assign_eq rfl, Ty.assign_eq (t := .slice elem') rfl]
    exact .unsize len r k (borrowServes_iff.1 hserves) (combine_agrees hs hunknown hcombine rfl hσ)
  | @reborrow p q _ m n r k _ _ hserves hpointee hreborrow =>
    rw [Ty.assign_eq rfl, Ty.assign_eq (t := .ref q n k) rfl]
    exact .reborrow _ r k (borrowServes_iff.1 hserves)
      (derefFits_of_reborrow hs hsource htarget hpointee hreborrow hunknown)
  | @borrowPtr p q m n r _ _ hserves hcombine hadjust =>
    cases hadjust
    rw [Ty.assign_eq rfl, Ty.assign_eq (t := .ptr q n) rfl]
    exact .borrowPtr r (borrowServes_iff.1 hserves) (combine_agrees hs hunknown hcombine rfl hσ)
  | @constPtr p q _ _ hcombine =>
    rw [Ty.assign_eq rfl, Ty.assign_eq (t := .ptr q .shared) rfl]
    exact .constPtr (combine_agrees hs hunknown hcombine rfl hσ)

/-! ## Conversions that fail -/

theorem adjustments_of_tryCoerce (hrun : tryCoerce id source target scope s = .ok (false, s')) :
    s'.adjustments = s.adjustments := by
  obtain ⟨a, b, -, -, hattempts⟩ := attempts_of_tryCoerce hrun
  cases hattempts with
  | unify hcombine | unsize _ _ _ hcombine | refused hcombine | constPtr hcombine =>
    obtain ⟨vars, -, rfl⟩ := onVars_eq_ok hcombine
    rfl
  | reborrow _ _ hreborrow =>
    obtain ⟨seq, s₁, hseq, hfrom⟩ := bind_eq_ok hreborrow
    have hs₁ := ((Regular.derefSequence.quiet hs hseq).1.spec hs).1
    rw [(reborrowFrom_eq_ok hs₁ hfrom).1]
    exact Regular.derefSequence.keeps_adjustments hs hseq

end Infer

/-- Whatever was done before, a conversion that succeeds, without a variable becoming unknown, follows
one of the rules. The types are those of the resulting state; they can be resolved there unless
variables are missing. And a conversion that fails converts nothing. -/
theorem History.serves_of_tryCoerce {scope : Scope} {v : Versions State Mark}
    (h : History (Walk.Works scope) v) {id : ExprId} {source target : Ty} {ok : Bool} {s' : State}
    (hrun : tryCoerce id source target scope v.current = .ok (ok, s')) :
    (ok = true → v.current.vars.BindsNoneToUnknown s'.vars →
      ∀ a b, s'.vars.resolve source = .ok a → s'.vars.resolve target = .ok b →
        Ty.Serves (v.current.DerefFits scope s' source target) a b) ∧
    (ok = false → s'.adjustments = v.current.adjustments) ∧
    (scope.IsClosed → v.current.InRange → Within v.current.vars.Has source →
      Within v.current.vars.Has target →
        (∃ a, s'.vars.resolve source = .ok a) ∧ ∃ b, s'.vars.resolve target = .ok b) := by
  have hs := h.wellFormed
  refine ⟨?_, ?_, ?_⟩
  · rintro rfl hunknown a b ha hb
    have hs' := ((Regular.tryCoerce.quiet hs hrun).1.spec hs).1.vars
    rw [hs'.resolve_eq ha, hs'.resolve_eq hb]
    exact Infer.tryCoerce_serves hs hrun hunknown
  · rintro rfl
    exact adjustments_of_tryCoerce hs hrun
  · intro hclosed hrange hsource htarget
    have hcontained : Contained v.current.vars.Has (tryCoerce id source target) :=
      .of_orderly fun _ => .tryCoerce id hsource htarget
    have hstays := hcontained hclosed hrange le_rfl
    have hgrows := (hstays.ok _ _ hrun).1
    have hvars := (hstays.throughout.after hrun).vars
    obtain ⟨a, ha, -⟩ := hvars.exists_resolve (hsource.mono hgrows)
    obtain ⟨b, hb, -⟩ := hvars.exists_resolve (htarget.mono hgrows)
    exact ⟨⟨a, ha⟩, b, hb⟩

/-- A reference to a reference is reborrowed through both, and the variable they end in is bound. -/
theorem History.serves_of_tryCoerce_twice : ∃ v s', History (Walk.Works .bare) v ∧
    tryCoerce ⟨0⟩ (.reference (.reference (.var (.ty 0)) .shared) .mut)
      (.reference (.int .u8) .shared) .bare v.current = .ok (true, s') ∧
    v.current.vars.BindsNoneToUnknown s'.vars ∧
    Ty.Serves (v.current.DerefFits .bare s'
        (.reference (.reference (.var (.ty 0)) .shared) .mut) (.reference (.int .u8) .shared))
      (.reference (.reference (.int .u8) .shared) .mut) (.reference (.int .u8) .shared) := by
  have hstart := History.atStart .bare
  obtain ⟨v, s', h, hrun, hsize, hvalue, hsource⟩ : ∃ v s', History (Walk.Works .bare) v ∧
      tryCoerce ⟨0⟩ (.reference (.reference (.var (.ty 0)) .shared) .mut)
        (.reference (.int .u8) .shared) .bare v.current = .ok (true, s') ∧
      s'.vars.tys.size = 1 ∧ s'.vars.valueOf (.ty 0) = .ok (some (.int .u8)) ∧
      s'.vars.resolve (.reference (.reference (.var (.ty 0)) .shared) .mut) =
        .ok (.reference (.reference (.int .u8) .shared) .mut) :=
    ⟨_, _, hstart.operate .freshTy rfl, rfl, rfl, rfl, rfl⟩
  have hunknown : v.current.vars.BindsNoneToUnknown s'.vars := by
    intro w hw
    rcases Vars.valueOf_cases hw with ⟨i, r, rfl, hr, -⟩ | ⟨_, _, -, hnumber⟩ | ⟨_, _, -, hnumber⟩
    · have hi : i < s'.vars.tys.size := Vars.has_of_rootVar (v := .ty i) (Vars.rootVar_ty.2 hr)
      obtain rfl : i = 0 := by omega
      rw [hvalue] at hw
      cases hw
    · cases hnumber
    · cases hnumber
  exact ⟨v, s', h, hrun, hunknown,
    (h.serves_of_tryCoerce hrun).1 rfl hunknown _ _ hsource rfl⟩

/-! ## Types that are settled -/

namespace Vars

variable {vs : Vars} {t : Ty}

/-- The type is resolved: of its variables nothing is known. -/
def Resolved (vs : Vars) (t : Ty) : Prop := ∀ v ∈ t.vars, vs.Open v

theorem Resolved.resolve (hs : vs.Sound) (h : vs.Resolved t) : vs.resolve t = .ok t := by
  have hground : vs.Grounded t := grounded_iff.2 fun v hv => grounded_of_unbound (h v hv).2
  obtain ⟨r, hr⟩ := (hs.resolve_settles .var t).exists_ok hground
  have hassign : t.assign (vs.extend .var) = t.assign .var :=
    Ty.assign_congr fun v hv => extend_of_open (h v hv)
  rw [Vars.resolve, hr, hs.resolve_eq hr, hassign, Ty.assign_var_self]

theorem Resolved.head (hs : vs.Sound) (h : vs.Resolved t) : vs.head t = .ok t := by
  rcases t.eq_var_or with ⟨v, rfl⟩ | hvar
  · exact hs.head_of_open (h v (by simp))
  · exact head_of_node hvar

theorem Resolved.exists_combine (hs : vs.Sound) (h : vs.Resolved t) :
    ∃ vs', combine t t vs = .ok (true, vs') := by
  rcases t.eq_var_or with ⟨v, rfl⟩ | hvar
  · have hopen : ∀ w, Ty.var v = .var w → vs.Open w := by
      rintro _ ⟨⟩
      exact h v (by simp)
    have hhead := hs.head_of_open (hopen v rfl)
    show ∃ vs', followWithin (pure .unknown) (vs.tys.size + 1) v (.var v) vs = .ok (true, vs')
    rw [followWithin_succ, followWith_of_var _ hhead, hhead, Except.ok_bind]
    refine Vars.exists_combineVar hs (hopen v rfl) hopen ?_ fun _ => by cases v <;> rfl
    rintro i rfl hvar
    cases hvar
  · exact ⟨vs, combine_same hvar hvar t.same_refl⟩

end Vars

namespace Infer

variable {scope : Scope} {s s' : State} {id : ExprId} {t u r : Ty}

theorem settlePending_settled (hs : s.WellFormed) (h : settlePending scope s = .ok ((), s')) :
    settlePending scope s' = .ok ((), s') := by
  obtain ⟨b, hsettle⟩ := settlePending_eq_ok hs h
  have hdefers : State.Defers { s' with pending := [] } s' := ⟨rfl, fun _ h => h⟩
  refine settlePending_of_blocked ?_ ?_
  · exact fun o ho => ((settleWithin_eq_ok hsettle).2 o ho).defers hdefers
  · intro hrounds
    rw [hrounds] at hsettle
    cases hsettle

theorem resolved_of_resolveSettled (h : resolveSettled t scope s = .ok (r, s')) :
    s'.vars.Resolved r := by
  obtain ⟨u, s₁, hread, hrest⟩ := bind_eq_ok h
  obtain ⟨hu, rfl⟩ := readVars_eq_ok hread
  by_cases hvar : u.hasVar = true
  · rw [if_pos hvar] at hrest
    obtain ⟨_, s₂, -, hread'⟩ := bind_eq_ok hrest
    obtain ⟨hr, rfl⟩ := readVars_eq_ok hread'
    exact fun v hv => Vars.isOpen_of_mem_resolve hr hv
  · rw [if_neg hvar] at hrest
    cases hrest
    exact fun v hv => Vars.isOpen_of_mem_resolve hu hv

theorem resolveSettled_settled (hs : s.WellFormed) (h : resolveSettled t scope s = .ok (r, s'))
    (hu : u.vars ⊆ r.vars) : resolveSettled u scope s' = .ok (u, s') := by
  have hresolved : s'.vars.Resolved u := fun v hv => resolved_of_resolveSettled h v (hu hv)
  have hs' := ((Regular.resolveSettled.quiet hs h).1.spec hs).1.vars
  have hread : resolve u scope s' = .ok (u, s') :=
    readVars_of_ok (hresolved.resolve hs')
  refine ok_then hread ?_
  by_cases hvar : u.hasVar = true
  · rw [if_pos hvar]
    obtain ⟨t', s₁, hread', hrest⟩ := bind_eq_ok h
    obtain ⟨-, rfl⟩ := readVars_eq_ok hread'
    -- A variable is left, so the obligations have been settled.
    by_cases hvar' : t'.hasVar = true
    · rw [if_pos hvar'] at hrest
      obtain ⟨_, s₂, hsettle, hread''⟩ := bind_eq_ok hrest
      obtain ⟨-, rfl⟩ := readVars_eq_ok hread''
      exact ok_then (settlePending_settled hs hsettle) hread
    · rw [if_neg hvar'] at hrest
      cases hrest
      have hnone := Ty.hasVar_eq_false_iff.1 (Bool.eq_false_iff.2 hvar')
      have hempty : u.vars = [] := List.subset_nil.1 (hnone ▸ hu)
      rw [Ty.hasVar_eq_false_iff.2 hempty] at hvar
      cases hvar
  · rw [if_neg hvar]
    rfl

/-! ## Conversion to the same type -/

section

variable {p : Ty} {m : Mutability} {k : Region}

/-- The dereferences of a reference that is settled start with the reference and its pointee, as far
as there is room. -/
theorem derefFrom_settled {room : Nat} (hp : resolveSettled p scope s = .ok (p, s)) :
    derefFrom (room + 1) [] (.ref p m k) scope s = derefFrom room [.ref p m k] p scope s := by
  have hautoderef : autoderef (.ref p m k) scope s = .ok (some p, s) :=
    (bind_of_ok (a := some p) rfl).trans (ok_then hp rfl)
  rw [derefFrom]
  exact bind_of_ok hautoderef

theorem reborrow_self_of_lt (hlimit : scope.config.autoderefLimit < 2)
    (hr : resolveSettled (.ref p m k) scope s = .ok (.ref p m k, s))
    (hp : resolveSettled p scope s = .ok (p, s)) :
    reborrow id (.ref p m k) p m scope s = .ok (false, s) := by
  have hseq : ∃ seq, derefSequence (.ref p m k) scope s = .ok (seq, s) ∧ seq.drop 1 = [] := by
    obtain hzero | hone : scope.config.autoderefLimit = 0 ∨ scope.config.autoderefLimit = 1 := by
      omega
    · have hfrom : derefFrom scope.config.autoderefLimit [] (.ref p m k) scope s = .ok ([], s) := by
        rw [hzero]
        rfl
      exact ⟨[], ok_then hr (ok_then rfl (bind_of_ok hfrom)), rfl⟩
    · have hfrom : derefFrom scope.config.autoderefLimit [] (.ref p m k) scope s =
          .ok ([.ref p m k], s) := by
        rw [hone]
        exact derefFrom_settled hp
      exact ⟨[.ref p m k], ok_then hr (ok_then rfl (bind_of_ok hfrom)), rfl⟩
  obtain ⟨seq, hseq, hdrop⟩ := hseq
  refine ok_then hseq ?_
  rw [hdrop]
  rfl

theorem reborrow_self {seq : List Ty} (hs : s.WellFormed) (hlimit : 2 ≤ scope.config.autoderefLimit)
    (hr : resolveSettled (.ref p m k) scope s = .ok (.ref p m k, s))
    (hp : resolveSettled p scope s = .ok (p, s))
    (hseq : derefSequence (.ref p m k) scope s = .ok (seq, s')) :
    reborrow id (.ref p m k) p m scope s = .ok (true, s'.opened.commit) := by
  obtain ⟨rest, rfl⟩ : ∃ rest, seq = .ref p m k :: p :: rest := by
    obtain ⟨_, _, out, hr', hfrom, hout⟩ := derefSequence_eq_ok hseq
    rw [hr] at hr'
    cases hr'
    obtain ⟨room, hroom⟩ := Nat.exists_eq_add_of_le' hlimit
    rw [hroom, derefFrom_settled hp] at hfrom
    have hnew : [Ty.ref p m k].any (· == p) = false := by
      rw [List.any_cons, List.any_nil, Bool.or_false]
      exact same_ref_eq_false hs.vars (.refl p)
    obtain ⟨rest, rfl⟩ := (isPrefix_derefFrom_succ hnew hfrom).trans hout.isPrefix
    exact ⟨rest, rfl⟩
  have hcombine : combineIfOk (.reference p m) (.reference p m) scope s' =
      .ok (true, s'.opened.commit) :=
    ok_then rfl (ok_then (combine_same rfl rfl (Ty.same_refl _)) rfl)
  refine ok_then hseq ?_
  show reborrowFrom id _ p m 1 (p :: rest) scope s' = _
  rw [reborrowFrom]
  exact ok_then hcombine rfl

theorem vars_subset_ref : p.vars ⊆ (Ty.ref p m k).vars := fun _ hv =>
  (Ty.mem_vars_iff rfl).2 ⟨p, List.mem_singleton_self p, hv⟩

theorem head_resolved (hs : s.vars.Sound) (h : s.vars.Resolved t) : head t scope s = .ok (t, s) :=
  readVars_of_ok (h.head hs)

theorem tryCoerce_self_ref (hs : s.vars.Sound) (h : s.vars.Resolved (.ref p m k)) :
    tryCoerce id (.ref p m k) (.ref p m k) scope s = reborrow id (.ref p m k) p m scope s := by
  have hp : head p scope s = .ok (p, s) := head_resolved hs fun v hv => h v (vars_subset_ref hv)
  have hr : head (.ref p m k) scope s = .ok (.ref p m k, s) := head_resolved hs h
  refine ok_then hr (ok_then hr ?_)
  dsimp only
  rw [if_pos (borrowServes_iff.2 (.inl rfl))]
  refine ok_then hp (ok_then hp ?_)
  cases p <;> rfl

theorem tryCoerce_self_of_ne_ref (hs : s.vars.Sound) (h : s.vars.Resolved r)
    (href : ∀ p m k, r ≠ .ref p m k) :
    ∃ vars, tryCoerce id r r scope s = .ok (true, { s with vars }) := by
  obtain ⟨vars, hcombine⟩ := h.exists_combine hs
  have hr : head r scope s = .ok (r, s) := head_resolved hs h
  refine ⟨vars, ok_then hr (ok_then hr ?_)⟩
  cases r with
  | ref p m k => exact absurd rfl (href p m k)
  | ptr p m => cases m <;> exact combine_run hcombine
  | _ => exact combine_run hcombine

end

theorem coerce_self_eq (hs : s.WellFormed) (h : resolveSettled t scope s = .ok (r, s')) :
    coerce id t t scope s = (do
      let ok ← tryCoerce id r r
      unless ok do reportMismatch (.expr id) r r
      return ok : Infer Bool) scope s' := by
  have halike : s'.vars.Alike t r := alike_resolveSettled hs h (.refl _)
  have hs' := ((Regular.resolveSettled.quiet hs h).1.spec hs).1
  have hagain := resolveSettled_settled hs h (List.Subset.refl r.vars)
  -- What is left of the type is what was left of it before.
  have hsecond : resolveSettled t scope s' = .ok (r, s') := by
    obtain ⟨u, s₁, hread, hrest⟩ := bind_eq_ok hagain
    obtain ⟨hu, rfl⟩ := readVars_eq_ok hread
    have hread' : resolve t scope s₁ = .ok (u, s₁) :=
      readVars_of_ok (halike.symm.resolveNode_eq hs'.vars hu)
    exact ok_then hread' hrest
  exact ok_then h (bind_of_ok hsecond)

end Infer

/-- Whatever was done before, the value of an expression is converted to the type it has, silently
and without a trace. If the type is a reference, this takes that dereference sequences may have two
types. If they may not, the reference does not do for itself, and a mismatch is reported. -/
theorem History.coerce_self {scope : Scope} {v : Versions State Mark}
    (h : History (Walk.Works scope) v) (id : ExprId) {t r : Ty} {s : State}
    (hresolve : resolveSettled t scope v.current = .ok (r, s)) :
    (((∃ p m k, r = .ref p m k) →
        2 ≤ scope.config.autoderefLimit ∧ ∃ seq s', derefSequence r scope s = .ok (seq, s')) →
      ∃ s', coerce id t t scope v.current = .ok (true, s') ∧
        s'.diagnostics = v.current.diagnostics ∧ s'.adjustments = v.current.adjustments) ∧
    ((∃ p m k, r = .ref p m k) → scope.config.autoderefLimit < 2 →
      coerce id t t scope v.current =
        (do reportMismatch (.expr id) r r; return false : Infer Bool) scope s) := by
  have hs := h.wellFormed
  obtain ⟨hev, hquiet⟩ := Regular.resolveSettled.quiet hs hresolve
  have hkept := Regular.resolveSettled.keeps_adjustments hs hresolve
  have hs' := (hev.spec hs).1
  have hresolved := resolved_of_resolveSettled hresolve
  rw [coerce_self_eq hs hresolve]
  by_cases href : ∃ p m k, r = .ref p m k
  · obtain ⟨p, m, k, rfl⟩ := href
    have hr := resolveSettled_settled hs hresolve (List.Subset.refl _)
    have hp := resolveSettled_settled hs hresolve vars_subset_ref
    have htry : tryCoerce id (.ref p m k) (.ref p m k) scope s = _ :=
      tryCoerce_self_ref hs'.vars hresolved
    refine ⟨fun hroom => ?_, fun _ hlimit => ?_⟩
    · obtain ⟨hlimit, seq, s', hseq⟩ := hroom ⟨p, m, k, rfl⟩
      have hrun := htry.trans (reborrow_self hs' hlimit hr hp hseq)
      refine ⟨_, ok_then hrun rfl, ?_, ?_⟩
      · exact ((Regular.derefSequence.quiet hs' hseq).2.diagnostics).trans hquiet.diagnostics
      · exact (Regular.derefSequence.keeps_adjustments hs' hseq).trans hkept
    · exact bind_of_ok (htry.trans (reborrow_self_of_lt hlimit hr hp))
  · refine ⟨fun _ => ?_, fun hsome => absurd hsome href⟩
    obtain ⟨vars, hrun⟩ : ∃ vars, tryCoerce id r r scope s = .ok (true, { s with vars }) :=
      tryCoerce_self_of_ne_ref hs'.vars hresolved fun p m k heq => href ⟨p, m, k, heq⟩
    exact ⟨_, ok_then hrun rfl, hquiet.diagnostics, hkept⟩

/-- References to a variable of which nothing is known. -/
theorem History.coerce_self_var : ∃ v s', History (Walk.Works .bare) v ∧
    coerce ⟨0⟩ (.reference (.var (.ty 0)) .shared) (.reference (.var (.ty 0)) .shared) .bare
      v.current = .ok (true, s') ∧ s'.diagnostics = [] ∧ s'.adjustments = ∅ := by
  have hstart := History.atStart .bare
  obtain ⟨v, h, hresolve, hseq, hreports, hkept⟩ : ∃ v, History (Walk.Works .bare) v ∧
      resolveSettled (.reference (.var (.ty 0)) .shared) .bare v.current =
        .ok (.reference (.var (.ty 0)) .shared, v.current) ∧
      (∃ seq s', derefSequence (.reference (.var (.ty 0)) .shared) .bare v.current =
        .ok (seq, s')) ∧ v.current.diagnostics = [] ∧ v.current.adjustments = ∅ :=
    ⟨_, hstart.operate .freshTy rfl, rfl, ⟨_, _, rfl⟩, rfl,
      rfl⟩
  obtain ⟨s', hrun, hdiagnostics, hadjustments⟩ :=
    (h.coerce_self ⟨0⟩ hresolve).1 fun _ => ⟨by decide, hseq⟩
  exact ⟨v, s', h, hrun, hdiagnostics.trans hreports, hadjustments.trans hkept⟩

/-- If dereference sequences may not have two types, a reference does not do for itself. -/
theorem Infer.coerce_self_single :
    ∃ s', coerce ⟨0⟩ (.reference .bool .shared) (.reference .bool .shared)
      { Scope.bare with config := { autoderefLimit := 1 } } {} = .ok (false, s') ∧
      s'.diagnostics.length = 1 :=
  ⟨_, rfl, rfl⟩

end TypeInference
