import TypeInference.Proofs.ContainedWalks
import TypeInference.Proofs.OverloadedCalls

/-!
# Ambiguous method calls

The stages of method lookup are filters, and a stage is skipped when no choice is left. If several
candidates come out in the end, no stage was skipped.
-/

namespace TypeInference

open Infer

/-! ## What the stages ask -/

namespace Candidate

/-- The candidate is inherent, from a trait in scope, or from a bound. -/
def IsVisible (scope : Scope) (c : Candidate) : Prop :=
  ∀ id, c.source = .impl id → ∀ impl trait, scope.items.impl id = .ok impl →
    impl.trait? = some trait → trait ∈ scope.names.traitsInScope.getD scope.items.traitIds

/-- The where-clauses of the impl that the candidate is from may hold. -/
def MayHold (scope : Scope) (s : State) (c : Candidate) : Prop :=
  ∀ id, c.source = .impl id → implHolds id c.self scope s = .ok (true, s)

/-- The self parameter of the candidate is of this type. -/
def Accepts (scope : Scope) (s : State) (form : Ty) (c : Candidate) : Prop :=
  ∃ fn param ty, scope.items.function c.fn = .ok fn ∧ fn.selfParam = some param ∧
    s.vars.resolve (param.ty c.self) = .ok ty ∧ ty.same form = true

/-- The candidate is not dropped for the sake of others or for its where-clauses. -/
def IsEligible (scope : Scope) (s : State) (found : List Candidate) (c : Candidate) : Prop :=
  (c.IsVisible scope ∨ ∀ d ∈ found, ¬ d.IsVisible scope) ∧ c.MayHold scope s

end Candidate

/-- Of the forms in which a receiver may be passed this is the first that an eligible candidate
accepts. -/
def Infer.DecidesFor (scope : Scope) (s : State) (steps : List Ty) (found : List Candidate)
    (form : Ty) : Prop :=
  ∃ resolved before after, List.Forall₂ (fun t r => s.vars.resolve t = .ok r) steps resolved ∧
    resolved.flatMap receiverForms = before ++ form :: after ∧
    (∃ c ∈ found, c.IsEligible scope s found ∧ c.Accepts scope s form) ∧
    ∀ earlier ∈ before, ∀ c ∈ found, c.IsEligible scope s found → ¬ c.Accepts scope s earlier

/-- The candidate is eligible, and takes the receiver in the form that decides. -/
def Candidate.Survives (scope : Scope) (s : State) (steps : List Ty) (found : List Candidate)
    (c : Candidate) : Prop :=
  c.IsEligible scope s found ∧ ∃ form, DecidesFor scope s steps found form ∧ c.Accepts scope s form

namespace Infer

variable {α : Type} {scope : Scope} {s s' : State} {found left : List Candidate}
  {steps forms : List Ty} {c : Candidate}

/-- The candidates that are left after all stages. -/
def survivors (steps : List Ty) (cs : List Candidate) : Infer (List Candidate) := do
  let cs ← narrow keepVisible cs
  let cs ← narrow keepHolding cs
  narrow (keepAccepting steps) cs

theorem pick_of_survivors (h : survivors steps found scope s = .ok (left, s'))
    (hmany : 2 ≤ left.length) : pick steps found scope s = collapseCandidates left scope s' := by
  obtain ⟨visible, s₁, hvisible, hnext⟩ := bind_eq_ok h
  obtain ⟨holding, s₂, hholding, hlast⟩ := bind_eq_ok hnext
  refine ok_then hvisible (ok_then hholding (ok_then hlast ?_))
  rcases left with _ | ⟨first, _ | ⟨second, rest⟩⟩
  · simp at hmany
  · simp at hmany
  · rfl

open Classical in
/-- Filtering by probes is filtering by their answers. -/
theorem filterM_eq_ok {p : α → Infer Bool} (hp : ∀ a, Keeps scope (p a)) (hs : s.WellFormed)
    {xs ys : List α} (h : xs.filterM p scope s = .ok (ys, s')) :
    s' = s ∧ (∀ x ∈ xs, ∃ b, p x scope s = .ok (b, s)) ∧
      ys = xs.filter fun x => p x scope s = .ok (true, s) := by
  have hloop : ∀ acc zs s', xs.filterAuxM p acc scope s = .ok (zs, s') →
      s' = s ∧ (∀ x ∈ xs, ∃ b, p x scope s = .ok (b, s)) ∧
        zs.reverse = acc.reverse ++ xs.filter fun x => p x scope s = .ok (true, s) := by
    clear h
    induction xs with
    | nil =>
      intro acc zs s' h
      cases h
      exact ⟨rfl, by simp, by simp⟩
    | cons x xs ih =>
      intro acc zs s' h
      rw [List.filterAuxM] at h
      obtain ⟨b, s₁, hfirst, hrest⟩ := bind_eq_ok h
      obtain rfl := hp x hs hfirst
      obtain ⟨rfl, htests, hzs⟩ := ih _ _ _ hrest
      refine ⟨rfl, ?_, ?_⟩
      · intro y hy
        rcases List.mem_cons.1 hy with rfl | hy
        · exact ⟨b, hfirst⟩
        · exact htests y hy
      · rw [hzs, List.filter_cons, hfirst]
        cases b <;> simp
  obtain ⟨zs, s₁, haux, ⟨⟩⟩ := bind_eq_ok h
  obtain ⟨rfl, htests, hzs⟩ := hloop _ _ _ haux
  exact ⟨rfl, htests, by rw [hzs]; rfl⟩

/-! ## The stages -/

theorem isVisible_eq_ok {b : Bool}
    (h : isVisible (scope.names.traitsInScope.getD scope.items.traitIds) c scope s = .ok (b, s')) :
    b = true ↔ c.IsVisible scope := by
  obtain ⟨fn, self, derefCount, source⟩ := c
  cases source with
  | impl id =>
    obtain ⟨_, _, ⟨⟩, hnext⟩ := bind_eq_ok h
    obtain ⟨impl, _, hlift, hanswer⟩ := bind_eq_ok hnext
    obtain ⟨himpl, rfl⟩ := lift_eq_ok hlift
    cases htrait : impl.trait? with
    | none =>
      rw [htrait] at hanswer
      cases hanswer
      refine iff_of_true rfl fun id' hid impl' trait himpl' htrait' => ?_
      cases hid
      rw [himpl] at himpl'
      cases himpl'
      rw [htrait] at htrait'
      cases htrait'
    | some trait =>
      rw [htrait] at hanswer
      cases hanswer
      rw [List.contains_iff_mem]
      constructor
      · intro hmem id' hid impl' trait' himpl' htrait'
        cases hid
        rw [himpl] at himpl'
        cases himpl'
        rw [htrait] at htrait'
        cases htrait'
        exact hmem
      · exact fun hvisible => hvisible id rfl impl trait himpl htrait
  | _ =>
    cases h
    exact iff_of_true rfl fun id hid => by cases hid

open Classical in
/-- The first stage keeps the visible candidates, unless none is. -/
theorem keepVisible_eq_ok (hs : s.WellFormed) (h : keepVisible found scope s = .ok (left, s')) :
    s' = s ∧
      left = found.filter fun c => c.IsVisible scope ∨ ∀ d ∈ found, ¬ d.IsVisible scope := by
  obtain ⟨_, _, ⟨⟩, hnext⟩ := bind_eq_ok h
  obtain ⟨visible, s₁, hfilter, hlast⟩ := bind_eq_ok hnext
  obtain ⟨hstate, htests, hvisible⟩ := filterM_eq_ok (Keeps.isVisible _) hs hfilter
  have htest (c : Candidate) (hc : c ∈ found) :
      isVisible (scope.names.traitsInScope.getD scope.items.traitIds) c scope s = .ok (true, s) ↔
        c.IsVisible scope := by
    obtain ⟨b, hb⟩ := htests c hc
    rw [hb, ← isVisible_eq_ok hb]
    simp
  replace hvisible : visible = found.filter fun c => c.IsVisible scope := by
    rw [hvisible]
    exact List.filter_congr fun c hc => by simp [htest c hc]
  cases hlast
  refine ⟨hstate, ?_⟩
  by_cases hnone : ∀ d ∈ found, ¬ d.IsVisible scope
  · have hempty : visible = [] := by
      rw [hvisible, List.filter_eq_nil_iff]
      exact fun d hd => by simpa using hnone d hd
    rw [hempty, List.isEmpty_nil, if_pos rfl, List.filter_eq_self.2]
    exact fun c _ => decide_eq_true (.inr hnone)
  · have hsome : visible ≠ [] := by
      rw [hvisible, ne_eq, List.filter_eq_nil_iff]
      simpa using hnone
    rw [if_neg (by simpa using hsome), hvisible]
    exact List.filter_congr fun c _ => by simp only [hnone, or_false]

open Classical in
theorem keepHolding_eq_ok (hs : s.WellFormed) (h : keepHolding found scope s = .ok (left, s')) :
    s' = s ∧ left = found.filter fun c => c.MayHold scope s := by
  obtain ⟨hstate, -, hleft⟩ := filterM_eq_ok (fun c => by
    split
    · exact Keeps.implHolds
    · exact Keeps.pure _) hs h
  refine ⟨hstate, hleft.trans (List.filter_congr fun c _ => decide_eq_decide.2 ?_)⟩
  obtain ⟨fn, self, derefCount, source⟩ := c
  cases source with
  | impl id => simp [Candidate.MayHold]
  | _ => exact iff_of_true rfl fun id hid => by cases hid

/-- The self parameter of a candidate is the form that it accepts. -/
theorem selfParamTy_eq_ok {param : Option Ty} (h : selfParamTy c scope s = .ok (param, s')) :
    s' = s ∧ ∀ form, (param == some form) = true ↔ c.Accepts scope s form := by
  obtain ⟨_, _, ⟨⟩, hnext⟩ := bind_eq_ok h
  obtain ⟨fn, _, hlift, hparam⟩ := bind_eq_ok hnext
  obtain ⟨hfn, rfl⟩ := lift_eq_ok hlift
  cases hself : fn.selfParam with
  | none =>
    rw [hself] at hparam
    cases hparam
    refine ⟨rfl, fun form => iff_of_false (by simp) ?_⟩
    rintro ⟨fn', p, ty, hfn', hp, -⟩
    rw [hfn] at hfn'
    cases hfn'
    rw [hself] at hp
    cases hp
  | some p =>
    rw [hself] at hparam
    obtain ⟨ty, _, hresolve, hlast⟩ := bind_eq_ok hparam
    obtain ⟨hty, rfl⟩ := readVars_eq_ok hresolve
    cases hlast
    refine ⟨rfl, fun form => ⟨fun hsame => ⟨fn, p, ty, hfn, hself, hty, hsame⟩, ?_⟩⟩
    rintro ⟨fn', p', ty', hfn', hp, hty', hsame⟩
    rw [hfn] at hfn'
    cases hfn'
    rw [hself] at hp
    cases hp
    rw [hty] at hty'
    cases hty'
    exact hsame

/-- If a form is accepted at all, the candidates that accept the first such form are kept. -/
theorem firstAccepted_eq {cs : List (Candidate × Option Ty)} (h : firstAccepted cs forms ≠ []) :
    ∃ before form after, forms = before ++ form :: after ∧
      (∀ earlier ∈ before, ∀ c ∈ cs, ¬ (c.2 == some earlier) = true) ∧
      firstAccepted cs forms = (cs.filter fun c => c.2 == some form).map (·.1) := by
  induction forms with
  | nil => exact absurd rfl h
  | cons form forms ih =>
    rw [firstAccepted] at h ⊢
    by_cases hempty : (cs.filter fun c => c.2 == some form) = []
    · rw [hempty, List.isEmpty_nil, if_pos rfl] at h ⊢
      obtain ⟨before, next, after, rfl, hbefore, heq⟩ := ih h
      refine ⟨form :: before, next, after, rfl, fun earlier hmem c hc => ?_, heq⟩
      rcases List.mem_cons.1 hmem with rfl | hmem
      · exact List.filter_eq_nil_iff.1 hempty c hc
      · exact hbefore earlier hmem c hc
    · rw [if_neg (by simpa using hempty)]
      exact ⟨[], form, forms, rfl, by simp, rfl⟩

open Classical in
theorem filter_zip_params {params : List (Option Ty)}
    (h : List.Forall₂ (fun c param => ∀ form, (param == some form) = true ↔ c.Accepts scope s form)
      found params) (form : Ty) :
    ((found.zip params).filter fun c => c.2 == some form).map (·.1) =
      found.filter fun c => c.Accepts scope s form := by
  induction h with
  | nil => rfl
  | @cons c param found params hparam _ ih =>
    have htest : (param == some form) = decide (c.Accepts scope s form) := by
      rw [Bool.eq_iff_iff, hparam form, decide_eq_true_iff]
    rw [List.zip_cons_cons, List.filter_cons, List.filter_cons, htest]
    split
    · rw [List.map_cons, ih]
    · exact ih

open Classical in
/-- The last stage keeps the candidates that accept the first form that any of them accepts. -/
theorem keepAccepting_eq_ok (h : keepAccepting steps found scope s = .ok (left, s'))
    (hleft : left ≠ []) :
    s' = s ∧ ∃ resolved before form after,
      List.Forall₂ (fun t r => s.vars.resolve t = .ok r) steps resolved ∧
      resolved.flatMap receiverForms = before ++ form :: after ∧
      (∀ earlier ∈ before, ∀ c ∈ found, ¬ c.Accepts scope s earlier) ∧
      left = found.filter fun c => c.Accepts scope s form := by
  obtain ⟨params, s₁, hparams, hnext⟩ := bind_eq_ok h
  obtain ⟨rfl, htests⟩ := mapM_eq_ok (fun _ _ _ => selfParamTy_eq_ok) hparams
  have hresolve (t r : Ty) (s' : State) (h : resolve t scope s₁ = .ok (r, s')) :
      s' = s₁ ∧ s₁.vars.resolve t = .ok r := (readVars_eq_ok h).symm
  obtain ⟨resolved, s₂, hresolved, hlast⟩ := bind_eq_ok hnext
  obtain ⟨rfl, hforms⟩ := mapM_eq_ok hresolve hresolved
  cases hlast
  obtain ⟨before, form, after, heq, hbefore, hkept⟩ := firstAccepted_eq hleft
  refine ⟨rfl, resolved, before, form, after, hforms, heq, fun earlier hmem c hc haccepts => ?_,
    hkept.trans (filter_zip_params htests form)⟩
  have hkeeps : c ∈ ((found.zip params).filter fun c => c.2 == some earlier).map (·.1) := by
    rw [filter_zip_params htests]
    exact List.mem_filter.2 ⟨hc, decide_eq_true haccepts⟩
  obtain ⟨pair, hpair, -⟩ := List.mem_map.1 hkeeps
  obtain ⟨hpair, htest⟩ := List.mem_filter.1 hpair
  exact hbefore earlier hmem pair hpair htest

/-! ## All stages -/

theorem narrow_eq_ok {stage : List Candidate → Infer (List Candidate)}
    (h : narrow stage found scope s = .ok (left, s')) (hmany : 2 ≤ left.length) :
    stage found scope s = .ok (left, s') := by
  unfold narrow at h
  split at h
  · exact h
  · cases h
    omega

/-- Only one form of the receiver can decide. -/
theorem DecidesFor.unique {form form' : Ty} (h : DecidesFor scope s steps found form)
    (h' : DecidesFor scope s steps found form') : form = form' := by
  obtain ⟨resolved, before, after, hresolved, hforms, ⟨c, hc, heligible, haccepts⟩, hbefore⟩ := h
  obtain ⟨resolved', before', after', hresolved', hforms', ⟨d, hd, heligible', haccepts'⟩, hbefore'⟩ :=
    h'
  have hsame : resolved = resolved' := by
    clear hforms hforms' hbefore hbefore'
    induction hresolved generalizing resolved' with
    | nil => cases hresolved'; rfl
    | cons hfirst _ ih =>
      cases hresolved' with
      | cons hfirst' hrest' =>
        rw [hfirst] at hfirst'
        cases hfirst'
        rw [ih _ hrest']
  subst hsame
  rw [hforms] at hforms'
  rcases List.append_eq_append_iff.1 hforms' with ⟨_ | ⟨x, xs⟩, hbefore₂, hafter⟩ |
    ⟨_ | ⟨x, xs⟩, hbefore₂, hafter⟩
  · exact (List.cons.inj hafter).1
  · obtain ⟨rfl, -⟩ := List.cons.inj hafter
    exact absurd haccepts (hbefore' form (by simp [hbefore₂]) c hc heligible)
  · exact (List.cons.inj hafter).1.symm
  · obtain ⟨rfl, -⟩ := List.cons.inj hafter
    exact absurd haccepts' (hbefore form' (by simp [hbefore₂]) d hd heligible')

open Classical in
/-- If several candidates are left, they are those that pass every stage. -/
theorem survivors_eq_filter (hs : s.WellFormed)
    (h : survivors steps found scope s = .ok (left, s')) (hmany : 2 ≤ left.length) :
    s' = s ∧ left = found.filter fun c => c.Survives scope s steps found := by
  obtain ⟨visible, s₁, hvisible, hnext⟩ := bind_eq_ok h
  obtain ⟨holding, s₂, hholding, hlast⟩ := bind_eq_ok hnext
  -- each stage only takes candidates away, so none of them was skipped
  have hleft : left ≠ [] := List.ne_nil_of_length_pos (by omega)
  obtain ⟨rfl, resolved, before, form, after, hresolved, hforms, hbefore, haccepting⟩ :=
    keepAccepting_eq_ok (narrow_eq_ok hlast hmany) hleft
  have hmany₂ : 2 ≤ holding.length := hmany.trans (haccepting ▸ List.length_filter_le ..)
  have hstate₁ := Keeps.narrow Keeps.keepVisible hs hvisible
  subst hstate₁
  obtain ⟨rfl, hholds⟩ := keepHolding_eq_ok hs (narrow_eq_ok hholding hmany₂)
  have hmany₁ : 2 ≤ visible.length := hmany₂.trans (hholds ▸ List.length_filter_le ..)
  obtain ⟨-, hvisible⟩ := keepVisible_eq_ok hs (narrow_eq_ok hvisible hmany₁)
  have heligible : holding = found.filter fun c => c.IsEligible scope s' found := by
    rw [hholds, hvisible, List.filter_filter]
    exact List.filter_congr fun c _ => by
      rw [Candidate.IsEligible, Bool.decide_and, Bool.and_comm]
  have hdecides : DecidesFor scope s' steps found form := by
    obtain ⟨c, hc⟩ := List.exists_mem_of_ne_nil _ hleft
    rw [haccepting, heligible, List.mem_filter, List.mem_filter] at hc
    refine ⟨resolved, before, after, hresolved, hforms,
      ⟨c, hc.1.1, of_decide_eq_true hc.1.2, of_decide_eq_true hc.2⟩, fun earlier hmem c hc hc' => ?_⟩
    refine hbefore earlier hmem c ?_
    rw [heligible]
    exact List.mem_filter.2 ⟨hc, decide_eq_true hc'⟩
  refine ⟨rfl, ?_⟩
  rw [haccepting, heligible, List.filter_filter]
  refine List.filter_congr fun c _ => ?_
  rw [← Bool.decide_and, decide_eq_decide]
  constructor
  · exact fun ⟨haccepts, hc⟩ => ⟨hc, form, hdecides, haccepts⟩
  · rintro ⟨hc, form', hdecides', haccepts⟩
    rw [hdecides.unique hdecides']
    exact ⟨haccepts, hc⟩

end Infer

/-! ## The call -/

/-- The receiver of a method call is inferred, and then what it dereferences to. -/
def Walk.receiverSteps (v : Visitor) (receiver : ExprId) : Walk (List Ty) := do
  let receiverTy ← resolveSettled (← v.free receiver)
  derefSequence receiverTy

namespace Walk

variable {scope : Scope} {w w₁ : WalkState} {σ σ₁ : SessionState} {v : Visitor}
  {id receiver : ExprId} {method : String} {genericArgs : List Ty} {args : List ExprId}
  {expected : Option Ty} {steps : List Ty} {found rest : List Candidate} {first : Candidate}

theorem receiverSteps_wellFormed {const : ConstId → SessionM Ty} {n : Nat} (hs : w.toState.WellFormed)
    (h : (receiverSteps (visitor const n) receiver).go scope w σ = (.ok (steps, w₁), σ₁)) :
    w₁.toState.WellFormed := by
  obtain ⟨ty, w₂, σ₂, hreceiver, hnext⟩ := bind_eq_ok h
  have hs₂ := ((Works.expr hreceiver).evolves hs |>.spec hs).1
  obtain ⟨receiverTy, w₃, σ₃, hresolved, hderefs⟩ := bind_eq_ok hnext
  obtain ⟨s₃, hresolve, rfl⟩ := lift_eq_ok hresolved
  have hs₃ := ((Regular.resolveSettled.quiet hs₂ hresolve).1.spec hs₂).1
  obtain ⟨s₄, hderef, rfl⟩ := lift_eq_ok hderefs
  exact ((Regular.derefSequence.quiet hs₃ hderef).1.spec hs₃).1

/-- Where no candidate is picked, the call records all of them and goes on with the first. -/
theorem methodCall_of_none
    (hsteps : (receiverSteps v receiver).go scope w σ = (.ok (steps, w₁), σ₁))
    (hfound : candidates steps method scope w₁.toState = .ok (first :: rest, w₁.toState))
    (hpick : pick steps (first :: rest) scope w₁.toState = .ok (none, w₁.toState)) :
    (methodCall v id receiver method genericArgs args expected).go scope w σ =
      (callMethod v id receiver steps first genericArgs args expected).go scope
        { w₁ with methods := w₁.methods.insert id.index ((first :: rest).map (·.resolution)) } σ₁ := by
  obtain ⟨ty, w₂, σ₂, hreceiver, hnext⟩ := bind_eq_ok hsteps
  obtain ⟨receiverTy, w₃, σ₃, hresolved, hderefs⟩ := bind_eq_ok hnext
  refine ok_then hreceiver (ok_then hresolved (ok_then hderefs ?_))
  refine ok_then (lift_of_ok hfound) (ok_then (lift_of_ok hpick) ?_)
  exact ok_then (lift_of_ok rfl) rfl

end Walk

open Classical in
/-- A method call of which several candidates survive that do not collapse to one trait, at any time
of an inference. The survivors are the visible candidates (all, if none is) whose where-clauses may
hold and that accept the first form of the receiver that any of these accepts. But the call is
recorded with all candidates that were found, and goes on with the first of those. So the record is
that of the survivors only if nothing was dropped, and the method used is the first survivor only if
the first candidate was not dropped. -/
theorem History.ambiguous_call_records_found {scope : Scope} {versions : Versions State Mark}
    (h : History (Walk.Works scope) versions) {w w₁ : WalkState}
    (hw : w.toState = versions.current) {σ σ₁ : SessionState} {const : ConstId → SessionM Ty}
    {n : Nat} {id receiver : ExprId} {method : String} {genericArgs : List Ty} {args : List ExprId}
    {expected : Option Ty} {steps : List Ty} {found left : List Candidate} {s s' s'' : State}
    (hsteps : (Walk.receiverSteps (Walk.visitor const n) receiver).go scope w σ =
      (.ok (steps, w₁), σ₁))
    (hfound : candidates steps method scope w₁.toState = .ok (found, s))
    (hleft : survivors steps found scope w₁.toState = .ok (left, s'))
    (hmany : 2 ≤ left.length)
    (hcollapse : collapseCandidates left scope w₁.toState = .ok (none, s'')) :
    left = found.filter (fun c => c.Survives scope w₁.toState steps found) ∧
    ∃ first, found.head? = some first ∧
      (Walk.methodCall (Walk.visitor const n) id receiver method genericArgs args expected).go
          scope w σ =
        (Walk.callMethod (Walk.visitor const n) id receiver steps first genericArgs args expected).go
          scope { w₁ with methods := w₁.methods.insert id.index (found.map (·.resolution)) } σ₁ ∧
      (found.map (·.resolution) = left.map (·.resolution) ↔
        ∀ c ∈ found, c.Survives scope w₁.toState steps found) ∧
      (left.head? = some first ↔ first.Survives scope w₁.toState steps found) := by
  have hs := Walk.receiverSteps_wellFormed (hw ▸ h.wellFormed) hsteps
  cases Keeps.candidates hs hfound
  cases Keeps.collapseCandidates _ hs hcollapse
  obtain ⟨rfl, hfilter⟩ := survivors_eq_filter hs hleft hmany
  have hpick := (pick_of_survivors hleft hmany).trans hcollapse
  refine ⟨hfilter, ?_⟩
  rcases found with _ | ⟨first, rest⟩
  · rw [hfilter] at hmany
    simp at hmany
  refine ⟨first, rfl, Walk.methodCall_of_none hsteps hfound hpick, ?_, ?_⟩
  · constructor
    · intro hrecord
      have hlength := congrArg List.length hrecord
      rw [List.length_map, List.length_map, hfilter] at hlength
      intro c hc
      exact of_decide_eq_true (List.length_filter_eq_length_iff.1 hlength.symm c hc)
    · intro hall
      rw [hfilter, List.filter_eq_self.2 fun c hc => decide_eq_true (hall c hc)]
  · rw [hfilter]
    constructor
    · intro hhead
      exact of_decide_eq_true (List.mem_filter.1 (List.mem_of_head? hhead)).2
    · intro hfirst
      rw [List.filter_cons, if_pos (decide_eq_true hfirst), List.head?_cons]

/-! ## A number with four names -/

/-- Four traits with a method `name`. Bytes implement three of them, and everything that is `Named`
implements the other, but nothing is. -/
def Items.byteNames : Items := { Items.empty with
  paramNames := #["Self", "T"]
  functions := #[
    ⟨"name", .impl ⟨0⟩, .empty, some (.ref .shared), [], .char, false, true⟩,
    ⟨"name", .impl ⟨1⟩, .empty, some (.ref .shared), [], .str, false, true⟩,
    ⟨"name", .impl ⟨2⟩, .empty, some (.ref .shared), [], .bool, false, true⟩,
    ⟨"name", .impl ⟨3⟩, .empty, some (.ref .shared), [], .bool, false, true⟩,
    ⟨"main", .free, .empty, none, [], .unit, false, true⟩]
  traits := #[⟨"Hidden", .empty, []⟩, ⟨"Blanket", .empty, []⟩, ⟨"Short", .empty, []⟩,
    ⟨"Long", .empty, []⟩, ⟨"Named", .empty, []⟩]
  impls := #[
    ⟨.empty, some (⟨0⟩, []), .int .u8, []⟩,
    ⟨⟨[⟨1⟩], [⟨.param ⟨1⟩, ⟨⟨4⟩, [], []⟩⟩]⟩, some (⟨1⟩, []), .param ⟨1⟩, []⟩,
    ⟨.empty, some (⟨2⟩, []), .int .u8, []⟩,
    ⟨.empty, some (⟨3⟩, []), .int .u8, []⟩] }

/-- The body `{ 1u8.name(); }`. -/
def Body.byteNames : Body := .ofNodes
  [.literal (.int (some .u8)), .methodCall ⟨0⟩ "name" [] [], .block .plain none [.expr ⟨1⟩] none]
  [] []

/-- The first of the traits is not in scope. -/
def Names.byteNames : Names := { Names.empty with traitsInScope := some [⟨1⟩, ⟨2⟩, ⟨3⟩] }

def Session.byteNames : Session where
  program := { items := .byteNames, known := {}, bodies := [(.function ⟨4⟩, .byteNames, .byteNames)] }

def Scope.byteNames : Scope :=
  Session.byteNames.scope (.function ⟨4⟩) .byteNames .byteNames .empty

/-- The first candidate is not visible and the second does not hold, but all four are recorded, and
the call goes on with the first. -/
theorem History.ambiguous_call_records_found_byteNames : ∃ (versions : Versions State Mark)
    (const : ConstId → SessionM Ty) (w₁ : WalkState) (σ₁ : SessionState) (steps : List Ty)
    (found left : List Candidate) (first : Candidate),
    History (Walk.Works Scope.byteNames) versions ∧
    found.map (·.fn) = [⟨0⟩, ⟨1⟩, ⟨2⟩, ⟨3⟩] ∧ left.map (·.fn) = [⟨2⟩, ⟨3⟩] ∧ first.fn = ⟨0⟩ ∧
    (Walk.methodCall (Walk.visitor const 1) ⟨1⟩ ⟨0⟩ "name" [] [] none).go .byteNames
        { toState := versions.current } {} =
      (Walk.callMethod (Walk.visitor const 1) ⟨1⟩ ⟨0⟩ steps first [] [] none).go .byteNames
        { w₁ with methods := w₁.methods.insert 1 (found.map (·.resolution)) } σ₁ ∧
    ¬ first.Survives Scope.byteNames w₁.toState steps found := by
  let const : ConstId → SessionM Ty := fun _ => pure .unknown
  let stages (steps : List Ty) : Infer (List FnId × List FnId × Bool) := do
    let found ← candidates steps "name"
    let left ← survivors steps found
    let collapsed ← collapseCandidates left
    return (found.map (·.fn), left.map (·.fn), collapsed.isNone)
  let lookUp : Walk (List FnId × List FnId × Bool) := do
    let steps ← Walk.receiverSteps (Walk.visitor const 1) ⟨0⟩
    stages steps
  have hok : (lookUp.go .byteNames {} {}).1.toOption.map (·.1) =
      some ([⟨0⟩, ⟨1⟩, ⟨2⟩, ⟨3⟩], [⟨2⟩, ⟨3⟩], true) := by
    decide +kernel
  obtain ⟨⟨answer, w'⟩, σ', hrun, hok⟩ := Except.exists_ok_of_fst hok
  have h : History (Walk.Works Scope.byteNames) { current := {} } := .start
  obtain ⟨steps, w₁, σ₁, hsteps, hlifted⟩ := Walk.bind_eq_ok hrun
  have hs := Walk.receiverSteps_wellFormed h.wellFormed hsteps
  obtain ⟨s', hstages, rfl⟩ := Walk.lift_eq_ok hlifted
  obtain ⟨found, s₂, hfound, hnext⟩ := bind_eq_ok hstages
  obtain rfl := Keeps.candidates hs hfound
  obtain ⟨left, s₃, hleft, hnext⟩ := bind_eq_ok hnext
  obtain ⟨collapsed, s₄, hcollapse, ⟨⟩⟩ := bind_eq_ok hnext
  obtain ⟨hfn, hrest⟩ := Prod.mk.inj hok
  obtain ⟨hfns, hnone⟩ := Prod.mk.inj hrest
  have hmany : 2 ≤ left.length := by
    have hlength := congrArg List.length hfns
    rw [List.length_map] at hlength
    exact hlength.ge
  obtain ⟨rfl, -⟩ := survivors_eq_filter hs hleft hmany
  cases Option.isNone_iff_eq_none.1 hnone
  obtain ⟨-, first, hfirst, hcall, -, hhead⟩ :=
    h.ambiguous_call_records_found rfl hsteps hfound hleft hmany hcollapse
  have hfirstFn : some first.fn = some ⟨0⟩ := by
    rw [← Option.map_some, ← hfirst, ← List.head?_map, hfn, List.head?_cons]
  refine ⟨_, const, w₁, σ₁, steps, found, left, first, h, hfn, hfns, Option.some.inj hfirstFn, hcall,
    fun hsurvives => ?_⟩
  have hsecond : some first.fn = some ⟨2⟩ := by
    rw [← Option.map_some, ← hhead.2 hsurvives, ← List.head?_map, hfns, List.head?_cons]
  rw [hfirstFn] at hsecond
  exact absurd hsecond (by decide)

/-- Of the methods `name` of a byte the last two survive. But the call is recorded with the other
two as well, and has the type that the first of these returns. -/
theorem Session.byteNames_records_dropped :
    (∃ left s, (candidates [.int .u8] "name" >>= survivors [.int .u8])
        Scope.byteNames {} = .ok (left, s) ∧ left.map (·.fn) = [⟨2⟩, ⟨3⟩]) ∧
    ∃ o σ' rs, byteNames.infer (.function ⟨4⟩) {} = (.ok o, σ') ∧ o.methods.get? 1 = some rs ∧
      rs.map (·.fn) = [⟨0⟩, ⟨1⟩, ⟨2⟩, ⟨3⟩] ∧ o.exprTypes.get? 1 = some .char := by
  constructor
  · have hok : ((candidates [.int .u8] "name" >>= survivors [.int .u8])
        Scope.byteNames {}).toOption.map (·.1.map (·.fn)) = some [⟨2⟩, ⟨3⟩] := by
      decide +kernel
    obtain ⟨⟨left, s⟩, hrun, hfns⟩ := Except.exists_ok_of_toOption hok
    exact ⟨left, s, hrun, hfns⟩
  · have hok : (byteNames.infer (.function ⟨4⟩) {}).1.toOption.map (fun o =>
        ((o.methods.get? 1).map (·.map (·.fn)), (o.exprTypes.get? 1).map (Ty.same .char))) =
          some (some [⟨0⟩, ⟨1⟩, ⟨2⟩, ⟨3⟩], some true) := by
      decide +kernel
    obtain ⟨o, σ', hrun, hok⟩ := Except.exists_ok_of_fst hok
    obtain ⟨hmethods, hty⟩ := Prod.mk.inj hok
    obtain ⟨rs, hrs, hfns⟩ := Option.map_eq_some_iff.1 hmethods
    obtain ⟨ty, hty, hsame⟩ := Option.map_eq_some_iff.1 hty
    obtain rfl : ty = .char := by
      cases ty with
      | char => rfl
      | _ => cases hsame
    exact ⟨o, σ', rs, hrun, hrs, hfns, hty⟩

end TypeInference
