import TypeInference.Proofs.AmbiguousCalls

/-!
# Receivers of method calls

The form in which a receiver is passed is decided twice. Method lookup keeps the candidates whose self
parameter is the first form that any of them accepts: a dereference of the receiver as it is, borrowed,
or borrowed mutably. Once a method is chosen the dereferences are gone through again, with nothing but
its self parameter, to record the conversions of the receiver.

Both come to the same form (`Infer.adjustReceiver_of_keepAccepting`), so that the conversions lead to
what made lookup keep the method.
-/

namespace TypeInference

/-- A dereference as it is passed: by value, or borrowed. -/
def Ty.passed (step : Ty) : Option Mutability → Ty
  | none => step
  | some m => step.reference m

namespace Infer

variable {scope : Scope} {s s' : State} {found kept : List Candidate} {c : Candidate}
  {self step form : Ty} {steps front back resolved before after : List Ty}
  {mode : Option Mutability} {borrow : List Adjustment} {receiver : ExprId}

/-- The order in which the forms of one dereference are tried. -/
def formRank : Option Mutability → Nat
  | none => 0
  | some .shared => 1
  | some .mut => 2

/-- Before a form that stands among those of the dereferences stand the forms of the dereferences
before, and some of its own dereference. -/
theorem exists_passed_of_forms {R : Ty → Ty → Prop} (hresolved : List.Forall₂ R steps resolved)
    (h : resolved.flatMap receiverForms = before ++ form :: after) :
    ∃ front t back step mode, steps = front ++ t :: back ∧ R t step ∧ form = step.passed mode ∧
      (∀ u ∈ front, ∃ earlier, R u earlier ∧ ∀ m, earlier.passed m ∈ before) ∧
      ∀ m, formRank m < formRank mode → step.passed m ∈ before := by
  induction hresolved generalizing before with
  | nil => simp at h
  | @cons t step ts resolved ht _ ih =>
    change step :: step.reference .shared :: step.reference .mut :: resolved.flatMap receiverForms =
      before ++ form :: after at h
    rcases before with _ | ⟨_, _ | ⟨_, _ | ⟨_, before⟩⟩⟩ <;>
      simp only [List.nil_append, List.cons_append, List.cons.injEq] at h
    · exact ⟨[], t, ts, step, none, rfl, ht, h.1.symm, nofun, fun m hm => by cases hm⟩
    · obtain ⟨rfl, rfl, -⟩ := h
      refine ⟨[], t, ts, step, some .shared, rfl, ht, rfl, nofun, fun m hm => ?_⟩
      rcases m with _ | _ | _ <;> simp_all [formRank, Ty.passed]
    · obtain ⟨rfl, rfl, rfl, -⟩ := h
      refine ⟨[], t, ts, step, some .mut, rfl, ht, rfl, nofun, fun m hm => ?_⟩
      rcases m with _ | _ | _ <;> simp_all [formRank, Ty.passed]
    · obtain ⟨rfl, rfl, rfl, h⟩ := h
      obtain ⟨front, u, back, step', mode, rfl, hu, hform, hfront, hmode⟩ := ih h
      refine ⟨t :: front, u, back, step', mode, rfl, hu, hform, List.forall_mem_cons.2 ⟨?_, ?_⟩, ?_⟩
      · refine ⟨step, ht, fun m => ?_⟩
        rcases m with _ | _ | _ <;> simp [Ty.passed]
      · intro v hv
        obtain ⟨earlier, hearlier, hforms⟩ := hfront v hv
        exact ⟨earlier, hearlier, fun m => by simp [hforms m]⟩
      · exact fun m hm => by simp [hmode m hm]

/-! ## Recording the conversions -/

/-- A dereference that is not of the type of the self parameter in any form is passed over. -/
theorem receiverBorrow?_eq_none (h : ∀ m, ¬ self.same (step.passed m) = true) :
    receiverBorrow? step self = none := by
  have hvalue : ¬ (step == self) = true := fun hsame => h none (Ty.same_symm hsame)
  rw [receiverBorrow?.eq_def, if_neg hvalue]
  split
  · next inner m r =>
    refine if_neg fun hinner : inner.same step = true => h (some m) ?_
    simpa [Ty.passed, Ty.reference, Ty.same] using hinner
  · rfl

/-- A dereference that is of the type of the self parameter when it is passed so needs the borrow
for that, and no other. -/
theorem receiverBorrow?_of_passed (h : self.same (step.passed mode) = true)
    (hfirst : mode ≠ none → ¬ self.same step = true) :
    receiverBorrow? step self = some (mode.map (.borrowRef self .erased)).toList := by
  cases mode with
  | none => exact if_pos (Ty.same_symm h)
  | some m =>
    have hvalue : ¬ (step == self) = true := fun hsame => hfirst nofun (Ty.same_symm hsame)
    rw [receiverBorrow?.eq_def, if_neg hvalue]
    cases self with
    | ref inner n r =>
      obtain ⟨rfl, hinner⟩ : n = m ∧ inner.same step = true := by
        simpa [Ty.passed, Ty.reference, Ty.same] using h
      exact if_pos hinner
    | _ => cases h

theorem adjustReceiverFrom_of_none
    (hfront : ∀ t ∈ front, ∃ r, s.vars.resolve t = .ok r ∧ receiverBorrow? r self = none)
    {t : Ty} (ht : s.vars.resolve t = .ok step) (hborrow : receiverBorrow? step self = some borrow)
    (depth : Nat) :
    adjustReceiverFrom receiver steps self depth (front ++ t :: back) scope s =
      adjust receiver (derefsTo steps (depth + front.length) ++ borrow) scope s := by
  have hresolve {t r : Ty} (hr : s.vars.resolve t = .ok r) : resolve t scope s = .ok (r, s) :=
    ok_then rfl (lift_of_ok hr)
  induction front generalizing depth with
  | nil =>
    refine ok_then (hresolve ht) ?_
    rw [hborrow]
    rfl
  | cons u front ih =>
    obtain ⟨⟨r, hr, hnone⟩, hfront⟩ := List.forall_mem_cons.1 hfront
    refine ok_then (hresolve hr) ?_
    rw [hnone, List.length_cons, ← Nat.add_assoc, Nat.add_right_comm]
    exact ih hfront (depth + 1)

/-! ## Lookup and conversions agree -/

open Classical in
/-- A candidate is kept for the first form that any candidate accepts. With its self parameter, the
conversions of the receiver are then the dereferences up to the one of that form, and the borrow that
makes the form from it. -/
theorem adjustReceiver_of_keepAccepting (h : keepAccepting steps found scope s = .ok (kept, s'))
    (hc : c ∈ kept) (receiver : ExprId) :
    s' = s ∧ ∃ i t step mode fn param self,
      steps[i]? = some t ∧ s.vars.resolve t = .ok step ∧
      scope.items.function c.fn = .ok fn ∧ fn.selfParam = some param ∧
      s.vars.resolve (param.ty c.self) = .ok self ∧ self.same (step.passed mode) = true ∧
      (∀ j u earlier m, steps[j]? = some u → s.vars.resolve u = .ok earlier →
        j < i ∨ j = i ∧ formRank m < formRank mode →
        ∀ d ∈ found, ¬ d.Accepts scope s (earlier.passed m)) ∧
      adjustReceiver receiver steps (param.ty c.self) scope s = .ok ((), { s with
        adjustments := s.adjustments.insert receiver.index
          ((s.adjustments.get? receiver.index).getD [] ++ (((steps.take (i + 1)).drop 1).map .deref ++
            (mode.map (.borrowRef self .erased)).toList)) }) := by
  obtain ⟨rfl, resolved, before, form, after, hresolved, hforms, hbefore, rfl⟩ :=
    keepAccepting_eq_ok h (List.ne_nil_of_mem hc)
  obtain ⟨hfound, haccepts⟩ := List.mem_filter.1 hc
  obtain ⟨fn, param, self, hfn, hparam, hself, hsame⟩ := of_decide_eq_true haccepts
  obtain ⟨front, t, back, step, mode, rfl, ht, rfl, hfront, hmode⟩ :=
    exists_passed_of_forms hresolved hforms
  -- What no candidate accepts is not of the type of the self parameter.
  have hother {form : Ty} (hform : form ∈ before) : ¬ self.same form = true := fun hsame =>
    hbefore form hform c hfound ⟨fn, param, self, hfn, hparam, hself, hsame⟩
  have hborrow : receiverBorrow? step self = some (mode.map (.borrowRef self .erased)).toList := by
    refine receiverBorrow?_of_passed hsame fun hborrowed => hother (hmode none ?_)
    rcases mode with _ | _ | _ <;> simp_all [formRank]
  refine ⟨rfl, front.length, t, step, mode, fn, param, self, by simp, ht, hfn, hparam, hself, hsame,
    ?_, ?_⟩
  · rintro j u earlier m hu hearlier hlt d hd
    refine hbefore _ ?_ d hd
    rcases hlt with hlt | ⟨rfl, hlt⟩
    · rw [List.getElem?_append_left hlt] at hu
      obtain ⟨r, hr, hforms⟩ := hfront u (List.mem_of_getElem? hu)
      cases hr.symm.trans hearlier
      exact hforms m
    · rw [List.getElem?_append_right le_rfl, Nat.sub_self] at hu
      cases hu
      cases ht.symm.trans hearlier
      exact hmode m hlt
  · have hresolve : resolve (param.ty c.self) scope s' = .ok (self, s') :=
      ok_then rfl (lift_of_ok hself)
    refine ok_then hresolve ((adjustReceiverFrom_of_none ?_ ht hborrow 0).trans ?_)
    · intro u hu
      obtain ⟨earlier, hearlier, hforms⟩ := hfront u hu
      exact ⟨earlier, hearlier, receiverBorrow?_eq_none fun m => hother (hforms m)⟩
    · rw [Nat.zero_add]
      rfl

/-- A method of slices is kept for an array, which is unsized and borrowed for it. -/
theorem adjustReceiver_of_keepAccepting_slice :
    let elem : Ty := .var (.ty 0)
    let s : State := { vars := (∅ : Vars).freshTy.2 }
    let c : Candidate := ⟨⟨0⟩, .slice elem, 1, .impl ⟨0⟩⟩
    let steps : List Ty := [.array elem (some 3), .slice elem]
    keepAccepting steps [c] .twofold s = .ok ([c], s) ∧
      adjustReceiver ⟨0⟩ steps ((Ty.slice elem).reference .shared) .twofold s = .ok ((), { s with
        adjustments := s.adjustments.insert 0
          [.deref (.slice elem), .borrowRef ((Ty.slice elem).reference .shared) .erased .shared] }) := by
  intro elem s c steps
  have hkeep : keepAccepting steps [c] .twofold s = .ok ([c], s) := rfl
  obtain ⟨-, i, t, step, mode, fn, param, self, ht, hstep, hfn, hparam, hself, hsame, -, hrun⟩ :=
    adjustReceiver_of_keepAccepting hkeep (List.mem_singleton_self c) ⟨0⟩
  cases hfn
  cases hparam
  cases hself
  refine ⟨hkeep, ?_⟩
  rcases i with _ | _ | i
  · cases ht
    cases hstep
    rcases mode with _ | _ | _ <;> cases hsame
  · cases ht
    cases hstep
    rcases mode with _ | _ | _
    · cases hsame
    · exact hrun
    · cases hsame
  · cases ht

end Infer

end TypeInference
