import TypeInference.Proofs.Coercions

/-!
# Mutable reborrows

A shared reference does not do for a mutable one, whatever the two refer to. So a mutable reference
is only made from a mutable one. But it need not refer to the same value: it may be a borrow of what
the reference dereferences to after several steps.
-/

namespace TypeInference

/-- References of different mutability do not agree. -/
theorem Vars.combine_of_ne {vs : Vars} {a b : Ty} {m n : Mutability} {r q : Region} (h : m ≠ n) :
    combine (.ref a m r) (.ref b n q) vs = .ok (false, vs) := by
  have hdifferent : ¬ (((Ty.ref a m r == Ty.ref b n q) || (Ty.ref a m r).isNever ||
      (Ty.ref b n q).isNever) = true) := by
    rw [Bool.or_eq_true, Bool.or_eq_true]
    rintro ((hsame | hnever) | hnever)
    · have hparts : (decide (m = n) && a.same b) = true := hsame
      rw [Bool.and_eq_true, decide_eq_true_iff] at hparts
      exact h hparts.1
    · cases hnever
    · cases hnever
  show combineBy (pure .unknown) (follow (pure .unknown)) (.ref a m r) (.ref b n q) vs = _
  rw [combineBy, combineWith_of_node _ (head_of_node rfl) rfl, if_neg hdifferent]
  dsimp only
  rw [if_neg h]
  rfl

namespace Infer

variable {scope : Scope} {s s' : State} {id : ExprId} {source target p q : Ty} {m : Mutability}
  {r k : Region}

/-- A shared reference is not converted to a mutable one, and the attempt leaves no trace. -/
theorem tryCoerce_shared (hsource : s.vars.head source = .ok (.ref p .shared r))
    (htarget : s.vars.head target = .ok (.ref q .mut k)) :
    tryCoerce id source target scope s = .ok (false, s) := by
  have hhead {t u : Ty} (h : s.vars.head t = .ok u) : head t scope s = .ok (u, s) :=
    ok_then rfl (lift_of_ok h)
  refine ok_then (hhead hsource) (ok_then (hhead htarget) ?_)
  exact combine_run (Vars.combine_of_ne (by decide))

/-- A dereference sequence starts with the type itself, as far as that is known. -/
theorem derefSequence_head {t : Ty} {seq : List Ty} (h : derefSequence t scope s = .ok (seq, s')) :
    seq = [] ∨ ∃ t' s₁ rest, resolveSettled t scope s = .ok (t', s₁) ∧ seq = t' :: rest := by
  obtain ⟨t', s₁, out, hresolve, hfrom, hout⟩ := derefSequence_eq_ok h
  cases hlimit : scope.config.autoderefLimit with
  | zero =>
    rw [hlimit] at hfrom
    cases hfrom
    rcases hout with ⟨_, _, ⟨⟩, _⟩ | ⟨-, rfl⟩
    exact .inl rfl
  | succ room =>
    rw [hlimit] at hfrom
    obtain ⟨rest, rfl⟩ := (isPrefix_derefFrom_succ rfl hfrom).trans hout.isPrefix
    exact .inr ⟨t', s₁, rest, hresolve, rfl⟩

/-- For the expression `id` it is recorded, from state `s` to `s'`, that `source` is borrowed mutably
after some dereferences, at the first of them that goes with `pointee`: the borrow of that step unifies
with the one of `pointee`, and those before do not. The first dereference is of a mutable reference. -/
def RecordsReborrow (scope : Scope) (s s' : State) (id : ExprId) (source pointee : Ty) : Prop :=
  ∃ seq s₁ depth p r step, derefSequence source scope s = .ok (seq, s₁) ∧
    seq[0]? = some (.ref p .mut r) ∧ 2 ≤ depth ∧ seq[depth]? = some step ∧
    (∃ vars, Vars.combine (.reference step .mut) (.reference pointee .mut) s₁.opened.vars =
      .ok (true, vars) ∧ vars.Grows s'.vars) ∧
    (∀ j t, 1 ≤ j → j < depth → seq[j]? = some t →
      canCombine t pointee scope s₁ = .ok (false, s₁)) ∧
    s'.adjustments = s.adjustments.insert id.index ((s.adjustments.get? id.index).getD [] ++
      (derefsTo seq depth ++ [.borrowRef (.reference step .mut) .erased .mut]))

/-- A mutable reference is reborrowed by a borrow of some step, or nothing is recorded. -/
theorem recordsReborrow_of_reborrow (hs : s.WellFormed)
    (hsource : s.vars.head source = .ok (.ref p .mut r))
    (h : reborrow id (.ref p .mut r) q .mut scope s = .ok (true, s')) :
    s'.adjustments = s.adjustments ∨ RecordsReborrow scope s s' id source q := by
  obtain ⟨seq, s₁, hseq, hfrom⟩ := bind_eq_ok h
  have hs₁ := ((Regular.derefSequence.quiet hs hseq).1.spec hs).1
  have hkept := Regular.derefSequence.keeps_adjustments hs hseq
  obtain ⟨j, step, vars, hj, hfits, hgrows, hothers, hadjustments⟩ := reborrowFrom_eq_true hs₁ hfrom
  rw [List.getElem?_drop] at hj
  rw [hkept] at hadjustments
  split at hadjustments
  · next hdepth =>
    right
    obtain rfl | ⟨t', s₂, rest, hresolve, rfl⟩ := derefSequence_head hseq
    · cases hj
    obtain ⟨p', rfl⟩ := exists_ref_of_resolveSettled hresolve
    refine ⟨_, s₁, 1 + j, p', r, step, derefSequence_of_head hs hsource hseq, rfl, by omega, hj,
      ⟨vars, hfits, hgrows⟩, fun i t hi hij ht => ?_, hadjustments⟩
    refine hothers (i - 1) t (by omega) ?_
    rw [List.getElem?_drop, Nat.add_sub_cancel' hi]
    exact ht
  · exact .inl hadjustments

/-- A mutable reference that does for another is reborrowed, unless it is to an array for a slice. -/
theorem recordsReborrow_of_tryCoerce (hs : s.WellFormed)
    (hsource : s.vars.head source = .ok (.ref p .mut r))
    (htarget : s.vars.head target = .ok (.ref q .mut k))
    (hrun : tryCoerce id source target scope s = .ok (true, s')) :
    s'.adjustments = s.adjustments ∨
      ∃ pointee, s.vars.head q = .ok pointee ∧ RecordsReborrow scope s s' id source pointee := by
  obtain ⟨a, b, ha, hb, hattempts⟩ := attempts_of_tryCoerce hrun
  cases hsource.symm.trans ha
  cases htarget.symm.trans hb
  cases hattempts with
  | unify hcombine | unsize _ _ _ hcombine =>
    obtain ⟨vars, -, rfl⟩ := onVars_eq_ok hcombine
    exact .inl rfl
  | reborrow _ hpointee hreborrow =>
    exact (recordsReborrow_of_reborrow hs hsource hreborrow).imp_right fun h => ⟨_, hpointee, h⟩

end Infer

open Infer

/-- Whatever was done before, what is known to be a mutable reference is only made from a mutable one:
a conversion of a shared one fails and leaves the state as it was. If the conversion records anything,
then that the mutable reference is dereferenced to the first step that fits, which is borrowed mutably.
Nothing is asked of references that are stepped through on the way. -/
theorem History.mut_of_tryCoerce {scope : Scope} {v : Versions State Mark}
    (h : History (Walk.Works scope) v) {id : ExprId} {source target p q : Ty} {m : Mutability}
    {r k : Region} (hsource : v.current.vars.head source = .ok (.ref p m r))
    (htarget : v.current.vars.head target = .ok (.ref q .mut k)) :
    (m = .shared → tryCoerce id source target scope v.current = .ok (false, v.current)) ∧
    ∀ s', tryCoerce id source target scope v.current = .ok (true, s') → m = .mut ∧
      (s'.adjustments = v.current.adjustments ∨ ∃ pointee, v.current.vars.head q = .ok pointee ∧
        RecordsReborrow scope v.current s' id source pointee) := by
  have hs := h.wellFormed
  cases m with
  | shared =>
    have hfails : tryCoerce id source target scope v.current = .ok (false, v.current) :=
      tryCoerce_shared hsource htarget
    refine ⟨fun _ => hfails, fun s' hrun => ?_⟩
    rw [hfails] at hrun
    cases hrun
  | _ =>
    refine ⟨fun hshared => ?_, fun s' hrun => ⟨rfl, ?_⟩⟩
    · cases hshared
    · exact recordsReborrow_of_tryCoerce hs hsource htarget hrun

/-- A mutable reference to a mutable reference is borrowed through both, and the variable they end in
is bound. -/
theorem History.mut_of_tryCoerce_twice : ∃ v s', History (Walk.Works .bare) v ∧
    tryCoerce ⟨0⟩ (.reference (.reference (.var (.ty 0)) .mut) .mut) (.reference (.int .u8) .mut)
      .bare v.current = .ok (true, s') ∧
    RecordsReborrow .bare v.current s' ⟨0⟩ (.reference (.reference (.var (.ty 0)) .mut) .mut)
      (.int .u8) := by
  have hstart := History.atStart .bare
  have h := hstart.operate .freshTy rfl
  obtain ⟨s', hrun, hrecorded⟩ : ∃ s', tryCoerce ⟨0⟩
      (.reference (.reference (.var (.ty 0)) .mut) .mut) (.reference (.int .u8) .mut) .bare
      { vars := (∅ : Vars).freshTy.2 } = .ok (true, s') ∧ s'.adjustments.contains 0 = true :=
    ⟨_, rfl, rfl⟩
  obtain ⟨-, hkept | ⟨pointee, hpointee, hreborrow⟩⟩ := (h.mut_of_tryCoerce rfl rfl).2 s' hrun
  · rw [hkept] at hrecorded
    cases hrecorded
  · cases hpointee
    exact ⟨_, s', h, hrun, hreborrow⟩

/-- A mutable reference to a shared reference is borrowed through both, too. -/
theorem History.mut_through_shared : ∃ v s', History (Walk.Works .bare) v ∧
    tryCoerce ⟨0⟩ (.reference (.reference (.int .u8) .shared) .mut) (.reference (.int .u8) .mut)
      .bare v.current = .ok (true, s') ∧
    s'.adjustments.get? 0 = some [.deref (.reference (.int .u8) .shared), .deref (.int .u8),
      .borrowRef (.reference (.int .u8) .mut) .erased .mut] :=
  ⟨_, _, .start, rfl, rfl⟩

end TypeInference
