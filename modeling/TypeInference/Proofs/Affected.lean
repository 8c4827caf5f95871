import TypeInference.Proofs.DeterminedTypes
import TypeInference.Proofs.Sessions

/-!
# Affected variables

A closure whose result nothing says anything about gives unit. To find out, the variable for the
result is asked whether it is affected: whether it has a value, or a representative other than
itself. So of the variables of an open class all but one are affected. The one left came first when
the class was formed; that others were unified with it does not show.
-/

namespace TypeInference

open Infer

namespace Vars

variable {vs vs' : Vars} {i j r : Nat}

/-! ## One variable -/

/-- Both variables have the same representative. -/
def SameClass (vs : Vars) (v w : Var) : Prop := ∃ r, vs.rootVar v = .ok r ∧ vs.rootVar w = .ok r

/-- A variable is affected if it has a value or a representative other than itself. -/
theorem isAffected_eq {value : Option Ty} (hroot : vs.rootVar (.ty i) = .ok (.ty r))
    (hvalue : vs.valueOf (.ty i) = .ok value) :
    vs.isAffected i = .ok (decide (r ≠ i) || value.isSome) := by
  rw [isAffected, rootVar_ty.1 hroot, Except.ok_bind]
  by_cases hr : r = i
  · rw [if_neg (not_not.2 hr), show vs.tys.value i = .ok value from hvalue]
    simp [hr, Except.ok_bind, pure, Except.pure]
  · rw [if_pos hr]
    simp [hr, pure, Except.pure]

theorem Sound.exists_isAffected (hs : vs.Sound) (hi : vs.Has (.ty i)) :
    ∃ r value, vs.rootVar (.ty i) = .ok (.ty r) ∧ vs.valueOf (.ty i) = .ok value ∧
      vs.isAffected i = .ok (decide (r ≠ i) || value.isSome) := by
  obtain ⟨r, hr⟩ := Table.exists_root hs.tys hi
  obtain ⟨value, hvalue⟩ := exists_valueOf_of_rootVar (rootVar_ty.2 hr)
  exact ⟨r, value, rootVar_ty.2 hr, hvalue, isAffected_eq (rootVar_ty.2 hr) hvalue⟩

/-- The unaffected variables are the open ones. -/
theorem Sound.isAffected_eq_false_iff (hs : vs.Sound) (hi : vs.Has (.ty i)) :
    vs.isAffected i = .ok false ↔ vs.Open (.ty i) := by
  obtain ⟨r, value, hroot, hvalue, haffected⟩ := hs.exists_isAffected hi
  rw [haffected, Open, hroot, hvalue]
  cases value with
  | none | some t => simp

theorem Sound.isAffected_eq_true_iff (hs : vs.Sound) (hi : vs.Has (.ty i)) :
    vs.isAffected i = .ok true ↔
      (∃ t, vs.valueOf (.ty i) = .ok (some t)) ∨ ∃ r ≠ i, vs.rootVar (.ty i) = .ok (.ty r) := by
  obtain ⟨r, value, hroot, hvalue, haffected⟩ := hs.exists_isAffected hi
  rw [haffected, hroot, hvalue]
  cases value with
  | none =>
    constructor
    · intro h
      exact .inr ⟨r, of_decide_eq_true (by simpa using h), rfl⟩
    · rintro (⟨t, ht⟩ | ⟨q, hq, hr⟩)
      · cases ht
      · cases hr
        simp [hq]
  | some t => simp

/-! ## Classes -/

/-- Of an open class exactly one variable is unaffected. -/
theorem Sound.existsUnique_unaffected (hs : vs.Sound) (hvalue : vs.valueOf (.ty i) = .ok none) :
    ∃! j, vs.SameClass (.ty i) (.ty j) ∧ vs.isAffected j = .ok false := by
  obtain ⟨root, hroot⟩ := exists_rootVar_of_valueOf hvalue
  obtain ⟨k, _, r, hi, rfl, -⟩ := rootVar_cases hroot
  cases k <;> cases hi
  have hroot : vs.rootVar (.ty i) = .ok (.ty r) := hroot
  have hself := rootVar_rootVar hroot
  refine ⟨r, ⟨⟨.ty r, hroot, hself⟩, ?_⟩, ?_⟩
  · refine (hs.isAffected_eq_false_iff (has_of_rootVar hself)).2 ⟨hself, ?_⟩
    rw [valueOf_rootVar hroot, hvalue]
  · rintro j ⟨⟨root, hi', hj⟩, hunaffected⟩
    rw [hroot] at hi'
    cases hi'
    have hopen := (hs.isAffected_eq_false_iff (has_of_rootVar hj)).1 hunaffected
    rw [hopen.1] at hj
    cases hj
    rfl

/-- Of two open variables that are unified, the first one stays the representative. -/
theorem Sound.exists_merges_of_combine (hs : vs.Sound) {q : Nat}
    (hi : vs.rootVar (.ty i) = .ok (.ty r)) (hj : vs.rootVar (.ty j) = .ok (.ty q))
    (hopen_i : vs.Open (.ty r)) (hopen_j : vs.Open (.ty q)) :
    ∃ vs', combine (.var (.ty i)) (.var (.ty j)) vs = .ok (true, vs') ∧ vs'.Sound ∧
      vs.Merges (.ty r) (.ty q) vs' := by
  have hhead {k p : Nat} (hk : vs.rootVar (.ty k) = .ok (.ty p)) (hp : vs.Open (.ty p)) :
      vs.head (.var (.ty k)) = .ok (.var (.ty p)) :=
    hs.head_of_unbound hk ((valueOf_rootVar hk).symm.trans hp.2)
  have hroot {p : Nat} (hp : vs.Open (.ty p)) := hp.root_stored.1
  obtain ⟨tys, hunion, -⟩ := Table.exists_union hs.tys (hroot hopen_i) (hroot hopen_j)
  refine ⟨{ vs with tys }, ?_, (Step.merge (k := .ty) hopen_i hopen_j hunion).sound hs, ?_⟩
  · show followWithin (pure .unknown) (vs.tys.size + 1) (.ty i) (.var (.ty j)) vs = _
    rw [followWithin_succ, followWith_of_var _ (hhead hi hopen_i), hhead hj hopen_j, Except.ok_bind]
    exact (combineVar_same _ .ty r q vs).trans (congrArg (· >>= _) hunion)
  · exact hs.merges (k := .ty) hopen_i hopen_j hunion

/-- Afterwards both variables are in one class, of which the first representative is not affected
and the second one is. -/
theorem Merges.affected (hs' : vs'.Sound) (h : vs.Merges (.ty r) (.ty j) vs') (hne : r ≠ j) :
    vs'.SameClass (.ty r) (.ty j) ∧ vs'.isAffected r = .ok false ∧ vs'.isAffected j = .ok true := by
  have hwinner : vs'.rootVar (.ty r) = .ok (.ty r) := by
    rw [h.root_eq, h.open_winner.1, Except.map, if_neg (by simpa using hne)]
  have hloser : vs'.rootVar (.ty j) = .ok (.ty r) := by
    rw [h.root_eq, h.open_loser.1, Except.map, if_pos rfl]
  have hvalue : vs'.valueOf (.ty r) = .ok none := (h.value_eq _).trans h.open_winner.2
  refine ⟨⟨_, hwinner, hloser⟩, ?_, ?_⟩
  · exact (hs'.isAffected_eq_false_iff (has_of_rootVar hwinner)).2 ⟨hwinner, hvalue⟩
  · exact (hs'.isAffected_eq_true_iff (has_of_rootVar hloser)).2 (.inr ⟨r, hne, hloser⟩)

end Vars

/-! ## During an inference -/

section

variable {scope : Scope} {s : State} {i : Nat}

theorem Infer.isAffected_iff {affected : Bool} :
    Infer.isAffected i scope s = .ok (affected, s) ↔ s.vars.isAffected i = .ok affected := by
  constructor
  · intro h
    exact (readVars_eq_ok h).1
  · intro h
    exact readVars_of_ok h

/-- The result becomes unit exactly if its variable is open. -/
theorem Walk.unitUnlessAffected_eq_unit_iff (hs : s.vars.Sound) (hi : s.vars.Has (.ty i)) :
    unitUnlessAffected (.var (.ty i)) scope s = .ok (.unit, s) ↔ s.vars.Open (.ty i) := by
  obtain ⟨r, value, -, -, haffected⟩ := hs.exists_isAffected hi
  rw [← hs.isAffected_eq_false_iff hi, haffected]
  have hrun : unitUnlessAffected (.var (.ty i)) scope s =
      (if decide (r ≠ i) || value.isSome then pure (.var (.ty i)) else pure .unit : Infer Ty)
        scope s :=
    bind_of_ok (Infer.isAffected_iff.2 haffected)
  rw [hrun]
  cases decide (r ≠ i) || value.isSome with
  | true => exact ⟨nofun, nofun⟩
  | false => exact ⟨fun _ => rfl, fun _ => rfl⟩

end

/-- Whatever was done before, a variable is affected exactly if it has a value or is represented by
another one. Of a class without a value the representative alone is not affected, also right after
it was unified with another variable; and it is the variable that becomes unit where a closure has
no other result. -/
theorem History.affected_unless_open {scope : Scope} {v : Versions State Mark}
    (h : History (Walk.Works scope) v) {i : Nat} (hi : v.current.vars.Has (.ty i)) :
    (∃ affected, isAffected i scope v.current = .ok (affected, v.current) ∧
      (affected = true ↔ (∃ t, v.current.vars.valueOf (.ty i) = .ok (some t)) ∨
        ∃ r ≠ i, v.current.vars.rootVar (.ty i) = .ok (.ty r))) ∧
    (v.current.vars.valueOf (.ty i) = .ok none →
      ∃! j, v.current.vars.SameClass (.ty i) (.ty j) ∧
        isAffected j scope v.current = .ok (false, v.current)) ∧
    (∀ j ≠ i, v.current.vars.Open (.ty i) → v.current.vars.Open (.ty j) →
      ∃ s, combine (.var (.ty i)) (.var (.ty j)) scope v.current = .ok (true, s) ∧
        s.vars.SameClass (.ty i) (.ty j) ∧ isAffected i scope s = .ok (false, s) ∧
        isAffected j scope s = .ok (true, s)) ∧
    (Walk.unitUnlessAffected (.var (.ty i)) scope v.current = .ok (.unit, v.current) ↔
      v.current.vars.Open (.ty i)) := by
  have hs := h.wellFormed.vars
  refine ⟨?_, ?_, ?_, Walk.unitUnlessAffected_eq_unit_iff hs hi⟩
  · obtain ⟨r, value, -, -, haffected⟩ := hs.exists_isAffected hi
    refine ⟨_, isAffected_iff.2 haffected, ?_⟩
    rw [← hs.isAffected_eq_true_iff hi, haffected, Except.ok.injEq]
  · intro hvalue
    simp only [isAffected_iff]
    exact hs.existsUnique_unaffected hvalue
  · intro j hj hopen_i hopen_j
    obtain ⟨vars, hcombine, hs', hmerges⟩ :=
      hs.exists_merges_of_combine hopen_i.1 hopen_j.1 hopen_i hopen_j
    obtain ⟨hclass, hwinner, hloser⟩ := hmerges.affected hs' hj.symm
    exact ⟨_, combine_run hcombine, hclass, isAffected_iff.2 hwinner, isAffected_iff.2 hloser⟩

/-- Two variables that are unified when both are new. -/
theorem History.affected_unless_open_unified : ∃ v s, History (Walk.Works .bare) v ∧
    v.current.vars.Has (.ty 0) ∧ v.current.vars.Open (.ty 0) ∧ v.current.vars.Open (.ty 1) ∧
    combine (.var (.ty 0)) (.var (.ty 1)) .bare v.current = .ok (true, s) ∧
    s.vars.SameClass (.ty 0) (.ty 1) ∧ isAffected 0 .bare s = .ok (false, s) := by
  have hstart := History.atStart .bare
  have hzero := hstart.operate .freshTy rfl
  have h := hzero.operate .freshTy rfl
  obtain ⟨-, -, hunified, -⟩ :=
    h.affected_unless_open (i := 0) (Vars.has_of_rootVar (w := .ty 0) rfl)
  obtain ⟨s, hcombine, hclass, hfirst, -⟩ := hunified 1 (by decide) ⟨rfl, rfl⟩ ⟨rfl, rfl⟩
  exact ⟨_, s, h, Vars.has_of_rootVar (w := .ty 0) rfl, ⟨rfl, rfl⟩, ⟨rfl, rfl⟩, hcombine, hclass,
    hfirst⟩

/-! ## A closure that calls a generic function -/

/-- The body `{ let c = || make(); }`. -/
def Body.makingClosure : Body := .ofNodes
  [.path ["make"], .call ⟨0⟩ [], .closure [] none ⟨1⟩ false,
    .block .plain none [.letPat ⟨0⟩ none (some ⟨2⟩)] none] [.bind "c" (.byValue .shared) none] []

/-- A program with a function `make<T>() -> T`, which is called in a closure. -/
def Session.makingClosure : Session where
  program := {
    items := { Items.empty with
      paramNames := #["Self", "T"],
      functions := #[⟨"make", .free, ⟨[⟨1⟩], []⟩, none, [], .param ⟨1⟩, false, true⟩,
        ⟨"main", .free, .empty, none, [], .unit, false, true⟩] }
    known := {}
    bodies := [(.function ⟨1⟩, .makingClosure, Names.empty.setPath ⟨0⟩ [⟨.function ⟨0⟩, .empty⟩])] }

/-- The type of functions that take nothing and return unit. -/
def Ty.isThunk : Ty → Bool
  | .fn [] (.tuple []) => true
  | _ => false

theorem Ty.eq_of_isThunk {t : Ty} (h : t.isThunk = true) : t = .fn [] .unit := by
  unfold isThunk at h
  split at h
  · rfl
  · cases h

/-- The variable for the result of the closure is unified with the one for the parameter of the
function, and is the first of the two. So the closure returns unit, though the call in it may be
anything. -/
theorem Session.makingClosure_unit :
    ∃ o σ', makingClosure.infer (.function ⟨1⟩) {} = (.ok o, σ') ∧
      o.exprTypes.get? 1 = some .unknown ∧ o.exprTypes.get? 2 = some (.fn [] .unit) := by
  have hok : (makingClosure.infer (.function ⟨1⟩) {}).1.toOption.map (fun o =>
      ((o.exprTypes.get? 1).map Ty.isUnknown, (o.exprTypes.get? 2).map Ty.isThunk)) =
        some (some true, some true) := by
    decide +kernel
  obtain ⟨o, σ', hrun, hok⟩ := Except.exists_ok_of_fst hok
  obtain ⟨hcall, hclosure⟩ := Prod.mk.inj hok
  obtain ⟨call, hcall, hunknown⟩ := Option.map_eq_some_iff.1 hcall
  obtain ⟨closure, hclosure, hthunk⟩ := Option.map_eq_some_iff.1 hclosure
  obtain rfl : call = .unknown := by
    cases call with
    | unknown => rfl
    | _ => cases hunknown
  rw [Ty.eq_of_isThunk hthunk] at hclosure
  exact ⟨o, σ', hrun, hcall, hclosure⟩

end TypeInference
