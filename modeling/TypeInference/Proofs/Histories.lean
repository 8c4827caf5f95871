import TypeInference.Proofs.Coverage
import TypeInference.Proofs.Reachable

/-!
# Histories of an inference

The changes that histories are made of range from the beginning of a single normalization to the
walk of a node and to the end of an inference, so a history may also stop in the middle of an
operation.
-/

namespace TypeInference

open Infer

/-! ## Changes -/

/-- Operations of an inference that return. -/
inductive Infer.Calls (scope : Scope) : State → State → Prop
  | operation (op : Operation) {s s' : State} : op.run scope s = .ok ((), s') → Calls scope s s'
  | normalizeList (ts : List Ty) (depth : Nat) {found : Normalized (List Ty)} {s s' : State} :
    normalizeListWith normalize? ts depth scope s = .ok (found, s') → Calls scope s s'
  | normalizeTraitRef (r : TraitRef) (depth : Nat) {found : Normalized TraitRef} {s s' : State} :
    normalizeTraitRefWith normalize? r depth scope s = .ok (found, s') → Calls scope s s'
  | deref (t : Ty) {found : Option Ty} {s s' : State} : Infer.deref t scope s = .ok (found, s') →
    Calls scope s s'
  | derefSequence (t : Ty) {seq : List Ty} {s s' : State} :
    Infer.derefSequence t scope s = .ok (seq, s') → Calls scope s s'

/-- Operations, and the beginning of a normalization that is not finished. -/
inductive Infer.Works (scope : Scope) : State → State → Prop
  | call {s s' : State} : Calls scope s s' → Works scope s s'
  /-- A projection that the cache does not know is in progress from now on. -/
  | started {p : Projection} {s s' : State} : p.self.isTyVar = false →
    cacheStart p scope s = .ok (none, s') → Works scope s s'
  /-- What is neither variable nor cache may change at any time. -/
  | recorded {s s' : State} : s'.snapshot = s.snapshot → Works scope s s'

/-- All that is done to the state of an inference. -/
inductive Walk.Works (scope : Scope) : State → State → Prop
  | infer {s s' : State} : Infer.Works scope s s' → Works scope s s'
  | expr {const : ConstId → SessionM Ty} {n : Nat} {id : ExprId} {expected : Option Ty} {ty : Ty}
    {w w' : WalkState} {σ σ' : SessionState} :
    ((visitor const n).expr id expected).go scope w σ = (.ok (ty, w'), σ') →
    Works scope w.toState w'.toState
  | pat {const : ConstId → SessionM Ty} {n : Nat} {id : PatId} {ty : Ty} {default : DefaultBinding}
    {w w' : WalkState} {σ σ' : SessionState} :
    ((visitor const n).pat id ty default).go scope w σ = (.ok ((), w'), σ') →
    Works scope w.toState w'.toState
  | entries {const : ConstId → SessionM Ty} {n : Nat} {w w' : WalkState} {σ σ' : SessionState} :
    (entries (visitor const n) scope.owner).go scope w σ = (.ok ((), w'), σ') →
    Works scope w.toState w'.toState
  | defaultNumericVars {s s' : State} : Infer.defaultNumericVars scope s = .ok ((), s') →
    Works scope s s'
  | finish {o : Outcome} {s s' : State} : Infer.finish scope s = .ok (o, s') → Works scope s s'

theorem History.operate {scope : Scope} {v : Versions State Mark} {s : State}
    (h : History (Walk.Works scope) v) (op : Operation) (hrun : op.run scope v.current = .ok ((), s)) :
    History (Walk.Works scope) { v with current := s } :=
  h.forward (.change (.infer (.call (.operation op hrun))))

/-! ## What changes keep -/

section

variable {scope : Scope} {s s' : State}

/-- What the parts of an inference keep, its calls keep. -/
theorem Infer.Calls.relates {K : Atoms} [Basis scope (fun _ => True) K]
    {R : State → State → Prop} (hR : Carries R)
    (hK : ∀ {α : Type} {x : Infer α}, K α x → Relates scope R x) (hs : s.WellFormed)
    (h : Calls scope s s') : s.Evolves s' ∧ R s s' := by
  have hregular {α : Type} {x : Infer α} {a : α}
      (hx : Regular scope (fun _ => True) (Reporting K) x) (h : x scope s = .ok (a, s')) :
      s.Evolves s' ∧ R s s' := hx.spec hR (fun hx => hx.relates hR hK) hs h
  have hlist (ts : List Ty) (depth : Nat) :
      Regular scope (fun _ => True) (Reporting K) (normalizeListWith normalize? ts depth) :=
    (Orderly.normalizeList within_true).anyway
  cases h with
  | operation op h => exact op.relates (E := fun _ => True) hR hK hs h
  | normalizeList ts depth h => exact hregular (hlist ts depth) h
  | normalizeTraitRef r depth h =>
    refine hregular ((Orderly.normalizeTy within_true).anyway.bind fun _ => ?_) h
    exact (hlist r.args depth).bind fun _ => .pure _
  | deref t h => exact hregular (Orderly.deref within_true).anyway h
  | derefSequence t h => exact hregular (Orderly.derefSequence within_true).anyway h

theorem Infer.Works.evolves (hs : s.WellFormed) (h : Works scope s s') : s.Evolves s' := by
  cases h with
  | call h => exact (h.relates (K := CacheOp) carries_true (fun hx => hx.relates) hs).1
  | started _ h => exact ((CacheOp.start _).relates hs h).1
  | recorded h => exact .recorded (congrArg Snapshot.vars h) (congrArg Snapshot.cache h)

/-- Whatever a walk does, the state evolves. -/
theorem Walk.Works.evolves (hs : s.WellFormed) (h : Works scope s s') : s.Evolves s' := by
  -- Which nodes a walk records does not matter here, nor whether it records one twice.
  have hfaithful (const : ConstId → SessionM Ty) (n : Nat) (body : Body) :
      (visitor const n).Faithful True body := visitor_faithful (fun _ _ _ _ _ => trivial) n
  cases h with
  | infer h => exact h.evolves hs
  | expr h => exact (((hfaithful _ _ _).expr _ _).ok rfl hs h).evolves
  | pat h => exact (((hfaithful _ _ _).pat _ _ _).ok rfl hs h).evolves
  | entries h => exact ((Visits.entries (hfaithful _ _ _)).ok rfl hs h).evolves
  | defaultNumericVars h => exact (relates_defaultTypes hs h).1
  | finish h =>
    obtain ⟨before, after, hfinished⟩ := exists_finished hs h
    exact hfinished.evolves hs

end

namespace History

variable {v : Versions State Mark}

theorem wellFormed {scope : Scope} (h : History (Walk.Works scope) v) : v.current.WellFormed :=
  h.wellFormed_of_evolves fun _ _ hs h => h.evolves hs

theorem atStart (scope : Scope) : History (Walk.Works scope) { current := {} } := .start

end History

/-! ## Information -/

/-- Information grows as long as nothing is rolled back. -/
theorem Forward.grows {change : State → State → Prop} {v v' : Versions State Mark}
    (hchange : ∀ ⦃s s'⦄, s.WellFormed → change s s' → s.Evolves s') (hs : v.current.WellFormed)
    (h : Forward change v v') : v.current.vars.Grows v'.current.vars := by
  cases h with
  | change h => exact (hchange hs h).grows hs
  | save => exact State.grows_opened hs.vars
  | commit hsome =>
    rcases v with ⟨s, _ | ⟨m, saved⟩⟩
    · cases hsome
    · cases hsome
      exact State.grows_commit hs.vars

/-- Whatever an inference does short of rolling back, a class that has a value keeps it, variables
of one class stay in one class, and a type resolves as what it resolved to before: to the same type,
or both meet a variable that does not exist. -/
theorem History.information_grows {scope : Scope} {v v' : Versions State Mark}
    (h : History (Walk.Works scope) v) (hstep : Forward (Walk.Works scope) v v') :
    (∀ x t, v.current.vars.valueOf x = .ok (some t) → v'.current.vars.valueOf x = .ok (some t)) ∧
    (∀ x y r, v.current.vars.rootVar x = .ok r → v.current.vars.rootVar y = .ok r →
      ∃ r', v'.current.vars.rootVar x = .ok r' ∧ v'.current.vars.rootVar y = .ok r') ∧
    ∀ t u, v.current.vars.resolve t = .ok u →
      (v'.current.vars.resolve t).toOption = (v'.current.vars.resolve u).toOption ∧
      (v'.current.vars.close t).toOption = (v'.current.vars.close u).toOption := by
  have hgrows := hstep.grows (fun _ _ hs h => h.evolves hs) h.wellFormed
  have hs' := (h.forward hstep).wellFormed.vars
  refine ⟨hgrows.value, fun x y r => hgrows.sameClass, ?_⟩
  intro t u hr
  exact ⟨hgrows.resolve_eq hs' hr .var, hgrows.resolve_eq hs' hr fun _ => .unknown⟩

/-- Tuples that cannot be unified have bound a variable all the same, in a class that another one
mentions. -/
theorem History.information_grows_failing : ∃ v s, History (Walk.Works .bare) v ∧
    combine (.tuple [.var (.ty 1), .bool]) (.tuple [.char, .char]) .bare v.current =
      .ok (false, s) ∧
    v.current.vars.resolve (.var (.ty 0)) = .ok (.slice (.var (.ty 1))) ∧
    s.vars.resolve (.slice (.var (.ty 1))) = .ok (.slice .char) ∧
    (s.vars.resolve (.var (.ty 0))).toOption = some (.slice .char) := by
  have hstart := History.atStart .bare
  have hzero := hstart.operate .freshTy rfl
  have hone := hzero.operate .freshTy rfl
  have h := hone.operate (.combine (.var (.ty 0)) (.slice (.var (.ty 1)))) rfl
  refine ⟨_, _, h, rfl, ?_⟩
  refine ⟨rfl, rfl, ?_⟩
  have hgrows := h.information_grows (.change (.infer (.call (.operation
    (.combine (.tuple [.var (.ty 1), .bool]) (.tuple [.char, .char])) rfl))))
  exact (hgrows.2.2 (.var (.ty 0)) (.slice (.var (.ty 1))) rfl).1

end TypeInference
