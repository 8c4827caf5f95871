import TypeInference.Proofs.Operations

/-!
# The reachable states of an inference

An inference starts without variables. From then on its operations run in any order, with snapshots
opened and closed between them, and an operation that unifies may fail half-way and leave what it
did. `Reachable` collects the states this leads to.

Whatever the order, no class of variables comes to occur in its own value, neither directly nor
through other values.
-/

namespace TypeInference

/-! ## Sequences of operations -/

/-- What an inference does between opening and closing snapshots. -/
inductive Operation where
  | freshTy
  | freshInt
  | freshFloat
  | find (v : Var)
  | combine (a b : Ty)
  | combineIfOk (a b : Ty)
  | canCombine (a b : Ty)
  | combinePairs (as bs : List Ty)
  | combineTraitRefs (a b : TraitRef)
  | coerce (expr : ExprId) (source target : Ty)
  | normalizeTy (t : Ty) (depth : Nat)
  | normalize (p : Projection) (depth : Nat)
  | normalizeProjection (p : Projection) (depth : Nat)
  | process (o : Obligation)
  | settle (strict : Bool) (queue : List Obligation)
  | settlePending
  | implHolds (id : ImplId) (self : Ty)

namespace Operation

open Infer

def run : Operation → Infer Unit
  | freshTy => discard Infer.freshTy
  | freshInt => discard Infer.freshInt
  | freshFloat => discard Infer.freshFloat
  | find v => do
    let s ← get
    set { s with vars := ← s.vars.find v }
  | combine a b => discard (Infer.combine a b)
  | combineIfOk a b => discard (Infer.combineIfOk a b)
  | canCombine a b => discard (Infer.canCombine a b)
  | combinePairs as bs => discard (Infer.combinePairs as bs)
  | combineTraitRefs a b => discard (Infer.combineTraitRefs a b)
  | coerce expr source target => discard (Infer.coerce expr source target)
  | normalizeTy t depth => discard (Infer.normalizeTy t depth)
  | normalize p depth => discard (normalize? p depth)
  | normalizeProjection p depth => discard (Infer.normalizeProjection p depth)
  | process o => discard (Infer.process o)
  | settle strict queue => discard (Infer.settle strict queue)
  | settlePending => Infer.settlePending
  | implHolds id self => discard (Infer.implHolds id self)

theorem relates {scope : Scope} {E : Fault → Prop} {K : Atoms}
    [Basis scope E K] {R : State → State → Prop} (hR : Carries R)
    (hK : ∀ {α : Type} {x : Infer α}, K α x → Relates scope R x) {op : Operation} :
    Relates scope R op.run := by
  have hregular {α : Type} {x : Infer α} (hx : Regular scope E (Reporting K) x) :
      Relates scope R x := hx.spec hR fun hx => hx.relates hR hK
  have hdiscard {α : Type} [Mentioning α] {x : Infer α}
      (hx : Orderly scope E (Reporting K) (fun _ => True) x) : Relates scope R (discard x) :=
    hregular hx.anyway.discard
  cases op with
  | freshTy => exact hdiscard .freshTy
  | freshInt => exact hdiscard .freshInt
  | freshFloat => exact hdiscard .freshFloat
  | find v =>
    intro s _ s' _ h
    obtain ⟨_, _, ⟨⟩, h⟩ := bind_eq_ok h
    obtain ⟨vars, s₁, hfind, h⟩ := bind_eq_ok h
    obtain ⟨hfind, rfl⟩ := lift_eq_ok hfind
    cases h
    exact ⟨.found hfind, hR.vars (.found hfind)⟩
  | combine a b => exact hdiscard (.combine within_true within_true)
  | combineIfOk a b => exact hdiscard (.combineIfOk within_true within_true)
  | canCombine a b => exact hdiscard (.canCombine within_true within_true)
  | combinePairs as bs => exact hdiscard (.combinePairs within_true within_true)
  | combineTraitRefs a b => exact hdiscard (.combineTraitRefs within_true within_true)
  | coerce expr source target => exact hdiscard (.coerce within_true within_true)
  | normalizeTy t depth => exact hdiscard (.normalizeTy within_true)
  | normalize p depth => exact hdiscard (.normalize? within_true)
  | normalizeProjection p depth => exact hdiscard (.normalizeProjection within_true)
  | process o => exact hdiscard (.process within_true)
  | settle strict queue => exact hdiscard (.settle within_true)
  | settlePending => exact hregular Orderly.settlePending.anyway
  | implHolds id self => exact hdiscard (.implHolds within_true)

theorem evolving (op : Operation) : Evolving op.run := by
  intro scope s _ s' hs h
  exact (op.relates (E := fun _ => True) (K := CacheOp) carries_true (fun hx => hx.relates) hs h).1

end Operation

/-- The states of an inference, with the snapshots that are open. -/
inductive Reachable (scope : Scope) : Versions State Mark → Prop
  | start : Reachable scope { current := {} }
  | operate {v : Versions State Mark} (op : Operation) {s : State} : Reachable scope v →
    op.run scope v.current = .ok ((), s) → Reachable scope { v with current := s }
  /-- What is neither variable nor cache may change at any time. -/
  | record {v : Versions State Mark} {s : State} : Reachable scope v →
    s.snapshot = v.current.snapshot → Reachable scope { v with current := s }
  | save {v : Versions State Mark} : Reachable scope v →
    Reachable scope (v.save State.mark State.opened)
  | commit {v v' : Versions State Mark} : Reachable scope v →
    v.commit? State.commit = some v' → Reachable scope v'
  | rollback {v v' : Versions State Mark} : Reachable scope v →
    v.rollback? State.rollback = some v' → Reachable scope v'

/-! ## What holds in all of them -/

/-- What an operation does, or a change of what is neither variable nor cache. -/
def Operation.Changes (scope : Scope) (s s' : State) : Prop :=
  (∃ op : Operation, op.run scope s = .ok ((), s')) ∨ s'.snapshot = s.snapshot

namespace Reachable

variable {scope : Scope} {v : Versions State Mark}

theorem history (h : Reachable scope v) : History (Operation.Changes scope) v := by
  induction h with
  | start => exact .start
  | operate op _ hrun ih => exact ih.forward (.change (.inl ⟨op, hrun⟩))
  | record _ hsnapshot ih => exact ih.forward (.change (.inr hsnapshot))
  | save _ ih => exact ih.forward (.save _)
  | commit _ hcommit ih => exact ih.forward (.commit hcommit)
  | rollback _ hrollback ih => exact ih.rollback hrollback

theorem wellFormed (h : Reachable scope v) : v.current.WellFormed := by
  refine h.history.wellFormed_of_evolves fun s s' hs hchange => ?_
  rcases hchange with ⟨op, hrun⟩ | hsnapshot
  · exact op.evolving hs hrun
  · exact .recorded (congrArg Snapshot.vars hsnapshot) (congrArg Snapshot.cache hsnapshot)

theorem sound (h : Reachable scope v) : v.current.vars.Sound := h.wellFormed.vars

open Vars in
/-- In every reachable state no class of variables occurs in its own value, through whatever values.
So the occurs check gives an answer, and the right one, for every type whose general variables
exist; and resolution never exceeds its bound: it gives a type wherever all variables that it can
meet exist, and can only name a variable that does not otherwise. -/
theorem acyclic_and_settles (h : Reachable scope v) :
    Acyclic v.current.vars.Mentions ∧
    (∀ root t, (∀ i, .ty i ∈ t.vars → i < v.current.vars.tys.size) →
      ∃ b, v.current.vars.occursIn root t = .ok b ∧
        (b = true ↔ v.current.vars.Occurs root t)) ∧
    ∀ t, Settles (v.current.vars.Grounded t) (v.current.vars.head t) ∧
      Settles (v.current.vars.Grounded t) (v.current.vars.resolve t) ∧
      Settles (v.current.vars.Grounded t) (v.current.vars.close t) := by
  have hs := h.sound
  refine ⟨hs.acyclic, fun root t ht => hs.exists_occursIn root ht, fun t => ⟨?_, ?_, ?_⟩⟩
  · exact hs.head_settles t
  · exact hs.resolve_settles .var t
  · exact hs.resolve_settles (fun _ => .unknown) t

end Reachable

/-- A scope without declarations, for a body without expressions. -/
def Scope.bare : Scope where
  items := .empty
  known := {}
  config := {}
  owner := .arrayLen 0
  body := ⟨#[], #[], [], ⟨0⟩⟩
  names := ⟨∅, ∅, ∅, none⟩
  env := .empty

/-- One class mentions another; what would close a cycle is rolled back. -/
theorem Reachable.acyclic_and_settles_rolledBack : ∃ v, Reachable .bare v ∧
    v.current.vars.Mentions 0 1 ∧ Acyclic v.current.vars.Mentions ∧
    v.current.vars.resolve (.var (.ty 0)) = .ok (.slice (.var (.ty 1))) := by
  have hstart : Reachable .bare { current := {} } := .start
  have hvars := (hstart.operate .freshTy rfl).operate .freshTy rfl
  have hbound := hvars.operate (.combine (.var (.ty 0)) (.slice (.var (.ty 1)))) rfl
  have hinside := hbound.save.operate (.combine (.var (.ty 1)) (.var (.ty 0))) rfl
  have h := hinside.rollback rfl
  refine ⟨_, h, ?_, h.acyclic_and_settles.1, rfl⟩
  exact ⟨.slice (.var (.ty 1)), 1, rfl, rfl, .head _, rfl⟩

/-! ## Unification in them -/

open Vars in
/-- Types that were combined successfully, without a variable becoming unknown because it would occur
in its own value, are compatible once their variables are substituted, whether open variables stay or
become unknown. Where the types could be resolved before, they can be so afterwards. -/
theorem Reachable.compatible_of_combine {scope : Scope} {v : Versions State Mark}
    (h : Reachable scope v) {a b : Ty} {vs' : Vars}
    (hrun : combine a b v.current.vars = .ok (true, vs'))
    (hstrict : ¬ BindsUnknown v.current.vars vs' ∨
      combineStrictly a b v.current.vars = .ok (true, vs')) :
    (∀ ra rb, vs'.resolve a = .ok ra → vs'.resolve b = .ok rb → Compatible ra rb) ∧
    (∀ ra rb, vs'.close a = .ok ra → vs'.close b = .ok rb → Compatible ra rb) ∧
    (v.current.vars.Grounded a → v.current.vars.Grounded b →
      ((∃ ra, vs'.resolve a = .ok ra) ∧ ∃ rb, vs'.resolve b = .ok rb) ∧
      (∃ ra, vs'.close a = .ok ra) ∧ ∃ rb, vs'.close b = .ok rb) := by
  have hs := h.sound
  have hs' := (derives_combineOr tolerant_unknown a b hs hrun).steps.sound hs
  have hrun' : combineStrictly a b v.current.vars = .ok (true, vs') :=
    hstrict.elim (combineStrictly_of_combine hs hrun) id
  -- Resolving is assigning what the state itself says to its variables.
  have hcompatible {openVar : Var → Ty} {ra rb : Ty}
      (hra : a.mapM (vs'.resolveNode openVar) = .ok ra)
      (hrb : b.mapM (vs'.resolveNode openVar) = .ok rb) : Compatible ra rb := by
    have hσ := hs'.satisfies_extend openVar
    have hopen : ∀ v, vs'.Open v → vs'.extend openVar v = (openVar v).assign .var := by
      intro v hv
      rw [extend_of_open hv, Ty.assign_var_self]
    have hab := reconciles_combineStrictly hs hrun' hσ
    rwa [hσ.resolve hopen hra, hσ.resolve hopen hrb, Ty.assign_var_self, Ty.assign_var_self] at hab
  refine ⟨fun _ _ => hcompatible, fun _ _ => hcompatible, fun ha hb => ?_⟩
  have ha' := grounded_of_combineOr tolerant_unknown hs ha hb hrun ha
  have hb' := grounded_of_combineOr tolerant_unknown hs ha hb hrun hb
  exact ⟨⟨(hs'.resolve_settles _ a).exists_ok ha', (hs'.resolve_settles _ b).exists_ok hb'⟩,
    (hs'.resolve_settles _ a).exists_ok ha', (hs'.resolve_settles _ b).exists_ok hb'⟩

/-- A variable is shared by two components, of which the second pair only agrees because one type
never has a value and one length is unknown. -/
theorem Reachable.compatible_of_combine_shared :
    ∃ v vs', Reachable .bare v ∧
      Vars.combine (.tuple [.var (.ty 0), .array (.var (.ty 0)) none])
        (.tuple [.slice (.var (.ty 1)), .array .never (some 3)]) v.current.vars =
          .ok (true, vs') ∧
      Compatible (.tuple [.slice (.var (.ty 1)), .array (.slice (.var (.ty 1))) none])
        (.tuple [.slice (.var (.ty 1)), .array .never (some 3)]) := by
  have hstart : Reachable .bare { current := {} } := .start
  have h := (hstart.operate .freshTy rfl).operate .freshTy rfl
  have hsound := h.compatible_of_combine (a := .tuple [.var (.ty 0), .array (.var (.ty 0)) none])
    (b := .tuple [.slice (.var (.ty 1)), .array .never (some 3)]) rfl (Or.inr rfl)
  exact ⟨_, _, h, rfl, hsound.1 _ _ rfl rfl⟩

open Vars in
/-- If a substitution of the open variables that respects their kinds makes the resolved forms of two
types the same, and these contain no projection and no opaque type, unification succeeds. It does so
without a variable that would occur in its own value, and the substitution satisfies whatever is
bound and merged: however it extends to a solution of the variables before, that is a solution of
the variables after. -/
theorem Reachable.combine_complete {scope : Scope} {v : Versions State Mark}
    (h : Reachable scope v) {a b ra rb : Ty} {s : Var → Ty}
    (ha : v.current.vars.resolve a = .ok ra) (hb : v.current.vars.resolve b = .ok rb)
    (hra : ra.Concrete) (hrb : rb.Concrete) (hkinds : RespectsKinds s v.current.vars)
    (hsame : Same (ra.assign s) (rb.assign s)) :
    (∃ σ, Extends s σ v.current.vars) ∧
    ∃ vs', combine a b v.current.vars = .ok (true, vs') ∧
      combineStrictly a b v.current.vars = .ok (true, vs') ∧
      ∀ σ, Extends s σ v.current.vars → Satisfies Same σ vs' := by
  have hs := h.sound
  have hsucceeds : ∀ σ, Extends s σ v.current.vars →
      ∃ vs', combineStrictly a b v.current.vars = .ok (true, vs') ∧ Steps v.current.vars vs' ∧
        Solvable v.current.vars.ResolvesConcretely σ vs' := by
    intro σ hσ
    refine (hσ.solvable hs).succeeds_combineStrictly (hσ.admits hs hkinds)
      (hs.resolvesTo ha hra) (hs.resolvesTo hb hrb) ?_
    rwa [hσ.resolve ha, hσ.resolve hb]
  -- All extensions of the substitution lead to the same run.
  have hextend := hs.extends_extend s
  rcases hsucceeds _ hextend with ⟨vs', hrun, -, -⟩
  refine ⟨⟨_, hextend⟩, vs', combine_of_combineStrictly hs hrun, hrun, fun σ hσ => ?_⟩
  rcases hsucceeds σ hσ with ⟨vs'', hrun', -, hsolvable⟩
  rw [hrun] at hrun'
  cases hrun'
  exact hsolvable.solved

/-- A variable that occurs in both components is bound to a slice of an integer variable, so that the
second component of the other type becomes a slice of slices. -/
theorem Reachable.combine_complete_shared : ∃ v vs', Reachable .bare v ∧
    Vars.combine (.tuple [.var (.ty 0), .slice (.var (.ty 0))])
      (.tuple [.slice (.var (.int 0)), .var (.ty 1)]) v.current.vars = .ok (true, vs') ∧
    Vars.Satisfies Vars.Same (v.current.vars.extend fun
      | .ty 0 => .slice (.int .i32)
      | .ty _ => .slice (.slice (.int .i32))
      | .int _ => .int .i32
      | u => .var u) vs' := by
  have hstart : Reachable .bare { current := {} } := .start
  have h := ((hstart.operate .freshTy rfl).operate .freshTy rfl).operate .freshInt rfl
  obtain ⟨-, vs', hrun, -, hsatisfies⟩ := h.combine_complete
    (a := .tuple [.var (.ty 0), .slice (.var (.ty 0))])
    (b := .tuple [.slice (.var (.int 0)), .var (.ty 1)])
    (s := fun
      | .ty 0 => .slice (.int .i32)
      | .ty _ => .slice (.slice (.int .i32))
      | .int _ => .int .i32
      | u => .var u)
    rfl rfl (by decide) (by decide) ⟨fun _ _ => rfl, fun _ _ => rfl⟩ rfl
  exact ⟨_, vs', h, hrun, hsatisfies _ (h.sound.extends_extend _)⟩

end TypeInference
