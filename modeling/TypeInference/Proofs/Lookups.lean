import TypeInference.Proofs.Histories

/-!
# Method lookup is a probe

Which functions a method call may mean, and which of them it does mean, is found by trial: an impl
is instantiated and its where-clauses are decided inside a snapshot that is rolled back. What
happens there stays among the variables and the cache, for the obligations are decided in a queue of
their own.
-/

namespace TypeInference

namespace Infer

variable {scope : Scope}

namespace Keeps

/-! ## Trials -/

variable {name : String} {derefCount : Nat} {step : Ty} {cs : List Candidate} {steps : List Ty}

theorem mayBeSelf {impl : Impl} {ty : Ty} : Keeps scope (mayBeSelf impl ty) :=
  probe (E := Fault.IsOrdinary) (Orderly.freshSubst.anyway.bind fun _ => .combine)

/-- Whether an impl holds is found out inside a snapshot. -/
theorem implHolds {id : ImplId} {self : Ty} : Keeps scope (implHolds id self) := by
  refine read.bind fun _ => lift.bind fun impl => probe (E := Fault.IsOrdinary) ?_
  refine Orderly.freshSubst.anyway.bind fun _ => Regular.combine.bind fun _ => of_ite ?_ (.pure _)
  refine (Orderly.instantiateBounds within_true within_true).anyway.bind fun _ => ?_
  exact (Orderly.settle within_true).anyway.bind fun _ => .pure _

/-! ## Candidates -/

theorem implCandidates : Keeps scope (implCandidates name derefCount step) := by
  refine read.bind fun _ => (mapM (fun id => lift.bind fun fn => ?_)).bind fun _ => pure _
  cases fn with
  | some fn =>
    exact lift.bind fun impl => mayBeSelf.bind fun _ => of_ite (pure _) (pure _)
  | none => exact pure _

theorem boundCandidates {bounds : List Bound} {source : Bound → CandidateSource} :
    Keeps scope (boundCandidates name derefCount step bounds source) := by
  refine read.bind fun _ => (mapM (fun bound => lift.bind fun fn => ?_)).bind fun _ => pure _
  cases fn with
  | some fn | none => exact pure _

theorem stepCandidates : Keeps scope (stepCandidates name derefCount step) := by
  refine of_ite (pure _) (implCandidates.bind fun _ => read.bind fun _ => ?_)
  exact boundCandidates.bind fun _ => boundCandidates.bind fun _ => pure _

theorem candidates : Keeps scope (candidates steps name) :=
  (mapM fun _ => stepCandidates).bind fun _ => pure _

/-! ## Stages -/

theorem isVisible (inScope : List TraitId) (c : Candidate) :
    Keeps scope (isVisible inScope c) := by
  unfold Infer.isVisible
  split
  · refine read.bind fun _ => lift.bind fun impl => ?_
    split
    · exact pure _
    · exact pure _
  · exact pure _

theorem keepVisible (cs : List Candidate) : Keeps scope (keepVisible cs) :=
  (read.bind fun _ => pure _).bind fun _ => (filterM (isVisible _)).bind fun _ => pure _

theorem keepHolding (cs : List Candidate) : Keeps scope (keepHolding cs) := by
  refine filterM (fun c => ?_)
  split
  · exact implHolds
  · exact pure _

theorem selfParamTy (c : Candidate) : Keeps scope (selfParamTy c) := by
  refine read.bind fun _ => lift.bind fun fn => ?_
  split
  · exact readVars.bind fun _ => pure _
  · exact pure _

theorem keepAccepting (steps : List Ty) (cs : List Candidate) :
    Keeps scope (keepAccepting steps cs) :=
  (mapM selfParamTy).bind fun _ => (mapM (fun _ => readVars)).bind fun _ => pure _

theorem narrow {stage : List Candidate → Infer (List Candidate)}
    (hstage : ∀ cs, Keeps scope (stage cs)) : Keeps scope (narrow stage cs) :=
  of_ite (hstage cs) (pure cs)

theorem collapseCandidates (cs : List Candidate) : Keeps scope (collapseCandidates cs) := by
  refine read.bind fun _ => lift.bind fun fn => ?_
  split
  · refine lift.bind fun trait => ?_
    split
    · exact pure _
    · exact pure _
  · exact pure _

/-- Choosing a candidate changes nothing. -/
theorem pick : Keeps scope (pick steps cs) := by
  refine (narrow keepVisible).bind fun cs => (narrow keepHolding).bind fun cs => ?_
  refine (narrow (keepAccepting steps)).bind fun cs => ?_
  split
  · exact pure _
  · exact pure _
  · exact collapseCandidates _

end Keeps

end Infer

open Infer

/-- At any time of an inference, trying an impl, collecting the candidates for a method and picking
one of them leave the whole state as it was, whatever their answers. -/
theorem History.method_lookup_leaves_state {scope : Scope} {v : Versions State Mark}
    (h : History (Walk.Works scope) v) :
    (∀ id self holds s, implHolds id self scope v.current = .ok (holds, s) → s = v.current) ∧
    (∀ impl ty may s, mayBeSelf impl ty scope v.current = .ok (may, s) → s = v.current) ∧
    (∀ steps name found s, candidates steps name scope v.current = .ok (found, s) →
      s = v.current) ∧
    ∀ steps cs picked s, pick steps cs scope v.current = .ok (picked, s) → s = v.current := by
  have hs := h.wellFormed
  refine ⟨?_, ?_, ?_, ?_⟩
  · exact fun id self _ _ hrun => Keeps.implHolds hs hrun
  · exact fun impl ty _ _ hrun => Keeps.mayBeSelf hs hrun
  · exact fun steps name _ _ hrun => Keeps.candidates hs hrun
  · exact fun steps cs _ _ hrun => Keeps.pick hs hrun

/-- A slice has two methods `get`: one if the output of its elements has an output, one if its
elements are of a kind that nothing is of. -/
def Items.twofold : Items := { Items.empty with
  paramNames := #["Self", "T"]
  functions := #[
    ⟨"get", .impl ⟨0⟩, .empty, some (.ref .shared), [], .bool, false, true⟩,
    ⟨"get", .impl ⟨1⟩, .empty, some (.ref .shared), [], .char, false, true⟩]
  traits := #[⟨"Inner", .empty, ["Out"]⟩, ⟨"None", .empty, []⟩]
  impls := #[
    ⟨⟨[⟨1⟩], [⟨.projection (.param ⟨1⟩) ⟨0⟩ [] "Out", ⟨⟨0⟩, [], []⟩⟩]⟩, none, .slice (.param ⟨1⟩), []⟩,
    ⟨⟨[⟨1⟩], [⟨.param ⟨1⟩, ⟨⟨1⟩, [], []⟩⟩]⟩, none, .slice (.param ⟨1⟩), []⟩,
    ⟨.empty, some (⟨0⟩, []), .bool, [⟨"Out", .bool⟩]⟩] }

def Scope.twofold : Scope := { Scope.bare with items := .twofold }

/-- Of the two methods of a slice of Booleans the second is dropped, as its where-clause fails. -/
theorem History.method_lookup_leaves_state_twofold : ∃ v found picked s s',
    History (Walk.Works .twofold) v ∧ v.current.vars.tys.size = 1 ∧
    candidates [.slice .bool] "get" .twofold v.current = .ok (found, s) ∧ s = v.current ∧
    pick [.slice .bool] found .twofold s = .ok (picked, s') ∧ s' = v.current ∧
    found.length = 2 ∧ picked.map (·.fn) = some ⟨0⟩ := by
  have hstart := History.atStart .twofold
  have h := hstart.operate .freshTy rfl
  rcases h.method_lookup_leaves_state with ⟨-, -, hcandidates, hpick⟩
  let lookup : Infer (Nat × Option FnId) := do
    let found ← candidates [.slice .bool] "get"
    let picked ← pick [.slice .bool] found
    return (found.length, picked.map (·.fn))
  have hok : (lookup .twofold { vars := (∅ : Vars).freshTy.2 }).toOption.map (·.1) =
      some (2, some ⟨0⟩) := by decide +kernel
  obtain ⟨⟨answer, s₂⟩, hrun, hok⟩ := Except.exists_ok_of_toOption hok
  rcases bind_eq_ok hrun with ⟨found, s, hfound, hnext⟩
  rcases bind_eq_ok hnext with ⟨picked, s', hpicked, hlast⟩
  cases hcandidates _ _ _ _ hfound
  cases hlast
  rcases Prod.mk.inj hok with ⟨hlength, hfn⟩
  exact ⟨_, found, picked, _, _, h, rfl, hfound, rfl, hpicked, hpick _ _ _ _ hpicked, hlength, hfn⟩

end TypeInference
