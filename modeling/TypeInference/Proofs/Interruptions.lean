import TypeInference.Proofs.Congruences
import TypeInference.Proofs.Sessions

/-!
# Interrupted sessions

The user may ask to cancel at any time. A session looks at the flag at its checks only, so a request
counts from the first check after it (`Request`).

Two runs of a computation are compared, one in which the user may ask to cancel and one in which
nobody does. The first ends with the cancellation or as the second does, and both leave the bodies
that are being inferred as they were (`SessionM.Interruptible`).
-/

namespace TypeInference

/-! ## Computations of a session -/

/-- Nobody asks to cancel. -/
structure SessionState.Calm (σ : SessionState) : Prop where
  cancelled : σ.cancelled = false
  request : σ.request = .never

namespace SessionState.Calm

variable {σ : SessionState}

theorem countCheck (h : σ.Calm) : σ.countCheck.Calm where
  cancelled := by simp [SessionState.countCheck, h.cancelled, h.request]
  request := h.request

theorem countLookUp (h : σ.Calm) : σ.countLookUp.Calm where
  cancelled := by simp [SessionState.countLookUp, h.cancelled, h.request]
  request := h.request

end SessionState.Calm

namespace SessionM

variable {α β : Type}

/-- Whether the user asks to cancel only decides if the computation ends so. -/
structure Interruptible (x : SessionM α) : Prop where
  running : ∀ σ, (x σ).2.running = σ.running
  calm : ∀ σ, σ.Calm → (x σ).1 ≠ .error .cancelled ∧ (x σ).2.Calm
  agrees : ∀ σ σ₀, σ.running = σ₀.running → σ₀.Calm →
    (x σ).1 = .error .cancelled ∧ (x σ).2.cancelled = true ∨ (x σ).1 = (x σ₀).1

namespace Interruptible

variable {x : SessionM α} {f : α → SessionM β}

theorem pure (a : α) : Interruptible (pure a : SessionM α) where
  running _ := rfl
  calm _ h := ⟨nofun, h⟩
  agrees _ _ _ _ := .inr rfl

theorem throw {e : Stop} (he : e ≠ .cancelled) : Interruptible (throw e : SessionM α) where
  running _ := rfl
  calm _ h := ⟨fun heq => he (Except.error.inj heq), h⟩
  agrees _ _ _ _ := .inr rfl

/-- A cancellation in the first part cancels the whole. -/
theorem bindOf (hx : Interruptible x) (hf : ∀ σ a σ', x σ = (.ok a, σ') → Interruptible (f a)) :
    Interruptible (x >>= f) where
  running σ := by
    rw [bind_run]
    have hrunning := hx.running σ
    rcases hrun : x σ with ⟨e | a, σ₁⟩ <;> rw [hrun] at hrunning
    · exact hrunning
    · exact ((hf σ a σ₁ hrun).running σ₁).trans hrunning
  calm σ hσ := by
    rw [bind_run]
    have hcalm := hx.calm σ hσ
    rcases hrun : x σ with ⟨e | a, σ₁⟩ <;> rw [hrun] at hcalm
    · refine ⟨?_, hcalm.2⟩
      rintro ⟨⟩
      exact hcalm.1 rfl
    · exact (hf σ a σ₁ hrun).calm σ₁ hcalm.2
  agrees σ σ₀ hrunning hσ₀ := by
    rw [bind_run, bind_run]
    have hfirst := hx.agrees σ σ₀ hrunning hσ₀
    have hleft := hx.running σ
    have hright := hx.running σ₀
    have hcalm := (hx.calm σ₀ hσ₀).2
    rcases hrun : x σ with ⟨r, σ₁⟩
    rcases hrun₀ : x σ₀ with ⟨r₀, σ₁₀⟩
    rw [hrun, hrun₀] at hfirst
    rw [hrun] at hleft
    rw [hrun₀] at hright hcalm
    rcases hfirst with ⟨rfl, hcancelled⟩ | rfl
    · exact .inl ⟨rfl, hcancelled⟩
    · cases r with
      | error e => exact .inr rfl
      | ok a =>
        have hrunning₁ : σ₁.running = σ₁₀.running := (hleft.trans hrunning).trans hright.symm
        exact (hf σ a σ₁ hrun).agrees σ₁ σ₁₀ hrunning₁ hcalm

theorem bind (hx : Interruptible x) (hf : ∀ a, Interruptible (f a)) : Interruptible (x >>= f) :=
  hx.bindOf fun _ a _ _ => hf a

theorem counting (a : α) {f : SessionState → SessionState}
    (hrunning : ∀ σ, (f σ).running = σ.running) (hcalm : ∀ σ, σ.Calm → (f σ).Calm)
    (hx : ∀ σ, x σ = (.ok a, f σ)) : Interruptible x where
  running σ := by
    rw [hx]
    exact hrunning σ
  calm σ hσ := by
    rw [hx]
    exact ⟨nofun, hcalm σ hσ⟩
  agrees σ σ₀ _ _ := by
    rw [hx, hx]
    exact .inr rfl

theorem checkCancelled : Interruptible checkCancelled where
  running σ := by
    rw [checkCancelled_run]
    split
    · rfl
    · rfl
  calm σ hσ := by
    rw [checkCancelled_run, if_neg (by simp [hσ.countCheck.cancelled])]
    exact ⟨nofun, hσ.countCheck⟩
  agrees σ σ₀ _ hσ₀ := by
    have hright : ¬ σ₀.countCheck.cancelled = true := by simp [hσ₀.countCheck.cancelled]
    rw [checkCancelled_run, checkCancelled_run, if_neg hright]
    split
    · next hcancelled => exact .inl ⟨rfl, hcancelled⟩
    · exact .inr rfl

end Interruptible

end SessionM

/-! ## Walks -/

namespace Walk

open Infer

variable {α β : Type} {body : Body} {x : Walk α}

/-- The walk is interruptible in every scope of the body. -/
def Interruptible (body : Body) (x : Walk α) : Prop :=
  ∀ (scope : Scope) (w : WalkState), scope.body = body → SessionM.Interruptible (x.go scope w)

namespace Interruptible

theorem pure (a : α) : Interruptible body (pure a : Walk α) := fun _ _ _ => .pure _

theorem throw {e : Stop} (he : e ≠ .cancelled) : Interruptible body (throw e : Walk α) :=
  fun _ _ _ => .throw he

theorem bindOf {f : α → Walk β} (hx : Interruptible body x)
    (hf : ∀ a, Gives body x a → Interruptible body (f a)) : Interruptible body (x >>= f) := by
  intro scope w hbody
  rw [go_bind]
  refine SessionM.Interruptible.bindOf (hx scope w hbody) ?_
  rintro σ ⟨a, w₁⟩ σ' hrun
  exact hf a ⟨scope, w, w₁, σ, σ', hbody, hrun⟩ scope w₁ hbody

theorem bind {f : α → Walk β} (hx : Interruptible body x) (hf : ∀ a, Interruptible body (f a)) :
    Interruptible body (x >>= f) :=
  hx.bindOf fun a _ => hf a

theorem readBind {f : Scope → Walk β}
    (hf : ∀ scope, scope.body = body → Interruptible body (f scope)) :
    Interruptible body (read >>= f) :=
  fun scope w hbody => hf scope hbody scope w hbody

theorem lift (x : Infer α) : Interruptible body (liftM x : Walk α) := by
  intro scope w _
  have hrun := funext (lift_run x scope w)
  rw [hrun]
  split
  · exact .pure _
  · exact .throw nofun

theorem session {x : SessionM α} (hx : x.Interruptible) :
    Interruptible body (liftM x : Walk α) := by
  intro scope w _
  rw [go_session]
  exact hx.bind fun _ => .pure _

theorem lookUpPath (id : ExprId) : Interruptible body (lookUpPath id) :=
  fun scope w _ => .counting (f := SessionState.countLookUp) (scope.names.path id, w)
    (fun _ => rfl) (fun _ => .countLookUp) fun _ => rfl

theorem jumps : Interruptible body jumps :=
  fun _ w _ => .counting (w.toJumps, w) (fun _ => rfl) (fun _ => id) fun _ => rfl

theorem setYielded (ty : Ty) : Interruptible body (setYielded ty) :=
  fun _ w _ => .counting ((), { w with yieldTy := some ty }) (fun _ => rfl) (fun _ => id)
    fun _ => rfl

theorem inside (b : Boundary) (hx : Interruptible body x) : Interruptible body (inside b x) := by
  intro scope w hbody
  rw [inside_run]
  exact (hx scope _ hbody).bind fun _ => .pure _

/-- What is interruptible stays so where walks are put together. -/
theorem congruence : Congruence body (fun _ => True) fun x _ => Interruptible body x where
  toInferring := .of_lift lift
  pure := pure
  bindOf hx hf := hx.bindOf hf
  scopeBind _ _ hf := readBind hf
  exhausted := throw nofun
  lookUpPath := lookUpPath
  checkCancelled := session .checkCancelled
  jumps := jumps
  setYielded ty _ := setYielded ty
  inside b _ hx := hx.inside b

end Interruptible

end Walk

/-! ## Sessions -/

namespace Session

variable {const : ConstId → SessionM Ty}

/-- The mark of a body goes away, so that what was being inferred before is all there is again. -/
theorem interruptible_whileRunning {α : Type} {act : SessionM α} (hact : act.Interruptible)
    (owner : Owner) : (whileRunning owner act).Interruptible where
  running σ := by
    show (act { σ with running := owner :: σ.running }).2.running.tail = σ.running
    rw [hact.running]
    rfl
  calm σ hσ := by
    have hinner := hact.calm { σ with running := owner :: σ.running } ⟨hσ.cancelled, hσ.request⟩
    exact ⟨hinner.1, hinner.2.cancelled, hinner.2.request⟩
  agrees σ σ₀ hrunning hσ₀ :=
    hact.agrees { σ with running := owner :: σ.running } { σ₀ with running := owner :: σ₀.running }
      (congrArg (owner :: ·) hrunning) ⟨hσ₀.cancelled, hσ₀.request⟩

theorem interruptible_inferBody (s : Session) (hconst : ∀ id, (const id).Interruptible)
    (owner : Owner) (body : Body) (names : Names) :
    (s.inferBody const owner body names).Interruptible := by
  unfold inferBody
  split
  · exact .throw nofun
  · next env _ =>
    refine SessionM.Interruptible.bind ?_ fun _ => .pure _
    show SessionM.Interruptible ((Walk.wholeBody _).go (s.scope owner body names env) {})
    rw [Walk.wholeBody_run]
    have hwalk : Walk.Interruptible body (Walk.entries (Walk.visitor const body.walkDepth) owner) :=
      Walk.Interruptible.congruence.entries const const (fun _ => trivial)
        (fun id => .session (hconst id)) _ owner
    exact (hwalk.bind fun _ => .lift _) _ _ rfl

theorem interruptible_start (s : Session) (hconst : ∀ id, (const id).Interruptible)
    (owner : Owner) : (s.start const owner).Interruptible := by
  have hrest : (s.proceed const owner).Interruptible := by
    refine SessionM.Interruptible.checkCancelled.bind fun _ => ?_
    split
    · exact .throw nofun
    · exact interruptible_whileRunning (s.interruptible_inferBody hconst ..) owner
  constructor
  · intro σ
    rw [start_run]
    split
    · rfl
    · exact hrest.running σ
  · intro σ hσ
    rw [start_run]
    split
    · exact ⟨nofun, hσ⟩
    · exact hrest.calm σ hσ
  · intro σ σ₀ hrunning hσ₀
    rw [start_run, start_run, hrunning]
    split
    · exact .inr rfl
    · exact hrest.agrees σ σ₀ hrunning hσ₀

theorem interruptible_rootTy (s : Session) (id : ConstId) {infer : SessionM Outcome}
    (hinfer : infer.Interruptible) : (s.rootTy id infer).Interruptible := by
  constructor
  · intro σ
    rw [rootTy_run]
    exact hinfer.running σ
  · intro σ hσ
    rw [rootTy_run]
    have hcalm := hinfer.calm σ hσ
    exact ⟨fun hcancelled => hcalm.1 (answerTy_eq_error hcancelled), hcalm.2⟩
  · intro σ σ₀ hrunning hσ₀
    rw [rootTy_run, rootTy_run]
    rcases hinfer.agrees σ σ₀ hrunning hσ₀ with ⟨hcancelled, hflag⟩ | hsame
    · left
      rw [hcancelled]
      exact ⟨rfl, hflag⟩
    · right
      rw [hsame]

theorem interruptible_inferWithin (s : Session) (n : Nat) (owner : Owner) :
    (s.inferWithin n owner).Interruptible := by
  induction n generalizing owner with
  | zero => exact .throw nofun
  | succ n ih => exact s.interruptible_start (fun id => s.interruptible_rootTy id (ih _)) owner

/-- Cancellation is all or nothing. Whether and whenever the user asks to cancel, inferring a body
is cancelled, and then the user has asked; or it gives what it would give if nobody did, which is
never a cancellation. Bodies that were being inferred are the same afterwards. If the user has asked
before, a body is not started on. -/
theorem infer_cancelled_or_same (s : Session) (owner : Owner) (σ : SessionState) :
    let run := s.infer owner σ
    let calm := s.infer owner { σ with cancelled := false, request := .never }
    (run.1 = .error .cancelled ∧ run.2.cancelled = true ∨ run.1 = calm.1) ∧
      calm.1 ≠ .error .cancelled ∧
      run.2.running = σ.running ∧ calm.2.running = σ.running ∧
      (owner ∉ σ.running → σ.cancelled = true → run.1 = .error .cancelled) := by
  intro run calm
  have hinfer : (s.infer owner).Interruptible := s.interruptible_inferWithin _ owner
  have hcalm : SessionState.Calm { σ with cancelled := false, request := .never } := ⟨rfl, rfl⟩
  refine ⟨hinfer.agrees σ _ rfl hcalm, (hinfer.calm _ hcalm).1, hinfer.running σ,
    hinfer.running _, fun hnew hcancelled => ?_⟩
  have hcheck : σ.countCheck.cancelled = true := by simp [SessionState.countCheck, hcancelled]
  show (s.start _ owner σ).1 = .error .cancelled
  rw [start_run, if_neg hnew, proceed, SessionM.bind_run, SessionM.checkCancelled_run, if_pos hcheck]

end Session

end TypeInference
