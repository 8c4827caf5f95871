import TypeInference.Proofs.Composition

/-!
# Walks stay in range

A walk carries more than an inference does: the types that `return`, `?` and `yield` convert to.
With these in range as well, all rules of the walk are contained in the variables of their
arguments, by induction on `Walk.Composed`. What the walk of a constant inside the body gives has no
variables: its own are gone with it.
-/

namespace TypeInference

/-! ## Walks -/

/-- All variables that the state of a walk mentions are in its tables. -/
structure WalkState.InRange (w : WalkState) : Prop where
  state : w.toState.InRange
  jumps : Within w.vars.Has w.toJumps

theorem WalkState.InRange.start : WalkState.InRange {} :=
  ⟨.start, within_jumps.2 ⟨Ty.within_unknown, Ty.within_unknown, within_none⟩⟩

namespace Boundary

variable {W : Var → Prop} {outer inner : Jumps}

theorem within_enter (b : Boundary) (houter : Within W outer) (hty : Within W b.ty) :
    Within W (b.enter outer) := by
  obtain ⟨hreturn, -, hyield⟩ := within_jumps.1 houter
  cases b with
  | body ty => exact within_jumps.2 ⟨hty, hty, within_none⟩
  | asyncBlock ty => exact within_jumps.2 ⟨hty, hty, hyield⟩
  | tryBlock ty => exact within_jumps.2 ⟨hreturn, hty, hyield⟩

theorem within_leave (b : Boundary) (houter : Within W outer) (hinner : Within W inner) :
    Within W (b.leave outer inner) := by
  obtain ⟨hreturn, htry, -⟩ := within_jumps.1 houter
  obtain ⟨hreturn', -, hyield'⟩ := within_jumps.1 hinner
  cases b with
  | body ty => exact houter
  | asyncBlock ty => exact within_jumps.2 ⟨hreturn, htry, hyield'⟩
  | tryBlock ty => exact within_jumps.2 ⟨hreturn', htry, hyield'⟩

end Boundary

/-- The scope is one of the body, and mentions no variables. -/
structure Scope.Fits (body : Body) (scope : Scope) : Prop where
  body : scope.body = body
  closed : scope.IsClosed

/-- A computation of a session that gives nothing with variables, and asks for none. -/
structure SessionM.Closes {α : Type} [Mentioning α] (x : SessionM α) : Prop where
  fails : ∀ σ f σ', x σ = (.error (.fault f), σ') → f.SparesVariables
  closed : ∀ σ a σ', x σ = (.ok a, σ') → Closed a

namespace Walk

/-- Walks without anything in between. What a session does for another body is not part of the
walk. -/
inductive Elementary : (α : Type) → Walk α → Prop
  | pure {α : Type} (a : α) : Elementary α (pure a)
  | throw {α : Type} (e : Stop) : Elementary α (throw e)
  | read : Elementary Scope read
  | jumps : Elementary Jumps jumps
  | setYielded (ty : Ty) : Elementary Unit (setYielded ty)
  | lookUpPath (id : ExprId) : Elementary (List PathResolution) (lookUpPath id)
  | session {α : Type} (x : SessionM α) : Elementary α (liftM x)

/-- `P` holds of the state at every point of a walk: before it, after every step that it or an
inference in it makes, and after it. -/
inductive Throughout (P : State → Prop) :
    {α : Type} → Walk α → Scope → WalkState → SessionState → Prop
  | elementary {α : Type} {x : Walk α} {scope : Scope} {w : WalkState} {σ : SessionState} :
    Elementary α x → P w.toState →
    (∀ a w' σ', x.go scope w σ = (.ok (a, w'), σ') → P w'.toState) → Throughout P x scope w σ
  | infer {α : Type} {x : Infer α} {scope : Scope} {w : WalkState} {σ : SessionState} :
    Infer.Throughout P scope x w.toState → Throughout P (liftM x : Walk α) scope w σ
  | bind {α β : Type} {x : Walk α} {f : α → Walk β} {scope : Scope} {w : WalkState}
    {σ : SessionState} : Throughout P x scope w σ →
    (∀ a w' σ', x.go scope w σ = (.ok (a, w'), σ') → Throughout P (f a) scope w' σ') →
    Throughout P (x >>= f) scope w σ
  | inside {α : Type} {x : Walk α} {b : Boundary} {scope : Scope} {w : WalkState}
    {σ : SessionState} : Throughout P x scope (w.jump (b.enter w.toJumps)) σ →
    Throughout P (inside b x) scope w σ

variable {body : Body} {α β : Type} {W W' : Var → Prop} {scope : Scope} {w w' : WalkState}
  {σ σ' : SessionState}

/-! ## Containment -/

section

variable [Mentioning α] [Mentioning β] {y x : Walk α}

/-- The walk stays in range when run in a state. -/
structure Stays (scope : Scope) (w : WalkState) (σ : SessionState) (x : Walk α) : Prop where
  throughout : Throughout State.InRange x scope w σ
  fails : ∀ f σ', x.go scope w σ = (.error (.fault f), σ') → f.SparesVariables
  ok : ∀ a w' σ', x.go scope w σ = (.ok (a, w'), σ') →
    w'.InRange ∧ w.vars.Has ≤ w'.vars.Has ∧ Within w'.vars.Has a

/-- The walk of nodes of the body stays in range in all states with the variables of `W`. -/
def Contained (body : Body) (W : Var → Prop) (x : Walk α) : Prop :=
  ∀ ⦃scope w⦄ (σ : SessionState), scope.Fits body → w.InRange → W ≤ w.vars.Has →
    Stays scope w σ x

theorem Stays.of_ok {a : α} (hx : Elementary α x) (hw : w.InRange)
    (hrun : x.go scope w σ = (.ok (a, w'), σ')) (hw' : w'.InRange) (hgrows : w.vars.Has ≤ w'.vars.Has)
    (ha : Within w'.vars.Has a) : Stays scope w σ x := by
  refine ⟨.elementary hx hw.state fun b w'' σ'' h => ?_, fun f σ'' h => ?_, fun b w'' σ'' h => ?_⟩
  all_goals
    rw [hrun] at h
    cases h
  · exact hw'.state
  · exact ⟨hw', hgrows, ha⟩

theorem Stays.of_error {stop : Stop} (hx : Elementary α x) (hw : w.InRange)
    (hrun : x.go scope w σ = (.error stop, σ')) (hstop : ∀ f, stop = .fault f → f.SparesVariables) :
    Stays scope w σ x := by
  refine ⟨.elementary hx hw.state fun _ _ _ h => ?_, fun f _ h => ?_, fun _ _ _ h => ?_⟩
  all_goals
    rw [hrun] at h
    cases h
  exact hstop f rfl

/-- Both parts of a walk stay in range, so the whole does. -/
theorem Stays.bind {f : α → Walk β} (hx : Stays scope w σ x)
    (hf : ∀ a w' σ', x.go scope w σ = (.ok (a, w'), σ') → Stays scope w' σ' (f a)) :
    Stays scope w σ (x >>= f) := by
  refine ⟨.bind hx.throughout fun a w' σ' h => (hf a w' σ' h).throughout,
    fun e σ' h => ?_, fun b w' σ' h => ?_⟩
  · obtain h | ⟨a, w₁, σ₁, hrun, h⟩ := bind_eq_error h
    · exact hx.fails e σ' h
    · exact (hf a w₁ σ₁ hrun).fails e σ' h
  · obtain ⟨a, w₁, σ₁, hrun, h⟩ := bind_eq_ok h
    obtain ⟨hw', hgrows, hb⟩ := (hf a w₁ σ₁ hrun).ok b w' σ' h
    exact ⟨hw', (hx.ok a w₁ σ₁ hrun).2.1.trans hgrows, hb⟩

namespace Contained

variable {f : α → Walk β} {x : Walk α} {xs : List α} {ty : Ty}

theorem mono (h : Contained body W x) (hW : W ≤ W') : Contained body W' x :=
  fun _ _ σ hscope hw hW' => h σ hscope hw (hW.trans hW')

theorem pure {a : α} (ha : Within W a) : Contained body W (pure a : Walk α) :=
  fun _ _ _ _ hw hW => .of_ok (.pure a) hw rfl hw le_rfl (ha.mono hW)

theorem throw {f : Fault} (hf : f.SparesVariables) :
    Contained body W (throw (.fault f) : Walk α) := by
  intro scope w σ hscope hw hW
  refine .of_error (.throw _) hw rfl fun f' h => ?_
  cases h
  exact hf

/-- One walk after the other is contained. -/
theorem bindOf (hx : Contained body W x)
    (hf : ∀ {W'} a, Gives body x a → W ≤ W' → Within W' a → Contained body W' (f a)) :
    Contained body W (x >>= f) := by
  intro scope w σ hscope hw hW
  have hfirst := hx σ hscope hw hW
  refine hfirst.bind fun a w' σ' hrun => ?_
  obtain ⟨hw', hgrows, ha⟩ := hfirst.ok a w' σ' hrun
  exact hf a ⟨scope, w, w', σ, σ', hscope.body, hrun⟩ (hW.trans hgrows) ha σ' hscope hw' le_rfl

theorem bind (hx : Contained body W x)
    (hf : ∀ {W'} a, W ≤ W' → Within W' a → Contained body W' (f a)) : Contained body W (x >>= f) :=
  hx.bindOf fun a _ => hf a

theorem andThen (hx : Contained body W x) (hf : ∀ a, Contained body W (f a)) :
    Contained body W (x >>= f) :=
  hx.bind fun a hW _ => (hf a).mono hW

/-- An inference step of a walk is contained as it is on its own. -/
theorem lift {x : Infer α} (hx : Infer.Contained W x) : Contained body W (liftM x : Walk α) := by
  intro scope w σ hscope hw hW
  have hinner := hx hscope.closed hw.state hW
  refine ⟨.infer hinner.throughout, fun f σ' h => ?_, fun a w' σ' h => ?_⟩
  · rw [lift_run] at h
    split at h
    · cases h
    · next herror =>
      cases h
      exact hinner.fails f herror
  · obtain ⟨s, hrun, rfl⟩ := lift_eq_ok h
    obtain ⟨hgrows, ha⟩ := hinner.ok a s hrun
    exact ⟨⟨hinner.throughout.after hrun, hw.jumps.mono hgrows⟩, hgrows, ha⟩

theorem infer {x : Infer α}
    (hx : ∀ scope, Infer.Orderly scope (fun _ => True) (Infer.Reporting Infer.CacheOp) W x) :
    Contained body W (liftM x : Walk α) :=
  lift (.of_orderly hx)

theorem session {x : SessionM α} (hx : x.Closes) : Contained body W (liftM x : Walk α) := by
  intro scope w σ hscope hw hW
  have hrun := session_run x scope w σ
  rcases hresult : x σ with ⟨stop | a, σ'⟩
  · rw [hresult] at hrun
    refine .of_error (.session x) hw hrun fun f hf => ?_
    rw [hf] at hresult
    exact hx.fails σ f σ' hresult
  · rw [hresult] at hrun
    exact .of_ok (.session x) hw hrun hw le_rfl (hx.closed σ a σ' hresult).within

theorem scopeBind {f : Scope → Walk β} (hf : ∀ {W'} scope, scope.body = body → W ≤ W' →
      scope.Within W' → Contained body W' (f scope)) : Contained body W (read >>= f) := by
  intro scope w σ hscope hw hW
  have : Plain Scope := ⟨⟩
  have hfirst : Stays scope w σ (read : Walk Scope) := .of_ok .read hw rfl hw le_rfl within_plain
  refine hfirst.bind fun _ _ _ h => ?_
  cases h
  exact hf scope hscope.body hW hscope.closed.within σ hscope hw le_rfl

/-- A boundary is contained: the jumps are set again. -/
theorem inside (hx : Contained body W x) (b : Boundary) (hty : Within W b.ty) :
    Contained body W (inside b x) := by
  intro scope w σ hscope hw hW
  have hentered : (w.jump (b.enter w.toJumps)).InRange :=
    ⟨hw.state, b.within_enter hw.jumps (hty.mono hW)⟩
  have hinner := hx σ hscope hentered hW
  refine ⟨.inside hinner.throughout, fun f σ' h => ?_, fun r w' σ' h => ?_⟩
  · exact hinner.fails f σ' (inside_eq_error h)
  · obtain ⟨w₁, hrun, hjumps, rfl⟩ := inside_eq_ok h
    obtain ⟨hinside, hgrows, ha⟩ := hinner.ok r.1 w₁ σ' hrun
    refine ⟨⟨hinside.state, b.within_leave (hw.jumps.mono hgrows) hinside.jumps⟩, hgrows, ?_⟩
    exact within_pair.2 ⟨ha, hjumps ▸ hinside.jumps⟩

/-! ### Control -/

theorem discard (hx : Contained body W x) : Contained body W (discard x) :=
  hx.bind fun _ _ _ => pure within_plain

end Contained

end

/-! ### What a walk keeps and looks up -/

namespace Contained

theorem jumps : Contained body W jumps :=
  fun _ _ _ _ hw _ => .of_ok .jumps hw rfl hw le_rfl hw.jumps

theorem setYielded {ty : Ty} (hty : Within W ty) : Contained body W (setYielded ty) := by
  intro scope w σ hscope hw hW
  obtain ⟨hreturn, htry, -⟩ := within_jumps.1 hw.jumps
  have hset : Within w.vars.Has { w.toJumps with yieldTy := some ty } :=
    within_jumps.2 ⟨hreturn, htry, within_some.2 (hty.mono hW)⟩
  exact .of_ok (.setYielded ty) hw rfl ⟨hw.state, hset⟩ le_rfl within_plain

theorem lookUpPath {id : ExprId} : Contained body W (lookUpPath id) :=
  fun _ _ _ hscope hw _ =>
    .of_ok (.lookUpPath id) hw rfl hw le_rfl (hscope.closed.names.within.path id)

theorem checkCancelled : Contained body W checkCancelled := by
  refine session ⟨fun σ f σ' h => ?_, fun _ _ _ _ _ h => h⟩
  rw [SessionM.checkCancelled_run] at h
  split at h
  · cases h
  · cases h

end Contained

end Walk

/-- The visitor stays in range. -/
structure Visitor.Contained (body : Body) (v : Visitor) : Prop where
  expr : ∀ {W : Var → Prop} (id : ExprId) {expected : Option Ty}, Within W expected →
    Walk.Contained body W (v.expr id expected)
  pat : ∀ {W : Var → Prop} (id : PatId) {ty : Ty} (default : DefaultBinding), Within W ty →
    Walk.Contained body W (v.pat id ty default)
  const : ∀ id, (v.const id).Closes

namespace Walk.Contained

variable {body : Body} {v : Visitor} (hv : v.Contained body) {W : Var → Prop}

include hv

/-- What is put together from contained parts is contained. -/
theorem of_composed {α : Type} [Mentioning α] {roots : List Site} {x : Visitor → Walk α}
    {A : Prop} (h : Composed body (fun _ => True) A W roots x) : Contained body W (x v) := by
  induction h with
  | pure h => exact pure h
  | bindOf _ _ ih ih' => exact ih.bindOf fun a ha hW h => ih' v a ha hW h
  | mono _ hW ih => exact ih.mono hW
  | perm _ _ ih => exact ih
  | scopeBind _ _ ih => exact scopeBind ih
  | lift h =>
    exact lift fun scope _ hscope hs => (h (K := Infer.CacheOp) scope le_rfl).stays hscope hs
  | adjusting _ h => exact lift fun scope _ hscope hs => (h scope le_rfl).stays hscope hs
  | borrow h => exact infer fun _ => .adjust (within_singleton.2 (within_borrowOf.2 h))
  | variantShape h => exact infer fun _ => .variantShape h
  | reportCannotDeref _ h => exact infer fun _ => .reportCannotDeref h
  | lookUpPath id => exact lookUpPath
  | checkCancelled => exact checkCancelled
  | jumps => exact jumps
  | setYielded _ h => exact setYielded h
  | inside b _ _ h ih => exact ih.inside b h
  | const id => exact session (hv.const id)
  | expr h => exact hv.expr _ h
  | pat h => exact hv.pat _ _ h
  | literal _ h =>
    refine (infer fun _ => .literal h).bind fun ty _ hty => ?_
    exact (lift (.writeExprTy hty)).andThen fun _ => pure hty
  | node _ _ _ ih =>
    exact ih.bind fun ty _ hty => (lift (.writeExprTy hty)).andThen fun _ => pure hty
  | blockRoot _ h _ ih => exact (lift (.writeExprTy h)).andThen fun _ => ih
  | binding _ _ h _ ih => exact (lift (.writeBinding h)).andThen fun _ => ih
  | unrecorded _ _ _ ih => exact ih
  | converted h htarget _ ih =>
    refine (hv.expr _ h).bind fun inferred hW hinferred => ?_
    refine (infer fun _ => .coerce hinferred (htarget.mono hW)).andThen fun ok => ?_
    exact ih inferred ok hW hinferred
  | closing _ htarget _ _ ih =>
    refine ih.bind fun ty hW hty => of_ite ?_ (pure within_plain)
    exact (infer fun _ => .coerce hty (htarget.mono hW)).discard
  | elements _ ih | index _ ih | field _ ih | methodCall _ ih => exact ih

/-- The walk of a whole body is contained. -/
theorem wholeBody : Contained body W (wholeBody v) := by
  refine scopeBind fun scope hscope _ _ => ?_
  split
  · exact (of_composed hv (A := False) (.functionBody trivial)).andThen fun _ => lift .finish
  · refine (infer fun _ => .valueTy).bind fun ty _ hty => ?_
    have hroot : Contained body _ (v.coerced scope.body.root ty) :=
      of_composed hv (A := False) (x := fun v => v.coerced _ ty) (.coerced hty)
    exact (hroot.inside (.body ty) hty).discard.andThen fun _ => lift .finish

end Walk.Contained

end TypeInference
