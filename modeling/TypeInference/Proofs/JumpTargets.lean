import TypeInference.Proofs.Congruences

/-!
# Where jumps lead

A `return` converts its value to the return type of what it is inside of, and `?` propagates errors
into a type. The walker holds these two types as it goes. Closures and blocks that are `async` or
`try` replace them for what is inside and set them again before they look at how that ended, so every
rule leaves them as they were, in every outcome (`Walk.keeps_visitor`).

Hence they depend on where an expression stands, and on nothing that happens elsewhere: the rules can
be given the targets of jumps as an argument that is handed down (`Walk.lexical`).
-/

namespace TypeInference

/-- A `yield` is reached from the node. -/
def Body.Yields (body : Body) (site : Site) : Prop :=
  ∃ id value, body.Reaches site (.expr id) ∧ body.expr id = .ok (.yieldValue value)

theorem Body.not_yields_part {body : Body} {site : Site} {parts : List Site}
    (hparts : body.parts site = .ok parts) (h : ¬ body.Yields site) :
    ∀ p ∈ parts, ¬ body.Yields p := by
  rintro p hp ⟨id, value, hreach, hid⟩
  exact h ⟨id, value, (reaches_iff hparts).2 (.inr ⟨p, hp, hreach⟩), hid⟩

/-- Where `return` and `?` lead. -/
structure Targets where
  returnTy : Ty
  tryTy : Ty

def Jumps.targets (j : Jumps) : Targets := ⟨j.returnTy, j.tryTy⟩

/-- The targets inside of a boundary with targets `t` outside. -/
def Boundary.aim (t : Targets) : Boundary → Targets
  | .body ty | .asyncBlock ty => ⟨ty, ty⟩
  | .tryBlock ty => ⟨t.returnTy, ty⟩

namespace Walk

open Infer

variable {α β γ : Type} {body : Body} {t : Targets} {x y : Walk α} {f g : α → Walk β} {v : Visitor}
  {id : ExprId} {e : Expr} {of : Jumps → γ}

/-! ## What a walk leaves alone -/

/-- However the walk ends, what `of` gives of the jumps is as it was. -/
def Keeps (of : Jumps → γ) (body : Body) (x : Walk α) : Prop :=
  ∀ ⦃scope⦄, scope.body = body → ∀ w σ, of (x scope w σ).1.2.toJumps = of w.toJumps

namespace Keeps

theorem bindOf (hx : Keeps of body x) (hf : ∀ a, Gives body x a → Keeps of body (f a)) :
    Keeps of body (x >>= f) := by
  intro scope hbody w σ
  have hfirst := hx hbody w σ
  rw [bind_apply]
  rcases hrun : x scope w σ with ⟨⟨e | a, w₁⟩, σ₁⟩ <;> rw [hrun] at hfirst
  · exact hfirst
  · have hgives : Gives body x a := ⟨scope, w, w₁, σ, σ₁, hbody, by rw [go, hrun]⟩
    exact (hf a hgives hbody w₁ σ₁).trans hfirst

theorem lift (x : Infer α) : Keeps of body (liftM x : Walk α) := by
  intro scope _ w σ
  show of (liftInfer x scope w σ).1.2.toJumps = _
  rw [liftInfer]
  split <;> rfl

theorem session (x : SessionM α) : Keeps of body (liftM x : Walk α) := fun _ _ _ _ => rfl

/-- A body has jumps of its own, all of them. -/
theorem inside_body (ty : Ty) (x : Walk α) : Keeps of body (inside (.body ty) x) := by
  intro scope _ w σ
  rw [inside_apply]
  rfl

/-- The rules keep what boundaries give back, and what a `yield` does not change unless there is
none. -/
theorem congruence {J : Outlet → Prop}
    (hyield : J .yield → ∀ (j : Jumps) ty, of { j with yieldTy := some ty } = of j)
    (hleave : ∀ (b : Boundary) (outer inner : Jumps), of inner = of (b.enter outer) →
      of (b.leave outer inner) = of outer) :
    Congruence body J fun x _ => Keeps of body x where
  toInferring := .of_lift lift
  pure _ _ _ _ _ := rfl
  bindOf := bindOf
  scopeBind _ _ hf _ hbody := hf _ hbody hbody
  exhausted _ _ _ := rfl
  lookUpPath _ _ _ _ _ := rfl
  checkCancelled := session _
  jumps _ _ _ _ := rfl
  setYielded _ hJ _ _ w _ := hyield hJ w.toJumps _
  inside b _ hx scope hbody w σ := by
    rw [inside_apply]
    exact hleave b _ _ (hx hbody _ σ)

/-- The targets of `return` and `?` are kept, as each boundary gives back those that it replaces. -/
theorem targets : Congruence body (fun _ => True) fun x _ => Keeps Jumps.targets body x := by
  refine congruence (fun _ _ _ => rfl) fun b outer inner h => ?_
  cases b with
  | body ty => rfl
  | asyncBlock ty => rfl
  | tryBlock ty => exact congrArg (fun t : Targets => Targets.mk t.returnTy outer.tryTy) h

/-- What is yielded is kept where there is no `yield`. -/
theorem yieldTy : Congruence body (· ≠ .yield) fun x _ => Keeps Jumps.yieldTy body x := by
  refine congruence (fun h => absurd rfl h) fun b outer inner h => ?_
  cases b with
  | body ty => rfl
  | asyncBlock ty | tryBlock ty => exact h

end Keeps

theorem relates_kindTy {J : Outlet → Prop} {S : Site → Prop}
    {R : ∀ {α : Type}, Walk α → Walk α → Prop} (hR : Congruence body J R) {v' : Visitor}
    (hv : Related body S R v v')
    (hS : ∀ {site parts}, body.parts site = .ok parts → S site → ∀ p ∈ parts, S p)
    (hid : body.expr id = .ok e) (hsets : ∀ o, e.sets o = true → J o) (hsite : S (.expr id))
    (expected : Option Ty) : R (kindTy v id expected e) (kindTy v' id expected e) := by
  by_cases hlit : ∃ lit, e = .literal lit
  · obtain ⟨lit, rfl⟩ := hlit
    exact hR.literal lit expected
  · exact hR.of_composed (A := False) (W := fun _ => True) hv hS
      (.kindTy ⟨e, hid⟩ hsets (fun lit h => hlit ⟨lit, h⟩) within_true within_true)
      (hS (Body.parts_expr hid) hsite)

/-- However the walk of a node ends, `return` and `?` lead where they led before. -/
theorem keeps_visitor (const : ConstId → SessionM Ty) (n : Nat) :
    Related body (fun _ => True) (fun x _ => Keeps Jumps.targets body x) (visitor const n)
      (visitor const n) :=
  Keeps.targets.visitor const const (fun _ => trivial) (fun _ => .session _) n

/-! ## Targets as arguments -/

def aim (t : Targets) : Walk Unit := do
  setJumps { ← jumps with returnTy := t.returnTy, tryTy := t.tryTy }

/-- The rules, where `V t` visits nodes whose jumps lead to `t`. -/
def lexicalTy (V : Targets → Visitor) (t : Targets) (id : ExprId) (expected : Option Ty) :
    Expr → Walk Ty
  | .closure params ret body isAsync => do
    let known := (← read).known
    let sig := (← expectedSignature? expected).getD (.ofArity params.length)
    let paramTys ← params.zipIdx.mapM fun (param, i) => closureParam (V t) sig param i
    let (retTy, isFresh) ← closureRet ret sig
    let (_, inner) ← inside (.body retTy) (root (V ⟨retTy, retTy⟩) body)
    let retTy ← if isFresh then liftInfer (unitUnlessAffected retTy) else pure retTy
    match inner.yieldTy with
    | some yieldTy => return generatorTy known (← unitUnlessAffected yieldTy) retTy
    | none => return .fn paramTys (if isAsync then futureTy known retTy else retTy)
  | .block .asyncBlock _ stmts tail => do
    let output ← freshTy
    let (ty, _) ← inside (.asyncBlock output)
      (statements (V ⟨output, output⟩) stmts tail (some output) false)
    unless ty.isNever do unify output ty
    return futureTy (← read).known (← resolve output)
  | .block .tryBlock _ stmts tail => do
    let wrapped ← match expected with
      | some ty => pure ty
      | none => freshTy
    let (ok, _) ← inside (.tryBlock wrapped)
      (statements (V ⟨t.returnTy, wrapped⟩) stmts tail none false)
    if let some trait := (← read).known.fallible then
      register [.ofProjection 0 ⟨⟨wrapped, trait, []⟩, "Ok"⟩ ok]
    return wrapped
  | e => kindTy (V t) id expected e

/-- Visits nodes at most `n` levels down. Jumps lead to the targets that are handed down, whatever
the walker holds. -/
def lexical (const : ConstId → SessionM Ty) : Nat → Targets → Visitor
  | 0, _ => visitor const 0
  | n + 1, t => {
      expr := fun id expected => do
        aim t
        checkCancelled
        let expected ← expectation expected
        let ty ← lexicalTy (lexical const n) t id expected (← (← read).body.expr id)
        writeExprTy id ty
        return ty
      pat := fun id ty default => do
        aim t
        pattern (lexical const n t) id ty default
      const }

def lexicalFunction (const : ConstId → SessionM Ty) (n : Nat) (id : FnId) : Walk Unit := do
  let scope ← read
  let fn ← scope.items.function id
  let self ← scope.items.selfTy fn.owner
  let params ← normalizedList (fn.bodyParams self)
  let ret ← normalized fn.ret
  let v := lexical const n ⟨ret, ret⟩
  discard <| inside (.body ret) do
    scope.body.params.zipIdx.forM fun (pat, i) => v.bindPat pat (params[i]?.getD .unknown)
    root v scope.body.root

/-- Walks a body, where jumps lead out of the body unless something inside stops them. -/
def lexicalBody (const : ConstId → SessionM Ty) (n : Nat) : Walk Outcome := do
  let scope ← read
  match scope.owner with
  | .function id => lexicalFunction const n id
  | owner =>
    let ty ← valueTy owner
    discard (inside (.body ty) ((lexical const n ⟨ty, ty⟩).coerced scope.body.root ty))
  finish

/-- Walks of an expression are related if its rules are. -/
theorem relates_expression {J : Outlet → Prop} {R : ∀ {α : Type}, Walk α → Walk α → Prop}
    (hR : Congruence body J R) (hlift : ∀ {α} (x : Infer α), R (liftM x : Walk α) (liftM x))
    {k : Option Ty → Expr → Walk Ty} (hkind : ∀ {e} expected, body.expr id = .ok e →
      R (kindTy v id expected e) (k expected e)) (expected : Option Ty) :
    R (expression v id expected) (do
      checkCancelled
      let expected ← expectation expected
      let ty ← k expected (← (← read).body.expr id)
      writeExprTy id ty
      return ty) := by
  refine hR.bind hR.checkCancelled fun _ => hR.bind (hlift _) fun expected => ?_
  refine hR.scopeBind (fun _ _ => rfl) (fun _ _ => rfl) fun scope hscope => ?_
  refine hR.bindOf (hlift (liftM (scope.body.expr id))) fun e he => ?_
  exact hR.bind (hkind expected (hscope ▸ he.of_except)) fun _ =>
    hR.bind (hR.writeExprTy ..) fun _ => hR.pure _

/-! ## The same walk -/

/-- The walks do the same in every scope of the body, where jumps lead to these targets. -/
def AlikeAt (body : Body) (t : Targets) (x y : Walk α) : Prop :=
  ∀ scope w σ, scope.body = body → w.targets = t → x scope w σ = y scope w σ

/-- The walks do the same, and jumps lead to these targets afterwards. -/
def AlikeThrough (body : Body) (t : Targets) (x y : Walk α) : Prop :=
  Keeps Jumps.targets body x ∧ AlikeAt body t x y

namespace AlikeAt

theorem refl (x : Walk α) : AlikeAt body t x x := fun _ _ _ _ _ => rfl

theorem bindOf (hx : AlikeThrough body t x y)
    (hf : ∀ a, Gives body x a → AlikeAt body t (f a) (g a)) :
    AlikeAt body t (x >>= f) (y >>= g) := by
  intro scope w σ hbody ht
  have hkeeps := hx.1 hbody w σ
  rw [bind_apply, bind_apply, ← hx.2 scope w σ hbody ht]
  rcases hrun : x scope w σ with ⟨⟨e | a, w₁⟩, σ₁⟩
  · rfl
  · rw [hrun] at hkeeps
    have hgives : Gives body x a := ⟨scope, w, w₁, σ, σ₁, hbody, by rw [go, hrun]⟩
    exact hf a hgives scope w₁ σ₁ hbody (hkeeps.trans ht)

theorem bind (hx : AlikeThrough body t x y) (hf : ∀ a, AlikeAt body t (f a) (g a)) :
    AlikeAt body t (x >>= f) (y >>= g) :=
  bindOf hx fun a _ => hf a

/-- Where jumps lead to the targets already, nothing is set. -/
theorem aim (h : AlikeAt body t x y) : AlikeAt body t x (do aim t; y) := by
  rintro scope w σ hbody rfl
  exact h scope w σ hbody rfl

theorem inside {b : Boundary} (h : AlikeAt body (b.aim t) x y) :
    AlikeAt body t (inside b x) (Walk.inside b y) := by
  rintro scope w σ hbody rfl
  have henter : (b.enter w.toJumps).targets = b.aim w.targets := by
    cases b <;> rfl
  rw [inside_apply, inside_apply, h scope (w.jump (b.enter w.toJumps)) σ hbody henter]

end AlikeAt

namespace AlikeThrough

theorem refl (h : Keeps Jumps.targets body x) : AlikeThrough body t x x := ⟨h, .refl x⟩

theorem lift (x : Infer α) : AlikeThrough body t (liftM x : Walk α) (liftM x) := refl (.lift x)

theorem read : AlikeThrough body t (read : Walk Scope) read := refl fun _ _ _ _ => rfl

theorem inside {b : Boundary} (h : AlikeThrough body (b.aim t) x y) :
    AlikeThrough body t (inside b x) (Walk.inside b y) :=
  ⟨Keeps.targets.inside (x := x) (y := x) b trivial h.1, .inside h.2⟩

theorem congruence : Congruence body (· ≠ .jump) (AlikeThrough body t) where
  toInferring := .of_lift lift
  pure a := refl (Keeps.targets.pure a)
  bindOf hx hf := ⟨hx.1.bindOf fun a ha => (hf a ha).1, .bindOf hx fun a ha => (hf a ha).2⟩
  scopeBind _ _ hf := ⟨fun _ hbody => (hf _ hbody).1 hbody, fun scope w σ hbody ht =>
    (hf scope hbody).2 scope w σ hbody ht⟩
  exhausted := refl Keeps.targets.exhausted
  lookUpPath id := refl (Keeps.targets.lookUpPath id)
  checkCancelled := refl Keeps.targets.checkCancelled
  jumps := refl Keeps.targets.jumps
  setYielded ty _ := refl (Keeps.targets.setYielded ty trivial)
  inside _ h := absurd rfl h

variable {V : Targets → Visitor}
  (hv : ∀ t, Related body (fun _ => True) (AlikeThrough body t) v (V t))

include hv

/-- Rules that set no targets hand their own down. -/
theorem of_composed [Mentioning α] {roots : List Site} {x : Visitor → Walk α}
    (h : Composed body (· ≠ .jump) False (fun _ => True) roots x) :
    AlikeThrough body t (x v) (x (V t)) :=
  congruence.of_composed (hv t) (fun _ _ _ _ => trivial) h fun _ _ => trivial

/-- The rules are those with the targets as an argument. -/
theorem kindTy (hid : body.expr id = .ok e) (expected : Option Ty) :
    AlikeAt body t (kindTy v id expected e) (lexicalTy V t id expected e) := by
  have hplain (hjump : e.sets .jump = false) :
      AlikeAt body t (Walk.kindTy v id expected e) (Walk.kindTy (V t) id expected e) :=
    (relates_kindTy congruence (hv t) (fun _ _ _ _ => trivial) hid
      (fun o ho hj => Bool.false_ne_true (hjump.symm.trans (hj ▸ ho))) trivial expected).2
  cases e with
  | closure params ret inner isAsync =>
    refine .bind .read fun scope => .bind (.lift _) fun sig => .bind ?_ fun _ => ?_
    · exact of_composed hv (.closureParams within_true within_true)
    exact .bind (.lift _) fun ret => .bind (.inside (of_composed hv .root)) fun _ => .refl _
  | block kind label stmts tail =>
    cases kind with
    | plain | unsafeBlock => exact hplain rfl
    | asyncBlock =>
      refine .bind (.lift _) fun output => .bind (.inside ?_) fun _ => .refl _
      exact of_composed hv (.statements within_true within_true)
    | tryBlock =>
      have hinside (wrapped : Ty) : AlikeThrough body t
          (Walk.inside (.tryBlock wrapped) (statements v stmts tail none false))
          (Walk.inside (.tryBlock wrapped)
            (statements (V ⟨t.returnTy, wrapped⟩) stmts tail none false)) :=
        .inside (of_composed hv (.statements within_true within_true))
      cases expected with
      | none => exact .bind (.lift _) fun wrapped => .bind (hinside wrapped) fun _ => .refl _
      | some ty =>
        exact .bind (congruence.pure ty) fun wrapped => .bind (hinside wrapped) fun _ => .refl _
  | _ => exact hplain rfl

end AlikeThrough

/-- The walk of a node is the one with the targets that the walker holds. -/
theorem related_lexical (const : ConstId → SessionM Ty) (n : Nat) (t : Targets) :
    Related body (fun _ => True) (AlikeThrough body t) (visitor const n) (lexical const n t) := by
  induction n generalizing t with
  | zero => exact AlikeThrough.congruence.visitor_zero const const fun _ => .refl (.session _)
  | succ n ih =>
    have hkeeps := @keeps_visitor body const (n + 1)
    refine ⟨hasExpr_of_expression, fun id expected h => ⟨hkeeps.expr id expected h, .aim ?_⟩,
      fun id ty default h => ⟨hkeeps.pat id ty default h, .aim ?_⟩, fun _ => .refl (.session _)⟩
    · refine (relates_expression AlikeThrough.congruence .lift (fun expected hid => ?_) expected).2
      exact ⟨relates_kindTy Keeps.targets (keeps_visitor const n) (fun _ _ _ _ => trivial) hid
        (fun _ _ => trivial) trivial expected, AlikeThrough.kindTy ih hid expected⟩
    · exact (AlikeThrough.of_composed ih (.pattern within_true)).2

theorem wholeBody_eq_lexicalBody (const : ConstId → SessionM Ty) (n : Nat) :
    wholeBody (visitor const n) = lexicalBody const n := by
  have hsame (body : Body) (t : Targets) :
      AlikeAt body t (wholeBody (visitor const n)) (lexicalBody const n) := by
    have hv := @related_lexical body const n
    have hC : Congruence body (· ≠ .jump) (AlikeThrough body t) :=
      AlikeThrough.congruence
    refine .bind .read fun scope => ?_
    cases scope.owner with
    | function id =>
      refine .bind (hC.bind .read fun scope => hC.bind (.lift _) fun fn => hC.bind (.lift _) fun _ =>
        hC.bind (.lift _) fun params => hC.bind (.lift _) fun ret => ?_) fun _ => .refl _
      refine hC.bind (.inside (AlikeThrough.congruence.bind ?_ fun _ => .of_composed hv .root))
        fun _ => hC.pure _
      exact .of_composed hv (x := fun v => scope.body.params.zipIdx.forM fun (pat, i) =>
        v.bindPat pat (params[i]?.getD .unknown))
        (.forM_zipIdx fun _ _ hW => .bindPat (within_true.mono hW))
    | _ =>
      refine .bind (.lift _) fun ty => .bind (hC.bind (.inside ?_) fun _ => hC.pure _) fun _ => .refl _
      exact .of_composed hv (.coerced within_true)
  funext scope w σ
  exact hsame _ _ _ _ _ rfl rfl

/-! ## What is yielded -/

section

variable (hv : Related body (¬ body.Yields ·) (fun x _ => Keeps Jumps.yieldTy body x) v v)

include hv

theorem keepsYield_closure {params : List ClosureParam} {ret expected : Option Ty}
    {inner : ExprId} {isAsync : Bool} (hparams : ∀ p ∈ params, ¬ body.Yields (.pat p.pat)) :
    Keeps Jumps.yieldTy body (closure v params ret inner isAsync expected) := by
  have hmatch (sig : Signature) : Keeps Jumps.yieldTy body
      (params.zipIdx.mapM fun (param, i) => closureParam v sig param i) :=
    Keeps.yieldTy.of_composed (A := False) (W := fun _ => True) hv Body.not_yields_part
      (.closureParams within_true within_true) (by simpa using hparams)
  refine .bindOf (fun _ _ _ _ => rfl) fun scope _ => .bindOf (.lift _) fun sig _ => ?_
  refine (hmatch _).bindOf fun tys _ => .bindOf (.lift _) fun ret _ => ?_
  refine .bindOf (.inside_body ..) fun inner _ => ?_
  obtain ⟨retTy, isFresh⟩ := ret
  obtain ⟨_, returnTy, tryTy, yieldTy⟩ := inner
  have hret (k : Ty → Walk Ty) (hk : ∀ ty, Keeps Jumps.yieldTy body (k ty)) :
      Keeps Jumps.yieldTy body (do
        let retTy ← if isFresh then liftInfer (unitUnlessAffected retTy) else pure retTy
        k retTy) := by
    cases isFresh with
    | true => exact .bindOf (.lift _) fun ty _ => hk ty
    | false => exact hk retTy
  refine hret _ fun ty => ?_
  cases yieldTy with
  | none => exact Keeps.yieldTy.pure _
  | some yieldTy => exact .bindOf (.lift _) fun _ _ => Keeps.yieldTy.pure _

theorem keepsYield_kindTy (hid : body.expr id = .ok e) (hyields : ¬ body.Yields (.expr id))
    (expected : Option Ty) : Keeps Jumps.yieldTy body (kindTy v id expected e) := by
  have hplain (hyield : e.sets .yield = false) :
      Keeps Jumps.yieldTy body (Walk.kindTy v id expected e) :=
    relates_kindTy Keeps.yieldTy hv Body.not_yields_part hid
      (fun o ho hy => Bool.false_ne_true (hyield.symm.trans (hy ▸ ho))) hyields expected
  cases e with
  | yieldValue value => exact absurd ⟨id, value, .refl, hid⟩ hyields
  | closure params ret inner isAsync =>
    have hparts := Body.not_yields_part (Body.parts_expr hid) hyields
    refine keepsYield_closure hv fun p hp => hparts _ (List.mem_append_right _ ?_)
    exact List.mem_map_of_mem (List.mem_map_of_mem hp)
  | block kind label stmts tail => exact hplain (by cases kind <;> rfl)
  | _ => exact hplain rfl

end

/-- However the walk of a node without a `yield` ends, what is yielded is what was yielded before. -/
theorem keepsYield_visitor (const : ConstId → SessionM Ty) (n : Nat) :
    Related body (¬ body.Yields ·) (fun x _ => Keeps Jumps.yieldTy body x) (visitor const n)
      (visitor const n) := by
  induction n with
  | zero => exact Keeps.yieldTy.visitor_zero const const fun _ => .session _
  | succ n ih =>
    refine ⟨hasExpr_of_expression, fun id expected h => ?_, fun id ty default h => ?_,
      fun _ => .session _⟩
    · exact relates_expression Keeps.yieldTy .lift (k := kindTy (visitor const n) id)
        (fun expected hid => keepsYield_kindTy ih hid h expected) expected
    · exact Keeps.yieldTy.of_composed (A := False) ih Body.not_yields_part
        (.pattern within_true) (by simpa using h)

/-- However the walk of an expression ends, `return` and `?` lead where they led before; the walk is
the one in which these targets are handed down, and the walk of a body begins with the type that is
expected of the body. However the walk of a closure ends, it leaves alone what is yielded around it,
unless there is a `yield` in the patterns of its parameters. -/
theorem targets_scoped (const : ConstId → SessionM Ty) (n : Nat) :
    (∀ scope id expected w σ, let w' := ((visitor const n).expr id expected scope w σ).1.2
      w'.returnTy = w.returnTy ∧ w'.tryTy = w.tryTy) ∧
    (∀ scope id expected w σ, (visitor const n).expr id expected scope w σ =
      (lexical const n w.targets).expr id expected scope w σ) ∧
    wholeBody (visitor const n) = lexicalBody const n ∧
    ∀ scope id params ret inner isAsync expected w σ,
      scope.body.expr id = .ok (.closure params ret inner isAsync) →
      (∀ p ∈ params, ¬ scope.body.Yields (.pat p.pat)) →
      ((visitor const n).expr id expected scope w σ).1.2.yieldTy = w.yieldTy := by
  refine ⟨fun scope id expected w σ => ?_, fun scope id expected w σ => ?_,
    wholeBody_eq_lexicalBody const n, ?_⟩
  · exact Targets.mk.inj ((keeps_visitor const n).expr id expected trivial rfl w σ)
  · exact ((related_lexical const n w.targets).expr id expected trivial).2 scope w σ rfl rfl
  · intro scope id params ret inner isAsync expected w σ hid hparams
    cases n with
    | zero => rfl
    | succ n =>
      refine relates_expression Keeps.yieldTy .lift (k := kindTy (visitor const n) id)
        (fun {e} expected he => ?_) expected rfl w σ
      rw [hid] at he
      cases he
      exact keepsYield_closure (keepsYield_visitor const n) hparams

end Walk

/-! ## A `yield` in the pattern of a parameter -/

/-- The body `{ || { |yield| {}; }; }`. -/
def Body.yieldingParam : Body := .ofNodes
  [.yieldValue none, .block .plain none [] none, .closure [⟨⟨0⟩, none⟩] none ⟨1⟩ false,
    .block .plain none [.expr ⟨2⟩] none, .closure [] none ⟨3⟩ false,
    .block .plain none [.expr ⟨4⟩] none] [.lit ⟨0⟩] []

def Scope.yieldingParam : Scope :=
  ({ program := { items := .empty, known := {}, bodies := [] } } : Session).scope (.function ⟨0⟩)
    .yieldingParam .empty .empty

namespace Walk

/-- What stops the walk of an expression of `Body.yieldingParam`, and what is yielded then. -/
def yieldedBy (id : ExprId) (w : WalkState) (request : Request) : Option Stop × Option Ty :=
  match (visitor (fun _ => pure .unknown) 6).expr id none .yieldingParam w { request } with
  | ((.ok _, w'), _) => (none, w'.yieldTy)
  | ((.error stop, w'), _) => (some stop, w'.yieldTy)

/-- The outer closure leaves alone what is yielded, also if the user cancels after the `yield`. -/
theorem targets_scoped_yieldingParam :
    yieldedBy ⟨4⟩ {} .never = (none, none) ∧
    yieldedBy ⟨4⟩ { yieldTy := some .unit } (.beforeCheck 4) = (some .cancelled, some .unit) := by
  have hkeeps (w : WalkState) (request : Request) : (yieldedBy ⟨4⟩ w request).2 = w.yieldTy := by
    have hrun := (targets_scoped (fun _ => pure .unknown) 6).2.2.2 .yieldingParam ⟨4⟩ [] none ⟨3⟩ false
      none w { request } rfl nofun
    rw [yieldedBy]
    split <;> next h => rwa [h] at hrun
  exact ⟨Prod.ext (by decide +kernel) (hkeeps _ _), Prod.ext (by decide +kernel) (hkeeps _ _)⟩

/-- The inner closure does not, in either case: the `yield` in its parameter is one of the outer
closure, which becomes a generator. -/
theorem param_yields :
    (yieldedBy ⟨2⟩ {} .never).1 = none ∧ (yieldedBy ⟨2⟩ {} .never).2 ≠ none ∧
    (yieldedBy ⟨2⟩ {} (.beforeCheck 3)).1 = some .cancelled ∧
    (yieldedBy ⟨2⟩ {} (.beforeCheck 3)).2 ≠ none := by
  decide +kernel

end Walk

end TypeInference
