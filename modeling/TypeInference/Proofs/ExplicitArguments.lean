import TypeInference.Proofs.Mirroring

/-!
# Explicit arguments in any order

The arguments written at a use are unified with the variables of their parameters one by one, and
one that does not fit is passed over. A type without variables can only give values to the variables
that the other type leads to, and what it gives them depends on these alone. So arguments for
variables that have nothing in common come to the same in any order. Where-clauses may have tied the
variables together, though, and then it is the argument that is taken first that counts.
-/

namespace TypeInference

variable {W : Var → Prop} {a t x y : Ty}

theorem Closed.isVar_eq_false (ht : Closed t) : t.isVar = false := by
  rcases t.eq_var_or with ⟨v, rfl⟩ | hnode
  · exact absurd (List.mem_singleton_self v) (ht v)
  · exact hnode

namespace Vars

open Ty (within_var)

variable {vs ws vs₁ ws₁ : Vars} {v : Var} {c : Except Fault Ty} {ok ok' : Bool} {p : Problem}
  {es es' : List (Ty × Ty)}

/-! ## Variables that agree in part -/

/-- The variables of which `W` holds lead to such only, and they have the same representatives and
values on both sides. -/
structure AgreeOn (W : Var → Prop) (vs ws : Vars) : Prop where
  keeps : Keeps (Within W) vs
  root : ∀ v, W v → ws.rootVar v = vs.rootVar v
  value : ∀ v, W v → ws.valueOf v = vs.valueOf v

/-- All classes stay as they are, and at most those of which `W` holds get a value. -/
structure Fills (W : Var → Prop) (vs vs₁ : Vars) : Prop where
  root : ∀ v, vs₁.rootVar v = vs.rootVar v
  value : ∀ v, ¬ (W v ∧ vs.valueOf v = .ok none) → vs₁.valueOf v = vs.valueOf v

theorem Fills.refl (vs : Vars) : Fills W vs vs := ⟨fun _ => rfl, fun _ _ => rfl⟩

theorem Fills.trans {vs₂ : Vars} (h : Fills W vs vs₁) (h' : Fills W vs₁ vs₂) : Fills W vs vs₂ where
  root v := (h'.root v).trans (h.root v)
  value v hv := by
    have hfirst := h.value v hv
    exact (h'.value v (by rwa [hfirst])).trans hfirst

theorem Binds.fills (h : vs.Binds v t vs₁) (hW : ∀ w, vs.rootVar w = .ok v → W w) :
    Fills W vs vs₁ where
  root := h.root_eq
  value w hw := h.value_other w fun hroot =>
    hw ⟨hW w hroot, (valueOf_rootVar hroot).symm.trans h.isOpen.2⟩

namespace AgreeOn

/-- What the variables stand for is the same on both sides. -/
theorem heads (h : AgreeOn W vs ws) (hx : vs.Heads a x) (ha : Within W a) : ws.Heads a x := by
  induction hx with
  | node hnode => exact .node hnode
  | @bound v t _ hvalue _ ih =>
    exact .bound ((h.value v (within_var.1 ha)).trans hvalue) (ih (h.keeps.value v t ha hvalue))
  | @unbound v _ hvalue hroot =>
    have hv := within_var.1 ha
    exact .unbound ((h.value v hv).trans hvalue) ((h.root v hv).trans hroot)

theorem binds (h : AgreeOn W vs ws) (hb : vs.Binds v t vs₁) (hb' : ws.Binds v t ws₁)
    (ht : Closed t) : AgreeOn W vs₁ ws₁ where
  keeps := hb.keeps h.keeps ht.within
  root w hw := by rw [hb'.root_eq, hb.root_eq, h.root w hw]
  value w hw := by
    by_cases hroot : vs.rootVar w = .ok v
    · rw [hb.value_self w hroot, hb'.value_self w ((h.root w hw).trans hroot)]
    · rw [hb.value_other w hroot, hb'.value_other w (h.root w hw ▸ hroot), h.value w hw]

/-- What has no variables does the same to what is the same on both sides, and nothing to the
rest. -/
theorem link (h : AgreeOn W vs ws) (hW : ∀ w, ws.rootVar w = .ok v → W w) (ht : Closed t)
    (hlinks : Links c vs v t ok vs₁) (hlinks' : Links c ws v t ok' ws₁) :
    ok' = ok ∧ AgreeOn W vs₁ ws₁ ∧ Fills W ws ws₁ := by
  have hvars : t.vars = [] := List.eq_nil_iff_forall_not_mem.2 ht
  have hoccurs (vs : Vars) : vs.occursVar v t = .ok false := by
    cases v with
    | ty i =>
      rw [occursVar, occursIn, mentions, hvars]
      rfl
    | _ => rfl
  have hlinks := hlinks.of_node ht.isVar_eq_false
  have hlinks' := hlinks'.of_node ht.isVar_eq_false
  cases hkind : v.standsFor t with
  | true =>
    obtain ⟨rfl, found, hfound, hbinds⟩ := hlinks.bound hkind
    obtain ⟨rfl, found', hfound', hbinds'⟩ := hlinks'.bound hkind
    cases (hoccurs _).symm.trans hfound
    cases (hoccurs _).symm.trans hfound'
    exact ⟨rfl, h.binds hbinds hbinds' ht, hbinds'.fills hW⟩
  | false =>
    obtain ⟨rfl, rfl⟩ := hlinks.kept hkind
    obtain ⟨rfl, rfl⟩ := hlinks'.kept hkind
    exact ⟨rfl, h, .refl _⟩

/-- The second run takes up the task of the first, since both see the same types. -/
theorem performs {b : Ty} {task : Task} (h : AgreeOn W vs ws) (ha : vs.Heads a x)
    (hb : vs.Heads b y) (hp : Within W a ∧ Closed b) (htask : HasTask x y task)
    (he : Evaluates c (.pair a b) ws ok ws₁) :
    Within W x ∧ Closed y ∧ Performs c task ws ok ws₁ := by
  have hnode := hp.2.isVar_eq_false
  obtain rfl := hb.eq_of_node hnode
  exact ⟨ha.keeps h.keeps hp.1, hp.2, he.performs (h.heads ha hp.1) (.node hnode) htask⟩

/-- So it is for unification with types without variables. -/
theorem evaluates (h : AgreeOn W vs ws) (hW : ∀ v r, ws.rootVar v = .ok r → W r → W v)
    (he : Evaluates c p vs ok vs₁) (he' : Evaluates c p ws ok' ws₁)
    (hp : p.Each (Within W) Closed) :
    ok' = ok ∧ AgreeOn W vs₁ ws₁ ∧ Fills W ws ws₁ := by
  have hnext {ws ws₁ : Vars} (hW : ∀ v r, ws.rootVar v = .ok r → W r → W v) (h : Fills W ws ws₁)
      (v r : Var) (hr : ws₁.rootVar v = .ok r) : W r → W v := hW v r (h.root v ▸ hr)
  have hleft : Ty.Inherited (Within W) := Within.component
  have hright : Ty.Inherited Closed := fun h hc => h.within.component hc
  induction he generalizing ws ok' ws₁ with
  | nil =>
    cases he'
    exact ⟨rfl, h, .refl _⟩
  | cons _ _ ih ih' =>
    obtain ⟨ha, has⟩ := List.forall_mem_cons.1 hp.1
    obtain ⟨hb, hbs⟩ := List.forall_mem_cons.1 hp.2
    cases he' with
    | cons hfirst hrest =>
      obtain ⟨rfl, h, hfills⟩ := ih h hW hfirst ⟨ha, hb⟩
      obtain ⟨rfl, h, hfills'⟩ := ih' h (hnext hW hfills) hrest ⟨has, hbs⟩
      exact ⟨rfl, h, hfills.trans hfills'⟩
  | link ha hb htask hlinks =>
    obtain ⟨hx, hy, hlinks'⟩ := h.performs ha hb hp htask he'
    cases htask with
    | left => exact h.link (fun w hw => hW w _ hw (within_var.1 hx)) hy hlinks hlinks'
    | right => cases hy.isVar_eq_false
  | decided ha hb htask =>
    obtain ⟨-, -, rfl, rfl⟩ := h.performs ha hb hp htask he'
    exact ⟨rfl, h, .refl _⟩
  | components ha hb htask _ ih =>
    obtain ⟨hx, hy, hlist⟩ := h.performs ha hb hp htask he'
    exact ih h hW hlist (htask.each_components hleft hright hx hy)
  | signature ha hb htask _ _ ih ih' =>
    obtain ⟨hx, hy, hdone⟩ := h.performs ha hb hp htask he'
    obtain ⟨hp₁, hp₂⟩ := htask.each_signature hleft hright hx hy
    rcases hdone with ⟨ws₂, hlist, hresult⟩ | ⟨-, hlist⟩
    · obtain ⟨-, h, hfills⟩ := ih h hW hlist hp₁
      obtain ⟨rfl, h, hfills'⟩ := ih' h (hnext hW hfills) hresult hp₂
      exact ⟨rfl, h, hfills.trans hfills'⟩
    · cases (ih h hW hlist hp₁).1
  | refused ha hb htask _ ih =>
    obtain ⟨hx, hy, hdone⟩ := h.performs ha hb hp htask he'
    obtain ⟨hp₁, -⟩ := htask.each_signature hleft hright hx hy
    rcases hdone with ⟨ws₂, hlist, -⟩ | ⟨rfl, hlist⟩
    · cases (ih h hW hlist hp₁).1
    · exact ih h hW hlist hp₁

end AgreeOn

/-! ## The reach of a type -/

/-- The variable comes to variables only to which the type comes. -/
def Reach (vs : Vars) (x : Ty) (v : Var) : Prop :=
  (vs.extend .var v).vars ⊆ (x.assign (vs.extend .var)).vars

theorem within_reach : Within (vs.Reach x) t ↔
    (t.assign (vs.extend .var)).vars ⊆ (x.assign (vs.extend .var)).vars := by
  constructor
  · intro h u hu
    obtain ⟨v, hv, hu⟩ := Ty.mem_vars_assign.1 hu
    exact h v hv hu
  · exact fun h v hv u hu => h (Ty.mem_vars_assign.2 ⟨v, hv, hu⟩)

/-- The variables that a type leads to lead to no others. -/
theorem Sound.agreeOn_self (hs : vs.Sound) (x : Ty) : AgreeOn (vs.Reach x) vs vs where
  keeps := by
    have hσ := hs.satisfies_extend .var
    constructor
    · intro v r hv hr
      rw [within_var, Reach, ← hσ.root v r hr]
      exact within_var.1 hv
    · intro v t hv ht
      rw [within_reach, ← hσ.value v t ht]
      exact within_var.1 hv
  root _ _ := rfl
  value _ _ := rfl

/-- Two types that come to no variable in common can lead only to variables with a value in
common. -/
theorem Sound.not_unbound_of_reach (hs : vs.Sound)
    (hxy : List.Disjoint (x.assign (vs.extend .var)).vars (y.assign (vs.extend .var)).vars)
    (hx : vs.Reach x v) (hy : vs.Reach y v) : vs.valueOf v ≠ .ok none := by
  intro hvalue
  obtain ⟨r, hr⟩ := exists_rootVar_of_valueOf hvalue
  have hopen : vs.Open r := ⟨rootVar_rootVar hr, (valueOf_rootVar hr).trans hvalue⟩
  have hself : r ∈ (vs.extend .var v).vars := by
    rw [(hs.satisfies_extend .var).root v r hr, extend_of_open hopen]
    exact List.mem_singleton_self r
  exact hxy (hx hself) (hy hself)

/-! ## Several arguments -/

/-- The arguments have no variables, and the resolved forms of what they are for have none in
common. -/
structure Independent (vs : Vars) (es : List (Ty × Ty)) : Prop where
  grounded : ∀ e ∈ es, vs.Grounded e.1
  closed : ∀ e ∈ es, Closed e.2
  apart : es.Pairwise fun e e' => ∀ r r', vs.resolve e.1 = .ok r → vs.resolve e'.1 = .ok r' →
    List.Disjoint r.vars r'.vars

theorem Independent.disjoint {e e' : Ty × Ty} (h : vs.Independent (e :: es)) (hs : vs.Sound)
    (he' : e' ∈ es) :
    List.Disjoint (e.1.assign (vs.extend .var)).vars (e'.1.assign (vs.extend .var)).vars := by
  obtain ⟨r, hr⟩ := (hs.resolve_settles .var e.1).exists_ok (h.grounded e (.head _))
  obtain ⟨r', hr'⟩ := (hs.resolve_settles .var e'.1).exists_ok (h.grounded e' (.tail _ he'))
  rw [← hs.resolve_eq hr, ← hs.resolve_eq hr']
  exact List.rel_of_pairwise_cons h.apart he' r r' hr hr'

theorem Independent.tail {e : Ty × Ty} (h : vs.Independent (e :: es)) : vs.Independent es where
  grounded e' he' := h.grounded e' (.tail _ he')
  closed e' he' := h.closed e' (.tail _ he')
  apart := h.apart.tail

theorem Independent.perm (h : vs.Independent es) (hperm : es'.Perm es) : vs.Independent es' where
  grounded e he := h.grounded e (hperm.mem_iff.1 he)
  closed e he := h.closed e (hperm.mem_iff.1 he)
  apart := (hperm.pairwise_iff fun h r r' hr hr' => (h r' r hr' hr).symm).2 h.apart

/-- Starting from `ws`, each argument has done to the open variables that it is for what it does to
them alone, and the rest is as it was. -/
structure Filled (vs : Vars) (es : List (Ty × Ty)) (ws ws' : Vars) : Prop where
  root : ∀ v, ws'.rootVar v = ws.rootVar v
  inside : ∀ e ∈ es, ∀ ok vs₁, combine e.1 e.2 vs = .ok (ok, vs₁) →
    ∀ v, vs.Reach e.1 v → vs.valueOf v = .ok none → ws'.valueOf v = vs₁.valueOf v
  outside : ∀ v, (∀ e ∈ es, ¬ (vs.Reach e.1 v ∧ vs.valueOf v = .ok none)) →
    ws'.valueOf v = ws.valueOf v

theorem grounded_of_closed (ht : Closed t) : vs.Grounded t :=
  grounded_iff.2 fun v hv => absurd hv (ht v)

open Infer in
/-- Arguments one after the other do what each of them does alone. -/
theorem Independent.exists_filled (scope : Scope) {s : State} (hs : vs.Sound)
    (h : vs.Independent es) (hs' : s.vars.Sound) (hground : ∀ e ∈ es, s.vars.Grounded e.1)
    (hroot : ∀ v, s.vars.rootVar v = vs.rootVar v)
    (hagree : ∀ e ∈ es, AgreeOn (vs.Reach e.1) vs s.vars) :
    ∃ ws, es.forM (fun e => unify e.1 e.2) scope s = .ok ((), { s with vars := ws }) ∧
      ws.Sound ∧ Filled vs es s.vars ws := by
  induction es generalizing s with
  | nil => exact ⟨s.vars, rfl, hs', fun _ => rfl, nofun, fun _ _ => rfl⟩
  | cons e es ih =>
    have hmem : e ∈ e :: es := .head _
    have hclosed := h.closed e hmem
    obtain ⟨ok, vs₁, halone⟩ := hs.exists_combine (h.grounded e hmem) (grounded_of_closed hclosed)
    obtain ⟨ok', ws₁, hrun⟩ := hs'.exists_combine (hground e hmem) (grounded_of_closed hclosed)
    have hwhole (v r : Var) (hr : s.vars.rootVar v = .ok r) (hv : vs.Reach e.1 r) :
        vs.Reach e.1 v := by
      rwa [Reach, (hs.satisfies_extend .var).root v r (hroot v ▸ hr)]
    have he := derives_combineOr tolerant_unknown e.1 e.2 hs' hrun
    obtain ⟨-, hafter, hfills⟩ := (hagree e hmem).evaluates hwhole
      (derives_combineOr tolerant_unknown e.1 e.2 hs halone) he
      ⟨within_reach.2 (List.Subset.refl _), hclosed⟩
    -- The others find their variables as they were: what they share with this one has values.
    have hothers (e' : Ty × Ty) (he' : e' ∈ es) : AgreeOn (vs.Reach e'.1) vs ws₁ := by
      have hagree' := hagree e' (.tail _ he')
      refine ⟨hagree'.keeps, fun v hv => (hfills.root v).trans (hroot v), fun v hv => ?_⟩
      refine (hfills.value v fun hopen => ?_).trans (hagree'.value v hv)
      exact hs.not_unbound_of_reach (h.disjoint hs he') hopen.1 hv
        (hagree'.value v hv ▸ hopen.2)
    obtain ⟨ws, hrest, hsound, hfilled⟩ := ih (s := { s with vars := ws₁ }) h.tail
      (he.steps.sound hs')
      (fun e' he' => grounded_of_combineOr tolerant_unknown hs' (hground e hmem)
        (grounded_of_closed hclosed) hrun (hground e' (.tail _ he')))
      (fun v => (hfills.root v).trans (hroot v)) hothers
    refine ⟨ws, ok_then (unify_run hrun) hrest, hsound, ?_, ?_, ?_⟩
    · exact fun v => (hfilled.root v).trans (hfills.root v)
    · intro e' he' ok'' vs₂ halone' v hv hvalue
      rcases List.mem_cons.1 he' with rfl | he'
      · cases halone.symm.trans halone'
        rw [← hafter.value v hv]
        refine hfilled.outside v fun e' he' hopen => ?_
        exact hs.not_unbound_of_reach (h.disjoint hs he') hv hopen.1 hvalue
      · exact hfilled.inside e' he' ok'' vs₂ halone' v hv hvalue
    · intro v hv
      refine (hfilled.outside v fun e' he' => hv e' (.tail _ he')).trans
        (hfills.value v fun hopen => ?_)
      exact hv e hmem ⟨hopen.1, (hagree e hmem).value v hopen.1 ▸ hopen.2⟩

/-- So their order does not matter. -/
theorem Filled.unchanged (hs : vs.Sound) (h : vs.Independent es) (hperm : es'.Perm es)
    (hw : Filled vs es vs ws) (hw₁ : Filled vs es' vs ws₁) : Unchanged ws ws₁ where
  root v := (hw₁.root v).trans (hw.root v).symm
  value v := by
    by_cases hv : ∃ e ∈ es, vs.Reach e.1 v ∧ vs.valueOf v = .ok none
    · obtain ⟨e, he, hreach, hvalue⟩ := hv
      obtain ⟨ok, alone, halone⟩ :=
        hs.exists_combine (h.grounded e he) (grounded_of_closed (h.closed e he))
      rw [hw.inside e he ok alone halone v hreach hvalue,
        hw₁.inside e (hperm.mem_iff.2 he) ok alone halone v hreach hvalue]
    · have hout (e : Ty × Ty) (he : e ∈ es) : ¬ (vs.Reach e.1 v ∧ vs.valueOf v = .ok none) :=
        fun hopen => hv ⟨e, he, hopen⟩
      rw [hw.outside v hout, hw₁.outside v fun e he => hout e (hperm.mem_iff.1 he)]

end Vars

open Infer

/-- The arguments that say anything, with what stands for their parameters, as they come. -/
def Subst.pinned (explicit vars : Subst) : List (Ty × Ty) :=
  explicit.entries.reverse.filterMap fun e =>
    if isInformative e.1 e.2 then (vars.get? e.1).map fun x => (x, e.2) else none

/-- Pinning unifies what is informative, one by one. -/
theorem Infer.pin_eq (explicit vars : Subst) :
    pin explicit vars = (explicit.pinned vars).forM fun e => unify e.1 e.2 := by
  unfold pin Subst.pinned
  induction explicit.entries.reverse with
  | nil => rfl
  | cons e es ih =>
    obtain ⟨p, ty⟩ := e
    rw [List.forM, List.filterMap_cons, ih]
    dsimp only
    cases isInformative p ty with
    | false => rfl
    | true => cases vars.get? p <;> rfl

/-- At all times the arguments written at a use can be taken in any order, as long as the variables
of their parameters have nothing in common: every type resolves to the same afterwards. What is open
in what a parameter stands for gets the value that its argument alone would give it. -/
theorem History.pin_perm {scope : Scope} {v : Versions State Mark} {explicit explicit' vars : Subst}
    (h : History (Walk.Works scope) v) (hperm : explicit'.entries.Perm explicit.entries)
    (hvars : v.current.vars.Independent (explicit.pinned vars)) :
    ∃ vs ws, pin explicit vars scope v.current = .ok ((), { v.current with vars := vs }) ∧
      pin explicit' vars scope v.current = .ok ((), { v.current with vars := ws }) ∧
      (∀ t r, vs.resolve t = .ok r ↔ ws.resolve t = .ok r) ∧
      ∀ e ∈ explicit.pinned vars, ∀ ok alone r,
        Vars.combine e.1 e.2 v.current.vars = .ok (ok, alone) → v.current.vars.resolve e.1 = .ok r →
          ∀ x ∈ r.vars, vs.valueOf x = alone.valueOf x := by
  have hs : v.current.vars.Sound := h.wellFormed.vars
  have hpinned : (explicit'.pinned vars).Perm (explicit.pinned vars) :=
    (((List.reverse_perm _).trans hperm).trans (List.reverse_perm _).symm).filterMap _
  have hexists {es : List (Ty × Ty)} (hes : v.current.vars.Independent es) :=
    hes.exists_filled scope hs hs hes.grounded (fun _ => rfl) fun e _ => hs.agreeOn_self e.1
  obtain ⟨vs, hrun, hvs, hfilled⟩ := hexists hvars
  obtain ⟨ws, hrun', hws, hfilled'⟩ := hexists (hvars.perm hpinned)
  have hsame := hfilled.unchanged hs hvars hpinned hfilled'
  rw [← pin_eq] at hrun hrun'
  refine ⟨vs, ws, hrun, hrun', fun t r => ⟨hsame.resolve hvs hws, hsame.symm.resolve hws hvs⟩, ?_⟩
  intro e he ok alone r halone hr x hx
  have hopen := Vars.isOpen_of_mem_resolve hr hx
  refine hfilled.inside e he ok alone halone x (fun u hu => ?_) hopen.2
  rw [Vars.extend_of_open hopen] at hu
  rw [← hs.resolve_eq hr, List.mem_singleton.1 hu]
  exact hx

/-- The parameters stand for new variables. -/
theorem History.pin_perm_new : ∃ v vs ws, History (Walk.Works .bare) v ∧
    pin ⟨[(⟨1⟩, .slice .bool), (⟨2⟩, .char)]⟩ ⟨[(⟨1⟩, .var (.ty 0)), (⟨2⟩, .var (.ty 1))]⟩ .bare
      v.current = .ok ((), { v.current with vars := vs }) ∧
    pin ⟨[(⟨2⟩, .char), (⟨1⟩, .slice .bool)]⟩ ⟨[(⟨1⟩, .var (.ty 0)), (⟨2⟩, .var (.ty 1))]⟩ .bare
      v.current = .ok ((), { v.current with vars := ws }) ∧
    vs.valueOf (.ty 0) = .ok (some (.slice .bool)) ∧
    ∀ t r, vs.resolve t = .ok r ↔ ws.resolve t = .ok r := by
  have hstart := History.atStart .bare
  have htwo := (hstart.operate .freshTy rfl).operate .freshTy rfl
  obtain ⟨v, ok, alone, h, hfirst, hsecond, halone, hvalue⟩ : ∃ v ok alone,
      History (Walk.Works .bare) v ∧
      v.current.vars.resolve (.var (.ty 0)) = .ok (.var (.ty 0)) ∧
      v.current.vars.resolve (.var (.ty 1)) = .ok (.var (.ty 1)) ∧
      Vars.combine (.var (.ty 0)) (.slice .bool) v.current.vars = .ok (ok, alone) ∧
      alone.valueOf (.ty 0) = .ok (some (.slice .bool)) := ⟨_, _, _, htwo, rfl, rfl, rfl, rfl⟩
  have hvars : v.current.vars.Independent
      [(.var (.ty 1), .char), (.var (.ty 0), .slice .bool)] := by
    refine ⟨?_, ?_, ?_⟩
    · simpa using ⟨Vars.grounded_of_resolve hsecond, Vars.grounded_of_resolve hfirst⟩
    · simpa using ⟨(nofun : Closed Ty.char), (nofun : Closed (Ty.slice .bool))⟩
    · simp [hfirst, hsecond]
  obtain ⟨vs, ws, hpin, hpin', hsame, hself⟩ := @History.pin_perm .bare v
    ⟨[(⟨1⟩, .slice .bool), (⟨2⟩, .char)]⟩ _ ⟨[(⟨1⟩, .var (.ty 0)), (⟨2⟩, .var (.ty 1))]⟩ h
    (.swap ..) hvars
  refine ⟨v, vs, ws, h, hpin, hpin', ?_, hsame⟩
  have hown := hself (.var (.ty 0), .slice .bool) (.tail _ (.head _)) ok alone _ halone hfirst
  rw [hown (.ty 0) (.head _), hvalue]

/-- An impl of `Of<X>` for `[X]`. -/
def Scope.tying : Scope :=
  { Scope.bare with
    items := { Items.empty with
      paramNames := #["Self", "T", "U", "X"]
      traits := #[⟨"Of", ⟨[⟨3⟩], []⟩, ["Out"]⟩, ⟨"Shown", .empty, []⟩]
      impls := #[⟨⟨[⟨3⟩], []⟩, some (⟨0⟩, [.param ⟨3⟩]), .slice (.param ⟨3⟩), [⟨"Out", .bool⟩]⟩] } }

/-- Of two parameters with `<[T] as Of<U>>::Out: Shown` the where-clause makes one, before the
arguments are looked at. Then the argument that comes first counts for both. -/
theorem Infer.pin_tied :
    let use (explicit : Subst) : Infer Ty := do
      let vars ← instantiate ⟨[⟨1⟩, ⟨2⟩],
        [⟨.projection (.slice (.param ⟨1⟩)) ⟨0⟩ [.param ⟨2⟩] "Out", ⟨⟨1⟩, [], []⟩⟩]⟩ none
      pin explicit vars
      resolve (.var (.ty 0))
    (use ⟨[(⟨1⟩, .bool), (⟨2⟩, .char)]⟩ .tying {}).toOption.map (·.1 == .char) = some true ∧
      (use ⟨[(⟨2⟩, .char), (⟨1⟩, .bool)]⟩ .tying {}).toOption.map (·.1 == .bool) = some true := by
  decide +kernel

end TypeInference
