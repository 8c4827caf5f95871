import TypeInference.Proofs.Unification

/-!
# Derivations of unification

A run of unification follows the variables of one type and looks those of the other up as they come,
and it counts what it follows. A *derivation* says what the run does without saying how: at each
level both types are replaced by what they stand for, and what is left to do there is the *task* of
the two (`HasTask`). Every run has a derivation (`Vars.derives_combineOr`), and what holds of runs
however they follow variables is proved by induction on it.
-/

namespace TypeInference

/-- What is to be combined. -/
inductive Problem where
  | pair (a b : Ty)
  | list (as bs : List Ty)

/-- The types are related pairwise. -/
def Problem.Holds (R : Ty → Ty → Prop) : Problem → Prop
  | .pair a b => R a b
  | .list as bs => List.Forall₂ R as bs

/-- `D` holds of each type on the left, and `D'` of each on the right. -/
def Problem.Each (D D' : Ty → Prop) : Problem → Prop
  | .pair a b => D a ∧ D' b
  | .list as bs => (∀ a ∈ as, D a) ∧ ∀ b ∈ bs, D' b

section

variable {D D' : Ty → Prop} (hleft : Ty.Inherited D) (hright : Ty.Inherited D') {x y r s : Ty}
  {as bs : List Ty}

include hleft hright

theorem HasTask.each_components (h : HasTask x y (.components as bs)) (hx : D x) (hy : D' y) :
    (Problem.list as bs).Each D D' := by
  obtain ⟨has, hbs⟩ := h.mem_components
  exact ⟨fun a ha => hleft hx (has a ha), fun b hb => hright hy (hbs b hb)⟩

theorem HasTask.each_signature (h : HasTask x y (.signature as bs r s)) (hx : D x) (hy : D' y) :
    (Problem.list as bs).Each D D' ∧ (Problem.pair r s).Each D D' := by
  obtain ⟨has, hbs⟩ := h.mem_signature
  refine ⟨⟨fun a ha => hleft hx (has a ?_), fun b hb => hright hy (hbs b ?_)⟩,
    hleft hx (has r ?_), hright hy (hbs s ?_)⟩
  all_goals simp_all

end

namespace Vars

variable {c : Except Fault Ty} {vs vs' : Vars} {a b h t x y : Ty} {as bs : List Ty} {ok : Bool}
  {p : Problem} {v : Var} {f : Var → Ty → VarM Bool} {D : Ty → Prop} {task : Task}

theorem Heads.unique (hh : vs.Heads t x) (hh' : vs.Heads t y) : x = y := by
  induction hh with
  | node hnode =>
    cases hh' with
    | node => rfl
    | bound | unbound => cases hnode
  | bound hvalue _ ih =>
    cases hh' with
    | node hnode => cases hnode
    | bound hvalue' htail =>
      cases hvalue.symm.trans hvalue'
      exact ih htail
    | unbound hvalue' => cases hvalue.symm.trans hvalue'
  | unbound hvalue hroot =>
    cases hh' with
    | node hnode => cases hnode
    | bound hvalue' => cases hvalue.symm.trans hvalue'
    | unbound _ hroot' =>
      cases hroot.symm.trans hroot'
      rfl

theorem Heads.eq_of_node (hh : vs.Heads t x) (ht : t.isVar = false) : x = t :=
  hh.unique (.node ht)

/-! ## Derivations -/

/-- Combining leads from variables to variables, with a verdict. -/
inductive Evaluates (c : Except Fault Ty) : Problem → Vars → Bool → Vars → Prop
  | nil (vs : Vars) : Evaluates c (.list [] []) vs true vs
  | cons {a b : Ty} {as bs : List Ty} {vs vs₁ vs' : Vars} {ok ok' : Bool} :
    Evaluates c (.pair a b) vs ok vs₁ → Evaluates c (.list as bs) vs₁ ok' vs' →
      Evaluates c (.list (a :: as) (b :: bs)) vs (ok' && ok) vs'
  | link {a b x y t : Ty} {v : Var} {vs vs' : Vars} {ok : Bool} :
    vs.Heads a x → vs.Heads b y → HasTask x y (.link v t) → Links c vs v t ok vs' →
      Evaluates c (.pair a b) vs ok vs'
  | decided {a b x y : Ty} {vs : Vars} {ok : Bool} :
    vs.Heads a x → vs.Heads b y → HasTask x y (.decided ok) → Evaluates c (.pair a b) vs ok vs
  | components {a b x y : Ty} {as bs : List Ty} {vs vs' : Vars} {ok : Bool} :
    vs.Heads a x → vs.Heads b y → HasTask x y (.components as bs) →
      Evaluates c (.list as bs) vs ok vs' → Evaluates c (.pair a b) vs ok vs'
  | signature {a b x y r s : Ty} {as bs : List Ty} {vs vs₁ vs' : Vars} {ok : Bool} :
    vs.Heads a x → vs.Heads b y → HasTask x y (.signature as bs r s) →
      Evaluates c (.list as bs) vs true vs₁ → Evaluates c (.pair r s) vs₁ ok vs' →
      Evaluates c (.pair a b) vs ok vs'
  | refused {a b x y r s : Ty} {as bs : List Ty} {vs vs' : Vars} :
    vs.Heads a x → vs.Heads b y → HasTask x y (.signature as bs r s) →
      Evaluates c (.list as bs) vs false vs' → Evaluates c (.pair a b) vs false vs'

theorem Evaluates.steps (h : Evaluates c p vs ok vs') : Steps vs vs' := by
  induction h with
  | nil vs | decided => exact .refl
  | cons _ _ ih ih' | signature _ _ _ _ _ ih ih' => exact ih.trans ih'
  | link _ _ _ hlinks => exact hlinks.steps
  | components _ _ _ _ ih | refused _ _ _ _ ih => exact ih

theorem Evaluates.exists_heads (h : Evaluates c (.pair a b) vs ok vs') :
    (∃ x, vs.Heads a x) ∧ ∃ y, vs.Heads b y := by
  cases h with
  | link ha hb | decided ha hb | components ha hb | signature ha hb | refused ha hb =>
    exact ⟨⟨_, ha⟩, _, hb⟩

/-- What linking variables keeps is kept by combining, among types of which `D` holds. -/
theorem Evaluates.keeps_of_links {J : Vars → Prop}
    (hcomponent : Ty.Inherited D) (hJ : ∀ {vs}, J vs → Keeps D vs)
    (hlink : ∀ {vs vs' v t ok}, J vs → D (.var v) → D t → Links c vs v t ok vs' → J vs')
    (h : Evaluates c p vs ok vs') (hvs : J vs) (hp : p.Each D D) : J vs' := by
  induction h with
  | nil | decided => exact hvs
  | cons _ _ ih ih' =>
    obtain ⟨ha, has⟩ := List.forall_mem_cons.1 hp.1
    obtain ⟨hb, hbs⟩ := List.forall_mem_cons.1 hp.2
    exact ih' (ih hvs ⟨ha, hb⟩) ⟨has, hbs⟩
  | link ha hb htask hlinks =>
    have hx := ha.keeps (hJ hvs) hp.1
    have hy := hb.keeps (hJ hvs) hp.2
    cases htask with
    | left => exact hlink hvs hx hy hlinks
    | right => exact hlink hvs hy hx hlinks
  | components ha hb htask _ ih =>
    exact ih hvs (htask.each_components hcomponent hcomponent (ha.keeps (hJ hvs) hp.1)
      (hb.keeps (hJ hvs) hp.2))
  | signature ha hb htask _ _ ih ih' =>
    have heach := htask.each_signature hcomponent hcomponent (ha.keeps (hJ hvs) hp.1)
      (hb.keeps (hJ hvs) hp.2)
    exact ih' (ih hvs heach.1) heach.2
  | refused ha hb htask _ ih =>
    exact ih hvs (htask.each_signature hcomponent hcomponent (ha.keeps (hJ hvs) hp.1)
      (hb.keeps (hJ hvs) hp.2)).1

/-- What is combined leads to types of which `D` holds, if it is itself such. -/
theorem Evaluates.keeps (hcomponent : Ty.Inherited D)
    (hunknown : D .unknown) (h : Evaluates c p vs ok vs') (hD : Keeps D vs) (hp : p.Each D D) :
    Keeps D vs' :=
  h.keeps_of_links hcomponent id (fun hD hv ht hlinks => hlinks.keeps hD hv ht hunknown) hD hp

/-- What is to be done leads from variables to variables, with a verdict. -/
def Performs (c : Except Fault Ty) : Task → Vars → Bool → Vars → Prop
  | .link v t, vs, ok, vs' => Links c vs v t ok vs'
  | .decided b, vs, ok, vs' => ok = b ∧ vs' = vs
  | .components as bs, vs, ok, vs' => Evaluates c (.list as bs) vs ok vs'
  | .signature as bs r s, vs, ok, vs' =>
    (∃ vs₁, Evaluates c (.list as bs) vs true vs₁ ∧ Evaluates c (.pair r s) vs₁ ok vs') ∨
      ok = false ∧ Evaluates c (.list as bs) vs false vs'

theorem Evaluates.performs (h : Evaluates c (.pair a b) vs ok vs') (ha : vs.Heads a x)
    (hb : vs.Heads b y) (htask : HasTask x y task) : Performs c task vs ok vs' := by
  have hunique {x' y' : Ty} {task' : Task} (ha' : vs.Heads a x') (hb' : vs.Heads b y')
      (htask' : HasTask x' y' task') : task' = task := by
    obtain rfl := ha.unique ha'
    obtain rfl := hb.unique hb'
    exact htask'.unique htask
  cases h with
  | link ha' hb' htask' hlinks =>
    obtain rfl := hunique ha' hb' htask'
    exact hlinks
  | decided ha' hb' htask' =>
    obtain rfl := hunique ha' hb' htask'
    exact ⟨rfl, rfl⟩
  | components ha' hb' htask' hlist =>
    obtain rfl := hunique ha' hb' htask'
    exact hlist
  | signature ha' hb' htask' hlist hresult =>
    obtain rfl := hunique ha' hb' htask'
    exact .inl ⟨_, hlist, hresult⟩
  | refused ha' hb' htask' hlist =>
    obtain rfl := hunique ha' hb' htask'
    exact .inr ⟨rfl, hlist⟩

/-- Runs that return have derivations. -/
def Derives (c : Except Fault Ty) (x : VarM Bool) (p : Problem) : Prop :=
  ∀ ⦃vs ok vs'⦄, vs.Sound → x vs = .ok (ok, vs') → Evaluates c p vs ok vs'

theorem derives_combineListBy (h : ∀ a ∈ as, ∀ b, Derives c (combineBy c f a b) (.pair a b))
    (hlength : as.length = bs.length) : Derives c (combineListBy c f as bs) (.list as bs) := by
  induction as generalizing bs with
  | nil =>
    cases List.eq_nil_of_length_eq_zero hlength.symm
    simp only [combineListBy]
    intro vs ok vs' _ hrun
    cases hrun
    exact .nil vs
  | cons a as ih =>
    cases bs with
    | nil => cases hlength
    | cons b bs =>
      simp only [combineListBy]
      intro vs ok vs' hs hrun
      obtain ⟨first, vs₁, hfirst, hrun⟩ := StateT.bind_eq_ok hrun
      obtain ⟨rest, vs₂, hrest, hrun⟩ := StateT.bind_eq_ok hrun
      cases hrun
      have hfirst := h a (.head _) b hs hfirst
      exact .cons hfirst (ih (fun x hx => h x (List.mem_cons_of_mem a hx)) (Nat.succ.inj hlength)
        (hfirst.steps.sound hs) hrest)

variable (hcycle : Tolerant c)

include hcycle

/-- A task that is done derives what the types come to, if the components of the first do. -/
theorem evaluates_of_runTask (htask : HasTask x y task)
    (hx : ∀ u ∈ x.components, ∀ b, Derives c (combineBy c f u b) (.pair u b)) (hs : vs.Sound)
    (ha : vs.Heads a x) (hb : vs.Heads b y) (hrun : runTask c f task vs = .ok (ok, vs')) :
    Evaluates c (.pair a b) vs ok vs' := by
  cases task with
  | link v t =>
    obtain ⟨hv, ht⟩ := htask.isOpen ha hb
    exact .link ha hb htask (links_of_combineVar hcycle hs hv ht hrun)
  | decided agree =>
    cases hrun
    exact .decided ha hb htask
  | components as bs =>
    exact .components ha hb htask (derives_combineListBy
      (fun u hu => hx u (htask.mem_components.1 u hu)) htask.length_eq hs hrun)
  | signature as bs r s =>
    have has := htask.mem_signature.1
    obtain ⟨agree, vs₁, hlist, hrun⟩ := StateT.bind_eq_ok hrun
    have hlist := derives_combineListBy (fun u hu => hx u (has u (List.mem_append_left _ hu)))
      htask.length_eq_signature hs hlist
    cases agree with
    | true =>
      exact .signature ha hb htask hlist (hx r (has r (by simp)) s (hlist.steps.sound hs) hrun)
    | false =>
      cases hrun
      exact .refused ha hb htask hlist

theorem derives_combineBy (hf : ∀ v b, Derives c (f v b) (.pair (.var v) b)) (a b : Ty) :
    Derives c (combineBy c f a b) (.pair a b) := by
  induction a using Ty.varInduction generalizing b with
  | var v =>
    simp only [combineBy]
    exact hf v b
  | node a hnode ih =>
    intro vs ok vs' hs hrun
    cases hhead : vs.head b with
    | error e =>
      rw [combineBy_of_error hnode hhead] at hrun
      cases hrun
    | ok t =>
      obtain ⟨task, htask⟩ := exists_hasTask a t
      rw [combineBy_run htask hnode hhead] at hrun
      exact evaluates_of_runTask hcycle htask ih hs (.node hnode) (heads_of_head hhead) hrun

theorem derives_followWithin (n : Nat) (v : Var) (b : Ty) :
    Derives c (followWithin c n v b) (.pair (.var v) b) := by
  induction n generalizing v b with
  | zero =>
    intro vs ok vs' _ hrun
    cases hrun
  | succ n ih =>
    intro vs ok vs' hs hrun
    cases hv : vs.head (.var v) with
    | error e =>
      rw [followWithin_of_error hv] at hrun
      cases hrun
    | ok h =>
      cases hb : vs.head b with
      | error e =>
        rw [followWithin_of_other_error hv hb] at hrun
        cases hrun
      | ok t =>
        obtain ⟨task, htask⟩ := exists_hasTask h t
        rw [followWithin_run htask hv hb] at hrun
        exact evaluates_of_runTask hcycle htask (fun u _ => derives_combineBy hcycle ih u) hs
          (heads_of_head hv) (heads_of_head hb) hrun

theorem derives_combineOr (a b : Ty) :
    Derives c (combineOr c a b) (.pair a b) :=
  derives_combineBy hcycle (fun v b vs _ _ hs h =>
    derives_followWithin hcycle (vs.tys.size + 1) v b hs h) a b

theorem grounded_of_combineOr (hs : vs.Sound) (ha : vs.Grounded a)
    (hb : vs.Grounded b) (h : combineOr c a b vs = .ok (ok, vs')) (ht : vs.Grounded t) :
    vs'.Grounded t := by
  have hunknown : vs.Grounded .unknown := grounded_iff.2 fun v hv => by cases hv
  have hevaluates := derives_combineOr hcycle a b hs h
  have hkeeps := hevaluates.keeps Grounded.component hunknown (keeps_grounded vs) ⟨ha, hb⟩
  exact hkeeps.grounded Grounded.component
    (fun v hv => (hevaluates.steps.has_iff hs v).2 hv.has) ht

end Vars

end TypeInference
