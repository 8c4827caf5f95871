import TypeInference.Proofs.Derivations
import TypeInference.Proofs.Solutions

/-!
# Soundness of unification

Types that were combined successfully agree once their variables are substituted. They need not be
equal: the type of expressions that never finish goes with every type, array lengths may be unknown,
and of trait objects and opaque types only what they are called is compared. `Compatible` is the
relation that remains.
-/

namespace TypeInference

/-! ## Compatible types -/

/-- The types agree in everything that unification compares. -/
inductive Compatible : Ty → Ty → Prop
  | same {a b : Ty} : a.same b = true → Compatible a b
  | neverLeft (b : Ty) : Compatible .never b
  | neverRight (a : Ty) : Compatible a .never
  | dyn {a b : Bound} : a.trait = b.trait → Compatible (.dyn a) (.dyn b)
  | existential (decl : Nat) (as bs : List Bound) :
    Compatible (.existential (some decl) as) (.existential (some decl) bs)
  | ref {a b : Ty} (m : Mutability) (r q : Region) :
    Compatible a b → Compatible (.ref a m r) (.ref b m q)
  | ptr {a b : Ty} (m : Mutability) : Compatible a b → Compatible (.ptr a m) (.ptr b m)
  | array {a b : Ty} {m n : Option Nat} : m = n ∨ m = none ∨ n = none → Compatible a b →
    Compatible (.array a m) (.array b n)
  | slice {a b : Ty} : Compatible a b → Compatible (.slice a) (.slice b)
  | tuple {as bs : List Ty} : List.Forall₂ Compatible as bs → Compatible (.tuple as) (.tuple bs)
  | fn {as bs : List Ty} {a b : Ty} : List.Forall₂ Compatible as bs → Compatible a b →
    Compatible (.fn as a) (.fn bs b)
  | adt {as bs : List Ty} (id : AdtId) : List.Forall₂ Compatible as bs →
    Compatible (.adt id as) (.adt id bs)

theorem lengths_of_lengthsAgree {m n : Option Nat} (h : Vars.lengthsAgree m n = true) :
    m = n ∨ m = none ∨ n = none := by
  cases m with
  | none => exact .inr (Or.inl rfl)
  | some m =>
    cases n with
    | none => exact .inr (Or.inr rfl)
    | some n => exact .inl (congrArg some (of_decide_eq_true h))

/-- Types are compatible if the components that face each other are. -/
theorem Compatible.of_faces? {a b : Ty} {as bs : List Ty} (h : a.faces? b = some (as, bs))
    (hpairs : List.Forall₂ Compatible as bs) : Compatible a b := by
  unfold Ty.faces? at h
  split at h
  case h_10 => cases h
  all_goals
    simp only [Option.ite_none_right_eq_some, Option.some.injEq, Prod.mk.injEq] at h
  · obtain ⟨rfl, rfl, rfl⟩ := h
    cases hpairs with
    | cons hab _ => exact .ref _ _ _ hab
  · obtain ⟨rfl, rfl, rfl⟩ := h
    cases hpairs with
    | cons hab _ => exact .ptr _ hab
  · obtain ⟨hlength, rfl, rfl⟩ := h
    cases hpairs with
    | cons hab _ => exact .array (lengths_of_lengthsAgree hlength) hab
  · obtain ⟨rfl, rfl⟩ := h
    cases hpairs with
    | cons hab _ => exact .slice hab
  · obtain ⟨-, rfl, rfl⟩ := h
    exact .tuple hpairs
  · obtain ⟨hlength, rfl, rfl⟩ := h
    -- The result of a function type comes after its parameters.
    have hparams := List.forall₂_take_append _ _ _ hpairs
    have hresult := List.forall₂_drop_append _ _ _ hpairs
    rw [List.take_left' hlength] at hparams
    rw [List.drop_left' hlength] at hresult
    cases hresult with
    | cons hab _ => exact .fn hparams hab
  · obtain ⟨⟨rfl, -⟩, rfl, rfl⟩ := h
    exact .adt _ hpairs
  · obtain ⟨htrait, -⟩ := h
    exact .dyn htrait
  · next c as d bs =>
    simp only [Bool.and_eq_true, decide_eq_true_eq] at h
    obtain ⟨⟨hsome, rfl⟩, -⟩ := h
    obtain ⟨decl, rfl⟩ := Option.isSome_iff_exists.1 hsome
    exact .existential decl as bs

/-! ## Strict and tolerant runs -/

namespace Vars

variable {vs vs' : Vars} {v : Var} {a b t : Ty} {ok : Bool} {σ : Var → Ty} {vs₁ ws : Vars}

/-- A variable that was unbound has become unknown. -/
def BindsUnknown (vs vs' : Vars) : Prop :=
  ∃ v, vs.valueOf v = .ok none ∧ vs'.valueOf v = .ok (some .unknown)

/-- Unification for which it is a fault that a variable would occur in its own value. -/
def combineStrictly (a b : Ty) : VarM Bool :=
  combineOr (.error .exhausted) a b

/-- What becomes of variables that would occur in their own value matters only for these. -/
theorem combineVar_congr (c d : Except Fault Ty) (hv : vs.Open v) :
    combineVar c v t vs = combineVar d v t vs ∨
      ∃ i, v = .ty i ∧ t.isTyVar = false ∧ vs.occursIn i t = .ok true := by
  obtain ⟨k, i, rfl⟩ := exists_kind v
  cases linking k t with
  | same k j => exact .inl (by rw [combineVar_same, combineVar_same])
  | general hvar =>
    have hroot := hv.root_stored.1
    cases hoccurs : vs.occursIn i t with
    | error e =>
      left
      simp only [Kind.var, combineVar_general _ _ hvar, hroot, Except.ok_bind, hoccurs]
      rfl
    | ok cyclic =>
      cases cyclic with
      | false =>
        left
        simp only [Kind.var, combineVar_general _ _ hvar, hroot, Except.ok_bind, hoccurs]
        rfl
      | true => exact .inr ⟨i, rfl, hvar, hoccurs⟩
  | swapped j hk =>
    -- Nothing occurs in a numeric variable.
    left
    simp only [combineVar_swapped _ hk, combineVar_general _ _ (isTyVar_of_number hk i),
      occursIn_number hk, Except.ok_bind]
    rfl
  | number x hk => exact .inl (by rw [combineVar_number c hk, combineVar_number d hk])
  | apart hvar hno =>
    exact .inl (by rw [combineVar_apart c hvar (hno i), combineVar_apart d hvar (hno i)])

theorem BindsUnknown.trans_steps (hs : vs₁.Sound) (h : BindsUnknown vs vs₁)
    (hsteps : Steps vs₁ vs') : BindsUnknown vs vs' := by
  obtain ⟨v, hnone, hsome⟩ := h
  exact ⟨v, hnone, (hsteps.grows hs).value v _ hsome⟩

theorem BindsUnknown.steps_trans (hs : vs.Sound) (hsteps : Steps vs vs₁) (h : BindsUnknown vs₁ vs') :
    BindsUnknown vs vs' := by
  obtain ⟨v, hnone, hsome⟩ := h
  exact ⟨v, hsteps.unbound_before hs hnone, hsome⟩

/-- The strict run `y` is the tolerant run `x`, unless it finds a fault where `x` makes a variable
unknown. -/
structure Restricts (vs : Vars) (x y : Run) : Prop where
  steps : ∀ ok vs', x = .ok (ok, vs') → Steps vs vs'
  tolerant : ∀ r, y = .ok r → x = .ok r
  strict : ∀ ok vs', x = .ok (ok, vs') → y = .ok (ok, vs') ∨ BindsUnknown vs vs'

theorem Restricts.of_eq {x y : Run} (hsteps : ∀ ok vs', x = .ok (ok, vs') → Steps vs vs')
    (h : x = y) : Restricts vs x y :=
  ⟨hsteps, fun _ hr => h.trans hr, fun _ _ hr => Or.inl (h.symm.trans hr)⟩

theorem restricts_combineVar (hs : vs.Sound) (hv : vs.Open v) (ht : ∀ w, t = .var w → vs.Open w) :
    Restricts vs (combineVar (.ok .unknown) v t vs)
      (combineVar (.error .exhausted) v t vs) := by
  have hsteps : ∀ ok vs', combineVar (.ok .unknown) v t vs = .ok (ok, vs') → Steps vs vs' :=
    fun _ _ h => (links_of_combineVar tolerant_unknown hs hv ht h).steps
  rcases combineVar_congr (t := t) (.ok .unknown) (.error .exhausted) hv with
    heq | ⟨i, rfl, hvar, hoccurs⟩
  · exact .of_eq hsteps heq
  · -- the strict run ends here, and the other one makes the variable unknown
    have hroot := hv.root_stored.1
    refine ⟨hsteps, ?_, ?_⟩
    · intro r h
      rw [combineVar_general _ _ hvar, hroot, Except.ok_bind, hoccurs] at h
      cases h
    · intro ok vs' h
      right
      rw [combineVar_general _ _ hvar, hroot, Except.ok_bind, hoccurs,
        Except.ok_bind, if_pos rfl] at h
      cases hbind : vs.tys.bind i .unknown with
      | error e =>
        simp only [Except.ok_bind, hbind] at h
        cases h
      | ok tys =>
        simp only [Except.ok_bind, hbind] at h
        cases h
        have hbinds := hs.binds (k := .ty) hv hbind
        exact ⟨.ty i, hv.2, hbinds.value_self _ hv.1⟩

/-- The strict unification is the tolerant one, in this sense. -/
theorem respects_restricts : Respects (.ok .unknown) (.error .exhausted)
    (fun vs ws => vs = ws ∧ vs.Sound) (fun vs _ => Restricts vs) where
  head t h := by rw [h.1]
  size h := by rw [h.1]
  error _ _ := .of_eq (fun _ _ h => by cases h) rfl
  done ok h := by
    obtain ⟨rfl, -⟩ := h
    refine .of_eq (fun _ _ h => ?_) rfl
    cases h
    exact .refl
  bind {x y k l} hx hk := by
    rintro vs _ ⟨rfl, hs⟩
    have hfirst := hx ⟨rfl, hs⟩
    have hnext {ok : Bool} {vs₁ : Vars} (hrun : x vs = .ok (ok, vs₁)) :=
      hk ok ⟨rfl, (hfirst.steps ok vs₁ hrun).sound hs⟩
    refine ⟨?_, ?_, ?_⟩
    · intro ok vs' h
      obtain ⟨first, vs₁, hrun, h⟩ := StateT.bind_eq_ok h
      exact (hfirst.steps first vs₁ hrun).trans ((hnext hrun).steps ok vs' h)
    · intro r h
      obtain ⟨⟨first, vs₁⟩, hrun, h⟩ := Except.bind_eq_ok h
      have hrun := hfirst.tolerant _ hrun
      rw [StateT.bind_run, hrun, Except.ok_bind]
      exact (hnext hrun).tolerant r h
    · intro ok vs' h
      obtain ⟨first, vs₁, hrun, h⟩ := StateT.bind_eq_ok h
      have hsteps := hfirst.steps first vs₁ hrun
      -- If neither part makes a variable unknown, both are strict; otherwise it stays unknown.
      rcases (hnext hrun).strict ok vs' h with hstrict | hunknown
      · rcases hfirst.strict first vs₁ hrun with hrun' | hunknown
        · left
          rw [StateT.bind_run, hrun', Except.ok_bind]
          exact hstrict
        · exact .inr (hunknown.trans_steps (hsteps.sound hs) ((hnext hrun).steps ok vs' h))
      · exact .inr (.steps_trans hs hsteps hunknown)
  link := by
    rintro vs _ v t ⟨rfl, hs⟩ hv ht
    exact restricts_combineVar hs hv ht

theorem combine_of_combineStrictly (hs : vs.Sound) {r : Bool × Vars}
    (h : combineStrictly a b vs = .ok r) : combine a b vs = .ok r :=
  (respects_restricts.combineOr a b ⟨rfl, hs⟩).tolerant r h

theorem combineStrictly_of_combine (hs : vs.Sound) (h : combine a b vs = .ok (ok, vs'))
    (hunknown : ¬ BindsUnknown vs vs') : combineStrictly a b vs = .ok (ok, vs') :=
  ((respects_restricts.combineOr a b ⟨rfl, hs⟩).strict ok vs' h).resolve_right hunknown

/-! ## Soundness -/

section

variable {c : Except Fault Ty} {p : Problem}

/-- A variable stands for what it was linked to, unless that is the never type. -/
theorem Links.assign_eq (hc : ∀ u, c ≠ .ok u) (h : Links c vs v t true vs')
    (hσ : Satisfies Eq σ vs') : σ v = t.assign σ ∨ t = .never := by
  -- The verdict is kept apart, because only success rules a type of another kind out.
  generalize hok : true = ok at h
  cases h with
  | @merged w _ ht _ hmerges =>
    rw [ht, Ty.assign_var]
    exact .inl (hσ.root w v hmerges.root_loser).symm
  | bound _ hbinds => exact .inl (hσ.value v t (hbinds.value_self v hbinds.isOpen.1))
  | @boundBy w _ ht _ hbinds =>
    have heq := hσ.value w (.var v) (hbinds.value_self w hbinds.isOpen.1)
    rw [Ty.assign_var] at heq
    rw [ht, Ty.assign_var]
    exact .inl heq.symm
  | cyclic _ _ hcycle _ _ => exact absurd hcycle (hc _)
  | kept => exact .inr (Ty.eq_never_of_isNever hok.symm)

theorem compatible_of_heads {x y : Ty} (hσ : Satisfies Eq σ vs) (ha : vs.Heads a x)
    (hb : vs.Heads b y) (h : Compatible (x.assign σ) (y.assign σ)) :
    Compatible (a.assign σ) (b.assign σ) := by
  rwa [ha.assign eq_equivalence hσ, hb.assign eq_equivalence hσ]

/-- Types that were combined are compatible under every solution. -/
theorem Evaluates.compatible (hc : ∀ u, c ≠ .ok u) (h : Evaluates c p vs ok vs') (hs : vs.Sound)
    (hok : ok = true) (hσ : Satisfies Eq σ vs') :
    p.Holds fun a b => Compatible (a.assign σ) (b.assign σ) := by
  -- A solution afterwards is one before: what is combined later only refines what has been.
  induction h with
  | nil => exact .nil
  | cons hfirst hrest ih ih' =>
    obtain ⟨hok', hok⟩ := Bool.and_eq_true_iff.1 hok
    have hs₁ := hfirst.steps.sound hs
    exact .cons (ih hs hok ((hrest.steps.grows hs₁).satisfies_before hσ)) (ih' hs₁ hok' hσ)
  | link ha hb htask hlinks =>
    refine compatible_of_heads ((hlinks.steps.grows hs).satisfies_before hσ) ha hb ?_
    have heq := (hok ▸ hlinks).assign_eq hc hσ
    cases htask with
    | left =>
      rw [Ty.assign_var]
      rcases heq with heq | rfl
      · exact heq ▸ .same (Ty.same_refl _)
      · exact .neverRight _
    | right =>
      rw [Ty.assign_var]
      rcases heq with heq | rfl
      · exact heq ▸ .same (Ty.same_refl _)
      · exact .neverLeft _
  | decided ha hb htask =>
    refine compatible_of_heads hσ ha hb ?_
    rw [hok] at htask
    cases htask with
    | settled _ _ hsettled =>
      simp only [Ty.settles, Bool.or_eq_true] at hsettled
      rcases hsettled with (hsame | hnever) | hnever
      · exact .same (Ty.same_assign σ hsame)
      · rw [Ty.eq_never_of_isNever hnever, Ty.assign_never]
        exact .neverLeft _
      · rw [Ty.eq_never_of_isNever hnever, Ty.assign_never]
        exact .neverRight _
  | components ha hb htask hlist ih =>
    refine compatible_of_heads ((hlist.steps.grows hs).satisfies_before hσ) ha hb ?_
    cases htask with
    | components _ _ hfaces =>
      refine .of_faces? (Ty.faces?_assign σ hfaces) ?_
      rw [List.forall₂_map_left_iff, List.forall₂_map_right_iff]
      exact ih hs hok hσ
  | signature ha hb htask hlist hlast ih ih' =>
    have hs₁ := hlist.steps.sound hs
    have hσ₁ := (hlast.steps.grows hs₁).satisfies_before hσ
    refine compatible_of_heads ((hlist.steps.grows hs).satisfies_before hσ₁) ha hb ?_
    cases htask with
    | signature =>
      rw [Ty.assign_eq rfl, Ty.assign_eq rfl]
      refine .fn ?_ (ih' hs₁ hok hσ)
      rw [List.forall₂_map_left_iff, List.forall₂_map_right_iff]
      exact ih hs rfl hσ₁
  | refused => cases hok

end

theorem reconciles_combineStrictly {a b : Ty} (hs : vs.Sound)
    (h : combineStrictly a b vs = .ok (true, vs')) (hσ : Satisfies Eq σ vs') :
    Compatible (a.assign σ) (b.assign σ) := by
  have hc : ∀ u, (Except.error .exhausted : Except Fault Ty) ≠ .ok u := fun _ h => by cases h
  exact (derives_combineOr (fun u h => absurd h (hc u)) a b hs h).compatible hc hs rfl hσ

end Vars

end TypeInference
