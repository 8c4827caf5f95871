import TypeInference.Proofs.DeterminedTypes
import TypeInference.Proofs.Selections

/-!
# Selection for rigid goals

Where header and goal are rigid, matching them is first-order matching: it succeeds if some
substitution for the holes makes the header the goal, and fails otherwise.

The invariant is about solutions. A substitution solves the holes if it gives each of them what it
was filled with. One step of matching turns the solutions of the holes before into those of the
holes after, less those that do not solve the pair of types that was matched.
-/

namespace TypeInference

open Header

/-! ## Substitutions for some parameters -/

namespace Subst

variable {σ : Subst} {params : List ParamId}

/-- The substitution is for these parameters and leaves all others alone. -/
def IsFor (σ : Subst) (params : List ParamId) : Prop := ∀ e ∈ σ.entries, e.1 ∈ params

instance (σ : Subst) (params : List ParamId) : Decidable (σ.IsFor params) :=
  inferInstanceAs (Decidable (∀ e ∈ σ.entries, e.1 ∈ params))

theorem IsFor.lookup_of_notMem {p : ParamId} (h : σ.IsFor params) (hp : p ∉ params) :
    σ.lookup p = .param p := by
  have hnone : σ.entries.find? (·.1 = p) = none := by
    rw [List.find?_eq_none]
    intro e he hsame
    exact hp (of_decide_eq_true hsame ▸ h e he)
  rw [lookup, get?, hnone]
  rfl

end Subst

/-! ## Patterns -/

/-- A rigid type none of whose opaque types depends on the parameters. -/
def Ty.IsPattern (params : List ParamId) (t : Ty) : Prop :=
  ∀ u ∈ t.subterms, u.isRigid = true ∧
    (u.isExistential = true → ∀ p ∈ params, occurrences p [u] = 0)

instance (params : List ParamId) (t : Ty) : Decidable (t.IsPattern params) :=
  inferInstanceAs (Decidable (∀ u ∈ t.subterms, u.isRigid = true ∧
    (u.isExistential = true → ∀ p ∈ params, occurrences p [u] = 0)))

namespace Ty

variable {a b t : Ty} {params : List ParamId} {σ : Subst}

theorem isPattern_iff : t.IsPattern params ↔
    (t.isRigid = true ∧ (t.isExistential = true → ∀ p ∈ params, occurrences p [t] = 0)) ∧
      ∀ c ∈ t.components, c.IsPattern params :=
  forall_mem_subterms

theorem isRigid_mapComponents (f : Ty → Ty) (t : Ty) : (t.mapComponents f).isRigid = t.isRigid := by
  cases t with
  | dyn b => exact List.isEmpty_map
  | _ => rfl

/-- An instance of a pattern is a given type if it is part by part. -/
theorem same_apply_iff (hσ : σ.IsFor params) (hhole : ∀ p ∈ params, a ≠ .param p)
    (ha : a.IsPattern params) (hb : b.isRigid = true) :
    (σ.apply a).same b = true ↔
      a.agrees b = true ∧ sameList (σ.applyList a.parts) b.parts = true := by
  obtain ⟨⟨hrigid, hinside⟩, -⟩ := isPattern_iff.1 ha
  cases hexistential : a.isExistential with
  | true =>
    have hself : σ.apply a = a := by
      refine Subst.apply_eq_self fun p hp => hσ.lookup_of_notMem fun hmem => ?_
      exact occurrences_eq_zero_iff.1 (hinside hexistential p hmem) hp
    have hparts : a.parts = [] := by
      cases a with
      | existential => rfl
      | _ => cases hexistential
    rw [hself, same_iff_agrees hrigid hb, hparts]
    rfl
  | false =>
    have hkept : σ.apply a = a.mapComponents σ.apply := by
      refine Subst.apply_of_kept fun p hp => hσ.lookup_of_notMem fun hmem => ?_
      exact hhole p hmem hp
    have hagrees : (a.mapComponents σ.apply).agrees b = a.agrees b := by
      have hindefinite : a.isIndefinite = false := by
        cases a with
        | unknown | projection => cases hrigid
        | _ => rfl
      rw [← agrees_mapComponents (f := σ.apply) (h := id) hindefinite (.inl hexistential),
        mapComponents_id]
    rw [hkept, same_iff_agrees (by rw [isRigid_mapComponents, hrigid]) hb, hagrees,
      parts_mapComponents]
    rfl

end Ty

/-! ## Solutions -/

namespace Header

variable {params : List ParamId} {holes : Holes} {σ : Subst} {a b t : Ty}
  {as bs goal header : List Ty} {p : ParamId}

/-- The substitution gives each hole what it was filled with. -/
def Solves (σ : Subst) (holes : Holes) : Prop :=
  ∀ p t, holes.lookup p = some t → (σ.lookup p).same t = true

/-- Only these parameters are filled, and with rigid types. -/
def Filled (params : List ParamId) (holes : Holes) : Prop :=
  ∀ e ∈ holes, e.1 ∈ params ∧ e.2.Rigid

theorem mem_of_lookup (h : holes.lookup p = some t) : (p, t) ∈ holes := by
  induction holes with
  | nil => cases h
  | cons e holes ih =>
    obtain ⟨q, u⟩ := e
    by_cases hp : p = q
    · rw [hp, List.lookup_cons_self] at h
      cases h
      rw [hp]
      exact .head _
    · rw [lookup_cons_ne hp] at h
      exact .tail _ (ih h)

/-- Filling a hole keeps the solutions that give it the same type. -/
theorem solves_cons (hfree : holes.lookup p = none) :
    Solves σ ((p, t) :: holes) ↔ Solves σ holes ∧ (σ.lookup p).same t = true := by
  constructor
  · intro h
    refine ⟨fun q u hq => h q u ?_, h p t List.lookup_cons_self⟩
    rw [lookup_cons_ne, hq]
    rintro rfl
    rw [hfree] at hq
    cases hq
  · rintro ⟨h, hp⟩ q u hq
    by_cases hqp : q = p
    · rw [hqp, List.lookup_cons_self] at hq
      cases hq
      rw [hqp, hp]
    · rw [lookup_cons_ne hqp] at hq
      exact h q u hq

/-- What the holes are filled with is a solution. -/
theorem solves_self (holes : Holes) : Solves ⟨holes⟩ holes := by
  intro p t h
  have hfind : (holes.find? (·.1 = p)).map (·.2) = holes.lookup p := by
    induction holes with
    | nil => rfl
    | cons e holes ih =>
      obtain ⟨q, u⟩ := e
      by_cases hp : p = q
      · rw [hp, List.lookup_cons_self, List.find?_cons_of_pos (by simp)]
        rfl
      · rw [lookup_cons_ne hp] at h ⊢
        rw [List.find?_cons_of_neg (by simpa using Ne.symm hp), ih h]
  rw [Subst.lookup, Subst.get?, hfind, h]
  exact Ty.same_refl t

/-- Matching decides, and of the solutions of the holes it keeps those that solve `equation`. -/
def Narrows (params : List ParamId) (holes : Holes) (equation : Subst → Prop)
    (result : Verdict × Holes) : Prop :=
  (result.1 = .no ∧ ∀ σ, σ.IsFor params → Solves σ holes → ¬ equation σ) ∨
  (result.1 = .yes ∧ Filled params result.2 ∧
    ∀ σ, σ.IsFor params → (Solves σ result.2 ↔ Solves σ holes ∧ equation σ))

theorem Narrows.congr {e e' : Subst → Prop} {result : Verdict × Holes}
    (h : Narrows params holes e result) (he : ∀ σ, σ.IsFor params → (e' σ ↔ e σ)) :
    Narrows params holes e' result := by
  rcases h with ⟨hno, hnone⟩ | ⟨hyes, hfilled, hsolutions⟩
  · exact .inl ⟨hno, fun σ hσ hsolves heq => hnone σ hσ hsolves ((he σ hσ).1 heq)⟩
  · refine .inr ⟨hyes, hfilled, fun σ hσ => ?_⟩
    rw [hsolutions σ hσ, he σ hσ]

/-- Matching a hole narrows the solutions. -/
theorem narrows_hole (hp : p ∈ params) (hfilled : Filled params holes) (hb : b.Rigid) :
    Narrows params holes (fun σ => (σ.apply (.param p)).same b = true)
      (matchFrom params holes (.param p) b) := by
  cases hlookup : holes.lookup p with
  | none =>
    rw [matchFrom_of_free hp hlookup]
    refine .inr ⟨rfl, ?_, fun σ _ => solves_cons hlookup⟩
    intro e he
    rcases List.mem_cons.1 he with rfl | he
    · exact ⟨hp, hb⟩
    · exact hfilled e he
  | some t =>
    have ht : t.Rigid := (hfilled _ (mem_of_lookup hlookup)).2
    -- For a solution of the holes, the hole is as good as what it was filled with.
    have hsame {σ : Subst} (hσ : Solves σ holes) :
        (σ.apply (.param p)).same b = true ↔ t.same b = true := by
      rw [Subst.apply_param, Ty.same_iff, Ty.same_iff t, (Ty.same_iff ..).1 (hσ p t hlookup)]
    rw [matchFrom_of_taken hp hlookup, compare_rigid ht hb]
    change Narrows _ _ _ (Verdict.ofBool (t.same b), holes)
    cases htb : t.same b with
    | false =>
      refine .inl ⟨rfl, fun σ _ hσ h => ?_⟩
      rw [(hsame hσ).1 h] at htb
      cases htb
    | true => exact .inr ⟨rfl, hfilled, fun σ _ => ⟨fun hσ => ⟨hσ, (hsame hσ).2 htb⟩, And.left⟩⟩

/-- So does matching lists, if matching their types does. -/
theorem narrows_list (hlength : as.length = bs.length)
    (h : ∀ a ∈ as, ∀ b ∈ bs, ∀ holes, Filled params holes →
      Narrows params holes (fun σ => (σ.apply a).same b = true) (matchFrom params holes a b))
    (hfilled : Filled params holes) :
    Narrows params holes (fun σ => Ty.sameList (σ.applyList as) bs = true)
      (matchAllFrom params holes as bs) := by
  induction as generalizing bs holes with
  | nil =>
    cases bs with
    | nil => exact .inr ⟨rfl, hfilled, fun σ _ => ⟨fun hσ => ⟨hσ, rfl⟩, And.left⟩⟩
    | cons => cases hlength
  | cons a as ih =>
    cases bs with
    | nil => cases hlength
    | cons b bs =>
      have hcons (σ : Subst) : Ty.sameList (σ.applyList (a :: as)) (b :: bs) = true ↔
          (σ.apply a).same b = true ∧ Ty.sameList (σ.applyList as) bs = true :=
        Bool.and_eq_true_iff
      rw [matchAllFrom_cons]
      dsimp only
      rcases h a (.head _) b (.head _) holes hfilled with
        ⟨hno, hnone⟩ | ⟨hyes, hfilled', hsolutions⟩
      · rw [if_pos hno]
        exact .inl ⟨hno, fun σ hσ hsolves heq => hnone σ hσ hsolves ((hcons σ).1 heq).1⟩
      · rw [hyes, if_neg (by decide)]
        rcases ih (Nat.succ.inj hlength) (fun c hc d hd => h c (.tail _ hc) d
          (.tail _ hd)) hfilled' with ⟨hno, hnone⟩ | ⟨hyes', hfilled'', hsolutions'⟩
        · refine .inl ⟨?_, fun σ hσ hsolves heq => ?_⟩
          · rw [hno]
            rfl
          · obtain ⟨hfirst, hrest⟩ := (hcons σ).1 heq
            exact hnone σ hσ ((hsolutions σ hσ).2 ⟨hsolves, hfirst⟩) hrest
        · refine .inr ⟨?_, hfilled'', fun σ hσ => ?_⟩
          · rw [hyes']
            rfl
          · rw [hsolutions' σ hσ, hsolutions σ hσ, and_assoc]
            exact and_congr_right' (hcons σ).symm

/-- Matching a pattern with a rigid type narrows the solutions to those that make the two the same. -/
theorem narrows_matchFrom (ha : a.IsPattern params) (hb : b.Rigid) (hfilled : Filled params holes) :
    Narrows params holes (fun σ => (σ.apply a).same b = true) (matchFrom params holes a b) := by
  induction a using Ty.componentInduction generalizing b holes with
  | node a ih =>
    by_cases hhole : ∃ p ∈ params, a = .param p
    · obtain ⟨p, hp, rfl⟩ := hhole
      exact narrows_hole hp hfilled hb
    · have hnode : ∀ p ∈ params, a ≠ .param p := by simpa using hhole
      obtain ⟨⟨hrigid, -⟩, hcomponents⟩ := Ty.isPattern_iff.1 ha
      obtain ⟨hrigid', hcomponents'⟩ := Ty.rigid_iff.1 hb
      have hsame {σ : Subst} (hσ : σ.IsFor params) := Ty.same_apply_iff hσ hnode ha hrigid'
      rw [matchFrom_eq hnode, Ty.outcome_rigid hrigid hrigid']
      by_cases hagrees : a.agrees b = true
      · rw [if_pos hagrees]
        have hlength := Ty.length_parts_of_agrees (Ty.isVar_of_isRigid hrigid) hagrees
        refine (narrows_list hlength (fun c hc d hd holes hfilled => ?_) hfilled).congr fun σ hσ => ?_
        · have hc' := a.parts_sublist.subset hc
          exact ih c hc' (hcomponents c hc') (hcomponents' d (b.parts_sublist.subset hd)) hfilled
        · rw [hsame hσ]
          exact and_iff_right hagrees
      · rw [if_neg hagrees]
        exact .inl ⟨rfl, fun σ hσ _ heq => hagrees ((hsame hσ).1 heq).1⟩

/-- A header matches a rigid goal of the same length if it has the goal as an instance, and cannot
match it otherwise. -/
theorem matchGoal_rigid (hlength : header.length = goal.length)
    (hheader : ∀ t ∈ header, t.IsPattern params) (hgoal : ∀ t ∈ goal, t.Rigid) :
    (matchGoal params header goal = .yes ∧
      ∃ σ : Subst, σ.IsFor params ∧ Ty.sameList (σ.applyList header) goal = true) ∨
    (matchGoal params header goal = .no ∧
      ¬ ∃ σ : Subst, σ.IsFor params ∧ Ty.sameList (σ.applyList header) goal = true) := by
  have hnarrows : Narrows params [] (fun σ => Ty.sameList (σ.applyList header) goal = true)
      (matchAllFrom params [] header goal) :=
    narrows_list hlength (fun a ha b hb _ => narrows_matchFrom (hheader a ha) (hgoal b hb))
      fun e he => by cases he
  rw [matchGoal_eq]
  rcases hnarrows with ⟨hno, hnone⟩ | ⟨hyes, hfilled, hsolutions⟩
  · refine .inr ⟨hno, ?_⟩
    rintro ⟨σ, hσ, hsame⟩
    exact hnone σ hσ (fun p t h => by cases h) hsame
  · -- What the holes were filled with is a solution.
    have hσ : Subst.IsFor ⟨(matchAllFrom params [] header goal).2⟩ params :=
      fun e he => (hfilled e he).1
    exact .inl ⟨hyes, _, hσ, ((hsolutions _ hσ).1 (solves_self _)).2⟩

end Header

/-! ## Selecting -/

/-- The header of an impl of a trait is a pattern in the parameters of the impl. -/
def Impl.HasPattern (impl : Impl) : Prop :=
  ∀ trait args, impl.traitRef = some (trait, args) →
    ∀ t ∈ impl.self :: args, t.IsPattern impl.generics.params

/-- Types for the parameters of the impl make its header, with these arguments of the trait, the
goal. -/
def Impl.HasInstance (impl : Impl) (args : List Ty) (goal : TraitRef) : Prop :=
  ∃ σ : Subst, σ.IsFor impl.generics.params ∧
    Ty.sameList (σ.applyList (impl.self :: args)) goal.header = true

/-- The impl is one of the goal's trait, with as many arguments, and has the goal as an instance. -/
def Items.Covers (items : Items) (goal : TraitRef) (id : ImplId) : Prop :=
  ∃ impl args, items.impl id = .ok impl ∧ impl.traitRef = some (goal.trait, args) ∧
    args.length = goal.args.length ∧ impl.HasInstance args goal

namespace Items

variable {items : Items} {goal : TraitRef} {id : ImplId}

theorem mem_implsWhere_iff {p : Impl → Bool} :
    id ∈ items.implsWhere p ↔ ∃ impl, items.impl id = .ok impl ∧ p impl = true := by
  constructor
  · intro h
    obtain ⟨i, -, h⟩ := List.mem_filterMap.1 h
    obtain ⟨impl, hget, h⟩ := Option.bind_eq_some_iff.1 h
    split at h
    · next hp =>
      cases h
      refine ⟨impl, ?_, hp⟩
      rw [Items.impl, entry, hget]
    · cases h
  · rintro ⟨impl, hget, hp⟩
    exact mem_implsWhere hget hp

theorem nodup_implsWhere (items : Items) (p : Impl → Bool) : (items.implsWhere p).Nodup := by
  refine List.Nodup.filterMap ?_ List.nodup_range
  intro i j id hi hj
  obtain ⟨_, -, hi⟩ := Option.bind_eq_some_iff.1 hi
  obtain ⟨_, -, hj⟩ := Option.bind_eq_some_iff.1 hj
  split at hi
  · split at hj
    · cases hi
      cases hj
      rfl
    · cases hj
  · cases hi

/-- For a rigid goal, the impls that may apply are those that have it as an instance. -/
theorem mem_candidates_iff (hitems : ∀ impl ∈ items.impls, impl.HasPattern)
    (hgoal : ∀ t ∈ goal.header, t.Rigid) (id : ImplId) :
    id ∈ Selection.candidates items goal ↔ items.Covers goal id := by
  have hmatches {impl : Impl} {args : List Ty} (himpl : items.impl id = .ok impl)
      (hheader : impl.traitRef = some (goal.trait, args)) (hlength : args.length = goal.args.length) :=
    matchGoal_rigid
      (show (impl.self :: args).length = goal.header.length from congrArg (· + 1) hlength)
      (hitems impl (Array.mem_of_getElem? (entry_eq_ok himpl)) _ _ hheader) hgoal
  rw [Selection.candidates, mem_implsWhere_iff]
  constructor
  · rintro ⟨impl, himpl, hp⟩
    obtain ⟨htrait, happly⟩ := Bool.and_eq_true_iff.1 hp
    unfold Impl.mayApply at happly
    split at happly
    · next trait args hheader =>
      obtain ⟨hlength, hmatch⟩ := Bool.and_eq_true_iff.1 happly
      rw [decide_eq_true_eq, Impl.trait?, hheader] at htrait
      cases htrait
      have hlength := of_decide_eq_true hlength
      refine ⟨impl, args, himpl, hheader, hlength, ?_⟩
      rcases hmatches himpl hheader hlength with ⟨-, hinstance⟩ | ⟨hno, -⟩
      · exact hinstance
      · exact absurd hno (of_decide_eq_true hmatch)
    · cases happly
  · rintro ⟨impl, args, himpl, hheader, hlength, hinstance⟩
    refine ⟨impl, himpl, Bool.and_eq_true_iff.2 ⟨?_, ?_⟩⟩
    · rw [decide_eq_true_eq, Impl.trait?, hheader]
      rfl
    · simp only [Impl.mayApply, hheader, Bool.and_eq_true, decide_eq_true_eq]
      refine ⟨hlength, ?_⟩
      rcases hmatches himpl hheader hlength with ⟨hyes, -⟩ | ⟨-, hnone⟩
      · rw [hyes]
        decide
      · exact absurd hinstance hnone

end Items

theorem ParamEnv.forall_mem_empty (P : WherePredicate → Prop) : ∀ p ∈ ParamEnv.empty.bounds, P p :=
  List.forall_mem_nil P

/-- Without clauses on the trait, the impls decide. -/
theorem select_of_impls {items : Items} {known : WellKnown} {env : ParamEnv} {goal : TraitRef}
    (hself : (goal.self.isTyVar || goal.self.isUnknown) = false)
    (henv : ∀ p ∈ env.bounds, p.bound.trait ≠ goal.trait)
    (hinherent : Selection.inherent known goal = none) :
    select items known env goal =
      match Selection.candidates items goal with
      | [] => .err
      | [only] => .ok (.impl only)
      | _ => .ambiguous := by
  have hclauses : Selection.clauses env goal = [] := by
    rw [Selection.clauses, List.filter_eq_nil_iff]
    intro p hp hsame
    exact henv p hp (of_decide_eq_true hsame)
  rw [Selection.select_eq hself, hclauses, List.find?_nil, hinherent]
  dsimp only
  rw [Selection.byImpls, hclauses]
  rfl

theorem Ty.isUnknown_of_isRigid {t : Ty} (ht : t.isRigid = true) :
    (t.isTyVar || t.isUnknown) = false := by
  cases t with
  | var | unknown => cases ht
  | _ => rfl

namespace Selection

/-- Selection is exact for rigid goals. Matching the header of an impl, where no opaque type depends on
the parameters of the impl, with a goal that has as many arguments says yes if the goal is an instance
of the header, says no otherwise, and never leaves it open. So where no where-clause is on the trait
and the self type provides nothing by itself, an impl is selected if it is the only one that has the
goal as an instance, there is nothing to select if none has, and several are ambiguous. -/
theorem exact_of_rigid (items : Items) (known : WellKnown) (env : ParamEnv) (goal : TraitRef)
    (hitems : ∀ impl ∈ items.impls, impl.HasPattern) (hgoal : ∀ t ∈ goal.header, t.Rigid) :
    (∀ impl ∈ items.impls, ∀ trait args, impl.traitRef = some (trait, args) →
      args.length = goal.args.length →
      (matchGoal impl.generics.params (impl.self :: args) goal.header = .yes ↔
        impl.HasInstance args goal) ∧
      (matchGoal impl.generics.params (impl.self :: args) goal.header = .no ↔
        ¬ impl.HasInstance args goal) ∧
      matchGoal impl.generics.params (impl.self :: args) goal.header ≠ .maybe) ∧
    ((∀ p ∈ env.bounds, p.bound.trait ≠ goal.trait) → inherent known goal = none →
      (∀ id, select items known env goal = .ok (.impl id) ↔
        items.Covers goal id ∧ ∀ other, items.Covers goal other → other = id) ∧
      (select items known env goal = .err ↔ ∀ id, ¬ items.Covers goal id) ∧
      (select items known env goal = .ambiguous ↔
        ∃ id other, items.Covers goal id ∧ items.Covers goal other ∧ id ≠ other)) := by
  constructor
  · intro impl himpl trait args hheader hlength
    have hlength' : (impl.self :: args).length = goal.header.length := congrArg (· + 1) hlength
    rcases matchGoal_rigid hlength' (hitems impl himpl trait args hheader) hgoal with
      ⟨hyes, hinstance⟩ | ⟨hno, hnone⟩
    · rw [hyes]
      exact ⟨iff_of_true rfl hinstance, iff_of_false (by decide) (not_not_intro hinstance),
        by decide⟩
    · rw [hno]
      exact ⟨iff_of_false (by decide) hnone, iff_of_true rfl hnone, by decide⟩
  · intro henv hinherent
    have hself := Ty.isUnknown_of_isRigid (Ty.rigid_iff.1 (hgoal _ (.head _))).1
    rw [select_of_impls hself henv hinherent]
    have hmem := Items.mem_candidates_iff hitems hgoal
    have hnodup : (candidates items goal).Nodup := items.nodup_implsWhere _
    simp only [← hmem]
    generalize candidates items goal = ids at hnodup
    cases ids with
    | nil => simp
    | cons first rest =>
      cases rest with
      | nil => simp [eq_comm]
      | cons second rest =>
        have hne : first ≠ second := by
          rintro rfl
          simp at hnodup
        have hfirst : first ∈ first :: second :: rest := .head _
        have hsecond : second ∈ first :: second :: rest := .tail _ (.head _)
        refine ⟨fun id => iff_of_false (by simp) ?_, iff_of_false (by simp) ?_,
          iff_of_true rfl ⟨first, second, hfirst, hsecond, hne⟩⟩
        · rintro ⟨-, honly⟩
          exact hne ((honly first hfirst).trans (honly second hsecond).symm)
        · exact fun hnone => hnone first hfirst

end Selection

/-- Two impls for pairs of a type and a reference to it, of a trait with one argument. For the first
the argument is that type. -/
def Items.pairing : Items := { Items.empty with
  paramNames := #["Self", "T", "A"]
  traits := #[⟨"Pairs", ⟨[⟨2⟩], []⟩, []⟩]
  impls := #[
    ⟨⟨[⟨1⟩], []⟩, some (⟨0⟩, [.param ⟨1⟩]),
      .tuple [.param ⟨1⟩, .ref (.param ⟨1⟩) .shared .static], []⟩,
    ⟨⟨[⟨1⟩], []⟩, some (⟨0⟩, [.bool]),
      .tuple [.param ⟨1⟩, .ref (.param ⟨1⟩) .shared .static], []⟩] }

/-- A goal that mentions the parameter by itself, where it stands for no other type. -/
theorem Selection.exact_of_rigid_pairing :
    let goal : TraitRef := ⟨.tuple [.slice (.param ⟨1⟩), .reference (.slice (.param ⟨1⟩)) .shared], ⟨0⟩,
      [.slice (.param ⟨1⟩)]⟩
    select .pairing {} .empty goal = .ok (.impl ⟨0⟩) ∧ Items.pairing.Covers goal ⟨0⟩ ∧
      ∀ other, Items.pairing.Covers goal other → other = ⟨0⟩ := by
  intro goal
  have hitems : ∀ impl ∈ Items.pairing.impls, impl.HasPattern := by
    intro impl himpl trait args hheader
    simp only [Items.pairing, List.mem_toArray, List.mem_cons, List.not_mem_nil, or_false] at himpl
    rcases himpl with rfl | rfl
    · cases hheader
      decide
    · cases hheader
      decide
  have hexact := exact_of_rigid .pairing {} .empty goal hitems (by decide)
  exact ⟨rfl, ((hexact.2 (ParamEnv.forall_mem_empty _) rfl).1 ⟨0⟩).1 rfl⟩

end TypeInference
