import TypeInference.Proofs.Headers

/-!
# Selections under assignments

Inference acts on a selection while variables of the goal are open. So a selection that is not
ambiguous should be final: when more of the goal becomes known, what satisfied it is selected again
or nothing is, and if nothing satisfied it, nothing will (`Selection.decided_stays`).
-/

namespace TypeInference

open Header (occurrences)

/-- The goal in which variables stand for what they are assigned. -/
def TraitRef.assign (σ : Var → Ty) (r : TraitRef) : TraitRef :=
  ⟨r.self.assign σ, r.trait, r.args.map (Ty.assign σ)⟩

/-- A bound of the self type is part of the goal; where-clauses and impls are not. -/
def Source.assign (σ : Var → Ty) : Source → Source
  | .object bound => .object (bound.mapComponents (Ty.assign σ))
  | source => source

/-- The assignment respects what the header of an impl leaves open, and no parameter of the impl
occurs more often in it than matching can compare. -/
def Impl.Harmless (σ : Var → Ty) (impl : Impl) (goal : TraitRef) : Prop :=
  ∀ trait args, impl.traitRef = some (trait, args) →
    Header.Harmless σ (impl.self :: args) goal.header ∧
    ∀ p ∈ impl.generics.params, occurrences p (impl.self :: args) ≤ 1 ∨
      occurrences p (impl.self :: args) ≤ 2 ∧ Header.Harmless σ goal.header goal.header

theorem Verdict.Stays.maybe {v : Verdict} (h : v.Stays .maybe) : v = .maybe := by
  rcases h with hv | hv
  · exact hv
  · exact hv.symm

/-- The first to match is the one that was first before, or one that was open. -/
theorem Verdict.find?_stays {α : Type} {v v' : α → Verdict} {xs : List α}
    (h : ∀ x ∈ xs, (v x).Stays (v' x)) :
    xs.find? (v' · = .yes) = xs.find? (v · = .yes) ∨
      ∃ x ∈ xs, v x = .maybe ∧ xs.find? (v' · = .yes) = some x := by
  induction xs with
  | nil => exact .inl rfl
  | cons x xs ih =>
    by_cases hyes' : v' x = .yes
    · rcases h x (.head _) with hopen | hsame
      · exact .inr ⟨x, .head _, hopen, by simp [hyes']⟩
      · left
        simp [hyes', hsame ▸ hyes']
    · have hyes : v x ≠ .yes := by
        intro hyes
        rcases h x (.head _) with hopen | hsame
        · rw [hopen] at hyes
          cases hyes
        · exact hyes' (hsame.trans hyes)
      simp only [List.find?_cons, hyes, hyes', decide_false]
      rcases ih fun y hy => h y (.tail _ hy) with hsame | ⟨y, hy, hopen, hfirst⟩
      · exact .inl hsame
      · exact .inr ⟨y, .tail _ hy, hopen, hfirst⟩

namespace Selection

variable {items : Items} {known : WellKnown} {env : ParamEnv} {goal : TraitRef} {σ : Var → Ty}

/-- The where-clauses on the trait of the goal. -/
def clauses (env : ParamEnv) (goal : TraitRef) : List WherePredicate :=
  env.bounds.filter (·.bound.trait = goal.trait)

/-- What is selected if no where-clause matches and the self type provides nothing. -/
def byImpls (items : Items) (env : ParamEnv) (goal : TraitRef) : Selection Source :=
  match candidates items goal with
  | [] => if (clauses env goal).any (·.verdict goal = .maybe) then .ambiguous else .err
  | [only] => .ok (.impl only)
  | _ => .ambiguous

theorem select_eq (hself : (goal.self.isTyVar || goal.self.isUnknown) = false) :
    select items known env goal =
      match (clauses env goal).find? (·.verdict goal = .yes) with
      | some p => .ok (.param p.bound)
      | none =>
        match inherent known goal with
        | some source => .ok source
        | none => byImpls items env goal := by
  have hassumptions : assumptions env goal =
      (clauses env goal).map fun p => (p.bound, p.verdict goal) := rfl
  rw [select, hself, byImpls]
  simp only [hassumptions, List.find?_map, List.any_map, Function.comp_def]
  cases (clauses env goal).find? (·.verdict goal = .yes) <;> rfl

theorem byImpls_eq_ok {source : Source} (h : byImpls items env goal = .ok source) :
    ∃ id, candidates items goal = [id] ∧ source = .impl id := by
  unfold byImpls at h
  split at h
  · split at h <;> cases h
  · next only hcandidates =>
    cases h
    exact ⟨only, hcandidates, rfl⟩
  · cases h

theorem byImpls_eq_err : byImpls items env goal = .err ↔
    candidates items goal = [] ∧ ∀ p ∈ clauses env goal, p.verdict goal ≠ .maybe := by
  unfold byImpls
  split
  · next hcandidates => simp [hcandidates]
  · next hcandidates => simp [hcandidates]
  · next hne _ => simpa using fun hnone => absurd hnone hne

theorem inherent_assign (hself : goal.self.isTyVar = false) (hσ : Ty.KeepsKinds σ) :
    inherent known (goal.assign σ) = (inherent known goal).map (Source.assign σ) := by
  obtain ⟨self, trait, args⟩ := goal
  simp only [inherent, TraitRef.assign]
  rcases self.eq_var_or with ⟨v, rfl⟩ | hnode
  · rw [Ty.assign_var]
    rcases Var.eq_of_standsFor hself (hσ v) with ⟨k, hk⟩ | ⟨k, hk⟩ | ⟨w, hw, -⟩
    · rw [hk]
      rfl
    · rw [hk]
      rfl
    · rw [hw]
      rfl
  · rw [Ty.assign_eq hnode]
    cases self with
    | dyn b =>
      by_cases htrait : b.trait = trait
      · simp [Ty.mapComponents, Bound.mapComponents, htrait, Source.assign]
      · simp [Ty.mapComponents, Bound.mapComponents, htrait]
    | existential d bs =>
      simp only [Ty.mapComponents, List.find?_map, Option.map_map]
      rfl
    | fn =>
      by_cases htrait : known.isFnTrait trait = true
      · simp [Ty.mapComponents, htrait, Source.assign]
      · simp [Ty.mapComponents, htrait]
    | _ => rfl

theorem implsWhere_sublist {p q : Impl → Bool}
    (h : ∀ impl ∈ items.impls, p impl = true → q impl = true) :
    (items.implsWhere p).Sublist (items.implsWhere q) := by
  unfold Items.implsWhere
  induction List.range items.impls.size with
  | nil => exact .slnil
  | cons i is ih =>
    cases himpl : items.impls[i]? with
    | none => simpa [List.filterMap_cons, himpl] using ih
    | some impl =>
      have himplies := h impl (Array.mem_of_getElem? himpl)
      by_cases hq : q impl = true
      · by_cases hp : p impl = true
        · simpa [List.filterMap_cons, himpl, hp, hq] using ih
        · simpa [List.filterMap_cons, himpl, hp, hq] using ih.cons _
      · have hp : p impl ≠ true := fun hp => hq (himplies hp)
        simpa [List.filterMap_cons, himpl, hp, hq] using ih

theorem mayApply_assign {impl : Impl} (hσ : Ty.KeepsKinds σ) (h : impl.Harmless σ goal)
    (happlies : impl.mayApply (goal.assign σ) = true) : impl.mayApply goal = true := by
  unfold Impl.mayApply at happlies ⊢
  cases htrait : impl.traitRef with
  | none =>
    rw [htrait] at happlies
    cases happlies
  | some r =>
    obtain ⟨trait, args⟩ := r
    obtain ⟨hheader, hparams⟩ := h trait args htrait
    rw [htrait] at happlies
    obtain ⟨hlength, hmatch⟩ := Bool.and_eq_true_iff.1 happlies
    refine Bool.and_eq_true_iff.2 ⟨decide_eq_true ?_, decide_eq_true ?_⟩
    · exact (of_decide_eq_true hlength).trans (List.length_map _)
    · exact Header.matchGoal_assign hσ hheader hparams (of_decide_eq_true hmatch)

theorem candidates_assign (hσ : Ty.KeepsKinds σ)
    (himpls : ∀ impl ∈ items.impls, impl.trait? = some goal.trait → impl.Harmless σ goal) :
    (candidates items (goal.assign σ)).Sublist (candidates items goal) := by
  refine implsWhere_sublist fun impl himpl happlies => ?_
  simp only [Bool.and_eq_true, decide_eq_true_eq] at happlies ⊢
  exact ⟨happlies.1, mayApply_assign hσ (himpls impl himpl happlies.1) happlies.2⟩

theorem self_assign (hσ : Ty.KeepsKinds σ) {t : Ty} (h : (t.isTyVar || t.isUnknown) = false) :
    ((t.assign σ).isTyVar || (t.assign σ).isUnknown) = false := by
  rcases t.eq_var_or with ⟨v, rfl⟩ | hnode
  · rw [Ty.assign_var]
    rcases Var.eq_of_standsFor (Bool.or_eq_false_iff.1 h).1 (hσ v) with
      ⟨k, hk⟩ | ⟨k, hk⟩ | ⟨w, hw, hty⟩
    · rw [hk]
      rfl
    · rw [hk]
      rfl
    · rw [hw, hty]
      rfl
  · rw [Ty.assign_eq hnode]
    cases t with
    | var => cases hnode
    | unknown => cases h
    | _ => rfl

theorem self_of_ne_ambiguous (h : select items known env goal ≠ .ambiguous) :
    (goal.self.isTyVar || goal.self.isUnknown) = false := by
  cases hself : goal.self.isTyVar || goal.self.isUnknown with
  | false => rfl
  | true => exact absurd (by rw [select, hself]; rfl) h

section

variable (hσ : Ty.KeepsKinds σ)
  (hclauses : ∀ p ∈ env.bounds, p.bound.trait = goal.trait →
    Header.Harmless σ p.traitRef.header goal.header)
  (himpls : ∀ impl ∈ items.impls, impl.trait? = some goal.trait → impl.Harmless σ goal)

include hσ hclauses

theorem clauses_stay : ∀ p ∈ clauses env goal,
    (p.verdict goal).Stays (p.verdict (goal.assign σ)) := by
  intro p hp
  obtain ⟨hp, htrait⟩ := List.mem_filter.1 hp
  exact Header.compare_stays hσ (hclauses p hp (of_decide_eq_true htrait))

include himpls

theorem byImpls_ok {source : Source} (hok : byImpls items env goal = .ok source) :
    byImpls items env (goal.assign σ) = .ok (source.assign σ) ∨
    byImpls items env (goal.assign σ) = .err ∨
    ∃ p ∈ clauses env goal, p.verdict goal = .maybe ∧
      p.verdict (goal.assign σ) = .maybe ∧ byImpls items env (goal.assign σ) = .ambiguous := by
  obtain ⟨id, hcandidates, rfl⟩ := byImpls_eq_ok hok
  have hsublist := candidates_assign hσ himpls
  rw [hcandidates] at hsublist
  rcases List.sublist_singleton.1 hsublist with hnone | hone
  · by_cases hopen : ∃ p ∈ clauses env goal, p.verdict (goal.assign σ) = .maybe
    · obtain ⟨p, hp, hmaybe⟩ := hopen
      have hbefore := clauses_stay hσ hclauses p hp
      rw [hmaybe] at hbefore
      refine .inr (.inr ⟨p, hp, hbefore.maybe, hmaybe, ?_⟩)
      rw [byImpls, hnone]
      exact if_pos (List.any_eq_true.2 ⟨p, hp, decide_eq_true hmaybe⟩)
    · exact .inr (.inl (byImpls_eq_err.2 ⟨hnone, fun p hp hmaybe => hopen ⟨p, hp, hmaybe⟩⟩))
  · left
    rw [byImpls, hone]
    rfl

theorem byImpls_err (herr : byImpls items env goal = .err) :
    byImpls items env (goal.assign σ) = .err := by
  obtain ⟨hcandidates, hclosed⟩ := byImpls_eq_err.1 herr
  have hsublist := candidates_assign hσ himpls
  rw [hcandidates] at hsublist
  refine byImpls_eq_err.2 ⟨List.sublist_nil.1 hsublist, fun p hp hmaybe => ?_⟩
  have hbefore := clauses_stay hσ hclauses p hp
  rw [hmaybe] at hbefore
  exact hclosed p hp hbefore.maybe

omit himpls in
/-- Where nothing is decided by a where-clause or by the self type, the impls decide before and
after. -/
theorem select_assign (hself : (goal.self.isTyVar || goal.self.isUnknown) = false) :
    (∃ source, select items known env goal = .ok source ∧
      select items known env (goal.assign σ) = .ok (source.assign σ)) ∨
    select items known env goal = byImpls items env goal ∧
      select items known env (goal.assign σ) = byImpls items env (goal.assign σ) ∨
    ∃ p ∈ clauses env goal, p.verdict goal = .maybe ∧ select items known env goal ≠ .err ∧
      select items known env (goal.assign σ) = .ok (.param p.bound) := by
  have hsame : clauses env (goal.assign σ) = clauses env goal := rfl
  rw [select_eq hself, select_eq (self_assign hσ hself), hsame,
    inherent_assign (Bool.or_eq_false_iff.1 hself).1 hσ]
  rcases Verdict.find?_stays (clauses_stay hσ hclauses) with hfirst | ⟨p, hp, hopen, hfirst⟩
  · rw [hfirst]
    cases (clauses env goal).find? (·.verdict goal = .yes) with
    | some p => exact .inl ⟨_, rfl, rfl⟩
    | none =>
      cases inherent known goal with
      | some own => exact .inl ⟨_, rfl, rfl⟩
      | none => exact .inr (.inl ⟨rfl, rfl⟩)
  · rw [hfirst]
    refine .inr (.inr ⟨p, hp, hopen, ?_, rfl⟩)
    split
    · nofun
    · split
      · nofun
      · exact fun herr => (byImpls_eq_err.1 herr).2 p hp hopen

end

/-- If the variables of a goal become known, what was selected is selected again, or nothing is, or
there is a where-clause that was open: it is selected now, or open still while the impl that was
selected does not apply. If nothing was selected, nothing is. -/
theorem decided_stays (items : Items) (known : WellKnown) (env : ParamEnv) (goal : TraitRef)
    (σ : Var → Ty) (hσ : Ty.KeepsKinds σ)
    (hclauses : ∀ p ∈ env.bounds, p.bound.trait = goal.trait →
      Header.Harmless σ p.traitRef.header goal.header)
    (himpls : ∀ impl ∈ items.impls, impl.trait? = some goal.trait → impl.Harmless σ goal) :
    (∀ source, select items known env goal = .ok source →
      select items known env (goal.assign σ) = .ok (source.assign σ) ∨
      select items known env (goal.assign σ) = .err ∨
      ∃ p ∈ env.bounds, p.bound.trait = goal.trait ∧ p.verdict goal = .maybe ∧
        (select items known env (goal.assign σ) = .ok (.param p.bound) ∨
          p.verdict (goal.assign σ) = .maybe ∧
            select items known env (goal.assign σ) = .ambiguous)) ∧
    (select items known env goal = .err → select items known env (goal.assign σ) = .err) := by
  constructor
  · intro source hok
    have hself := self_of_ne_ambiguous (by rw [hok]; nofun)
    rcases select_assign hσ hclauses hself with ⟨_, hfirst, hagain⟩ | ⟨hfirst, hagain⟩ |
      ⟨p, hp, hopen, -, hagain⟩
    · rw [hok] at hfirst
      cases hfirst
      exact .inl hagain
    · rw [hagain]
      rcases byImpls_ok hσ hclauses himpls (hfirst ▸ hok) with hok' | herr | ⟨p, hp, hopen⟩
      · exact .inl hok'
      · exact .inr (.inl herr)
      · obtain ⟨hp, htrait⟩ := List.mem_filter.1 hp
        exact .inr (.inr ⟨p, hp, of_decide_eq_true htrait, hopen.1, .inr hopen.2⟩)
    · obtain ⟨hp, htrait⟩ := List.mem_filter.1 hp
      exact .inr (.inr ⟨p, hp, of_decide_eq_true htrait, hopen, .inl hagain⟩)
  · intro herr
    have hself := self_of_ne_ambiguous (by rw [herr]; nofun)
    rcases select_assign hσ hclauses hself with ⟨_, hok, -⟩ | ⟨hfirst, hagain⟩ |
      ⟨_, -, -, hne, -⟩
    · rw [herr] at hok
      cases hok
    · rw [hagain]
      exact byImpls_err hσ hclauses himpls (hfirst ▸ herr)
    · exact absurd herr hne

end Selection

/-- Impls that selection overlooks for goals that they may satisfy, or prefers to a where-clause. -/
def Items.overlooking : Items := { Items.empty with
  paramNames := #["Self", "T", "X", "Y", "Z", "A", "B", "C", "D", "E", "F"]
  traits := #[⟨"Conv", ⟨[⟨5⟩], []⟩, []⟩, ⟨"Other", .empty, ["Out"]⟩, ⟨"Num", ⟨[⟨6⟩], []⟩, []⟩,
    ⟨"Same", ⟨[⟨7⟩], []⟩, []⟩, ⟨"Pick", ⟨[⟨8⟩, ⟨9⟩, ⟨10⟩], []⟩, []⟩]
  impls := #[
    ⟨⟨[⟨2⟩], []⟩, some (⟨0⟩, [.bool]), .param ⟨2⟩, []⟩,
    ⟨.empty, some (⟨2⟩, [.projection .bool ⟨1⟩ [] "Out"]), .bool, []⟩,
    ⟨⟨[⟨3⟩], []⟩, some (⟨3⟩, [.param ⟨3⟩]), .param ⟨3⟩, []⟩,
    ⟨⟨[⟨4⟩], []⟩, some (⟨4⟩, [.slice (.param ⟨4⟩), .param ⟨4⟩, .param ⟨4⟩]), .bool, []⟩,
    ⟨.empty, some (⟨1⟩, []), .bool, [⟨"Out", .int .i32⟩]⟩] }

namespace Selection

/-- An integer in a slice becomes known. -/
theorem decided_stays_slice :
    let env : ParamEnv := ⟨[⟨.param ⟨1⟩, ⟨⟨3⟩, [.int .u8], []⟩⟩]⟩
    let goal : TraitRef := ⟨.slice (.var (.int 0)), ⟨3⟩, [.slice (.var (.int 0))]⟩
    let σ : Var → Ty := fun
      | .int _ => .int .i32
      | v => .var v
    select .overlooking {} env goal = .ok (.impl ⟨2⟩) ∧
    (select .overlooking {} env (goal.assign σ) = .ok (.impl ⟨2⟩) ∨
      select .overlooking {} env (goal.assign σ) = .err ∨
      ∃ p ∈ env.bounds, p.bound.trait = goal.trait ∧ p.verdict goal = .maybe ∧
        (select .overlooking {} env (goal.assign σ) = .ok (.param p.bound) ∨
          p.verdict (goal.assign σ) = .maybe ∧
            select .overlooking {} env (goal.assign σ) = .ambiguous)) := by
  intro env goal σ
  refine ⟨rfl, (decided_stays .overlooking {} env goal σ ?_ ?_ ?_).1 _ rfl⟩
  · intro v
    cases v <;> rfl
  · intro p hp _
    rw [List.mem_singleton.1 hp]
    exact ⟨nofun, nofun⟩
  · intro impl himpl htrait trait args hheader
    simp only [Items.overlooking, List.mem_toArray, List.mem_cons, List.not_mem_nil, or_false]
      at himpl
    rcases himpl with rfl | rfl | rfl | rfl | rfl
    · cases htrait
    · cases htrait
    · cases hheader
      refine ⟨⟨nofun, nofun⟩, fun p hp => .inr ⟨?_, nofun, nofun⟩⟩
      rw [List.mem_singleton.1 hp]
      decide
    · cases htrait
    · cases htrait

/-- Selections that more knowledge of the goal reverses. A where-clause takes the place of an impl.
An impl with a projection in its header applies to a number and not to an integer variable. One
applies to existential types that were taken for different ones. One has a parameter that its first
occurrence fills only once the variable there is known. -/
theorem decided_reversed :
    let env : ParamEnv := ⟨[⟨.param ⟨1⟩, ⟨⟨0⟩, [.int .u8], []⟩⟩]⟩
    let σ : Var → Ty := fun
      | .ty 0 => .int .u8
      | .int _ => .int .i32
      | v => .var v
    let τ : Var → Ty := fun
      | .ty 0 => .slice (.var (.ty 1))
      | v => .var v
    let conv : TraitRef := ⟨.param ⟨1⟩, ⟨0⟩, [.var (.ty 0)]⟩
    let num : TraitRef := ⟨.bool, ⟨2⟩, [.var (.int 0)]⟩
    let hidden (t : Ty) : Ty := .existential (some 0) [⟨⟨0⟩, [t], []⟩]
    let same : TraitRef := ⟨hidden (.var (.ty 0)), ⟨3⟩, [hidden (.int .u8)]⟩
    let pick : TraitRef := ⟨.bool, ⟨4⟩, [.var (.ty 0), .int .u8, .char]⟩
    Ty.KeepsKinds σ ∧ Ty.KeepsKinds τ ∧
    (select .overlooking {} env conv = .ok (.impl ⟨0⟩) ∧
      select .overlooking {} env (conv.assign σ) = .ok (.param ⟨⟨0⟩, [.int .u8], []⟩)) ∧
    (select .overlooking {} env num = .err ∧
      select .overlooking {} env (num.assign σ) = .ok (.impl ⟨1⟩)) ∧
    (select .overlooking {} env same = .err ∧
      select .overlooking {} env (same.assign σ) = .ok (.impl ⟨2⟩)) ∧
    (select .overlooking {} env pick = .err ∧
      select .overlooking {} env (pick.assign τ) = .ok (.impl ⟨3⟩)) := by
  intro env σ τ conv num hidden same pick
  refine ⟨?_, ?_, ⟨rfl, rfl⟩, ⟨rfl, rfl⟩, ⟨rfl, rfl⟩, ⟨rfl, rfl⟩⟩
  · intro v
    cases v <;> rfl
  · intro v
    cases v <;> rfl

end Selection

end TypeInference
