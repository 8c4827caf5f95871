import TypeInference.Proofs.Instantiation

/-!
# Headers that unification accepts

Matching a header with a goal looks at each place by itself, while unification binds variables as it
goes. The two run side by side: what a hole was filled with is what its variable fits from then on.
-/

namespace TypeInference

/-! ## Matching beside unification -/

variable {v : Var}

namespace Vars

variable {vs vs' vs₁ : Vars} {a b t g r : Ty} {D U : Ty → Prop} {as bs : List Ty}

/-- The types have been combined successfully, or they were the same. -/
def Joins (vs : Vars) (a b : Ty) (vs' : Vars) : Prop :=
  Evaluates (.ok .unknown) (.pair a b) vs true vs' ∨ a.same b = true ∧ vs' = vs

/-- Types have been joined pairwise, one pair after the other. -/
inductive JoinsAll : List Ty → List Ty → Vars → Vars → Prop
  | nil (vs : Vars) : JoinsAll [] [] vs vs
  | cons {a b : Ty} {as bs : List Ty} {vs vs₁ vs' : Vars} : vs.Joins a b vs₁ →
    JoinsAll as bs vs₁ vs' → JoinsAll (a :: as) (b :: bs) vs vs'

theorem JoinsAll.append {a b : Ty} (h : JoinsAll as bs vs vs₁) (hab : vs₁.Joins a b vs') :
    JoinsAll (as ++ [a]) (bs ++ [b]) vs vs' := by
  induction h with
  | nil => exact .cons hab (.nil vs')
  | cons hfirst _ ih => exact .cons hfirst (ih hab)

theorem Joins.spec (hD : Regime D) (hvs : vs.Among D) (ha : D a) (hb : D b)
    (h : vs.Joins a b vs') : Steps vs vs' ∧ vs'.Among D ∧ FitsAfter vs vs' a b := by
  rcases h with h | ⟨hsame, rfl⟩
  · exact ⟨h.steps, hvs.evaluates hD h ⟨ha, hb⟩, h.fits hD hvs ⟨ha, hb⟩ rfl⟩
  · exact ⟨.refl, hvs, .of_same hvs.sound (fun _ _ _ => trivial) hsame (hvs.has_vars hD ha)⟩

theorem Joins.untouched (h : vs.Joins a b vs') (hv : vs.Untouched v)
    (ha : v ∉ a.vars) (hb : v ∉ b.vars) : vs'.Untouched v := by
  rcases h with h | ⟨-, rfl⟩
  · exact hv.evaluates ha hb h
  · exact hv

theorem Joins.fits_open (hD : Regime D) (hvs : vs.Among D) (hb : D b) (hv : vs.Open v)
    (h : vs.Joins (.var v) b vs') : Fits vs' Eq vs.OpenIn (.var v) b := by
  rcases h with h | ⟨hsame, rfl⟩
  · have hself : vs.Heads (.var v) (.var v) := .unbound hv.2 hv.1
    obtain ⟨u, hheads⟩ := h.exists_heads.2
    have hlinks := h.performs hself hheads (.left v u)
    exact hlinks.fits (fun _ _ h => h) hvs.sound hself hheads (hvs.has_vars hD hb)
      (hD.structural (hheads.keeps hvs.keeps hb))
  · refine .of_same hvs.sound (fun _ _ h => h) hsame ?_
    simp only [Ty.vars_var, List.mem_singleton, forall_eq]
    exact has_of_valueOf hv.2

theorem joinsAll_of_same (h : List.Forall₂ (fun x y => x.same y = true) as bs) (vs : Vars) :
    JoinsAll as bs vs vs := by
  induction h with
  | nil => exact .nil vs
  | cons hab _ ih => exact .cons (.inr ⟨hab, rfl⟩) ih

theorem joinsAll_of_evaluates {p : Problem} {ok : Bool} (h : Evaluates (.ok .unknown) p vs ok vs')
    (hp : p = .list as bs) (hok : ok = true) : JoinsAll as bs vs vs' := by
  induction h generalizing as bs with
  | nil vs =>
    cases hp
    exact .nil vs
  | cons hfirst _ _ ih =>
    cases hp
    obtain ⟨hrest, rfl⟩ := Bool.and_eq_true_iff.1 hok
    exact .cons (.inl hfirst) (ih rfl hrest)
  | _ => cases hp

/-- Types that were joined have parts that were joined one after the other. -/
theorem Joins.parts (hD : Regime D) (ha : D a) (hb : D b) (hnode : a.isVar = false)
    (hnode' : b.isVar = false) (h : vs.Joins a b vs') : JoinsAll a.parts b.parts vs vs' := by
  have hnever {t : Ty} (ht : D t) : t.isNever = false := by
    cases t with
    | never => cases hD.structural ht
    | _ => rfl
  rcases h with h | ⟨hsame, rfl⟩
  · obtain ⟨task, htask⟩ := exists_hasTask a b
    have hperforms := h.performs (.node hnode) (.node hnode') htask
    cases htask with
    | left => cases hnode
    | right => cases hnode'
    | settled _ _ hsettled =>
      obtain ⟨-, rfl⟩ := hperforms
      simp only [Ty.settles, hnever ha, hnever hb, Bool.or_false] at hsettled
      exact joinsAll_of_same (Ty.agrees_of_same hsettled hnode).2.2 vs'
    | apart => cases hperforms.1
    | components _ _ hfaces =>
      obtain ⟨-, rfl, rfl⟩ := Ty.agrees_of_faces? hfaces (hD.structural ha)
      exact joinsAll_of_evaluates hperforms rfl rfl
    | signature =>
      obtain ⟨vs₁, hparams, hresult⟩ := hperforms.resolve_right fun h => by cases h.1
      exact (joinsAll_of_evaluates hparams rfl rfl).append (.inl hresult)
  · exact joinsAll_of_same (Ty.agrees_of_same hsame hnode).2.2 vs'

/-- Where all lengths are known, types that fit do so in every length. -/
theorem Fits.exact (hD : Regime D) (hvs : vs.Among D) (hmeasured : ∀ t, D t → t.isMeasured = true)
    (hr : D r) (hg : D g) (h : Fits vs (fun _ _ => True) U r g) : Fits vs Eq U r g := by
  induction g using Ty.componentInduction generalizing r with
  | node g ih =>
    cases h with
    | general _ i => exact .general r i
    | number hv hheads hkind => exact .number hv hheads hkind
    | @node _ hd _ hheads hnode hagrees _ hparts =>
      have hd' := hheads.keeps hvs.keeps hr
      refine .node hheads hnode hagrees ?_ ?_
      · have hm := hmeasured hd hd'
        have hn := hmeasured g hg
        cases hd with
        | array x m =>
          cases g with
          | array y n =>
            cases m with
            | none => cases hm
            | some m =>
              cases n with
              | none => cases hn
              | some n => exact congrArg some (of_decide_eq_true hagrees)
          | _ => trivial
        | _ => trivial
      · refine forall₂_imp hparts fun x hx y hy hxy => ?_
        have hy := g.parts_sublist.subset hy
        exact ih y hy (hD.component hd' (hd.parts_sublist.subset hx)) (hD.component hg hy) hxy
    | unknown hheads hU hnode => exact .unknown hheads hU hnode

end Vars

namespace Header

open Vars

theorem occurrences_eq_zero_iff {p : ParamId} {t : Ty} :
    occurrences p [t] = 0 ↔ .param p ∉ t.subterms := by
  rw [occurrences, List.flatMap_singleton, List.countP_eq_zero]
  constructor
  · intro h hmem
    simpa using h _ hmem
  · intro h u hu
    cases u with
    | param q =>
      intro hq
      rw [of_decide_eq_true hq] at hu
      exact h hu
    | _ => exact Bool.false_ne_true

/-- What is known of a hole before at most `n` more occurrences, and of the type `r` in its place:
the variable fits what the hole was filled with. A hole that is not filled is never filled with one
of several types, because all lengths are known (`K`), or because it was left out before and occurs
only once more, or because nothing is known of its variable. -/
inductive Tracked (K : Prop) (vs : Vars) (r : Ty) (n : Nat) : Option Ty → Prop
  | ended {x : Option Ty} : n = 0 → Tracked K vs r n x
  | taken {g : Ty} : Fits vs Eq (fun _ => True) r g → Tracked K vs r n (some g)
  | measured : K → Tracked K vs r n none
  | once : n ≤ 1 → Tracked K vs r n none
  | twice {v : Var} : n ≤ 2 → r = .var v → vs.Untouched v → Tracked K vs r n none

/-- The types in the place of the holes of a header, and the types it is matched with. -/
structure Setting (params : List ParamId) (σ : Subst) (D : Ty → Prop) (K : Prop) : Prop where
  regime : Regime D
  measured : K → ∀ t, D t → t.isMeasured = true
  var : ∀ p ∈ params, ∃ i, σ.lookup p = .var (.ty i)
  other : ∀ p, p ∉ params → σ.lookup p = .param p
  distinct : ∀ p ∈ params, ∀ q, σ.lookup p = σ.lookup q → p = q

section

variable {params : List ParamId} {σ : Subst} {D : Ty → Prop} {K : Prop} {vs vs' : Vars}
  {t g r u : Ty} {n m : ParamId → Nat} {holes : Holes} {p : ParamId} {x : Option Ty}

/-- The variables in the place of holes do not occur in the type. -/
def Apart (params : List ParamId) (σ : Subst) (t : Ty) : Prop :=
  ∀ p ∈ params, ∀ v ∈ t.vars, σ.lookup p ≠ .var v

theorem Apart.component (h : Apart params σ t) (hu : u ∈ t.components) : Apart params σ u :=
  fun p hp v hv =>
    h p hp v ((Ty.mem_vars_iff (Ty.isVar_of_mem_components hu)).2 ⟨u, hu, hv⟩)

theorem apart_of_grounded (h : Instantiates params vs vs' σ) (ht : vs.Grounded t) :
    Apart params σ t := by
  intro p hp v hv hsame
  obtain ⟨i, hi, hle, -⟩ := h.var p hp
  rw [hi] at hsame
  cases hsame
  exact absurd (ht _ (.here hv)) (Nat.not_lt.2 hle)

/-- The variable of a parameter only comes in through the parameter. -/
theorem Setting.not_mem_vars (hσ : Setting params σ D K) (hp : p ∈ params)
    (hv : σ.lookup p = .var v) (ht : Apart params σ t) (hnone : .param p ∉ t.subterms) :
    v ∉ (σ.apply t).vars := by
  induction t using Ty.paramInduction with
  | param q =>
    rw [Subst.apply_param]
    by_cases hq : q ∈ params
    · obtain ⟨i, hi⟩ := hσ.var q hq
      rw [hi, Ty.vars_var, List.mem_singleton]
      rintro rfl
      obtain rfl := hσ.distinct p hp q (hv.trans hi.symm)
      exact hnone (Ty.mem_subterms_self _)
    · rw [hσ.other q hq]
      simp [Ty.vars, Ty.subterms]
  | node t hnode ih =>
    rw [Subst.apply_node hnode]
    rcases t.eq_var_or with ⟨w, rfl⟩ | hvar
    · intro hmem
      exact ht p hp v hmem hv
    · intro hmem
      rw [Ty.mem_vars_iff (by rw [Ty.isVar_mapComponents, hvar])] at hmem
      obtain ⟨d, hd, hmem⟩ := hmem
      rw [Ty.components_mapComponents] at hd
      obtain ⟨c, hc, rfl⟩ := List.mem_map.1 hd
      refine ih c hc (ht.component hc) (fun hparam => hnone ?_) hmem
      exact Ty.mem_subterms_of_component hc hparam

/-- All holes are tracked. -/
def Followed (K : Prop) (params : List ParamId) (σ : Subst) (vs : Vars) (n : ParamId → Nat)
    (holes : Holes) : Prop :=
  ∀ p ∈ params, Tracked K vs (σ.lookup p) (n p) (holes.lookup p)

theorem Tracked.mono {n m : Nat} (h : Tracked K vs r m x) (hle : n ≤ m) : Tracked K vs r n x := by
  cases h with
  | ended hm => exact .ended (by omega)
  | taken hfits => exact .taken hfits
  | measured hK => exact .measured hK
  | once hm => exact .once (by omega)
  | twice hm hr hv => exact .twice (by omega) hr hv

theorem Followed.mono (h : Followed K params σ vs m holes) (hle : ∀ p, n p ≤ m p) :
    Followed K params σ vs n holes :=
  fun p hp => (h p hp).mono (hle p)

/-- What fills a hole is tracked past the places where its parameter occurs. -/
theorem Tracked.joined (hσ : Setting params σ D K) (hvs : vs.Among D) (ht : D (σ.apply t))
    (hg : D g) (happart : Apart params σ t) (happart' : Apart params σ g)
    (hjoins : vs.Joins (σ.apply t) g vs') (hp : p ∈ params) {k : Nat}
    (h : Tracked K vs (σ.lookup p) (k + occurrences p [t]) x) : Tracked K vs' (σ.lookup p) k x := by
  obtain ⟨hsteps, -, -⟩ := hjoins.spec hσ.regime hvs ht hg
  cases h with
  | ended hk => exact .ended (by omega)
  | taken hfits => exact .taken (hfits.mono (hsteps.grows hvs.sound) (fun _ _ h => h) fun _ h => h)
  | measured hK => exact .measured hK
  | once hk => exact .once (by omega)
  | @twice v hk hr hv =>
    by_cases hzero : occurrences p [t] = 0
    · refine .twice (by omega) hr (hjoins.untouched hv ?_ ?_)
      · exact hσ.not_mem_vars hp hr happart (occurrences_eq_zero_iff.1 hzero)
      · exact fun hmem => happart' p hp v hmem hr
    · exact .once (by omega)

/-- Where a type of a header has been joined with a goal, it may match, and the holes stay
tracked. -/
def Runs (K : Prop) (params : List ParamId) (σ : Subst) (D : Ty → Prop) (t : Ty) : Prop :=
  ∀ ⦃vs vs' n holes g⦄, vs.Among D → D (σ.apply t) → D g → Apart params σ t → Apart params σ g →
    vs.Joins (σ.apply t) g vs' →
    Followed K params σ vs (fun p => n p + occurrences p [t]) holes →
    (matchFrom params holes t g).1 ≠ .no ∧
      Followed K params σ vs' n (matchFrom params holes t g).2

/-- Where the header is a hole, matching fills it with what its variable was joined with. -/
theorem runs_param (hσ : Setting params σ D K) (hp : p ∈ params) :
    Runs K params σ D (.param p) := by
  intro vs vs' n holes g hvs ht hg happart happart' hjoins hfollowed
  obtain ⟨hsteps, hvs', hfits⟩ := hjoins.spec hσ.regime hvs ht hg
  have hgrows := hsteps.grows hvs.sound
  have hother : ∀ q ∈ params, Tracked K vs' (σ.lookup q) (n q) (holes.lookup q) := fun q hq =>
    (hfollowed q hq).joined hσ hvs ht hg happart happart' hjoins hq
  have hself : Tracked K vs (σ.lookup p) (n p + 1) (holes.lookup p) := by
    simpa only [occurrences_param] using hfollowed p hp
  cases hlookup : holes.lookup p with
  | some taken =>
    rw [matchFrom_of_taken hp hlookup]
    refine ⟨?_, hother⟩
    rw [hlookup] at hself
    cases hself with
    | ended hn => cases hn
    | taken hfits' => exact compare_of_fits hvs.sound hsteps hfits' hfits
  | none =>
    rw [matchFrom_of_free hp hlookup]
    refine ⟨nofun, fun q hq => ?_⟩
    by_cases hqp : q = p
    · rw [hqp, List.lookup_cons_self]
      rw [hlookup] at hself
      cases hself with
      | ended hn => cases hn
      | measured hK =>
        refine .taken ((hfits.exact hσ.regime hvs' (hσ.measured hK) ht hg).mono (.refl _)
          (fun _ _ h => h) fun _ _ => trivial)
      | once hn => exact .ended (by omega)
      | twice hn hr hv =>
        rw [Subst.apply_param, hr] at hjoins
        rw [hr]
        exact .taken ((hjoins.fits_open hσ.regime hvs hg hv.isOpen).mono (.refl _)
          (fun _ _ h => h) fun _ _ => trivial)
    · rw [lookup_cons_ne hqp]
      exact hother q hq

/-- The parts are matched one by one, while the holes are tracked. -/
theorem runs_list (hσ : Setting params σ D K) {ts gs : List Ty}
    (h : ∀ t ∈ ts, Runs K params σ D t) (hvs : vs.Among D) (hts : ∀ t ∈ ts, D (σ.apply t))
    (hgs : ∀ g ∈ gs, D g) (happart : ∀ t ∈ ts, Apart params σ t)
    (happart' : ∀ g ∈ gs, Apart params σ g) (hjoins : JoinsAll (ts.map σ.apply) gs vs vs')
    (hfollowed : Followed K params σ vs (fun p => n p + occurrences p ts) holes) :
    (matchAllFrom params holes ts gs).1 ≠ .no ∧
      Followed K params σ vs' n (matchAllFrom params holes ts gs).2 := by
  induction ts generalizing gs vs holes with
  | nil =>
    cases hjoins
    exact ⟨nofun, hfollowed.mono fun p => Nat.le_add_right ..⟩
  | cons t ts ih =>
    cases hjoins with
    | @cons _ g _ gs _ vs₁ _ hfirst hrest =>
      have hfollowed' : Followed K params σ vs
          (fun p => (n p + occurrences p ts) + occurrences p [t]) holes := by
        refine hfollowed.mono fun p => ?_
        rw [occurrences_cons p t ts]
        omega
      have ht := hts t (.head _)
      have hg := hgs g (.head _)
      obtain ⟨hmatch, hnext⟩ := h t (.head _) hvs ht hg (happart t (.head _))
        (happart' g (.head _)) hfirst hfollowed'
      obtain ⟨-, hvs₁, -⟩ := hfirst.spec hσ.regime hvs ht hg
      obtain ⟨hmatch', hlast⟩ := ih (fun c hc => h c (.tail _ hc)) hvs₁
        (fun c hc => hts c (.tail _ hc))
        (fun c hc => hgs c (.tail _ hc))
        (fun c hc => happart c (.tail _ hc))
        (fun c hc => happart' c (.tail _ hc)) hrest hnext
      refine ⟨matchAllFrom_cons_ne_no.2 ⟨hmatch, hmatch'⟩, ?_⟩
      rw [holes_matchAllFrom_cons hmatch]
      exact hlast

theorem standsFor_mapComponents (hv : (Ty.var v).isTyVar = false) (f : Ty → Ty) (t : Ty) :
    v.standsFor (t.mapComponents f) = v.standsFor t := by
  cases v with
  | ty => cases hv
  | int | float => cases t <;> rfl

/-- At the head, matching does not refuse what unification accepted. -/
theorem outcome_of_fits (hσ : Setting params σ D K) (ht : D (σ.apply t))
    (hhole : ∀ p ∈ params, t ≠ .param p) (h : FitsAfter vs vs' (σ.apply t) g) :
    t.outcome g = some .maybe ∨ t.outcome g = none := by
  have hkept : ∀ p, t = .param p → σ.lookup p = .param p := fun p hp =>
    hσ.other p fun hmem => hhole p hmem hp
  rw [Subst.apply_of_kept hkept] at h ht
  rcases t.var_cases with ⟨i, rfl⟩ | ⟨w, rfl, hw⟩ | hnode
  · exact .inl (outcome_var_left rfl)
  · cases h with
    | general _ i => exact .inl (outcome_var_right rfl)
    | number hv hheads hkind =>
      exact .inl (outcome_var_left (Var.standsFor_of_common hv hheads.standsFor hkind))
    | node hheads hnode hagrees _ _ =>
      exact .inl (outcome_var_left (standsFor_of_agrees hw hnode hheads.standsFor hagrees))
    | unknown hheads _ _ =>
      have hkind := hheads.standsFor
      cases w with
      | ty => cases hw
      | _ => cases hkind
  · have hnode' : (t.mapComponents σ.apply).isVar = false := by
      rw [Ty.isVar_mapComponents, hnode]
    cases h with
    | general _ i => exact .inl (outcome_var_right rfl)
    | number hv hheads hkind =>
      rw [hheads.eq_of_node hnode', standsFor_mapComponents hv] at hkind
      exact .inl (outcome_var_right hkind)
    | node hheads hhead hagrees _ _ =>
      rw [hheads.eq_of_node hnode'] at hagrees
      have hg := Ty.isVar_of_agrees hagrees hnode'
      cases hindefinite : t.isIndefinite with
      | true =>
        left
        rw [Ty.outcome, Ty.openVerdict?_node hnode hg, hindefinite]
        rfl
      | false =>
        have hstructural := hσ.regime.structural ht
        refine outcome_of_agrees hnode hg ?_
        rwa [← Ty.agrees_mapComponents hindefinite (f := σ.apply) (h := id), Ty.mapComponents_id]
        left
        cases t with
        | existential => cases hstructural
        | _ => rfl
    | unknown _ hopen _ => exact absurd hopen (not_openIn hnode')

/-- Matching never refuses a type that unification accepted. -/
theorem runs (hσ : Setting params σ D K) (t : Ty) : Runs K params σ D t := by
  induction t using Ty.componentInduction with
  | node t ih =>
    by_cases hhole : ∃ p ∈ params, t = .param p
    · obtain ⟨p, hp, rfl⟩ := hhole
      exact runs_param hσ hp
    · have hhole : ∀ p ∈ params, t ≠ .param p := by simpa using hhole
      have hkept : ∀ p, t = .param p → σ.lookup p = .param p := fun p hp =>
        hσ.other p fun hmem => hhole p hmem hp
      intro vs vs' n holes g hvs ht hg happart happart' hjoins hfollowed
      obtain ⟨hsteps, hvs', hfits⟩ := hjoins.spec hσ.regime hvs ht hg
      rw [matchFrom_eq hhole]
      rcases outcome_of_fits hσ ht hhole hfits with hopen | hnone
      · -- Matching stops here, and the holes further down are left out.
        rw [hopen]
        refine ⟨nofun, fun p hp => ?_⟩
        exact (hfollowed p hp).joined hσ hvs ht hg happart happart' hjoins hp
      · rw [hnone]
        obtain ⟨hnode, hnode'⟩ := Ty.isVar_of_outcome_eq_none hnone
        have hnode'' : (σ.apply t).isVar = false := by
          rw [Subst.apply_of_kept hkept, Ty.isVar_mapComponents, hnode]
        have hparts : (σ.apply t).parts = t.parts.map σ.apply := by
          rw [Subst.apply_of_kept hkept, Ty.parts_mapComponents]
        have hjoins' := hjoins.parts hσ.regime ht hg hnode'' hnode'
        rw [hparts] at hjoins'
        refine runs_list hσ (fun c hc => ih c (t.parts_sublist.subset hc)) hvs ?_ ?_ ?_ ?_ hjoins'
          (hfollowed.mono fun p => Nat.add_le_add_left (occurrences_parts_le p t) _)
        · intro c hc
          refine hσ.regime.component ht ((σ.apply t).parts_sublist.subset ?_)
          rw [hparts]
          exact List.mem_map_of_mem hc
        · exact fun c hc => hσ.regime.component hg (g.parts_sublist.subset hc)
        · exact fun c hc => happart.component (t.parts_sublist.subset hc)
        · exact fun c hc => happart'.component (g.parts_sublist.subset hc)

end

/-! ## Whole headers -/

/-- A header that has been unified with a goal, with new variables in its holes, may match the
goal. -/
theorem matchGoal_of_joins {params : List ParamId} {vs vs₁ vs' : Vars} {σ : Subst} {K : Prop}
    {p : Ty → Bool} (hp : Superficial p) (hstructural : ∀ t, p t = true → t.isStructural = true)
    (hmeasured : K → ∀ t, p t = true → t.isMeasured = true)
    (hσ : Instantiates params vs vs₁ σ) {header goal : List Ty}
    (hheader : ∀ t ∈ header, vs.Shows p t) (hgoal : ∀ g ∈ goal, vs.Shows p g)
    (hjoins : JoinsAll (header.map σ.apply) goal vs₁ vs')
    (hparams : K ∨ ∀ q ∈ params, occurrences q header ≤ 2) :
    matchGoal params header goal ≠ .no := by
  have hresolves {t : Ty} (ht : vs.Shows p t) : ResolvesTo p vs₁ t := by
    obtain ⟨r, hr, hall⟩ := ht
    exact resolvesTo_of_resolve hp hσ.sound hσ.grows hσ.open_of_open hr hall
  have happart {t : Ty} (ht : vs.Shows p t) : Apart params σ t := by
    obtain ⟨r, hr, -⟩ := ht
    exact apart_of_grounded hσ (grounded_of_resolve hr)
  have hsetting : Setting params σ (ResolvesTo p vs₁) K := by
    refine ⟨regime_resolvesTo hp hstructural, fun hK t ht => ?_, ?_, hσ.other, hσ.distinct⟩
    · exact hmeasured hK t (ht.holds hp)
    · intro q hq
      obtain ⟨i, hi, -⟩ := hσ.var q hq
      exact ⟨i, hi⟩
  have hfollowed : Followed K params σ vs₁ (fun q => 0 + occurrences q header) [] := by
    intro q hq
    rcases hparams with hK | htwice
    · exact .measured hK
    · obtain ⟨i, hi, -, huntouched⟩ := hσ.var q hq
      exact .twice (by simpa using htwice q hq) hi huntouched
  rw [matchGoal_eq]
  refine (runs_list hsetting (fun t _ => runs hsetting t) (among_resolvesTo hσ.sound) ?_ ?_ ?_ ?_
    hjoins hfollowed).1
  · exact fun t ht => (hresolves (hheader t ht)).apply hp hσ
  · exact fun g hg => hresolves (hgoal g hg)
  · exact fun t ht => happart (hheader t ht)
  · exact fun g hg => happart (hgoal g hg)

end Header

namespace Vars

variable {vs vs' : Vars} {a b : TraitRef}

/-- Unifying two trait references joins their headers place by place. -/
theorem joinsAll_of_combineTraitRefs (hs : vs.Sound) (h : combineTraitRefs a b vs = .ok (true, vs')) :
    a.trait = b.trait ∧ a.args.length = b.args.length ∧ JoinsAll a.header b.header vs vs' := by
  unfold combineTraitRefs at h
  by_cases hshape : a.trait = b.trait ∧ a.args.length = b.args.length
  · rw [if_pos hshape] at h
    obtain ⟨ok, vs₁, hself, h⟩ := StateT.bind_eq_ok h
    cases ok with
    | false => cases h
    | true =>
      have hself := derives_combineOr tolerant_unknown _ _ hs hself
      have hargs := derives_combineListBy (fun a _ => derives_combineOr tolerant_unknown a) hshape.2
        (hself.steps.sound hs) h
      exact ⟨hshape.1, hshape.2, .cons (.inl hself) (joinsAll_of_evaluates hargs rfl rfl)⟩
  · rw [if_neg hshape] at h
    cases h

theorem Shows.and {p q : Ty → Bool} {t : Ty} (hp : vs.Shows p t) (hq : vs.Shows q t) :
    vs.Shows (fun u => p u && q u) t := by
  obtain ⟨r, hr, hp⟩ := hp
  obtain ⟨r', hr', hq⟩ := hq
  rw [hr] at hr'
  cases hr'
  exact ⟨r, hr, fun u hu => Bool.and_eq_true_iff.2 ⟨hp u hu, hq u hu⟩⟩

end Vars

theorem Items.mem_implsWhere {items : Items} {p : Impl → Bool} {id : ImplId} {impl : Impl}
    (h : items.impl id = .ok impl) (hp : p impl = true) : id ∈ items.implsWhere p := by
  have hget := entry_eq_ok h
  refine List.mem_filterMap.2 ⟨id.index, List.mem_range.2 ?_, ?_⟩
  · exact (Array.getElem?_eq_some_iff.1 hget).1
  · rw [hget, Option.bind_some, if_pos hp]

open Header Vars in
/-- Selection rules out no impl whose header unification accepts. In any state that an inference can
be in, let the header of an impl, with new variables for its parameters, be combined successfully
with a goal. Where neither contains the type of expressions that never finish, a trait object or an
opaque type, once resolved, the impl is a candidate for the goal. No parameter may occur more than
twice in the header, unless the lengths of all arrays are known. -/
theorem History.candidate_of_combine {scope : Scope} {v : Versions State Mark}
    (h : History (Walk.Works scope) v) {id : ImplId} {impl : Impl}
    (himpl : scope.items.impl id = .ok impl) {trait : TraitId} {args : List Ty}
    (htrait : impl.traitRef = some (trait, args)) {goal header : TraitRef} {σ : Subst} {s s' : State}
    (hheader : Infer.instantiateHeader impl scope v.current = .ok (some (σ, header), s))
    (hcombine : Infer.combineTraitRefs header goal scope s = .ok (true, s'))
    (hstructural : ∀ t ∈ impl.self :: args ++ goal.header,
      v.current.vars.Shows Ty.isStructural t)
    (hlengths : (∀ p ∈ impl.generics.params, occurrences p (impl.self :: args) ≤ 2) ∨
      ∀ t ∈ impl.self :: args ++ goal.header, v.current.vars.Shows Ty.isMeasured t) :
    impl.mayApply goal = true ∧ id ∈ Selection.candidates scope.items goal := by
  have hs := h.wellFormed.vars
  simp only [Infer.instantiateHeader, htrait] at hheader
  obtain ⟨subst, s₁, hfresh, ⟨⟩⟩ := Infer.bind_eq_ok hheader
  have hσ := Infer.instantiates_of_freshSubst hs hfresh
  obtain ⟨vars, hrun, -⟩ := Infer.onVars_eq_ok hcombine
  obtain ⟨htrait', hlength, hjoins⟩ := joinsAll_of_combineTraitRefs hσ.sound hrun
  have hmatch : matchGoal impl.generics.params (impl.self :: args) goal.header ≠ .no := by
    rcases hlengths with htwice | hmeasured
    · refine matchGoal_of_joins (K := False) (p := Ty.isStructural) ?_ (fun _ h => h) nofun hσ
        (fun t ht => hstructural t (List.mem_append_left _ ht))
        (fun t ht => hstructural t (List.mem_append_right _ ht)) hjoins (.inr htwice)
      exact ⟨fun t f => by cases t <;> rfl, rfl, fun _ => rfl⟩
    · have hboth : ∀ t ∈ impl.self :: args ++ goal.header,
          v.current.vars.Shows (fun u => u.isStructural && u.isMeasured) t :=
        fun t ht => (hstructural t ht).and (hmeasured t ht)
      refine matchGoal_of_joins (K := True) ?_ (fun t h => (Bool.and_eq_true_iff.1 h).1)
        (fun _ t h => (Bool.and_eq_true_iff.1 h).2) hσ
        (fun t ht => hboth t (List.mem_append_left _ ht))
        (fun t ht => hboth t (List.mem_append_right _ ht)) hjoins (.inl trivial)
      refine ⟨fun t f => ?_, rfl, fun _ => rfl⟩
      cases t with
      | array x n => cases n <;> rfl
      | _ => rfl
  have happly : impl.mayApply goal = true := by
    simp only [Impl.mayApply, htrait, Bool.and_eq_true, decide_eq_true_eq]
    refine ⟨?_, hmatch⟩
    simpa [Subst.applyList] using hlength
  refine ⟨happly, Items.mem_implsWhere himpl ?_⟩
  rw [happly, Bool.and_true, decide_eq_true_eq, Impl.trait?, htrait]
  exact congrArg some htrait'

/-- An impl one parameter of which occurs in a slice and twice by itself. -/
def Impl.gathering : Impl where
  generics := ⟨[⟨1⟩, ⟨2⟩], []⟩
  traitRef := some (⟨0⟩, [.slice (.param ⟨1⟩), .slice (.param ⟨2⟩), .param ⟨2⟩, .param ⟨1⟩, .param ⟨1⟩])
  self := .bool
  assocTypes := []

/-- A scope in which there is nothing but that impl and its trait. -/
def Scope.gathering : Scope := { Scope.bare with
  items := { Items.empty with
    paramNames := #["Self", "T", "U", "A", "B", "C", "D", "E"]
    traits := #[⟨"Gather", ⟨[⟨3⟩, ⟨4⟩, ⟨5⟩, ⟨6⟩, ⟨7⟩], []⟩, []⟩]
    impls := #[.gathering] } }

/-- Goals that differ in what fills the second parameter and in what it is unified with later. -/
def TraitRef.gathering (first second third : Ty) : TraitRef :=
  ⟨.bool, ⟨0⟩, [.var (.ty 0), .var (.ty 0), first, second, third]⟩

/-- The two parameters become one through a variable of the goal. -/
theorem History.exists_combine_gathering (goal : TraitRef) (v : Versions State Mark)
    (hok : ((do
      let some (_, header) ← Infer.instantiateHeader .gathering | return false
      Infer.combineTraitRefs header goal : Infer Bool) .gathering v.current).toOption.map (·.1) =
        some true) :
    ∃ σ header s s',
      Infer.instantiateHeader .gathering .gathering v.current = .ok (some (σ, header), s) ∧
      Infer.combineTraitRefs header goal .gathering s = .ok (true, s') := by
  obtain ⟨⟨ok, s'⟩, hrun, rfl⟩ := Except.exists_ok_of_toOption hok
  obtain ⟨found, s, hheader, hrest⟩ := Infer.bind_eq_ok hrun
  cases found with
  | none => cases hrest
  | some found => exact ⟨_, _, s, s', hheader, hrest⟩

/-- What fills the second parameter is what the first has to be. -/
theorem History.candidate_of_combine_gathering :
    let goal := TraitRef.gathering (.array (.int .u8) (some 3)) (.array (.int .u8) (some 3))
      (.var (.ty 1))
    ∃ v, History (Walk.Works .gathering) v ∧
      (∃ σ header s s', Infer.instantiateHeader .gathering .gathering v.current =
          .ok (some (σ, header), s) ∧
        Infer.combineTraitRefs header goal .gathering s = .ok (true, s')) ∧
      Impl.gathering.mayApply goal = true ∧
      ⟨0⟩ ∈ Selection.candidates Scope.gathering.items goal := by
  intro goal
  have hstart := History.atStart .gathering
  have hzero := hstart.operate .freshTy rfl
  have h := hzero.operate .freshTy rfl
  have hrun := History.exists_combine_gathering goal
    ⟨{ vars := (∅ : Vars).freshTy.2.freshTy.2 }, []⟩ (by decide +kernel)
  refine ⟨_, h, hrun, ?_⟩
  obtain ⟨σ, header, s, s', hheader, hcombine⟩ := hrun
  have himpl : Scope.gathering.items.impl ⟨0⟩ = .ok .gathering := rfl
  exact h.candidate_of_combine himpl rfl hheader hcombine (by decide +kernel)
    (.inr (by decide +kernel))

/-- An array of unknown length can be unified with arrays of two lengths, so the goal is accepted.
But matching has filled the first parameter with only one of them: where the parameter occurs first,
the goal has a variable, and matching leaves it out. -/
theorem History.unmeasured_gathering_overlooked :
    let goal := TraitRef.gathering (.array (.int .u8) none) (.array (.int .u8) (some 3))
      (.array (.int .u8) (some 4))
    ∃ v, History (Walk.Works .gathering) v ∧
      (∃ σ header s s', Infer.instantiateHeader .gathering .gathering v.current =
          .ok (some (σ, header), s) ∧
        Infer.combineTraitRefs header goal .gathering s = .ok (true, s')) ∧
      (∀ t ∈ goal.header, v.current.vars.resolve t = .ok t) ∧
      (∀ t ∈ [.bool, .slice (.param ⟨1⟩), .slice (.param ⟨2⟩), .param ⟨2⟩, .param ⟨1⟩] ++ goal.header,
        ∀ u ∈ t.subterms, u.isStructural = true) ∧
      Impl.gathering.mayApply goal = false ∧
      ⟨0⟩ ∉ Selection.candidates Scope.gathering.items goal := by
  intro goal
  have hstart := History.atStart .gathering
  have h := hstart.operate .freshTy rfl
  have hrun := History.exists_combine_gathering goal ⟨{ vars := (∅ : Vars).freshTy.2 }, []⟩
    (by decide +kernel)
  refine ⟨_, h, hrun, ?_, by decide, by decide, by decide⟩
  simp only [goal, TraitRef.header, TraitRef.gathering, List.forall_mem_cons]
  exact ⟨rfl, rfl, rfl, rfl, rfl, rfl, nofun⟩

end TypeInference
