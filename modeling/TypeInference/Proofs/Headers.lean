import Mathlib.Data.List.Flatten
import TypeInference.Proofs.Matching

/-!
# Headers under assignments

More knowledge about the variables of a goal does not change a verdict on it that was not open. For
headers without holes this holds of both verdicts. A header with holes that may match once the
variables are known may match before. Whether it does match is not asked of it.

With holes, matching a goal and matching the goal under an assignment run side by side. They are not
in step: where the goal has a variable the first run stops, while the second one goes on and may
fill holes there.
-/

namespace TypeInference

/-! ## Headers without holes -/

namespace Verdict

/-- A verdict that is not open stays. -/
def Stays (v v' : Verdict) : Prop := v = .maybe ∨ v' = v

/-- A conjunction of verdicts stays if they do. -/
theorem Stays.min {v v' w w' : Verdict} (hv : Stays v v') (hw : Stays w w') :
    Stays (v.min w) (v'.min w') := by
  rcases hv with rfl | rfl
  · rcases hw with rfl | rfl
    · exact .inl rfl
    · cases w' with
      | no => cases v' <;> exact .inr rfl
      | _ => exact .inl rfl
  · rcases hw with rfl | rfl
    · cases v' with
      | no => exact .inr rfl
      | _ => exact .inl rfl
    · exact .inr rfl

theorem run_andM (x y : Id Verdict) : Id.run (andM x y) = (Id.run x).min (Id.run y) := by
  change Verdict at x
  cases x <;> rfl

end Verdict

namespace Ty

variable {t u : Ty}

theorem subset_subterms (hu : u ∈ t.parts) : u.subterms ⊆ t.subterms := by
  intro x hx
  exact mem_subterms_of_component (t.parts_sublist.subset hu) hx

theorem any_mono {p : Ty → Bool} (hu : u.subterms ⊆ t.subterms) (h : u.any p = true) :
    t.any p = true := by
  obtain ⟨x, hx, hp⟩ := List.any_eq_true.1 h
  exact List.any_eq_true.2 ⟨x, hu hx, hp⟩

variable {σ τ : Var → Ty} {a b c d : Ty}

theorem KeepsNumbers.mono (h : KeepsNumbers σ t) (hu : u.subterms ⊆ t.subterms) :
    KeepsNumbers σ u :=
  fun v hv => h v (List.filterMap_subset _ hu hv)

theorem KeepsExistentials.mono (h : KeepsExistentials σ t) (hu : u.subterms ⊆ t.subterms) :
    KeepsExistentials σ u :=
  fun x hx => h x (hu hx)

/-- What is harmless to types is harmless inside them. -/
theorem Harmless.mono (h : Harmless τ σ a b) (hc : c.subterms ⊆ a.subterms)
    (hd : d.subterms ⊆ b.subterms) : Harmless τ σ c d where
  numbersRight hindefinite := (h.numbersRight (any_mono hc hindefinite)).mono hd
  numbersLeft hindefinite := (h.numbersLeft (any_mono hd hindefinite)).mono hc
  existentials hc' hd' := by
    obtain ⟨ha, hb⟩ := h.existentials (any_mono hc hc') (any_mono hd hd')
    exact ⟨ha.mono hc, hb.mono hd⟩

theorem Harmless.part (h : Harmless τ σ a b) (hc : c ∈ a.parts) (hd : d ∈ b.parts) :
    Harmless τ σ c d :=
  h.mono (subset_subterms hc) (subset_subterms hd)

theorem parts_assign (ha : a.isVar = false) : (a.assign σ).parts = a.parts.map (assign σ) := by
  rw [assign_eq ha, parts_mapComponents]

end Ty

namespace Header

variable {σ τ : Var → Ty} {b a : Ty}

theorem compare_cons (a b : Ty) (as bs : List Ty) :
    compare (a :: as) (b :: bs) = (compare [a] [b]).min (compare as bs) := by
  simp only [compare, Ty.matchListM_singleton]
  rw [Ty.matchListM, Verdict.run_andM]

/-- Types are compared by their heads and then by their parts. -/
theorem compare_singleton (a b : Ty) :
    compare [a] [b] = (a.outcome b).getD (compare a.parts b.parts) := by
  rw [compare, Ty.matchListM_singleton, Ty.matchM_eq (fun _ _ => rfl)]
  cases a.outcome b <;> rfl

theorem compare_map {f g : Ty → Ty} {as bs : List Ty}
    (h : ∀ a ∈ as, ∀ b ∈ bs, (compare [a] [b]).Stays (compare [f a] [g b])) :
    (compare as bs).Stays (compare (as.map f) (bs.map g)) := by
  induction as generalizing bs with
  | nil => exact .inr rfl
  | cons a as ih =>
    cases bs with
    | nil => exact .inr rfl
    | cons b bs =>
      rw [List.map_cons, List.map_cons, compare_cons a, compare_cons (f a)]
      refine (h a (.head _) b (.head _)).min (ih ?_)
      exact fun c hc d hd => h c (.tail _ hc) d (.tail _ hd)

/-- Assignments do not change a verdict that is not open. -/
theorem compare_assign (hτ : Ty.KeepsKinds τ) (hσ : Ty.KeepsKinds σ) (h : Ty.Harmless τ σ a b) :
    (compare [a] [b]).Stays (compare [a.assign τ] [b.assign σ]) := by
  induction a using Ty.componentInduction generalizing b with
  | node a ih =>
    rw [compare_singleton a, compare_singleton (a.assign τ)]
    rcases Ty.outcome_assign hτ hσ h with hopen | hstays
    · rw [hopen]
      exact .inl rfl
    · rw [hstays]
      cases houtcome : a.outcome b with
      | some v => exact .inr rfl
      | none =>
        obtain ⟨ha, hb⟩ := Ty.isVar_of_outcome_eq_none houtcome
        rw [Ty.parts_assign ha, Ty.parts_assign hb]
        refine compare_map ?_
        exact fun c hc d hd => ih c (a.parts_sublist.subset hc) (h.part hc hd)

/-! ## Holes -/

/-- Matches a pattern whose holes are `params`, some of them filled. -/
def matchFrom (params : List ParamId) (holes : Holes) (a b : Ty) : Verdict × Holes :=
  Id.run ((a.matchM (fill params) b).run holes)

def matchAllFrom (params : List ParamId) (holes : Holes) (as bs : List Ty) : Verdict × Holes :=
  Id.run ((Ty.matchListM (fill params) as bs).run holes)

section

variable {params : List ParamId} {as bs : List Ty} {a t : Ty} {q p : ParamId}
  {holes holes' holes₁ holes₂ holes₃ : Holes}

theorem matchGoal_eq (header goal : List Ty) :
    matchGoal params header goal = (matchAllFrom params [] header goal).1 :=
  rfl

theorem matchFrom_of_taken (hp : p ∈ params) (ht : holes.lookup p = some t) (b : Ty) :
    matchFrom params holes (.param p) b = (compare [t] [b], holes) := by
  rw [matchFrom, Ty.matchM, fill, if_pos (List.contains_iff_mem.2 hp)]
  simp [ht]

theorem matchFrom_of_free (hp : p ∈ params) (hfree : holes.lookup p = none) (b : Ty) :
    matchFrom params holes (.param p) b = (.yes, (p, b) :: holes) := by
  rw [matchFrom, Ty.matchM, fill, if_pos (List.contains_iff_mem.2 hp)]
  simp [hfree]

/-- Outside of holes a pattern is matched as a type is. -/
theorem matchFrom_eq (ha : ∀ p ∈ params, a ≠ .param p) (holes : Holes) (b : Ty) :
    matchFrom params holes a b =
      match a.outcome b with
      | some v => (v, holes)
      | none => matchAllFrom params holes a.parts b.parts := by
  rw [matchFrom, Ty.matchM_eq]
  · cases a.outcome b <;> rfl
  · intro p hp
    rw [fill, if_neg]
    exact fun h => ha p (List.contains_iff_mem.1 h) hp

theorem matchAllFrom_cons (holes : Holes) (a b : Ty) (as bs : List Ty) :
    matchAllFrom params holes (a :: as) (b :: bs) =
      let first := matchFrom params holes a b
      if first.1 = .no then first
      else
        let rest := matchAllFrom params first.2 as bs
        (first.1.min rest.1, rest.2) := by
  rw [matchAllFrom, Ty.matchListM, Verdict.andM, StateT.run_bind, Id.run_bind, ← matchFrom]
  obtain ⟨v, holes'⟩ := matchFrom params holes a b
  cases v <;> rfl

/-- Lists may match if their types may, one after the other. -/
theorem matchAllFrom_cons_ne_no :
    (matchAllFrom params holes (a :: as) (b :: bs)).1 ≠ .no ↔
      (matchFrom params holes a b).1 ≠ .no ∧
        (matchAllFrom params (matchFrom params holes a b).2 as bs).1 ≠ .no := by
  rw [matchAllFrom_cons]
  by_cases hfirst : (matchFrom params holes a b).1 = .no
  · simp [hfirst]
  · simp [hfirst, Verdict.min_eq_no]

theorem holes_matchAllFrom_cons (hfirst : (matchFrom params holes a b).1 ≠ .no) :
    (matchAllFrom params holes (a :: as) (b :: bs)).2 =
      (matchAllFrom params (matchFrom params holes a b).2 as bs).2 := by
  rw [matchAllFrom_cons]
  simp [hfirst]

/-- How often a parameter occurs in types. -/
def occurrences (p : ParamId) (ts : List Ty) : Nat :=
  (ts.flatMap Ty.subterms).countP fun
    | .param q => q = p
    | _ => false

theorem occurrences_cons (p : ParamId) (t : Ty) (ts : List Ty) :
    occurrences p (t :: ts) = occurrences p [t] + occurrences p ts := by
  simp [occurrences, List.flatMap_cons, List.countP_append]

theorem occurrences_param (p : ParamId) : occurrences p [.param p] = 1 := by
  simp [occurrences, Ty.subterms]

theorem occurrences_parts_le (p : ParamId) (t : Ty) :
    occurrences p t.parts ≤ occurrences p [t] := by
  have hsublist : (t.parts.flatMap Ty.subterms).Sublist t.subterms := by
    rw [Ty.subterms_eq]
    exact (t.parts_sublist.flatMap _).trans (List.sublist_cons_self ..)
  simpa [occurrences] using hsublist.countP_le

theorem lookup_cons_ne (h : q ≠ p) (t : Ty) (holes : Holes) :
    List.lookup q ((p, t) :: holes) = holes.lookup q := by
  rw [List.lookup_cons, beq_eq_false_iff_ne.2 h]

/-- Only free holes that occur in the pattern have been filled. -/
def Fills (as : List Ty) (holes holes' : Holes) : Prop :=
  ∀ p, holes'.lookup p = holes.lookup p ∨ holes.lookup p = none ∧ 0 < occurrences p as

theorem Fills.mono (h : Fills as holes holes') (hle : ∀ p, occurrences p as ≤ occurrences p bs) :
    Fills bs holes holes' := by
  intro p
  exact (h p).imp_right fun ⟨hfree, hpos⟩ => ⟨hfree, Nat.lt_of_lt_of_le hpos (hle p)⟩

theorem Fills.cons (h₁ : Fills [a] holes₁ holes₂) (h₂ : Fills as holes₂ holes₃) :
    Fills (a :: as) holes₁ holes₃ := by
  intro p
  rw [occurrences_cons]
  rcases h₁ p with hsame | ⟨hfree, hpos⟩
  · rw [← hsame]
    exact (h₂ p).imp_right fun ⟨hfree, hpos⟩ => ⟨hfree, by omega⟩
  · exact .inr ⟨hfree, by omega⟩

theorem fills_matchAllFrom
    (h : ∀ a ∈ as, ∀ holes b, Fills [a] holes (matchFrom params holes a b).2) (holes : Holes)
    (bs : List Ty) : Fills as holes (matchAllFrom params holes as bs).2 := by
  induction as generalizing holes bs with
  | nil => exact fun p => .inl rfl
  | cons a as ih =>
    cases bs with
    | nil => exact fun p => .inl rfl
    | cons b bs =>
      have hfirst := h a (.head _) holes b
      by_cases hno : (matchFrom params holes a b).1 = .no
      · rw [matchAllFrom_cons]
        simp only [hno, if_true]
        exact hfirst.cons fun p => .inl rfl
      · rw [holes_matchAllFrom_cons hno]
        exact hfirst.cons (ih (fun c hc => h c (.tail _ hc)) _ bs)

/-- Matching fills only holes of the pattern. -/
theorem fills_matchFrom (a : Ty) (holes : Holes) (b : Ty) :
    Fills [a] holes (matchFrom params holes a b).2 := by
  induction a using Ty.componentInduction generalizing holes b with
  | node a ih =>
    by_cases hhole : ∃ p ∈ params, a = .param p
    · obtain ⟨p, hp, rfl⟩ := hhole
      cases hlookup : holes.lookup p with
      | some t =>
        rw [matchFrom_of_taken hp hlookup]
        exact fun q => .inl rfl
      | none =>
        rw [matchFrom_of_free hp hlookup]
        intro q
        by_cases hq : q = p
        · rw [hq, occurrences_param]
          exact .inr ⟨hlookup, Nat.one_pos⟩
        · exact .inl (lookup_cons_ne hq b holes)
    · rw [matchFrom_eq (by simpa using hhole)]
      cases a.outcome b with
      | some v => exact fun q => .inl rfl
      | none =>
        have hparts := fills_matchAllFrom (fun c hc => ih c (a.parts_sublist.subset hc)) holes
          b.parts
        exact hparts.mono fun p => occurrences_parts_le p a

/-! ## Holes under an assignment -/

theorem keepsKinds_var : Ty.KeepsKinds .var := by
  intro v
  cases v <;> rfl

section

variable {σ : Var → Ty} {D : Ty → Prop} {n m : ParamId → Nat} {holes' holes : Holes}
  {t t' t₁ t₂ : Option Ty} {p : ParamId}

/-- A hole in a run on a goal and in a run on the assigned goal, before at most `n` more
occurrences. -/
inductive Paired (D : Ty → Prop) (σ : Var → Ty) (n : Nat) : Option Ty → Option Ty → Prop where
  | ended {t t' : Option Ty} (hn : n = 0) : Paired D σ n t t'
  | taken {t : Ty} (ht : ∀ b, D b → Ty.Harmless σ σ t b) :
    Paired D σ n (some t) (some (t.assign σ))
  /-- The hole may have been left out where the goal had a variable. -/
  | once {t' : Option Ty} (hn : n ≤ 1) : Paired D σ n none t'
  | twice (hn : n ≤ 2) (hD : ∀ t b, D t → D b → Ty.Harmless σ σ t b) : Paired D σ n none none

theorem Paired.mono {m n : Nat} (h : Paired D σ m t t') (hle : n ≤ m) : Paired D σ n t t' := by
  cases h with
  | ended hm => exact .ended (by omega)
  | taken ht => exact .taken ht
  | once hm => exact .once (by omega)
  | twice hm hD => exact .twice (by omega) hD

/-- One run may leave an occurrence out. -/
theorem Paired.leftOut {n k : Nat} (h : Paired D σ (n + k) t t₁)
    (hfills : t₂ = t₁ ∨ t₁ = none ∧ 0 < k) : Paired D σ n t t₂ := by
  rcases hfills with rfl | ⟨rfl, hpos⟩
  · exact h.mono (Nat.le_add_right n k)
  · cases h with
    | ended hn => exact .ended (by omega)
    | once hn | twice hn hD => exact .once (by omega)

/-- All holes of two such runs. -/
def Abreast (params : List ParamId) (D : Ty → Prop) (σ : Var → Ty) (n : ParamId → Nat)
    (holes holes' : Holes) : Prop :=
  ∀ p ∈ params, Paired D σ (n p) (holes.lookup p) (holes'.lookup p)

theorem Abreast.mono (h : Abreast params D σ m holes holes') (hle : ∀ p, n p ≤ m p) :
    Abreast params D σ n holes holes' :=
  fun p hp => (h p hp).mono (hle p)

/-- Where a pattern matches the assigned goal, it may match the goal. -/
def Transfers (params : List ParamId) (D : Ty → Prop) (σ : Var → Ty) (a : Ty) : Prop :=
  ∀ ⦃n holes holes' b⦄, D b → Ty.Harmless .var σ a b →
    Abreast params D σ (fun p => n p + occurrences p [a]) holes holes' →
    (matchFrom params holes' a (b.assign σ)).1 ≠ .no →
    (matchFrom params holes a b).1 ≠ .no ∧
      Abreast params D σ n (matchFrom params holes a b).2
        (matchFrom params holes' a (b.assign σ)).2

/-- So it is for lists, if it is for their types. -/
theorem matchAllFrom_assign (h : ∀ a ∈ as, Transfers params D σ a) (hD : ∀ b ∈ bs, D b)
    (hharmless : ∀ a ∈ as, ∀ b ∈ bs, Ty.Harmless .var σ a b)
    (habreast : Abreast params D σ (fun p => n p + occurrences p as) holes holes')
    (hmatch : (matchAllFrom params holes' as (bs.map (Ty.assign σ))).1 ≠ .no) :
    (matchAllFrom params holes as bs).1 ≠ .no ∧
      Abreast params D σ n (matchAllFrom params holes as bs).2
        (matchAllFrom params holes' as (bs.map (Ty.assign σ))).2 := by
  induction as generalizing bs holes holes' with
  | nil => exact ⟨nofun, habreast.mono fun p => Nat.le_add_right ..⟩
  | cons a as ih =>
    cases bs with
    | nil => exact ⟨nofun, habreast.mono fun p => Nat.le_add_right ..⟩
    | cons b bs =>
      rw [List.map_cons] at hmatch ⊢
      obtain ⟨hfirst', hrest'⟩ := matchAllFrom_cons_ne_no.1 hmatch
      have habreast' : Abreast params D σ (fun p => (n p + occurrences p as) + occurrences p [a])
          holes holes' := by
        refine habreast.mono fun p => ?_
        rw [occurrences_cons p a as]
        omega
      rcases h a (.head _) (hD b (.head _))
        (hharmless a (.head _) b (.head _)) habreast' hfirst'
        with ⟨hfirst, hnext⟩
      rcases ih (fun c hc => h c (.tail _ hc))
        (fun c hc => hD c (.tail _ hc))
        (fun c hc d hd => hharmless c (.tail _ hc) d (.tail _ hd))
        hnext hrest' with ⟨hrest, hlast⟩
      refine ⟨matchAllFrom_cons_ne_no.2 ⟨hfirst, hrest⟩, ?_⟩
      rw [holes_matchAllFrom_cons hfirst, holes_matchAllFrom_cons hfirst']
      exact hlast

theorem lookup_matchFrom_param (h : q ≠ p) (holes : Holes) (b : Ty) :
    (matchFrom params holes (.param p) b).2.lookup q = holes.lookup q := by
  rcases fills_matchFrom (.param p) holes b q with hsame | ⟨-, hpos⟩
  · exact hsame
  · simp [occurrences, Ty.subterms, h.symm] at hpos

/-- It is so for a hole. -/
theorem transfers_param (hσ : Ty.KeepsKinds σ) (hp : p ∈ params) :
    Transfers params D σ (.param p) := by
  intro n holes holes' b hb _ habreast hmatch
  have hother : ∀ q ∈ params, q ≠ p →
      Paired D σ (n q) ((matchFrom params holes (.param p) b).2.lookup q)
        ((matchFrom params holes' (.param p) (b.assign σ)).2.lookup q) := by
    intro q hq hne
    rw [lookup_matchFrom_param hne, lookup_matchFrom_param hne]
    exact (habreast q hq).mono (Nat.le_add_right ..)
  have hp' : Paired D σ (n p + occurrences p [.param p]) (holes.lookup p) (holes'.lookup p) :=
    habreast p hp
  rw [occurrences_param] at hp'
  generalize ht : holes.lookup p = t, ht' : holes'.lookup p = t' at hp'
  cases hp' with
  | ended hn => cases hn
  | taken hharmless =>
    rw [matchFrom_of_taken hp ht'] at hmatch
    rw [matchFrom_of_taken hp ht, matchFrom_of_taken hp ht']
    refine ⟨?_, habreast.mono fun q => Nat.le_add_right ..⟩
    rcases compare_assign hσ hσ (hharmless b hb) with hopen | hstays
    · rw [hopen]
      nofun
    · rwa [← hstays]
  | once hn =>
    -- The other run may have filled the hole before. But this is its last occurrence.
    refine ⟨by rw [matchFrom_of_free hp ht]; nofun, fun q hq => ?_⟩
    by_cases hne : q = p
    · exact .ended (by rw [hne]; omega)
    · exact hother q hq hne
  | twice hn hD =>
    -- Both runs fill the hole here, so that its next occurrence is compared with the same type.
    refine ⟨by rw [matchFrom_of_free hp ht]; nofun, fun q hq => ?_⟩
    by_cases hne : q = p
    · rw [hne, matchFrom_of_free hp ht, matchFrom_of_free hp ht', List.lookup_cons_self,
        List.lookup_cons_self]
      exact .taken fun c hc => hD b c hb hc
    · exact hother q hq hne

/-- Matching the assigned goal is no easier than matching the goal. -/
theorem transfers (hσ : Ty.KeepsKinds σ) (hD : ∀ t c, D t → c ∈ t.parts → D c) (a : Ty) :
    Transfers params D σ a := by
  induction a using Ty.componentInduction with
  | node a ih =>
    by_cases hhole : ∃ p ∈ params, a = .param p
    · obtain ⟨p, hp, rfl⟩ := hhole
      exact transfers_param hσ hp
    · have hnode : ∀ p ∈ params, a ≠ .param p := by simpa using hhole
      intro n holes holes' b hb hharmless habreast hmatch
      have houtcome := Ty.outcome_assign keepsKinds_var hσ hharmless
      rw [Ty.assign_var_self] at houtcome
      rcases houtcome with hopen | hstays
      · -- The run on the goal stops here, the other one may fill holes.
        rw [matchFrom_eq hnode holes, hopen]
        refine ⟨nofun, fun p hp => ?_⟩
        exact (habreast p hp).leftOut (fills_matchFrom a holes' (b.assign σ) p)
      · rw [matchFrom_eq hnode, hstays] at hmatch
        rw [matchFrom_eq hnode, matchFrom_eq hnode, hstays]
        cases houtcome : a.outcome b with
        | some v =>
          rw [houtcome] at hmatch
          exact ⟨hmatch, habreast.mono fun p => Nat.le_add_right ..⟩
        | none =>
          rw [houtcome, Ty.parts_assign (Ty.isVar_of_outcome_eq_none houtcome).2] at hmatch
          rw [Ty.parts_assign (Ty.isVar_of_outcome_eq_none houtcome).2]
          refine matchAllFrom_assign (fun c hc => ih c (a.parts_sublist.subset hc))
            (fun c hc => hD b c hb hc) (fun c hc d hd => hharmless.part hc hd) ?_ hmatch
          exact habreast.mono fun p => Nat.add_le_add_left (occurrences_parts_le p a) _

end

end

/-! ## Whole headers -/

section

variable {σ : Var → Ty} {header goal : List Ty} {a : Ty}

/-- The assignment to the variables of a goal leaves numbers open where the header has types that
are not known, and existential types alone where the header has some. -/
structure Harmless (σ : Var → Ty) (header goal : List Ty) : Prop where
  numbers : header.any (·.any Ty.isIndefinite) = true → ∀ b ∈ goal, Ty.KeepsNumbers σ b
  existentials : header.any (·.any Ty.isExistential) = true →
    ∀ b ∈ goal, Ty.KeepsExistentials σ b

theorem Harmless.pattern (h : Harmless σ header goal) (ha : a ∈ header) (hb : b ∈ goal) :
    Ty.Harmless .var σ a b where
  numbersRight hindefinite := h.numbers (List.any_eq_true.2 ⟨a, ha, hindefinite⟩) b hb
  numbersLeft _ := fun _ _ _ => rfl
  existentials hexistential _ :=
    ⟨fun u _ _ => u.assign_var_self,
      h.existentials (List.any_eq_true.2 ⟨a, ha, hexistential⟩) b hb⟩

theorem Harmless.both (h : Harmless σ goal goal) (ha : a ∈ goal) (hb : b ∈ goal) :
    Ty.Harmless σ σ a b where
  numbersRight hindefinite := h.numbers (List.any_eq_true.2 ⟨a, ha, hindefinite⟩) b hb
  numbersLeft hindefinite := h.numbers (List.any_eq_true.2 ⟨b, hb, hindefinite⟩) a ha
  existentials hexistential _ := by
    have hkeeps := h.existentials (List.any_eq_true.2 ⟨a, ha, hexistential⟩)
    exact ⟨hkeeps a ha, hkeeps b hb⟩

/-- A header without holes keeps a verdict that is not open. -/
theorem compare_stays (hσ : Ty.KeepsKinds σ) (h : Harmless σ header goal) :
    (compare header goal).Stays (compare header (goal.map (Ty.assign σ))) := by
  have hstays := compare_map fun a ha b hb => compare_assign keepsKinds_var hσ (h.pattern ha hb)
  rwa [List.map_id'' Ty.assign_var_self] at hstays

/-- A header whose holes occur at most twice matches no goal under an assignment that it does not
match without. -/
theorem matchGoal_assign {params : List ParamId} (hσ : Ty.KeepsKinds σ) (h : Harmless σ header goal)
    (hparams : ∀ p ∈ params, occurrences p header ≤ 1 ∨
      occurrences p header ≤ 2 ∧ Harmless σ goal goal)
    (hmatch : matchGoal params header (goal.map (Ty.assign σ)) ≠ .no) :
    matchGoal params header goal ≠ .no := by
  -- Holes take types that occur in the goal.
  let D : Ty → Prop := fun t => ∃ b ∈ goal, t.subterms ⊆ b.subterms
  have hpart : ∀ t c, D t → c ∈ t.parts → D c := by
    rintro t c ⟨b, hb, ht⟩ hc
    exact ⟨b, hb, List.Subset.trans (Ty.subset_subterms hc) ht⟩
  have habreast : Abreast params D σ (fun p => 0 + occurrences p header) [] [] := by
    intro p hp
    rcases hparams p hp with honce | ⟨htwice, hboth⟩
    · exact .once (by simpa using honce)
    · refine .twice (by simpa using htwice) ?_
      rintro t c ⟨b, hb, ht⟩ ⟨d, hd, hc⟩
      exact (hboth.both hb hd).mono ht hc
  rw [matchGoal_eq] at hmatch ⊢
  exact (matchAllFrom_assign (fun a _ => transfers hσ hpart a)
    (fun b hb => ⟨b, hb, List.Subset.refl _⟩) (fun a ha b hb => h.pattern ha hb) habreast hmatch).1

end

end Header

end TypeInference
