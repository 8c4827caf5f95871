import TypeInference.Proofs.TypeTrees

/-!
# Substitutions

`Subst.apply` rebuilds a type and `Ty.any` visits one, each with a traversal of its own. Both go
through the same places, which `Ty.Nested` lists one by one. The parameters of a type after a
substitution are therefore those of the types that stand for its parameters (`Subst.mem_apply_iff`),
and two substitutions, one after the other, are a single one (`Subst.apply_apply`).
-/

namespace TypeInference

namespace Ty

/-! ## The places of a type -/

/-- `u` is `t` itself or stands at some place inside it. -/
inductive Nested (u : Ty) : Ty → Prop
  | self : Nested u u
  | pointee {t m r} : Nested u t → Nested u (.ref t m r)
  | rawPointee {t m} : Nested u t → Nested u (.ptr t m)
  | arrayElem {t len} : Nested u t → Nested u (.array t len)
  | sliceElem {t} : Nested u t → Nested u (.slice t)
  | tupleElem {t ts} : t ∈ ts → Nested u t → Nested u (.tuple ts)
  | fnParam {t ts ret} : t ∈ ts → Nested u t → Nested u (.fn ts ret)
  | fnRet {ts t} : Nested u t → Nested u (.fn ts t)
  | adtArg {id t ts} : t ∈ ts → Nested u t → Nested u (.adt id ts)
  | dynArg {b t} : t ∈ b.args → Nested u t → Nested u (.dyn b)
  | dynAssoc {b a} : a ∈ b.assoc → Nested u a.ty → Nested u (.dyn b)
  | existentialArg {decl bs b t} :
    b ∈ bs → t ∈ b.args → Nested u t → Nested u (.existential decl bs)
  | existentialAssoc {decl bs b a} :
    b ∈ bs → a ∈ b.assoc → Nested u a.ty → Nested u (.existential decl bs)
  | projectionSelf {t tr ts n} : Nested u t → Nested u (.projection t tr ts n)
  | projectionArg {self tr t ts n} : t ∈ ts → Nested u t → Nested u (.projection self tr ts n)

variable {t u c : Ty} {p : ParamId}

theorem mem_bound_components {b : Bound} :
    c ∈ b.components ↔ c ∈ b.args ∨ ∃ a ∈ b.assoc, a.ty = c := by
  rw [Bound.components, List.mem_append, List.mem_map]

theorem Nested.of_component (hc : c ∈ t.components) (h : Nested u c) : Nested u t := by
  cases t with
  | ref t =>
    obtain rfl := List.mem_singleton.1 hc
    exact .pointee h
  | ptr t =>
    obtain rfl := List.mem_singleton.1 hc
    exact .rawPointee h
  | array t =>
    obtain rfl := List.mem_singleton.1 hc
    exact .arrayElem h
  | slice t =>
    obtain rfl := List.mem_singleton.1 hc
    exact .sliceElem h
  | tuple ts => exact .tupleElem hc h
  | adt id ts => exact .adtArg hc h
  | fn ts ret =>
    rcases List.mem_append.1 hc with hc | hc
    · exact .fnParam hc h
    · obtain rfl := List.mem_singleton.1 hc
      exact .fnRet h
  | dyn b =>
    rcases mem_bound_components.1 hc with hc | ⟨a, ha, rfl⟩
    · exact .dynArg hc h
    · exact .dynAssoc ha h
  | existential decl bs =>
    obtain ⟨b, hb, hc⟩ := List.mem_flatMap.1 hc
    rcases mem_bound_components.1 hc with hc | ⟨a, ha, rfl⟩
    · exact .existentialArg hb hc h
    · exact .existentialAssoc hb ha h
  | projection self tr ts n =>
    rcases List.mem_cons.1 hc with rfl | hc
    · exact .projectionSelf h
    · exact .projectionArg hc h
  | _ => cases hc

/-- The places that are listed one by one are those that a traversal visits. -/
theorem nested_iff : Nested u t ↔ u ∈ t.subterms := by
  constructor
  · intro h
    induction h with
    | self => exact mem_subterms_self u
    | pointee _ ih | rawPointee _ ih | arrayElem _ ih | sliceElem _ ih =>
      exact mem_subterms_of_component (List.mem_singleton_self _) ih
    | tupleElem hc _ ih | adtArg hc _ ih => exact mem_subterms_of_component hc ih
    | fnParam hc _ ih => exact mem_subterms_of_component (List.mem_append_left _ hc) ih
    | fnRet _ ih =>
      exact mem_subterms_of_component (List.mem_append_right _ (List.mem_singleton_self _)) ih
    | dynArg hc _ ih => exact mem_subterms_of_component (mem_bound_components.2 (.inl hc)) ih
    | dynAssoc ha _ ih =>
      exact mem_subterms_of_component (mem_bound_components.2 (.inr ⟨_, ha, rfl⟩)) ih
    | existentialArg hb hc _ ih =>
      have hc := mem_bound_components.2 (.inl hc)
      exact mem_subterms_of_component (List.mem_flatMap.2 ⟨_, hb, hc⟩) ih
    | existentialAssoc hb ha _ ih =>
      have hc := mem_bound_components.2 (.inr ⟨_, ha, rfl⟩)
      exact mem_subterms_of_component (List.mem_flatMap.2 ⟨_, hb, hc⟩) ih
    | projectionSelf _ ih => exact mem_subterms_of_component (.head _) ih
    | projectionArg hc _ ih => exact mem_subterms_of_component (.tail _ hc) ih
  · intro h
    induction t using componentInduction with
    | node t ih =>
      rcases mem_subterms_iff.1 h with rfl | ⟨c, hc, h⟩
      · exact .self
      · exact (ih c hc h).of_component hc

theorem any_iff_nested {q : Ty → Bool} : t.any q = true ↔ ∃ u, Nested u t ∧ q u = true := by
  simp only [any, List.any_eq_true, nested_iff]

/-! ## Parameters -/

/-- Whether the type is the parameter `p`. -/
def isParam (p : ParamId) : Ty → Bool
  | .param q => q = p
  | _ => false

theorem isParam_iff : t.isParam p = true ↔ t = .param p := by
  cases t with
  | param q => simp [isParam]
  | _ => simp [isParam]

theorem any_isParam : t.any (isParam p) = true ↔ .param p ∈ t.subterms := by
  simp only [any, List.any_eq_true, isParam_iff, exists_eq_right]

theorem mem_subterms_param {q : ParamId} : .param p ∈ (Ty.param q).subterms ↔ p = q := by
  simp [subterms]

/-- Induction on a type, with parameters apart from all other types. -/
theorem paramInduction {P : Ty → Prop} (param : ∀ p, P (.param p))
    (node : ∀ t, (∀ p, t ≠ .param p) → (∀ c ∈ t.components, P c) → P t) (t : Ty) : P t := by
  induction t using componentInduction with
  | node t ih =>
    by_cases hparam : ∃ p, t = .param p
    · obtain ⟨p, rfl⟩ := hparam
      exact param p
    · exact node t (fun p hp => hparam ⟨p, hp⟩) ih

theorem mapComponents_ne_param (ht : ∀ p, t ≠ .param p) (f : Ty → Ty) (p : ParamId) :
    t.mapComponents f ≠ .param p := by
  cases t with
  | param q => exact absurd rfl (ht q)
  | _ =>
    intro h
    cases h

end Ty

namespace Subst

variable {s s' : Subst} {p q : ParamId} {t : Ty}

/-! ## Entries -/

theorem get?_insert : (s.insert q t).get? p = if p = q then some t else s.get? p := by
  rw [get?, insert, List.find?_append]
  split
  · next hpq =>
    have hrest : (s.entries.filter (·.1 ≠ q)).find? (·.1 = p) = none := by
      rw [List.find?_eq_none]
      intro e he
      simpa [hpq] using (List.mem_filter.1 he).2
    rw [hrest]
    simp [hpq]
  · next hpq =>
    have hlast : ([(q, t)] : List (ParamId × Ty)).find? (·.1 = p) = none := by
      simp [Ne.symm hpq]
    rw [hlast, Option.or_none, List.find?_filter, get?]
    congr 2
    funext e
    by_cases he : e.1 = p
    · simp [he, hpq]
    · simp [he]

theorem lookup_insert_of_ne (hpq : p ≠ q) : (s.insert q t).lookup p = s.lookup p := by
  rw [lookup, get?_insert, if_neg hpq, lookup]

theorem lookup_insert_self : (s.insert p t).lookup p = t := by
  rw [lookup, get?_insert, if_pos rfl, Option.getD_some]

theorem get?_insertAll (f : ParamId → Ty) (ps : List ParamId) (s : Subst) :
    ((ps.map fun p => (p, f p)).foldl (fun s (p, t) => s.insert p t) s).get? p =
      if p ∈ ps then some (f p) else s.get? p := by
  induction ps generalizing s with
  | nil => rfl
  | cons q ps ih =>
    rw [List.map_cons, List.foldl_cons, ih, get?_insert]
    by_cases hps : p ∈ ps
    · rw [if_pos hps, if_pos (List.mem_cons_of_mem q hps)]
    · rw [if_neg hps]
      by_cases hpq : p = q
      · rw [if_pos hpq, if_pos (hpq ▸ List.mem_cons_self), hpq]
      · rw [if_neg hpq, if_neg (by simp [hpq, hps])]

theorem isSome_get? : (s.get? p).isSome = true ↔ p ∈ s.entries.map (·.1) := by
  simp [get?, List.mem_map]

/-! ## Application -/

theorem apply_eq_map (s : Subst) (t : Ty) : s.apply t = t.map s.replace := rfl

theorem apply_param (s : Subst) (p : ParamId) : s.apply (.param p) = s.lookup p := rfl

theorem apply_of_kept (h : ∀ p, t = .param p → s.lookup p = .param p) :
    s.apply t = t.mapComponents s.apply := by
  rw [apply_eq_map, Ty.map_eq]
  cases t with
  | param p => exact h p rfl
  | _ => rfl

theorem apply_node (ht : ∀ p, t ≠ .param p) : s.apply t = t.mapComponents s.apply :=
  apply_of_kept fun p hp => absurd hp (ht p)

theorem applyBound_eq (s : Subst) (b : Bound) : s.applyBound b = b.mapComponents s.apply := by
  have hcomponents : b.mapComponentsM (Ty.mapM fun t => (pure (s.replace t) : Id Ty)) =
      pure (b.mapComponents s.apply) :=
    Bound.mapComponentsM_eq_pure fun _ _ => rfl
  rw [applyBound, Bound.mapM_eq, hcomponents]
  rfl

/-- A substitution that leaves all parameters alone does nothing. -/
theorem apply_eq_self (h : ∀ p, .param p ∈ t.subterms → s.lookup p = .param p) :
    s.apply t = t := by
  induction t using Ty.paramInduction with
  | param p => exact h p (Ty.mem_subterms_self _)
  | node t ht ih =>
    have hcomponents : ∀ c ∈ t.components, s.apply c = id c :=
      fun c hc => ih c hc fun p hp => h p (Ty.mem_subterms_of_component hc hp)
    rw [apply_node ht, Ty.mapComponents_congr hcomponents, Ty.mapComponents_id]

/-- The parameters after a substitution are those of what stands for the parameters. -/
theorem mem_apply_iff :
    .param p ∈ (s.apply t).subterms ↔
      ∃ q, .param q ∈ t.subterms ∧ .param p ∈ (s.lookup q).subterms := by
  induction t using Ty.paramInduction with
  | param q => simp only [apply_param, Ty.mem_subterms_param, exists_eq_left]
  | node t ht ih =>
    rw [apply_node ht, Ty.mem_subterms_iff, Ty.components_mapComponents]
    constructor
    · rintro (hroot | ⟨_, hmem, hp⟩)
      · exact absurd hroot.symm (Ty.mapComponents_ne_param ht s.apply p)
      · obtain ⟨c, hc, rfl⟩ := List.mem_map.1 hmem
        obtain ⟨q, hq, hp⟩ := (ih c hc).1 hp
        exact ⟨q, Ty.mem_subterms_of_component hc hq, hp⟩
    · rintro ⟨q, hq, hp⟩
      rcases Ty.mem_subterms_iff.1 hq with hroot | ⟨c, hc, hq⟩
      · exact absurd hroot.symm (ht q)
      · exact .inr ⟨_, List.mem_map_of_mem hc, (ih c hc).2 ⟨q, hq, hp⟩⟩

theorem mem_lookup_iff :
    .param p ∈ (s.lookup q).subterms ↔
      (s.get? q = none ∧ p = q) ∨ ∃ u, s.get? q = some u ∧ .param p ∈ u.subterms := by
  rw [lookup]
  cases s.get? q with
  | none => simp [Ty.mem_subterms_param]
  | some u => simp

theorem apply_apply {r : Subst} (h : ∀ p, r.lookup p = s'.apply (s.lookup p)) (t : Ty) :
    s'.apply (s.apply t) = r.apply t := by
  induction t using Ty.paramInduction with
  | param p => exact (h p).symm
  | node t ht ih =>
    rw [apply_node ht, apply_node (Ty.mapComponents_ne_param ht s.apply),
      Ty.mapComponents_mapComponents, apply_node ht]
    exact Ty.mapComponents_congr ih

/-! ## One substitution after another -/

/-- The substitution for the parameters of both, giving each what `s'` makes of its type. -/
def andThen (s s' : Subst) : Subst :=
  ofPairs (((s.entries ++ s'.entries).map (·.1)).map fun p => (p, s'.apply (s.lookup p)))

theorem get?_andThen :
    (s.andThen s').get? p =
      if (s.get? p).isSome ∨ (s'.get? p).isSome then some (s'.apply (s.lookup p)) else none := by
  rw [andThen, ofPairs, get?_insertAll, List.map_append]
  simp only [isSome_get?, List.mem_append]
  rfl

theorem lookup_andThen : (s.andThen s').lookup p = s'.apply (s.lookup p) := by
  rw [lookup, get?_andThen]
  split
  · rfl
  · next hnone =>
    rw [not_or, Option.not_isSome_iff_eq_none, Option.not_isSome_iff_eq_none] at hnone
    rw [lookup, hnone.1]
    change Ty.param p = s'.lookup p
    rw [lookup, hnone.2]
    rfl

/-- Visiting finds exactly what is nested in a type, substituting reaches exactly the parameters
that visiting finds, and it reaches them all at once. -/
theorem apply_simultaneous (s : Subst) (t : Ty) :
    (∀ q, t.any q = true ↔ ∃ u, Ty.Nested u t ∧ q u = true) ∧
    (∀ p, (s.apply t).any (Ty.isParam p) = true ↔
      (Ty.Nested (.param p) t ∧ s.get? p = none) ∨
      ∃ q u, Ty.Nested (.param q) t ∧ s.get? q = some u ∧ Ty.Nested (.param p) u) ∧
    ((∀ p, t.any (Ty.isParam p) = true → s.get? p = none) → s.apply t = t) ∧
    ∀ s' : Subst,
      (∀ p, (s.andThen s').get? p =
        if (s.get? p).isSome ∨ (s'.get? p).isSome then some (s'.apply (s.lookup p)) else none) ∧
      s'.apply (s.apply t) = (s.andThen s').apply t := by
  refine ⟨fun q => Ty.any_iff_nested, fun p => ?_, fun hnone => ?_, fun s' => ?_⟩
  · simp only [Ty.any_isParam, mem_apply_iff, mem_lookup_iff, Ty.nested_iff]
    constructor
    · rintro ⟨q, hq, ⟨hnone, rfl⟩ | ⟨u, hu, hp⟩⟩
      · exact .inl ⟨hq, hnone⟩
      · exact .inr ⟨q, u, hq, hu, hp⟩
    · rintro (⟨hp, hnone⟩ | ⟨q, u, hq, hu, hp⟩)
      · exact ⟨p, hp, .inl ⟨hnone, rfl⟩⟩
      · exact ⟨q, hq, .inr ⟨u, hu, hp⟩⟩
  · refine apply_eq_self fun p hp => ?_
    rw [lookup, hnone p (Ty.any_isParam.2 hp)]
    rfl
  · exact ⟨fun p => get?_andThen, apply_apply (fun p => lookup_andThen) t⟩

/-- Exchanging two parameters leaves a type alone that mentions a third one only. -/
theorem apply_simultaneous_exchange :
    (∀ p, (Ty.slice (.param ⟨2⟩)).any (Ty.isParam p) = true →
      (ofPairs [(⟨0⟩, .param ⟨1⟩), (⟨1⟩, .param ⟨0⟩)]).get? p = none) ∧
    (ofPairs [(⟨0⟩, .param ⟨1⟩), (⟨1⟩, .param ⟨0⟩)]).apply (.slice (.param ⟨2⟩)) =
      .slice (.param ⟨2⟩) := by
  have hnone : ∀ p, (Ty.slice (.param ⟨2⟩)).any (Ty.isParam p) = true →
      (ofPairs [(⟨0⟩, .param ⟨1⟩), (⟨1⟩, .param ⟨0⟩)]).get? p = none := by
    intro p hp
    obtain rfl : p = ⟨2⟩ := by simpa [Ty.any_isParam, Ty.subterms] using hp
    decide
  exact ⟨hnone, (apply_simultaneous _ _).2.2.1 hnone⟩

end Subst

end TypeInference
