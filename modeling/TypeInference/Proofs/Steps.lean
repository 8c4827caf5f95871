import TypeInference.Vars.Combine
import TypeInference.Proofs.Resolution
import TypeInference.Proofs.Rollback

/-!
# Steps of unification

Unification changes the variables by *steps*: it merges two open classes of one kind, or it gives a
value to an open class, which for general variables must not occur in that value. All that is known
of what unification does to the variables is derived from this.
-/

namespace TypeInference.Vars

open Relation

variable {vs vs' vs'' : Vars} {v w : Var} {t : Ty} {k : Kind} {i j n u u' x x' : Nat}
  {tys : Table Ty}

/-! ## What a step does -/

/-- The class of `loser` becomes part of that of `winner`; both are open. -/
structure Merges (vs : Vars) (winner loser : Var) (vs' : Vars) : Prop where
  open_winner : vs.Open winner
  open_loser : vs.Open loser
  root_eq : ∀ v, vs'.rootVar v = (vs.rootVar v).map fun r => if r = loser then winner else r
  value_eq : ∀ v, vs'.valueOf v = vs.valueOf v

/-- The open class of `v` gets the value `t`. -/
structure Binds (vs : Vars) (v : Var) (t : Ty) (vs' : Vars) : Prop where
  isOpen : vs.Open v
  root_eq : ∀ w, vs'.rootVar w = vs.rootVar w
  value_self : ∀ w, vs.rootVar w = .ok v → vs'.valueOf w = .ok (some t)
  value_other : ∀ w, vs.rootVar w ≠ .ok v → vs'.valueOf w = vs.valueOf w

section

variable {α : Type} {tbl tbl' : Table α} {x : α}

theorem merged_of_union (hf : tbl.Forest) (hi : tbl.root i = .ok i) (hj : tbl.root j = .ok j)
    (h : tbl.union i j = .ok tbl') : tbl.Merged i j tbl' := by
  obtain ⟨ri, rj, hri, hrj, hmerged⟩ := Table.union_eq_ok hf h
  rw [hi] at hri
  rw [hj] at hrj
  cases hri
  cases hrj
  exact hmerged

theorem bound_of_bind [BEq α] (hf : tbl.Forest) (hi : tbl.root i = .ok i)
    (h : tbl.bind i x = .ok tbl') : tbl.Bound i x tbl' := by
  obtain ⟨r, hr, hbound⟩ := Table.bind_eq_ok hf h
  rw [hi] at hr
  cases hr
  exact hbound

end

/-- An open variable is a root without a value. -/
theorem open_iff : vs.Open (k.var i) ↔
    (k.table vs).root i = .ok i ∧ (k.table vs).stored? i = none := by
  unfold Open
  rw [rootVar_iff, valueOf_eq]
  refine and_congr_right fun hroot => ?_
  rw [Table.value_eq hroot]
  simp [Except.map]

theorem Open.root_stored (h : vs.Open (.ty i)) : vs.tys.root i = .ok i ∧ vs.tys.stored? i = none :=
  (open_iff (k := .ty)).1 h

section

variable {tbl : Table k.Value}

theorem table_put : k.table (k.put vs tbl) = tbl := by cases k <;> rfl

/-- Putting a table does not concern the variables of other kinds. -/
theorem put_cases (vs : Vars) (tbl : Table k.Value) (v : Var) : (∃ i, v = k.var i) ∨
    (∀ i, vs.rootVar v ≠ .ok (k.var i)) ∧ (k.put vs tbl).rootVar v = vs.rootVar v ∧
      (k.put vs tbl).valueOf v = vs.valueOf v := by
  obtain ⟨l, i, rfl⟩ := exists_kind v
  cases k <;> cases l <;> first
    | exact .inl ⟨i, rfl⟩
    | refine .inr ⟨fun j h => ?_, rfl, rfl⟩
      obtain ⟨r, -, ⟨⟩⟩ := Except.bind_eq_ok h

/-- Merging two open variables of a kind merges their classes. -/
theorem Sound.merges (hs : vs.Sound) (hi : vs.Open (k.var i)) (hj : vs.Open (k.var j))
    (hunion : (k.table vs).union i j = .ok tbl) :
    vs.Merges (k.var i) (k.var j) (k.put vs tbl) := by
  have hmerged := merged_of_union (hs.forest k) (open_iff.1 hi).1 (open_iff.1 hj).1 hunion
  refine ⟨hi, hj, ?_, ?_⟩
  · intro v
    rcases put_cases vs tbl v with ⟨n, rfl⟩ | ⟨hkind, hroot, -⟩
    · rw [rootVar_eq, rootVar_eq, table_put, hmerged.root_eq]
      cases (k.table vs).root n with
      | error e => rfl
      | ok r => simp only [Except.map, k.var_injective.eq_iff, apply_ite k.var]
    · -- variables of other kinds have roots of other kinds
      rw [hroot]
      cases hv : vs.rootVar v with
      | error e => rfl
      | ok r =>
        have hne : r ≠ k.var j := fun heq => hkind j (by rw [hv, heq])
        simp only [Except.map, if_neg hne]
  · intro v
    rcases put_cases vs tbl v with ⟨n, rfl⟩ | ⟨-, -, hvalue⟩
    · rw [valueOf_eq, valueOf_eq, table_put,
        hmerged.value_eq (open_iff.1 hi).2 (open_iff.1 hj).2]
    · exact hvalue

/-- Binding an open variable gives its class a value. -/
theorem Sound.binds (hs : vs.Sound) {x : k.Value} (hi : vs.Open (k.var i))
    (hbind : (k.table vs).bind i x = .ok tbl) : vs.Binds (k.var i) (k.type x) (k.put vs tbl) := by
  have hbound := bound_of_bind (hs.forest k) (open_iff.1 hi).1 hbind
  refine ⟨hi, ?_, ?_, ?_⟩
  · intro v
    rcases put_cases vs tbl v with ⟨n, rfl⟩ | ⟨-, hroot, -⟩
    · rw [rootVar_eq, rootVar_eq, table_put, hbound.root_eq]
    · exact hroot
  · intro v hv
    rcases put_cases vs tbl v with ⟨n, rfl⟩ | ⟨hkind, -, -⟩
    · rw [valueOf_eq, table_put, hbound.value_self (open_iff.1 hi).2 (rootVar_iff.1 hv)]
      rfl
    · exact absurd hv (hkind i)
  · intro v hv
    rcases put_cases vs tbl v with ⟨n, rfl⟩ | ⟨-, -, hvalue⟩
    · rw [valueOf_eq, valueOf_eq, table_put,
        hbound.value_other fun hn => hv (rootVar_iff.2 hn)]
    · exact hvalue

end

/-! ## Steps -/

/-- One change that unification makes. -/
inductive Step (vs : Vars) : Vars → Prop
  | merge {k : Kind} {i j : Nat} {tbl : Table k.Value} : vs.Open (k.var i) → vs.Open (k.var j) →
    (k.table vs).union i j = .ok tbl → Step vs (k.put vs tbl)
  | bindTy {i : Nat} {t : Ty} {tys : Table Ty} : vs.Open (.ty i) → vs.occursIn i t = .ok false →
    vs.tys.bind i t = .ok tys → Step vs { vs with tys }
  | number {k : Kind} {i : Nat} {x : k.Value} {tbl : Table k.Value} : k ≠ .ty →
    vs.Open (k.var i) → (k.table vs).bind i x = .ok tbl → Step vs (k.put vs tbl)

/-- A step merges two classes or binds one. -/
theorem Step.effect (hs : vs.Sound) (h : Step vs vs') :
    (∃ v w, vs.Merges v w vs') ∨ ∃ v t, vs.Binds v t vs' := by
  cases h with
  | merge hi hj h => exact .inl ⟨_, _, hs.merges hi hj h⟩
  | bindTy hi _ h => exact .inr ⟨_, _, hs.binds (k := .ty) hi h⟩
  | number _ hi h => exact .inr ⟨_, _, hs.binds hi h⟩

/-! ## Steps keep variables sound -/

/-- Merging two open classes leaves the bound ones as they were; references to one of the two now
lead to the other, which refers to nothing. -/
theorem Sound.merged (hs : vs.Sound) (hi : vs.Open (.ty i)) (hj : vs.Open (.ty j))
    (h : vs.tys.Merged i j tys) : { vs with tys }.Sound := by
  have hnone : tys.stored? i = none := by
    rw [h.stored_winner, hi.root_stored.2, hj.root_stored.2]
    rfl
  -- A class that is bound now was bound before, for neither of the two merged ones is.
  have hold : ∀ u t, tys.root u = .ok u → tys.stored? u = some t →
      vs.tys.root u = .ok u ∧ vs.tys.stored? u = some t := by
    intro u t hu ht
    have hne : u ≠ i := by
      rintro rfl
      rw [hnone] at ht
      cases ht
    rw [h.stored_eq u hne] at ht
    refine ⟨?_, ht⟩
    rw [h.root_eq] at hu
    obtain ⟨r, hr, hu⟩ := Except.map_eq_ok hu
    split at hu
    · exact absurd hu.symm hne
    · rwa [hu] at hr
  refine ⟨h.forest, hs.ints, hs.floats, ?_, ?_⟩
  · intro u t v hu ht hv
    obtain ⟨hu, ht⟩ := hold u t hu ht
    show v < tys.size
    rw [h.size_eq]
    exact hs.inRange u t v hu ht hv
  · refine hs.acyclic.redirect ?_
    rintro u w ⟨t, v, hu, ht, hv, hw⟩
    obtain ⟨hu, ht⟩ := hold u t hu ht
    have hw : tys.root v = .ok w := hw
    rw [h.root_eq] at hw
    obtain ⟨r, hr, rfl⟩ := Except.map_eq_ok hw
    -- A reference that was redirected leads to `i`, which has no value.
    split
    · right
      rintro x ⟨t', -, -, ht', -⟩
      have ht' : tys.stored? i = some t' := ht'
      rw [hnone] at ht'
      cases ht'
    · exact .inl ⟨t, v, hu, ht, hv, hr⟩

/-- A class that does not occur in its value is on no cycle. -/
theorem Sound.bound (hs : vs.Sound) (hi : vs.Open (.ty i)) (hoccurs : vs.occursIn i t = .ok false)
    (h : vs.tys.Bound i t tys) : { vs with tys }.Sound := by
  have hself : tys.stored? i = some t := h.stored_of_unbound hi.root_stored.2
  refine ⟨h.forest, hs.ints, hs.floats, ?_, ?_⟩
  · intro u t' v hu ht' hv
    have hu : tys.root u = .ok u := hu
    have ht' : tys.stored? u = some t' := ht'
    show v < tys.size
    rw [h.size_eq]
    by_cases hui : u = i
    · subst hui
      rw [hself] at ht'
      cases ht'
      exact lt_size_of_occursIn hoccurs hv
    · rw [h.stored_eq u hui] at ht'
      rw [h.root_eq] at hu
      exact hs.inRange u t' v hu ht' hv
  · -- the new references all leave `i`, and the occurs check says that none leads back
    refine hs.acyclic.extend (v := i) ?_
    rintro u w ⟨t', v, hu, ht', hv, hw⟩
    have hu : tys.root u = .ok u := hu
    have ht' : tys.stored? u = some t' := ht'
    have hw : tys.root v = .ok w := hw
    rw [h.root_eq] at hu hw
    by_cases hui : u = i
    · subst hui
      rw [hself] at ht'
      cases ht'
      exact .inr ⟨rfl, fun hreach => hs.not_occurs hoccurs ⟨v, w, hv, hw, hreach⟩⟩
    · rw [h.stored_eq u hui] at ht'
      exact .inl ⟨t', v, hu, ht', hv, hw⟩

/-- Soundness asks no more of the tables of numbers than that they are forests. -/
theorem Sound.put (hs : vs.Sound) (hk : k ≠ .ty) {tbl : Table k.Value} (hf : tbl.Forest) :
    (k.put vs tbl).Sound := by
  cases k with
  | ty => exact absurd rfl hk
  | int => exact ⟨hs.tys, hf, hs.floats, hs.inRange, hs.acyclic⟩
  | float => exact ⟨hs.tys, hs.ints, hf, hs.inRange, hs.acyclic⟩

/-- Steps keep variables sound. -/
theorem Step.sound (hs : vs.Sound) (h : Step vs vs') : vs'.Sound := by
  cases h with
  | @merge k i j tbl hi hj h =>
    have hmerged := merged_of_union (hs.forest k) (open_iff.1 hi).1 (open_iff.1 hj).1 h
    by_cases hk : k = .ty
    · subst hk
      exact hs.merged hi hj hmerged
    · exact hs.put hk hmerged.forest
  | bindTy hi hoccurs h =>
    exact hs.bound hi hoccurs (bound_of_bind hs.tys hi.root_stored.1 h)
  | number hk _ h =>
    obtain ⟨_, -, hbound⟩ := Table.bind_eq_ok (hs.forest _) h
    exact hs.put hk hbound.forest

/-- Any number of steps. -/
abbrev Steps : Vars → Vars → Prop := ReflTransGen Step

theorem Steps.sound (hs : vs.Sound) (h : Steps vs vs') : vs'.Sound := by
  induction h with
  | refl => exact hs
  | tail _ hstep ih => exact hstep.sound ih

/-! ## Path compression keeps variables sound -/

/-- Path compression keeps variables sound. -/
theorem Sound.compressed (hs : vs.Sound) (h : ∀ k : Kind, (k.table vs).Compressed (k.table vs')) :
    vs'.Sound := by
  have htys : vs.tys.Compressed vs'.tys := h .ty
  refine ⟨htys.forest hs.tys, (h .int).forest hs.ints, (h .float).forest hs.floats, ?_, ?_⟩
  · intro u t v hu ht hv
    rw [htys.root_eq hs.tys] at hu
    rw [htys.stored_eq] at ht
    rw [htys.size_eq]
    exact hs.inRange u t v hu ht hv
  · refine hs.acyclic.redirect ?_
    rintro u w ⟨t, v, hu, ht, hv, hw⟩
    rw [htys.root_eq hs.tys] at hu hw
    rw [htys.stored_eq] at ht
    exact .inl ⟨t, v, hu, ht, hv, hw⟩

/-- Looks up the root of a variable, which compresses the way to it. -/
def find (vs : Vars) : Var → Except Fault Vars
  | .ty i => do return { vs with tys := (← vs.tys.find i).2 }
  | .int i => do return { vs with ints := (← vs.ints.find i).2 }
  | .float i => do return { vs with floats := (← vs.floats.find i).2 }

theorem find_eq_ok (h : vs.find v = .ok vs') : ∃ (k : Kind) (i r : Nat) (tbl : Table k.Value),
    (k.table vs).find i = .ok (r, tbl) ∧ vs' = k.put vs tbl := by
  obtain ⟨k, i, rfl⟩ := exists_kind v
  have hrun : (do return k.put vs (← (k.table vs).find i).2) = .ok vs' := by
    rw [← h]
    cases k <;> rfl
  obtain ⟨⟨r, tbl⟩, hfind, ⟨⟩⟩ := Except.bind_eq_ok hrun
  exact ⟨k, i, r, tbl, hfind, rfl⟩

theorem find_compressed (h : vs.find v = .ok vs') :
    ∀ k : Kind, (k.table vs).Compressed (k.table vs') := by
  obtain ⟨k, i, r, tbl, hfind, rfl⟩ := find_eq_ok h
  exact Kind.forall_table_put .refl (Table.find_eq_ok hfind).2

theorem Sound.find (hs : vs.Sound) (h : vs.find v = .ok vs') : vs'.Sound :=
  hs.compressed (find_compressed h)

/-! ## New variables keep variables sound -/

theorem sound_empty : (∅ : Vars).Sound where
  tys := Table.forest_empty
  ints := Table.forest_empty
  floats := Table.forest_empty
  inRange u _ _ hu _ _ := absurd (Table.lt_size_of_root hu) (Nat.not_lt_zero u)
  acyclic u hcycle := by
    obtain ⟨_, ⟨_, _, hu, _⟩, -⟩ := TransGen.head'_iff.1 hcycle
    exact absurd (Table.lt_size_of_root hu) (Nat.not_lt_zero u)

/-- So do new variables. -/
theorem Sound.freshTy (hs : vs.Sound) : vs.freshTy.2.Sound := by
  -- The new variable has no value, so every bound class is an old one.
  have hold : ∀ u t, vs.tys.fresh.root u = .ok u → vs.tys.fresh.stored? u = some t →
      vs.tys.root u = .ok u ∧ vs.tys.stored? u = some t := by
    intro u t hu ht
    rw [Table.stored?_fresh] at ht
    have hne : u ≠ vs.tys.size := by
      rintro rfl
      rw [Table.stored?, Table.cell?_eq_none_iff.2 (Nat.le_refl _)] at ht
      cases ht
    rw [Table.root_fresh hs.tys, if_neg hne] at hu
    exact ⟨hu, ht⟩
  refine ⟨Table.forest_fresh hs.tys, hs.ints, hs.floats, ?_, ?_⟩
  · intro u t v hu ht hv
    obtain ⟨hu, ht⟩ := hold u t hu ht
    exact Nat.lt_trans (hs.inRange u t v hu ht hv) (Table.size_lt_fresh vs.tys)
  · refine hs.acyclic.redirect ?_
    rintro u w ⟨t, v, hu, ht, hv, hw⟩
    obtain ⟨hu, ht⟩ := hold u t hu ht
    have hw : vs.tys.fresh.root v = .ok w := hw
    rw [Table.root_fresh hs.tys, if_neg (hs.inRange u t v hu ht hv).ne] at hw
    exact .inl ⟨t, v, hu, ht, hv, hw⟩

theorem Sound.fresh (hs : vs.Sound) (k : Kind) : (k.fresh vs).Sound := by
  by_cases hk : k = .ty
  · subst hk
    exact hs.freshTy
  · exact hs.put hk (Table.forest_fresh (hs.forest k))

/-! ## What steps leave as it is -/

/-- All that is known of variables in `vs` is known in `vs'`. -/
structure Grows (vs vs' : Vars) : Prop where
  value : ∀ v t, vs.valueOf v = .ok (some t) → vs'.valueOf v = .ok (some t)
  root : ∀ v w, vs.rootVar v = .ok w → ∃ r, vs'.rootVar v = .ok r ∧ vs'.rootVar w = .ok r

namespace Grows

theorem refl (vs : Vars) : Grows vs vs where
  value _ _ h := h
  root _ w h := ⟨w, h, rootVar_rootVar h⟩

/-- Variables of one class stay in one class. -/
theorem sameClass (h : Grows vs vs') {r : Var} (hv : vs.rootVar v = .ok r)
    (hw : vs.rootVar w = .ok r) : ∃ r', vs'.rootVar v = .ok r' ∧ vs'.rootVar w = .ok r' := by
  obtain ⟨r₁, hv₁, hr₁⟩ := h.root v r hv
  obtain ⟨r₂, hw₂, hr₂⟩ := h.root w r hw
  rw [hr₁] at hr₂
  cases hr₂
  exact ⟨r₁, hv₁, hw₂⟩

theorem trans (h : Grows vs vs') (h' : Grows vs' vs'') : Grows vs vs'' where
  value v t hv := h'.value v t (h.value v t hv)
  root v w hw := by
    obtain ⟨r, hv, hw⟩ := h.root v w hw
    exact h'.sameClass hv hw

end Grows

theorem Merges.grows (h : vs.Merges v w vs') : Grows vs vs' where
  value u t hu := (h.value_eq u).trans hu
  root u r hr := by
    rw [h.root_eq, h.root_eq, hr, rootVar_rootVar hr]
    exact ⟨_, rfl, rfl⟩

theorem Binds.grows {x : Ty} (h : vs.Binds v x vs') : Grows vs vs' where
  value u t hu := by
    rw [h.value_other u, hu]
    -- The class that gets a value had none, so it is not the class of `u`.
    intro hroot
    have hopen := h.isOpen.2
    rw [valueOf_rootVar hroot, hu] at hopen
    cases hopen
  root u r hr := ⟨r, (h.root_eq u).trans hr, (h.root_eq r).trans (rootVar_rootVar hr)⟩

/-- A class that has a value keeps it, and what is in one class stays in one class. -/
theorem Step.grows (hs : vs.Sound) (h : Step vs vs') : Grows vs vs' := by
  rcases h.effect hs with ⟨_, _, hmerges⟩ | ⟨_, _, hbinds⟩
  · exact hmerges.grows
  · exact hbinds.grows

theorem Step.keeps_root (hs : vs.Sound) (h : Step vs vs') (hv : vs.valueOf v = .ok (some t))
    (hw : vs.rootVar v = .ok w) : vs'.rootVar v = .ok w := by
  rcases h.effect hs with ⟨winner, loser, hmerges⟩ | ⟨_, _, hbinds⟩
  · rw [hmerges.root_eq, hw]
    have hne : w ≠ loser := by
      rintro rfl
      have hopen := hmerges.open_loser.2
      rw [valueOf_rootVar hw, hv] at hopen
      cases hopen
    simp only [Except.map, if_neg hne]
  · rw [hbinds.root_eq, hw]

theorem Step.size_eq (hs : vs.Sound) (h : Step vs vs') :
    ∀ k : Kind, (k.table vs').size = (k.table vs).size := by
  have hput {k : Kind} {tbl : Table k.Value} (h : tbl.size = (k.table vs).size) (l : Kind) :
      (l.table (k.put vs tbl)).size = (l.table vs).size :=
    Kind.forall_table_put (R := fun t t' => t'.size = t.size) (fun _ => rfl) h l
  cases h with
  | merge _ _ h =>
    obtain ⟨_, _, -, -, hmerged⟩ := Table.union_eq_ok (hs.forest _) h
    exact hput hmerged.size_eq
  | bindTy _ _ h =>
    obtain ⟨_, -, hbound⟩ := Table.bind_eq_ok hs.tys h
    exact hput (k := .ty) hbound.size_eq
  | number _ _ h =>
    obtain ⟨_, -, hbound⟩ := Table.bind_eq_ok (hs.forest _) h
    exact hput hbound.size_eq

namespace Steps

variable (hs : vs.Sound) (h : Steps vs vs')

include hs h

theorem grows : Grows vs vs' := by
  induction h with
  | refl => exact .refl vs
  | tail hsteps hstep ih => exact ih.trans (hstep.grows (sound hs hsteps))

/-- A class that has a value keeps its root. -/
theorem keeps_root (hv : vs.valueOf v = .ok (some t)) (hw : vs.rootVar v = .ok w) :
    vs'.rootVar v = .ok w := by
  induction h with
  | refl => exact hw
  | tail hsteps hstep ih =>
    exact hstep.keeps_root (sound hs hsteps) ((grows hs hsteps).value v t hv) ih

theorem size_eq (k : Kind) : (k.table vs').size = (k.table vs).size := by
  induction h with
  | refl => rfl
  | tail hsteps hstep ih => exact (hstep.size_eq (sound hs hsteps) k).trans ih

/-- Steps neither make nor drop variables. -/
theorem has_iff (v : Var) : vs'.Has v ↔ vs.Has v := by
  obtain ⟨k, i, rfl⟩ := exists_kind v
  rw [Vars.has_iff, Vars.has_iff, size_eq hs h]

theorem unbound_before (hv : vs'.valueOf v = .ok none) : vs.valueOf v = .ok none := by
  obtain ⟨r, hr⟩ := hs.exists_rootVar ((has_iff hs h v).1 (has_of_valueOf hv))
  obtain ⟨x, hx⟩ := exists_valueOf_of_rootVar hr
  cases x with
  | none => exact hx
  | some t =>
    rw [(grows hs h).value v t hx] at hv
    cases hv

theorem mentions (hm : vs.Mentions u x) (hx : vs'.tys.root x = .ok x') : vs'.Mentions u x' := by
  obtain ⟨t, i, hu, ht, hi, hix⟩ := hm
  have hvalue : vs.valueOf (.ty u) = .ok (some t) := by
    rw [valueOf, Table.value_eq hu, ht]
  have hu' := rootVar_ty.1 (keeps_root hs h hvalue (rootVar_ty.2 hu))
  have hvalue' := (grows hs h).value _ t hvalue
  rw [valueOf, Table.value_eq hu'] at hvalue'
  obtain ⟨r, hi', hr⟩ := (grows hs h).root _ _ (rootVar_ty.2 hix)
  rw [rootVar_ty.2 hx] at hr
  cases hr
  exact ⟨t, i, hu', Except.ok.inj hvalue', hi, rootVar_ty.1 hi'⟩

/-- References among classes stay. -/
theorem transGen_mentions (hm : TransGen vs.Mentions u x) (hx : vs'.tys.root x = .ok x') :
    TransGen vs'.Mentions u x' := by
  induction hm generalizing x' with
  | single hm => exact .single (mentions hs h hm hx)
  | @tail y x _ hm ih =>
    have hlast := mentions hs h hm hx
    -- The class on the way is bound, so its root stays.
    obtain ⟨t, i, hy, ht, -, -⟩ := hm
    have hvalue : vs.valueOf (.ty y) = .ok (some t) := by
      rw [valueOf, Table.value_eq hy, ht]
    have hy' := rootVar_ty.1 (keeps_root hs h hvalue (rootVar_ty.2 hy))
    exact (ih hy').tail hlast

theorem trail (hu : vs'.tys.root u = .ok u') (ht : Trail vs.Mentions vs.tys.size n u) :
    Trail vs'.Mentions vs'.tys.size n u' := by
  have hsize : vs'.tys.size = vs.tys.size := size_eq hs h .ty
  rw [hsize]
  exact ht.mono fun _ hway => transGen_mentions hs h hway hu

end Steps

/-! ## Changes to the variables can be taken back -/

/-- Variables `vs'` are `vs` after changes that can be undone. -/
def Later (vs vs' : Vars) : Prop := ∀ k : Kind, (k.table vs).Later (k.table vs')

theorem Later.refl (vs : Vars) : vs.Later vs := fun _ => .refl _

theorem Later.trans (h : vs.Later vs') (h' : vs'.Later vs'') : vs.Later vs'' :=
  fun k => (h k).trans (h' k)

theorem later_put {tbl : Table k.Value} (h : (k.table vs).Later tbl) : vs.Later (k.put vs tbl) :=
  Kind.forall_table_put .refl h

theorem later_find (h : vs.find v = .ok vs') : vs.Later vs' := by
  obtain ⟨k, i, r, tbl, hfind, rfl⟩ := find_eq_ok h
  exact later_put (Table.later_find hfind)

/-- Steps can be undone. -/
theorem Step.later (h : Step vs vs') : vs.Later vs' := by
  cases h with
  | merge _ _ h => exact later_put (Table.later_union h)
  | bindTy _ _ h => exact later_put (k := .ty) (Table.later_bind h)
  | number _ _ h => exact later_put (Table.later_bind h)

theorem Steps.later (h : Steps vs vs') : vs.Later vs' := by
  induction h with
  | refl => exact .refl vs
  | tail _ hstep ih => exact ih.trans hstep.later

end TypeInference.Vars
