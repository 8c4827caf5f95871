import TypeInference.Proofs.Defaults

/-!
# Information about variables only grows

Outside of a rollback an inference never takes back what it has found out about its variables. A
class that has a value keeps it, and variables of one class stay in one class. Every change that
evolves the state is of this kind.
-/

namespace TypeInference

/-! ## Tables -/

namespace Table

variable {α : Type} {t t' : Table α} {v r : Nat}

/-- Table `t'` has all the values of `t` and no class of `t` is divided in it. -/
structure Grows (t t' : Table α) : Prop where
  value : ∀ v x, t.value v = .ok (some x) → t'.value v = .ok (some x)
  root : ∀ v r, t.root v = .ok r → ∃ r', t'.root v = .ok r' ∧ t'.root r = .ok r'

theorem Grows.refl (t : Table α) : Grows t t where
  value _ _ h := h
  root _ r h := ⟨r, h, root_root h⟩

theorem root_fresh_of_root (hf : t.Forest) (h : t.root v = .ok r) : t.fresh.root v = .ok r := by
  have hne : v ≠ t.size := (lt_size_of_root h).ne
  rw [root_fresh hf, if_neg hne, h]

theorem grows_fresh (hf : t.Forest) : Grows t t.fresh where
  value v x h := by
    obtain ⟨r, hr, hstored⟩ := value_eq_ok_iff.1 h
    rw [value_eq (root_fresh_of_root hf hr), stored?_fresh, hstored]
  root v r h := ⟨r, root_fresh_of_root hf h, root_fresh_of_root hf (root_root h)⟩

theorem Compressed.grows (h : Compressed t t') (hf : t.Forest) : Grows t t' where
  value v _ hv := (h.value_eq hf v).trans hv
  root v r hr := ⟨r, (h.root_eq hf v).trans hr, (h.root_eq hf r).trans (root_root hr)⟩

end Table

/-! ## Variables -/

namespace Vars

variable {vs vs' : Vars}

/-- Information grows if it does so in each table. -/
theorem Grows.of_tables (h : ∀ k : Kind, (k.table vs).Grows (k.table vs')) : Grows vs vs' := by
  constructor
  · intro v t hv
    obtain ⟨k, i, rfl⟩ := exists_kind v
    rw [valueOf_eq] at hv ⊢
    obtain ⟨_ | x, hx, hv⟩ := Except.map_eq_ok hv
    · cases hv
    · rw [(h k).value i x hx, ← hv]
      rfl
  · intro v w hw
    obtain ⟨k, i, r, rfl, rfl, hr⟩ := rootVar_cases hw
    obtain ⟨r', hi, hr⟩ := (h k).root i r hr
    exact ⟨k.var r', rootVar_iff.2 hi, rootVar_iff.2 hr⟩

theorem Sound.grows_compressed (hs : vs.Sound)
    (h : ∀ k : Kind, (k.table vs).Compressed (k.table vs')) : Grows vs vs' :=
  .of_tables fun k => (h k).grows (hs.forest k)

end Vars

/-! ## States -/

namespace State

variable {s s' : State}

theorem grows_opened (hs : s.vars.Sound) : s.vars.Grows s.opened.vars :=
  hs.grows_compressed s.compressed_opened

theorem grows_commit (hs : s.vars.Sound) : s.vars.Grows s.commit.vars :=
  hs.grows_compressed s.compressed_commit

/-- Information grows as the state evolves. -/
theorem Evolves.grows (h : s.Evolves s') (hs : s.WellFormed) : s.vars.Grows s'.vars := by
  induction h with
  | refl s => exact .refl _
  | trans h _ ih ih' => exact (ih hs).trans (ih' (h.spec hs).1)
  | fresh k s =>
    exact .of_tables (Vars.Kind.forall_table_put .refl (Table.grows_fresh (hs.vars.forest k)))
  | steps hsteps => exact Vars.Steps.grows hs.vars hsteps
  | found hfound => exact hs.vars.grows_compressed (Vars.find_compressed hfound)
  | cached s => exact .refl _
  | recorded hvars _ =>
    rw [hvars]
    exact .refl _
  | @probed s s' hinner _ =>
    rw [(hinner.spec (wellFormed_opened hs)).2.rollback_eq]
    exact .refl _
  | @committed s s' hinner ih =>
    have hs' := (hinner.spec (wellFormed_opened hs)).1
    exact ((grows_opened hs.vars).trans (ih (wellFormed_opened hs))).trans (grows_commit hs'.vars)

end State

/-! ## Resolving again -/

namespace Vars

variable {vs vs' : Vars} {v r : Var} {t u h : Ty} {σ τ : Var → Ty}

theorem grounded_rootVar (hv : vs.rootVar v = .ok r) :
    vs.Grounded (.var v) ↔ vs.Grounded (.var r) := by
  obtain ⟨x, hvalue⟩ := exists_valueOf_of_rootVar hv
  have hvalue' := (valueOf_rootVar hv).trans hvalue
  cases x with
  | none => exact iff_of_true (grounded_of_unbound hvalue) (grounded_of_unbound hvalue')
  | some t => rw [grounded_of_valueOf hvalue, grounded_of_valueOf hvalue']

theorem grounded_assign : vs.Grounded (t.assign τ) ↔ ∀ v ∈ t.vars, vs.Grounded (τ v) := by
  rw [grounded_iff]
  constructor
  · intro h v hv
    exact grounded_iff.2 fun w hw => h w (Ty.mem_vars_assign.2 ⟨v, hv, hw⟩)
  · intro h w hw
    obtain ⟨v, hv, hw⟩ := Ty.mem_vars_assign.1 hw
    exact grounded_iff.1 (h v hv) w hw

/-- A type stays grounded together with its head. -/
theorem Heads.grounded_of_grows (hg : Grows vs vs') (hh : vs.Heads t h) :
    vs'.Grounded t ↔ vs'.Grounded h := by
  induction hh with
  | node _ => exact Iff.rfl
  | @bound v t h hvalue _ ih => exact (grounded_of_valueOf (hg.value v t hvalue)).trans ih
  | @unbound v r _ hroot =>
    obtain ⟨r', hv, hr⟩ := hg.root v r hroot
    exact (grounded_rootVar hv).trans (grounded_rootVar hr).symm

theorem Grows.grounded_resolveVar (hg : Grows vs vs') {n : Nat}
    (hr : vs.resolveVar .var n v = .ok u) : vs'.Grounded (.var v) ↔ vs'.Grounded u := by
  induction n generalizing v u with
  | zero => cases hr
  | succ n ih =>
    rcases resolveVar_eq_ok hr with ⟨w, hheads, rfl⟩ | ⟨h, τ, hheads, -, hτ, rfl⟩
    · exact hheads.grounded_of_grows hg
    · rw [hheads.grounded_of_grows hg, grounded_assign, grounded_iff]
      exact forall₂_congr fun w hw => ih (hτ w hw)

/-- A type is grounded later on if what it resolved to is. -/
theorem Grows.grounded_resolve (hg : Grows vs vs') (hr : vs.resolve t = .ok u) :
    vs'.Grounded t ↔ vs'.Grounded u := by
  rw [resolve, resolveNode_eq] at hr
  obtain ⟨τ, hτ, rfl⟩ := Ty.mapM_onVar_eq_ok_iff.1 hr
  rw [grounded_assign, grounded_iff]
  exact forall₂_congr fun w hw => hg.grounded_resolveVar (hτ w hw)

/-- A type resolves as what it resolved to before: to the same type, or both meet a variable that
does not exist. -/
theorem Grows.resolve_eq (hg : Grows vs vs') (hs' : vs'.Sound) (hr : vs.resolve t = .ok u)
    (openVar : Var → Ty) :
    (t.mapM (vs'.resolveNode openVar)).toOption = (u.mapM (vs'.resolveNode openVar)).toOption := by
  have hiff := hg.grounded_resolve hr
  rcases hs'.resolve_settles openVar t with ⟨a, ha⟩ | ⟨ht, i, ha⟩
  · obtain ⟨b, hb⟩ := (hs'.resolve_settles openVar u).exists_ok (hiff.1 (grounded_of_resolve ha))
    -- Both are what the solution makes of the type that was resolved first.
    have hassign : t.assign (vs'.extend openVar) = u.assign (vs'.extend openVar) := by
      have hσ := hg.satisfies_before (hs'.satisfies_extend openVar)
      exact hσ.resolve (fun v _ => (Ty.assign_var ..).symm) hr
    rw [ha, hb, hs'.resolve_eq ha, hs'.resolve_eq hb, hassign]
  · rcases hs'.resolve_settles openVar u with ⟨b, hb⟩ | ⟨-, j, hb⟩
    · exact absurd (hiff.2 (grounded_of_resolve hb)) ht
    · rw [ha, hb]
      rfl

end Vars

end TypeInference
