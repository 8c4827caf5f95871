import TypeInference.Ty.Subst
import TypeInference.Proofs.Runs
import Mathlib.Tactic.Common

/-!
# Type trees, one level at a time

Types, bounds and associated types nest in each other, so every traversal is a family of mutually
recursive functions. The proofs about them see a type differently: as a node with a list of
*components*, which are types again, whatever lies in between. This module brings the traversals
into that form.
-/

namespace TypeInference

/-! ## Components -/

variable {c r t : Ty} {ts : List Ty} {α β : Type} {xs : List α} {a b : Bound} {P : Ty → Prop}

/-- The types that a bound is made of. -/
def Bound.components (b : Bound) : List Ty :=
  b.args ++ b.assoc.map (·.ty)

/-- The types that a type is immediately made of, also those inside its bounds. -/
def Ty.components : Ty → List Ty
  | .ref t _ _ | .ptr t _ | .array t _ | .slice t => [t]
  | .tuple ts | .adt _ ts => ts
  | .fn ts t => ts ++ [t]
  | .dyn b => b.components
  | .existential _ bs => bs.flatMap Bound.components
  | .projection t _ ts _ => t :: ts
  | _ => []

theorem Bound.sizeOf_lt_of_mem_components (hc : c ∈ b.components) : sizeOf c < sizeOf b := by
  cases b with
  | mk trait args assoc =>
    simp only [Bound.components, List.mem_append, List.mem_map] at hc
    rcases hc with hc | ⟨a, ha, rfl⟩
    · have := List.sizeOf_lt_of_mem hc
      simp only [Bound.mk.sizeOf_spec]
      omega
    · have := List.sizeOf_lt_of_mem ha
      cases a
      simp only [Assoc.mk.sizeOf_spec, Bound.mk.sizeOf_spec] at this ⊢
      omega

/-- Components are smaller than the type. -/
theorem Ty.sizeOf_lt_of_mem_components (hc : c ∈ t.components) : sizeOf c < sizeOf t := by
  cases t with
  | ref | ptr | array | slice =>
    rw [List.mem_singleton.1 hc]
    simp only [ref.sizeOf_spec, ptr.sizeOf_spec, array.sizeOf_spec, slice.sizeOf_spec]
    omega
  | tuple ts | adt _ ts =>
    have := List.sizeOf_lt_of_mem (show c ∈ ts from hc)
    simp only [tuple.sizeOf_spec, adt.sizeOf_spec]
    omega
  | fn ts t =>
    simp only [components, List.mem_append, List.mem_singleton] at hc
    simp only [fn.sizeOf_spec]
    rcases hc with hc | rfl
    · have := List.sizeOf_lt_of_mem hc
      omega
    · omega
  | dyn b =>
    have := Bound.sizeOf_lt_of_mem_components hc
    simp only [dyn.sizeOf_spec]
    omega
  | existential _ bs =>
    obtain ⟨b, hb, hc⟩ := List.mem_flatMap.1 hc
    have := List.sizeOf_lt_of_mem hb
    have := Bound.sizeOf_lt_of_mem_components hc
    simp only [existential.sizeOf_spec]
    omega
  | projection t _ ts _ =>
    simp only [projection.sizeOf_spec]
    rcases List.mem_cons.1 hc with rfl | hc
    · omega
    · have := List.sizeOf_lt_of_mem hc
      omega
  | _ => simp [components] at hc

/-- What holds of a type whenever it holds of its components holds of all types. -/
theorem Ty.componentInduction (node : ∀ t, (∀ c ∈ t.components, P c) → P t) (t : Ty) : P t :=
  node t fun c hc =>
    have := Ty.sizeOf_lt_of_mem_components hc
    Ty.componentInduction node c
termination_by sizeOf t

/-- Likewise, with variables apart from all other types. -/
theorem Ty.varInduction (var : ∀ v, P (.var v))
    (node : ∀ t, t.isVar = false → (∀ c ∈ t.components, P c) → P t) (t : Ty) : P t := by
  induction t using componentInduction with
  | node t ih =>
    cases t with
    | var v => exact var v
    | _ => exact node _ rfl ih

/-! ## One level of a traversal -/

section

variable {m : Type → Type} [Monad m]

def Assoc.mapTyM (f : Ty → m Ty) (a : Assoc) : m Assoc := do
  return ⟨a.name, ← f a.ty⟩

def Bound.mapComponentsM (f : Ty → m Ty) (b : Bound) : m Bound := do
  return ⟨b.trait, ← b.args.mapM f, ← b.assoc.mapM (Assoc.mapTyM f)⟩

/-- Passes the components of a type through `f`, in order. -/
def Ty.mapComponentsM (f : Ty → m Ty) : Ty → m Ty
  | .ref t mutability region => do return .ref (← f t) mutability region
  | .ptr t mutability => do return .ptr (← f t) mutability
  | .array t len => do return .array (← f t) len
  | .slice t => do return .slice (← f t)
  | .tuple ts => do return .tuple (← ts.mapM f)
  | .fn ts t => do return .fn (← ts.mapM f) (← f t)
  | .adt id ts => do return .adt id (← ts.mapM f)
  | .dyn b => do return .dyn (← b.mapComponentsM f)
  | .existential decl bs => do return .existential decl (← bs.mapM (Bound.mapComponentsM f))
  | .projection t trait ts name => do return .projection (← f t) trait (← ts.mapM f) name
  | t => pure t

variable [LawfulMonad m]

theorem Ty.mapListM_eq (f : Ty → m Ty) (ts : List Ty) :
    Ty.mapListM f ts = ts.mapM (Ty.mapM f) := by
  induction ts with
  | nil => simp [Ty.mapListM]
  | cons t ts ih => simp [Ty.mapListM, ih]

theorem Assoc.mapListM_eq (f : Ty → m Ty) (as : List Assoc) :
    Assoc.mapListM f as = as.mapM (Assoc.mapTyM (Ty.mapM f)) := by
  induction as with
  | nil => simp [Assoc.mapListM]
  | cons a as ih =>
    cases a
    simp [Assoc.mapListM, Assoc.mapM, Assoc.mapTyM, ih]

theorem Bound.mapM_eq (f : Ty → m Ty) (b : Bound) : b.mapM f = b.mapComponentsM (Ty.mapM f) := by
  cases b
  simp [Bound.mapM, Bound.mapComponentsM, Ty.mapListM_eq, Assoc.mapListM_eq]

theorem Bound.mapListM_eq (f : Ty → m Ty) (bs : List Bound) :
    Bound.mapListM f bs = bs.mapM (Bound.mapComponentsM (Ty.mapM f)) := by
  induction bs with
  | nil => simp [Bound.mapListM]
  | cons b bs ih => simp [Bound.mapListM, Bound.mapM_eq, ih]

/-- Rebuilding a type rebuilds its components, then the node. -/
theorem Ty.mapM_eq (f : Ty → m Ty) (t : Ty) :
    t.mapM f = t.mapComponentsM (Ty.mapM f) >>= f := by
  cases t <;>
    simp [Ty.mapM, Ty.mapComponentsM, Ty.mapListM_eq, Bound.mapM_eq, Bound.mapListM_eq]

end

def Assoc.mapTy (f : Ty → Ty) (a : Assoc) : Assoc := ⟨a.name, f a.ty⟩

def Bound.mapComponents (f : Ty → Ty) (b : Bound) : Bound :=
  ⟨b.trait, b.args.map f, b.assoc.map (Assoc.mapTy f)⟩

/-- The type with `f c` in place of each component `c`. -/
def Ty.mapComponents (f : Ty → Ty) : Ty → Ty
  | .ref t mutability region => .ref (f t) mutability region
  | .ptr t mutability => .ptr (f t) mutability
  | .array t len => .array (f t) len
  | .slice t => .slice (f t)
  | .tuple ts => .tuple (ts.map f)
  | .fn ts t => .fn (ts.map f) (f t)
  | .adt id ts => .adt id (ts.map f)
  | .dyn b => .dyn (b.mapComponents f)
  | .existential decl bs => .existential decl (bs.map (Bound.mapComponents f))
  | .projection t trait ts name => .projection (f t) trait (ts.map f) name
  | t => t

@[simp] theorem Bound.components_mapComponents (f : Ty → Ty) (b : Bound) :
    (b.mapComponents f).components = b.components.map f := by
  simp [Bound.components, Bound.mapComponents, Assoc.mapTy]

@[simp] theorem Ty.components_mapComponents (f : Ty → Ty) (t : Ty) :
    (t.mapComponents f).components = t.components.map f := by
  cases t <;>
    simp [Ty.components, Ty.mapComponents, List.flatMap_map, List.map_flatMap]

theorem Bound.mapComponents_mapComponents (f g : Ty → Ty) (b : Bound) :
    (b.mapComponents f).mapComponents g = b.mapComponents (g ∘ f) := by
  simp [Bound.mapComponents, Assoc.mapTy]

theorem Ty.mapComponents_mapComponents (f g : Ty → Ty) (t : Ty) :
    (t.mapComponents f).mapComponents g = t.mapComponents (g ∘ f) := by
  cases t <;> simp [mapComponents, Bound.mapComponents_mapComponents]

theorem Assoc.mapTy_id (a : Assoc) : a.mapTy id = a := by
  cases a
  rfl

theorem Bound.mapComponents_id (b : Bound) : b.mapComponents id = b := by
  have hassoc : Assoc.mapTy id = id := funext Assoc.mapTy_id
  cases b
  simp [Bound.mapComponents, hassoc]

theorem Ty.mapComponents_id (t : Ty) : t.mapComponents id = t := by
  have hbound : Bound.mapComponents id = id := funext Bound.mapComponents_id
  cases t <;> simp [mapComponents, hbound]

/-! ## Components as a list -/

/-- The bound with the given types for its components. -/
def Bound.rebuild (b : Bound) (ts : List Ty) : Bound :=
  ⟨b.trait, ts.take b.args.length,
    b.assoc.zipWith (fun a t => ⟨a.name, t⟩) (ts.drop b.args.length)⟩

def Bound.rebuildList : List Bound → List Ty → List Bound
  | [], _ => []
  | b :: bs, ts =>
    b.rebuild (ts.take b.components.length) :: rebuildList bs (ts.drop b.components.length)

/-- The type with the given types for its components. -/
def Ty.rebuild : Ty → List Ty → Ty
  | .ref _ mutability region, ts => .ref (ts.headD .unknown) mutability region
  | .ptr _ mutability, ts => .ptr (ts.headD .unknown) mutability
  | .array _ len, ts => .array (ts.headD .unknown) len
  | .slice _, ts => .slice (ts.headD .unknown)
  | .tuple _, ts => .tuple ts
  | .fn us _, ts => .fn (ts.take us.length) ((ts.drop us.length).headD .unknown)
  | .adt id _, ts => .adt id ts
  | .dyn b, ts => .dyn (b.rebuild ts)
  | .existential decl bs, ts => .existential decl (Bound.rebuildList bs ts)
  | .projection _ trait _ name, ts => .projection (ts.headD .unknown) trait ts.tail name
  | t, _ => t

theorem Bound.rebuild_map (g : Ty → Ty) (b : Bound) :
    b.rebuild (b.components.map g) = b.mapComponents g := by
  simp [rebuild, components, mapComponents, Assoc.mapTy, List.zipWith_map_right,
    List.zipWith_self, Function.comp_def]

theorem Bound.rebuildList_map (g : Ty → Ty) (bs : List Bound) :
    rebuildList bs ((bs.flatMap components).map g) = bs.map (mapComponents g) := by
  induction bs with
  | nil => rfl
  | cons b bs ih => simp [rebuildList, rebuild_map, ih]

theorem Ty.rebuild_map (g : Ty → Ty) (t : Ty) :
    t.rebuild (t.components.map g) = t.mapComponents g := by
  cases t <;>
    simp [rebuild, components, mapComponents, Bound.rebuild_map, Bound.rebuildList_map]

theorem Bound.components_rebuild (h : ts.length = b.components.length) :
    (b.rebuild ts).components = ts := by
  have hassoc (as : List Assoc) (us : List Ty) (h : us.length = as.length) :
      (as.zipWith (fun a t => (⟨a.name, t⟩ : Assoc)) us).map (·.ty) = us := by
    induction as generalizing us with
    | nil => exact (List.length_eq_zero_iff.1 h).symm
    | cons a as ih => cases us <;> simp_all
  rw [components, rebuild, hassoc _ _ (by simp [h, components]), List.take_append_drop]

theorem Bound.components_rebuildList {bs : List Bound}
    (h : ts.length = (bs.flatMap components).length) :
    (rebuildList bs ts).flatMap components = ts := by
  induction bs generalizing ts with
  | nil => exact (List.length_eq_zero_iff.1 h).symm
  | cons b bs ih =>
    rw [List.flatMap_cons, List.length_append] at h
    rw [rebuildList, List.flatMap_cons, components_rebuild (by simp [h]), ih (by simp [h]),
      List.take_append_drop]

/-- A node can be rebuilt with any components. -/
theorem Ty.components_rebuild (h : ts.length = t.components.length) :
    (t.rebuild ts).components = ts := by
  cases t with
  | ref | ptr | array | slice =>
    obtain ⟨t, rfl⟩ := List.length_eq_one_iff.1 h
    rfl
  | tuple | adt => rfl
  | fn us u =>
    have hlast : (ts.drop us.length).length = 1 := by simp [h, components]
    obtain ⟨t, ht⟩ := List.length_eq_one_iff.1 hlast
    rw [rebuild, components, ht, List.headD_cons, ← ht, List.take_append_drop]
  | dyn b => exact Bound.components_rebuild h
  | existential decl bs => exact Bound.components_rebuildList h
  | projection =>
    obtain ⟨t, ts, rfl⟩ := List.exists_cons_of_length_eq_add_one h
    rfl
  | _ => exact (List.length_eq_zero_iff.1 h).symm

theorem Bound.mapComponents_rebuild (f : Ty → Ty) (b : Bound) (ts : List Ty) :
    (b.rebuild ts).mapComponents f = b.rebuild (ts.map f) := by
  simp [rebuild, mapComponents, Assoc.mapTy, ← List.map_drop, List.zipWith_map_right,
    List.map_zipWith]

theorem Bound.map_rebuildList (f : Ty → Ty) (bs : List Bound) (ts : List Ty) :
    (rebuildList bs ts).map (mapComponents f) = rebuildList bs (ts.map f) := by
  induction bs generalizing ts with
  | nil => rfl
  | cons b bs ih => simp [rebuildList, mapComponents_rebuild, ih]

theorem Ty.mapComponents_rebuild (f : Ty → Ty) (h : ts.length = t.components.length) :
    (t.rebuild ts).mapComponents f = t.rebuild (ts.map f) := by
  have hhead {ts : List Ty} (h : 0 < ts.length) :
      f (ts.headD .unknown) = (ts.map f).headD .unknown := by
    obtain ⟨t, ts, rfl⟩ := List.exists_cons_of_length_pos h
    rfl
  cases t with
  | ref | ptr | array | slice | fn | projection =>
    simp_all [rebuild, mapComponents, components]
  | _ => simp [rebuild, mapComponents, Bound.mapComponents_rebuild, Bound.map_rebuildList]

section

variable {γ : Type} {m : Type → Type} [Monad m] [LawfulMonad m] {f : α → m β}

theorem mapM_bind_congr {k l : List β → m γ} (h : ∀ ys, ys.length = xs.length → k ys = l ys) :
    xs.mapM f >>= k = xs.mapM f >>= l := by
  induction xs generalizing k l with
  | nil => simp [h]
  | cons x xs ih =>
    simp only [List.mapM_cons, bind_assoc, pure_bind]
    exact bind_congr fun y => ih fun ys hys => h _ (congrArg (· + 1) hys)

theorem mapM_append_map {ys : List α} (k : List β → List β → γ) :
    (do return k (← xs.mapM f) (← ys.mapM f)) =
      (fun zs => k (zs.take xs.length) (zs.drop xs.length)) <$> (xs ++ ys).mapM f := by
  simp only [List.mapM_append, map_bind, map_pure]
  exact mapM_bind_congr fun zs hzs => by simp [← hzs]

theorem Bound.mapComponentsM_eq (f : Ty → m Ty) (b : Bound) :
    b.mapComponentsM f = b.rebuild <$> b.components.mapM f := by
  have hassoc (as : List Assoc) : as.mapM (Assoc.mapTyM f) =
      as.zipWith (fun a t => ⟨a.name, t⟩) <$> (as.map (·.ty)).mapM f := by
    induction as with
    | nil => simp
    | cons a as ih => simp [Assoc.mapTyM, ih]
  simp only [mapComponentsM, hassoc, bind_map_left]
  exact mapM_append_map fun args tys => Bound.mk b.trait args (b.assoc.zipWith _ tys)

theorem Bound.mapM_mapComponentsM_eq (f : Ty → m Ty) (bs : List Bound) :
    bs.mapM (mapComponentsM f) = rebuildList bs <$> (bs.flatMap components).mapM f := by
  induction bs with
  | nil => simp [rebuildList]
  | cons b bs ih =>
    simp only [List.mapM_cons, mapComponentsM_eq, ih, bind_map_left]
    exact mapM_append_map fun ts us => b.rebuild ts :: rebuildList bs us

/-- One level of a traversal goes through a list of types. -/
theorem Ty.mapComponentsM_eq (f : Ty → m Ty) (t : Ty) :
    t.mapComponentsM f = t.rebuild <$> t.components.mapM f := by
  cases t with
  | tuple | adt | dyn | existential =>
    simp [mapComponentsM, components, Bound.mapComponentsM_eq, Bound.mapM_mapComponentsM_eq]
    rfl
  | fn ts t =>
    refine Eq.trans ?_ (mapM_append_map fun us vs => Ty.fn us (vs.headD .unknown))
    simp [mapComponentsM]
  | _ => simp [mapComponentsM, components, rebuild]

end

/-- Rebuilds a type from its leaves upwards, every node by `f`. -/
def Ty.map (f : Ty → Ty) (t : Ty) : Ty :=
  Id.run (t.mapM fun t => pure (f t))

section

variable {m : Type → Type} [Monad m] [LawfulMonad m] {f : Ty → m Ty} {g : Ty → Ty}

theorem mapM_eq_pure_map {f : α → m β} {g : α → β} (h : ∀ x ∈ xs, f x = pure (g x)) :
    xs.mapM f = pure (xs.map g) := by
  induction xs with
  | nil => simp
  | cons x xs ih =>
    have hx := h x (.head _)
    have hxs := ih fun y hy => h y (.tail _ hy)
    simp [hx, hxs]

theorem Bound.mapComponentsM_eq_pure {b : Bound} (h : ∀ c ∈ b.components, f c = pure (g c)) :
    b.mapComponentsM f = pure (b.mapComponents g) := by
  rw [mapComponentsM_eq, mapM_eq_pure_map h, map_pure, rebuild_map]

theorem Ty.mapComponentsM_eq_pure {t : Ty} (h : ∀ c ∈ t.components, f c = pure (g c)) :
    t.mapComponentsM f = pure (t.mapComponents g) := by
  rw [mapComponentsM_eq, mapM_eq_pure_map h, map_pure, rebuild_map]

end

theorem Ty.mapComponents_congr {f g : Ty → Ty} (h : ∀ c ∈ t.components, f c = g c) :
    t.mapComponents f = t.mapComponents g := by
  have hf : t.mapComponentsM (m := Id) f = t.mapComponents f :=
    mapComponentsM_eq_pure fun _ _ => rfl
  have hg : t.mapComponentsM (m := Id) f = t.mapComponents g := mapComponentsM_eq_pure h
  rw [← hf, hg]

section

variable {ε : Type} {f : Ty → Except ε Ty}

theorem Ty.exists_ok_of_mapComponentsM_eq_ok {t : Ty} (h : t.mapComponentsM f = .ok r) :
    ∀ c ∈ t.components, ∃ d, f c = .ok d := by
  rw [mapComponentsM_eq, map_eq_pure_bind] at h
  obtain ⟨ds, hds, -⟩ := Except.bind_eq_ok h
  exact Except.exists_ok_of_mapM_eq_ok hds

end

/-! A property of computations that results and sequences have is one of whole traversals. -/

section

structure Sequential (m : Type → Type) [Monad m] (P : ∀ {α : Type}, m α → Prop) : Prop where
  pure : ∀ {α : Type} (a : α), P (pure a : m α)
  bind : ∀ {α β : Type} {x : m α} {k : α → m β}, P x → (∀ a, P (k a)) → P (x >>= k)

variable {m : Type → Type} [Monad m] [LawfulMonad m] {P : ∀ {α : Type}, m α → Prop}
  (hP : Sequential m P)

include hP

theorem mapM_closed {f : α → m β} (h : ∀ x ∈ xs, P (f x)) : P (xs.mapM f) := by
  induction xs with
  | nil =>
    rw [List.mapM_nil]
    exact hP.pure []
  | cons x xs ih =>
    rw [List.mapM_cons]
    have hxs := ih fun y hy => h y (.tail _ hy)
    exact hP.bind (h x (.head _)) fun _ => hP.bind hxs fun _ => hP.pure _

theorem Ty.mapComponentsM_closed {f : Ty → m Ty} {t : Ty} (h : ∀ c ∈ t.components, P (f c)) :
    P (t.mapComponentsM f) := by
  rw [mapComponentsM_eq, map_eq_pure_bind]
  exact hP.bind (mapM_closed hP h) fun _ => hP.pure _

end

theorem Ty.map_eq (f : Ty → Ty) (t : Ty) : t.map f = f (t.mapComponents (Ty.map f)) := by
  have hcomponents : t.mapComponentsM (Ty.mapM fun t => (pure (f t) : Id Ty)) =
      pure (t.mapComponents (Ty.map f)) :=
    Ty.mapComponentsM_eq_pure fun _ _ => rfl
  rw [Ty.map, Ty.mapM_eq, hcomponents]
  rfl

/-! ## Visiting -/

theorem Ty.listSubterms_eq (ts : List Ty) : Ty.listSubterms ts = ts.flatMap Ty.subterms := by
  induction ts with
  | nil => simp [Ty.listSubterms]
  | cons t ts ih => simp [Ty.listSubterms, ih]

theorem Assoc.listSubterms_eq (as : List Assoc) :
    Assoc.listSubterms as = (as.map (·.ty)).flatMap Ty.subterms := by
  induction as with
  | nil => simp [Assoc.listSubterms]
  | cons a as ih =>
    cases a
    simp [Assoc.listSubterms, Assoc.subterms, ih]

theorem Bound.subterms_eq (b : Bound) : b.subterms = b.components.flatMap Ty.subterms := by
  cases b
  simp [Bound.subterms, Bound.components, Ty.listSubterms_eq, Assoc.listSubterms_eq]

theorem Bound.listSubterms_eq (bs : List Bound) :
    Bound.listSubterms bs = (bs.flatMap Bound.components).flatMap Ty.subterms := by
  induction bs with
  | nil => simp [Bound.listSubterms]
  | cons b bs ih => simp [Bound.listSubterms, Bound.subterms_eq, ih]

/-- The subterms of a type are the type itself and those of its components. -/
theorem Ty.subterms_eq (t : Ty) : t.subterms = t :: t.components.flatMap Ty.subterms := by
  cases t <;>
    simp [Ty.subterms, Ty.components, Ty.listSubterms_eq, Bound.subterms_eq,
      Bound.listSubterms_eq]

namespace Ty

variable {σ τ : Var → Ty} {v : Var} {t u : Ty}

theorem mem_subterms_iff : u ∈ t.subterms ↔ u = t ∨ ∃ c ∈ t.components, u ∈ c.subterms := by
  rw [subterms_eq, List.mem_cons, List.mem_flatMap]

theorem mem_subterms_self (t : Ty) : t ∈ t.subterms := mem_subterms_iff.2 (.inl rfl)

theorem mem_subterms_of_component (hc : c ∈ t.components) (hu : u ∈ c.subterms) : u ∈ t.subterms :=
  mem_subterms_iff.2 (.inr ⟨c, hc, hu⟩)

@[simp] theorem vars_var (v : Var) : (Ty.var v).vars = [v] := rfl

theorem vars_eq_flatMap (ht : t.isVar = false) : t.vars = t.components.flatMap Ty.vars := by
  rw [vars, subterms_eq, List.filterMap_cons_none, List.filterMap_flatMap]
  · rfl
  · cases t with
    | var v => cases ht
    | _ => rfl

theorem mem_vars_iff (ht : t.isVar = false) : v ∈ t.vars ↔ ∃ c ∈ t.components, v ∈ c.vars := by
  rw [vars_eq_flatMap ht, List.mem_flatMap]

/-- `D` holds of the components of what it holds of. -/
abbrev Inherited (D : Ty → Prop) : Prop := ∀ {t u : Ty}, D t → u ∈ t.components → D u

/-- What components inherit, variables do. -/
theorem of_mem_vars {D : Ty → Prop} (hcomponent : Inherited D)
    (ht : D t) (hv : v ∈ t.vars) : D (.var v) := by
  induction t using varInduction with
  | var w =>
    rw [vars_var, List.mem_singleton] at hv
    rw [hv]
    exact ht
  | node t hnode ih =>
    obtain ⟨c, hc, hv⟩ := (mem_vars_iff hnode).1 hv
    exact ih c hc (hcomponent ht hc) hv

/-- The number of nodes of a type. -/
def size (t : Ty) : Nat := t.subterms.length

theorem size_eq (t : Ty) : t.size = (t.components.flatMap subterms).length + 1 := by
  rw [size, subterms_eq, List.length_cons]

/-! ## Assigning types to variables -/

/-- Puts `σ v` in place of each variable `v`. -/
def assignNode (σ : Var → Ty) : Ty → Ty
  | .var v => σ v
  | t => t

/-- The type with `σ v` in place of each variable `v`. -/
def assign (σ : Var → Ty) (t : Ty) : Ty :=
  t.map (assignNode σ)

@[simp] theorem assign_var (σ : Var → Ty) (v : Var) : (Ty.var v).assign σ = σ v := by
  rw [assign, map_eq]
  rfl

theorem isVar_mapComponents (f : Ty → Ty) (t : Ty) : (t.mapComponents f).isVar = t.isVar := by
  cases t <;> rfl

theorem assign_eq (ht : t.isVar = false) : t.assign σ = t.mapComponents (Ty.assign σ) := by
  rw [assign, map_eq]
  cases t with
  | var v => cases ht
  | _ => rfl

theorem isVar_assign (ht : t.isVar = false) : (t.assign σ).isVar = false := by
  rw [assign_eq ht, isVar_mapComponents, ht]

theorem components_assign (ht : t.isVar = false) :
    (t.assign σ).components = t.components.map (Ty.assign σ) := by
  rw [assign_eq ht, components_mapComponents]

theorem assign_mem_components (ht : t.isVar = false) (hc : c ∈ t.components) :
    c.assign σ ∈ (t.assign σ).components := by
  rw [components_assign ht]
  exact List.mem_map_of_mem hc

@[simp] theorem assign_never (σ : Var → Ty) : Ty.never.assign σ = .never := assign_eq rfl

theorem assign_congr (h : ∀ v ∈ t.vars, σ v = τ v) : t.assign σ = t.assign τ := by
  induction t using varInduction with
  | var v => simpa using h
  | node t ht ih =>
    rw [assign_eq ht, assign_eq ht]
    apply mapComponents_congr
    intro c hc
    exact ih c hc fun v hv => h v ((mem_vars_iff ht).2 ⟨c, hc, hv⟩)

/-- Two assignments, one after the other, are a single one. -/
theorem assign_assign (σ τ : Var → Ty) (t : Ty) :
    (t.assign σ).assign τ = t.assign fun v => (σ v).assign τ := by
  induction t using varInduction with
  | var v => simp
  | node t ht ih =>
    rw [assign_eq ht, assign_eq (by rw [isVar_mapComponents, ht]), mapComponents_mapComponents,
      assign_eq ht]
    exact mapComponents_congr ih

/-- The variables that are left are those of the assigned types. -/
theorem mem_vars_assign : v ∈ (t.assign σ).vars ↔ ∃ w ∈ t.vars, v ∈ (σ w).vars := by
  induction t using varInduction with
  | var w => simp
  | node t ht ih =>
    rw [mem_vars_iff (isVar_assign ht), components_assign ht]
    constructor
    · rintro ⟨_, hc, hv⟩
      obtain ⟨c, hc', rfl⟩ := List.mem_map.1 hc
      obtain ⟨w, hw, hv⟩ := (ih c hc').1 hv
      exact ⟨w, (mem_vars_iff ht).2 ⟨c, hc', hw⟩, hv⟩
    · rintro ⟨w, hw, hv⟩
      obtain ⟨c, hc, hw⟩ := (mem_vars_iff ht).1 hw
      exact ⟨_, List.mem_map_of_mem hc, (ih c hc).2 ⟨w, hw, hv⟩⟩

theorem assign_var_self (t : Ty) : t.assign .var = t := by
  induction t using varInduction with
  | var v => simp
  | node t ht ih =>
    rw [assign_eq ht]
    conv_rhs => rw [← mapComponents_id t]
    exact mapComponents_congr ih

theorem size_lt_of_mem_components (hc : c ∈ t.components) : c.size < t.size := by
  have hsublist : c.subterms.Sublist (t.components.flatMap subterms) :=
    List.sublist_flatten_of_mem (List.mem_map_of_mem hc)
  rw [size_eq t]
  exact Nat.lt_succ_of_le hsublist.length_le

/-- What is assigned to a variable of a type is no larger than what becomes of the type. -/
theorem size_le_of_mem_vars (σ : Var → Ty) (hv : v ∈ t.vars) : (σ v).size ≤ (t.assign σ).size := by
  induction t using varInduction with
  | var w =>
    rw [vars_var, List.mem_singleton] at hv
    have heq : σ v = (Ty.var w).assign σ := by rw [assign_var, hv]
    exact Nat.le_of_eq (congrArg size heq)
  | node t ht ih =>
    obtain ⟨c, hc, hv⟩ := (mem_vars_iff ht).1 hv
    exact Nat.le_trans (ih c hc hv)
      (Nat.le_of_lt (size_lt_of_mem_components (assign_mem_components ht hc)))

theorem size_lt_of_mem_vars (σ : Var → Ty) (ht : t.isVar = false) (hv : v ∈ t.vars) :
    (σ v).size < (t.assign σ).size := by
  obtain ⟨c, hc, hv⟩ := (mem_vars_iff ht).1 hv
  exact Nat.lt_of_le_of_lt (size_le_of_mem_vars σ hv)
    (size_lt_of_mem_components (assign_mem_components ht hc))

/-! ## Replacing variables where that can fail -/

/-- Puts what `g` gives in place of a variable. -/
def onVar {m : Type → Type} [Monad m] (g : Var → m Ty) : Ty → m Ty
  | .var v => g v
  | t => pure t

theorem mapM_var {m : Type → Type} [Monad m] (f : Ty → m Ty) (v : Var) :
    (Ty.var v).mapM f = f (.var v) := by
  simp [Ty.mapM]

section

variable {m : Type → Type} [Monad m] [LawfulMonad m] {g : Var → m Ty} {t : Ty}

theorem mapM_onVar_eq (g : Var → m Ty) (ht : t.isVar = false) :
    t.mapM (onVar g) = t.mapComponentsM (Ty.mapM (onVar g)) := by
  rw [mapM_eq]
  cases t with
  | var v => cases ht
  | _ => simp [mapComponentsM, onVar]

theorem mapM_onVar_closed {P : ∀ {α : Type}, m α → Prop} (hP : Sequential m P)
    (h : ∀ v ∈ t.vars, P (g v)) : P (t.mapM (onVar g)) := by
  induction t using varInduction with
  | var v =>
    rw [mapM_var]
    exact h v (List.mem_singleton_self v)
  | node t ht ih =>
    rw [mapM_onVar_eq g ht]
    apply mapComponentsM_closed hP
    intro c hc
    exact ih c hc fun v hv => h v ((mem_vars_iff ht).2 ⟨c, hc, hv⟩)

theorem mapM_onVar_eq_pure (h : ∀ v ∈ t.vars, g v = pure (σ v)) :
    t.mapM (onVar g) = pure (t.assign σ) := by
  induction t using varInduction with
  | var v =>
    rw [mapM_var, assign_var]
    exact h v (List.mem_singleton_self v)
  | node t ht ih =>
    rw [mapM_onVar_eq g ht, assign_eq ht]
    apply mapComponentsM_eq_pure
    intro c hc
    exact ih c hc fun v hv => h v ((mem_vars_iff ht).2 ⟨c, hc, hv⟩)

end

section

variable {ε : Type} {g : Var → Except ε Ty} {t : Ty}

/-- A traversal that succeeds has succeeded at every variable. -/
theorem exists_ok_of_mapM_onVar_eq_ok (h : t.mapM (onVar g) = .ok r) :
    ∀ v ∈ t.vars, ∃ u, g v = .ok u := by
  induction t using varInduction generalizing r with
  | var v =>
    rw [mapM_var] at h
    intro w hw
    rw [vars_var, List.mem_singleton] at hw
    exact ⟨r, hw ▸ h⟩
  | node t ht ih =>
    rw [mapM_onVar_eq g ht] at h
    intro v hv
    obtain ⟨c, hc, hv⟩ := (mem_vars_iff ht).1 hv
    obtain ⟨d, hd⟩ := exists_ok_of_mapComponentsM_eq_ok h c hc
    exact ih c hc hd v hv

/-- Replacing variables succeeds when it does for each of them, and is then an assignment. -/
theorem mapM_onVar_eq_ok_iff :
    t.mapM (onVar g) = .ok r ↔ ∃ σ, (∀ v ∈ t.vars, g v = .ok (σ v)) ∧ t.assign σ = r := by
  constructor
  · intro h
    let σ (v : Var) : Ty := (g v).toOption.getD (.var v)
    have hσ : ∀ v ∈ t.vars, g v = .ok (σ v) := by
      intro v hv
      obtain ⟨u, hu⟩ := exists_ok_of_mapM_onVar_eq_ok h v hv
      simp only [σ, hu, Except.toOption, Option.getD_some]
    rw [mapM_onVar_eq_pure hσ] at h
    exact ⟨σ, hσ, Except.ok.inj h⟩
  · rintro ⟨σ, hσ, rfl⟩
    exact mapM_onVar_eq_pure hσ

end

end Ty

/-! ## Region names -/

namespace Ty

def eraseNode : Ty → Ty
  | .ref t mutability _ => .ref t mutability .erased
  | t => t

/-- The type without the names of its regions. -/
def erase (t : Ty) : Ty :=
  t.map eraseNode

theorem erase_eq (t : Ty) : t.erase = eraseNode (t.mapComponents erase) :=
  map_eq eraseNode t

end Ty

/-- Comparing the type with any other is comparing them without region names. -/
def Ty.ComparesErased (a : Ty) : Prop := ∀ b, a.same b = true ↔ a.erase = b.erase

theorem Ty.ComparesErased.list {as : List Ty} (h : ∀ a ∈ as, a.ComparesErased) (bs : List Ty) :
    Ty.sameList as bs = true ↔ as.map Ty.erase = bs.map Ty.erase := by
  induction as generalizing bs with
  | nil => cases bs <;> simp [Ty.sameList]
  | cons a as ih =>
    have ha := h a (.head _)
    have has := ih fun c hc => h c (.tail _ hc)
    cases bs with
    | nil => simp [Ty.sameList]
    | cons b bs => simp [Ty.sameList, ha b, has bs]

theorem Ty.ComparesErased.assocList {as : List Assoc} (h : ∀ a ∈ as, a.ty.ComparesErased)
    (bs : List Assoc) : Assoc.sameList as bs = true ↔
      as.map (Assoc.mapTy Ty.erase) = bs.map (Assoc.mapTy Ty.erase) := by
  induction as generalizing bs with
  | nil => cases bs <;> simp [Assoc.sameList]
  | cons a as ih =>
    obtain ⟨name, ty⟩ := a
    have ha : ty.ComparesErased := h ⟨name, ty⟩ (.head _)
    have has := ih fun c hc => h c (.tail _ hc)
    cases bs with
    | nil => simp [Assoc.sameList]
    | cons b bs =>
      obtain ⟨name', ty'⟩ := b
      simp [Assoc.sameList, Assoc.same, Assoc.mapTy, ha ty', has bs]

theorem Ty.ComparesErased.bound (h : ∀ c ∈ a.components, c.ComparesErased) (b : Bound) :
    a.same b = true ↔ a.mapComponents Ty.erase = b.mapComponents Ty.erase := by
  obtain ⟨trait, args, assoc⟩ := a
  obtain ⟨trait', args', assoc'⟩ := b
  have hargs := list (fun c hc => h c (List.mem_append_left _ hc)) args'
  have hassoc := assocList (fun c hc => h c.ty (List.mem_append_right _ (List.mem_map_of_mem hc)))
    assoc'
  simp [Bound.same, Bound.mapComponents, hargs, hassoc, and_assoc]

theorem Ty.ComparesErased.boundList {as : List Bound}
    (h : ∀ a ∈ as, ∀ c ∈ a.components, c.ComparesErased) (bs : List Bound) :
    Bound.sameList as bs = true ↔
      as.map (Bound.mapComponents Ty.erase) = bs.map (Bound.mapComponents Ty.erase) := by
  induction as generalizing bs with
  | nil => cases bs <;> simp [Bound.sameList]
  | cons a as ih =>
    have ha := bound (h a (.head _))
    have has := ih fun c hc => h c (.tail _ hc)
    cases bs with
    | nil => simp [Bound.sameList]
    | cons b bs => simp [Bound.sameList, ha b, has bs]

/-- This holds of every type, level by level. -/
theorem Ty.comparesErased (a : Ty) : a.ComparesErased := by
  induction a using componentInduction with
  | node a ih =>
    intro b
    rw [Ty.erase_eq, Ty.erase_eq b]
    cases a with
    | ref t | ptr t | array t | slice t =>
      have ht := ih t (List.mem_singleton_self _)
      cases b <;> simp [Ty.same, Ty.mapComponents, Ty.eraseNode, ht _, and_comm]
    | tuple ts | adt _ ts =>
      have hts : ∀ us, Ty.sameList ts us = true ↔ _ := ComparesErased.list ih
      cases b <;> simp [Ty.same, Ty.mapComponents, Ty.eraseNode, hts]
    | fn ts t =>
      have hts := ComparesErased.list fun c hc => ih c (List.mem_append_left _ hc)
      have ht := ih t (List.mem_append_right _ (List.mem_singleton_self _))
      cases b <;> simp [Ty.same, Ty.mapComponents, Ty.eraseNode, hts, ht _]
    | dyn x =>
      have hx := ComparesErased.bound (a := x) ih
      cases b <;> simp [Ty.same, Ty.mapComponents, Ty.eraseNode, hx]
    | existential d xs =>
      have hxs := ComparesErased.boundList fun x hx c hc => ih c (List.mem_flatMap.2 ⟨x, hx, hc⟩)
      cases b <;> simp [Ty.same, Ty.mapComponents, Ty.eraseNode, hxs]
    | projection t _ ts _ =>
      have ht := ih t (.head _)
      have hts := ComparesErased.list fun c hc => ih c (.tail _ hc)
      cases b <;> simp [Ty.same, Ty.mapComponents, Ty.eraseNode, ht _, hts]
      tauto
    | _ => cases b <;> simp [Ty.same, Ty.mapComponents, Ty.eraseNode]

/-- Comparing types is comparing them without region names. -/
theorem Ty.same_iff (a b : Ty) : a.same b = true ↔ a.erase = b.erase :=
  a.comparesErased b

theorem Ty.sameList_iff (as bs : List Ty) :
    Ty.sameList as bs = true ↔ as.map Ty.erase = bs.map Ty.erase :=
  ComparesErased.list (fun a _ => a.comparesErased) bs

namespace Ty

variable {a b : Ty}

theorem same_refl (t : Ty) : t.same t = true :=
  (same_iff t t).2 rfl

theorem same_symm (h : a.same b = true) : b.same a = true :=
  (same_iff b a).2 ((same_iff a b).1 h).symm

theorem same_trans (hab : a.same b = true) (hbc : b.same c = true) : a.same c = true :=
  (same_iff a c).2 (((same_iff a b).1 hab).trans ((same_iff b c).1 hbc))

theorem size_erase (t : Ty) : t.erase.size = t.size := by
  induction t using componentInduction with
  | node t ih =>
    have hcomponents : t.erase.components = t.components.map erase := by
      rw [erase_eq, ← components_mapComponents]
      cases t <;> rfl
    rw [size_eq, size_eq t, hcomponents, List.flatMap_map, List.length_flatMap, List.length_flatMap]
    congr 2
    exact List.map_congr_left ih

theorem size_eq_of_same (h : a.same b = true) : a.size = b.size := by
  rw [← size_erase a, (same_iff a b).1 h, size_erase]

theorem erase_assign (σ : Var → Ty) (t : Ty) :
    (t.assign σ).erase = t.erase.assign fun v => (σ v).erase := by
  induction t using varInduction with
  | var v =>
    rw [erase_eq (.var v)]
    simp [mapComponents, eraseNode]
  | node t ht ih =>
    have hvar : t.erase.isVar = false := by
      rw [erase_eq]
      cases t with
      | var v => cases ht
      | _ => rfl
    have hcommute : ∀ (f : Ty → Ty) (u : Ty),
        (eraseNode u).mapComponents f = eraseNode (u.mapComponents f) := by
      intro f u
      cases u <;> rfl
    rw [erase_eq, assign_eq ht, mapComponents_mapComponents, assign_eq hvar, erase_eq t, hcommute,
      mapComponents_mapComponents]
    congr 1
    exact mapComponents_congr ih

theorem same_assign (σ : Var → Ty) (h : a.same b = true) :
    (a.assign σ).same (b.assign σ) = true := by
  rw [same_iff, erase_assign, erase_assign, (same_iff a b).1 h]

end Ty

end TypeInference
