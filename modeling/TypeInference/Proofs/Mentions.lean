import Mathlib.Order.Basic
import TypeInference.Session
import TypeInference.Proofs.Projections

/-!
# Variables in data

Inference variables occur in types, and with the types in most of what an inference works on.
`Mentions` says so for all kinds of data at once, and `Within` says that all variables of a piece of
data are among given ones.
-/

namespace TypeInference

variable {bs : List Bound} {trait : TraitId} {r : Region}

/-- Data in which variables can occur. -/
class Mentioning (α : Type) where
  /-- The variable occurs in the value. -/
  Mentions : Var → α → Prop

export Mentioning (Mentions)

/-- Data without any types. -/
class Plain (α : Type) : Prop

instance {α : Type} [Plain α] : Mentioning α := ⟨fun _ _ => False⟩

instance : Plain Unit := ⟨⟩
instance : Plain Bool := ⟨⟩
instance : Plain Nat := ⟨⟩
instance : Plain FnId := ⟨⟩
instance : Plain TraitId := ⟨⟩
instance : Plain ImplId := ⟨⟩
instance : Plain ParamId := ⟨⟩
instance : Plain ExprId := ⟨⟩
instance : Plain VariantRef := ⟨⟩
instance : Plain Value := ⟨⟩
instance : Plain FieldResolution := ⟨⟩

namespace IdMap

variable {α : Type} {m : IdMap α} {k : Nat} {a : α}

theorem mem_values_of_get? (h : m.get? k = some a) : a ∈ m.values := by
  have hlookup (entries : List (Nat × α)) (h : lookup k entries = some a) :
      a ∈ entries.map (·.2) := by
    induction entries with
    | nil => cases h
    | cons entry rest ih =>
      rw [lookup] at h
      split at h
      · cases h
        exact .head _
      · exact .tail _ (ih h)
  exact hlookup m.entries h

theorem forall_mem_insert {P : α → Prop} (hm : ∀ x ∈ m.values, P x) (ha : P a) :
    ∀ x ∈ (m.insert k a).values, P x := by
  have hput (entries : List (Nat × α)) (hentries : ∀ x ∈ entries.map (·.2), P x) :
      ∀ x ∈ (put k a entries).map (·.2), P x := by
    induction entries with
    | nil => exact List.forall_mem_singleton.2 ha
    | cons entry rest ih =>
      obtain ⟨hentry, hrest⟩ := List.forall_mem_cons.1 hentries
      rw [put]
      split
      · exact List.forall_mem_cons.2 ⟨ha, hentries⟩
      · split
        · exact List.forall_mem_cons.2 ⟨ha, hrest⟩
        · exact List.forall_mem_cons.2 ⟨hentry, ih hrest⟩
  exact hput m.entries hm

end IdMap

section

variable {α β γ ε : Type} [Mentioning α] [Mentioning β] {W W' : Var → Prop} {a a₁ a₂ : α} {b : β}
  {f : α → β} {ys xs : List α} {p : α × β} {x : Option α} {m : IdMap α}

/-- All variables of the value are in `W`. -/
def Within (W : Var → Prop) (a : α) : Prop := ∀ v, Mentions v a → W v

/-- No variable occurs in the value. -/
def Closed (a : α) : Prop := ∀ v, ¬ Mentions v a

theorem Within.mono (h : Within W a) (hW : W ≤ W') : Within W' a := fun v hv => hW v (h v hv)

theorem Closed.within (h : Closed a) : Within W a := fun v hv => absurd hv (h v)

theorem within_true : Within (fun _ => True) a := fun _ _ => trivial

theorem Within.closed (h : Within (fun _ => False) a) : Closed a := h

/-! ## Containers -/

instance : Mentioning (List α) := ⟨fun v xs => ∃ x ∈ xs, Mentions v x⟩

instance : Mentioning (Option α) := ⟨fun v x => ∃ a ∈ x, Mentions v a⟩

instance : Mentioning (α × β) := ⟨fun v p => Mentions v p.1 ∨ Mentions v p.2⟩

instance : Mentioning (Array α) := ⟨fun v xs => ∃ x ∈ xs, Mentions v x⟩

instance : Mentioning (IdMap α) := ⟨fun v m => Mentions v m.values⟩

@[simp] theorem within_plain {α : Type} [Plain α] {a : α} : Within W a := nofun

theorem within_list : Within W xs ↔ ∀ x ∈ xs, Within W x :=
  ⟨fun h x hx v hv => h v ⟨x, hx, hv⟩, fun h v ⟨x, hx, hv⟩ => h x hx v hv⟩

theorem within_array {xs : Array α} : Within W xs ↔ ∀ x ∈ xs, Within W x :=
  ⟨fun h x hx v hv => h v ⟨x, hx, hv⟩, fun h v ⟨x, hx, hv⟩ => h x hx v hv⟩

theorem within_option : Within W x ↔ ∀ a ∈ x, Within W a :=
  ⟨fun h x hx v hv => h v ⟨x, hx, hv⟩, fun h v ⟨x, hx, hv⟩ => h x hx v hv⟩

@[simp] theorem within_nil : Within W ([] : List α) := within_list.2 nofun

@[simp] theorem within_cons : Within W (a :: xs) ↔ Within W a ∧ Within W xs := by
  rw [within_list, within_list, List.forall_mem_cons]

theorem within_singleton : Within W [a] ↔ Within W a := by simp

@[simp] theorem within_append : Within W (xs ++ ys) ↔ Within W xs ∧ Within W ys := by
  rw [within_list, within_list, within_list, List.forall_mem_append]

@[simp] theorem within_none : Within W (none : Option α) := within_option.2 nofun

@[simp] theorem within_some : Within W (some a) ↔ Within W a := by
  refine ⟨fun h => within_option.1 h a rfl, fun h => within_option.2 ?_⟩
  rintro _ ⟨⟩
  exact h

@[simp] theorem within_pair : Within W (a, b) ↔ Within W a ∧ Within W b := by
  refine ⟨fun h => ⟨fun v hv => h v (.inl hv), fun v hv => h v (.inr hv)⟩, fun h v hv => ?_⟩
  rcases hv with hv | hv
  · exact h.1 v hv
  · exact h.2 v hv

theorem Within.of_some (h : Within W x) (heq : x = some a) : Within W a :=
  within_option.1 h a heq

theorem Within.fst (h : Within W p) : Within W p.1 := fun v hv => h v (.inl hv)

theorem Within.snd (h : Within W p) : Within W p.2 := fun v hv => h v (.inr hv)

theorem Within.mem (h : Within W xs) (ha : a ∈ xs) : Within W a :=
  within_list.1 h a ha

theorem Within.subset (h : Within W xs) (hys : ys ⊆ xs) : Within W ys :=
  within_list.2 fun _ hy => h.mem (hys hy)

theorem Within.getElem? (h : Within W xs) (i : Nat) : Within W xs[i]? :=
  within_option.2 fun _ ha => h.mem (List.mem_of_getElem? ha)

theorem Within.head? (h : Within W xs) : Within W xs.head? :=
  within_option.2 fun _ ha => h.mem (List.mem_of_head? ha)

theorem Within.flatten {xss : List (List α)} (h : Within W xss) : Within W xss.flatten := by
  refine within_list.2 fun x hx => ?_
  obtain ⟨xs, hxs, hx⟩ := List.mem_flatten.1 hx
  exact (h.mem hxs).mem hx

theorem Within.filterMap {xs : List (Option α)} (h : Within W xs) :
    Within W (xs.filterMap id) := by
  refine within_list.2 fun a ha => ?_
  obtain ⟨x, hx, rfl⟩ := List.mem_filterMap.1 ha
  exact within_some.1 (h.mem hx)

theorem Within.getD (h : Within W x) (ha : Within W a) : Within W (x.getD a) := by
  cases x with
  | none => exact ha
  | some b => exact within_some.1 h

theorem Within.map (h : Within W xs) (hf : ∀ a, Within W a → Within W (f a)) :
    Within W (xs.map f) := by
  refine within_list.2 fun y hy => ?_
  obtain ⟨x, hx, rfl⟩ := List.mem_map.1 hy
  exact hf x (h.mem hx)

theorem Within.optionMap (h : Within W x) (hf : ∀ a, Within W a → Within W (f a)) :
    Within W (x.map f) := by
  cases x with
  | none => exact within_none
  | some a => exact within_some.2 (hf a (within_some.1 h))

theorem Within.optionBind {f : α → Option β} (h : Within W x)
    (hf : ∀ a, Within W a → Within W (f a)) : Within W (x.bind f) := by
  cases x with
  | none => exact within_none
  | some a => exact hf a (within_some.1 h)

theorem within_of_mapM {f : γ → Except ε β} {xs : List γ} {ys : List β}
    (hf : ∀ x ∈ xs, ∀ y, f x = .ok y → Within W y) (hys : xs.mapM f = .ok ys) : Within W ys := by
  induction xs generalizing ys with
  | nil =>
    cases hys
    exact within_nil
  | cons x xs ih =>
    rw [List.mapM_cons] at hys
    obtain ⟨y, hy, hys⟩ := Except.bind_eq_ok hys
    obtain ⟨rest, hrest, hys⟩ := Except.bind_eq_ok hys
    cases hys
    have hfirst := hf x (.head _) y hy
    exact within_cons.2 ⟨hfirst, ih (fun x hx => hf x (.tail _ hx)) hrest⟩

theorem Within.get? (h : Within W m) (k : Nat) : Within W (m.get? k) :=
  within_option.2 fun a ha => within_list.1 h a (IdMap.mem_values_of_get? ha)

theorem Within.insert (h : Within W m) (k : Nat) (ha : Within W a) : Within W (m.insert k a) :=
  within_list.2 (IdMap.forall_mem_insert (within_list.1 h) ha)

end

/-! ## Types -/

instance : Mentioning Ty := ⟨fun v t => v ∈ t.vars⟩

instance : Mentioning Assoc := ⟨fun v a => Mentions v a.ty⟩

instance : Mentioning Bound := ⟨fun v b => Mentions v b.args ∨ Mentions v b.assoc⟩

instance : Mentioning TraitRef := ⟨fun v r => Mentions v r.self ∨ Mentions v r.args⟩

instance : Mentioning Projection := ⟨fun v p => Mentions v p.traitRef⟩

instance : Mentioning Signature := ⟨fun v s => Mentions v s.params ∨ Mentions v s.ret⟩

instance : Mentioning Subst := ⟨fun v s => Mentions v s.entries⟩

section

variable {W P Q : Var → Prop} {t c : Ty} {ts : List Ty} {b : Bound} {pairs : List (ParamId × Ty)}
  {p : Projection} {m : Mutability} {decl len : Option Nat}

theorem within_or : (∀ v, P v ∨ Q v → W v) ↔ (∀ v, P v → W v) ∧ ∀ v, Q v → W v := by
  simp only [or_imp, forall_and]

/-- The variables of a type are those of its components. -/
theorem Ty.within_iff (ht : t.isVar = false) : Within W t ↔ Within W t.components := by
  constructor
  · intro h
    refine within_list.2 fun c hc v hv => h v ?_
    exact (Ty.mem_vars_iff ht).2 ⟨c, hc, hv⟩
  · intro h v hv
    obtain ⟨c, hc, hv⟩ := (Ty.mem_vars_iff ht).1 hv
    exact h.mem hc v hv

theorem Within.component (h : Within W t) (hc : c ∈ t.components) : Within W c := by
  cases t with
  | var v => cases hc
  | _ => exact ((Ty.within_iff rfl).1 h).mem hc

@[simp] theorem within_bound : Within W b ↔ Within W b.args ∧ Within W b.assoc := within_or

theorem Bound.within_components : Within W b.components ↔ Within W b := by
  have hassoc : Within W (b.assoc.map (·.ty)) ↔ Within W b.assoc := by
    simp only [within_list, List.forall_mem_map]
    rfl
  rw [Bound.components, within_append, within_bound, hassoc]

@[simp] theorem within_traitRef {r : TraitRef} :
    Within W r ↔ Within W r.self ∧ Within W r.args := within_or

@[simp] theorem within_projection : Within W p ↔ Within W p.traitRef := Iff.rfl

@[simp] theorem within_signature {s : Signature} :
    Within W s ↔ Within W s.params ∧ Within W s.ret := within_or

@[simp] theorem Ty.within_var {v : Var} : Within W (Ty.var v) ↔ W v := by
  refine ⟨fun h => h v (by simp [Mentions]), fun h w hw => ?_⟩
  rwa [List.mem_singleton.1 hw]

namespace Ty

@[simp] theorem within_bool : Within W Ty.bool := (within_iff rfl).2 within_nil

@[simp] theorem within_char : Within W Ty.char := (within_iff rfl).2 within_nil

@[simp] theorem within_str : Within W Ty.str := (within_iff rfl).2 within_nil

@[simp] theorem within_int {kind : IntTy} : Within W (Ty.int kind) := (within_iff rfl).2 within_nil

@[simp] theorem within_float {kind : FloatTy} : Within W (Ty.float kind) :=
  (within_iff rfl).2 within_nil

@[simp] theorem within_param {id : ParamId} : Within W (Ty.param id) :=
  (within_iff rfl).2 within_nil

@[simp] theorem within_unknown : Within W Ty.unknown := (within_iff rfl).2 within_nil

@[simp] theorem within_never : Within W Ty.never := (within_iff rfl).2 within_nil

@[simp] theorem within_ref : Within W (Ty.ref t m r) ↔ Within W t :=
  (within_iff rfl).trans within_singleton

@[simp] theorem within_ptr : Within W (Ty.ptr t m) ↔ Within W t :=
  (within_iff rfl).trans within_singleton

@[simp] theorem within_array : Within W (Ty.array t len) ↔ Within W t :=
  (within_iff rfl).trans within_singleton

@[simp] theorem within_slice : Within W (Ty.slice t) ↔ Within W t :=
  (within_iff rfl).trans within_singleton

@[simp] theorem within_tuple : Within W (Ty.tuple ts) ↔ Within W ts := within_iff rfl

@[simp] theorem within_adt {id : AdtId} : Within W (Ty.adt id ts) ↔ Within W ts := within_iff rfl

@[simp] theorem within_fn : Within W (Ty.fn ts t) ↔ Within W ts ∧ Within W t := by
  rw [within_iff rfl, components, within_append, within_singleton]

@[simp] theorem within_dyn : Within W (Ty.dyn b) ↔ Within W b :=
  (within_iff rfl).trans Bound.within_components

@[simp] theorem within_existential : Within W (Ty.existential decl bs) ↔ Within W bs := by
  rw [within_iff rfl, components, within_list, within_list]
  constructor
  · intro h b hb
    refine Bound.within_components.1 (within_list.2 fun c hc => h c ?_)
    exact List.mem_flatMap.2 ⟨b, hb, hc⟩
  · intro h c hc
    obtain ⟨b, hb, hc⟩ := List.mem_flatMap.1 hc
    exact (Bound.within_components.2 (h b hb)).mem hc

@[simp] theorem within_proj {name : String} :
    Within W (Ty.projection t trait ts name) ↔ Within W t ∧ Within W ts := by
  rw [within_iff rfl, components, within_cons]

@[simp] theorem within_unit : Within W Ty.unit := within_tuple.2 within_nil

@[simp] theorem within_reference : Within W (Ty.reference t m) ↔ Within W t :=
  within_ref

@[simp] theorem within_staticStr : Within W Ty.staticStr := within_ref.2 within_str

/-- What maps nodes within given variables to such maps types to such. -/
theorem within_map {f : Ty → Ty} (hf : ∀ u, Within W u → Within W (f u)) (ht : Within W t) :
    Within W (t.map f) := by
  induction t using varInduction with
  | var v =>
    rw [map_eq]
    exact hf _ ht
  | node t hnode ih =>
    rw [map_eq]
    refine hf _ ((within_iff ((isVar_mapComponents _ _).trans hnode)).2 (within_list.2 ?_))
    intro c hc
    rw [components_mapComponents, List.mem_map] at hc
    obtain ⟨u, hu, rfl⟩ := hc
    exact ih u hu (ht.component hu)

end Ty

theorem Bound.within_rebuild (hts : Within W ts) : Within W (b.rebuild ts) := by
  refine within_bound.2 ⟨hts.subset (List.take_subset _ _), within_list.2 fun a ha => ?_⟩
  obtain ⟨i, hi, rfl⟩ := List.mem_iff_getElem.1 ha
  simp only [rebuild, List.getElem_zipWith]
  exact hts.mem (List.mem_of_mem_drop (List.getElem_mem _))

/-- A type is put together from other components. -/
theorem Ty.within_rebuild (ht : Within W t) (hts : Within W ts) : Within W (t.rebuild ts) := by
  have hfirst {ts : List Ty} (hts : Within W ts) : Within W (ts.headD .unknown) := by
    rw [List.headD_eq_head?_getD]
    exact hts.head?.getD within_unknown
  cases t with
  | ref | ptr | array | slice => simpa [rebuild] using hfirst hts
  | tuple | adt => simpa [rebuild] using hts
  | fn =>
    exact within_fn.2
      ⟨hts.subset (List.take_subset _ _), hfirst (hts.subset (List.drop_subset _ _))⟩
  | dyn => exact within_dyn.2 (Bound.within_rebuild hts)
  | existential _ bs =>
    rw [rebuild, within_existential]
    clear ht
    induction bs generalizing ts with
    | nil => exact within_nil
    | cons b bs ih =>
      have hrest := hts.subset (List.drop_subset b.components.length ts)
      exact within_cons.2 ⟨Bound.within_rebuild (hts.subset (List.take_subset _ _)), ih hrest⟩
  | projection => exact within_proj.2 ⟨hfirst hts, hts.subset fun _ => List.mem_of_mem_tail⟩
  | _ => exact ht

theorem Within.assocTy? (h : Within W b) (name : String) : Within W (b.assocTy? name) := by
  refine within_option.2 fun ty hty => ?_
  obtain ⟨a, ha, rfl⟩ := Option.map_eq_some_iff.1 hty
  exact (within_bound.1 h).2.mem (List.mem_of_find?_eq_some ha)

theorem Within.toTy (h : Within W p) : Within W p.toTy := by
  simpa [Projection.toTy] using h

theorem within_ofArity (n : Nat) : Within W (Signature.ofArity n) := by
  refine within_signature.2 ⟨within_list.2 fun t ht => ?_, Ty.within_unknown⟩
  rw [(List.mem_replicate.1 ht).2]
  exact Ty.within_unknown

/-! ## Substitutions -/

variable {σ τ : Subst}

theorem within_subst : Within W σ ↔ ∀ e ∈ σ.entries, Within W e.2 := by
  refine within_list.trans (forall₂_congr fun e _ => ?_)
  exact ⟨Within.snd, fun h => within_pair.2 ⟨within_plain, h⟩⟩

theorem within_emptySubst : Within W Subst.empty := within_subst.2 nofun

theorem Within.substGet? (h : Within W σ) (p : ParamId) : Within W (σ.get? p) := by
  refine within_option.2 fun ty hty => ?_
  obtain ⟨e, he, rfl⟩ := Option.map_eq_some_iff.1 hty
  exact within_subst.1 h e (List.mem_of_find?_eq_some he)

theorem Within.substInsert (h : Within W σ) (p : ParamId) (ht : Within W t) :
    Within W (σ.insert p t) := by
  refine within_subst.2 fun e he => ?_
  rcases List.mem_append.1 he with he | he
  · exact within_subst.1 h e (List.mem_filter.1 he).1
  · rw [List.mem_singleton.1 he]
    exact ht

theorem Within.insertAll (h : Within W σ) (hpairs : Within W pairs) :
    Within W (pairs.foldl (fun s p => s.insert p.1 p.2) σ) := by
  induction pairs generalizing σ with
  | nil => exact h
  | cons p pairs ih =>
    obtain ⟨hp, hpairs⟩ := within_cons.1 hpairs
    exact ih (h.substInsert p.1 hp.snd) hpairs

theorem Within.ofPairs (h : Within W pairs) : Within W (Subst.ofPairs pairs) :=
  within_emptySubst.insertAll h

theorem Within.union (hσ : Within W σ) (hτ : Within W τ) : Within W (σ.union τ) :=
  hσ.insertAll hτ

theorem Within.zip (h : Within W ts) (params : List ParamId) : Within W (params.zip ts) :=
  within_list.2 fun _ hp => within_pair.2 ⟨within_plain, h.mem (List.of_mem_zip hp).2⟩

/-- The variables of an instance are those of the type and the substitution. -/
theorem Within.apply (hσ : Within W σ) (ht : Within W t) : Within W (σ.apply t) := by
  rw [Subst.apply_eq_map]
  refine Ty.within_map (fun u hu => ?_) ht
  cases u with
  | param p => exact (hσ.substGet? p).getD Ty.within_param
  | _ => exact hu

theorem Within.applyList (hσ : Within W σ) (hts : Within W ts) : Within W (σ.applyList ts) :=
  hts.map fun _ => hσ.apply

theorem Within.applyBound (hσ : Within W σ) (hb : Within W b) : Within W (σ.applyBound b) := by
  rw [Subst.applyBound_eq, ← Bound.within_components, Bound.components_mapComponents]
  exact (Bound.within_components.2 hb).map fun _ => hσ.apply

end

/-! ## Declarations -/

instance : Mentioning WherePredicate := ⟨fun v p => Mentions v p.self ∨ Mentions v p.bound⟩

instance : Mentioning Generics := ⟨fun v g => Mentions v g.bounds⟩

instance : Mentioning Field := ⟨fun v f => Mentions v f.ty⟩

instance : Mentioning Shape where
  Mentions
    | v, .tuple tys => Mentions v tys
    | v, .record fields => Mentions v fields
    | _, .unit => False

instance : Mentioning Variant := ⟨fun v x => Mentions v x.shape⟩

instance : Mentioning AdtKind where
  Mentions
    | v, .struct shape => Mentions v shape
    | v, .enum variants => Mentions v variants

instance : Mentioning Adt := ⟨fun v a => Mentions v a.generics ∨ Mentions v a.kind⟩

instance : Mentioning SelfParam where
  Mentions
    | v, .explicit ty => Mentions v ty
    | _, _ => False

instance : Mentioning Function :=
  ⟨fun v f => Mentions v f.generics ∨ Mentions v f.selfParam ∨ Mentions v f.params ∨
    Mentions v f.ret⟩

instance : Mentioning Trait := ⟨fun v t => Mentions v t.generics⟩

instance : Mentioning Impl :=
  ⟨fun v i => Mentions v i.generics ∨ Mentions v i.traitRef ∨ Mentions v i.self ∨
    Mentions v i.assocTypes⟩

instance : Mentioning Const := ⟨fun v c => Mentions v c.ty⟩

instance : Mentioning Items :=
  ⟨fun v i => Mentions v i.adts ∨ Mentions v i.functions ∨ Mentions v i.traits ∨
    Mentions v i.impls ∨ Mentions v i.consts⟩

instance : Mentioning ParamEnv := ⟨fun v e => Mentions v e.bounds⟩

/-! ## Bodies -/

instance : Mentioning PathResolution := ⟨fun v r => Mentions v r.subst⟩

instance : Mentioning Names :=
  ⟨fun v n => Mentions v n.paths ∨ Mentions v n.exprVariants ∨ Mentions v n.patVariants⟩

instance : Mentioning Statement where
  Mentions
    | v, .letPat _ ty _ => Mentions v ty
    | _, .expr _ => False

instance : Mentioning ClosureParam := ⟨fun v p => Mentions v p.ty⟩

instance : Mentioning Expr where
  Mentions
    | v, .cast _ ty => Mentions v ty
    | v, .methodCall _ _ genericArgs _ => Mentions v genericArgs
    | v, .block _ _ stmts _ => Mentions v stmts
    | v, .closure params ret _ _ => Mentions v params ∨ Mentions v ret
    | _, _ => False

instance : Mentioning ExprNode := ⟨fun v n => Mentions v n.expr⟩

instance : Mentioning Body := ⟨fun v b => Mentions v b.exprs⟩

instance : Mentioning Owner := ⟨fun _ _ => False⟩

instance : Mentioning Program := ⟨fun v p => Mentions v p.items ∨ Mentions v p.bodies⟩

/-! ## What an inference works on -/

instance : Mentioning Predicate where
  Mentions
    | v, .trait goal => Mentions v goal
    | v, .projection p ty => Mentions v p ∨ Mentions v ty

instance : Mentioning Obligation := ⟨fun v o => Mentions v o.predicate⟩

instance {α : Type} [Mentioning α] : Mentioning (Normalized α) :=
  ⟨fun v r => Mentions v r.value ∨ Mentions v r.obligations⟩

instance : Mentioning CacheEntry where
  Mentions
    | v, .normalized result => Mentions v result
    | _, _ => False

instance {α : Type} [Mentioning α] : Mentioning (Selection α) where
  Mentions
    | v, .ok found => Mentions v found
    | _, _ => False

instance : Mentioning Source where
  Mentions
    | v, .param bound | v, .object bound => Mentions v bound
    | _, _ => False

instance : Mentioning Adjustment where
  Mentions
    | v, .deref target | v, .borrowRef target _ _ | v, .borrowPtr target _ => Mentions v target

instance : Mentioning MethodResolution := ⟨fun v r => Mentions v r.self⟩

instance : Mentioning Diagnostic where
  Mentions
    | v, .mismatch _ expected actual => Mentions v expected ∨ Mentions v actual
    | v, .cannotDeref _ ty => Mentions v ty

instance : Mentioning CandidateSource where
  Mentions
    | v, .bound bound | v, .object bound => Mentions v bound
    | _, _ => False

instance : Mentioning Candidate := ⟨fun v c => Mentions v c.self ∨ Mentions v c.source⟩

instance : Mentioning Infer.Progress where
  Mentions
    | v, .decided nested => Mentions v nested
    | _, _ => False

instance : Mentioning Infer.Round := ⟨fun v r => Mentions v r.stalled ∨ Mentions v r.nested⟩

instance : Mentioning Walk.SignatureClues := ⟨fun v c => Mentions v c.params ∨ Mentions v c.ret⟩

instance : Mentioning Outcome :=
  ⟨fun v o => Mentions v o.exprTypes ∨ Mentions v o.bindings ∨ Mentions v o.methods ∨
    Mentions v o.adjustments ∨ Mentions v o.diagnostics⟩

section

variable {W : Var → Prop} {goal : TraitRef} {b : Bound}
  {t self actual expected output ret ty yielded : Ty} {fn f : Function} {cache : ProjectionCache}
  {n : Names} {env : ParamEnv} {p key : Projection} {shape : Shape} {c : Candidate} {depth : Nat}
  {id : ImplId} {a : Adt} {i : Impl} {α : Type} {entity : Entity} {m : Mutability}

@[simp] theorem within_wherePredicate {p : WherePredicate} :
    Within W p ↔ Within W p.self ∧ Within W p.bound := within_or

@[simp] theorem within_generics {g : Generics} : Within W g ↔ Within W g.bounds := Iff.rfl

theorem within_paramTys (g : Generics) : Within W g.paramTys := by
  refine within_list.2 fun t ht => ?_
  obtain ⟨p, -, rfl⟩ := List.mem_map.1 ht
  exact Ty.within_param

@[simp] theorem within_tupleShape {tys : List Ty} : Within W (Shape.tuple tys) ↔ Within W tys := Iff.rfl

@[simp] theorem within_recordShape {fields : List Field} :
    Within W (Shape.record fields) ↔ Within W fields := Iff.rfl

theorem Within.field? (h : Within W shape) (name : String) : Within W (shape.field? name) := by
  cases shape with
  | record fields =>
    refine within_option.2 fun p hp => ?_
    obtain ⟨i, -, hp⟩ := Option.bind_eq_some_iff.1 hp
    obtain ⟨f, hf, rfl⟩ := Option.map_eq_some_iff.1 hp
    exact within_pair.2 ⟨within_plain, (within_recordShape.1 h).mem (List.mem_of_getElem? hf)⟩
  | _ => exact within_none

theorem Within.tupleField? (h : Within W shape) (i : Nat) : Within W (shape.tupleField? i) := by
  cases shape with
  | tuple tys => exact (within_tupleShape.1 h).getElem? i
  | _ => exact within_none

theorem within_adt : Within W a ↔ Within W a.generics ∧ Within W a.kind := within_or

theorem Within.shape? (h : Within W a) (variant : VariantRef) : Within W (a.shape? variant) := by
  have hkind := (within_adt.1 h).2
  obtain ⟨_, _, kind⟩ := a
  refine within_option.2 fun shape hshape v hv => ?_
  cases variant with
  | struct id =>
    cases kind with
    | struct =>
      cases hshape
      exact hkind v hv
    | enum => cases hshape
  | enumVariant id i =>
    cases kind with
    | struct => cases hshape
    | enum =>
      obtain ⟨x, hx, rfl⟩ := Option.map_eq_some_iff.1 hshape
      exact hkind v ⟨x, List.mem_of_getElem? hx, hv⟩

theorem Within.selfTy {p : SelfParam} (h : Within W p) (hself : Within W self) :
    Within W (p.ty self) := by
  cases p with
  | value => exact hself
  | ref mutability => exact Ty.within_reference.2 hself
  | explicit t =>
    have ht : Within W t := h
    exact (within_emptySubst.substInsert _ hself).apply ht

theorem within_function :
    Within W f ↔ Within W f.generics ∧ Within W f.selfParam ∧ Within W f.params ∧ Within W f.ret :=
  within_or.trans (and_congr_right' (within_or.trans (and_congr_right' within_or)))

theorem within_impl :
    Within W i ↔ Within W i.generics ∧ Within W i.traitRef ∧ Within W i.self ∧
      Within W i.assocTypes :=
  within_or.trans (and_congr_right' (within_or.trans (and_congr_right' within_or)))

theorem Within.implAssocTy? (h : Within W i) (name : String) : Within W (i.assocTy? name) := by
  refine within_option.2 fun ty hty => ?_
  obtain ⟨a, ha, rfl⟩ := Option.map_eq_some_iff.1 hty
  exact (within_impl.1 h).2.2.2.mem (List.mem_of_find?_eq_some ha)

theorem within_items {i : Items} :
    Within W i ↔ Within W i.adts ∧ Within W i.functions ∧ Within W i.traits ∧ Within W i.impls ∧
      Within W i.consts :=
  within_or.trans (and_congr_right' (within_or.trans (and_congr_right'
    (within_or.trans (and_congr_right' within_or)))))

theorem entry_eq_ok {xs : Array α} {i : Nat} {a : α} (h : entry entity xs i = .ok a) :
    xs[i]? = some a := by
  unfold entry at h
  split at h
  · next hget => rw [hget, Except.ok.inj h]
  · cases h

theorem Within.entry [Mentioning α] {xs : Array α} (h : Within W xs) {i : Nat} {a : α}
    (ha : TypeInference.entry entity xs i = .ok a) : Within W a :=
  within_array.1 h a (Array.mem_of_getElem? (entry_eq_ok ha))

theorem Within.boundsFor (h : Within W env) (self : Ty) : Within W (env.boundsFor self) := by
  refine within_list.2 fun b hb => ?_
  obtain ⟨p, hp, rfl⟩ := List.mem_map.1 hb
  have hp : Within W p := Within.mem h (List.mem_filter.1 hp).1
  exact (within_wherePredicate.1 hp).2

/-! ## The types of functions -/

theorem Within.futureTy (h : Within W output) (known : WellKnown) :
    Within W (futureTy known output) := by
  unfold TypeInference.futureTy
  split
  · refine Ty.within_existential.2 (within_singleton.2 (within_bound.2 ⟨within_nil, ?_⟩))
    exact within_singleton.2 h
  · exact Ty.within_unknown

theorem Within.generatorTy (hyielded : Within W yielded) (hret : Within W ret) (known : WellKnown) :
    Within W (generatorTy known yielded ret) := by
  unfold TypeInference.generatorTy
  split
  · refine Ty.within_existential.2 (within_singleton.2 (within_bound.2 ⟨within_nil, ?_⟩))
    exact within_cons.2 ⟨hyielded, within_singleton.2 hret⟩
  · exact Ty.within_unknown

theorem Within.outputTy (h : Within W fn) (known : WellKnown) : Within W (fn.outputTy known) := by
  have hret := (within_function.1 h).2.2.2
  unfold Function.outputTy
  split
  · exact hret.futureTy known
  · exact hret

theorem Within.selfTypes {p : Option SelfParam} (h : Within W p) (hself : Within W self) :
    Within W (p.map (·.ty self)).toList := by
  cases p with
  | none => exact within_nil
  | some p => exact within_singleton.2 ((within_some.1 h).selfTy hself)

theorem Within.valueTy (h : Within W fn) (known : WellKnown) : Within W (fn.valueTy known) := by
  obtain ⟨-, hself, hparams, -⟩ := within_function.1 h
  refine Ty.within_fn.2 ⟨within_append.2 ⟨?_, hparams⟩, h.outputTy known⟩
  exact hself.selfTypes Ty.within_param

theorem Within.bodyParams {self : Option Ty} (h : Within W fn) (hself : Within W self) :
    Within W (fn.bodyParams self) := by
  obtain ⟨-, hparam, hparams, -⟩ := within_function.1 h
  exact within_append.2 ⟨hparam.selfTypes (hself.getD Ty.within_param), hparams⟩

theorem Within.signature? (h : Within W b) (known : WellKnown) : Within W (b.signature? known) := by
  have hargs := (within_bound.1 h).1
  unfold Bound.signature?
  split
  · split
    · next params _ heq =>
      rw [heq] at hargs
      have hparams := Ty.within_tuple.1 (within_cons.1 hargs).1
      exact within_some.2 (within_signature.2
        ⟨hparams, (h.assocTy? _).getD Ty.within_unit⟩)
    · exact within_none
  · exact within_none

theorem Within.findSignature? (h : Within W bs) (known : WellKnown) :
    Within W (bs.findSome? (·.signature? known)) := by
  refine within_option.2 fun sig hsig => ?_
  obtain ⟨b, hb, hsig⟩ := List.exists_of_findSome?_eq_some hsig
  exact within_option.1 ((h.mem hb).signature? known) sig hsig

/-! ## Names and bodies -/

theorem within_names :
    Within W n ↔ Within W n.paths ∧ Within W n.exprVariants ∧ Within W n.patVariants :=
  within_or.trans (and_congr_right' within_or)

theorem Within.path (h : Within W n) (id : ExprId) : Within W (n.path id) :=
  ((within_names.1 h).1.get? _).getD within_nil

theorem Within.variant? (h : Within W n) (site : Site) : Within W (n.variant? site) := by
  cases site with
  | expr id => exact (within_names.1 h).2.1.get? _
  | pat id => exact (within_names.1 h).2.2.get? _

theorem Within.expr {body : Body} (h : Within W body) {id : ExprId} {e : Expr}
    (he : body.expr id = .ok e) : Within W e := by
  rcases hnode : body.exprNode id with fault | node
  · rw [Body.expr, hnode] at he
    cases he
  · rw [Body.expr, hnode] at he
    cases he
    have hexprs : Within W body.exprs := h
    have hnode : Within W node := hexprs.entry hnode
    exact hnode

/-! ## Obligations and the cache -/

@[simp] theorem within_trait : Within W (Predicate.trait goal) ↔ Within W goal := Iff.rfl

@[simp] theorem within_projectionPredicate :
    Within W (Predicate.projection p ty) ↔ Within W p ∧ Within W ty := within_or

@[simp] theorem within_obligation {o : Obligation} : Within W o ↔ Within W o.predicate := Iff.rfl

theorem within_ofTrait : Within W (Obligation.ofTrait depth goal) ↔ Within W goal := within_trait

theorem within_ofProjection :
    Within W (Obligation.ofProjection depth p ty) ↔ Within W p ∧ Within W ty :=
  within_projectionPredicate

@[simp] theorem within_normalized [Mentioning α] {r : Normalized α} :
    Within W r ↔ Within W r.value ∧ Within W r.obligations := within_or

@[simp] theorem within_normalizedEntry {result : Normalized Ty} :
    Within W (CacheEntry.normalized result) ↔ Within W result := Iff.rfl

@[simp] theorem within_inProgress : Within W CacheEntry.inProgress := nofun

@[simp] theorem within_ambiguousEntry : Within W CacheEntry.ambiguous := nofun

@[simp] theorem within_errorEntry : Within W CacheEntry.error := nofun

theorem Within.replace {entries : List (Projection × CacheEntry)} (h : Within W entries)
    (key : Projection) {entry : CacheEntry} (hentry : Within W entry) :
    Within W (ProjectionCache.replace key entry entries) := by
  induction entries with
  | nil => exact h
  | cons e entries ih =>
    obtain ⟨he, hrest⟩ := within_cons.1 h
    rw [ProjectionCache.replace]
    split
    · exact within_cons.2 ⟨within_pair.2 ⟨he.fst, hentry⟩, hrest⟩
    · exact within_cons.2 ⟨he, ih hrest⟩

theorem Within.cacheInsert (h : Within W cache.entries.current) {entry : CacheEntry}
    (hkey : Within W key) (hentry : Within W entry) :
    Within W (cache.insert key entry).entries.current := by
  unfold ProjectionCache.insert
  split
  · exact h.replace key hentry
  · exact within_cons.2 ⟨within_pair.2 ⟨hkey, hentry⟩, h⟩

theorem Within.cacheGet? (h : Within W cache.entries.current) (key : Projection) :
    Within W (cache.get? key) := by
  refine within_option.2 fun entry hentry => ?_
  obtain ⟨e, he, rfl⟩ := Option.map_eq_some_iff.1 hentry
  exact (h.mem (List.mem_of_find?_eq_some he)).snd

/-! ## Selections -/

@[simp] theorem within_ok [Mentioning α] {found : α} :
    Within W (Selection.ok found) ↔ Within W found := Iff.rfl

@[simp] theorem within_err [Mentioning α] : Within W (Selection.err : Selection α) :=
  nofun

@[simp] theorem within_ambiguous [Mentioning α] :
    Within W (Selection.ambiguous : Selection α) := nofun

@[simp] theorem within_implSource : Within W (Source.impl id) := nofun

@[simp] theorem within_builtin : Within W Source.builtin := nofun

@[simp] theorem within_paramSource : Within W (Source.param b) ↔ Within W b := Iff.rfl

@[simp] theorem within_objectSource : Within W (Source.object b) ↔ Within W b := Iff.rfl

theorem Within.inherent (h : Within W goal) (known : WellKnown) :
    Within W (Selection.inherent known goal) := by
  have hself := (within_traitRef.1 h).1
  unfold Selection.inherent
  split
  · next bound hdyn =>
    rw [hdyn] at hself
    split
    · exact within_some.2 (within_objectSource.2 (Ty.within_dyn.1 hself))
    · exact within_none
  · next decl bounds hexistential =>
    rw [hexistential] at hself
    refine within_option.2 fun source hsource => ?_
    obtain ⟨b, hb, rfl⟩ := Option.map_eq_some_iff.1 hsource
    exact within_objectSource.2
      ((Ty.within_existential.1 hself).mem (List.mem_of_find?_eq_some hb))
  · split
    · exact within_some.2 within_builtin
    · exact within_none
  · exact within_none

/-- What is selected is found in the goal or the environment. -/
theorem Within.select (henv : Within W env) (hgoal : Within W goal) (items : Items)
    (known : WellKnown) : Within W (select items known env goal) := by
  unfold TypeInference.select
  split
  · exact within_ambiguous
  dsimp only
  split
  · next bound _ hfind =>
    have hmem := List.mem_of_find?_eq_some hfind
    obtain ⟨p, hp, ⟨⟩⟩ := List.mem_map.1 hmem
    have hp : Within W p := Within.mem henv (List.mem_filter.1 hp).1
    exact within_ok.2 (within_paramSource.2 (within_wherePredicate.1 hp).2)
  · split
    · next source hsource =>
      have hsource' := hgoal.inherent known
      rw [hsource] at hsource'
      exact within_ok.2 (within_some.1 hsource')
    · split
      · split
        · exact within_ambiguous
        · exact within_err
      · exact within_ok.2 within_implSource
      · exact within_ambiguous

/-! ## Candidates, conversions and reports -/

@[simp] theorem within_candidate : Within W c ↔ Within W c.self ∧ Within W c.source := within_or

@[simp] theorem within_implCandidate : Within W (CandidateSource.impl id) := nofun

@[simp] theorem within_collapsed : Within W (CandidateSource.collapsed trait) :=
  nofun

@[simp] theorem within_boundCandidate : Within W (CandidateSource.bound b) ↔ Within W b := Iff.rfl

@[simp] theorem within_objectCandidate : Within W (CandidateSource.object b) ↔ Within W b := Iff.rfl

@[simp] theorem within_methodResolution {r : MethodResolution} : Within W r ↔ Within W r.self :=
  Iff.rfl

theorem Within.resolution (h : Within W c) : Within W c.resolution :=
  (within_candidate.1 h).1

@[simp] theorem within_deref : Within W (Adjustment.deref t) ↔ Within W t := Iff.rfl

@[simp] theorem within_borrowRef : Within W (Adjustment.borrowRef t r m) ↔ Within W t := Iff.rfl

@[simp] theorem within_borrowPtr : Within W (Adjustment.borrowPtr t m) ↔ Within W t := Iff.rfl

theorem within_borrowOf : Within W (Adjustment.borrowOf t m) ↔ Within W t :=
  within_borrowRef.trans Ty.within_reference

@[simp] theorem within_mismatch {site : Site} :
    Within W (Diagnostic.mismatch site expected actual) ↔
      Within W expected ∧ Within W actual := within_or

@[simp] theorem within_cannotDeref {expr : ExprId} :
    Within W (Diagnostic.cannotDeref expr t) ↔ Within W t := Iff.rfl

@[simp] theorem within_decided {nested : List Obligation} :
    Within W (Infer.Progress.decided nested) ↔ Within W nested := Iff.rfl

@[simp] theorem within_stalled : Within W Infer.Progress.stalled := nofun

@[simp] theorem within_failed : Within W Infer.Progress.failed := nofun

@[simp] theorem within_round {r : Infer.Round} :
    Within W r ↔ Within W r.stalled ∧ Within W r.nested := within_or

theorem within_outcome {o : Outcome} :
    Within W o ↔ Within W o.exprTypes ∧ Within W o.bindings ∧ Within W o.methods ∧
      Within W o.adjustments ∧ Within W o.diagnostics := by
  refine within_or.trans (and_congr_right' (within_or.trans (and_congr_right' ?_)))
  exact within_or.trans (and_congr_right' within_or)

@[simp] theorem within_signatureClues {c : Walk.SignatureClues} :
    Within W c ↔ Within W c.params ∧ Within W c.ret := within_or

end

end TypeInference
