import TypeInference.Proofs.Reports
import TypeInference.Proofs.Clashes

/-!
# Chains of dereferences

The types of a dereference sequence form a chain: each is what dereferencing the one before gave.
A final array is followed by its slice, and that step is none.

A conversion records a part of such a sequence, so what an expression is dereferenced to is a chain
from its type (`State.Reaches`). The variables in these types may get values later.

What a type is dereferenced to through the `Deref` trait depends on the state that this is looked up
in, where the answer may be in the cache. These are the states that an inference leads to: nothing
gets into the cache but by normalizations in the same scope (`State.Infers`).
-/

namespace TypeInference

variable {expected t : Ty}

open Infer

/-! ## Chains -/

namespace Ty

/-- Steps lead from a type to each of the list, one after the other. The last step may be of another
kind. -/
inductive Chain (step last : Ty → Ty → Prop) : Ty → List Ty → Prop
  | here (t : Ty) : Chain step last t []
  | step {t u : Ty} {us : List Ty} : step t u → Chain step last u us → Chain step last t (u :: us)
  | last {t u : Ty} : last t u → Chain step last t [u]

namespace Chain

variable {step last step' last' r : Ty → Ty → Prop} {t u T v : Ty} {us Us : List Ty}

theorem mono (hstep : ∀ t u, step t u → step' t u) (hlast : ∀ t u, last t u → last' t u)
    (h : Chain step last t us) : Chain step' last' t us := by
  induction h with
  | here t => exact .here t
  | step htu _ ih => exact .step (hstep _ _ htu) ih
  | last htu => exact .last (hlast _ _ htu)

theorem take (h : Chain step last t us) (n : Nat) : Chain step last t (us.take n) := by
  induction h generalizing n with
  | here t =>
    rw [List.take_nil]
    exact .here t
  | step htu _ ih =>
    cases n with
    | zero => exact .here _
    | succ n => exact .step htu (ih n)
  | last htu =>
    cases n with
    | zero => exact .here _
    | succ n =>
      rw [List.take_succ_cons, List.take_nil]
      exact .last htu

/-- A chain without a last step of its own can take one. -/
theorem concat (h : Chain step ⊥ t us) (hv : (t :: us).getLast? = some v) (hlast : last v u) :
    Chain step last t (us ++ [u]) := by
  induction h with
  | here t =>
    cases hv
    exact .last hlast
  | step htu _ ih =>
    rw [List.getLast?_cons_cons] at hv
    exact .step htu (ih hv)
  | last htu => exact False.elim htu

theorem map (hstep : ∀ t u T U, r t T → r u U → step t u → step' T U)
    (hlast : ∀ t u T U, r t T → r u U → last t u → last' T U) (h : Chain step last t us)
    (ht : r t T) (hus : List.Forall₂ r us Us) : Chain step' last' T Us := by
  induction h generalizing T Us with
  | here t =>
    cases hus
    exact .here T
  | step htu _ ih =>
    cases hus with
    | cons hu hrest => exact .step (hstep _ _ _ _ ht hu htu) (ih hu hrest)
  | last htu =>
    cases hus with
    | cons hu hrest =>
      cases hrest
      exact .last (hlast _ _ _ _ ht hu htu)

end Chain

/-- An array does as a slice of its elements. -/
inductive Unsizes : Ty → Ty → Prop
  | array (elem : Ty) (len : Option Nat) : Unsizes (.array elem len) (.slice elem)

/-- A chain that does not end in a slice has no unsizing. -/
theorem Chain.of_ne_slice {step : Ty → Ty → Prop} {us : List Ty} (h : Chain step Unsizes t us)
    (hlast : ∀ elem, us.getLast? ≠ some (.slice elem)) : Chain step ⊥ t us := by
  induction h with
  | here t => exact .here t
  | @step t u us htu hrest ih =>
    refine .step htu (ih fun elem hus => hlast elem ?_)
    cases us with
    | nil => cases hus
    | cons v vs => rw [List.getLast?_cons_cons, hus]
  | last htu =>
    cases htu
    exact absurd rfl (hlast _)

end Ty

/-! ## Types that are one -/

namespace Vars

variable {vs vs' : Vars} {t u r w : Ty}

/-- The types are one, whatever else becomes of the variables. -/
def Identified (vs : Vars) (t u : Ty) : Prop := ∀ vs', vs.Grows vs' → vs'.Alike t u

namespace Identified

theorem refl (t : Ty) : vs.Identified t t := fun _ _ => .refl t

theorem trans (h : vs.Identified t u) (h' : vs.Identified u w) : vs.Identified t w :=
  fun vs' hg => (h vs' hg).trans (h' vs' hg)

theorem grows (h : vs.Identified t u) (hg : vs.Grows vs') : vs'.Identified t u :=
  fun _ hg' => h _ (hg.trans hg')

theorem of_heads (h : vs.Heads t u) : vs.Identified t u := fun _ hg => h.alike hg

end Identified

/-- The type is that of what never finishes, or it is unknown. -/
def Exempt (vs : Vars) (t : Ty) : Prop := vs.Identified t .never ∨ vs.Identified t .unknown

theorem Exempt.grows (h : vs.Exempt t) (hg : vs.Grows vs') : vs'.Exempt t :=
  h.imp (·.grows hg) (·.grows hg)

theorem Alike.symm (h : vs.Alike t u) : vs.Alike u t where
  grounded := h.grounded.symm
  assign σ hσ := (h.assign σ hσ).symm

/-- Types that are alike resolve to the same type. -/
theorem Alike.resolveNode_eq (hs : vs.Sound) (h : vs.Alike t u) {openVar : Var → Ty}
    (hr : t.mapM (vs.resolveNode openVar) = .ok r) : u.mapM (vs.resolveNode openVar) = .ok r := by
  have hground := h.grounded.1 (grounded_of_resolve hr)
  obtain ⟨r', hr'⟩ := (hs.resolve_settles openVar u).exists_ok hground
  have heq : r' = r := by
    rw [hs.resolve_eq hr', hs.resolve_eq hr, h.assign _ (hs.satisfies_extend _)]
  exact heq ▸ hr'

theorem Alike.close_eq (hs : vs.Sound) (h : vs.Alike t u) (hr : vs.close t = .ok r) :
    vs.close u = .ok r :=
  h.resolveNode_eq hs hr

end Vars

/-! ## Dereferences -/

/-- A type that is dereferenced through the `Deref` trait, if at all. -/
def Ty.ByTrait (known : WellKnown) : Ty → Prop
  | .ref .. | .ptr .. | .var _ | .unknown | .never => False
  | .adt id _ => known.boxed ≠ some id
  | _ => True

/-- What a dereference gives. -/
def Adjustment.derefTarget? : Adjustment → Option Ty
  | .deref target => some target
  | _ => none

namespace State

variable {scope : Scope} {s s' s'' : State} {id : ExprId} {a b t : Ty} {us : List Ty}
  {unsizes : Bool}

/-- How an inference changes the variables and the cache. Projections get into the cache as they are
normalized. -/
inductive Infers (scope : Scope) : State → State → Prop
  | refl (s : State) : Infers scope s s
  | trans {s s' s'' : State} : Infers scope s s' → Infers scope s' s'' → Infers scope s s''
  | vars {s : State} {vars : Vars} : s.Evolves { s with vars } → Infers scope s { s with vars }
  | normalized {p : Projection} {depth : Nat} {found : Option (Normalized Ty)} {s s' : State} :
    normalize? p depth scope s = .ok (found, s') → Infers scope s s'
  /-- Everything else in the state may change freely. -/
  | recorded {s s' : State} : s'.vars = s.vars → s'.cache = s.cache → Infers scope s s'
  /-- Work whose changes are taken back. -/
  | probed {s s' : State} : Infers scope s.opened s' → Infers scope s (s'.rollback s.mark)
  /-- Work inside a snapshot that is closed. -/
  | committed {s s' : State} : Infers scope s.opened s' → Infers scope s s'.commit

namespace Infers

theorem evolves (h : s.Infers scope s') (hs : s.WellFormed) : s.Evolves s' := by
  induction h with
  | refl s => exact .refl s
  | trans _ _ ih ih' => exact (ih hs).trans (ih' ((ih hs).spec hs).1)
  | vars h => exact h
  | normalized hrun => exact ((NormalizeOp.call _ _).relates hs hrun).1
  | recorded hvars hcache => exact .recorded hvars hcache
  | probed _ ih => exact .probed (ih (wellFormed_opened hs))
  | committed _ ih => exact .committed (ih (wellFormed_opened hs))

theorem wellFormed (h : s.Infers scope s') (hs : s.WellFormed) : s'.WellFormed :=
  ((h.evolves hs).spec hs).1

theorem grows (h : s.Infers scope s') (hs : s.WellFormed) : s.vars.Grows s'.vars :=
  (h.evolves hs).grows hs

theorem sound (h : State.Infers scope {} s) : s.WellFormed := h.wellFormed Session.wellFormed_start

end Infers

/-- What an expression was dereferenced to, one after the other. -/
def derefs (s : State) (id : ExprId) : List Ty :=
  ((s.adjustments.get? id.index).getD []).filterMap Adjustment.derefTarget?

/-- `a` was dereferenced to `b` on the way to this state. -/
def Refers (scope : Scope) (s : State) (a b : Ty) : Prop :=
  ∃ t u before after, State.Infers scope {} before ∧ (∀ pointee m, t ≠ .ptr pointee m) ∧
    deref t scope before = .ok (some u, after) ∧ after.Infers scope s ∧
    s.vars.Identified a t ∧ s.vars.Identified u b

/-- `a` is an array and `b` the slice of its elements. -/
def Unsizes (s : State) (a b : Ty) : Prop :=
  ∃ elem len, s.vars.Identified a (.array elem len) ∧ b = .slice elem

/-- Dereferences led from `a` to each of `us`, one after the other. The last step may be an
unsizing if `unsizes` holds. -/
def Reaches (scope : Scope) (s : State) (unsizes : Bool) (a : Ty) (us : List Ty) : Prop :=
  Ty.Chain (s.Refers scope) (fun t u => unsizes = true ∧ s.Unsizes t u) a us

/-- What was dereferenced once stays dereferenced. -/
theorem Refers.infers (h : s.Refers scope a b) (hs : s.WellFormed) (hinfers : s.Infers scope s') :
    s'.Refers scope a b := by
  obtain ⟨t, u, before, after, hbefore, hptr, hderef, hafter, ha, hb⟩ := h
  have hg := hinfers.grows hs
  exact ⟨t, u, before, after, hbefore, hptr, hderef, hafter.trans hinfers, ha.grows hg, hb.grows hg⟩

namespace Reaches

theorem nil (a : Ty) : s.Reaches scope unsizes a [] := .here a

theorem infers (h : s.Reaches scope unsizes a us) (hs : s.WellFormed) (hinfers : s.Infers scope s') :
    s'.Reaches scope unsizes a us := by
  refine Ty.Chain.mono (fun _ _ h => h.infers hs hinfers) ?_ h
  rintro a b ⟨hunsizes, elem, len, ha, hb⟩
  exact ⟨hunsizes, elem, len, ha.grows (hinfers.grows hs), hb⟩

theorem identified (h : s.Reaches scope unsizes t us) (ha : s.vars.Identified a t) :
    s.Reaches scope unsizes a us := by
  cases h with
  | here => exact .here a
  | step htu hrest =>
    obtain ⟨t', u', before, after, hbefore, hptr, hderef, hafter, ht, hu⟩ := htu
    exact .step ⟨t', u', before, after, hbefore, hptr, hderef, hafter, ha.trans ht, hu⟩ hrest
  | last htu =>
    obtain ⟨hunsizes, elem, len, ht, hu⟩ := htu
    exact .last ⟨hunsizes, elem, len, ha.trans ht, hu⟩

theorem of_chain (h : Ty.Chain (s.Refers scope) ⊥ a us) : s.Reaches scope unsizes a us :=
  Ty.Chain.mono (fun _ _ h => h) (fun _ _ h => False.elim h) h

end Reaches

/-! ## Conversions -/

/-- The types and the dereferences of expressions stay the same. -/
structure Still (scope : Scope) (s s' : State) : Prop where
  infers : s.Infers scope s'
  exprTypes : s'.exprTypes = s.exprTypes
  derefs : ∀ id, s'.derefs id = s.derefs id

theorem Still.refl (s : State) : s.Still scope s := ⟨.refl s, rfl, fun _ => rfl⟩

theorem Still.trans (h : s.Still scope s') (h' : s'.Still scope s'') : s.Still scope s'' :=
  ⟨h.infers.trans h'.infers, h'.exprTypes.trans h.exprTypes,
    fun id => (h'.derefs id).trans (h.derefs id)⟩

/-- From `s` to `s'` only `id` was converted, by dereferences from the type `source` on. -/
structure Converts (scope : Scope) (id : ExprId) (source : Ty) (unsizes : Bool) (s s' : State) :
    Prop where
  infers : s.Infers scope s'
  exprTypes : s'.exprTypes = s.exprTypes
  others : ∀ other, other ≠ id → s'.derefs other = s.derefs other
  reaches : ∃ us, s'.derefs id = s.derefs id ++ us ∧ s'.Reaches scope unsizes source us

namespace Converts

theorem of_still (h : s.Still scope s') : Converts scope id a unsizes s s' where
  infers := h.infers
  exprTypes := h.exprTypes
  others other _ := h.derefs other
  reaches := ⟨[], by rw [h.derefs, List.append_nil], .nil a⟩

theorem still_before (h : s.Still scope s') (h' : Converts scope id a unsizes s' s'') :
    Converts scope id a unsizes s s'' where
  infers := h.infers.trans h'.infers
  exprTypes := h'.exprTypes.trans h.exprTypes
  others other hne := (h'.others other hne).trans (h.derefs other)
  reaches := by
    obtain ⟨us, hus, hreaches⟩ := h'.reaches
    exact ⟨us, by rw [hus, h.derefs], hreaches⟩

theorem still_after (hs : s.WellFormed) (h : Converts scope id a unsizes s s')
    (h' : s'.Still scope s'') : Converts scope id a unsizes s s'' where
  infers := h.infers.trans h'.infers
  exprTypes := h'.exprTypes.trans h.exprTypes
  others other hne := (h'.derefs other).trans (h.others other hne)
  reaches := by
    obtain ⟨us, hus, hreaches⟩ := h.reaches
    exact ⟨us, by rw [h'.derefs, hus], hreaches.infers (h.infers.wellFormed hs) h'.infers⟩

theorem identified (h : Converts scope id t unsizes s s') (ha : s'.vars.Identified a t) :
    Converts scope id a unsizes s s' where
  infers := h.infers
  exprTypes := h.exprTypes
  others := h.others
  reaches := by
    obtain ⟨us, hus, hreaches⟩ := h.reaches
    exact ⟨us, hus, hreaches.identified ha⟩

end Converts

/-- The sequence is made of dereferences of `a`, which may be followed by an unsizing. -/
def Follows (scope : Scope) (s : State) (a : Ty) (seq : List Ty) : Prop :=
  ∀ t us, seq = t :: us →
    s.vars.Identified a t ∧ Ty.Chain (s.Refers scope) Ty.Unsizes t us

namespace Follows

variable {seq : List Ty}

theorem infers (h : s.Follows scope a seq) (hs : s.WellFormed) (hinfers : s.Infers scope s') :
    s'.Follows scope a seq := by
  intro t us hseq
  obtain ⟨ha, hchain⟩ := h t us hseq
  exact ⟨ha.grows (hinfers.grows hs),
    hchain.mono (fun _ _ h => h.infers hs hinfers) fun _ _ h => h⟩

theorem identified (h : s.Follows scope t seq) (ha : s.vars.Identified a t) :
    s.Follows scope a seq := by
  intro t' us hseq
  obtain ⟨ht, hchain⟩ := h t' us hseq
  exact ⟨ha.trans ht, hchain⟩

/-- Every start of a dereference sequence is a chain. -/
theorem reaches (h : s.Follows scope a seq) (depth : Nat) :
    s.Reaches scope true a ((seq.drop 1).take depth) := by
  cases seq with
  | nil =>
    rw [List.drop_nil, List.take_nil]
    exact .nil a
  | cons t us =>
    obtain ⟨ha, hchain⟩ := h t us rfl
    have hreaches : s.Reaches scope true t (us.take depth) := by
      refine Ty.Chain.mono (fun _ _ h => h) ?_ (hchain.take depth)
      rintro _ _ ⟨elem, len⟩
      exact ⟨rfl, elem, len, .refl _, rfl⟩
    exact hreaches.identified ha

end Follows

end State

/-! ## Sequences -/

namespace Infer

variable {scope : Scope} {s s' : State} {id : ExprId} {a t actual b c joined p q u : Ty}
  {seq steps tys : List Ty} {ok unsizes : Bool} {target selfParam source : Ty}
  {as borrow : List Adjustment} {m n : Mutability} {depth : Nat}

theorem transports_still : Transports (State.Still scope) where
  refl := .refl
  trans := .trans
  steps _ h := ⟨.vars (.steps h), rfl, fun _ => rfl⟩
  freshTy s := ⟨.vars (.fresh .ty s), rfl, fun _ => rfl⟩
  probed _ _ h := ⟨.probed h.infers, h.exprTypes, h.derefs⟩
  committed _ _ h := ⟨.committed h.infers, h.exprTypes, h.derefs⟩

/-- Work that adjusts nothing leaves types and dereferences as they are recorded. -/
theorem Regular.still {α : Type} {x : Infer α} {r : α}
    (hx : Regular scope Fault.IsOrdinary (Filing NormalizeOp) x) (hs : s.WellFormed)
    (h : x scope s = .ok (r, s')) : s.Still scope s' := by
  refine (hx.relates transports_still (fun hx => hx.relates (·.toSameTypes) ?_ ?_) hs h).2
  · intro s s' h
    exact ⟨.recorded h.vars h.cache, h.exprTypes, fun id => by
      rw [State.derefs, State.derefs, h.adjustments]⟩
  · intro _ _ hx s _ s' hs hrun
    obtain ⟨hev, hconfined⟩ := hx.confined hs hrun
    cases hx with
    | call p depth =>
      rw [hconfined] at hrun ⊢
      exact ⟨hconfined ▸ hev, .normalized hrun, rfl, fun _ => rfl⟩

/-- A dereference goes through a reference, a box, or the `Deref` trait. -/
theorem deref_eq_ok (hptr : ∀ pointee m, t ≠ .ptr pointee m)
    (h : deref t scope s = .ok (some u, s')) :
    (∃ m r, t = .ref u m r) ∨
      (∃ id args, t = .adt id (u :: args) ∧ scope.known.boxed = some id) ∨
      t.ByTrait scope.known ∧ derefThroughTrait t scope s = .ok (some u, s') := by
  cases t with
  | ref pointee m r =>
    cases h
    exact .inl ⟨m, r, rfl⟩
  | ptr pointee m => exact absurd rfl (hptr pointee m)
  | adt id args =>
    obtain ⟨_, _, ⟨⟩, hrest⟩ := bind_eq_ok h
    split at hrest
    · next hboxed =>
      cases args with
      | nil => cases hrest
      | cons arg args =>
        cases hrest
        exact .inr (Or.inl ⟨id, args, rfl, hboxed⟩)
    · next hboxed => exact .inr (Or.inr ⟨hboxed, hrest⟩)
  | var | unknown | never => cases h
  | _ => exact .inr (Or.inr ⟨trivial, h⟩)

/-- Each type of a run is a dereference of the one before. -/
theorem chain_of_derefRun {n : Nat} {next : Option Ty} (h : DerefRun scope n s t seq next s')
    (hs : State.Infers scope {} s) : s.Infers scope s' ∧
      (seq = [] ∨ ∃ us, seq = t :: us ∧ Ty.Chain (s'.Refers scope) ⊥ t us) := by
  induction h with
  | brokenOff s t => exact ⟨.refl s, Or.inl rfl⟩
  | pointer s t m => exact ⟨.refl s, Or.inr ⟨[], rfl, .here _⟩⟩
  | @final t s s' _ hderef =>
    have hstill := (Orderly.deref within_true).anyway.still hs.sound hderef
    exact ⟨hstill.infers, Or.inr ⟨[], rfl, .here t⟩⟩
  | @step n t target u seq next s s₁ s₂ s' hptr hderef hsettled _ ih =>
    have hinfers₁ := ((Orderly.deref within_true).anyway.still hs.sound hderef).infers
    have h₁ := hs.trans hinfers₁
    have hinfers₂ := (Regular.resolveSettled.still h₁.sound hsettled).infers
    have h₂ := h₁.trans hinfers₂
    obtain ⟨hinfers₃, hchain⟩ := ih h₂
    refine ⟨(hinfers₁.trans hinfers₂).trans hinfers₃, Or.inr ⟨seq, rfl, ?_⟩⟩
    have hrefers : s₂.Refers scope t u := ⟨t, target, s, s₁, hs, hptr, hderef, hinfers₂, .refl t,
      fun _ hg => alike_resolveSettled h₁.sound hsettled hg⟩
    rcases hchain with rfl | ⟨us, rfl, hchain⟩
    · exact .here t
    · exact .step (hrefers.infers h₂.sound hinfers₃) hchain

/-- A dereference sequence is a chain from its type. -/
theorem follows_of_derefSequence (hs : State.Infers scope {} s)
    (h : derefSequence a scope s = .ok (seq, s')) : s'.Follows scope a seq := by
  obtain ⟨t, s₁, out, hsettled, hfrom, hslice⟩ := derefSequence_eq_ok h
  obtain ⟨n, us, next, hus, hrun, -⟩ := derefRun_of_derefFrom hfrom
  obtain rfl : us = out := hus.symm
  have hs₁ := hs.trans (Regular.resolveSettled.still hs.sound hsettled).infers
  obtain ⟨hinfers, hchain⟩ := chain_of_derefRun hrun hs₁
  have ha : s'.vars.Identified a t := fun _ hg =>
    alike_resolveSettled hs.sound hsettled ((hinfers.grows hs₁.sound).trans hg)
  rcases hchain with rfl | ⟨us, rfl, hchain⟩
  · rcases hslice with ⟨_, _, ⟨⟩, _⟩ | ⟨-, rfl⟩
    exact nofun
  rcases hslice with ⟨elem, len, hend, rfl⟩ | ⟨-, rfl⟩
  · rintro _ _ ⟨⟩
    exact ⟨ha, hchain.concat hend (.array elem len)⟩
  · rintro _ _ ⟨⟩
    exact ⟨ha, hchain.mono (fun _ _ h => h) fun _ _ h => False.elim h⟩

/-! ## Recorded dereferences -/

theorem derefs_adjust (h : adjust id as scope s = .ok ((), s')) (other : ExprId) : s'.derefs other =
      if other = id then s.derefs id ++ as.filterMap Adjustment.derefTarget?
      else s.derefs other := by
  cases h
  simp only [State.derefs, IdMap.get?_insert, ExprId.index_inj]
  split
  · rw [Option.getD_some, List.filterMap_append]
  · rfl

theorem infers_adjust (h : adjust id as scope s = .ok ((), s')) :
    s.Infers scope s' ∧ s'.exprTypes = s.exprTypes := by
  cases h
  exact ⟨.recorded rfl rfl, rfl⟩

theorem converts_adjust (hs : s.WellFormed) (h : adjust id as scope s = .ok ((), s'))
    (hreaches : s.Reaches scope unsizes a (as.filterMap Adjustment.derefTarget?)) :
    s.Converts scope id a unsizes s' := by
  obtain ⟨hinfers, hexprs⟩ := infers_adjust h
  refine ⟨hinfers, hexprs, fun other hne => ?_, _, ?_, hreaches.infers hs hinfers⟩
  · rw [derefs_adjust h, if_neg hne]
  · rw [derefs_adjust h, if_pos rfl]

theorem still_adjust (h : adjust id as scope s = .ok ((), s'))
    (hnone : as.filterMap Adjustment.derefTarget? = []) : s.Still scope s' := by
  obtain ⟨hinfers, hexprs⟩ := infers_adjust h
  refine ⟨hinfers, hexprs, fun other => ?_⟩
  rw [derefs_adjust h, hnone, List.append_nil]
  split
  · next heq => rw [heq]
  · rfl

theorem filterMap_derefsTo (seq : List Ty) (depth : Nat) :
    (derefsTo seq depth).filterMap Adjustment.derefTarget? = (seq.drop 1).take depth := by
  rw [derefsTo, List.filterMap_map, List.drop_take, Nat.add_sub_cancel]
  exact List.filterMap_some

theorem converts_adjust_derefsTo (hs : s.WellFormed) (hseq : s.Follows scope a seq)
    (hborrow : borrow.filterMap Adjustment.derefTarget? = [])
    (h : adjust id (derefsTo seq depth ++ borrow) scope s = .ok ((), s')) :
    s.Converts scope id a true s' := by
  refine converts_adjust hs h ?_
  rw [List.filterMap_append, filterMap_derefsTo, hborrow, List.append_nil]
  exact hseq.reaches depth

theorem converts_reborrowFrom (hs : s.WellFormed) (hseq : s.Follows scope a seq)
    (h : reborrowFrom id seq target m depth steps scope s = .ok (ok, s')) :
    s.Converts scope id a true s' := by
  induction steps generalizing depth s with
  | nil =>
    cases h
    exact .of_still (.refl _)
  | cons step rest ih =>
    obtain ⟨_, s₁, hrun, hrest⟩ := reborrowFrom_cons_eq_ok h
    have hstill := (Orderly.combineIfOk within_true within_true).anyway.still hs hrun
    have hs₁ := hstill.infers.wellFormed hs
    have hseq₁ := hseq.infers hs hstill.infers
    refine .still_before hstill ?_
    rcases hrest with ⟨-, hrest⟩ | ⟨-, -, ⟨-, rfl⟩ | ⟨-, hadjust⟩⟩
    · exact ih hs₁ hseq₁ hrest
    · exact .of_still (.refl _)
    · exact converts_adjust_derefsTo hs₁ hseq₁ rfl hadjust

theorem converts_reborrow (hs : State.Infers scope {} s)
    (h : reborrow id a target m scope s = .ok (ok, s')) : s.Converts scope id a true s' := by
  obtain ⟨seq, s₁, hseq, hrest⟩ := bind_eq_ok h
  have hstill := Regular.derefSequence.still hs.sound hseq
  exact .still_before hstill (converts_reborrowFrom (hstill.infers.wellFormed hs.sound)
    (follows_of_derefSequence hs hseq) hrest)

/-- A conversion records a chain from the type that is converted. -/
theorem converts_tryCoerce (hs : State.Infers scope {} s)
    (h : tryCoerce id source target scope s = .ok (ok, s')) :
    s.Converts scope id source true s' := by
  have hw := hs.sound
  obtain ⟨source', target', hhead, -, hattempts⟩ := attempts_of_tryCoerce h
  have hev := (Regular.tryCoerce.quiet hw h).1
  have hsource : s'.vars.Identified source source' :=
    (Vars.Identified.of_heads (Vars.heads_of_head hhead)).grows (hev.grows hw)
  refine State.Converts.identified ?_ hsource
  cases hattempts with
  | unify hrun | unsize _ _ _ hrun | refused hrun | constPtr hrun =>
    exact .of_still (Regular.combine.still hw hrun)
  | reborrow _ _ hrun => exact converts_reborrow hs hrun
  | borrowPtr _ hcombine hadjust =>
    have hstill := Regular.combine.still hw hcombine
    exact .still_before hstill (converts_adjust (hstill.infers.wellFormed hw) hadjust (.nil _))

theorem still_reportMismatch {site : Site} (hs : s.WellFormed)
    (h : reportMismatch site expected actual scope s = .ok ((), s')) :
    s.Still scope s' := by
  rcases reportMismatch_eq_ok hs h with rfl | ⟨_, _, -, -, -, -, -, rfl⟩
  · exact .refl _
  · exact ⟨.recorded rfl rfl, rfl, fun _ => rfl⟩

theorem converts_coerce (hs : State.Infers scope {} s)
    (h : coerce id source target scope s = .ok (ok, s')) : s.Converts scope id source true s' := by
  obtain ⟨source', s₁, hsource, hrest⟩ := bind_eq_ok h
  obtain ⟨target', s₂, htarget, hnext⟩ := bind_eq_ok hrest
  obtain ⟨ok', s₃, htry, hlast⟩ := bind_eq_ok hnext
  have hstill₁ := Regular.resolveSettled.still hs.sound hsource
  have hw₁ := hstill₁.infers.wellFormed hs.sound
  have hstill₂ := Regular.resolveSettled.still hw₁ htarget
  have hs₂ := hs.trans (hstill₁.trans hstill₂).infers
  have htried := converts_tryCoerce hs₂ htry
  have hend : s₃.Still scope s' := by
    cases ok' with
    | true =>
      cases hlast
      exact .refl _
    | false =>
      obtain ⟨_, s₄, hreport, ⟨⟩⟩ := bind_eq_ok hlast
      exact still_reportMismatch (htried.infers.wellFormed hs₂.sound) hreport
  have hconverts := htried.still_after hs₂.sound hend
  have hidentified : s'.vars.Identified source source' := by
    intro vs hg
    have hgrows := (hstill₂.infers.trans hconverts.infers).grows hw₁
    exact alike_resolveSettled hs.sound hsource (hgrows.trans hg)
  exact (hconverts.still_before (hstill₁.trans hstill₂)).identified hidentified

theorem still_coerce_unit (hs : s.WellFormed) (h : coerce id .unit target scope s = .ok (ok, s')) :
    s.Still scope s' := by
  obtain ⟨source', s₁, hsource, hrest⟩ := bind_eq_ok h
  have hunit : source' = .unit ∧ s₁ = s := by
    cases hsource
    exact ⟨rfl, rfl⟩
  obtain ⟨rfl, rfl⟩ := hunit
  obtain ⟨target', s₂, htarget, hnext⟩ := bind_eq_ok hrest
  obtain ⟨ok', s₃, htry, hlast⟩ := bind_eq_ok hnext
  have hstill₂ := Regular.resolveSettled.still hs htarget
  have htried : s₂.Still scope s₃ := by
    obtain ⟨head', s₄, ⟨⟩, hrest'⟩ := bind_eq_ok htry
    obtain ⟨target'', s₅, hhead', hrun⟩ := bind_eq_ok hrest'
    obtain rfl := (head_eq_ok hhead').2
    exact Regular.combine.still (hstill₂.infers.wellFormed hs) hrun
  have hsofar := hstill₂.trans htried
  cases ok' with
  | true =>
    cases hlast
    exact hsofar
  | false =>
    obtain ⟨_, s₄, hreport, ⟨⟩⟩ := bind_eq_ok hlast
    exact hsofar.trans (still_reportMismatch (hsofar.infers.wellFormed hs) hreport)

theorem converts_adjustReceiverFrom (hs : s.WellFormed) (hseq : s.Follows scope a seq)
    (h : adjustReceiverFrom id seq selfParam depth steps scope s = .ok ((), s')) :
    s.Converts scope id a true s' := by
  induction steps generalizing depth s with
  | nil =>
    cases h
    exact .of_still (.refl _)
  | cons step rest ih =>
    rw [adjustReceiverFrom] at h
    obtain ⟨step', s₁, hresolve, hrest⟩ := bind_eq_ok h
    obtain rfl := (readVars_eq_ok hresolve).2
    cases hborrow : receiverBorrow? step' selfParam with
    | none =>
      rw [hborrow] at hrest
      exact ih hs hseq hrest
    | some borrow =>
      rw [hborrow] at hrest
      refine converts_adjust_derefsTo hs hseq ?_ hrest
      -- The step is taken as it is, or borrowed.
      unfold receiverBorrow? at hborrow
      split at hborrow
      · cases hborrow
        rfl
      · split at hborrow
        · split at hborrow
          · cases hborrow
            rfl
          · cases hborrow
        · cases hborrow

theorem converts_adjustReceiver (hs : s.WellFormed) (hseq : s.Follows scope a seq)
    (h : adjustReceiver id seq selfParam scope s = .ok ((), s')) :
    s.Converts scope id a true s' := by
  obtain ⟨selfParam', s₁, hresolve, hrest⟩ := bind_eq_ok h
  obtain rfl := (readVars_eq_ok hresolve).2
  exact converts_adjustReceiverFrom hs hseq hrest

/-! ## Joins -/

/-- A join takes the first branch, unless that is passed over. -/
theorem eq_of_join (hs : s.WellFormed) (h : join (a :: tys) scope s = .ok (joined, s')) :
    joined = a ∨ s'.vars.Exempt a := by
  -- Once the first branch is passed over, it may be for good.
  suffices hloop : ∀ b, b = a ∨ s.vars.Exempt a → tys.foldlM joinTwo b scope s = .ok (joined, s') →
      joined = a ∨ s'.vars.Exempt a from
    hloop a (Or.inl rfl) h
  clear h
  induction tys generalizing s with
  | nil =>
    intro b hb h
    cases h
    exact hb
  | cons ty tys ih =>
    intro b hb h
    rw [List.foldlM_cons] at h
    obtain ⟨c, s₁, hjoin, hrest⟩ := bind_eq_ok h
    have hinfers := ((Orderly.joinTwo within_true within_true).anyway.still hs hjoin).infers
    have hg := hinfers.grows hs
    refine ih (hinfers.wellFormed hs) c ?_ hrest
    rcases hb with rfl | hexempt
    · obtain ⟨b', s₂, hhead, hend⟩ := bind_eq_ok hjoin
      obtain ⟨hheads, rfl⟩ := head_eq_ok hhead
      have hidentified := (Vars.Identified.of_heads hheads).grows hg
      split at hend
      · exact .inr (Or.inl hidentified)
      · exact .inr (Or.inr hidentified)
      · obtain ⟨_, s₃, -, ⟨⟩⟩ := bind_eq_ok hend
        exact .inl rfl
    · exact .inr (hexempt.grows hg)

end Infer

/-! ## Positions in a sequence -/

namespace Walk

variable {scope : Scope} {s s' s₀ : State} {a t u : Ty} {seq steps : List Ty} {index output ty : Ty}
  {resolution : FieldResolution} {k n depth : Nat} {name : FieldName} {items : Items} {us : List Ty}
  {id idx : ExprId}

/-- A step is the one that is indexed, or the search goes on after it. Unsizings are not counted. -/
theorem indexFrom_cons
    (h : indexFrom index (some t) k (u :: us) scope s = .ok (some (output, n), s')) :
    ∃ k' s₁, k' = (if isUnsizing (some t) u then k else k + 1) ∧
      (n = k' ∨ indexFrom index (some u) k' us scope s₁ = .ok (some (output, n), s')) := by
  rw [indexFrom] at h
  obtain ⟨found, s₁, -, hrest⟩ := Infer.bind_eq_ok h
  refine ⟨_, s₁, rfl, ?_⟩
  have hcount : (if ((some t).isSome && !isUnsizing (some t) u) = true then k + 1 else k) =
      if isUnsizing (some t) u then k else k + 1 := by
    cases isUnsizing (some t) u <;> rfl
  rw [hcount] at hrest
  cases found with
  | some output =>
    cases hrest
    exact .inl rfl
  | none => exact .inr hrest

/-- The dereferences that an index counts do not go as far as an unsizing. -/
theorem chain_of_indexFrom {step : Ty → Ty → Prop} (hchain : Ty.Chain step Ty.Unsizes t us)
    (h : indexFrom index (some t) k us scope s = .ok (some (output, n), s')) :
    k ≤ n ∧ Ty.Chain step ⊥ t (us.take (n - k)) := by
  induction us generalizing t k s with
  | nil => cases h
  | cons u us ih =>
    obtain ⟨k', s₁, hcount, hfound⟩ := indexFrom_cons h
    cases hchain with
    | last htu =>
      cases htu
      have hk : n = k := by
        rcases hfound with rfl | hrest
        · exact hcount
        · cases hrest
      rw [hk, Nat.sub_self]
      exact ⟨Nat.le_refl k, .here _⟩
    | step htu hus =>
      have hrest : k' ≤ n ∧ Ty.Chain step ⊥ u (us.take (n - k')) := by
        rcases hfound with rfl | hrest
        · rw [Nat.sub_self]
          exact ⟨Nat.le_refl n, .here u⟩
        · exact ih hus hrest
      -- One more than the rest needs, or as many: the last is left out then.
      obtain ⟨hle, hchain⟩ := hrest
      have hk : k' = k ∨ k' = k + 1 := by
        rw [hcount]
        exact ite_eq_or_eq ..
      refine ⟨by omega, ?_⟩
      cases hn : n - k with
      | zero => exact .here t
      | succ d =>
        have hd : min d (n - k') = d := by omega
        have hshort := hchain.take d
        rw [List.take_take, hd] at hshort
        exact .step htu hshort

/-- What is indexed is reached without an unsizing. -/
theorem reaches_of_indexFrom (hseq : s'.Follows scope a seq)
    (h : indexFrom index none 0 seq scope s₀ = .ok (some (output, n), s)) :
    s'.Reaches scope false a ((seq.drop 1).take n) := by
  cases seq with
  | nil => cases h
  | cons t us =>
    obtain ⟨ha, hchain⟩ := hseq t us rfl
    rw [indexFrom] at h
    obtain ⟨found, s₁, -, hrest⟩ := Infer.bind_eq_ok h
    cases found with
    | some output =>
      cases hrest
      exact .nil a
    | none =>
      have hstrict := (chain_of_indexFrom hchain hrest).2
      exact (State.Reaches.of_chain hstrict).identified ha

theorem converts_indexThrough (hs : State.Infers scope {} s)
    (h : indexThrough id a index scope s = .ok (output, s')) : s.Converts scope id a false s' := by
  obtain ⟨seq, s₁, hseq, hrest⟩ := Infer.bind_eq_ok h
  have hstill₁ := Regular.derefSequence.still hs.sound hseq
  have hw₁ := hstill₁.infers.wellFormed hs.sound
  obtain ⟨found, s₂, hfound, hlast⟩ := Infer.bind_eq_ok hrest
  have hstill₂ := (Orderly.indexFrom within_true within_true).anyway.still hw₁ hfound
  refine .still_before (hstill₁.trans hstill₂) ?_
  rcases found with _ | ⟨output, derefs⟩
  · cases hlast
    exact .of_still (.refl _)
  dsimp only at hlast
  split at hlast
  · obtain ⟨_, s₃, hadjust, ⟨⟩⟩ := Infer.bind_eq_ok hlast
    refine Infer.converts_adjust (hstill₂.infers.wellFormed hw₁) hadjust ?_
    rw [Infer.filterMap_derefsTo]
    have hseq₁ := Infer.follows_of_derefSequence hs hseq
    exact reaches_of_indexFrom (hseq₁.infers hw₁ hstill₂.infers) hfound
  · cases hlast
    exact .of_still (.refl _)

theorem still_borrowIndex (h : borrowIndex idx index scope s = .ok ((), s')) :
    s.Still scope s' := by
  unfold borrowIndex at h
  split at h
  · exact Infer.still_adjust h rfl
  · cases h
    exact .refl s

theorem fieldFrom_eq_ok (h : fieldFrom items name k steps = .ok (some (depth, resolution, ty))) :
    k ≤ depth ∧ ∃ step, steps[depth - k]? = some step ∧ ∀ elem, step ≠ .slice elem := by
  induction steps generalizing k with
  | nil => cases h
  | cons step rest ih =>
    rw [fieldFrom] at h
    obtain ⟨found, hown, hrest⟩ := Except.bind_eq_ok h
    cases found with
    | some own =>
      cases hrest
      refine ⟨Nat.le_refl _, step, by rw [Nat.sub_self]; rfl, ?_⟩
      rintro elem rfl
      cases hown
    | none =>
      obtain ⟨hle, step', hstep, hslice⟩ := ih hrest
      have hdepth : depth - k = depth - (k + 1) + 1 := by omega
      refine ⟨by omega, step', ?_, hslice⟩
      rw [hdepth, List.getElem?_cons_succ]
      exact hstep

theorem reaches_of_fieldFrom (hseq : s.Follows scope a seq)
    (h : fieldFrom items name 0 seq = .ok (some (depth, resolution, ty))) :
    s.Reaches scope false a ((seq.drop 1).take depth) := by
  obtain ⟨-, step, hstep, hslice⟩ := fieldFrom_eq_ok h
  cases seq with
  | nil => cases hstep
  | cons t us =>
    obtain ⟨ha, hchain⟩ := hseq t us rfl
    cases depth with
    | zero => exact .nil a
    | succ d =>
      have hstrict : Ty.Chain (s.Refers scope) ⊥ t (us.take (d + 1)) := by
        refine (hchain.take (d + 1)).of_ne_slice fun elem hlast => ?_
        rw [Nat.sub_zero, List.getElem?_cons_succ] at hstep
        rw [List.getLast?_take, if_neg (Nat.succ_ne_zero d), Nat.add_sub_cancel, hstep] at hlast
        cases hlast
        exact hslice elem rfl
      exact (State.Reaches.of_chain hstrict).identified ha

/-! ## Other steps -/

theorem still_variantShape {id : PatId} {shape : Option (Shape × Subst)} (hs : s.WellFormed)
    (h : variantShape id expected scope s = .ok (shape, s')) : s.Still scope s' := by
  obtain ⟨_, _, ⟨⟩, hrest⟩ := Infer.bind_eq_ok h
  cases hvariant : scope.names.variant? (.pat id) with
  | none =>
    rw [hvariant] at hrest
    cases hrest
    exact .refl s
  | some found =>
    obtain ⟨variant, explicit⟩ := found
    rw [hvariant] at hrest
    obtain ⟨⟨adt, subst, args⟩, s₁, hadt, hnext⟩ := Infer.bind_eq_ok hrest
    have hstill₁ := (Orderly.instantiateAdt within_true).anyway.still hs hadt
    obtain ⟨ok, s₂, hcombine, hlast⟩ := Infer.bind_eq_ok hnext
    have hstill := hstill₁.trans (Regular.combine.still (hstill₁.infers.wellFormed hs) hcombine)
    cases ok with
    | true =>
      cases hlast
      exact hstill
    | false =>
      obtain ⟨_, s₃, hreport, ⟨⟩⟩ := Infer.bind_eq_ok hlast
      exact hstill.trans (Infer.still_reportMismatch (hstill.infers.wellFormed hs) hreport)

theorem still_literal {lit : Literal} {expected : Option Ty}
    (h : literal lit expected scope s = .ok (ty, s')) : s.Still scope s' := by
  rcases Infer.literal_eq_ok h with rfl | hfresh | hfresh
  · exact .refl _
  · cases hfresh
    exact ⟨.vars (.fresh .int s), rfl, fun _ => rfl⟩
  · cases hfresh
    exact ⟨.vars (.fresh .float s), rfl, fun _ => rfl⟩

end Walk

end TypeInference
