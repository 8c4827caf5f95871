import TypeInference.Proofs.Finishing

/-!
# The steps of a walk and the finishing passes stay in range

Between the nodes it visits a walk only infers, and after the last node the finishing passes run.
Defaults are given to the variables of a resolved type, and a variable that stands for itself when
the type is resolved still does when its turn comes.
-/

namespace TypeInference

namespace Infer

/-! ## Finishing -/

section

variable {scope : Scope} {s : State}

theorem Stays.defaultVar {v : Var} (hs : s.InRange) (hv : s.vars.rootVar v = .ok v) :
    Stays scope s (defaultVar v) := by
  obtain ⟨vars, hrun, hdefaults⟩ := defaultVar_run scope hs.vars.sound hv
  have hhas : s.vars.Has ≤ vars.Has := fun w hw =>
    (hdefaults.steps.has_iff hs.vars.sound w).2 hw
  have hafter : { s with vars }.InRange :=
    hs.withVars (.steps hdefaults.steps) (hdefaults.inRange hs.vars) hhas
  exact .of_ok (.defaultVar v) hs hrun hafter hhas within_plain

/-- Variables are defaulted one after the other. -/
theorem Stays.defaultVars {xs : List Var} (hs : s.InRange)
    (hxs : ∀ v ∈ xs, s.vars.rootVar v = .ok v) : Stays scope s (xs.forM Infer.defaultVar) := by
  induction xs generalizing s with
  | nil => exact .of_ok (.pure _) hs rfl hs le_rfl within_plain
  | cons v xs ih =>
    have hv := hxs v (.head _)
    have hfirst : Stays scope s (Infer.defaultVar v) := .defaultVar hs hv
    refine hfirst.bind fun _ s' hrun => ih (hfirst.throughout.after hrun) fun w hw => ?_
    -- A default changes no root.
    obtain ⟨vars, hrun', hdefaults⟩ := defaultVar_run scope hs.vars.sound hv
    rw [hrun'] at hrun
    cases hrun
    exact (hdefaults.root_eq w).trans (hxs w (.tail _ hw))

/-- Defaulting recorded types stays in range. -/
theorem Stays.defaultTypes {ts : List Ty} (hscope : scope.IsClosed) (hs : s.InRange)
    (hts : Within s.vars.Has ts) :
    Stays scope s (ts.forM fun t => do (← Infer.resolve t).vars.forM Infer.defaultVar) := by
  induction ts generalizing s with
  | nil => exact .of_ok (.pure _) hs rfl hs le_rfl within_plain
  | cons t ts ih =>
    obtain ⟨ht, hts⟩ := within_cons.1 hts
    have hresolve : Contained s.vars.Has (Infer.resolve t) := .of_orderly fun _ => .resolve ht
    have hfirst : Stays scope s (do (← Infer.resolve t).vars.forM Infer.defaultVar) := by
      refine (hresolve hscope hs le_rfl).bind fun r s' hrun => ?_
      obtain ⟨hr, rfl⟩ := readVars_eq_ok hrun
      exact .defaultVars hs fun v hv => (Vars.isOpen_of_mem_resolve hr hv).1
    refine hfirst.bind fun _ s' hrun => ih (hfirst.throughout.after hrun) ?_
    exact hts.mono (hfirst.ok _ _ hrun).1

end

/-- So does finishing. -/
theorem Contained.finish {W : Var → Prop} : Contained W finish := by
  intro scope s hscope hs hW
  rw [finish_eq]
  have hsettle : Contained W settlePending := .of_orderly fun _ => .settlePending
  have hfirst := hsettle hscope hs hW
  refine hfirst.bind fun _ s₁ hrun => ?_
  have hs₁ := hfirst.throughout.after hrun
  have hrecorded := within_append.2 ⟨hs₁.holds.exprTypes, hs₁.holds.bindings⟩
  have hdefault : Stays scope s₁ defaultNumericVars := by
    have : Plain State := ⟨⟩
    have hget : Stays scope s₁ (get : Infer State) := .of_ok .get hs₁ rfl hs₁ le_rfl within_plain
    refine hget.bind fun _ _ h => ?_
    cases h
    exact .defaultTypes hscope hs₁ hrecorded
  refine hdefault.bind fun _ s₂ hrun₂ => ?_
  have hrest : Contained W (do
      refineCalls
      closeRecords) :=
    .of_orderly fun _ => Orderly.refineCalls.bind fun _ _ _ => .closeRecords
  have hgrows := (hfirst.ok _ _ hrun).1.trans (hdefault.ok _ _ hrun₂).1
  exact hrest hscope (hdefault.throughout.after hrun₂) (hW.trans hgrows)

end Infer

/-! ## Types at hand -/

section

variable {W : Var → Prop} {t : Ty}

theorem Within.signatureOf? {scope : Scope} (henv : Within W scope.env) (ht : Within W t) :
    Within W (scope.signature? t) := by
  fun_induction scope.signature? t with
  | case1 params ret => exact within_some.2 (within_signature.2 (Ty.within_fn.1 ht))
  | case2 bound => exact (Ty.within_dyn.1 ht).signature? scope.known
  | case3 decl bounds => exact (Ty.within_existential.1 ht).findSignature? scope.known
  | case4 id => exact (henv.boundsFor _).findSignature? scope.known
  | case5 inner mutability region ih => exact ih (Ty.within_ref.1 ht)
  | case6 => exact within_none

theorem Within.bindingTy (ht : Within W t) (mode : BindingMode) (default : DefaultBinding) :
    Within W (mode.bindingTy default t) := by
  unfold BindingMode.bindingTy
  split
  · exact Ty.within_reference.2 ht
  · exact Ty.within_reference.2 ht
  · exact ht

namespace Walk

variable {expected : Option Ty} {shape : Option (Shape × Subst)} {items : Items}
  {resolutions : List PathResolution}

theorem within_expectedElems (h : Within W expected) : Within W (expectedElems expected) := by
  unfold expectedElems
  split
  · exact Ty.within_tuple.1 (within_some.1 h)
  · exact within_nil

theorem within_expectedElem (h : Within W expected) : Within W (expectedElem expected) := by
  unfold expectedElem
  split
  · exact within_some.2 (Ty.within_array.1 (within_some.1 h))
  · exact within_some.2 (Ty.within_slice.1 (within_some.1 h))
  · exact within_none

theorem within_expectedVecElem (known : WellKnown) (h : Within W expected) :
    Within W (expectedVecElem known expected) := by
  unfold expectedVecElem
  split
  · split
    · exact (Ty.within_adt.1 (within_some.1 h)).head?
    · exact within_none
  · exact within_none

theorem within_expectedBoxed (known : WellKnown) (h : Within W expected) :
    Within W (expectedBoxed known expected) := by
  unfold expectedBoxed
  split
  · split
    · exact (Ty.within_adt.1 (within_some.1 h)).head?
    · exact within_none
  · exact within_none

theorem within_expectedPointee (h : Within W expected) : Within W (expectedPointee expected) := by
  unfold expectedPointee
  split
  · exact within_some.2 (Ty.within_ref.1 (within_some.1 h))
  · exact within_none

theorem within_fixedMacroTy (name : String) : Within W (fixedMacroTy name) := by
  unfold fixedMacroTy
  split <;> simp

theorem within_functionUses? (h : Within W resolutions) {uses : List (FnId × PathResolution)}
    (huses : functionUses? resolutions = some uses) : Within W uses := by
  induction resolutions generalizing uses with
  | nil =>
    cases huses
    exact within_nil
  | cons res rest ih =>
    obtain ⟨hres, hrest⟩ := within_cons.1 h
    rw [functionUses?, List.mapM_cons] at huses
    obtain ⟨use, huse, huses⟩ := Option.bind_eq_some_iff.1 huses
    obtain ⟨others, hothers, huses⟩ := Option.bind_eq_some_iff.1 huses
    cases huses
    split at huse
    · cases huse
      exact within_cons.2 ⟨within_pair.2 ⟨within_plain, hres⟩, ih hrest hothers⟩
    · cases huse

theorem within_peel (ht : Within W t) (default : DefaultBinding) :
    Within W (peel t default).1 := by
  fun_induction peel t default with
  | case1 inner mutability region default ih => exact ih (Ty.within_ref.1 ht)
  | case2 => exact ht

theorem within_tupleFields (h : Within W shape) : Within W (tupleFields shape) := by
  unfold tupleFields
  split
  · obtain ⟨hfields, hsubst⟩ := within_pair.1 (within_some.1 h)
    exact hsubst.applyList (within_tupleShape.1 hfields)
  · exact within_nil

theorem within_fieldTy (h : Within W shape) (name : String) : Within W (fieldTy shape name) := by
  unfold fieldTy
  split
  · obtain ⟨hshape, hsubst⟩ := within_pair.1 (within_some.1 h)
    refine Within.getD ((hshape.field? name).optionMap fun p hp => ?_) Ty.within_unknown
    exact hsubst.apply hp.snd
  · exact Ty.within_unknown

theorem within_sliceElem (ht : Within W t) : Within W (sliceElem t) := by
  unfold sliceElem
  split
  · exact Ty.within_array.1 ht
  · exact Ty.within_slice.1 ht
  · exact Ty.within_unknown

theorem within_sliceRest (ht : Within W t) (taken : Nat) : Within W (sliceRest t taken) := by
  unfold sliceRest
  split
  · exact Ty.within_array.2 (Ty.within_array.1 ht)
  · exact Ty.within_slice.2 (Ty.within_array.1 ht)
  · exact ht
  · exact Ty.within_unknown

theorem within_shapeField? {shape : Shape} (h : Within W shape) (name : FieldName) :
    Within W (shapeField? shape name) := by
  cases name with
  | named name => exact h.field? name
  | index i =>
    exact (h.tupleField? i).optionMap fun _ hty => within_pair.2 ⟨within_plain, hty⟩

/-- The type of a field is made of the declaration and the arguments. -/
theorem within_ownField? (hitems : Within W items) (ht : Within W t) (name : FieldName)
    {found : Option (FieldResolution × Ty)} (h : ownField? items name t = .ok found) :
    Within W found := by
  unfold ownField? at h
  split at h
  · next id args =>
    obtain ⟨adt, hadt, h⟩ := Except.bind_eq_ok h
    have hadt : Within W adt := (within_items.1 hitems).1.entry hadt
    have hkind := (within_adt.1 hadt).2
    have hsubst := ((Ty.within_adt.1 ht).zip adt.generics.params).ofPairs
    split at h
    · next shape heq =>
      cases h
      rw [heq] at hkind
      have hshape : Within W shape := hkind
      refine (within_shapeField? hshape name).optionMap fun p hp => ?_
      exact within_pair.2 ⟨within_plain, hsubst.apply hp.snd⟩
    · cases h
      exact within_none
  · split at h
    · next elems _ i =>
      cases h
      refine Within.optionMap ((Ty.within_tuple.1 ht).getElem? i) fun _ hty => ?_
      exact within_pair.2 ⟨within_plain, hty⟩
    · cases h
      exact within_none
  · cases h
    exact within_none

theorem within_selfTy (hitems : Within W items) {owner : FnOwner} {self : Option Ty}
    (h : items.selfTy owner = .ok self) : Within W self := by
  cases owner with
  | free =>
    cases h
    exact within_none
  | impl id =>
    obtain ⟨impl, himpl, h⟩ := Except.bind_eq_ok h
    cases h
    have himpl : Within W impl := (within_items.1 hitems).2.2.2.1.entry himpl
    exact within_some.2 (within_impl.1 himpl).2.2.1
  | trait id =>
    cases h
    exact within_some.2 Ty.within_param

/-- The field that is found along dereferences is in range. -/
theorem within_fieldFrom (hitems : Within W items) (name : FieldName) {depth : Nat}
    {steps : List Ty}
    (hsteps : Within W steps) {found : Option (Nat × FieldResolution × Ty)}
    (h : fieldFrom items name depth steps = .ok found) : Within W found := by
  induction steps generalizing depth with
  | nil =>
    cases h
    exact within_none
  | cons step rest ih =>
    obtain ⟨hstep, hrest⟩ := within_cons.1 hsteps
    obtain ⟨own, hown, h⟩ := Except.bind_eq_ok h
    have hown := within_ownField? hitems hstep name hown
    cases own with
    | some p =>
      cases h
      exact within_some.2 (within_pair.2 ⟨within_plain, within_some.1 hown⟩)
    | none => exact ih hrest h

end Walk

end

end TypeInference
