import TypeInference.Proofs.Operations

/-!
# The inference steps of a walk

Between the nodes it visits, a walk only infers. These steps are regular, so they record no types
and fail only with what their parts fail with.
-/

namespace TypeInference

/-! ## Faults -/

namespace Walk

variable {E : Fault → Prop} (hE : ∀ entity i, entity ≠ .variable → E (.dangling entity i))

include hE

theorem ownField?_failsWith (items : Items) (name : FieldName) (ty : Ty) :
    FailsWith E (ownField? items name ty) := by
  unfold ownField?
  split
  · refine (entry_failsWith (hE _ _ (by decide))).bind fun adt => ?_
    split
    · exact .ok _
    · exact .ok _
  · split
    · exact .ok _
    · exact .ok _
  · exact .ok _

theorem fieldFrom_failsWith (items : Items) (name : FieldName) (depth : Nat) (steps : List Ty) :
    FailsWith E (fieldFrom items name depth steps) := by
  induction steps generalizing depth with
  | nil => exact .ok _
  | cons step rest ih =>
    refine (ownField?_failsWith hE items name step).bind fun found => ?_
    cases found with
    | some _ => exact .ok _
    | none => exact ih _

theorem looksThrough_failsWith (body : Body) (pat : Pat) : FailsWith E (looksThrough body pat) := by
  unfold looksThrough
  split
  case h_7 id =>
    refine (Body.expr_failsWith hE body id).bind fun e => ?_
    split
    · exact .ok _
    · exact .ok _
    · exact .ok _
  all_goals exact .ok _

end Walk

/-! ## Steps -/

namespace Infer.Orderly

variable {scope : Scope} {E : Fault → Prop} {K : Atoms}
  {W : Var → Prop} {t ty lhs rhs base container index : Ty} {trait : TraitId} {name : String}
  {expr : ExprId}

/-! ## Expectations and literals -/

variable {expected : Option Ty}

theorem plainInt [Reports K] (h : Within W expected) :
    Orderly scope E K W (Walk.plainInt expected) := by
  unfold Walk.plainInt
  split
  · exact pure Ty.within_int
  · exact pure (within_some.1 h)
  · exact pure Ty.within_int
  · exact pure Ty.within_int
  · exact pure Ty.within_int
  · exact freshInt

theorem plainFloat [Reports K] (h : Within W expected) :
    Orderly scope E K W (Walk.plainFloat expected) := by
  unfold Walk.plainFloat
  split
  · exact pure Ty.within_float
  · exact pure (within_some.1 h)
  · exact freshFloat

theorem literal [Reports K] {lit : Literal} (h : Within W expected) :
    Orderly scope E K W (Walk.literal lit expected) := by
  unfold Walk.literal
  split
  · exact pure Ty.within_bool
  · exact pure Ty.within_char
  · exact pure Ty.within_int
  · exact pure Ty.within_staticStr
  · exact pure (Ty.within_ref.2 (Ty.within_array.2 Ty.within_int))
  · exact pure Ty.within_int
  · exact plainInt h
  · exact pure Ty.within_float
  · exact plainFloat h

variable [Basis scope E K] {args steps : List Ty} {derefs n : Nat} {output var : Ty}
  {declared previous : Option Ty}

theorem expectation (h : Within W expected) : Orderly scope E K W (Walk.expectation expected) := by
  unfold Walk.expectation
  split
  · exact pure within_none
  · exact pure within_none
  · exact (head (within_some.1 h)).bind fun _ _ ht => pure (within_some.2 ht)

/-! ## Associated types -/

theorem within_goalOf (ht : Within W t) : Within W (⟨⟨t, trait, []⟩, name⟩ : Projection) :=
  within_projection.2 (within_traitRef.2 ⟨ht, within_nil⟩)

theorem within_assocGoal (ht : Within W t) (hty : Within W ty) :
    Within W [Obligation.ofProjection 0 ⟨⟨t, trait, []⟩, name⟩ ty] :=
  within_singleton.2 (within_ofProjection.2 ⟨within_goalOf ht, hty⟩)

theorem assocOf [Files K] (ht : Within W t) (trait : TraitId) (name : String) :
    Orderly scope E K W (Walk.assocOf t trait name) :=
  projected (within_goalOf ht)

theorem fallibleAssocs [Files K] (hbase : Within W base) (fallible : Option TraitId) :
    Orderly scope E K W (match fallible with
      | some trait => do
        let ok ← Walk.assocOf base trait "Ok"
        let error ← Walk.assocOf base trait "Error"
        return (some ok, some error)
      | none => return (none, none) : Infer (Option Ty × Option Ty)) := by
  cases fallible with
  | some trait =>
    refine (assocOf hbase trait "Ok").bind fun ok hW hok => ?_
    refine (assocOf (hbase.mono hW) trait "Error").bind fun error hW' herror => pure ?_
    exact within_pair.2 ⟨within_some.2 (hok.mono hW'), within_some.2 herror⟩
  | none => exact pure (within_pair.2 ⟨within_none, within_none⟩)

theorem fallibleParts [Files K] (hbase : Within W base) :
    Orderly scope E K W (Walk.fallibleParts base) := by
  refine readBind rfl fun _ => ?_
  have hthrough : Orderly scope E K W _ := fallibleAssocs hbase scope.known.fallible
  split
  · have hargs := Ty.within_adt.1 hbase
    refine of_ite (pure (within_pair.2 ⟨hargs.head?, within_none⟩)) (of_ite ?_ hthrough)
    exact pure (within_pair.2 ⟨hargs.head?, hargs.getElem? 1⟩)
  · exact pure (within_pair.2 ⟨within_none, within_none⟩)
  · exact pure (within_pair.2 ⟨within_none, within_none⟩)
  · exact hthrough

theorem itemTy [Files K] (ht : Within W t) : Orderly scope E K W (Walk.itemTy t) := by
  refine readBind rfl fun _ => ?_
  split
  · next trait _ =>
    refine of_ite (pure Ty.within_unknown) ?_
    exact (assocOf ht trait "Item").bind fun _ _ h => resolveSettled h
  · exact pure Ty.within_unknown

/-! ## Variants and patterns -/

theorem meetExpectedAdt {id : AdtId} (hargs : Within W args) (h : Within W expected) :
    Orderly scope E K W (Walk.meetExpectedAdt id args expected) := by
  unfold Walk.meetExpectedAdt
  split
  · exact of_ite (combinePairs hargs (Ty.within_adt.1 (within_some.1 h))).discard (pure within_plain)
  · exact pure within_plain

/-- The fields that a pattern is matched with. -/
theorem variantShape [Reports K] {id : PatId} (ht : Within W t) :
    Orderly scope E K W (Walk.variantShape id t) := by
  refine readBind rfl fun hscope => ?_
  have hvariant := hscope.names.variant? (W := W) (.pat id)
  split
  · exact pure within_none
  · next variant explicit hfound =>
    rw [hfound] at hvariant
    have hexplicit := (within_some.1 hvariant).snd
    refine (instantiateAdt hexplicit).bind fun found hW₁ hfound => ?_
    obtain ⟨adt, subst, args⟩ := found
    obtain ⟨hadt, hrest⟩ := within_pair.1 hfound
    obtain ⟨hsubst, hargs⟩ := within_pair.1 hrest
    have hpat : Within _ (Ty.adt variant.adt args) := Ty.within_adt.2 hargs
    have hshape : Within _ ((adt.shape? variant).map (·, subst)) :=
      (hadt.shape? variant).optionMap fun shape hshape => within_pair.2 ⟨hshape, hsubst⟩
    refine (combine (ht.mono hW₁) hpat).bind fun ok hW₂ _ => of_ite (pure (hshape.mono hW₂)) ?_
    refine (reportMismatch (ht.mono (hW₁.trans hW₂)) (hpat.mono hW₂)).andThen fun _ => ?_
    exact pure (hshape.mono hW₂)

theorem tupleParts (ht : Within W t) : Orderly scope E K W (Walk.tupleParts t n) := by
  have hunknown {W' : Var → Prop} : Within W' (List.replicate n Ty.unknown) := by
    refine within_list.2 fun u hu => ?_
    rw [List.eq_of_mem_replicate hu]
    exact Ty.within_unknown
  unfold Walk.tupleParts
  split
  · refine pure ?_
    split
    · exact Ty.within_tuple.1 ht
    · exact hunknown
  · refine (mapM fun _ _ _ => freshTy).bind fun elems hW helems => ?_
    refine (unify (ht.mono hW) (Ty.within_tuple.2 helems)).andThen fun _ => ?_
    exact pure helems
  · exact pure hunknown

theorem refPart (ht : Within W t) {mutability : Mutability} :
    Orderly scope E K W (Walk.refPart t mutability) := by
  unfold Walk.refPart
  split
  · exact pure (Ty.within_ref.1 ht)
  · refine freshTy.bind fun pointee hW hpointee => ?_
    refine (unify (ht.mono hW) (Ty.within_reference.2 hpointee)).andThen fun _ => ?_
    exact pure hpointee
  · exact pure Ty.within_unknown

/-! ## Operators, indexing and ranges -/

theorem within_operatorGoal (trait : TraitId) (hlhs : Within W lhs) (hrhs : Within W rhs) :
    Within W (⟨lhs, trait, [rhs]⟩ : TraitRef) :=
  within_traitRef.2 ⟨hlhs, within_singleton.2 hrhs⟩

omit [Basis scope E K] in
theorem registerOperator [Files K] {trait : Option TraitId} (hlhs : Within W lhs)
    (hrhs : Within W rhs) :
    Orderly scope E K W (Walk.registerOperator trait lhs rhs) := by
  cases trait with
  | some trait =>
    exact register (within_singleton.2 (within_ofTrait.2 (within_operatorGoal trait hlhs hrhs)))
  | none => exact pure within_plain

theorem operatorOutput [Files K] {trait : Option TraitId} (hlhs : Within W lhs)
    (hrhs : Within W rhs) :
    Orderly scope E K W (Walk.operatorOutput trait lhs rhs) := by
  cases trait with
  | some trait =>
    have hgoal := within_operatorGoal trait hlhs hrhs
    refine (register (within_singleton.2 (within_ofTrait.2 hgoal))).andThen fun _ => ?_
    exact projected (within_projection.2 hgoal)
  | none => exact pure Ty.within_unknown

theorem arithResult {op : ArithOp} (hlhs : Within W lhs) (hrhs : Within W rhs)
    (houtput : Within W output) : Orderly scope E K W (Walk.arithResult op lhs rhs output) := by
  have hlast {W' : Var → Prop} (hW : W ≤ W') : Orderly scope E K W' (if output.isUnknown then
      Pure.pure lhs else do
        Infer.unify lhs output
        Pure.pure output : Infer Ty) := by
    refine of_ite (pure (hlhs.mono hW)) ?_
    refine (unify (hlhs.mono hW) (houtput.mono hW)).andThen fun _ => ?_
    exact pure (houtput.mono hW)
  refine of_ite (of_ite (hlast le_rfl) ?_) (pure houtput)
  exact (unify hlhs hrhs).bind fun _ hW _ => hlast hW

/-- Arrays and slices are indexed without a trait. -/
theorem builtinIndex (hcontainer : Within W container) (hindex : Within W index) :
    Orderly scope E K W (Walk.builtinIndex container index) := by
  refine readBind rfl fun _ => ?_
  have helement {elem : Ty} (isRange : Bool) (helem : Within W elem) :
      Orderly scope E K W (if index.isIntegral then do
        Infer.unify index (.int .usize)
        return some elem
      else return if isRange then some (.slice elem) else none : Infer (Option Ty)) := by
    refine of_ite ?_ (pure ?_)
    · exact (unify hindex Ty.within_int).andThen fun _ => pure (within_some.2 helem)
    · split
      · exact within_some.2 (Ty.within_slice.2 helem)
      · exact within_none
  have hstr (isRange : Bool) : Within W (if isRange then some Ty.str else none) := by
    cases isRange with
    | true => exact within_some.2 Ty.within_str
    | false => exact within_none
  dsimp only
  split
  · exact helement _ (Ty.within_array.1 hcontainer)
  · exact helement _ (Ty.within_slice.1 hcontainer)
  · exact pure (hstr _)
  · exact pure within_none

/-- Other types are indexed through the trait. -/
theorem overloadedIndex [Files K] (hcontainer : Within W container) (hindex : Within W index) :
    Orderly scope E K W (Walk.overloadedIndex container index) := by
  refine readBind rfl fun _ => ?_
  split
  · next trait _ =>
    have hgoal := within_operatorGoal trait hcontainer hindex
    refine (normalize? (within_projection.2 hgoal)).bind fun result hW₁ hresult => ?_
    split
    · next result =>
      obtain ⟨hvalue, hobligations⟩ := within_normalized.1 (within_some.1 hresult)
      split
      · exact pure within_none
      · exact pure within_none
      · refine (register hobligations).andThen fun _ => ?_
        have hgoal := hgoal.mono hW₁
        refine (register (within_singleton.2 (within_ofTrait.2 hgoal))).andThen fun _ => ?_
        exact pure (within_some.2 hvalue)
    · exact pure within_none
  · exact pure within_none

theorem indexOutput [Files K] (hcontainer : Within W container) (hindex : Within W index) :
    Orderly scope E K W (Walk.indexOutput container index) := by
  refine (head hindex).bind fun index hW₁ hindex => ?_
  refine (builtinIndex (hcontainer.mono hW₁) hindex).bind fun output hW₂ houtput => ?_
  cases output with
  | some output => exact pure houtput
  | none => exact overloadedIndex (hcontainer.mono (hW₁.trans hW₂)) (hindex.mono hW₂)

theorem indexFrom [Files K] (hindex : Within W index) (hsteps : Within W steps) :
    Orderly scope E K W (Walk.indexFrom index previous derefs steps) := by
  induction steps generalizing W previous derefs with
  | nil => exact pure within_none
  | cons step rest ih =>
    obtain ⟨hstep, hrest⟩ := within_cons.1 hsteps
    refine (indexOutput hstep hindex).bind fun output hW houtput => ?_
    cases output with
    | some output =>
      exact pure (within_some.2 (within_pair.2 ⟨within_some.1 houtput, within_plain⟩))
    | none => exact ih (hindex.mono hW) (hrest.mono hW)

theorem indexThrough [Notes K] (hbase : Within W base) (hindex : Within W index) :
    Orderly scope E K W (Walk.indexThrough expr base index) := by
  refine (derefSequence hbase).bind fun steps hW₁ hsteps => ?_
  refine (indexFrom (hindex.mono hW₁) hsteps).bind fun found hW₂ hfound => ?_
  split
  · next output derefs =>
    have houtput := (within_pair.1 (within_some.1 hfound)).1
    refine of_ite ?_ (pure houtput)
    refine (adjust (within_derefsTo (hsteps.mono hW₂) derefs)).andThen fun _ => ?_
    exact pure houtput
  · exact pure Ty.within_unknown

omit [Basis scope E K] in
theorem borrowIndex [Notes K] (hindex : Within W index) :
    Orderly scope E K W (Walk.borrowIndex expr index) := by
  unfold Walk.borrowIndex
  split
  · exact adjust (within_singleton.2 (within_borrowRef.2 hindex))
  · exact pure within_plain

theorem rangeEnds {lhs rhs : Option Ty} (hlhs : Within W lhs) (hrhs : Within W rhs) :
    Orderly scope E K W (Walk.rangeEnds lhs rhs) := by
  unfold Walk.rangeEnds
  split
  · have hends := within_cons.2 ⟨within_some.1 hlhs, within_singleton.2 (within_some.1 hrhs)⟩
    exact (join hends).bind fun _ _ h => pure (within_some.2 h)
  · cases lhs with
    | some a => exact pure hlhs
    | none => exact pure hrhs

/-! ## Calls and closures -/

theorem isFieldlessCtor {callee : ExprId} : Orderly scope E K W (Walk.isFieldlessCtor callee) := by
  refine readBind rfl fun hscope => pathOf.andThen fun values => ?_
  split
  · exact entryBind hscope.adts (by decide) fun _ _ => pure within_plain
  · exact entryBind hscope.adts (by decide) fun _ _ => pure within_plain
  · exact pure within_plain

/-- What an obligation says of the signature of a closure. -/
theorem addClue {known : WellKnown} {clues : Walk.SignatureClues} {p : Predicate}
    (hclues : Within W clues) (hp : Within W p) : Orderly scope E K W (clues.add known var p) := by
  obtain ⟨hparams, hret⟩ := within_signatureClues.1 hclues
  cases p with
  | trait goal =>
    obtain ⟨hself, hargs⟩ := within_traitRef.1 (within_trait.1 hp)
    refine of_ite ?_ (pure hclues)
    refine (head hself).bind fun self hW₁ _ => of_ite ?_ (pure (hclues.mono hW₁))
    refine (optionMapM (hargs.head?.mono hW₁) fun _ h => resolve h).bind fun arg hW₂ harg => ?_
    split
    · refine pure (within_signatureClues.2 ⟨within_some.2 ?_, hret.mono (hW₁.trans hW₂)⟩)
      exact Ty.within_tuple.1 (within_some.1 harg)
    · exact pure (hclues.mono (hW₁.trans hW₂))
  | projection p ty =>
    obtain ⟨hprojection, hty⟩ := within_projectionPredicate.1 hp
    refine of_ite ?_ (pure hclues)
    have hself := (within_traitRef.1 (within_projection.1 hprojection)).1
    refine (head hself).bind fun self hW₁ _ => of_ite ?_ (pure (hclues.mono hW₁))
    exact pure (within_signatureClues.2 ⟨hparams.mono hW₁, within_some.2 (hty.mono hW₁)⟩)

theorem pendingSignature? (hvar : Within W var) :
    Orderly scope E K W (Walk.pendingSignature? var) := by
  refine readBind rfl fun _ => ?_
  refine (head hvar).bind fun var _ _ => stateBind (fun _ _ => rfl) fun s _ hs => ?_
  have hnone {W' : Var → Prop} : Within W' ({} : Walk.SignatureClues) :=
    within_signatureClues.2 ⟨within_none, within_none⟩
  refine (foldlM hnone fun clues o hW ho hclues => ?_).bind fun clues _ hclues => pure ?_
  · exact addClue hclues (within_obligation.1 ((hs.pending.mem ho).mono hW))
  · obtain ⟨hparams, hret⟩ := within_signatureClues.1 hclues
    refine hparams.optionMap fun params hparams => ?_
    exact within_signature.2 ⟨hparams, hret.getD Ty.within_unknown⟩

theorem expectedSignature? (h : Within W expected) :
    Orderly scope E K W (Walk.expectedSignature? expected) := by
  unfold Walk.expectedSignature?
  split
  · exact pure (within_some.2 (within_signature.2 (Ty.within_fn.1 (within_some.1 h))))
  · exact readBind rfl fun _ =>
      pure ((Ty.within_dyn.1 (within_some.1 h)).signature? scope.known)
  · refine readBind rfl fun _ => pure ?_
    exact (Ty.within_existential.1 (within_some.1 h)).findSignature? scope.known
  · exact pendingSignature? (within_some.1 h)
  · exact pure within_none

theorem closureRet [Files K] {sig : Signature} (hdeclared : Within W declared) (hsig : Within W sig) :
    Orderly scope E K W (Walk.closureRet declared sig) := by
  unfold Walk.closureRet
  split
  · refine (normalized (within_some.1 hdeclared)).bind fun _ _ h => pure ?_
    exact within_pair.2 ⟨h, within_plain⟩
  · refine of_ite (freshTy.bind fun _ _ h => pure (within_pair.2 ⟨h, within_plain⟩)) (pure ?_)
    exact within_pair.2 ⟨(within_signature.1 hsig).2, within_plain⟩

theorem unitUnlessAffected (ht : Within W t) : Orderly scope E K W (Walk.unitUnlessAffected t) := by
  unfold Walk.unitUnlessAffected Ty.asTyVar?
  split
  · next var hvar =>
    split at hvar
    · cases hvar
      refine (isAffected (Ty.within_var.1 ht)).andThen fun _ => ?_
      exact of_ite (pure ht) (pure Ty.within_unit)
    · cases hvar
  · exact pure ht

/-! ## Whole bodies -/

theorem valueTy [Files K] {owner : Owner} : Orderly scope E K W (Walk.valueTy owner) := by
  refine readBind rfl fun hscope => ?_
  split
  · refine entryBind hscope.consts (by decide) fun decl hdecl => ?_
    split
    · next ty hty =>
      have hty : Within W (some ty) := hty ▸ hdecl
      exact normalized (within_some.1 hty)
    · exact freshTy
  · exact entryBind hscope.adts (by decide) fun _ _ => pure Ty.within_int
  · exact pure Ty.within_int
  · exact pure Ty.within_int

end Infer.Orderly

namespace Infer.Regular

variable {scope : Scope} {E : Fault → Prop} {K : Atoms} {expr : ExprId}
  {t a b : Ty}

theorem combine [Fault.Admits E] : Regular scope E K (combine a b) :=
  (Orderly.combine within_true within_true).anyway

theorem adjust [Notes K] {adjustments : List Adjustment} :
    Regular scope E K (adjust expr adjustments) :=
  (Orderly.adjust within_true).anyway

theorem literal [Reports K] {lit : Literal} {expected : Option Ty} :
    Regular scope E K (Walk.literal lit expected) :=
  (Orderly.literal within_true).anyway

variable [Basis scope E K]

theorem resolveSettled [Files K] : Regular scope E K (resolveSettled t) :=
  (Orderly.resolveSettled within_true).anyway

theorem derefSequence [Files K] : Regular scope E K (derefSequence t) :=
  (Orderly.derefSequence within_true).anyway

theorem tryCoerce [Notes K] : Regular scope E K (tryCoerce expr a b) :=
  (Orderly.tryCoerce expr within_true within_true).anyway

theorem coerce [Reports K] : Regular scope E K (coerce expr a b) :=
  (Orderly.coerce within_true within_true).anyway

theorem variantShape [Reports K] {id : PatId} : Regular scope E K (Walk.variantShape id t) :=
  (Orderly.variantShape within_true).anyway

end Infer.Regular

/-! ## Results -/

theorem Infer.length_of_mapM {α β : Type} {scope : Scope} {f : α → Infer β} {xs : List α}
    {ys : List β} (h : Gives scope (xs.mapM f) ys) : ys.length = xs.length := by
  obtain ⟨s, s', h⟩ := h
  induction xs generalizing s ys with
  | nil =>
    cases h
    rfl
  | cons x xs ih =>
    rw [List.mapM_cons] at h
    obtain ⟨y, s₁, -, h⟩ := bind_eq_ok h
    obtain ⟨ys, s₂, hrest, ⟨⟩⟩ := bind_eq_ok h
    rw [List.length_cons, List.length_cons, ih s₁ hrest]

namespace Walk

open Infer

variable {scope : Scope} {expected : Option Ty} {ty : Ty}

theorem length_of_tupleParts {expected : Ty} {n : Nat} {elems : List Ty}
    (h : Infer.Gives scope (tupleParts expected n) elems) : elems.length = n := by
  obtain ⟨s, s', h⟩ := h
  unfold tupleParts at h
  split at h
  · cases h
    split
    · assumption
    · exact List.length_replicate
  · obtain ⟨elems, s₁, hfresh, h⟩ := Infer.bind_eq_ok h
    obtain ⟨_, s₂, -, ⟨⟩⟩ := Infer.bind_eq_ok h
    rw [length_of_mapM ⟨s, s₁, hfresh⟩, List.length_range]
  · cases h
    exact List.length_replicate

end Walk

end TypeInference
