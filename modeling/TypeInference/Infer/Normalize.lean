import TypeInference.Infer.Basic

/-!
# Normalizing associated types

Normalizing a projection finds the impl, where-clause or bound that satisfies its trait reference
and reads the associated type there, which may contain projections in turn. `normalizeWithin` ties
this knot: everything before it takes the normalization of inner projections as the argument
`inner`.

A projection whose trait reference cannot be decided yet has no normal form. Where one is needed all
the same, a fresh variable stands in for it, tied to the projection by an obligation.
-/

namespace TypeInference.Infer

/-- A way to normalize projections at a given depth; `none` while it is not decided how. -/
abbrev Normalizer := Projection → Nat → Infer (Option (Normalized Ty))

/-! ## Types that contain projections -/

/-- The normal form of a projection, or a variable in its place. -/
def standIn (inner : Normalizer) (p : Projection) (depth : Nat) : Infer (Normalized Ty) := do
  match ← inner p depth with
  | some result => return result
  | none =>
    let v ← freshTy
    return ⟨v, [.ofProjection (← Obligation.deeper depth) p v]⟩

/-- Replaces a projection by its normal form and collects the obligations that come with it. -/
def normalizeNode (inner : Normalizer) (depth : Nat) : Ty → StateT (List Obligation) Infer Ty
  | .projection self trait args name => do
    let result ← standIn inner ⟨⟨self, trait, args⟩, name⟩ depth
    modify (· ++ result.obligations)
    return result.value
  | t => pure t

/-- Normalizes every projection inside a type, innermost first. -/
def normalizeTyWith (inner : Normalizer) (t : Ty) (depth : Nat) : Infer (Normalized Ty) := do
  if t.any Ty.isProjection then
    let (value, obligations) ← (t.mapM (normalizeNode inner depth)).run []
    return ⟨value, obligations⟩
  else
    return .plain t

def normalizeListWith (inner : Normalizer) (ts : List Ty) (depth : Nat) :
    Infer (Normalized (List Ty)) := do
  let results ← ts.mapM (normalizeTyWith inner · depth)
  return ⟨results.map (·.value), results.flatMap (·.obligations)⟩

def normalizeTraitRefWith (inner : Normalizer) (r : TraitRef) (depth : Nat) :
    Infer (Normalized TraitRef) := do
  let self ← normalizeTyWith inner r.self depth
  let args ← normalizeListWith inner r.args depth
  return ⟨⟨self.value, r.trait, args.value⟩, self.obligations ++ args.obligations⟩

/-! ## Where-clauses -/

/-- The obligation that an associated-type binding of a bound on `goal` makes. -/
def instantiateAssoc (inner : Normalizer) (goal : TraitRef) (depth : Nat) (a : Assoc) :
    Infer (List Obligation) := do
  let ty ← normalizeTyWith inner a.ty depth
  return ty.obligations ++ [.ofProjection depth ⟨goal, a.name⟩ ty.value]

/-- The obligations of one where-clause: its associated types before its trait. -/
def instantiateBound (inner : Normalizer) (subst : Subst) (depth : Nat) (p : WherePredicate) :
    Infer (List Obligation) := do
  let bound := subst.applyBound p.bound
  let goal ← normalizeTraitRefWith inner (bound.withSelf (subst.apply p.self)) depth
  let assocs ← bound.assoc.mapM (instantiateAssoc inner goal.value depth)
  return goal.obligations ++ assocs.flatten ++ [.ofTrait depth goal.value]

def instantiateBoundsWith (inner : Normalizer) (bounds : List WherePredicate) (subst : Subst)
    (depth : Nat) : Infer (List Obligation) := do
  return (← bounds.mapM (instantiateBound inner subst depth)).flatten

/-! ## Reading the associated type -/

/-- The trait reference of an impl with fresh variables for its parameters. -/
def instantiateHeader (impl : Impl) : Infer (Option (Subst × TraitRef)) := do
  match impl.traitRef with
  | some (trait, args) =>
    let subst ← freshSubst impl.generics
    return some (subst, ⟨subst.apply impl.self, trait, subst.applyList args⟩)
  | none => return none

/-- The associated type an impl gives to the projection. -/
def projectImpl (inner : Normalizer) (impl : Impl) (p : Projection) (depth : Nat) :
    Infer (Selection (Option (Normalized Ty))) := do
  let some assoc := impl.assocTy? p.name | return .err
  let some (subst, header) ← instantiateHeader impl | return .err
  if ← combineTraitRefs header p.traitRef then
    let bounds ← instantiateBoundsWith inner impl.generics.bounds subst depth
    let subst := subst.insert .self p.self
    let ty ← normalizeTyWith inner (subst.apply assoc) (← Obligation.deeper depth)
    return .ok (some ⟨ty.value, bounds ++ ty.obligations⟩)
  else
    return .err

/-- The associated type a bound gives to the projection, if it binds it. -/
def projectBound (bound : Bound) (p : Projection) :
    Infer (Selection (Option (Normalized Ty))) := do
  let goal := p.traitRef
  let agrees ← if bound.args.length = goal.args.length then combinePairs bound.args goal.args
    else pure true
  if agrees then
    return .ok ((bound.assocTy? p.name).map .plain)
  else
    return .err

/-- The result type of a function, seen as the output of the callable traits. -/
def projectBuiltin (p : Projection) : Infer (Selection (Option (Normalized Ty))) := do
  match p.self with
  | .fn params ret =>
    if p.name = "Output" then
      if let some args := p.traitRef.args.head? then
        unify (.tuple params) args
      return .ok (some (.plain ret))
    else
      return .ok none
  | _ => return .ok none

/-- Reads the associated type where the trait reference is satisfied. The answer `ok none` means
that the trait holds but the type can only be named. -/
def project (inner : Normalizer) (p : Projection) (depth : Nat) :
    Infer (Selection (Option (Normalized Ty))) := do
  match ← selectGoal p.traitRef with
  | .ok (.impl id) => projectImpl inner (← (← read).items.impl id) p depth
  | .ok (.param bound) => projectBound bound p
  | .ok (.object bound) => projectBound bound p
  | .ok .builtin => projectBuiltin p
  | .err => return .err
  | .ambiguous => return .ambiguous

/-! ## The cache -/

def cachePut (p : Projection) (entry : CacheEntry) : Infer Unit :=
  modify fun s => { s with cache := s.cache.insert p entry }

/-- Marks an absent projection as in progress, or gives the entry that is there. -/
def cacheStart (p : Projection) : Infer (Option CacheEntry) := do
  let s ← get
  let (found, cache) := s.cache.start p
  set { s with cache }
  return found

/-- Whether a predicate has variables left once it is resolved. -/
def isOpenPredicate (p : Predicate) : Infer Bool := do
  let p ← readVars fun vs => p.mapM (vs.resolveNode .var)
  return p.subterms.any Ty.isVar

/-- What the cache keeps of a result: obligations only while the type is open, and then only those
that can still determine it. -/
def forCache (result : Normalized Ty) : Infer (Normalized Ty) := do
  if ← isOpen result.value then
    let kept ← result.obligations.filterM fun o =>
      if o.predicate.isProjection then isOpenPredicate o.predicate else pure false
    return ⟨result.value, kept⟩
  else
    return .plain result.value

/-- Uses the entry of a projection that the cache knows. A type without open variables no longer
needs its obligations. -/
def answerFromCache (p : Projection) : CacheEntry → Infer (Option (Normalized Ty))
  | .ambiguous => return none
  | .inProgress | .error => return some (.plain .unknown)
  | .normalized cached => do
    if ← isOpen cached.value then
      return some cached
    else
      cachePut p (.normalized (.plain cached.value))
      return some (.plain cached.value)

/-- Stores what was found for a projection. -/
def remember (p : Projection) : Selection (Option (Normalized Ty)) → Infer (Option (Normalized Ty))
  | .ok (some result) => do
    cachePut p (.normalized (← forCache result))
    return some result
  | .ok none => do
    cachePut p (.normalized (.plain p.toTy))
    return some (.plain p.toTy)
  | .err => do
    cachePut p .error
    return some (.plain .unknown)
  | .ambiguous => do
    cachePut p .ambiguous
    return none

/-- Normalizes a projection with at most `n` levels of projections inside projections. -/
def normalizeWithin : Nat → Normalizer
  | 0, _, _ => throw .exhausted
  | n + 1, p, depth => do
    let p ← readVars (·.resolveProjection p)
    if p.self.isTyVar then
      return none
    match ← cacheStart p with
    | some entry => answerFromCache p entry
    | none => remember p (← project (normalizeWithin n) p depth)

/-! ## The operations -/

/-- The normal form of a projection, or `none` while it is not decided. -/
def normalize? : Normalizer := fun p depth => do
  normalizeWithin (← read).fuel.nesting p depth

def normalizeProjection (p : Projection) (depth : Nat) : Infer (Normalized Ty) :=
  standIn normalize? p depth

def normalizeTy (t : Ty) (depth : Nat) : Infer (Normalized Ty) :=
  normalizeTyWith normalize? t depth

def instantiateBounds (bounds : List WherePredicate) (subst : Subst) (depth : Nat) :
    Infer (List Obligation) :=
  instantiateBoundsWith normalize? bounds subst depth

def normalized (t : Ty) : Infer Ty := do
  let result ← normalizeTy t 0
  register result.obligations
  return result.value

def normalizedList (ts : List Ty) : Infer (List Ty) := do
  let result ← normalizeListWith normalize? ts 0
  register result.obligations
  return result.value

/-- The normal form of a projection, or a variable in its place, with the obligations registered. -/
def projected (p : Projection) : Infer Ty := do
  let result ← normalizeProjection p 0
  register result.obligations
  return result.value

end TypeInference.Infer
