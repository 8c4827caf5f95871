import TypeInference.Infer.Normalize

/-!
# Deciding obligations

A round tries every waiting obligation once. One that is decided is replaced by the obligations it
leads to, one that fails is dropped, and one that cannot be decided waits on. Rounds go on until one
of them decides nothing. Obligations that lead to obligations for ever are cut off by their depth.
-/

namespace TypeInference.Infer

/-- What became of an obligation. -/
inductive Progress where
  /-- Decided; these take its place. -/
  | decided (nested : List Obligation)
  | stalled
  | failed

/-! ## One obligation -/

/-- Unifies a goal with what selection found. The answer is what has to hold in turn, or `none` when
the two do not agree. -/
def confirm (goal : TraitRef) (source : Source) (depth : Nat) :
    Infer (Option (List Obligation)) := do
  match source with
  | .impl id =>
    let impl ← (← read).items.impl id
    let some (subst, header) ← instantiateHeader impl | return none
    if ← combineTraitRefs header goal then
      return some (← instantiateBounds impl.generics.bounds subst depth)
    else
      return none
  | .param bound | .object bound =>
    if bound.args.length = goal.args.length then
      return if ← combinePairs bound.args goal.args then some [] else none
    else
      return none
  | .builtin =>
    match goal.self, goal.args.head? with
    | .fn params _, some args => return if ← combine (.tuple params) args then some [] else none
    | _, _ => return some []

def process (o : Obligation) : Infer Progress := do
  if o.depth > (← read).config.recursionLimit then
    return .failed
  match o.predicate with
  | .trait goal =>
    let goal ← resolveTraitRef goal
    match ← selectGoal goal with
    | .ok source =>
      match ← confirm goal source (← Obligation.deeper o.depth) with
      | some nested => return .decided nested
      | none => return .failed
    | .err => return .failed
    | .ambiguous => return .stalled
  | .projection p ty =>
    match ← normalize? p (← Obligation.deeper o.depth) with
    | none => return .stalled
    | some result =>
      return if ← combine result.value ty then .decided result.obligations else .failed

/-! ## Rounds -/

/-- The obligations a round leaves. -/
structure Round where
  /-- Whether any obligation was decided or failed. -/
  progress : Bool
  stalled : List Obligation
  nested : List Obligation

/-- Tries each obligation once, in order. With `strict`, the first failure ends the round. -/
def round (strict : Bool) : List Obligation → Infer (Option Round)
  | [] => return some ⟨false, [], []⟩
  | o :: rest => do
    match ← process o with
    | .decided nested =>
      let some r ← round strict rest | return none
      return some { r with progress := true, nested := nested ++ r.nested }
    | .stalled =>
      let some r ← round strict rest | return none
      return some { r with stalled := o :: r.stalled }
    | .failed =>
      if strict then
        return none
      let some r ← round strict rest | return none
      return some { r with progress := true }

/-- At most `n` rounds on a queue. The answer says whether none of its obligations failed (with
`strict`, otherwise it is true) and gives those that wait on. -/
def settleWithin (strict : Bool) : Nat → List Obligation → Infer (Bool × List Obligation)
  | 0, _ => throw .exhausted
  | n + 1, queue => do
    if queue.isEmpty then
      return (true, [])
    match ← round strict queue with
    | none => return (false, [])
    | some r =>
      let queue := r.stalled ++ r.nested
      if r.progress then settleWithin strict n queue else return (true, queue)

def settle (strict : Bool) (queue : List Obligation) : Infer (Bool × List Obligation) := do
  settleWithin strict (← read).fuel.rounds queue

/-- Decides every pending obligation that can be decided now. -/
def settlePending : Infer Unit := do
  let queue := (← get).pending
  modify fun s => { s with pending := [] }
  let (_, waiting) ← settle false queue
  modify fun s => { s with pending := waiting ++ s.pending }

/-- Resolves a type; if variables are left, the pending obligations may determine them. -/
def resolveSettled (t : Ty) : Infer Ty := do
  let t ← resolve t
  if t.hasVar then
    settlePending
    resolve t
  else
    return t

/-- Whether a type can be the self type of an impl with all where-clauses of the impl holding. -/
def implHolds (id : ImplId) (self : Ty) : Infer Bool := do
  let impl ← (← read).items.impl id
  probe do
    let subst ← freshSubst impl.generics
    if ← combine self (subst.apply impl.self) then
      let bounds ← instantiateBounds impl.generics.bounds subst 0
      return (← settle true bounds).1
    else
      return false

end TypeInference.Infer
