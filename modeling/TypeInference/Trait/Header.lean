import TypeInference.Vars.Combine

/-!
# Matching headers

A header is a list of types to compare with a goal, the self type first. The answer has three
values: the goal matches, it cannot match, or it may once more of its variables are known.

The parameters of an impl are holes in its header. The first occurrence of a hole takes whatever the
goal has there; later ones are compared with that, and by then without any holes.
-/

namespace TypeInference

inductive Verdict where
  | no
  | maybe
  | yes
deriving DecidableEq, Repr

namespace Verdict

/-- The weaker of two verdicts. -/
def min : Verdict → Verdict → Verdict
  | .no, _ | _, .no => .no
  | .maybe, _ | _, .maybe => .maybe
  | .yes, .yes => .yes

def ofBool (b : Bool) : Verdict :=
  if b then .yes else .no

/-- Both verdicts together; the second is not asked for once the first is `no`. -/
def andM {m : Type → Type} [Monad m] (first second : m Verdict) : m Verdict := do
  match ← first with
  | .no => return .no
  | v => return v.min (← second)

end Verdict

/-- The verdict on types of which one is not determined, if one is not. A numeric variable is
compared before an unknown type: it may still become any type of its kind and no other. -/
def Ty.openVerdict? : Ty → Ty → Option Verdict
  | .var (.int _), t | t, .var (.int _) =>
    some (if t.isIntegral || t.isTyVar then .maybe else .no)
  | .var (.float _), t | t, .var (.float _) =>
    some (if t.isFloat || t.isTyVar then .maybe else .no)
  | .var (.ty _), _ | _, .var (.ty _) => some .maybe
  | .unknown, _ | _, .unknown => some .maybe
  | .projection .., _ | _, .projection .. => some .maybe
  | _, _ => none

mutual

/-- Compares a pattern with a goal. `hole` answers for the parameters that are holes. -/
def Ty.matchM {m : Type → Type} [Monad m] (hole : ParamId → Ty → Option (m Verdict)) :
    Ty → Ty → m Verdict
  | .param p, goal =>
    match hole p goal with
    | some verdict => verdict
    | none => pure (((Ty.param p).openVerdict? goal).getD (.ofBool (.param p == goal)))
  | .ref a m _, .ref b n _ =>
    if m = n then a.matchM hole b else pure .no
  | .ptr a m, .ptr b n =>
    if m = n then a.matchM hole b else pure .no
  | .array a m, .array b n =>
    if Vars.lengthsAgree m n then a.matchM hole b else pure .no
  | .slice a, .slice b => a.matchM hole b
  | .tuple as, .tuple bs =>
    if as.length = bs.length then Ty.matchListM hole as bs else pure .no
  | .fn as a, .fn bs b =>
    if as.length = bs.length then
      Verdict.andM (Ty.matchListM hole as bs) (a.matchM hole b)
    else pure .no
  | .adt i as, .adt j bs =>
    if i = j ∧ as.length = bs.length then Ty.matchListM hole as bs else pure .no
  | .dyn ⟨s, as, _⟩, .dyn ⟨t, bs, _⟩ =>
    if s = t ∧ as.length = bs.length then Ty.matchListM hole as bs else pure .no
  | pattern, goal => pure ((pattern.openVerdict? goal).getD (.ofBool (pattern == goal)))

/-- Compares patterns with goals pairwise, up to the first that cannot match. -/
def Ty.matchListM {m : Type → Type} [Monad m] (hole : ParamId → Ty → Option (m Verdict)) :
    List Ty → List Ty → m Verdict
  | a :: as, b :: bs => Verdict.andM (a.matchM hole b) (Ty.matchListM hole as bs)
  | _, _ => pure .yes

end

namespace Header

def compare (header goal : List Ty) : Verdict :=
  Id.run (Ty.matchListM (fun _ _ => none) header goal)

/-- What the holes of a header stand for so far. -/
abbrev Holes := List (ParamId × Ty)

/-- A hole takes the goal at its first occurrence and is compared with what it took at later
ones. -/
def fill (params : List ParamId) (p : ParamId) (goal : Ty) : Option (StateM Holes Verdict) :=
  if params.contains p then
    some do
      match (← get).lookup p with
      | some taken => return compare [taken] [goal]
      | none =>
        modify ((p, goal) :: ·)
        return .yes
  else
    none

def matchGoal (params : List ParamId) (header goal : List Ty) : Verdict :=
  ((Ty.matchListM (fill params) header goal).run []).1

end Header

end TypeInference
