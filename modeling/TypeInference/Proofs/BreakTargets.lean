import Mathlib.Data.List.Pairwise
import TypeInference.Proofs.BodyTrees
import TypeInference.Proofs.Reachable

/-!
# The targets of breaks

A `break` climbs from expression to expression until one accepts it: a loop whose body it comes
from, or if it has a label, the loop or block that carries the label. Past a closure it does not
climb (`Body.Targets`). A loop or block finds its `break`s by a search from above (`Body.Counted`),
which keeps no list of what encloses an expression.
-/

namespace TypeInference

open Relation

/-! ## Loops and labels -/

namespace Expr

/-- The part that a loop runs again and again. -/
def loopBody? : Expr → Option ExprId
  | .loop _ body | .whileLoop _ _ body | .forLoop _ _ _ body => some body
  | _ => none

/-- A loop, or a block with a label. -/
def isJumpTarget (e : Expr) : Bool := e.loopBody?.isSome || e.label?.isSome

/-- A `break` that comes from a part ends here: the label that is written is this one, or if none is,
the part is the body of a loop. -/
def Accepts (e : Expr) (written : Option String) (part : ExprId) : Prop :=
  match written with
  | some name => e.label? = some name
  | none => e.loopBody? = some part

/-- A `break` does not end here but climbs further. -/
def Passes (e : Expr) (written : Option String) (part : ExprId) : Prop :=
  e.isClosure = false ∧ ¬ e.Accepts written part

/-- Whether the value of an expression is joined with those of `break`s, and if it is, whether
`break`s need a label to count. -/
def joinsBreaks? : Expr → Option Bool
  | .loop .. => some false
  | .block kind (some _) .. => if kind.isPlain then some true else none
  | _ => none

theorem joinsBreaks?_eq_some {e : Expr} {labelled : Bool} (h : e.joinsBreaks? = some labelled) :
    (∃ label part, e = .loop label part ∧ labelled = false) ∨
      ∃ kind name stmts tail, e = .block kind (some name) stmts tail ∧ labelled = true := by
  unfold joinsBreaks? at h
  split at h
  · cases h
    exact .inl ⟨_, _, rfl, rfl⟩
  · split at h
    · cases h
      exact .inr ⟨_, _, _, _, rfl, rfl⟩
    · cases h
  · cases h

theorem isClosure_of_label {e : Expr} {name : String} (h : e.label? = some name) :
    e.isClosure = false := by
  cases e with
  | closure => cases h
  | _ => rfl

end Expr

namespace Body

variable {body : Body} {owner : Owner} {id other b c d : ExprId} {x : Expr}
  {p q : Expr → ExprId → Prop} {written : Option String}

/-! ## Targets -/

/-- One expression is directly inside another, which has a property with respect to it. -/
def Step (body : Body) (p : Expr → ExprId → Prop) (outer inner : ExprId) : Prop :=
  ∃ x, body.expr outer = .ok x ∧ inner ∈ x.children ∧ p x inner

theorem Step.mono (h : body.Step p id c) (hpq : ∀ x c, p x c → q x c) : body.Step q id c := by
  obtain ⟨x, hx, hc, hp⟩ := h
  exact ⟨x, hx, hc, hpq x c hp⟩

/-- A way down, on which all that is left has a property. -/
abbrev Path (body : Body) (p : Expr → ExprId → Prop) : ExprId → ExprId → Prop :=
  ReflTransGen (body.Step p)

theorem Path.mono (h : body.Path p id b) (hpq : ∀ x c, p x c → q x c) : body.Path q id b :=
  ReflTransGen.mono (fun _ _ hstep => Step.mono hstep hpq) _ _ h

/-- A path avoids the steps in `q`, or has a last such step. -/
theorem Path.exists_last (q : Expr → ExprId → Prop) (h : body.Path p id b) :
    body.Path (fun x c => p x c ∧ ¬ q x c) id b ∨ ∃ c d, body.Path p id c ∧ body.Step q c d ∧
      body.Path (fun x c => p x c ∧ ¬ q x c) d b := by
  induction h with
  | refl => exact .inl .refl
  | @tail m b hpath hstep ih =>
    obtain ⟨x, hx, hb, hp⟩ := hstep
    by_cases hq : q x b
    · exact .inr ⟨m, b, hpath, ⟨x, hx, hb, hq⟩, .refl⟩
    · rcases ih with hnone | ⟨c, d, hfirst, hlast, hrest⟩
      · exact .inl (hnone.tail ⟨x, hx, hb, hp, hq⟩)
      · exact .inr ⟨c, d, hfirst, hlast, hrest.tail ⟨x, hx, hb, hp, hq⟩⟩

/-- The `break` at `b` ends at `id`: it comes from a part of `id`, and all between that part and `b`
passes it on. -/
def Targets (body : Body) (b id : ExprId) : Prop :=
  ∃ written value part, body.expr b = .ok (.breakLoop written value) ∧
    body.Step (·.Accepts written) id part ∧ body.Path (·.Passes written) part b

/-- The `break` at `b` ends at `id`, and if it has no label then no loop and no labelled block is in
between. -/
def TargetsInSight (body : Body) (b id : ExprId) : Prop :=
  ∃ written value part, body.expr b = .ok (.breakLoop written value) ∧
    body.Step (·.Accepts written) id part ∧ body.Path (fun x c =>
      x.Passes written c ∧ (written = none → x.isJumpTarget = false)) part b

/-- The `break` at `b` has the label of `id`, but ends at an expression inside `id`. -/
def Shadowed (body : Body) (b id : ExprId) : Prop :=
  ∃ name value part inner, body.expr b = .ok (.breakLoop (some name) value) ∧
    body.Step (·.Accepts (some name)) id part ∧
    body.Path (fun x _ => x.isClosure = false) part inner ∧ body.Targets b inner

/-- The expression is met on a walk of the body. -/
def IsPart (body : Body) (owner : Owner) (id : ExprId) : Prop :=
  ∃ entry ∈ body.entries owner, body.Reaches entry (.expr id)

theorem Step.isPart (h : body.Step p id c) (hid : body.IsPart owner id) : body.IsPart owner c := by
  obtain ⟨entry, hentry, hreaches⟩ := hid
  obtain ⟨x, hx, hmem, -⟩ := h
  refine ⟨entry, hentry, hreaches.tail ⟨_, parts_expr hx, ?_⟩⟩
  exact List.mem_append_left _ (List.mem_map_of_mem hmem)

theorem IsPart.of_path (hid : body.IsPart owner id) (h : body.Path p id c) :
    body.IsPart owner c := by
  induction h with
  | refl => exact hid
  | tail _ hstep ih => exact hstep.isPart ih

namespace TreeShaped

variable (h : body.TreeShaped owner)

include h

/-- In a tree an expression is directly inside one other at most. -/
theorem parent_unique (hid : body.IsPart owner id)
    (hother : body.IsPart owner other) (hstep : body.Step p id b) (hstep' : body.Step q other b) :
    id = other := by
  obtain ⟨nodes, hlists, hnodup⟩ := h
  have hparts := (List.nodup_append.1 (hlists.perm_parts.nodup_iff.1 hnodup)).2.1
  have hmem {o : ExprId} {p : Expr → ExprId → Prop} (ho : body.Step p o b) :
      Site.expr b ∈ (body.parts (.expr o)).toOption.getD [] := by
    obtain ⟨x, hx, hmem, -⟩ := ho
    rw [parts_expr hx]
    exact List.mem_append_left _ (List.mem_map_of_mem hmem)
  let partsAt (n : Site) : List Site := (body.parts n).toOption.getD []
  have : Std.Symm (Function.onFun List.Disjoint partsAt) := ⟨fun _ _ h => h.symm⟩
  by_contra hne
  have hdisjoint := (List.nodup_flatMap.1 hparts).2.forall (hlists.mem_iff.2 hid)
    (hlists.mem_iff.2 hother) fun heq => hne (Site.expr.inj heq)
  exact hdisjoint (hmem hstep) (hmem hstep')

theorem path_total (hc : body.IsPart owner c) (hd : body.IsPart owner d) (hpath : body.Path p c b)
    (hpath' : body.Path p d b) :
    body.Path p c d ∨ body.Path p d c := by
  induction hpath with
  | refl => exact .inr hpath'
  | @tail m b hfirst hlast ih =>
    rcases hpath'.cases_tail with rfl | ⟨m', hfirst', hlast'⟩
    · exact .inl (hfirst.tail hlast)
    · obtain rfl := h.parent_unique (hc.of_path hfirst) (hd.of_path hfirst') hlast hlast'
      exact ih hfirst'

/-- What is above a part that an expression accepts a `break` from does not pass the `break` on to
that part. -/
theorem eq_of_path (hid : body.IsPart owner id)
    (hother : body.IsPart owner other) (hstep : body.Step (·.Accepts written) id c)
    (hstep' : body.Step (·.Accepts written) other d) (hpath : body.Path (·.Passes written) c d) :
    other = id := by
  rcases hpath.cases_tail with rfl | ⟨m, hfirst, hlast⟩
  · exact h.parent_unique hother hid hstep' hstep
  · obtain rfl := h.parent_unique hother ((hstep.isPart hid).of_path hfirst) hstep' hlast
    obtain ⟨x, hx, -, haccepts⟩ := hstep'
    obtain ⟨x', hx', -, hpasses⟩ := hlast
    rw [hx] at hx'
    cases hx'
    exact absurd haccepts hpasses.2

/-- In a tree a `break` has one target at most. -/
theorem target_unique (hid : body.IsPart owner id)
    (hother : body.IsPart owner other) (htarget : body.Targets b id)
    (htarget' : body.Targets b other) : other = id := by
  obtain ⟨written, value, c, hb, hstep, hpath⟩ := htarget
  obtain ⟨written', value', d, hb', hstep', hpath'⟩ := htarget'
  rw [hb] at hb'
  cases hb'
  rcases h.path_total (hstep.isPart hid) (hstep'.isPart hother) hpath hpath' with hbelow | hbelow
  · exact h.eq_of_path hid hother hstep hstep' hbelow
  · exact (h.eq_of_path hother hid hstep' hstep hbelow).symm

end TreeShaped

/-! ## The search from above -/

/-- A search from `id` for the `break`s with label `label`, and unless `labelled` for those without,
finds the one at `b`. -/
def Counted (body : Body) (label : Option String) (labelled : Bool) (id b : ExprId) : Prop :=
  ∃ written value part, body.expr b = .ok (.breakLoop written value) ∧
    Infer.targets label written labelled = true ∧ body.Step (fun _ _ => True) id part ∧
    body.Path (fun x _ =>
      x.isClosure = false ∧ (written = none → x.isJumpTarget = false)) part b

/-- The search from above a part finds the `break` at `b` there: the part itself, or one inside. -/
def CountedAt (body : Body) (label : Option String) (labelled : Bool) (part b : ExprId) : Prop :=
  ∃ y, body.expr part = .ok y ∧
    ((b = part ∧ ∃ written value, y = .breakLoop written value ∧
        Infer.targets label written labelled = true) ∨
      (y.isClosure = false ∧ body.Counted label (labelled || y.isJumpTarget) part b))

variable {label : Option String} {labelled flag : Bool} {y : Expr}

theorem countedAt_iff (hy : body.expr c = .ok y) :
    body.CountedAt label labelled c b ↔
      (b = c ∧ ∃ written value, y = .breakLoop written value ∧
        Infer.targets label written labelled = true) ∨
      (y.isClosure = false ∧ body.Counted label (labelled || y.isJumpTarget) c b) := by
  constructor
  · rintro ⟨y', hy', h⟩
    rw [hy] at hy'
    cases hy'
    exact h
  · exact fun h => ⟨y, hy, h⟩

theorem not_counted_of_none : ¬ body.Counted none true id b := by
  rintro ⟨written, value, part, -, htargets, -⟩
  cases written with
  | none | some name => cases htargets

theorem targets_or : Infer.targets label written (labelled || flag) = true ↔
      Infer.targets label written labelled = true ∧ (written = none → flag = false) := by
  cases written with
  | none | some name => simp [Infer.targets]

/-- The search finds what it finds below one of the children. -/
theorem counted_iff_exists_part (hx : body.expr id = .ok x) :
    body.Counted label labelled id b ↔ ∃ part ∈ x.children, body.CountedAt label labelled part b := by
  constructor
  · rintro ⟨written, value, part, hb, htargets, ⟨x', hx', hmem, -⟩, hpath⟩
    rw [hx] at hx'
    cases hx'
    refine ⟨part, hmem, ?_⟩
    rcases hpath.cases_head with rfl | ⟨c, ⟨y, hy, hc, hclosure, hjump⟩, hrest⟩
    · exact ⟨_, hb, .inl ⟨rfl, written, value, rfl, htargets⟩⟩
    · exact ⟨y, hy, .inr ⟨hclosure, written, value, c, hb, targets_or.2 ⟨htargets, hjump⟩,
        ⟨y, hy, hc, trivial⟩, hrest⟩⟩
  · rintro ⟨part, hmem, y, hy, ⟨rfl, written, value, rfl, htargets⟩ | ⟨hclosure, written, value, c, hb,
      htargets, ⟨y', hy', hc, -⟩, hpath⟩⟩
    · exact ⟨written, value, b, hy, htargets, ⟨x, hx, hmem, trivial⟩, .refl⟩
    · rw [hy] at hy'
      cases hy'
      obtain ⟨htargets, hjump⟩ := targets_or.1 htargets
      exact ⟨written, value, part, hb, htargets, ⟨x, hx, hmem, trivial⟩,
        hpath.head ⟨y, hy, hc, hclosure, hjump⟩⟩

/-- What the search from a loop or labelled block finds is what targets it in sight, and what is
shadowed. -/
theorem counted_iff (hx : body.expr id = .ok x) (hkind : x.joinsBreaks? = some labelled) :
    body.Counted x.label? labelled id b ↔ body.TargetsInSight b id ∨ body.Shadowed b id := by
  constructor
  · rintro ⟨written, value, part, hb, htargets, ⟨x', hx', hmem, -⟩, hpath⟩
    rw [hx] at hx'
    cases hx'
    cases written with
    | none =>
      obtain ⟨_, _, rfl, -⟩ | ⟨_, _, _, _, -, rfl⟩ := Expr.joinsBreaks?_eq_some hkind
      · cases List.mem_singleton.1 hmem
        refine .inl ⟨none, value, part, hb, ⟨_, hx, hmem, rfl⟩, hpath.mono ?_⟩
        intro y c ⟨hclosure, hjump⟩
        refine ⟨⟨hclosure, fun haccepts => ?_⟩, hjump⟩
        have hnone := hjump rfl
        rw [Expr.isJumpTarget, show y.loopBody? = some c from haccepts] at hnone
        cases hnone
      · cases htargets
    | some name =>
      have hlabel : x.label? = some name := (of_decide_eq_true htargets).symm
      have hstep : body.Step (·.Accepts (some name)) id part := ⟨x, hx, hmem, hlabel⟩
      have hpath' : body.Path (fun y _ => y.isClosure = false) part b := hpath.mono fun _ _ h => h.1
      -- the way up passes expressions with the label, or it does not
      rcases hpath'.exists_last (·.Accepts (some name)) with
        hnone | ⟨inner, d, hfirst, haccepts, hrest⟩
      · exact .inl ⟨some name, value, part, hb, hstep,
          Path.mono hnone fun _ _ h => ⟨h, fun h => by cases h⟩⟩
      · exact .inr ⟨name, value, part, inner, hb, hstep, hfirst, some name, value, d, hb, haccepts,
          hrest⟩
  · rintro (⟨written, value, part, hb, ⟨x', hx', hmem, haccepts⟩, hpath⟩ |
      ⟨name, value, part, inner, hb, ⟨x', hx', hmem, haccepts⟩, hfirst, written, _, d, hb',
        ⟨y, hy, hd, haccepts'⟩, hrest⟩)
    · rw [hx] at hx'
      cases hx'
      refine ⟨written, value, part, hb, ?_, ⟨x, hx, hmem, trivial⟩,
        hpath.mono fun _ _ h => ⟨h.1.1, h.2⟩⟩
      cases written with
      | none =>
        obtain ⟨_, _, -, rfl⟩ | ⟨_, _, _, _, rfl, -⟩ := Expr.joinsBreaks?_eq_some hkind
        · rfl
        · cases haccepts
      | some name => exact decide_eq_true haccepts.symm
    · rw [hx] at hx'
      cases hx'
      rw [hb] at hb'
      cases hb'
      refine ⟨some name, value, part, hb, decide_eq_true haccepts.symm, ⟨x, hx, hmem, trivial⟩, ?_⟩
      have hinner : body.Step (fun y _ => y.isClosure = false) inner d :=
        ⟨y, hy, hd, Expr.isClosure_of_label haccepts'⟩
      have hbelow : body.Path (fun y _ => y.isClosure = false) d b :=
        hrest.mono fun _ _ h => h.1
      exact Path.mono (hfirst.trans (hbelow.head hinner)) fun _ _ h => ⟨h, fun h => by cases h⟩

/-! ## The order of evaluation -/

/-- `roots` and all that is inside them, in the order of evaluation: an expression comes after its
parts. -/
inductive Evaluates (body : Body) : List ExprId → List ExprId → Prop
  | nil : Evaluates body [] []
  | cons {id : ExprId} {x : Expr} {rest below nodes : List ExprId} : body.expr id = .ok x →
    Evaluates body x.children below → Evaluates body rest nodes →
    Evaluates body (id :: rest) (below ++ id :: nodes)

theorem Evaluates.hasExpr {roots nodes : List ExprId} (h : body.Evaluates roots nodes) :
    ∀ id ∈ nodes, body.HasExpr id := by
  induction h with
  | nil => simp
  | cons hx _ _ ih ih' =>
    intro id hid
    rcases List.mem_append.1 hid with hid | hid
    · exact ih id hid
    · rcases List.mem_cons.1 hid with rfl | hid
      · exact ⟨_, hx⟩
      · exact ih' id hid

/-- The expression at a node that is one. -/
def exprAt? : Site → Option ExprId
  | .expr id => some id
  | .pat _ => none

/-- A traversal that ends gives an order in which to evaluate the expressions. -/
theorem Lists.evaluates {roots nodes : List Site} (h : body.Lists roots nodes) :
    ∃ ids, body.Evaluates (roots.filterMap exprAt?) ids ∧ (ids.map Site.expr).Subperm nodes := by
  induction h with
  | nil => exact ⟨[], .nil, .refl _⟩
  | @cons site parts below rest nodes hparts _ _ ih ih' =>
    obtain ⟨belowIds, hbelow, hsub⟩ := ih
    obtain ⟨restIds, hrest, hsub'⟩ := ih'
    cases site with
    | expr id =>
      obtain ⟨x, hx, ⟨⟩⟩ := Except.bind_eq_ok hparts
      have hchildren : x.parts.filterMap exprAt? = x.children := by
        simp [Expr.parts, List.filterMap_map, Function.comp_def, exprAt?]
      rw [hchildren] at hbelow
      refine ⟨belowIds ++ id :: restIds, .cons hx hbelow hrest, ?_⟩
      rw [List.map_append, List.map_cons]
      exact List.perm_middle.subperm.trans ((List.subperm_cons _).2 (hsub.append hsub'))
    | pat id =>
      refine ⟨restIds, hrest, hsub'.trans ?_⟩
      exact (List.sublist_append_right (.pat id :: below) nodes).subperm

/-- The inside of an expression of a tree is evaluated, and nothing twice. -/
theorem TreeShaped.exists_evaluates (h : body.TreeShaped owner) (hid : body.IsPart owner id)
    (hx : body.expr id = .ok x) :
    ∃ below, body.Evaluates x.children below ∧ (below ++ [id]).Nodup := by
  obtain ⟨nodes, hlists, hnodup⟩ := h
  obtain ⟨nodes', hlists', hsub⟩ := hlists.exists_sublist (hlists.mem_iff.2 hid)
  obtain ⟨ids, hids, l, hperm, hsub'⟩ := hlists'.evaluates
  have hidsNodup := (hperm.nodup_iff.1 (hnodup.sublist (hsub'.trans hsub))).of_map
  cases hids with
  | @cons _ x' _ below _ hx' hbelow hrest =>
    cases hrest
    rw [hx] at hx'
    cases hx'
    exact ⟨below, hbelow, hidsNodup⟩

/-- The type of the value that the `break` at an expression hands over. -/
def breakTy (body : Body) (s : State) (b : ExprId) : Ty :=
  match body.expr b with
  | .ok (.breakLoop _ (some value)) => (s.exprTypes.get? value.index).getD .unknown
  | _ => .unit

end Body

namespace Infer

variable {scope : Scope} {s : State} {label written : Option String} {labelled : Bool}
  {id c : ExprId} {roots nodes below : List ExprId} {x y : Expr} {n : Nat}

/-- A computation gives the types of some `break`s among `nodes`, in this order. -/
def FindsBreaks (scope : Scope) (s : State) (act : Infer (List Ty)) (nodes : List ExprId)
    (P : ExprId → Prop) : Prop :=
  ∃ breaks : List ExprId, act scope s = .ok (breaks.map (scope.body.breakTy s), s) ∧ breaks.Sublist nodes ∧
    ∀ b, b ∈ breaks ↔ P b

theorem FindsBreaks.bind {α : Type} {act : Infer α} {a : α} {f : α → Infer (List Ty)}
    {P : ExprId → Prop} (h : act scope s = .ok (a, s)) (hf : FindsBreaks scope s (f a) nodes P) :
    FindsBreaks scope s (act >>= f) nodes P := by
  obtain ⟨breaks, hrun, hbreaks⟩ := hf
  exact ⟨breaks, ok_then h hrun, hbreaks⟩

/-- What the searches below the children find is found together. -/
theorem FindsBreaks.mapM {f : ExprId → Infer (List Ty)} {P : ExprId → ExprId → Prop}
    (h : scope.body.Evaluates roots nodes)
    (hf : ∀ c y below, scope.body.expr c = .ok y → scope.body.Evaluates y.children below →
      below.length < nodes.length → FindsBreaks scope s (f c) (below ++ [c]) (P c)) :
    FindsBreaks scope s (do return (← roots.mapM f).flatten) nodes fun b => ∃ c ∈ roots, P c b := by
  have hmap : ∃ (found : List (List Ty)) (breaks : List ExprId), roots.mapM f scope s = .ok (found, s) ∧
      found.flatten = breaks.map (scope.body.breakTy s) ∧ breaks.Sublist nodes ∧
      ∀ b, b ∈ breaks ↔ ∃ c ∈ roots, P c b := by
    induction h with
    | nil => exact ⟨[], [], rfl, rfl, .refl _, by simp⟩
    | @cons id x rest below nodes hx hbelow _ _ ih =>
      rw [List.length_append, List.length_cons] at hf
      obtain ⟨first, hfirst, hsub, hmem⟩ := hf id x below hx hbelow (by omega)
      obtain ⟨found, breaks, hrest, hflatten, hsub', hmem'⟩ :=
        ih fun c y below' hy hbelow' hlt => hf c y below' hy hbelow' (by omega)
      refine ⟨first.map (scope.body.breakTy s) :: found, first ++ breaks, ?_, ?_, ?_, fun b => ?_⟩
      · rw [List.mapM_cons]
        exact ok_then hfirst (ok_then hrest rfl)
      · rw [List.flatten_cons, hflatten, List.map_append]
      · rw [List.append_cons]
        exact hsub.append hsub'
      · simp only [List.mem_append, hmem, hmem', List.mem_cons, exists_eq_or_imp]
  obtain ⟨found, breaks, hrun, hflatten, hsub, hmem⟩ := hmap
  refine ⟨breaks, ?_, hsub, hmem⟩
  rw [← hflatten]
  exact bind_of_ok hrun

theorem breakValueTy_run {value : Option ExprId}
    (h : scope.body.expr c = .ok (.breakLoop written value)) :
    breakValueTy value scope s = .ok (scope.body.breakTy s c, s) := by
  rw [Body.breakTy, h]
  cases value <;> rfl

theorem FindsBreaks.inside {act : Infer (List Ty)} (hy : scope.body.expr c = .ok y)
    (hopen : y.isClosure = false) (hbreak : ∀ written value, y ≠ .breakLoop written value)
    (h : FindsBreaks scope s act below (scope.body.Counted label (labelled || y.isJumpTarget) c)) :
    FindsBreaks scope s act (below ++ [c]) (scope.body.CountedAt label labelled c) := by
  obtain ⟨breaks, hrun, hsub, hmem⟩ := h
  refine ⟨breaks, hrun, hsub.trans (List.sublist_append_left ..), fun b => ?_⟩
  rw [hmem, Body.countedAt_iff hy]
  simp [hopen, hbreak]

/-- The search ends before its bound is reached, and finds what is counted. -/
theorem breakTysWithin_run (hx : scope.body.expr id = .ok x)
    (hbelow : scope.body.Evaluates x.children below) (hn : below.length < n)
    (label : Option String) (labelled : Bool) :
    FindsBreaks scope s (breakTysWithin label n labelled id) below
      (scope.body.Counted label labelled id) := by
  induction n generalizing id x below labelled with
  | zero => omega
  | succ n ih =>
    have hparts : FindsBreaks scope s (breakTysWithin label (n + 1) labelled id) below
        fun b => ∃ c ∈ x.children, scope.body.CountedAt label labelled c b := by
      rw [breakTysWithin]
      refine .bind rfl (.bind (lift_of_ok hx) (.mapM hbelow fun c y below' hy hbelow' hlt => ?_))
      have hrec (flag : Bool) := ih hy hbelow' (by omega) flag
      refine .bind (lift_of_ok hy) ?_
      -- from a loop or labelled block on the search needs the label, and ends there without one
      have hjump (htarget : y.isJumpTarget = true) (hopen : y.isClosure = false)
          (hbreak : ∀ written value, y ≠ .breakLoop written value) :
          FindsBreaks scope s (if label.isSome then breakTysWithin label n true c else pure [])
            (below' ++ [c]) (scope.body.CountedAt label labelled c) := by
        refine .inside hy hopen hbreak ?_
        rw [htarget, Bool.or_true]
        cases label with
        | none => exact ⟨[], rfl, List.nil_sublist _, fun b => by simp [Body.not_counted_of_none]⟩
        | some name => exact hrec true
      have hother (htarget : y.isJumpTarget = false) (hopen : y.isClosure = false)
          (hbreak : ∀ written value, y ≠ .breakLoop written value) :
          FindsBreaks scope s (breakTysWithin label n labelled c) (below' ++ [c])
            (scope.body.CountedAt label labelled c) := by
        refine .inside hy hopen hbreak ?_
        rw [htarget, Bool.or_false]
        exact hrec labelled
      cases y with
      | breakLoop written value =>
        obtain ⟨breaks, hrun, hsub, hmem⟩ := hrec labelled
        refine .bind hrun ?_
        have hat (b : ExprId) : scope.body.CountedAt label labelled c b ↔
            b = c ∧ targets label written labelled = true ∨ b ∈ breaks := by
          rw [Body.countedAt_iff hy, hmem]
          simp [Expr.isClosure, Expr.isJumpTarget, Expr.loopBody?, Expr.label?]
        by_cases htargets : targets label written labelled = true
        · rw [if_pos htargets]
          refine ⟨breaks ++ [c], ?_, hsub.append (.refl _), fun b => ?_⟩
          · rw [List.map_append]
            exact bind_of_ok (breakValueTy_run hy)
          · rw [hat, List.mem_append, List.mem_singleton, or_comm, and_iff_left htargets]
        · rw [if_neg htargets]
          refine ⟨breaks, rfl, hsub.trans (List.sublist_append_left ..), fun b => ?_⟩
          rw [hat, or_iff_right fun h => htargets h.2]
      | closure params ret inner isAsync =>
        refine ⟨[], rfl, List.nil_sublist _, fun b => ?_⟩
        rw [Body.countedAt_iff hy]
        simp [Expr.isClosure]
      | loop | whileLoop | forLoop => exact hjump rfl rfl fun _ _ h => by cases h
      | block kind name stmts tail =>
        cases name with
        | none => exact hother rfl rfl fun _ _ h => by cases h
        | some name => exact hjump rfl rfl fun _ _ h => by cases h
      | _ => exact hother rfl rfl fun _ _ h => by cases h
    obtain ⟨breaks, hrun, hsub, hmem⟩ := hparts
    exact ⟨breaks, hrun, hsub, fun b => (hmem b).trans (Body.counted_iff_exists_part hx).symm⟩

/-- The value of a loop, or of a block with a label, in a body that is a tree. It is joined with the
values of the `break`s that target the expression, in the order of evaluation, but for those without
label that have to climb past a labelled block, or from the header of a loop; and with the values of
those that have its label but target an expression inside it. A `break` has at most one target. -/
theorem joinBreaks_of_tree {owner : Owner} (htree : scope.body.TreeShaped owner)
    (hid : scope.body.IsPart owner id) (hx : scope.body.expr id = .ok x)
    (hkind : x.joinsBreaks? = some labelled) :
    ∃ nodes, scope.body.Evaluates [id] nodes ∧ nodes.Nodup ∧
      (∀ s, ∃ breaks : List ExprId, breaks.Sublist nodes ∧
        (∀ b, b ∈ breaks ↔ scope.body.TargetsInSight b id ∨ scope.body.Shadowed b id) ∧
        ∀ base, joinBreaks id base labelled scope s =
          join (base :: breaks.map (scope.body.breakTy s)) scope s) ∧
      ∀ b other, scope.body.IsPart owner other → scope.body.Targets b id →
        scope.body.Targets b other → other = id := by
  obtain ⟨below, hbelow, hnodup⟩ := htree.exists_evaluates hid hx
  refine ⟨below ++ [id], .cons hx hbelow .nil, hnodup, fun s => ?_,
    fun b other hother => htree.target_unique hid hother⟩
  have hsize : below.length < scope.body.exprs.size + 1 := by
    have hle := Body.length_le_of_nodup (List.nodup_append.1 hnodup).1 hbelow.hasExpr
    omega
  obtain ⟨breaks, hrun, hsub, hmem⟩ := breakTysWithin_run (s := s) hx hbelow hsize x.label? labelled
  refine ⟨breaks, hsub.trans (List.sublist_append_left ..),
    fun b => (hmem b).trans (Body.counted_iff hx hkind), fun base => ?_⟩
  have hsearch : (x.label?.isSome || !labelled) = true := by
    obtain ⟨_, _, rfl, rfl⟩ | ⟨_, _, _, _, rfl, rfl⟩ := Expr.joinsBreaks?_eq_some hkind
    · exact Bool.or_true _
    · rfl
  refine ok_then rfl (ok_then (lift_of_ok hx) ?_)
  rw [if_pos hsearch]
  exact bind_of_ok hrun

end Infer

/-- The body `'a: loop { loop { break 'a 1u8 } }`. -/
def Body.outerBreak : Body := .ofNodes
  [.literal (.int (some .u8)), .breakLoop (some "a") (some ⟨0⟩), .loop none ⟨1⟩,
    .loop (some "a") ⟨2⟩] [] []

def Scope.outerBreak : Scope := { Scope.bare with body := .outerBreak }

/-- The `break` passes the inner loop by and counts for the outer one. -/
theorem Infer.joinBreaks_of_tree_outerBreak : Body.outerBreak.TreeShaped (.const ⟨0⟩) ∧
    Body.outerBreak.Targets ⟨1⟩ ⟨3⟩ ∧ ¬ Body.outerBreak.Targets ⟨1⟩ ⟨2⟩ ∧
    ∀ base s, joinBreaks ⟨3⟩ base false .outerBreak s =
      join [base, (s.exprTypes.get? 0).getD .unknown] .outerBreak s := by
  have htree : Body.outerBreak.TreeShaped (.const ⟨0⟩) :=
    ⟨_, .cons rfl (.cons rfl (.cons rfl (.cons rfl .nil .nil) .nil) .nil) .nil, by decide⟩
  have houter : Body.outerBreak.IsPart (.const ⟨0⟩) ⟨3⟩ := ⟨_, List.mem_singleton_self _, .refl⟩
  have hstep : Body.outerBreak.Step (·.Accepts (some "a")) ⟨3⟩ ⟨2⟩ :=
    ⟨_, rfl, List.mem_singleton_self _, rfl⟩
  have hpasses : Body.outerBreak.Step (·.Passes (some "a")) ⟨2⟩ ⟨1⟩ :=
    ⟨_, rfl, List.mem_singleton_self _, rfl, fun h => by cases h⟩
  have htargets : Body.outerBreak.Targets ⟨1⟩ ⟨3⟩ := ⟨_, _, _, rfl, hstep, .single hpasses⟩
  obtain ⟨nodes, -, hnodup, hjoin, hunique⟩ :=
    @joinBreaks_of_tree .outerBreak false ⟨3⟩ _ _ htree houter rfl rfl
  refine ⟨htree, htargets, fun h => ?_, fun base s => ?_⟩
  · cases hunique ⟨1⟩ ⟨2⟩ (hstep.isPart houter) htargets h
  · obtain ⟨breaks, hsub, hmem, heq⟩ := hjoin s
    have hone (b : ExprId) : b ∈ breaks ↔ b ∈ [(⟨1⟩ : ExprId)] := by
      rw [hmem, List.mem_singleton]
      constructor
      · intro h
        have hbreak : ∃ written value, Body.outerBreak.expr b = .ok (.breakLoop written value) := by
          obtain ⟨_, _, _, hb, -⟩ | ⟨_, _, _, _, hb, -⟩ := h
          · exact ⟨_, _, hb⟩
          · exact ⟨_, _, hb⟩
        obtain ⟨written, value, hb⟩ := hbreak
        obtain ⟨_ | _ | _ | _ | i⟩ := b
        · cases hb
        · rfl
        · cases hb
        · cases hb
        · cases hb
      · rintro rfl
        exact .inl ⟨_, _, _, rfl, hstep, .single (hpasses.mono fun _ _ h => ⟨h, fun h => by cases h⟩)⟩
    have hperm := (List.perm_ext_iff_of_nodup (hnodup.sublist hsub) (List.nodup_singleton _)).2 hone
    rw [heq, List.perm_singleton.1 hperm]
    rfl

/-! ## Breaks that go astray -/

/-- The body
```
{
  'a: loop { 'a: loop { break 'a 1u8 } };
  loop { 'b: { break 1u16; } };
  loop { for _ in break 1u32 {} };
}
```
-/
def Body.strayBreaks : Body := .ofNodes
  [.literal (.int (some .u8)), .breakLoop (some "a") (some ⟨0⟩), .loop (some "a") ⟨1⟩,
    .loop (some "a") ⟨2⟩, .literal (.int (some .u16)), .breakLoop none (some ⟨4⟩),
    .block .plain (some "b") [.expr ⟨5⟩] none, .loop none ⟨6⟩, .literal (.int (some .u32)),
    .breakLoop none (some ⟨8⟩), .block .plain none [] none, .forLoop none ⟨0⟩ ⟨9⟩ ⟨10⟩,
    .loop none ⟨11⟩, .block .plain none [.expr ⟨3⟩, .expr ⟨7⟩, .expr ⟨12⟩] none] [.wild] []

def Session.strayBreaks : Session where
  program := {
    items := { Items.empty with
      functions := #[⟨"f", .free, .empty, none, [], .unit, false, true⟩] }
    known := {}
    bodies := [(.function ⟨0⟩, .strayBreaks, .empty)] }

/-- The first `break` counts for the outer loop, though it targets the inner one of the same label.
The other two count for nothing, though they target a loop. -/
theorem Session.strayBreaks_types :
    Body.strayBreaks.Targets ⟨1⟩ ⟨2⟩ ∧ Body.strayBreaks.Targets ⟨5⟩ ⟨7⟩ ∧
    Body.strayBreaks.Targets ⟨9⟩ ⟨12⟩ ∧
    ∃ o σ', strayBreaks.infer (.function ⟨0⟩) {} = (.ok o, σ') ∧
      o.exprTypes.get? 3 = some (.int .u8) ∧ o.exprTypes.get? 7 = some .never ∧
      o.exprTypes.get? 12 = some .never := by
  refine ⟨?_, ?_, ?_, ?_⟩
  · exact ⟨some "a", some ⟨0⟩, ⟨1⟩, rfl, ⟨_, rfl, List.mem_singleton_self _, rfl⟩, .refl⟩
  · have hpasses : Body.strayBreaks.Step (·.Passes none) ⟨6⟩ ⟨5⟩ :=
      ⟨_, rfl, List.mem_singleton_self _, rfl, fun h => by cases h⟩
    exact ⟨none, some ⟨4⟩, ⟨6⟩, rfl, ⟨_, rfl, List.mem_singleton_self _, rfl⟩, .single hpasses⟩
  · have hpasses : Body.strayBreaks.Step (·.Passes none) ⟨11⟩ ⟨9⟩ :=
      ⟨_, rfl, .head _, rfl, fun h => by cases h⟩
    exact ⟨none, some ⟨8⟩, ⟨11⟩, rfl, ⟨_, rfl, List.mem_singleton_self _, rfl⟩, .single hpasses⟩
  · have hok : (strayBreaks.infer (.function ⟨0⟩) {}).1.toOption.map (fun o =>
        ((o.exprTypes.get? 3).map (Ty.same (.int .u8)), (o.exprTypes.get? 7).map Ty.isNever,
          (o.exprTypes.get? 12).map Ty.isNever)) = some (some true, some true, some true) := by
      decide +kernel
    obtain ⟨o, σ', hrun, hok⟩ := Except.exists_ok_of_fst hok
    obtain ⟨hshadowed, hhidden⟩ := Prod.mk.inj hok
    obtain ⟨hblock, hheader⟩ := Prod.mk.inj hhidden
    have hnever {i : Nat} (h : (o.exprTypes.get? i).map Ty.isNever = some true) :
        o.exprTypes.get? i = some .never := by
      obtain ⟨ty, hty, hnever⟩ := Option.map_eq_some_iff.1 h
      cases ty with
      | never => exact hty
      | _ => cases hnever
    obtain ⟨ty, hty, hsame⟩ := Option.map_eq_some_iff.1 hshadowed
    obtain rfl : ty = .int .u8 := by
      cases ty with
      | int kind =>
        cases kind with
        | u8 => rfl
        | _ => cases hsame
      | _ => cases hsame
    exact ⟨o, σ', hrun, hty, hnever hblock, hnever hheader⟩

end TypeInference
