import TypeInference.Proofs.Composition

/-!
# A walk covers its body

Each rule visits the parts of its node, if the nodes below are visited. So a walk records what is
reached from the entries of the body, and nothing twice if the body is a tree.
-/

namespace TypeInference

open Infer

variable {twice : Prop} {body : Body} {v : Visitor}

/-- The visitor visits the nodes it is called for. -/
structure Visitor.Faithful (twice : Prop) (body : Body) (v : Visitor) : Prop where
  expr : ∀ id expected, Walk.Visits twice body [.expr id] (v.expr id expected)
  pat : ∀ id ty default, Walk.Visits twice body [.pat id] (v.pat id ty default)
  const : ∀ id σ i σ', v.const id σ = (.error (.fault (.writtenTwice i)), σ') → twice

namespace Walk.Visits

/-! ## Conversions -/

variable {roots : List Site} {expected : Option Ty} {id : ExprId}

theorem convertedThen {β : Type} {f : Ty → Bool → Walk β} (hv : v.Faithful twice body)
    {target : Ty} (hf : ∀ inferred ok, Visits twice body roots (f inferred ok)) :
    Visits twice body (.expr id :: roots) (do
      let inferred ← v.expr id expected
      let ok ← (coerce id inferred target : Walk Bool)
      f inferred ok) := by
  have hfirst : Visits twice body [.expr id] (do
      let inferred ← v.expr id expected
      let ok ← (coerce id inferred target : Walk Bool)
      return (inferred, ok)) :=
    (hv.expr id expected).converted fun _ => (Converts.coerce ..).bind fun _ => .pure _
  have hwalk := hfirst.bind fun p => hf p.1 p.2
  simp only [bind_assoc, pure_bind] at hwalk
  exact hwalk

/-! ## The rules together -/

/-- What is put together from visits visits the nodes it is said to. -/
theorem of_composed (hv : v.Faithful twice body) {A : Prop} {W : Var → Prop} {α : Type}
    [Mentioning α] {x : Visitor → Walk α} (h : Composed body (fun _ => True) A W roots x) :
    Visits twice body roots (x v) := by
  induction h with
  | pure _ => exact pure _
  | bindOf _ _ ih ih' => exact ih.bindOf fun a ha => ih' v a ha le_top within_true
  | mono _ _ ih => exact ih
  | perm _ hperm ih => exact ih.perm hperm
  | scopeBind _ _ ih => exact readBind fun scope h => ih scope h le_top scope.within_true
  | lift hx => exact lift fun scope => (hx scope le_top).anyway.noting
  | adjusting _ hx => exact lift fun scope => (hx scope le_top).anyway
  | borrow _ => exact lift fun _ => .adjust
  | variantShape _ => exact variantShape
  | reportCannotDeref _ _ => exact reportCannotDeref
  | lookUpPath id => exact lookUpPath
  | checkCancelled => exact checkCancelled
  | jumps => exact jumps
  | setYielded _ _ => exact setYielded
  | inside b _ _ _ ih => exact ih.inside b
  | const id => exact session (hv.const id)
  | expr _ => exact hv.expr _ _
  | pat _ => exact hv.pat _ _ _
  | literal hid _ => exact recordLiteral hid
  | node hid hlit _ ih =>
    exact recordAfter (Body.parts_expr hid) ih (Body.suits_of_not_literal hid hlit)
  | blockRoot hid _ _ ih =>
    exact recordBefore (Body.parts_expr hid) (Body.suits_of_not_literal hid nofun _) ih
  | binding hparts hbinds _ _ ih => exact recordBinding hparts hbinds ih
  | unrecorded hparts hbinds _ ih => exact unrecorded hparts hbinds ih
  | converted _ _ _ ih => exact convertedThen hv fun a ok => ih a ok le_top within_true
  | closing _ _ _ _ ih => exact ih.converted fun ty => of_ite (Converts.coerce ..).discard (.pure _)
  | elements _ ih | index _ ih | field _ ih | methodCall _ ih => exact ih

end Walk.Visits

/-- The walk of a node records what is reached from it. -/
theorem Walk.visitor_faithful {const : ConstId → SessionM Ty}
    (hconst : ∀ id σ i σ', const id σ = (.error (.fault (.writtenTwice i)), σ') → twice)
    (n : Nat) : (visitor const n).Faithful twice body := by
  induction n with
  | zero =>
    -- A walk that is too deep fails, but not with a type recorded twice.
    have hstop (roots : List Site) {α : Type} :
        Visits twice body roots (throw (.fault .exhausted) : Walk α) := by
      constructor
      · intro _ _ _ _ _ _ _ _ h
        cases h
      · intro _ _ _ _ _ _ _ _ h
        cases h
    exact ⟨fun _ _ => hstop _, fun _ _ _ => hstop _, hconst⟩
  | succ n ih =>
    refine ⟨fun id expected => ?_, fun id ty default => ?_, hconst⟩
    · exact .of_composed (A := False) ih (.expression (fun _ => trivial) within_true)
    · exact .of_composed (A := False) ih (.pattern within_true)

theorem Walk.Visits.entries (hv : v.Faithful twice body) {owner : Owner} :
    Visits twice body (body.entries owner) (entries v owner) :=
  .of_composed (A := False) (W := fun _ => True) hv (.entries trivial)

end TypeInference
