import TypeInference.Proofs.BodyTrees

/-!
# Parent links and children

A draft grows node by node, and a node may have children that are only added after it. Finishing the
draft makes every expression the parent of its children, in one pass over the expressions.

If the expressions form a forest, no link is written over by a different one. The links then invert
the child relation, so a climb along them ends, and it finds the expressions that a node is reached
from by child steps.
-/

namespace TypeInference

open Relation

theorem Except.foldlM_establishes {α β ε : Type} {f : β → α → Except ε β} {P : β → Prop}
    {Q : α → β → Prop} {xs : List α} {b : β}
    (hstep : ∀ x ∈ xs, ∀ b, P b → ∃ b', f b x = .ok b' ∧ P b' ∧ Q x b' ∧ ∀ y, Q y b → Q y b')
    (hb : P b) :
    ∃ b', xs.foldlM f b = .ok b' ∧ P b' ∧ (∀ x ∈ xs, Q x b') ∧ ∀ y, Q y b → Q y b' := by
  induction xs generalizing b with
  | nil => exact ⟨b, rfl, hb, List.forall_mem_nil _, fun _ h => h⟩
  | cons x xs ih =>
    obtain ⟨b₁, hrun, hb₁, hx, hkeep⟩ := hstep x (.head _) b hb
    obtain ⟨b', hrest, hb', hxs, hkeep'⟩ := ih (fun y hy => hstep y (.tail _ hy)) hb₁
    refine ⟨b', ?_, hb', List.forall_mem_cons.2 ⟨hkeep' x hx, hxs⟩, fun y hy => hkeep' y (hkeep y hy)⟩
    rw [List.foldlM_cons, hrun]
    exact hrest

namespace Draft

variable {draft : Draft} {linked nodes : List ExprNode} {c child p parent : ExprId}

/-- The draft was grown from the empty one. -/
inductive Grown : Draft → Prop
  | empty : Grown empty
  | addExpr {draft : Draft} (expr : Expr) (range : Option TextRange) :
    Grown draft → Grown (draft.addExpr expr range).2
  | addPat {draft : Draft} (pat : Pat) (range : Option TextRange) :
    Grown draft → Grown (draft.addPat pat range).2
  | rename {draft : Draft} (names : Names) : Grown draft → Grown { draft with names }

theorem Grown.parent_eq_none (h : draft.Grown) : ∀ node ∈ draft.exprs, node.parent = none := by
  induction h with
  | empty => exact List.forall_mem_nil _
  | addExpr expr range _ ih =>
    exact List.forall_mem_append.2 ⟨ih, List.forall_mem_singleton.2 rfl⟩
  | addPat _ _ _ ih => exact ih
  | rename _ _ ih => exact ih

/-- `child` is an expression directly inside `parent`. -/
def Child (draft : Draft) (parent child : ExprId) : Prop :=
  ∃ node, draft.exprs[parent.index]? = some node ∧ child ∈ node.expr.children

/-- Every expression is the child of at most one other, and none is inside itself. -/
structure Forest (draft : Draft) : Prop where
  inRange : ∀ {parent child}, draft.Child parent child → child.index < draft.exprs.length
  unique : ∀ {p p' child}, draft.Child p child → draft.Child p' child → p = p'
  acyclic : ∀ id, ¬ TransGen draft.Child id id

/-! ## Linking -/

/-- The expression has a link to some parent. -/
def HasParent (linked : List ExprNode) (id : ExprId) : Prop :=
  ∃ node parent, linked[id.index]? = some node ∧ node.parent = some parent

theorem LinksTo.length_eq (h : LinksTo nodes linked) : linked.length = nodes.length := by
  have hlength := congrArg List.length h.exprs
  rwa [List.length_map, List.length_map] at hlength

/-- Linking a child keeps the links of the others. -/
theorem exists_linkChild {owner : ExprNode} (h : LinksTo nodes linked)
    (howner : nodes[parent.index]? = some owner) (hchild : child ∈ owner.expr.children)
    (hrange : child.index < nodes.length) :
    ∃ linked', linkChild parent linked child = .ok linked' ∧ LinksTo nodes linked' ∧
      HasParent linked' child ∧ ∀ id, HasParent linked id → HasParent linked' id := by
  have hlinked : child.index < linked.length := h.length_eq ▸ hrange
  have hlink : linkChild parent linked child =
      .ok (linked.modify child.index fun node => { node with parent := some parent }) :=
    if_pos hlinked
  refine ⟨_, hlink, h.linkChild howner hchild hlink, ?_, ?_⟩
  · refine ⟨{ linked[child.index] with parent := some parent }, parent, ?_, rfl⟩
    rw [List.getElem?_modify_eq, List.getElem?_eq_getElem hlinked]
    rfl
  · rintro id ⟨node, p, hnode, hp⟩
    by_cases heq : child.index = id.index
    · refine ⟨{ node with parent := some parent }, parent, ?_, rfl⟩
      rw [heq, List.getElem?_modify_eq, hnode]
      rfl
    · refine ⟨node, p, ?_, hp⟩
      rw [List.getElem?_modify_ne _ _ heq, hnode]

/-- All children get their links. -/
theorem Forest.exists_linkParents (h : draft.Forest)
    (hnone : ∀ node ∈ draft.exprs, node.parent = none) :
    ∃ linked, linkParents draft.exprs = .ok linked ∧ LinksTo draft.exprs linked ∧
      ∀ parent child, draft.Child parent child → HasParent linked child := by
  have hstart : LinksTo draft.exprs draft.exprs := by
    refine ⟨rfl, fun i node parent hnode hparent => ?_⟩
    rw [hnone node (List.mem_of_getElem? hnode)] at hparent
    cases hparent
  -- The outer loop goes through the expressions, and the inner one through the children of each.
  let HaveParents (p : ExprNode × Nat) (linked : List ExprNode) : Prop :=
    ∀ child ∈ p.1.expr.children, HasParent linked child
  have hstep : ∀ p ∈ draft.exprs.zipIdx, ∀ l, LinksTo draft.exprs l →
      ∃ l', p.1.expr.children.foldlM (linkChild ⟨p.2⟩) l = .ok l' ∧ LinksTo draft.exprs l' ∧
        HaveParents p l' ∧ ∀ q, HaveParents q l → HaveParents q l' := by
    rintro ⟨node, i⟩ hmem linked hlinks
    have hnode : draft.exprs[i]? = some node := List.mk_mem_zipIdx_iff_getElem?.1 hmem
    have hchildren : ∀ child ∈ node.expr.children, ∀ l, LinksTo draft.exprs l →
        ∃ l', linkChild ⟨i⟩ l child = .ok l' ∧ LinksTo draft.exprs l' ∧ HasParent l' child ∧
          ∀ id, HasParent l id → HasParent l' id := by
      intro child hchild l hl
      exact exists_linkChild hl hnode hchild (h.inRange ⟨node, hnode, hchild⟩)
    obtain ⟨linked', hrun, hlinks', hall, hkeep⟩ := Except.foldlM_establishes hchildren hlinks
    exact ⟨linked', hrun, hlinks', hall, fun y hy child hchild => hkeep child (hy child hchild)⟩
  obtain ⟨linked, hrun, hlinks, hlinked, -⟩ := Except.foldlM_establishes hstep hstart
  refine ⟨linked, hrun, hlinks, ?_⟩
  rintro ⟨i⟩ child ⟨node, hnode, hchild⟩
  exact hlinked (node, i) (List.mk_mem_zipIdx_iff_getElem?.2 hnode) child hchild

/-! ## Finished bodies -/

section

variable {body : Body} (hforest : draft.Forest)
  (hparent : ∀ p c, body.parent? c = .ok (some p) ↔ draft.Child p c)

include hparent

theorem encloses_iff {outer inner : ExprId} :
    body.Encloses outer inner ↔ ReflTransGen draft.Child outer inner := by
  have hswap : (fun a b => body.parent? a = .ok (some b)) = Function.swap draft.Child :=
    funext fun c => funext fun p => propext (hparent p c)
  rw [Body.Encloses, hswap, reflTransGen_swap]

include hforest

theorem Forest.rooted (hexprs : ∀ id : ExprId, id.index < draft.exprs.length → body.HasExpr id) :
    body.Rooted where
  parents id parent hlink := by
    obtain ⟨node, hnode, -⟩ := (hparent parent id).1 hlink
    exact hexprs parent (List.getElem?_eq_some_iff.1 hnode).1
  acyclic id parent hlink hback := by
    have hdown := (encloses_iff hparent).1 hback
    exact hforest.acyclic parent (.head' ((hparent parent id).1 hlink) hdown)

end

/-- In a finished forest the parent links are the child relation turned round. Climbing them ends
for all expressions, and finds those that a node is reached from. -/
theorem parents_invert_children (hgrown : draft.Grown) (hforest : draft.Forest)
    (params : List PatId) (root : ExprId) :
    ∃ body, draft.finish params root = .ok (body, draft.names) ∧
      body.exprs.toList.map (·.expr) = draft.exprs.map (·.expr) ∧
      (∀ p c, body.parent? c = .ok (some p) ↔ draft.Child p c) ∧
      (∀ a e, e.index < draft.exprs.length →
        ∃ b, body.isAncestorOf a e = .ok b ∧ (b = true ↔ ReflTransGen draft.Child a e)) ∧
      ∀ a e, draft.exprs.length ≤ e.index →
        body.isAncestorOf a e = if e = a then .ok true else .error (.dangling .expr e.index) := by
  obtain ⟨linked, hrun, hlinks, hall⟩ := hforest.exists_linkParents hgrown.parent_eq_none
  let body : Body := ⟨linked.toArray, draft.pats.toArray, params, root⟩
  have hparent (p c : ExprId) : body.parent? c = .ok (some p) ↔ draft.Child p c := by
    have hup {p : ExprId} {node : ExprNode} (hnode : linked[c.index]? = some node)
        (hp : node.parent = some p) : draft.Child p c :=
      hlinks.parents c.index node p hnode hp
    constructor
    · intro h
      obtain ⟨node, hnode, hp⟩ := Except.bind_eq_ok h
      rw [Body.exprNode_eq_ok_iff, List.getElem?_toArray] at hnode
      exact hup hnode (Except.ok.inj hp)
    · intro h
      obtain ⟨node, p', hnode, hp⟩ := hall p c h
      -- The link leads to some parent, and there is only one.
      rw [hforest.unique h (hup hnode hp), ← hp, Body.parent?, Body.exprNode_eq_ok_iff.2]
      · rfl
      · rwa [List.getElem?_toArray]
  have hexprs (id : ExprId) (hid : id.index < draft.exprs.length) : body.HasExpr id := by
    have hlinked : id.index < linked.length := hlinks.length_eq ▸ hid
    have hnode : body.exprNode id = .ok linked[id.index] := by
      rw [Body.exprNode_eq_ok_iff, List.getElem?_toArray, List.getElem?_eq_getElem]
    refine ⟨linked[id.index].expr, ?_⟩
    rw [Body.expr, hnode]
    rfl
  refine ⟨body, ?_, hlinks.exprs, hparent, fun a e he => ?_, fun a e he => ?_⟩
  · rw [finish, hrun]
    rfl
  · obtain ⟨b, hb⟩ := (hforest.rooted hparent hexprs).exists_isAncestorOf a (hexprs e he)
    exact ⟨b, hb, (Body.climbsTo_eq_ok hb).trans (encloses_iff hparent)⟩
  · have hmissing : body.parent? e = .error (.dangling .expr e.index) := by
      have hnone : linked[e.index]? = none := by
        rw [List.getElem?_eq_none_iff, hlinks.length_eq]
        exact he
      rw [Body.parent?, Body.exprNode, entry, List.getElem?_toArray, hnone]
      rfl
    rw [Body.isAncestorOf, Body.climbsTo, hmissing]
    rfl

/-- The block `{ 1 }`, put into the draft before its tail. -/
def numberInBlock : Draft :=
  let block := (empty.addExpr (.block .plain none [] (some ⟨1⟩)) none).2
  (block.addExpr (.literal (.int none)) none).2

theorem child_numberInBlock (h : numberInBlock.Child p c) : p = ⟨0⟩ ∧ c = ⟨1⟩ := by
  obtain ⟨node, hnode, hc⟩ := h
  obtain ⟨i⟩ := p
  rcases i with _ | _ | i
  · cases hnode
    exact ⟨rfl, List.mem_singleton.1 hc⟩
  · cases hnode
    cases hc
  · cases hnode

theorem forest_numberInBlock : numberInBlock.Forest where
  inRange h := by
    rw [(child_numberInBlock h).2]
    decide
  unique h h' := (child_numberInBlock h).1.trans (child_numberInBlock h').1.symm
  acyclic id h := by
    obtain ⟨_, hout, -⟩ := TransGen.head'_iff.1 h
    obtain ⟨_, -, hin⟩ := TransGen.tail'_iff.1 h
    cases (child_numberInBlock hout).1.symm.trans (child_numberInBlock hin).2

theorem parents_invert_children_numberInBlock :
    numberInBlock.Forest ∧ ∃ body, numberInBlock.finish [] ⟨0⟩ = .ok (body, .empty) ∧
      body.parent? ⟨1⟩ = .ok (some ⟨0⟩) ∧ body.isAncestorOf ⟨0⟩ ⟨1⟩ = .ok true := by
  obtain ⟨body, hfinish, -, hparent, hclimb, -⟩ := parents_invert_children
    (.addExpr _ _ (.addExpr _ _ .empty)) forest_numberInBlock [] ⟨0⟩
  have hchild : numberInBlock.Child ⟨0⟩ ⟨1⟩ := ⟨_, rfl, .head _⟩
  obtain ⟨b, hb, hreaches⟩ := hclimb ⟨0⟩ ⟨1⟩ (by decide)
  rw [hreaches.2 (.single hchild)] at hb
  exact ⟨forest_numberInBlock, body, hfinish, (hparent _ _).2 hchild, hb⟩

end Draft

end TypeInference
