import Mathlib.Data.List.Nodup
import Mathlib.Data.List.Perm.Basic
import Mathlib.Logic.Relation
import TypeInference.Body.Basic
import TypeInference.Proofs.Runs

/-!
# The nodes of a body

The parts of a node are the expressions and patterns directly inside it. What can be reached from
the entries of a body through parts is what a walk is to visit. The body is a tree if a traversal of
the entries (`Body.Lists`) ends without meeting a node twice.

The other way round, an expression is enclosed by those that its parent links lead to. A body that
was finished is linked: its parent links lead back to where an expression is a child.
-/

namespace TypeInference

theorem ExprId.index_inj {a b : ExprId} : a.index = b.index ↔ a = b :=
  ⟨congrArg mk, congrArg index⟩

/-- The body with the given nodes, the last expression for its root. Each node stands at a byte of its
own. -/
def Body.ofNodes (exprs : List Expr) (pats : List Pat) (params : List PatId) : Body where
  exprs := (exprs.zipIdx.map fun (e, i) =>
    ⟨e, .byteAt i, (exprs.findIdx? (·.children.contains ⟨i⟩)).map .mk⟩).toArray
  pats := (pats.zipIdx exprs.length |>.map fun (p, i) => ⟨p, .byteAt i⟩).toArray
  params
  root := ⟨exprs.length - 1⟩

/-! ## Parts -/

/-- The pattern directly inside a statement. -/
def Statement.pattern? : Statement → Option PatId
  | .letPat pat _ _ => some pat
  | .expr _ => none

/-- The patterns directly inside an expression. -/
def Expr.patterns : Expr → List PatId
  | .block _ _ stmts _ => stmts.filterMap Statement.pattern?
  | .letCond pat _ => [pat]
  | .forLoop _ pat _ _ => [pat]
  | .matchOn _ arms => arms.map (·.pat)
  | .closure params _ _ _ => params.map (·.pat)
  | _ => []

/-- The expressions directly inside a pattern. -/
def Pat.constants : Pat → List ExprId
  | .lit expr => [expr]
  | .range start stop => start.toList ++ stop.toList
  | _ => []

/-- The patterns directly inside a pattern. -/
def Pat.subpatterns : Pat → List PatId
  | .bind _ _ sub => sub.toList
  | .tuple pats => pats
  | .tupleStruct _ args => args
  | .structPat _ fields => fields.map (·.2)
  | .ref pat _ => [pat]
  | .slice front rest back => front ++ rest.toList ++ back
  | .or alternatives => alternatives
  | _ => []

def Expr.parts (e : Expr) : List Site := e.children.map .expr ++ e.patterns.map .pat

def Pat.parts (p : Pat) : List Site := p.constants.map .expr ++ p.subpatterns.map .pat

def Statement.parts (stmt : Statement) : List Site :=
  (Expr.ofStatement stmt).map .expr ++ stmt.pattern?.toList.map .pat

def MatchArm.parts (arm : MatchArm) : List Site :=
  .pat arm.pat :: (arm.guard.toList ++ [arm.expr]).map .expr

theorem Expr.parts_block (kind : BlockKind) (label : Option String) (stmts : List Statement)
    (tail : Option ExprId) :
    (stmts.flatMap Statement.parts ++ tail.toList.map Site.expr).Perm
      (Expr.block kind label stmts tail).parts := by
  have hstmts : (stmts.flatMap Statement.parts).Perm
      ((stmts.flatMap Expr.ofStatement).map .expr ++
        (stmts.filterMap Statement.pattern?).map .pat) := by
    rw [List.map_flatMap, List.filterMap_eq_flatMap_toList, List.map_flatMap]
    exact (List.flatMap_append_perm ..).symm
  rw [Expr.parts, Expr.children, Expr.patterns, List.map_append, List.append_assoc]
  refine (hstmts.append_right _).trans ?_
  rw [List.append_assoc]
  exact List.perm_append_comm.append_left _

theorem Expr.parts_matchOn (scrutinee : ExprId) (arms : List MatchArm) :
    (.expr scrutinee :: arms.flatMap MatchArm.parts).Perm (Expr.matchOn scrutinee arms).parts := by
  refine .cons _ ?_
  rw [Expr.patterns, List.map_flatMap, List.map_map, List.map_eq_flatMap]
  refine .trans ?_ List.perm_append_comm
  exact (List.flatMap_append_perm arms (fun arm => [Site.pat arm.pat]) _).symm

namespace Body

variable {outer inner id : ExprId}

open Relation

variable {body : Body} {site x : Site} {roots roots' nodes nodes' : List Site}

/-- The parts of a node. -/
def parts (body : Body) : Site → Except Fault (List Site)
  | .expr id => do return (← body.expr id).parts
  | .pat id => do return (← body.pat id).parts

/-- Where a walk of the body of `owner` begins: at its root, and for a function also at the patterns
of its parameters. -/
def entries (body : Body) : Owner → List Site
  | .function _ => body.params.map .pat ++ [.expr body.root]
  | _ => [.expr body.root]

/-- The pattern binds a variable. -/
def Binds (body : Body) (id : PatId) : Prop :=
  ∃ name mode sub, body.pat id = .ok (.bind name mode sub)

/-- A node is reached through parts of parts. -/
def Reaches (body : Body) : Site → Site → Prop :=
  ReflTransGen fun a b => ∃ parts, body.parts a = .ok parts ∧ b ∈ parts

theorem parts_expr {e : Expr} (h : body.expr id = .ok e) : body.parts (.expr id) = .ok e.parts := by
  rw [Body.parts, h]
  rfl

theorem parts_pat {id : PatId} {p : Pat} (h : body.pat id = .ok p) :
    body.parts (.pat id) = .ok p.parts := by
  rw [Body.parts, h]
  rfl

theorem exprNode_eq_ok_iff {node : ExprNode} :
    body.exprNode id = .ok node ↔ body.exprs[id.index]? = some node := by
  rw [exprNode, entry]
  cases body.exprs[id.index]? with
  | none => exact iff_of_false nofun nofun
  | some found => simp

/-- The expression is one of the body. -/
def HasExpr (body : Body) (id : ExprId) : Prop := ∃ e, body.expr id = .ok e

theorem HasExpr.exists_node (h : body.HasExpr id) : ∃ node, body.exprs[id.index]? = some node := by
  obtain ⟨e, he⟩ := h
  obtain ⟨node, hnode, -⟩ := Except.bind_eq_ok he
  exact ⟨node, exprNode_eq_ok_iff.1 hnode⟩

theorem length_le_of_nodup {ids : List ExprId} (hnodup : ids.Nodup)
    (hids : ∀ id ∈ ids, body.HasExpr id) : ids.length ≤ body.exprs.size := by
  have hindices : (ids.map ExprId.index).Nodup := hnodup.map fun _ _ => ExprId.index_inj.1
  have hsubset : ids.map ExprId.index ⊆ List.range body.exprs.size := by
    intro i hi
    obtain ⟨id, hid, rfl⟩ := List.mem_map.1 hi
    obtain ⟨node, hnode⟩ := (hids id hid).exists_node
    exact List.mem_range.2 (Array.getElem?_eq_some_iff.1 hnode).1
  have hlength := (List.subperm_of_subset hindices hsubset).length_le
  rwa [List.length_map, List.length_range] at hlength

theorem reaches_iff {parts : List Site} (h : body.parts site = .ok parts) :
    body.Reaches site x ↔ x = site ∨ ∃ p ∈ parts, body.Reaches p x := by
  rw [Reaches, ReflTransGen.cases_head_iff]
  constructor
  · rintro (rfl | ⟨p, ⟨parts', hparts, hp⟩, hx⟩)
    · exact .inl rfl
    · rw [h] at hparts
      cases hparts
      exact .inr ⟨p, hp, hx⟩
  · rintro (rfl | ⟨p, hp, hx⟩)
    · exact .inl rfl
    · exact .inr ⟨p, ⟨parts, h, hp⟩, hx⟩

/-! ## Traversals -/

/-- A traversal from `roots` ends and meets `nodes`, in this order. -/
inductive Lists (body : Body) : List Site → List Site → Prop
  | nil : Lists body [] []
  | cons {site : Site} {parts below rest nodes : List Site} : body.parts site = .ok parts →
    Lists body parts below → Lists body rest nodes →
    Lists body (site :: rest) (site :: below ++ nodes)

/-- A traversal from the entries ends without meeting a node twice. -/
def TreeShaped (body : Body) (owner : Owner) : Prop :=
  ∃ nodes, body.Lists (body.entries owner) nodes ∧ nodes.Nodup

namespace Lists

theorem mem_iff (h : body.Lists roots nodes) : x ∈ nodes ↔ ∃ r ∈ roots, body.Reaches r x := by
  induction h with
  | nil => simp
  | cons hparts _ _ ih ih' =>
    simp only [List.cons_append, List.mem_cons, List.mem_append, ih, ih', exists_eq_or_imp,
      reaches_iff hparts, or_assoc]

theorem split (h : body.Lists (roots ++ roots') nodes) :
    ∃ first rest, nodes = first ++ rest ∧ body.Lists roots first ∧ body.Lists roots' rest := by
  induction roots generalizing nodes with
  | nil => exact ⟨[], nodes, rfl, .nil, h⟩
  | cons site roots ih =>
    cases h with
    | @cons _ _ below _ others hparts hbelow hothers =>
      obtain ⟨first, rest, rfl, hfirst, hrest⟩ := ih hothers
      exact ⟨site :: below ++ first, rest, by simp, .cons hparts hbelow hfirst, hrest⟩

/-- The order of the roots does not matter to what a traversal meets. -/
theorem perm (h : body.Lists roots nodes) (hroots : roots.Perm roots') :
    ∃ nodes', body.Lists roots' nodes' ∧ nodes.Perm nodes' := by
  induction hroots generalizing nodes with
  | nil => exact ⟨nodes, h, .refl _⟩
  | cons site _ ih =>
    cases h with
    | cons hparts hbelow hrest =>
      obtain ⟨nodes', hlists, hperm⟩ := ih hrest
      exact ⟨_, .cons hparts hbelow hlists, hperm.append_left _⟩
  | swap first second roots =>
    cases h with
    | @cons _ _ below _ _ hparts hbelow h =>
      cases h with
      | @cons _ _ below' _ nodes hparts' hbelow' h =>
        refine ⟨_, .cons hparts' hbelow' (.cons hparts hbelow h), ?_⟩
        rw [← List.append_assoc, ← List.append_assoc]
        exact List.perm_append_comm.append_right nodes
  | trans _ _ ih ih' =>
    obtain ⟨nodes', hlists, hperm⟩ := ih h
    obtain ⟨nodes'', hlists', hperm'⟩ := ih' hlists
    exact ⟨nodes'', hlists', hperm.trans hperm'⟩

/-- The traversal of a node is part of every traversal that meets it. -/
theorem exists_sublist (h : body.Lists roots nodes)
    (hsite : site ∈ nodes) : ∃ nodes', body.Lists [site] nodes' ∧ nodes'.Sublist nodes := by
  induction h with
  | nil => cases hsite
  | @cons root parts below rest nodes hparts hbelow _ ih ih' =>
    rcases List.mem_append.1 hsite with hsite | hsite
    · rcases List.mem_cons.1 hsite with rfl | hsite
      · exact ⟨_, .cons hparts hbelow .nil, (List.nil_sublist nodes).append_left _⟩
      · obtain ⟨nodes', hlists, hsub⟩ := ih hsite
        refine ⟨nodes', hlists, hsub.trans ((List.sublist_cons_self root below).trans ?_)⟩
        exact List.sublist_append_left ..
    · obtain ⟨nodes', hlists, hsub⟩ := ih' hsite
      exact ⟨nodes', hlists, hsub.trans (List.sublist_append_right ..)⟩

theorem perm_parts (h : body.Lists roots nodes) :
    nodes.Perm (roots ++ nodes.flatMap fun n => (body.parts n).toOption.getD []) := by
  induction h with
  | nil => exact .refl _
  | @cons site parts below rest nodes hparts _ _ ih ih' =>
    have hsite : (body.parts site).toOption.getD [] = parts := by rw [hparts]; rfl
    rw [List.cons_append, List.flatMap_cons, List.flatMap_append, hsite, List.cons_append]
    refine .cons site ((ih.append ih').trans ?_)
    rw [← List.append_assoc parts]
    exact List.perm_append_comm_assoc ..

end Lists

/-! ## Enclosing expressions -/

/-- The parent links of `inner` lead to `outer`, or the two are the same. -/
def Encloses (body : Body) (outer inner : ExprId) : Prop :=
  ReflTransGen (fun a b => body.parent? a = .ok (some b)) inner outer

/-- Climbing the parent links decides whether an expression encloses another. -/
theorem climbsTo_eq_ok {n : Nat} {b : Bool} (h : body.climbsTo outer n inner = .ok b) :
    b = true ↔ body.Encloses outer inner := by
  induction n generalizing inner with
  | zero => cases h
  | succ n ih =>
    rw [climbsTo] at h
    split at h
    · next heq =>
      cases h
      cases heq
      exact iff_of_true rfl .refl
    · next hne =>
      obtain ⟨parent, hparent, hrest⟩ := Except.bind_eq_ok h
      rw [Encloses, ReflTransGen.cases_head_iff]
      cases parent with
      | none =>
        cases hrest
        refine iff_of_false Bool.false_ne_true ?_
        rintro (rfl | ⟨p, hp, -⟩)
        · exact hne rfl
        · rw [hparent] at hp
          cases hp
      | some parent =>
        rw [ih hrest]
        constructor
        · exact fun hclimbs => Or.inr ⟨parent, hparent, hclimbs⟩
        · rintro (rfl | ⟨p, hp, hclimbs⟩)
          · exact absurd rfl hne
          · rw [hparent] at hp
            cases hp
            exact hclimbs

/-- The parent of an expression has it as a child. -/
def Linked (body : Body) : Prop :=
  ∀ id parent, body.parent? id = .ok (some parent) →
    ∃ e, body.expr parent = .ok e ∧ id ∈ e.children

theorem Linked.reaches (h : body.Linked) (hencloses : body.Encloses outer inner) :
    body.Reaches (.expr outer) (.expr inner) := by
  induction hencloses with
  | refl => exact .refl
  | tail _ hparent ih =>
    obtain ⟨e, he, hchild⟩ := h _ _ hparent
    refine .head ⟨e.parts, parts_expr he, ?_⟩ ih
    exact List.mem_append_left _ (List.mem_map_of_mem hchild)

/-- The parent links of the body lead to expressions of it, and none leads back. -/
structure Rooted (body : Body) : Prop where
  parents : ∀ id parent, body.parent? id = .ok (some parent) → body.HasExpr parent
  acyclic : ∀ id parent, body.parent? id = .ok (some parent) → ¬ body.Encloses id parent

/-- A climb has left the expressions `below` behind, all of them different. -/
theorem Rooted.exists_climbsTo (h : body.Rooted) (outer : ExprId) {n : Nat} {inner : ExprId}
    {below : List ExprId} (hids : ∀ id ∈ inner :: below, body.HasExpr id)
    (hencloses : ∀ id ∈ below, body.Encloses inner id) (hnodup : (inner :: below).Nodup)
    (hlength : n + below.length = body.exprs.size + 1) :
    ∃ b, body.climbsTo outer n inner = .ok b := by
  induction n generalizing inner below with
  | zero =>
    have hle := length_le_of_nodup hnodup hids
    rw [List.length_cons] at hle
    omega
  | succ n ih =>
    rw [climbsTo]
    by_cases hfound : inner = outer
    · exact ⟨true, if_pos hfound⟩
    rw [if_neg hfound]
    obtain ⟨node, hnode⟩ := (hids inner (.head _)).exists_node
    have hparent : body.parent? inner = .ok node.parent := by
      rw [parent?, exprNode_eq_ok_iff.2 hnode]
      rfl
    rw [hparent]
    cases hlink : node.parent with
    | none => exact ⟨false, rfl⟩
    | some parent =>
      rw [hlink] at hparent
      have hup : body.Encloses parent inner := .single hparent
      have hnew : parent ∉ inner :: below := by
        intro hmem
        have hback : body.Encloses inner parent := by
          rcases List.mem_cons.1 hmem with rfl | hmem
          · exact .refl
          · exact hencloses parent hmem
        exact h.acyclic inner parent hparent hback
      have hids' := List.forall_mem_cons.2 ⟨h.parents inner parent hparent, hids⟩
      have hencloses' : ∀ id ∈ inner :: below, body.Encloses parent id :=
        List.forall_mem_cons.2 ⟨hup, fun id hid => (hencloses id hid).trans hup⟩
      refine ih hids' hencloses' (List.nodup_cons.2 ⟨hnew, hnodup⟩) ?_
      rw [List.length_cons]
      omega

theorem Rooted.exists_isAncestorOf (h : body.Rooted) (outer : ExprId) {inner : ExprId}
    (hinner : body.HasExpr inner) : ∃ b, body.isAncestorOf outer inner = .ok b :=
  h.exists_climbsTo outer (List.forall_mem_cons.2 ⟨hinner, List.forall_mem_nil _⟩)
    (List.forall_mem_nil _) (List.nodup_singleton _) rfl

end Body

namespace Draft

variable {linked nodes : List ExprNode}

/-- The nodes in `linked` are those in `nodes`, with links to parents that have them as children. -/
structure LinksTo (nodes linked : List ExprNode) : Prop where
  exprs : linked.map (·.expr) = nodes.map (·.expr)
  parents : ∀ (i : Nat) node parent, linked[i]? = some node → node.parent = some parent →
    ∃ owner, nodes[parent.index]? = some owner ∧ ⟨i⟩ ∈ owner.expr.children

/-- Linking a child keeps the links those of the child relation. -/
theorem LinksTo.linkChild {linked' : List ExprNode} {parent child : ExprId} {owner : ExprNode}
    (h : LinksTo nodes linked) (howner : nodes[parent.index]? = some owner)
    (hchild : child ∈ owner.expr.children) (hlink : linkChild parent linked child = .ok linked') :
    LinksTo nodes linked' := by
  rw [Draft.linkChild] at hlink
  split at hlink
  swap
  · cases hlink
  cases hlink
  constructor
  · rw [← h.exprs]
    refine List.ext_getElem? fun i => ?_
    rw [List.getElem?_map, List.getElem?_map, List.getElem?_modify]
    split
    · rw [Option.map_eq_map, Option.map_map]
      rfl
    · rw [id_map']
  · intro i node p hnode hp
    rw [List.getElem?_modify] at hnode
    split at hnode
    · next hi =>
      obtain ⟨old, -, rfl⟩ := Option.map_eq_some_iff.1 hnode
      cases hp
      cases hi
      exact ⟨owner, howner, hchild⟩
    · rw [id_map'] at hnode
      exact h.parents i node p hnode hp

theorem linksTo_of_linkParents (hnone : ∀ node ∈ nodes, node.parent = none)
    (h : linkParents nodes = .ok linked) : LinksTo nodes linked := by
  refine Except.foldlM_keeps (P := LinksTo nodes) ?_ h ?_
  · rintro ⟨node, i⟩ hmem _ _ hlinks hchildren
    have hnode : nodes[i]? = some node := List.mk_mem_zipIdx_iff_getElem?.1 hmem
    refine Except.foldlM_keeps (P := LinksTo nodes) ?_ hchildren hlinks
    exact fun child hchild _ _ hlinks hlink => hlinks.linkChild hnode hchild hlink
  · refine ⟨rfl, fun i node parent hnode hparent => ?_⟩
    rw [hnone node (List.mem_of_getElem? hnode)] at hparent
    cases hparent

/-- A draft has no parent links of its own, and finishing it gives a linked body. -/
theorem linked_of_finish {draft : Draft} {params : List PatId} {root : ExprId} {body : Body}
    {names : Names} (hnone : ∀ node ∈ draft.exprs, node.parent = none)
    (h : draft.finish params root = .ok (body, names)) : body.Linked := by
  obtain ⟨linked, hlinked, ⟨⟩⟩ := Except.bind_eq_ok h
  have hlinks := linksTo_of_linkParents hnone hlinked
  intro id parent hparent
  obtain ⟨node, hnode, hparent⟩ := Except.bind_eq_ok hparent
  rw [Body.exprNode_eq_ok_iff, List.getElem?_toArray] at hnode
  rcases hlinks.parents id.index node parent hnode (Except.ok.inj hparent) with
    ⟨owner, howner, hchild⟩
  -- The parent is among the linked nodes as well.
  have hexpr := congrArg (·[parent.index]?) hlinks.exprs
  simp only [List.getElem?_map, howner, Option.map_some] at hexpr
  obtain ⟨node', hnode', heq⟩ := Option.map_eq_some_iff.1 hexpr
  refine ⟨node'.expr, ?_, heq ▸ hchild⟩
  have hfound : Body.exprNode ⟨linked.toArray, draft.pats.toArray, params, root⟩ parent =
      .ok node' := by
    rw [Body.exprNode_eq_ok_iff, List.getElem?_toArray, hnode']
  rw [Body.expr, hfound]
  rfl

end Draft

end TypeInference
