import TypeInference.Proofs.Sessions

/-!
# One report on the way from an expression to the root

Before a mismatch is reported at an expression, the reports made so far are searched for one inside
it. So a later mismatch never encloses an earlier report. Nor does an earlier mismatch enclose a
later one: an expression is converted when everything inside it has been visited, and nothing of
that is visited again.
-/

namespace TypeInference

variable {d d' : Diagnostic} {f : Ty → Except Fault Ty}

open Infer

/-! ## Reporting a mismatch -/

namespace Infer

variable {α : Type} {scope : Scope} {s s' : State} {shape : Option (Shape × Subst)}
  {expected source target actual ty : Ty} {id : ExprId} {found ok : Bool}

theorem anyM_eq_ok (hs : s.WellFormed) {p : α → Infer Bool} {xs : List α}
    (hp : ∀ a, Keeps scope (p a)) (h : xs.anyM p scope s = .ok (found, s')) :
    s' = s ∧ (found = false → ∀ a ∈ xs, p a scope s = .ok (false, s)) := by
  induction xs with
  | nil =>
    cases h
    exact ⟨rfl, fun _ => List.forall_mem_nil _⟩
  | cons a xs ih =>
    obtain ⟨first, s₁, hfirst, hrest⟩ := bind_eq_ok h
    obtain rfl := hp a hs hfirst
    cases first with
    | true =>
      cases hrest
      exact ⟨rfl, nofun⟩
    | false =>
      obtain ⟨rfl, hothers⟩ := ih hrest
      exact ⟨rfl, fun hfound => List.forall_mem_cons.2 ⟨hfirst, hothers hfound⟩⟩

/-- Nothing is found only if no report is inside. -/
theorem hasReportWithin_eq_ok (hs : s.WellFormed)
    (h : hasReportWithin id scope s = .ok (found, s')) : s' = s ∧ (found = false →
      ∀ d ∈ s.diagnostics, ∀ x, d.site = .expr x → ¬ scope.body.Encloses id x) := by
  obtain ⟨_, _, ⟨⟩, hrest⟩ := bind_eq_ok h
  obtain ⟨_, _, ⟨⟩, hany⟩ := bind_eq_ok hrest
  rcases anyM_eq_ok hs (fun d => by
    cases d.site with
    | expr other => exact .lift
    | pat other => exact .pure _) hany with ⟨hs', hnone⟩
  refine ⟨hs', fun hfound d hd x hx hencloses => ?_⟩
  have hfalse := hnone hfound d hd
  rw [hx] at hfalse
  exact Bool.false_ne_true ((Body.climbsTo_eq_ok (lift_eq_ok hfalse).1).2 hencloses)

/-- A mismatch is reported with the types as they are known, if they are definite and nothing was
reported inside the site. -/
theorem reportMismatch_eq_ok {site : Site} (hs : s.WellFormed)
    (h : reportMismatch site expected actual scope s = .ok ((), s')) :
    s' = s ∨ ∃ e a, s.vars.resolve expected = .ok e ∧ s.vars.resolve actual = .ok a ∧
      isIndefinite e = false ∧ isIndefinite a = false ∧
      (∀ id, site = .expr id → ∀ d ∈ s.diagnostics, ∀ x, d.site = .expr x →
        ¬ scope.body.Encloses id x) ∧
      s' = { s with diagnostics := s.diagnostics ++ [.mismatch site e a] } := by
  obtain ⟨_, _, ⟨⟩, hrest⟩ := bind_eq_ok h
  by_cases hconfig : scope.config.reportMismatches = true
  swap
  · rw [if_neg hconfig] at hrest
    cases hrest
    exact .inl rfl
  rw [if_pos hconfig] at hrest
  obtain ⟨e, s₁, hexpected, hnext⟩ := bind_eq_ok hrest
  obtain ⟨he, rfl⟩ := readVars_eq_ok hexpected
  obtain ⟨a, s₂, hactual, hlast⟩ := bind_eq_ok hnext
  obtain ⟨ha, rfl⟩ := readVars_eq_ok hactual
  by_cases hindefinite : (isIndefinite e || isIndefinite a) = true
  · rw [if_pos hindefinite] at hlast
    cases hlast
    exact .inl rfl
  rw [if_neg hindefinite] at hlast
  rw [Bool.not_eq_true, Bool.or_eq_false_iff] at hindefinite
  cases site with
  | pat id =>
    cases hlast
    exact .inr ⟨e, a, he, ha, hindefinite.1, hindefinite.2, nofun, rfl⟩
  | expr id =>
    obtain ⟨known, s₃, hknown, hreport⟩ := bind_eq_ok hlast
    obtain ⟨rfl, hnone⟩ := hasReportWithin_eq_ok hs hknown
    cases known with
    | true =>
      cases hreport
      exact .inl rfl
    | false =>
      cases hreport
      refine .inr ⟨e, a, he, ha, hindefinite.1, hindefinite.2, ?_, rfl⟩
      rintro _ ⟨⟩
      exact hnone rfl

/-- A conversion that fails may be reported. -/
theorem coerce_eq_ok (hs : s.WellFormed) (h : coerce id source target scope s = .ok (ok, s')) :
    ∃ source' target' s₁ s₂, s₁.WellFormed ∧
      tryCoerce id source' target' scope s₁ = .ok (ok, s₂) ∧ s.Evolves s₂ ∧ s.Quiet s₂ ∧
      (s' = s₂ ∨
        ok = false ∧ reportMismatch (.expr id) target' source' scope s₂ = .ok ((), s')) := by
  obtain ⟨source', s₁, hsource, hrest⟩ := bind_eq_ok h
  obtain ⟨target', s₂, htarget, hnext⟩ := bind_eq_ok hrest
  obtain ⟨ok', s₃, htry, hlast⟩ := bind_eq_ok hnext
  obtain ⟨hev₁, hquiet₁⟩ := Regular.resolveSettled.quiet hs hsource
  have hs₁ := (hev₁.spec hs).1
  obtain ⟨hev₂, hquiet₂⟩ := Regular.resolveSettled.quiet hs₁ htarget
  have hs₂ := (hev₂.spec hs₁).1
  obtain ⟨hev₃, hquiet₃⟩ := Regular.tryCoerce.quiet hs₂ htry
  have hev := (hev₁.trans hev₂).trans hev₃
  have hquiet := (hquiet₁.trans hquiet₂).trans hquiet₃
  cases ok' with
  | true =>
    cases hlast
    exact ⟨source', target', s₂, _, hs₂, htry, hev, hquiet, Or.inl rfl⟩
  | false =>
    obtain ⟨_, s₄, hreport, ⟨⟩⟩ := bind_eq_ok hlast
    exact ⟨source', target', s₂, s₃, hs₂, htry, hev, hquiet, Or.inr ⟨rfl, hreport⟩⟩

/-- A pattern of another type may be reported. -/
theorem variantShape_eq_ok {id : PatId} (hs : s.WellFormed)
    (h : Walk.variantShape id expected scope s = .ok (shape, s')) :
    s' = s ∨ ∃ variant args s₁ ok s₂, s₁.WellFormed ∧
      combine expected (.adt variant args) scope s₁ = .ok (ok, s₂) ∧ s.Evolves s₂ ∧ s.Quiet s₂ ∧
      (s' = s₂ ∨ ok = false ∧
        reportMismatch (.pat id) expected (.adt variant args) scope s₂ = .ok ((), s')) := by
  obtain ⟨_, _, ⟨⟩, hrest⟩ := bind_eq_ok h
  cases hvariant : scope.names.variant? (.pat id) with
  | none =>
    rw [hvariant] at hrest
    cases hrest
    exact .inl rfl
  | some found =>
    obtain ⟨variant, explicit⟩ := found
    rw [hvariant] at hrest
    obtain ⟨⟨adt, subst, args⟩, s₁, hadt, hnext⟩ := bind_eq_ok hrest
    obtain ⟨ok, s₂, hcombine, hlast⟩ := bind_eq_ok hnext
    obtain ⟨hev₁, hquiet₁⟩ := (Orderly.instantiateAdt within_true).anyway.quiet hs hadt
    have hs₁ := (hev₁.spec hs).1
    obtain ⟨hev₂, hquiet₂⟩ := Regular.combine.quiet hs₁ hcombine
    refine .inr ⟨variant.adt, args, s₁, ok, s₂, hs₁, hcombine, hev₁.trans hev₂,
      hquiet₁.trans hquiet₂, ?_⟩
    cases ok with
    | true =>
      cases hlast
      exact .inl rfl
    | false =>
      obtain ⟨_, s₃, hreport, ⟨⟩⟩ := bind_eq_ok hlast
      exact .inr ⟨rfl, hreport⟩

/-- A literal makes a variable for a number at most. -/
theorem literal_eq_ok {lit : Literal} {expected : Option Ty}
    (h : Walk.literal lit expected scope s = .ok (ty, s')) :
    s' = s ∨ freshInt scope s = .ok (ty, s') ∨ freshFloat scope s = .ok (ty, s') := by
  match lit with
  | .int none =>
    have hrun : Walk.plainInt expected scope s = .ok (ty, s') := h
    unfold Walk.plainInt at hrun
    split at hrun
    case h_6 => exact .inr (Or.inl hrun)
    all_goals
      cases hrun
      exact .inl rfl
  | .float none =>
    have hrun : Walk.plainFloat expected scope s = .ok (ty, s') := h
    unfold Walk.plainFloat at hrun
    split at hrun
    case h_3 => exact .inr (Or.inr hrun)
    all_goals
      cases hrun
      exact .inl rfl
  | .bool _ | .char | .byteChar | .str | .byteStr _ | .int (some _) | .float (some _) =>
    cases h
    exact .inl rfl

/-- At most one mismatch is reported, and at an expression only if nothing was reported inside. -/
theorem diagnostics_of_report {site : Site} {s₂ : State} (hs : s.WellFormed) (hev : s.Evolves s₂)
    (hquiet : s.Quiet s₂)
    (h : s' = s₂ ∨ ok = false ∧ reportMismatch site expected actual scope s₂ = .ok ((), s')) :
    s'.diagnostics = s.diagnostics ∨
      (∃ e a, s'.diagnostics = s.diagnostics ++ [.mismatch site e a]) ∧ ∀ id, site = .expr id →
        ∀ d ∈ s.diagnostics, ∀ x, d.site = .expr x → ¬ scope.body.Encloses id x := by
  rw [← hquiet.diagnostics]
  rcases h with rfl | ⟨-, hreport⟩
  · exact .inl rfl
  rcases reportMismatch_eq_ok (hev.spec hs).1 hreport with rfl | ⟨e, a, -, -, -, -, hnone, rfl⟩
  · exact .inl rfl
  · exact .inr ⟨⟨e, a, rfl⟩, hnone⟩

end Infer

/-! ## The reports of a walk -/

/-- The expression whose type is not the expected one. -/
def Diagnostic.mismatched? : Diagnostic → Option ExprId
  | .mismatch (.expr id) .. => some id
  | _ => none

theorem Diagnostic.mapM_eq_ok (h : d.mapM f = .ok d') :
    d'.site = d.site ∧ d'.mismatched? = d.mismatched? := by
  cases d with
  | mismatch site expected actual =>
    obtain ⟨e, -, hrest⟩ := Except.bind_eq_ok h
    obtain ⟨a, -, ⟨⟩⟩ := Except.bind_eq_ok hrest
    cases site <;> exact ⟨rfl, rfl⟩
  | cannotDeref id ty =>
    obtain ⟨ty', -, ⟨⟩⟩ := Except.bind_eq_ok h
    exact ⟨rfl, rfl⟩

theorem Diagnostic.site_of_mismatched? {id : ExprId} (h : d.mismatched? = some id) :
    d.site = .expr id := by
  match d, h with
  | .mismatch (.expr id) .., h =>
    cases h
    rfl

namespace Body

variable {body : Body} {roots roots' parts : List Site} {site : Site}
  {before new new' ds ds' : List Diagnostic}

/-- No mismatch at an expression comes after a report at it or inside it. -/
def Orderly (body : Body) (ds : List Diagnostic) : Prop :=
  ds.Pairwise fun d d' => ∀ x y, d.site = .expr x → d'.mismatched? = some y → ¬ body.Encloses y x

/-- A later mismatch encloses no earlier report, and no earlier mismatch encloses it. -/
def Separate (body : Body) (d d' : Diagnostic) : Prop :=
  ∀ y, d'.mismatched? = some y → (∀ x, d.site = .expr x → ¬ body.Encloses y x) ∧
    ∀ x, d.mismatched? = some x → ¬ body.Encloses x y

/-- What a walk from `roots` adds to the reports `before`: mismatches at expressions that are
reached, and none of them inside the expression of an earlier one. -/
structure Reports (body : Body) (roots : List Site) (before new : List Diagnostic) : Prop where
  orderly : body.Orderly before → body.Orderly (before ++ new)
  reached : ∀ d ∈ new, ∀ x, d.mismatched? = some x → body.From roots (.expr x)
  apart : ∀ nodes, body.Lists roots nodes → nodes.Nodup → new.Pairwise fun d d' =>
    ∀ x y, d.mismatched? = some x → d'.mismatched? = some y →
      body.Reaches (.expr x) (.expr y) → x = y

namespace Reports

theorem nil (before : List Diagnostic) : body.Reports [] before [] where
  orderly h := by rwa [List.append_nil]
  reached := List.forall_mem_nil _
  apart _ _ _ := .nil

/-- Nodes that are visited later are not inside those before. -/
theorem trans (h : body.Reports roots before new) (h' : body.Reports roots' (before ++ new) new') :
    body.Reports (roots ++ roots') before (new ++ new') where
  orderly hbefore := by
    rw [← List.append_assoc]
    exact h'.orderly (h.orderly hbefore)
  reached d hd x hx := by
    refine from_append.2 ((List.mem_append.1 hd).imp (fun hd => ?_) fun hd => ?_)
    · exact h.reached d hd x hx
    · exact h'.reached d hd x hx
  apart nodes hlists hnodup := by
    obtain ⟨first, rest, rfl, hfirst, hrest⟩ := hlists.split
    refine List.pairwise_append.2 ⟨?_, ?_, ?_⟩
    · exact h.apart first hfirst hnodup.of_append_left
    · exact h'.apart rest hrest hnodup.of_append_right
    · -- What is reached from both would be met twice.
      intro d hd d' hd' x y hx hy hxy
      obtain ⟨r, hr, hreach⟩ := h.reached d hd x hx
      have hleft : Site.expr y ∈ first := hfirst.mem_iff.2 ⟨r, hr, hreach.trans hxy⟩
      have hright : Site.expr y ∈ rest := hrest.mem_iff.2 (h'.reached d' hd' y hy)
      exact absurd hright (hnodup.disjoint hleft)

theorem perm (h : body.Reports roots before new) (hperm : roots.Perm roots') :
    body.Reports roots' before new where
  orderly := h.orderly
  reached d hd x hx := by
    obtain ⟨r, hr, hreach⟩ := h.reached d hd x hx
    exact ⟨r, hperm.mem_iff.1 hr, hreach⟩
  apart nodes hlists hnodup := by
    obtain ⟨nodes', hlists', hnodes⟩ := hlists.perm hperm.symm
    exact h.apart nodes' hlists' (hnodes.nodup_iff.1 hnodup)

theorem node (h : body.Reports parts before new) (hparts : body.parts site = .ok parts) :
    body.Reports [site] before new where
  orderly := h.orderly
  reached d hd x hx :=
    ⟨site, List.mem_singleton_self _, (reaches_iff hparts).2 (Or.inr (h.reached d hd x hx))⟩
  apart nodes hlists hnodup := by
    cases hlists with
    | @cons _ parts' below _ _ hparts' hbelow hrest =>
      rw [hparts] at hparts'
      cases hparts'
      exact h.apart below hbelow (List.nodup_cons.1 hnodup.of_append_left).2

theorem other (hd : d.mismatched? = none) : body.Reports [] before [d] where
  orderly hbefore := by
    refine List.pairwise_append.2 ⟨hbefore, List.pairwise_singleton .., ?_⟩
    intro d₁ _ d₂ hd₂ x y _ hy
    rw [List.mem_singleton.1 hd₂, hd] at hy
    cases hy
  reached d' hd' x hx := by
    rw [List.mem_singleton.1 hd', hd] at hx
    cases hx
  apart _ _ _ := List.pairwise_singleton ..

/-- An expression that is converted encloses nothing reported. -/
theorem converted {id : ExprId} {e a : Ty} (h : body.Reports [.expr id] before new)
    (hnone : ∀ d ∈ before ++ new, ∀ x, d.site = .expr x → ¬ body.Encloses id x) :
    body.Reports [.expr id] before (new ++ [.mismatch (.expr id) e a]) where
  orderly hbefore := by
    rw [← List.append_assoc]
    refine List.pairwise_append.2 ⟨h.orderly hbefore, List.pairwise_singleton .., ?_⟩
    intro d hd d' hd' x y hx hy
    cases List.mem_singleton.1 hd'
    cases hy
    exact hnone d hd x hx
  reached d hd x hx := by
    rcases List.mem_append.1 hd with hd | hd
    · exact h.reached d hd x hx
    · cases List.mem_singleton.1 hd
      cases hx
      exact ⟨.expr id, List.mem_singleton_self _, .refl⟩
  apart nodes hlists hnodup := by
    refine List.pairwise_append.2 ⟨h.apart nodes hlists hnodup, List.pairwise_singleton .., ?_⟩
    intro d hd d' hd' x y hx hy hxy
    cases List.mem_singleton.1 hd'
    cases hy
    -- An expression inside this one does not contain it.
    obtain ⟨r, hr, hreach⟩ := h.reached d hd x hx
    cases List.mem_singleton.1 hr
    cases hlists with
    | @cons _ parts below _ _ hparts hbelow hrest =>
      rcases (reaches_iff hparts).1 hreach with hsame | ⟨p, hp, hpx⟩
      · cases hsame
        rfl
      · have hmem : Site.expr id ∈ below := hbelow.mem_iff.2 ⟨p, hp, hpx.trans hxy⟩
        exact absurd hmem (List.nodup_cons.1 hnodup.of_append_left).1

/-- In a tree, what is enclosed by an expression is met with it. -/
theorem separate {owner : Owner} (h : body.Reports (body.entries owner) [] new)
    (hlinked : body.Linked) (htree : body.TreeShaped owner) :
    new.Pairwise body.Separate := by
  obtain ⟨nodes, hlists, hnodup⟩ := htree
  have horderly : body.Orderly new := h.orderly .nil
  refine (horderly.and (h.apart nodes hlists hnodup)).imp ?_
  rintro d d' ⟨hd, hapart⟩ y hy
  refine ⟨fun x hx => hd x y hx hy, fun x hx hencloses => ?_⟩
  obtain rfl := hapart x y hx hy (hlinked.reaches hencloses)
  exact hd x x (Diagnostic.site_of_mismatched? hx) hy .refl

end Reports

/-- Which reports are separate does not depend on the types in them. -/
theorem separate_of_mapM (h : List.Forall₂ (fun d d' => d.mapM f = .ok d') ds ds')
    (hds : ds.Pairwise body.Separate) : ds'.Pairwise body.Separate := by
  let kind (d : Diagnostic) : Site × Option ExprId := (d.site, d.mismatched?)
  have hkinds : ds'.map kind = ds.map kind := by
    rw [← List.forall₂_eq_eq_eq, List.forall₂_map_left_iff, List.forall₂_map_right_iff]
    refine h.flip.imp fun d' d hd => ?_
    obtain ⟨hsite, hmismatched⟩ := Diagnostic.mapM_eq_ok hd
    exact Prod.ext hsite hmismatched
  have hmap : (ds.map kind).Pairwise fun k k' => ∀ y, k'.2 = some y →
      (∀ x, k.1 = .expr x → ¬ body.Encloses y x) ∧ ∀ x, k.2 = some x → ¬ body.Encloses x y :=
    List.pairwise_map.2 hds
  rw [← hkinds, List.pairwise_map] at hmap
  exact hmap

end Body

namespace Walk

variable {scope : Scope} {roots : List Site} {s s' : State}

/-- The reports of a walk are at the nodes it visits. -/
theorem Trace.reports (hs : s.WellFormed) (h : Trace scope roots s s') :
    ∃ new, s'.diagnostics = s.diagnostics ++ new ∧ scope.body.Reports roots s.diagnostics new := by
  induction h with
  | quiet _ hquiet =>
    refine ⟨[], ?_, .nil _⟩
    rw [hquiet.diagnostics, List.append_nil]
  | trans hfirst _ ih ih' =>
    obtain ⟨new, hnew, hreports⟩ := ih hs
    obtain ⟨new', hnew', hreports'⟩ := ih' (hfirst.wellFormed hs)
    rw [hnew] at hnew' hreports'
    exact ⟨new ++ new', by rw [hnew', List.append_assoc], hreports.trans hreports'⟩
  | perm _ hperm ih =>
    obtain ⟨new, hnew, hreports⟩ := ih hs
    exact ⟨new, hnew, hreports.perm hperm⟩
  | exprAfter hparts _ _ _ ih =>
    obtain ⟨new, hnew, hreports⟩ := ih hs
    exact ⟨new, hnew, hreports.node hparts⟩
  | @exprBefore _ _ _ s _ hparts _ _ _ ih =>
    obtain ⟨new, hnew, hreports⟩ := ih ((s.evolves_exprTypes _).spec hs).1
    exact ⟨new, hnew, hreports.node hparts⟩
  | @literal id _ _ _ s _ hid hrun _ =>
    refine ⟨[], ?_, (Body.Reports.nil s.diagnostics).node (Body.parts_expr hid)⟩
    rw [List.append_nil]
    rcases literal_eq_ok hrun with rfl | hfresh | hfresh
    · rfl
    · cases hfresh
      rfl
    · cases hfresh
      rfl
  | @binding _ _ _ s _ hparts _ _ ih =>
    obtain ⟨new, hnew, hreports⟩ := ih ((s.evolves_bindings _).spec hs).1
    exact ⟨new, hnew, hreports.node hparts⟩
  | pat hparts _ _ ih =>
    obtain ⟨new, hnew, hreports⟩ := ih hs
    exact ⟨new, hnew, hreports.node hparts⟩
  | coerce hvisit hrun ih =>
    obtain ⟨new, hnew, hreports⟩ := ih hs
    have hs₁ := hvisit.wellFormed hs
    obtain ⟨_, _, _, s₂, -, -, hev, hquiet, h⟩ := coerce_eq_ok hs₁ hrun
    rcases diagnostics_of_report hs₁ hev hquiet h with hsame | ⟨⟨e, a, hreport⟩, hnone⟩
    · exact ⟨new, hsame.trans hnew, hreports⟩
    · rw [hnew] at hreport hnone
      exact ⟨_, by rw [hreport, List.append_assoc], hreports.converted (hnone _ rfl)⟩
  | variantShape hrun =>
    rcases variantShape_eq_ok hs hrun with rfl | ⟨_, _, _, _, s₂, -, -, hev, hquiet, h⟩
    · exact ⟨[], (List.append_nil _).symm, .nil _⟩
    rcases diagnostics_of_report hs hev hquiet h with hsame | ⟨⟨e, a, hreport⟩, -⟩
    · exact ⟨[], by rw [hsame, List.append_nil], .nil _⟩
    · exact ⟨_, hreport, .other rfl⟩
  | cannotDeref id ty s => exact ⟨_, rfl, .other rfl⟩

end Walk

/-! ## The reports of a session -/

/-- The body `(1u8, 'c')`. -/
def Body.pair : Body := .ofNodes
  [.literal (.int (some .u8)), .literal .char, .tuple [⟨0⟩, ⟨1⟩]] [] []

theorem Body.linked_pair : Body.pair.Linked := by
  let draft : Draft := ⟨[⟨.literal (.int (some .u8)), .byteAt 0, none⟩,
    ⟨.literal .char, .byteAt 1, none⟩, ⟨.tuple [⟨0⟩, ⟨1⟩], .byteAt 2, none⟩], [], .empty, 3⟩
  have hfinish : draft.finish [] ⟨2⟩ = .ok (.pair, .empty) := rfl
  exact Draft.linked_of_finish (by decide) hfinish

namespace Session

/-- In a tree, of two mismatches at expressions neither expression is the other or encloses it, and
no mismatch at an expression comes after a report, at it or inside it, of what cannot be
dereferenced. -/
theorem infer_reports_once (s : Session) (owner : Owner) (body : Body) (names : Names)
    (o : Outcome) (σ σ' : SessionState) (hbody : s.program.body? owner = some (body, names))
    (hlinked : body.Linked) (htree : body.TreeShaped owner)
    (h : s.infer owner σ = (.ok o, σ')) :
    (o.diagnostics.Pairwise fun d d' => ∀ x y, d.mismatched? = some x → d'.mismatched? = some y →
      ¬ body.Encloses x y ∧ ¬ body.Encloses y x) ∧
    o.diagnostics.Pairwise fun d d' => ∀ x ty y, d = .cannotDeref x ty → d'.mismatched? = some y →
      ¬ body.Encloses y x := by
  obtain ⟨body', scope, w, before, after, last, hproduces, hfinished⟩ := exists_finished h
  rcases hproduces.body_eq with ⟨names', env, hbody', -, hscope⟩
  rw [hbody] at hbody'
  cases hbody'
  rcases hproduces.trace.reports wellFormed_start with ⟨new, hnew, hreports⟩
  rw [hproduces.scope_body] at hreports
  have hclosed := hfinished.diagnostics_closed
  rw [hnew] at hclosed
  have hseparate := Body.separate_of_mapM hclosed (hreports.separate hlinked htree)
  constructor
  · refine hseparate.imp fun hd x y hx hy => ⟨(hd y hy).2 x hx, ?_⟩
    exact (hd y hy).1 x (Diagnostic.site_of_mismatched? hx)
  · refine hseparate.imp fun hd x ty y hx hy => (hd y hy).1 x ?_
    rw [hx]
    rfl

/-- A program with one constant, `(1u8, 'c')`, that is declared to be a pair of Booleans. -/
def pair : Session where
  program := {
    items := { Items.empty with consts := #[⟨"C", some (.tuple [.bool, .bool])⟩] }
    known := {}
    bodies := [(.const ⟨0⟩, .pair, .empty)] }

/-- Both elements are reported, and the pair is not. -/
theorem infer_reports_once_pair : Body.pair.Linked ∧ Body.pair.TreeShaped (.const ⟨0⟩) ∧
    ∃ o σ', pair.infer (.const ⟨0⟩) {} = (.ok o, σ') ∧
      o.diagnostics.map (·.mismatched?) = [some ⟨0⟩, some ⟨1⟩] ∧
      o.diagnostics.Pairwise fun d d' => ∀ x y, d.mismatched? = some x → d'.mismatched? = some y →
        ¬ Body.pair.Encloses x y ∧ ¬ Body.pair.Encloses y x := by
  have htree : Body.pair.TreeShaped (.const ⟨0⟩) :=
    ⟨_, .cons rfl (.cons rfl .nil (.cons rfl .nil .nil)) .nil, by decide⟩
  have hok : (pair.infer (.const ⟨0⟩) {}).1.toOption.map (·.diagnostics.map (·.mismatched?)) =
      some [some ⟨0⟩, some ⟨1⟩] := by
    decide +kernel
  obtain ⟨o, σ', hrun, hkinds⟩ := Except.exists_ok_of_fst hok
  have honce := infer_reports_once pair (.const ⟨0⟩) .pair .empty o {} σ' rfl Body.linked_pair
    htree hrun
  exact ⟨Body.linked_pair, htree, o, σ', hrun, hkinds, honce.1⟩

end Session

end TypeInference
