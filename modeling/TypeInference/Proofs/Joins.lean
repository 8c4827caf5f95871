import TypeInference.Proofs.Dereferences
import TypeInference.Proofs.DeterminedTypes

/-!
# Joins of branches

Branches are joined from the left. A branch that never finishes should not count, and it does not
where the branches before it have a type already. Where these joined to an open variable, it does
count: the variable is bound to the type of what never finishes.
-/

namespace TypeInference

open Infer

namespace Vars

variable {vs vs' : Vars} {a b h t : Ty} {i : Nat}

/-! ## Unification with what never finishes -/

theorem combine_never (hhead : vs.head a = .ok h) (hclosed : h.isTyVar = false) :
    combine a .never vs = .ok (true, vs) := by
  -- A type that is not a variable agrees with what never finishes at once.
  have hnode {follow : Var → Ty → VarM Bool} {u : Ty} (hu : u.isVar = false) :
      combineBy (pure .unknown) follow u .never vs = .ok (true, vs) := by
    rw [combineBy_eq _ _ hu, combineWith_of_node _ (head_of_node rfl) rfl]
    simp [Ty.isNever]
  rcases a.eq_var_or with ⟨v, rfl⟩ | ha
  · show followWithin (pure .unknown) (vs.tys.size + 1) v .never vs = _
    rw [followWithin_succ]
    rcases h.eq_var_or with ⟨root, rfl⟩ | hvar
    · rw [followWith_of_var _ hhead, head_of_node rfl, Except.ok_bind]
      cases root with
      | ty i => cases hclosed
      | int i | float i => exact combineVar_apart _ (t := .never) rfl rfl vs
    · rw [followWith_of_node _ hhead hvar]
      exact hnode hvar
  · exact hnode ha

theorem Sound.exists_binds_never (hs : vs.Sound) (hhead : vs.head a = .ok (.var (.ty i))) :
    ∃ vs', combine a .never vs = .ok (true, vs') ∧ vs.Binds (.ty i) .never vs' := by
  have hopen := (heads_of_head hhead).isOpen
  have hnever : vs.Grounded .never := grounded_iff.2 fun v hv => by cases hv
  obtain ⟨ok, vs', hrun⟩ := hs.exists_combine (grounded_of_unbound hopen.2) hnever
  obtain ⟨rfl, -, hbinds⟩ := hs.binds_of_combine hopen rfl hrun
  refine ⟨vs', ?_, hbinds⟩
  rcases a.eq_var_or with ⟨v, rfl⟩ | ha
  · have hfollow {w : Var} (hw : vs.head (.var w) = .ok (.var (.ty i))) :
        combine (.var w) .never vs = combineVar (pure .unknown) (.ty i) .never vs := by
      show followWithin (pure .unknown) (vs.tys.size + 1) w .never vs = _
      rw [followWithin_succ, followWith_of_var _ hw, head_of_node rfl, Except.ok_bind]
    rw [hfollow hhead, ← hfollow (hs.head_of_open hopen), hrun]
  · rw [head_of_node ha] at hhead
    cases hhead
    cases ha

/-! ## Joins that are alike -/

/-- The types are the same, or both give way to any branch that finishes. -/
def JoinedAlike (vs : Vars) (a b : Ty) : Prop :=
  a = b ∨ ∃ u, (u = .never ∨ u = .unknown) ∧ vs.head a = .ok u ∧ vs.head b = .ok u

theorem JoinedAlike.head_eq (hjoined : vs.JoinedAlike a b) : vs.head a = vs.head b := by
  rcases hjoined with rfl | ⟨u, -, ha, hb⟩
  · rfl
  · rw [ha, hb]

theorem JoinedAlike.exists_resolve (hs : vs.Sound) (hjoined : vs.JoinedAlike a b)
    (ha : vs.Grounded a) : ∃ r, vs.resolve a = .ok r ∧ vs.resolve b = .ok r := by
  obtain ⟨r, hr⟩ := (hs.resolve_settles .var a).exists_ok ha
  refine ⟨r, hr, ?_⟩
  rcases hjoined with rfl | ⟨u, -, hau, hbu⟩
  · exact hr
  · have hleft : vs.Alike a u := (heads_of_head hau).alike (.refl vs)
    have hright : vs.Alike b u := (heads_of_head hbu).alike (.refl vs)
    exact (hleft.trans hright.symm).resolveNode_eq hs hr

end Vars

/-! ## One branch -/

namespace Infer

variable {scope : Scope} {s s' : State} {a b branch : Ty} {ts : List Ty}

theorem joinTwo_of_head (h : Ty) : s.vars.head a = .ok h →
    joinTwo a branch scope s =
      (match h with
        | .never => pure branch
        | .unknown => pure (if branch.isNever then .unknown else branch)
        | _ => do
          unify a branch
          return a : Infer Ty) scope s :=
  fun hhead => bind_of_ok (readVars_of_ok hhead)

/-- A branch that finishes replaces what gives way. -/
theorem joinTwo_of_gives_way {u : Ty} (hu : u = .never ∨ u = .unknown)
    (hhead : s.vars.head a = .ok u) (hbranch : branch.isNever = false) :
    joinTwo a branch scope s = .ok (branch, s) := by
  rw [joinTwo_of_head _ hhead]
  rcases hu with rfl | rfl
  · rfl
  · simp only [hbranch]
    rfl

theorem joinTwo_of_combine {h : Ty} {ok : Bool} {vars : Vars} (hhead : s.vars.head a = .ok h)
    (hnever : h ≠ .never) (hunknown : h ≠ .unknown)
    (hcombine : Vars.combine a branch s.vars = .ok (ok, vars)) :
    joinTwo a branch scope s = .ok (a, { s with vars }) := by
  rw [joinTwo_of_head _ hhead]
  cases h with
  | never => exact absurd rfl hnever
  | unknown => exact absurd rfl hunknown
  | _ => exact ok_then (unify_run hcombine) rfl

/-- What is joined so far, and what there is to know about its variables, after a branch. -/
structure Joins (s : State) (c : Ty) (s' : State) : Prop where
  sound : s'.vars.Sound
  grounded : ∀ t, s.vars.Grounded t → s'.vars.Grounded t
  joined : s'.vars.Grounded c

theorem exists_joinTwo (hs : s.vars.Sound) (ha : s.vars.Grounded a) (hbranch : s.vars.Grounded branch)
    (hfinishes : branch.isNever = false) (hjoined : s.vars.JoinedAlike a b) :
    ∃ c s', joinTwo a branch scope s = .ok (c, s') ∧
      (∃ d, joinTwo b branch scope s = .ok (d, s') ∧ s'.vars.JoinedAlike c d) ∧ Joins s c s' := by
  obtain ⟨h, hhead⟩ := (hs.head_settles a).exists_ok ha
  by_cases hgives : h = .never ∨ h = .unknown
  · have hrun {a : Ty} (hhead : s.vars.head a = .ok h) :
        joinTwo a branch scope s = .ok (branch, s) :=
      joinTwo_of_gives_way hgives hhead hfinishes
    refine ⟨branch, s, hrun hhead, ⟨branch, hrun (hjoined.head_eq ▸ hhead), .inl rfl⟩, ?_⟩
    exact ⟨hs, fun _ ht => ht, hbranch⟩
  · obtain ⟨hnever, hunknown⟩ := not_or.1 hgives
    obtain ⟨ok, vars, hcombine⟩ := hs.exists_combine ha hbranch
    have hkeep {t : Ty} : s.vars.Grounded t → vars.Grounded t :=
      Vars.grounded_of_combineOr Vars.tolerant_unknown hs ha hbranch hcombine
    have hrun : joinTwo a branch scope s = .ok (a, { s with vars }) :=
      joinTwo_of_combine hhead hnever hunknown hcombine
    -- Types that are alike and do not give way are the same.
    obtain rfl : a = b := by
      rcases hjoined with rfl | ⟨u, hu, hau, -⟩
      · rfl
      · rw [hau] at hhead
        cases hhead
        exact absurd hu hgives
    exact ⟨a, { s with vars }, hrun, ⟨a, hrun, .inl rfl⟩,
      (Vars.combine_makesSteps a branch hs hcombine).sound hs, fun _ => hkeep, hkeep ha⟩

/-- What never finishes changes nothing that matters, or it meets an open variable. -/
theorem joinTwo_never (hs : s.vars.Sound) (ha : s.vars.Grounded a) (hjoined : s.vars.JoinedAlike a b) :
    (∃ c, joinTwo a .never scope s = .ok (c, s) ∧ s.vars.JoinedAlike c b ∧ s.vars.Grounded c) ∨
    ∃ i vars, s.vars.head a = .ok (.var (.ty i)) ∧
      joinTwo a .never scope s = .ok (a, { s with vars }) ∧
      s.vars.Binds (.ty i) .never vars := by
  obtain ⟨h, hhead⟩ := (hs.head_settles a).exists_ok ha
  have hheadb := hjoined.head_eq ▸ hhead
  by_cases hgives : h = .never ∨ h = .unknown
  · left
    refine ⟨h, ?_, .inr ⟨h, hgives, ?_, hheadb⟩, ?_⟩
    · rw [joinTwo_of_head _ hhead]
      rcases hgives with rfl | rfl <;> rfl
    · rcases hgives with rfl | rfl <;> rfl
    · exact (Vars.heads_of_head hhead).grounded_iff.1 ha
  · obtain ⟨hnever, hunknown⟩ := not_or.1 hgives
    rcases h.eq_tyVar_or with ⟨i, rfl⟩ | hvar
    · right
      obtain ⟨vars, hcombine, hbinds⟩ := hs.exists_binds_never hhead
      exact ⟨i, vars, hhead, joinTwo_of_combine hhead hnever hunknown hcombine, hbinds⟩
    · left
      exact ⟨a, joinTwo_of_combine hhead hnever hunknown (Vars.combine_never hhead hvar), hjoined, ha⟩

/-! ## All branches -/

/-- Somewhere in the list a branch never finishes, while the ones before it, joined one after the
other by `joins`, gave an open variable. It is bound to the type of what never finishes. -/
def MeetsOpen (joins : List Ty → Infer Ty) (ts : List Ty) (scope : Scope) (s : State) : Prop :=
  ∃ before after joined i s₁ vars, ts = before ++ .never :: after ∧
    joins before scope s = .ok (joined, s₁) ∧ s₁.vars.head joined = .ok (.var (.ty i)) ∧
    joins (before ++ [.never]) scope s = .ok (joined, { s₁ with vars }) ∧
    s₁.vars.Binds (.ty i) .never vars

/-- Joining goes on alike with and without the branches that never finish, unless one of them meets
an open variable. -/
theorem foldlM_joinTwo (hs : s.vars.Sound) (hts : ∀ t ∈ ts, s.vars.Grounded t)
    (ha : s.vars.Grounded a) (hjoined : s.vars.JoinedAlike a b) :
    (∃ c d s', ts.foldlM joinTwo a scope s = .ok (c, s') ∧
      (ts.filter (!·.isNever)).foldlM joinTwo b scope s = .ok (d, s') ∧
      s'.vars.JoinedAlike c d ∧ s'.vars.Sound ∧ s'.vars.Grounded c) ∨
    MeetsOpen (·.foldlM joinTwo a) ts scope s := by
  induction ts generalizing s a b with
  | nil => exact .inl ⟨a, b, s, rfl, rfl, hjoined, hs, ha⟩
  | cons t ts ih =>
    have hrest : ∀ u ∈ ts, s.vars.Grounded u := fun u hu => hts u (List.mem_cons_of_mem t hu)
    -- A variable that is met later is met after this branch, too.
    have hlater {c : Ty} {s₁ : State} (hrun : joinTwo a t scope s = .ok (c, s₁))
        (hmeets : MeetsOpen (·.foldlM joinTwo c) ts scope s₁) :
        MeetsOpen (·.foldlM joinTwo a) (t :: ts) scope s := by
      obtain ⟨before, after, joined, i, s₂, vars, rfl, hbefore, hopen, hnever, hbinds⟩ := hmeets
      refine ⟨t :: before, after, joined, i, s₂, vars, rfl, ?_, hopen, ?_, hbinds⟩
      · exact ok_then hrun hbefore
      · exact ok_then hrun hnever
    cases hfinishes : t.isNever with
    | false =>
      obtain ⟨c, s₁, hrun, ⟨d, hrun', hcd⟩, hjoins⟩ :=
        exists_joinTwo hs ha (hts t (.head _)) hfinishes hjoined
      rw [List.filter_cons_of_pos (by simp [hfinishes])]
      rcases ih hjoins.sound (fun u hu => hjoins.grounded u (hrest u hu)) hjoins.joined hcd with
        ⟨e, f, s', he, hf, hsame⟩ | hmeets
      · exact .inl ⟨e, f, s', ok_then hrun he, ok_then hrun' hf, hsame⟩
      · exact .inr (hlater hrun hmeets)
    | true =>
      obtain rfl := Ty.eq_never_of_isNever hfinishes
      rw [List.filter_cons_of_neg (by simp [hfinishes])]
      rcases joinTwo_never hs ha hjoined with ⟨c, hrun, hcb, hc⟩ | ⟨i, vars, hopen, hrun, hbinds⟩
      · rcases ih hs hrest hc hcb with ⟨e, f, s', he, hsame⟩ | hmeets
        · exact .inl ⟨e, f, s', ok_then hrun he, hsame⟩
        · exact .inr (hlater hrun hmeets)
      · exact .inr ⟨[], ts, a, i, s, vars, rfl, rfl, hopen, ok_then hrun rfl, hbinds⟩

theorem join_never_cons (hts : ts ≠ []) : join (.never :: ts) = join ts := by
  cases ts with
  | nil => exact absurd rfl hts
  | cons t ts =>
    show (joinTwo .never t >>= fun joined => ts.foldlM joinTwo joined) = ts.foldlM joinTwo t
    funext scope s
    exact bind_of_ok (joinTwo_of_head (a := .never) _ rfl)

/-- The join of branches is that of the finishing ones, unless one that never finishes meets an open
variable. -/
theorem join_filter (hs : s.vars.Sound) (hts : ∀ t ∈ ts, s.vars.Grounded t)
    (hsome : ∃ t ∈ ts, t ≠ .never) : (∃ c d s', join ts scope s = .ok (c, s') ∧
      join (ts.filter (!·.isNever)) scope s = .ok (d, s') ∧
      s'.vars.JoinedAlike c d ∧ s'.vars.Sound ∧ s'.vars.Grounded c) ∨ MeetsOpen join ts scope s := by
  induction ts with
  | nil =>
    obtain ⟨t, ⟨⟩, -⟩ := hsome
  | cons t ts ih =>
    have hrest : ∀ u ∈ ts, s.vars.Grounded u := fun u hu => hts u (List.mem_cons_of_mem t hu)
    cases hfinishes : t.isNever with
    | false =>
      rw [List.filter_cons_of_pos (by simp [hfinishes])]
      refine (foldlM_joinTwo hs hrest (hts t (.head _)) (.inl rfl)).imp_right ?_
      rintro ⟨before, after, joined, i, s₁, vars, rfl, hmeets⟩
      exact ⟨t :: before, after, joined, i, s₁, vars, rfl, hmeets⟩
    | true =>
      -- What never finishes is dropped at the start, as long as something follows.
      obtain rfl := Ty.eq_never_of_isNever hfinishes
      have hsome' : ∃ u ∈ ts, u ≠ .never := by
        obtain ⟨u, hu, hne⟩ := hsome
        exact ⟨u, (List.mem_cons.1 hu).resolve_left hne, hne⟩
      have hne : ts ≠ [] := by
        obtain ⟨u, hu, -⟩ := hsome'
        exact List.ne_nil_of_mem hu
      rw [List.filter_cons_of_neg (by simp [hfinishes]), join_never_cons hne]
      refine (ih hrest hsome').imp_right ?_
      rintro ⟨before, after, joined, i, s₁, vars, rfl, hbefore, hopen, hnever, hbinds⟩
      cases before with
      | nil =>
        cases hbefore
        cases hopen
      | cons first before =>
        refine ⟨.never :: first :: before, after, joined, i, s₁, vars, rfl, ?_, hopen, ?_, hbinds⟩
        · rw [join_never_cons (by simp)]
          exact hbefore
        · rw [List.cons_append, join_never_cons (by simp)]
          exact hnever

end Infer

/-- Whatever was done before, branches that never finish do not count when a list of branches is
joined, wherever they stand: with and without them the join is the same type, and the variables end
up the same. The exception is such a branch after others that joined to an open variable. It binds
the variable, and to the type of what never finishes. -/
theorem History.join_of_finishing {scope : Scope} {v : Versions State Mark}
    (h : History (Walk.Works scope) v) {ts : List Ty}
    (hground : ∀ t ∈ ts, v.current.vars.Grounded t) (hsome : ∃ t ∈ ts, t ≠ .never) :
    (∃ t t' s r, join ts scope v.current = .ok (t, s) ∧
      join (ts.filter (!·.isNever)) scope v.current = .ok (t', s) ∧
      s.vars.resolve t = .ok r ∧ s.vars.resolve t' = .ok r) ∨
    ∃ before after joined i s vars, ts = before ++ .never :: after ∧
      join before scope v.current = .ok (joined, s) ∧ s.vars.head joined = .ok (.var (.ty i)) ∧
      join (before ++ [.never]) scope v.current = .ok (joined, { s with vars }) ∧
      s.vars.Binds (.ty i) .never vars := by
  have hs := h.wellFormed.vars
  refine (join_filter hs hground hsome).imp_left ?_
  rintro ⟨c, d, s', hjoin, hfilter, hcd, hs', hc⟩
  obtain ⟨r, hr, hr'⟩ := hcd.exists_resolve hs' hc
  exact ⟨c, d, s', r, hjoin, hfilter, hr, hr'⟩

/-- Branches of which the first has a type, the second never finishes and the third is open. -/
theorem History.join_of_finishing_bool : ∃ v t t' s r, History (Walk.Works .bare) v ∧
    v.current.vars.Open (.ty 0) ∧
    join [.bool, .never, .var (.ty 0)] .bare v.current = .ok (t, s) ∧
    join [.bool, .var (.ty 0)] .bare v.current = .ok (t', s) ∧
    s.vars.resolve t = .ok r ∧ s.vars.resolve t' = .ok r := by
  have hstart := History.atStart .bare
  obtain ⟨v, h, hopen⟩ : ∃ v, History (Walk.Works .bare) v ∧ v.current.vars.Open (.ty 0) :=
    ⟨_, hstart.operate .freshTy rfl, rfl, rfl⟩
  have hground : ∀ t ∈ [Ty.bool, .never, .var (.ty 0)], v.current.vars.Grounded t := by
    simp only [List.forall_mem_cons]
    exact ⟨Vars.grounded_iff.2 nofun, Vars.grounded_iff.2 nofun, Vars.grounded_of_unbound hopen.2,
      nofun⟩
  rcases h.join_of_finishing hground ⟨.bool, .head _, nofun⟩ with
    ⟨t, t', s, r, hjoin, hfilter, hr, hr'⟩ | ⟨before, after, joined, i, s, vars, hts, hbefore, hvar, -⟩
  · exact ⟨v, t, t', s, r, h, hopen, hjoin, hfilter, hr, hr'⟩
  -- The branch that never finishes meets no variable.
  · rcases before with _ | ⟨_, _ | ⟨_, _ | ⟨_, before⟩⟩⟩
    · cases hts
    · cases hts
      cases hbefore
      cases hvar
    · cases hts
    · simp at hts

/-! ## A branch that is open -/

/-- The body `{ let x = if true { make() } else { return }; let y: u8 = x; }`. -/
def Body.openBranch : Body := .ofNodes
  [.path ["make"], .call ⟨0⟩ [], .literal (.bool true), .returnValue none,
    .ifElse ⟨2⟩ ⟨1⟩ (some ⟨3⟩), .path ["x"],
    .block .plain none [.letPat ⟨0⟩ none (some ⟨4⟩), .letPat ⟨1⟩ (some (.int .u8)) (some ⟨5⟩)] none]
  [.bind "x" (.byValue .shared) none, .bind "y" (.byValue .shared) none] []

/-- A program in which a call of `make<T>() -> T` stands before a branch that never finishes. -/
def Session.openBranch : Session where
  program := {
    items := { Items.empty with
      paramNames := #["Self", "T"],
      functions := #[⟨"make", .free, ⟨[⟨1⟩], []⟩, none, [], .param ⟨1⟩, false, true⟩,
        ⟨"main", .free, .empty, none, [], .unit, false, true⟩] }
    known := {}
    bodies := [(.function ⟨1⟩, .openBranch, (Names.empty.setPath ⟨0⟩
      [⟨.function ⟨0⟩, .empty⟩]).setPath ⟨5⟩ [⟨.local ⟨0⟩, .empty⟩])] }

/-- The call is taken to never finish, and so is the conditional, though the value of the
conditional is used as a `u8`. -/
theorem Session.openBranch_never :
    ∃ o σ', openBranch.infer (.function ⟨1⟩) {} = (.ok o, σ') ∧
      o.exprTypes.get? 1 = some .never ∧ o.bindings.get? 0 = some .never := by
  have hok : (openBranch.infer (.function ⟨1⟩) {}).1.toOption.map (fun o =>
      ((o.exprTypes.get? 1).map Ty.isNever, (o.bindings.get? 0).map Ty.isNever)) =
        some (some true, some true) := by
    decide +kernel
  obtain ⟨o, σ', hrun, hok⟩ := Except.exists_ok_of_fst hok
  obtain ⟨hcall, hbinding⟩ := Prod.mk.inj hok
  obtain ⟨call, hcall, hnever⟩ := Option.map_eq_some_iff.1 hcall
  obtain ⟨binding, hbinding, hnever'⟩ := Option.map_eq_some_iff.1 hbinding
  rw [Ty.eq_never_of_isNever hnever] at hcall
  rw [Ty.eq_never_of_isNever hnever'] at hbinding
  exact ⟨o, σ', hrun, hcall, hbinding⟩

end TypeInference
