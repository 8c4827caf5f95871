import TypeInference.Proofs.CacheEntries
import TypeInference.Proofs.Settling

/-!
# Settling comes to rest

Rounds on the pending obligations go on until one of them decides nothing. The states within such a
round differ only in the cache, and there only by projections that turned out to be ambiguous, so
what could not be decided at the beginning of the round cannot be decided at its end either.
-/

namespace TypeInference

open Infer

variable {scope : Scope} {s s' s'' : State}

/-- Too little is known to decide an obligation: its goal is ambiguous, or its projection is that of
a variable or is known to be ambiguous. -/
inductive Obligation.Blocked (scope : Scope) (s : State) : Obligation → Prop
  | trait {depth : Nat} {goal goal' : TraitRef} : depth ≤ scope.config.recursionLimit →
    s.vars.resolveTraitRef goal = .ok goal' →
    select scope.items scope.known scope.env goal' = .ambiguous →
    Blocked scope s ⟨depth, .trait goal⟩
  | projection {depth depth' n : Nat} {p q : Projection} {ty : Ty} :
    depth ≤ scope.config.recursionLimit → Obligation.deeper depth = .ok depth' →
    scope.fuel.nesting = n + 1 → s.vars.resolveProjection p = .ok q →
    q.self.isTyVar = true ∨ s.cache.get? q = some .ambiguous →
    Blocked scope s ⟨depth, .projection p ty⟩

/-- The variables are the same, and what was ambiguous is so still. -/
structure State.Defers (s s' : State) : Prop where
  vars : s'.vars = s.vars
  ambiguous : ∀ key, s.cache.get? key = some .ambiguous → s'.cache.get? key = some .ambiguous

namespace State.Defers

theorem refl (s : State) : s.Defers s := ⟨rfl, fun _ h => h⟩

theorem trans (h : s.Defers s') (h' : s'.Defers s'') : s.Defers s'' :=
  ⟨h'.vars.trans h.vars, fun key hkey => h'.ambiguous key (h.ambiguous key hkey)⟩

theorem of_absent {key : Projection} (habsent : s.cache.get? key = none) :
    s.Defers { s with cache := (s.cache.insert key .inProgress).insert key .ambiguous } where
  vars := rfl
  ambiguous k hk := by
    have hne : ¬ (k == key) = true := by
      intro heq
      rw [ProjectionCache.get?_congr heq, habsent] at hk
      cases hk
    rw [ProjectionCache.get?_insert, if_neg hne, ProjectionCache.get?_insert, if_neg hne]
    exact hk

end State.Defers

/-- What is blocked stays blocked. -/
theorem Obligation.Blocked.defers {o : Obligation} (h : o.Blocked scope s) (hdefers : s.Defers s') :
    o.Blocked scope s' := by
  cases h with
  | trait hdepth hgoal hselect =>
    rw [← hdefers.vars] at hgoal
    exact .trait hdepth hgoal hselect
  | projection hdepth hdeeper hfuel hq hblocked =>
    rw [← hdefers.vars] at hq
    exact .projection hdepth hdeeper hfuel hq (hblocked.imp_right (hdefers.ambiguous _))

namespace Infer

/-! ## Projections -/

variable {queue rest waiting : List Obligation} {p q : Projection} {o : Obligation} {depth n : Nat}
  {found : Option Round}

section

variable {α β : Type} {x y : Infer α} {a b : α}

theorem not_gives_pure (h : b ≠ a) : ¬ Gives scope (pure a : Infer α) b := by
  rintro ⟨s, s', ⟨⟩⟩
  exact h rfl

theorem not_gives_bind {f : α → Infer β} {b : β} (hf : ∀ a, ¬ Gives scope (f a) b) :
    ¬ Gives scope (x >>= f) b := by
  rintro ⟨s, s', h⟩
  obtain ⟨a, s₁, -, h⟩ := bind_eq_ok h
  exact hf a ⟨s₁, s', h⟩

theorem not_gives_ite {c : Prop} [Decidable c] (hx : ¬ Gives scope x a) (hy : ¬ Gives scope y a) :
    ¬ Gives scope (if c then x else y) a := by
  split
  · exact hx
  · exact hy

end

/-- An impl decides a projection. -/
theorem projectImpl_decides (inner : Normalizer) (impl : Impl) (p : Projection) (depth : Nat) :
    ¬ Gives scope (projectImpl inner impl p depth) .ambiguous := by
  unfold projectImpl
  split
  · refine not_gives_bind fun header => ?_
    split
    · refine not_gives_bind fun agrees => not_gives_ite ?_ (not_gives_pure nofun)
      refine not_gives_bind fun bounds => not_gives_bind fun depth' => ?_
      exact not_gives_bind fun ty => not_gives_pure nofun
    · exact not_gives_pure nofun
  · exact not_gives_pure nofun

theorem projectBound_decides (bound : Bound) (p : Projection) :
    ¬ Gives scope (projectBound bound p) .ambiguous := by
  have hlast (agrees : Bool) : ¬ Gives scope (if agrees then
      pure (.ok ((bound.assocTy? p.name).map .plain)) else pure .err :
        Infer (Selection (Option (Normalized Ty)))) .ambiguous :=
    not_gives_ite (not_gives_pure nofun) (not_gives_pure nofun)
  exact not_gives_ite (not_gives_bind hlast) (not_gives_bind hlast)

theorem projectBuiltin_decides (p : Projection) :
    ¬ Gives scope (projectBuiltin p) .ambiguous := by
  unfold projectBuiltin
  split
  · refine not_gives_ite ?_ (not_gives_pure nofun)
    split
    · exact not_gives_bind fun _ => not_gives_pure nofun
    · exact not_gives_pure nofun
  · exact not_gives_pure nofun

/-- A projection is ambiguous only if the selection is. -/
theorem eq_of_project_ambiguous {inner : Normalizer}
    (h : project inner p depth scope s = .ok (.ambiguous, s')) : s' = s := by
  obtain ⟨selected, s₁, ⟨⟩, h⟩ := bind_eq_ok h
  cases hselected : select scope.items scope.known scope.env p.traitRef with
  | ok source =>
    rw [hselected] at h
    cases source with
    | impl id =>
      obtain ⟨_, s₂, hread, h⟩ := bind_eq_ok h
      obtain ⟨impl, s₃, himpl, h⟩ := bind_eq_ok h
      exact (projectImpl_decides _ _ _ _ ⟨_, _, h⟩).elim
    | param bound | object bound => exact (projectBound_decides _ _ ⟨_, _, h⟩).elim
    | builtin => exact (projectBuiltin_decides _ ⟨_, _, h⟩).elim
  | err =>
    rw [hselected] at h
    cases h
  | ambiguous =>
    rw [hselected] at h
    cases h
    rfl

theorem answerFromCache_eq_none {entry : CacheEntry}
    (h : answerFromCache p entry scope s = .ok (none, s')) : entry = .ambiguous ∧ s' = s := by
  cases entry with
  | ambiguous =>
    cases h
    exact ⟨rfl, rfl⟩
  | inProgress | error => cases h
  | normalized cached =>
    obtain ⟨isOpen, s₁, -, h⟩ := bind_eq_ok h
    cases isOpen with
    | true | false => cases h

theorem remember_eq_none {answer : Selection (Option (Normalized Ty))}
    (h : remember p answer scope s = .ok (none, s')) :
    answer = .ambiguous ∧ s' = { s with cache := s.cache.insert p .ambiguous } := by
  match answer, h with
  | .ok (some result), h =>
    obtain ⟨kept, s₁, -, h⟩ := bind_eq_ok h
    cases h
  | .ok none, h => cases h
  | .err, h => cases h
  | .ambiguous, h =>
    cases h
    exact ⟨rfl, rfl⟩

/-- A projection that has no normal form yet will not get one as long as no variable changes. -/
theorem blocked_of_normalizeWithin (h : normalizeWithin n p depth scope s = .ok (none, s')) :
    s.Defers s' ∧
      ∃ m q, n = m + 1 ∧ s'.vars.resolveProjection p = .ok q ∧
        (q.self.isTyVar = true ∨ s'.cache.get? q = some .ambiguous) := by
  cases n with
  | zero => cases h
  | succ n =>
    obtain ⟨q, hq, ⟨hself, -, rfl⟩ | ⟨-, ⟨entry, hcached, hfound⟩ |
      ⟨habsent, answer, s₁, hproject, hremember⟩⟩⟩ := normalizeWithin_eq_ok h
    · exact ⟨.refl _, n, q, rfl, hq, Or.inl hself⟩
    · obtain ⟨rfl, rfl⟩ := answerFromCache_eq_none hfound
      exact ⟨.refl _, n, q, rfl, hq, Or.inr hcached⟩
    · obtain ⟨rfl, rfl⟩ := remember_eq_none hremember
      obtain rfl := eq_of_project_ambiguous hproject
      refine ⟨.of_absent habsent, n, q, rfl, hq, Or.inr ?_⟩
      rw [ProjectionCache.get?_insert, if_pos (Projection.beq_iff.2 rfl)]

theorem normalizeWithin_of_blocked (hq : s.vars.resolveProjection p = .ok q)
    (hblocked : q.self.isTyVar = true ∨ s.cache.get? q = some .ambiguous) (n depth : Nat) :
    normalizeWithin (n + 1) p depth scope s = .ok (none, s) := by
  have hread : readVars (·.resolveProjection p) scope s = .ok (q, s) := readVars_of_ok hq
  rw [normalizeWithin, bind_of_ok hread]
  by_cases hself : q.self.isTyVar = true
  · rw [if_pos hself]
    rfl
  · have hcached := hblocked.resolve_left hself
    have hstart : cacheStart q scope s = .ok (some .ambiguous, s) := by
      rw [cacheStart_run, ProjectionCache.start, hcached]
    rw [if_neg hself, bind_of_ok hstart]
    rfl

/-! ## One obligation -/

theorem process_trait (hdepth : depth ≤ scope.config.recursionLimit) (goal : TraitRef) :
    process ⟨depth, .trait goal⟩ scope s = (do
      let goal ← resolveTraitRef goal
      match ← selectGoal goal with
      | .ok source =>
        match ← confirm goal source (← Obligation.deeper depth) with
        | some nested => return .decided nested
        | none => return .failed
      | .err => return .failed
      | .ambiguous => return .stalled : Infer Progress) scope s := by
  refine ok_then rfl ?_
  exact congrFun (congrFun (if_neg (Nat.not_lt.2 hdepth)) scope) s

theorem process_projection (hdepth : depth ≤ scope.config.recursionLimit) (p : Projection)
    (ty : Ty) : process ⟨depth, .projection p ty⟩ scope s = (do
      match ← normalize? p (← Obligation.deeper depth) with
      | none => return .stalled
      | some result =>
        return if ← combine result.value ty then .decided result.obligations else .failed :
      Infer Progress) scope s := by
  refine ok_then rfl ?_
  exact congrFun (congrFun (if_neg (Nat.not_lt.2 hdepth)) scope) s

theorem depth_le_of_stalled (h : process o scope s = .ok (.stalled, s')) :
    o.depth ≤ scope.config.recursionLimit := by
  by_contra hdepth
  have hfailed : process o scope s = .ok (.failed, s) := by
    refine ok_then rfl ?_
    rw [if_pos (Nat.not_le.1 hdepth)]
    rfl
  rw [h] at hfailed
  cases hfailed

/-- An obligation that waits is blocked. -/
theorem blocked_of_process (h : process o scope s = .ok (.stalled, s')) :
    s.Defers s' ∧ o.Blocked scope s' := by
  have hdepth := depth_le_of_stalled h
  rcases o with ⟨depth, goal | ⟨p, ty⟩⟩
  · rw [process_trait hdepth] at h
    obtain ⟨goal', s₁, hread, hrest⟩ := bind_eq_ok h
    obtain ⟨hgoal, rfl⟩ := readVars_eq_ok hread
    obtain ⟨selected, s₂, ⟨⟩, hrest⟩ := bind_eq_ok hrest
    cases hselected : select scope.items scope.known scope.env goal' with
    | ok source =>
      rw [hselected] at hrest
      obtain ⟨depth', s₃, -, hrest⟩ := bind_eq_ok hrest
      obtain ⟨nested, s₄, -, hrest⟩ := bind_eq_ok hrest
      cases nested with
      | some nested | none => cases hrest
    | err =>
      rw [hselected] at hrest
      cases hrest
    | ambiguous =>
      rw [hselected] at hrest
      cases hrest
      exact ⟨.refl _, .trait hdepth hgoal hselected⟩
  · rw [process_projection hdepth] at h
    obtain ⟨depth', s₁, hlift, hrest⟩ := bind_eq_ok h
    obtain ⟨hdeeper, rfl⟩ := lift_eq_ok hlift
    obtain ⟨found, s₂, hfound, hrest⟩ := bind_eq_ok hrest
    cases found with
    | none =>
      cases hrest
      obtain ⟨_, _, ⟨⟩, hnormal⟩ := bind_eq_ok hfound
      obtain ⟨hdefers, n, q, hn, hq, hblocked⟩ := blocked_of_normalizeWithin hnormal
      exact ⟨hdefers, .projection hdepth hdeeper hn hq hblocked⟩
    | some result =>
      obtain ⟨agrees, s₃, -, hrest⟩ := bind_eq_ok hrest
      cases agrees with
      | true | false => cases hrest

/-- A blocked obligation waits, and trying it leaves nothing behind. -/
theorem process_of_blocked (h : o.Blocked scope s) : process o scope s = .ok (.stalled, s) := by
  cases h with
  | @trait depth goal goal' hdepth hgoal hselect =>
    have hread : resolveTraitRef goal scope s = .ok (goal', s) := readVars_of_ok hgoal
    have hselected : selectGoal goal' scope s = .ok (.ambiguous, s) := by
      rw [← hselect]
      rfl
    rw [process_trait hdepth, bind_of_ok hread, bind_of_ok hselected]
    rfl
  | @projection depth depth' n p q ty hdepth hdeeper hfuel hq hblocked =>
    have hnormal : normalize? p depth' scope s = .ok (none, s) := by
      refine ok_then rfl ?_
      rw [hfuel]
      exact normalizeWithin_of_blocked hq hblocked n depth'
    rw [process_projection hdepth, bind_of_ok (lift_of_ok hdeeper), bind_of_ok hnormal]
    rfl

/-- One of the waiting obligations is tried: those it leads to take its place, or it waits on, or it
fails. -/
inductive Tries (scope : Scope) : State × Multiset Obligation → State × Multiset Obligation → Prop
  | decided {o : Obligation} {nested : List Obligation} {others : Multiset Obligation}
    {s s' : State} : process o scope s = .ok (.decided nested, s') →
    Tries scope (s, o ::ₘ others) (s', ↑nested + others)
  | stalled {o : Obligation} {others : Multiset Obligation} {s s' : State} :
    process o scope s = .ok (.stalled, s') → Tries scope (s, o ::ₘ others) (s', o ::ₘ others)
  | failed {o : Obligation} {others : Multiset Obligation} {s s' : State} :
    process o scope s = .ok (.failed, s') → Tries scope (s, o ::ₘ others) (s', others)

/-! ## Rounds -/

/-- The round with one more obligation, tried first. -/
def Round.after (r : Round) (o : Obligation) : Progress → Round
  | .decided nested => { r with progress := true, nested := nested ++ r.nested }
  | .stalled => { r with stalled := o :: r.stalled }
  | .failed => { r with progress := true }

theorem round_cons_eq_ok (h : round false (o :: rest) scope s = .ok (found, s')) :
    ∃ progress s₁ found', process o scope s = .ok (progress, s₁) ∧
      round false rest scope s₁ = .ok (found', s') ∧ found = found'.map (·.after o progress) := by
  obtain ⟨progress, s₁, hprocess, hnext⟩ := bind_eq_ok h
  refine ⟨progress, s₁, ?_⟩
  cases progress with
  | decided nested | stalled | failed =>
    obtain ⟨found', s₂, hround, hlast⟩ := bind_eq_ok hnext
    cases found' with
    | none =>
      cases hlast
      exact ⟨none, hprocess, hround, rfl⟩
    | some r =>
      cases hlast
      exact ⟨some r, hprocess, hround, rfl⟩

/-- What a round does to the queue and to the state; if it decides nothing, all is blocked. -/
structure Round.Tried (scope : Scope) (queue : List Obligation) (s : State) (r : Round)
    (s' : State) : Prop where
  tries : ∀ others : Multiset Obligation, Relation.ReflTransGen (Tries scope) (s, ↑queue + others)
    (s', ↑(r.stalled ++ r.nested) + others)
  still : r.progress = false →
    r.stalled ++ r.nested = queue ∧ s.Defers s' ∧ ∀ o ∈ queue, o.Blocked scope s'

/-- A round is trying the first obligation and then the others. -/
theorem Round.Tried.cons {progress : Progress} {r : Round} {s₁ : State}
    (hprocess : process o scope s = .ok (progress, s₁)) (h : r.Tried scope rest s₁ s') :
    (r.after o progress).Tried scope (o :: rest) s s' := by
  cases progress with
  | decided nested =>
    refine ⟨fun others => ?_, nofun⟩
    have hfirst : Tries scope (s, ↑(o :: rest) + others) (s₁, ↑nested + (↑rest + others)) := by
      rw [← Multiset.cons_coe, Multiset.cons_add]
      exact .decided hprocess
    have hrest := h.tries (↑nested + others)
    rw [add_left_comm] at hrest
    refine (Relation.ReflTransGen.single hfirst).trans ?_
    convert hrest using 2
    simp only [Round.after, ← Multiset.coe_add]
    ac_rfl
  | stalled =>
    obtain ⟨hdefers, hblocked⟩ := blocked_of_process hprocess
    refine ⟨fun others => ?_, fun hprogress => ?_⟩
    · have hfirst : Tries scope (s, ↑(o :: rest) + others) (s₁, o ::ₘ (↑rest + others)) := by
        rw [← Multiset.cons_coe, Multiset.cons_add]
        exact .stalled hprocess
      have hrest := h.tries (o ::ₘ others)
      rw [Multiset.add_cons, Multiset.add_cons] at hrest
      refine (Relation.ReflTransGen.single hfirst).trans ?_
      rwa [Round.after, List.cons_append, ← Multiset.cons_coe, Multiset.cons_add]
    · obtain ⟨hqueue, hdefers', hrest⟩ := h.still hprogress
      refine ⟨congrArg (o :: ·) hqueue, hdefers.trans hdefers', ?_⟩
      exact List.forall_mem_cons.2 ⟨hblocked.defers hdefers', hrest⟩
  | failed =>
    refine ⟨fun others => ?_, nofun⟩
    have hfirst : Tries scope (s, ↑(o :: rest) + others) (s₁, ↑rest + others) := by
      rw [← Multiset.cons_coe, Multiset.cons_add]
      exact .failed hprocess
    exact (Relation.ReflTransGen.single hfirst).trans (h.tries others)

/-- Every round tries its obligations one by one. -/
theorem tried_of_round (h : round false queue scope s = .ok (found, s')) :
    ∃ r, found = some r ∧ r.Tried scope queue s s' := by
  induction queue generalizing found s with
  | nil =>
    cases h
    exact ⟨_, rfl, fun others => .refl, fun _ => ⟨rfl, .refl _, List.forall_mem_nil _⟩⟩
  | cons o rest ih =>
    obtain ⟨progress, s₁, found', hprocess, hround, rfl⟩ := round_cons_eq_ok h
    obtain ⟨r, rfl, htried⟩ := ih hround
    exact ⟨_, rfl, htried.cons hprocess⟩

/-- A round on blocked obligations changes nothing. -/
theorem round_of_blocked (h : ∀ o ∈ queue, o.Blocked scope s) :
    round false queue scope s = .ok (some ⟨false, queue, []⟩, s) := by
  induction queue with
  | nil => rfl
  | cons o rest ih =>
    obtain ⟨hfirst, hrest⟩ := List.forall_mem_cons.1 h
    refine ok_then (process_of_blocked hfirst) ?_
    exact bind_of_ok (ih hrest)

/-- Settling is a sequence of trials that leaves blocked obligations. -/
theorem settleWithin_eq_ok {b : Bool}
    (h : settleWithin false n queue scope s = .ok ((b, waiting), s')) :
    Relation.ReflTransGen (Tries scope) (s, ↑queue) (s', ↑waiting) ∧
      ∀ o ∈ waiting, o.Blocked scope s' := by
  induction n generalizing queue s with
  | zero => cases h
  | succ n ih =>
    cases hempty : queue.isEmpty with
    | true =>
      rw [settleWithin_of_isEmpty hempty] at h
      cases h
      rw [List.isEmpty_iff.1 hempty]
      exact ⟨.refl, List.forall_mem_nil _⟩
    | false =>
      cases hround : round false queue scope s with
      | error e =>
        rw [settleWithin_of_error hempty hround] at h
        cases h
      | ok result =>
        obtain ⟨r, hsome, htried⟩ := tried_of_round hround
        obtain ⟨found, s₁⟩ := result
        cases hsome
        rw [settleWithin_of_some hempty hround] at h
        have hfirst := htried.tries 0
        rw [add_zero, add_zero] at hfirst
        cases hprogress : r.progress with
        | true =>
          rw [hprogress] at h
          obtain ⟨hrest, hblocked⟩ := ih h
          exact ⟨hfirst.trans hrest, hblocked⟩
        | false =>
          rw [hprogress] at h
          cases h
          obtain ⟨hqueue, -, hblocked⟩ := htried.still hprogress
          exact ⟨hfirst, hqueue ▸ hblocked⟩

theorem settleWithin_of_blocked (h : ∀ o ∈ queue, o.Blocked scope s) (n : Nat) :
    settleWithin false (n + 1) queue scope s = .ok ((true, queue), s) := by
  cases hempty : queue.isEmpty with
  | true =>
    rw [settleWithin_of_isEmpty hempty, List.isEmpty_iff.1 hempty]
  | false =>
    rw [settleWithin_of_some hempty (round_of_blocked h), List.append_nil]
    rfl

/-! ## The pending obligations -/

/-- The pending obligations are settled without others coming in. -/
theorem settlePending_eq_ok (hs : s.WellFormed) (h : settlePending scope s = .ok ((), s')) :
    ∃ b, settleWithin false scope.fuel.rounds s.pending scope { s with pending := [] } =
      .ok ((b, s'.pending), { s' with pending := [] }) := by
  obtain ⟨_, _, ⟨⟩, h⟩ := bind_eq_ok h
  obtain ⟨_, _, ⟨⟩, h⟩ := bind_eq_ok h
  obtain ⟨⟨b, waiting⟩, s₁, hsettle, h⟩ := bind_eq_ok h
  cases h
  have hregular : Regular scope Fault.IsOrdinary CacheOp (settle false s.pending) :=
    (Orderly.settle within_true).anyway
  have hempty : s₁.pending = [] := by
    have hevolves : s.Evolves { s with pending := [] } := .recorded rfl rfl
    rw [(hregular.confined (hevolves.spec hs).1 hsettle).2]
    rfl
  have heta : ({ s₁ with pending := [] } : State) = s₁ := by
    cases s₁
    cases hempty
    rfl
  refine ⟨b, hsettle.trans ?_⟩
  show _ = Except.ok ((b, waiting ++ s₁.pending), ({ s₁ with pending := [] } : State))
  rw [hempty, List.append_nil, heta]

theorem settlePending_of_blocked (h : ∀ o ∈ s.pending, o.Blocked scope s)
    (hrounds : scope.fuel.rounds ≠ 0) : settlePending scope s = .ok ((), s) := by
  obtain ⟨n, hn⟩ := Nat.exists_eq_succ_of_ne_zero hrounds
  have hdefers : s.Defers { s with pending := [] } := ⟨rfl, fun _ h => h⟩
  have hsettle : settle false s.pending scope { s with pending := [] } =
      .ok ((true, s.pending), { s with pending := [] }) := by
    refine ok_then rfl ?_
    rw [hn]
    exact settleWithin_of_blocked (fun o ho => (h o ho).defers hdefers) n
  refine ok_then rfl (ok_then rfl (ok_then hsettle ?_))
  show Except.ok ((), { s with pending := s.pending ++ [] }) = _
  rw [List.append_nil]

end Infer

/-- When the pending obligations have been settled, each one that is left waits in the state
reached, without a trace. From the obligations pending before to those left leads a sequence of
trials, in which an obligation only goes when it fails or when others take its place. And to settle
them once more changes nothing. -/
theorem History.settlePending_reaches_fixpoint {v : Versions State Mark}
    (h : History (Walk.Works scope) v) (hrun : settlePending scope v.current = .ok ((), s')) :
    (∀ o ∈ s'.pending, process o scope s' = .ok (.stalled, s')) ∧
    Relation.ReflTransGen (Tries scope) ({ v.current with pending := [] }, ↑v.current.pending)
      ({ s' with pending := [] }, ↑s'.pending) ∧
    settlePending scope s' = .ok ((), s') := by
  have hs := h.wellFormed
  obtain ⟨b, hsettle⟩ := settlePending_eq_ok hs hrun
  obtain ⟨htries, hwaiting⟩ := settleWithin_eq_ok hsettle
  have hdefers : State.Defers { s' with pending := [] } s' := ⟨rfl, fun _ h => h⟩
  have hblocked : ∀ o ∈ s'.pending, o.Blocked scope s' := fun o ho =>
    (hwaiting o ho).defers hdefers
  refine ⟨fun o ho => process_of_blocked (hblocked o ho), htries, ?_⟩
  refine settlePending_of_blocked hblocked fun hrounds => ?_
  rw [hrounds] at hsettle
  cases hsettle

/-- The first obligation is only decided once the second has determined its variable; nothing is
known of the variable of the third. -/
def State.unsettled : State where
  vars := (∅ : Vars).freshTy.2.freshTy.2
  pending := [.ofTrait 0 ⟨.var (.ty 0), ⟨1⟩, []⟩,
    .ofProjection 0 ⟨⟨.slice .bool, ⟨0⟩, []⟩, "Out"⟩ (.var (.ty 0)),
    .ofTrait 0 ⟨.var (.ty 1), ⟨1⟩, []⟩]

theorem History.settlePending_reaches_fixpoint_unsettled : ∃ s',
    History (Walk.Works .layered) { current := .unsettled } ∧
    settlePending .layered .unsettled = .ok ((), s') ∧ s'.pending.length = 1 ∧
    (∀ o ∈ s'.pending, process o .layered s' = .ok (.stalled, s')) ∧
    settlePending .layered s' = .ok ((), s') := by
  have hstart := History.atStart .layered
  have hone := hstart.operate .freshTy rfl
  have htwo := hone.operate .freshTy rfl
  have h : History (Walk.Works .layered) { current := .unsettled } :=
    htwo.forward (.change (.infer (.recorded rfl)))
  have hok : (settlePending .layered .unsettled).toOption.map (·.2.pending.length) = some 1 := by
    decide +kernel
  obtain ⟨result, hrun, hlength⟩ := Except.exists_ok_of_toOption hok
  have hfixpoint := h.settlePending_reaches_fixpoint hrun
  exact ⟨result.2, h, hrun, hlength, hfixpoint.1, hfixpoint.2.2⟩

end TypeInference
