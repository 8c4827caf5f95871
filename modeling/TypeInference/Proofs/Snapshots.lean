import TypeInference.Infer.Basic
import TypeInference.Versions
import TypeInference.Proofs.Unification

/-!
# Snapshots are exact

Between opening a snapshot and closing it, variables are made, unified and looked up, entries of the
cache are written, and further snapshots are opened and closed. Rolling the snapshot back gives the
state in which it was opened, and keeping what was done gives the state that would have been reached
without it.
-/

namespace TypeInference

/-! ## States that can be restored -/

namespace State

variable {s s' s'' : State}

/-- The variables and the cache of `s'` are those of `s` after changes that can be undone. -/
structure Later (s s' : State) : Prop where
  vars : s.vars.Later s'.vars
  cache : s.cache.Later s'.cache

/-- Nothing is logged without an open snapshot. -/
structure Kept (s : State) : Prop where
  tys : s.vars.tys.cells.Kept
  ints : s.vars.ints.cells.Kept
  floats : s.vars.floats.cells.Kept
  cache : s.cache.entries.Kept

theorem Later.refl (s : State) : s.Later s := ⟨.refl _, .refl _⟩

theorem Later.trans (h : s.Later s') (h' : s'.Later s'') : s.Later s'' :=
  ⟨h.vars.trans h'.vars, h.cache.trans h'.cache⟩

theorem Later.kept (h : s.Later s') (hs : s.Kept) : s'.Kept where
  tys := (h.vars .ty).kept hs.tys
  ints := (h.vars .int).kept hs.ints
  floats := (h.vars .float).kept hs.floats
  cache := h.cache.kept hs.cache

theorem kept_start : Kept {} := ⟨fun _ => rfl, fun _ => rfl, fun _ => rfl, fun _ => rfl⟩

theorem kept_opened (s : State) : s.opened.Kept where
  tys h := absurd h (Nat.succ_ne_zero _)
  ints h := absurd h (Nat.succ_ne_zero _)
  floats h := absurd h (Nat.succ_ne_zero _)
  cache h := absurd h (Nat.succ_ne_zero _)

/-- Rolling back restores the variables and the cache. -/
theorem Later.rollback_eq (h : s.opened.Later s') :
    s'.rollback s.mark = s'.restore s.snapshot := by
  have htys : s'.vars.tys.rollback s.vars.tys.mark = s.vars.tys :=
    congrArg Table.mk (Journal.Later.rollback_eq (h.vars .ty))
  have hints : s'.vars.ints.rollback s.vars.ints.mark = s.vars.ints :=
    congrArg Table.mk (Journal.Later.rollback_eq (h.vars .int))
  have hfloats : s'.vars.floats.rollback s.vars.floats.mark = s.vars.floats :=
    congrArg Table.mk (Journal.Later.rollback_eq (h.vars .float))
  have hcache : s'.cache.rollback s.cache.mark = s.cache :=
    congrArg ProjectionCache.mk (Journal.Later.rollback_eq h.cache)
  simp only [rollback, mark, Vars.rollback, Vars.mark, htys, hints, hfloats, hcache, snapshot]

/-- What was done inside a snapshot can still be undone outside. -/
theorem Later.commit (hs : s.Kept) (h : s.opened.Later s') : s.Later s'.commit where
  vars
    | .ty => Journal.Later.commit hs.tys (h.vars .ty)
    | .int => Journal.Later.commit hs.ints (h.vars .int)
    | .float => Journal.Later.commit hs.floats (h.vars .float)
  cache := Journal.Later.commit hs.cache h.cache

/-- Each open snapshot was taken of a state from which the current one has come by changes that can
be undone. In all of these states `P` holds. -/
inductive Nested (P : State → Prop) : State → List Mark → Prop
  | outside {s : State} : s.Kept → P s → Nested P s []
  | inside {s s' : State} {marks : List Mark} : Nested P s marks → s.opened.Later s' → P s' →
    Nested P s' (s.mark :: marks)

namespace Nested

variable {P : State → Prop} {marks : List Mark} {v v' : Versions State Mark}

theorem holds (h : s.Nested P marks) : P s := by
  cases h with
  | outside _ hP | inside _ _ hP => exact hP

theorem kept (h : s.Nested P marks) : s.Kept := by
  cases h with
  | outside hkept _ => exact hkept
  | inside _ hinner _ => exact hinner.kept (kept_opened _)

theorem later (h : s.Nested P marks) (hlater : s.Later s') (hP : P s') : s'.Nested P marks := by
  cases h with
  | outside hkept _ => exact .outside (hlater.kept hkept) hP
  | inside houter hinner _ => exact .inside houter (hinner.trans hlater) hP

theorem save (h : v.current.Nested P v.saved) (hP : P v.current.opened) :
    (v.save mark opened).current.Nested P (v.save mark opened).saved :=
  .inside h (.refl _) hP

theorem commit (h : v.current.Nested P v.saved) (hP : P v.current.commit)
    (hcommit : v.commit? State.commit = some v') : v'.current.Nested P v'.saved := by
  obtain ⟨s, saved⟩ := v
  cases h with
  | outside => cases hcommit
  | inside houter hinner _ =>
    cases hcommit
    exact houter.later (hinner.commit houter.kept) hP

theorem rollback (hsnapshot : ∀ ⦃s s' : State⦄, s'.snapshot = s.snapshot → P s → P s')
    (h : v.current.Nested P v.saved) (hrollback : v.rollback? State.rollback = some v') :
    v'.current.Nested P v'.saved := by
  obtain ⟨s, saved⟩ := v
  cases h with
  | outside => cases hrollback
  | @inside outer _ _ houter hinner _ =>
    cases hrollback
    -- Of the state inside only what is neither variable nor cache is left.
    have hP : P (s.restore outer.snapshot) := hsnapshot (s := outer) rfl houter.holds
    rw [hinner.rollback_eq]
    exact houter.later ⟨.refl _, .refl _⟩ hP

end Nested

end State

/-! ## Histories -/

/-- One more change, or a snapshot that is opened or kept. -/
inductive Forward (change : State → State → Prop) :
    Versions State Mark → Versions State Mark → Prop
  | change {v : Versions State Mark} {s : State} : change v.current s →
    Forward change v { v with current := s }
  | save (v : Versions State Mark) : Forward change v (v.save State.mark State.opened)
  | commit {v v' : Versions State Mark} : v.commit? State.commit = some v' → Forward change v v'

/-- The states that changes lead to, with the snapshots that are open. -/
inductive History (change : State → State → Prop) : Versions State Mark → Prop
  | start : History change { current := {} }
  | forward {v v' : Versions State Mark} : History change v → Forward change v v' →
    History change v'
  | rollback {v v' : Versions State Mark} : History change v →
    v.rollback? State.rollback = some v' → History change v'

/-- What holds at the start, is kept by changes and by opening and closing snapshots, and is about
nothing but the variables and the cache, holds in every history. -/
theorem History.nested {change : State → State → Prop} {P : State → Prop} {v : Versions State Mark}
    (hchange : ∀ ⦃s s'⦄, s.Kept → P s → change s s' → s.Later s' ∧ P s')
    (hstart : P {}) (hopened : ∀ ⦃s⦄, P s → P s.opened) (hcommit : ∀ ⦃s⦄, P s → P s.commit)
    (hsnapshot : ∀ ⦃s s' : State⦄, s'.snapshot = s.snapshot → P s → P s')
    (h : History change v) : v.current.Nested P v.saved := by
  induction h with
  | start => exact .outside State.kept_start hstart
  | forward _ hstep ih =>
    cases hstep with
    | change h =>
      obtain ⟨hlater, hP⟩ := hchange ih.kept ih.holds h
      exact ih.later hlater hP
    | save => exact ih.save (hopened ih.holds)
    | commit hsome => exact ih.commit (hcommit ih.holds) hsome
  | rollback _ hsome ih => exact ih.rollback hsnapshot hsome

/-! ## Tables -/

namespace Table

variable {α : Type} {t t' : Table α}

/-- Both runs fail, or they end in a table and its shadow; what the first did to `t` can be
undone. -/
def Tracks (t : Table α) : Except Fault (Table α) → Except Fault (Table α) → Prop :=
  Except.Matched fun u u' => t.Later u ∧ u.Shadow u'

/-- Changes to one table. -/
inductive Edit (α : Type) where
  | fresh
  | find (v : Nat)
  | union (a b : Nat)
  | bind (v : Nat) (x : α)

def Edit.run [BEq α] : Edit α → Table α → Except Fault (Table α)
  | fresh, t => .ok t.fresh
  | find v, t => do return (← t.find v).2
  | union a b, t => t.union a b
  | bind v x, t => t.bind v x

theorem Edit.tracks [BEq α] (e : Edit α) (h : t.Shadow t') : t.Tracks (e.run t) (e.run t') := by
  cases e with
  | fresh => exact .ok ⟨later_fresh t, h.fresh⟩
  | find v =>
    have hfind := (h.find v).and_left fun _ => later_find
    exact hfind.bind fun _ _ hp => .ok ⟨hp.1, hp.2.2⟩
  | union a b => exact (h.union a b).and_left fun _ => later_union
  | bind v x => exact (h.bind v x).and_left fun _ => later_bind

end Table

/-! ## Variables -/

namespace Vars

variable {vs ws : Vars}

/-- Variables `ws` are `vs` inside one more snapshot. -/
structure Shadow (vs ws : Vars) : Prop where
  tys : vs.tys.Shadow ws.tys
  ints : vs.ints.Shadow ws.ints
  floats : vs.floats.Shadow ws.floats

/-- Both runs fail, or they end with the same result and with variables and their shadow; what the
first did to `vs` can be undone. -/
def Tracks {α : Type} (vs : Vars) : Except Fault (α × Vars) → Except Fault (α × Vars) → Prop :=
  Except.Matched fun p q => vs.Later p.2 ∧ p.1 = q.1 ∧ p.2.Shadow q.2

namespace Shadow

theorem headWithin_eq (h : vs.Shadow ws) (n : Nat) (t : Ty) :
    ws.headWithin n t = vs.headWithin n t := by
  induction n generalizing t with
  | zero => cases t <;> rfl
  | succ n ih =>
    cases t with
    | var v =>
      cases v with
      | ty i => simp only [headWithin, h.tys.value_eq, h.tys.root_eq, ih]
      | int i => simp only [headWithin, h.ints.value_eq, h.ints.root_eq]
      | float i => simp only [headWithin, h.floats.value_eq, h.floats.root_eq]
    | _ => rfl

theorem head_eq (h : vs.Shadow ws) (t : Ty) : ws.head t = vs.head t := by
  rw [head, head, h.tys.size_eq, h.headWithin_eq]

theorem mentions_eq (h : vs.Shadow ws) (root n : Nat) (t : Ty) :
    ws.mentions root n t = vs.mentions root n t := by
  induction n generalizing t with
  | zero => rfl
  | succ n ih => simp only [mentions, h.tys.value_eq, h.tys.root_eq, ih]

theorem occursIn_eq (h : vs.Shadow ws) (root : Nat) (t : Ty) :
    ws.occursIn root t = vs.occursIn root t := by
  rw [occursIn, occursIn, h.tys.size_eq, h.mentions_eq]

variable {α : Type}

theorem table (h : vs.Shadow ws) (k : Kind) : (k.table vs).Shadow (k.table ws) := by
  cases k with
  | ty => exact h.tys
  | int => exact h.ints
  | float => exact h.floats

theorem put (h : vs.Shadow ws) {k : Kind} {t t' : Table k.Value} (ht : t.Shadow t') :
    (k.put vs t).Shadow (k.put ws t') := by
  cases k with
  | ty => exact ⟨ht, h.ints, h.floats⟩
  | int => exact ⟨h.tys, ht, h.floats⟩
  | float => exact ⟨h.tys, h.ints, ht⟩

theorem tracks_put (h : vs.Shadow ws) (k : Kind) (a : α) {x y : Except Fault (Table k.Value)}
    (hx : (k.table vs).Tracks x y) :
    vs.Tracks (do let tbl ← x; return (a, k.put vs tbl))
      (do let tbl ← y; return (a, k.put ws tbl)) :=
  hx.bind fun _ _ ht => .ok ⟨later_put ht.1, rfl, h.put ht.2⟩

/-! ### Unification -/

variable (c : Except Fault Ty)

/-- Variables are combined in the same way inside a snapshot. -/
theorem combineVar (h : vs.Shadow ws) (v : Var) (t : Ty) :
    vs.Tracks (combineVar c v t vs) (combineVar c v t ws) := by
  have hgeneral (i : Nat) {t : Ty} (hvar : t.isTyVar = false) :
      vs.Tracks (Vars.combineVar c (.ty i) t vs) (Vars.combineVar c (.ty i) t ws) := by
    rw [combineVar_general c i hvar, combineVar_general c i hvar, h.tys.root_eq]
    refine .bind_left ?_
    intro root
    rw [h.occursIn_eq]
    refine .bind_left ?_
    intro cyclic
    have hbind (value : Ty) := h.tracks_put .ty true ((Table.Edit.bind root value).tracks h.tys)
    cases cyclic with
    | true => exact .bind_left hbind
    | false => exact hbind t
  obtain ⟨k, i, rfl⟩ := exists_kind v
  cases linking k t with
  | same k j =>
    rw [combineVar_same, combineVar_same]
    exact h.tracks_put k true ((Table.Edit.union i j).tracks (h.table k))
  | general hvar => exact hgeneral i hvar
  | swapped j hk =>
    rw [combineVar_swapped c hk, combineVar_swapped c hk]
    exact hgeneral j (isTyVar_of_number hk i)
  | number x hk =>
    rw [combineVar_number c hk, combineVar_number c hk]
    exact h.tracks_put k true ((Table.Edit.bind i x).tracks (h.table k))
  | apart hvar hno =>
    rw [combineVar_apart c hvar (hno i), combineVar_apart c hvar (hno i)]
    exact .ok ⟨.refl vs, rfl, h⟩

/-- So are types. -/
theorem respects : Respects c c Shadow fun vs _ => vs.Tracks where
  head t h := h.head_eq t
  size h := h.tys.size_eq
  error e _ := .error e
  done ok h := .ok ⟨.refl _, rfl, h⟩
  bind hx hk vs ws h := by
    refine (hx h).bind ?_
    rintro ⟨ok, vs₁⟩ ⟨ok', ws₁⟩ ⟨hlater, rfl, h₁⟩
    exact (hk ok h₁).mono fun _ _ hp => ⟨hlater.trans hp.1, hp.2⟩
  link h _ _ := h.combineVar c _ _

end Shadow

end Vars

/-! ## States -/

namespace State

variable {s s' s'' : State}

/-- State `s'` is `s` inside one more snapshot. -/
structure Shadow (s s' : State) : Prop where
  vars : s.vars.Shadow s'.vars
  cache : s.cache.Shadow s'.cache
  rest_eq : s'.restore s.snapshot = s

/-- State `s'` is `s` after changes to its variables and its cache that can be undone. -/
structure Revises (s s' : State) : Prop extends Later s s' where
  rest_eq : s'.restore s.snapshot = s

/-- Both runs fail, or they end in a state and its shadow; what the first did to `s` can be
undone. -/
def Tracks (s : State) : Except Fault State → Except Fault State → Prop :=
  Except.Matched fun u u' => s.Revises u ∧ u.Shadow u'

theorem Revises.refl (s : State) : s.Revises s := ⟨.refl s, rfl⟩

theorem Revises.trans (h : s.Revises s') (h' : s'.Revises s'') : s.Revises s'' := by
  refine ⟨h.toLater.trans h'.toLater, ?_⟩
  calc s''.restore s.snapshot
    _ = (s''.restore s'.snapshot).restore s.snapshot := rfl
    _ = s := by rw [h'.rest_eq, h.rest_eq]

theorem Revises.rollback_eq (h : s.opened.Revises s') : s'.rollback s.mark = s := by
  calc s'.rollback s.mark
    _ = s'.restore s.snapshot := h.toLater.rollback_eq
    _ = (s'.restore s.opened.snapshot).restore s.snapshot := rfl
    _ = s.opened.restore s.snapshot := by rw [h.rest_eq]
    _ = s := rfl

theorem shadow_opened (s : State) : s.Shadow s.opened where
  vars := ⟨.of_opened _, .of_opened _, .of_opened _⟩
  cache := .of_opened _
  rest_eq := rfl

namespace Shadow

theorem kept (h : s.Shadow s') : s'.Kept :=
  ⟨h.vars.tys.kept, h.vars.ints.kept, h.vars.floats.kept, h.cache.kept⟩

/-- Closing the additional snapshot gives the state itself. -/
theorem commit_eq (hs : s.Kept) (h : s.Shadow s') : s'.commit = s := by
  have htys : s'.vars.tys.commit = s.vars.tys :=
    congrArg Table.mk (Journal.Shadow.commit_eq hs.tys h.vars.tys)
  have hints : s'.vars.ints.commit = s.vars.ints :=
    congrArg Table.mk (Journal.Shadow.commit_eq hs.ints h.vars.ints)
  have hfloats : s'.vars.floats.commit = s.vars.floats :=
    congrArg Table.mk (Journal.Shadow.commit_eq hs.floats h.vars.floats)
  have hcache : s'.cache.commit = s.cache :=
    congrArg ProjectionCache.mk (Journal.Shadow.commit_eq hs.cache h.cache)
  rw [State.commit, Vars.commit, htys, hints, hfloats, hcache]
  exact h.rest_eq

theorem setVars (h : s.Shadow s') {vs ws : Vars} (hlater : s.vars.Later vs)
    (hshadow : vs.Shadow ws) :
    s.Revises { s with vars := vs } ∧ Shadow { s with vars := vs } { s' with vars := ws } :=
  ⟨⟨⟨hlater, .refl _⟩, rfl⟩, hshadow, h.cache,
    congrArg (fun s : State => { s with vars := vs }) h.rest_eq⟩

theorem setCache (h : s.Shadow s') {cache cache' : ProjectionCache} (hlater : s.cache.Later cache)
    (hshadow : cache.Shadow cache') :
    s.Revises { s with cache } ∧ Shadow { s with cache } { s' with cache := cache' } :=
  ⟨⟨⟨.refl _, hlater⟩, rfl⟩, h.vars, hshadow,
    congrArg (fun s : State => { s with cache }) h.rest_eq⟩

end Shadow

/-- Changes to the variables and the cache. -/
inductive Edit where
  | tys (e : Table.Edit Ty)
  | ints (e : Table.Edit IntTy)
  | floats (e : Table.Edit FloatTy)
  | combine (a b : Ty)
  | combinePairs (as bs : List Ty)
  | combineTraitRefs (a b : TraitRef)
  | cachePut (key : Projection) (entry : CacheEntry)
  | cacheStart (key : Projection)

def Edit.run : Edit → State → Except Fault State
  | tys e, s => do return { s with vars.tys := ← e.run s.vars.tys }
  | ints e, s => do return { s with vars.ints := ← e.run s.vars.ints }
  | floats e, s => do return { s with vars.floats := ← e.run s.vars.floats }
  | combine a b, s => do return { s with vars := (← Vars.combine a b s.vars).2 }
  | combinePairs as bs, s => do return { s with vars := (← Vars.combinePairs as bs s.vars).2 }
  | combineTraitRefs a b, s => do
    return { s with vars := (← Vars.combineTraitRefs a b s.vars).2 }
  | cachePut key entry, s => .ok { s with cache := s.cache.insert key entry }
  | cacheStart key, s => .ok { s with cache := (s.cache.start key).2 }

/-- Every change does the same to a state and to its shadow, and can be undone. -/
theorem Edit.tracks (e : Edit) (h : s.Shadow s') : s.Tracks (e.run s) (e.run s') := by
  have hunify {x y : Vars.Run} (hx : s.vars.Tracks x y) :
      s.Tracks (do return { s with vars := (← x).2 }) (do return { s' with vars := (← y).2 }) :=
    hx.bind fun _ _ hp => .ok (h.setVars hp.1 hp.2.2)
  have htable (k : Vars.Kind) (e : Table.Edit k.Value) :
      s.Tracks (do return { s with vars := k.put s.vars (← e.run (k.table s.vars)) })
        (do return { s' with vars := k.put s'.vars (← e.run (k.table s'.vars)) }) :=
    (e.tracks (h.vars.table k)).bind fun _ _ ht =>
      .ok (h.setVars (Vars.later_put ht.1) (h.vars.put ht.2))
  cases e with
  | tys e => exact htable .ty e
  | ints e => exact htable .int e
  | floats e => exact htable .float e
  | combine a b =>
    exact hunify ((Vars.Shadow.respects _).combineOr a b h.vars)
  | combinePairs as bs =>
    exact hunify ((Vars.Shadow.respects _).combinePairs as bs h.vars)
  | combineTraitRefs a b =>
    exact hunify ((Vars.Shadow.respects _).combineTraitRefs a b h.vars)
  | cachePut key entry =>
    exact .ok (h.setCache (ProjectionCache.later_insert ..) (h.cache.insert ..))
  | cacheStart key =>
    simp only [Edit.run, ProjectionCache.start, h.cache.get?_eq]
    split
    · exact .ok (h.setCache (.refl _) h.cache)
    · exact .ok (h.setCache (ProjectionCache.later_insert ..) (h.cache.insert ..))

end State

/-! ## Sequences of changes and snapshots -/

/-- What happens to a state: changes, and snapshots that are opened and closed. Closing one means
the innermost that is open. -/
inductive Command where
  | edit (e : State.Edit)
  | save
  | commit
  | rollback

namespace Command

/-- Runs one command. Nothing happens when there is no snapshot to close. -/
def run : Command → Versions State Mark → Except Fault (Versions State Mark)
  | edit e, v => do return { v with current := ← e.run v.current }
  | save, v => .ok (v.save State.mark State.opened)
  | commit, v => .ok ((v.commit? State.commit).getD v)
  | rollback, v => .ok ((v.rollback? State.rollback).getD v)

def runAll (commands : List Command) (v : Versions State Mark) :
    Except Fault (Versions State Mark) :=
  commands.foldlM (fun v c => c.run v) v

/-- Sequences that close exactly the snapshots that they open. -/
inductive WellNested : List Command → Prop
  | nil : WellNested []
  | edit (e : State.Edit) {rest : List Command} : WellNested rest → WellNested (.edit e :: rest)
  | committed {inner rest : List Command} : WellNested inner → WellNested rest →
    WellNested (.save :: (inner ++ .commit :: rest))
  | rolledBack {inner rest : List Command} : WellNested inner → WellNested rest →
    WellNested (.save :: (inner ++ .rollback :: rest))

variable {v w v' v₁ v₂ w₁ w₂ : Versions State Mark} {body before inner rest : List Command}

theorem runAll_cons (c : Command) : runAll (c :: rest) v = (do runAll rest (← c.run v)) :=
  List.foldlM_cons

theorem runAll_append : runAll (inner ++ rest) v = (do runAll rest (← runAll inner v)) :=
  List.foldlM_append

/-- Runs from a state and from its shadow lead to a state and its shadow, and leave the snapshots
that were open. -/
structure Tracked (v w v' w' : Versions State Mark) : Prop where
  saved : v'.saved = v.saved
  saved_shadow : w'.saved = w.saved
  revises : v.current.Revises v'.current
  shadow : v'.current.Shadow w'.current

theorem Tracked.trans (h : Tracked v w v₁ w₁) (h' : Tracked v₁ w₁ v₂ w₂) : Tracked v w v₂ w₂ :=
  ⟨h'.saved.trans h.saved, h'.saved_shadow.trans h.saved_shadow, h.revises.trans h'.revises,
    h'.shadow⟩

/-- The sequence does the same to every state and to its shadow. -/
def Tracks (body : List Command) : Prop :=
  ∀ ⦃v w : Versions State Mark⦄, v.current.Kept → v.current.Shadow w.current →
    Except.Matched (Tracked v w) (runAll body v) (runAll body w)

/-- A snapshot that is kept makes no difference. -/
theorem Tracks.commit_eq (h : Tracks body) (hv : v.current.Kept) :
    runAll (.save :: (body ++ [.commit])) v = runAll body v := by
  have hruns := h hv (w := v.save State.mark State.opened) v.current.shadow_opened
  rw [runAll_cons, run, Except.ok_bind, runAll_append]
  generalize runAll body (v.save State.mark State.opened) = y at hruns
  generalize runAll body v = x at hruns
  -- The run inside the snapshot ends in a shadow of the run without it.
  cases hruns with
  | error e => rfl
  | @ok v' w' htracked =>
    obtain ⟨current, saved⟩ := v'
    obtain ⟨current', saved'⟩ := w'
    obtain ⟨rfl, rfl, hrevises, hshadow⟩ := htracked
    have hcurrent : current'.commit = current := hshadow.commit_eq (hrevises.toLater.kept hv)
    show Except.ok (Versions.mk current'.commit v.saved) = _
    rw [hcurrent]

/-- A snapshot that is rolled back restores everything. -/
theorem Tracks.rollback_eq (h : Tracks body) (hv : v.current.Kept) :
    runAll (.save :: (body ++ [.rollback])) v = (runAll body v).map fun _ => v := by
  have hruns := h hv (w := v.save State.mark State.opened) v.current.shadow_opened
  -- What happens inside can be undone, as comparing it with a run one level deeper shows.
  have hinside := h (v := v.save State.mark State.opened) (w := ⟨v.current.opened.opened, []⟩)
    v.current.kept_opened v.current.opened.shadow_opened
  rw [runAll_cons, run, Except.ok_bind, runAll_append]
  generalize runAll body (v.save State.mark State.opened) = y at hruns hinside
  generalize runAll body v = x at hruns
  cases hruns with
  | error e => rfl
  | @ok _ w' _ =>
    generalize runAll body ⟨v.current.opened.opened, []⟩ = z at hinside
    cases hinside with
    | ok htracked =>
      obtain ⟨current', saved'⟩ := w'
      obtain ⟨rfl, -, hrevises, -⟩ := htracked
      have hcurrent : current'.rollback v.current.mark = v.current := hrevises.rollback_eq
      show Except.ok (Versions.mk (current'.rollback v.current.mark) v.saved) = _
      rw [hcurrent]
      rfl

/-- What follows a run that is tracked is tracked. -/
theorem Tracks.after (h : Tracks rest) (hv : v.current.Kept) {x y : Except Fault (Versions State Mark)}
    (hx : Except.Matched (Tracked v w) x y) :
    Except.Matched (Tracked v w) (x >>= runAll rest) (y >>= runAll rest) :=
  hx.bind fun _ _ h₁ =>
    (h (h₁.revises.toLater.kept hv) h₁.shadow).mono fun _ _ => h₁.trans

theorem Tracks.edit (h : Tracks rest) (e : State.Edit) : Tracks (.edit e :: rest) := by
  intro v w hv hw
  rw [runAll_cons, runAll_cons]
  exact h.after hv ((e.tracks hw).bind fun _ _ hs => .ok ⟨rfl, rfl, hs.1, hs.2⟩)

/-- A sequence of which the part `inner` stands between opening a snapshot and closing it by
`close`. -/
theorem runAll_closed (close : Command) (inner rest : List Command) (v : Versions State Mark) :
    runAll (.save :: (inner ++ close :: rest)) v =
      (do runAll rest (← runAll (.save :: (inner ++ [close])) v)) := by
  rw [← runAll_append]
  congr 1
  simp only [List.cons_append, List.append_assoc, List.nil_append]

theorem Tracks.committed (hinner : Tracks inner) (hrest : Tracks rest) :
    Tracks (.save :: (inner ++ .commit :: rest)) := by
  intro v w hv hw
  -- By themselves, the snapshots around `inner` make no difference on either side.
  rw [runAll_closed .commit inner rest v, runAll_closed .commit inner rest w,
    hinner.commit_eq hv, hinner.commit_eq hw.kept]
  exact hrest.after hv (hinner hv hw)

theorem Tracks.rolledBack (hinner : Tracks inner) (hrest : Tracks rest) :
    Tracks (.save :: (inner ++ .rollback :: rest)) := by
  intro v w hv hw
  -- By themselves, the snapshots around `inner` take everything back on either side.
  rw [runAll_closed .rollback inner rest v, runAll_closed .rollback inner rest w,
    hinner.rollback_eq hv, hinner.rollback_eq hw.kept]
  refine hrest.after hv ?_
  exact (hinner hv hw).bind fun _ _ _ => .ok ⟨rfl, rfl, .refl v.current, hw⟩

/-- Well-nested sequences do the same to every state and to its shadow. -/
theorem WellNested.tracks (h : WellNested body) : Tracks body := by
  induction h with
  | nil => exact fun v _ _ hw => .ok ⟨rfl, rfl, .refl v.current, hw⟩
  | edit e _ ih => exact ih.edit e
  | committed _ _ hinner hrest => exact hinner.committed hrest
  | rolledBack _ _ hinner hrest => exact hinner.rolledBack hrest

/-! ## Runs from the start -/

theorem nested_of_run {c : Command} (h : v.current.Nested (fun _ => True) v.saved)
    (hrun : c.run v = .ok v') : v'.current.Nested (fun _ => True) v'.saved := by
  cases c with
  | edit e =>
    obtain ⟨s, hedit, ⟨⟩⟩ := Except.bind_eq_ok hrun
    -- Every state has a shadow, so the comparison says of each change that it can be undone.
    have htracks := e.tracks v.current.shadow_opened
    rw [hedit] at htracks
    generalize e.run v.current.opened = y at htracks
    cases htracks with
    | ok hs => exact h.later hs.1.toLater trivial
  | save =>
    cases hrun
    exact h.save trivial
  | commit =>
    cases hrun
    cases hcommit : v.commit? State.commit with
    | none => exact h
    | some v' => exact h.commit trivial hcommit
  | rollback =>
    cases hrun
    cases hrollback : v.rollback? State.rollback with
    | none => exact h
    | some v' => exact h.rollback (fun _ _ _ _ => trivial) hrollback

/-- The snapshots that are open after a run are of states it has come by. -/
theorem nested_of_runAll (h : v.current.Nested (fun _ => True) v.saved)
    (hrun : runAll before v = .ok v') : v'.current.Nested (fun _ => True) v'.saved := by
  induction before generalizing v with
  | nil =>
    cases hrun
    exact h
  | cons c rest ih =>
    rw [runAll_cons] at hrun
    obtain ⟨v₁, hc, hrun⟩ := Except.bind_eq_ok hrun
    exact ih (nested_of_run h hc) hrun

/-- Snapshots are exact, after whatever came before and however many of them are open. A snapshot
around a well-nested sequence that is rolled back restores everything as it was, if the sequence runs
at all; one that is committed makes no difference to the sequence. -/
theorem snapshots_exact (hbefore : runAll before { current := {} } = .ok v)
    (hbody : WellNested body) :
    runAll (.save :: (body ++ [.rollback])) v = (runAll body v).map (fun _ => v) ∧
    runAll (.save :: (body ++ [.commit])) v = runAll body v := by
  have hstart : State.Nested (fun _ => True) {} [] := .outside State.kept_start trivial
  have hv := (nested_of_runAll hstart hbefore).kept
  exact ⟨hbody.tracks.rollback_eq hv, hbody.tracks.commit_eq hv⟩

/-- Inside an open snapshot, an inner one that replaces an entry of the cache is kept, and another
that binds a variable is rolled back. -/
theorem snapshots_exact_inside :
    let key : Projection := ⟨⟨.var (.ty 0), ⟨0⟩, []⟩, "Item"⟩
    let before : List Command :=
      [.edit (.tys .fresh), .edit (.ints .fresh), .save, .edit (.cachePut key .inProgress)]
    let body : List Command := [.edit (.combine (.var (.ty 0)) (.slice (.var (.int 0)))),
      .save, .edit (.cachePut key .ambiguous), .commit,
      .save, .edit (.ints (.bind 0 .i32)), .rollback]
    ∃ v v', runAll before { current := {} } = .ok v ∧ WellNested body ∧ runAll body v = .ok v' ∧
      runAll (.save :: (body ++ [.rollback])) v = .ok v ∧
      runAll (.save :: (body ++ [.commit])) v = .ok v' := by
  intro key before body
  have hbody : WellNested body :=
    .edit _ (.committed (.edit _ .nil) (.rolledBack (.edit _ .nil) .nil))
  have hbefore : runAll before { current := {} } = .ok _ := rfl
  rcases snapshots_exact hbefore hbody with ⟨hrollback, hcommit⟩
  exact ⟨_, _, hbefore, hbody, rfl, hrollback, hcommit⟩

end Command

end TypeInference
