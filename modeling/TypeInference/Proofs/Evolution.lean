import TypeInference.Infer.Coerce
import TypeInference.Proofs.Snapshots

/-!
# How the state of an inference evolves

Whatever an inference does to its variables and its cache is made of a few changes: new variables,
steps of unification, entries of the cache, and work inside a snapshot that is then rolled back or
closed (`State.Evolves`). What the changes keep is kept by every computation that is made of them
(`Infer.Evolving`).
-/

namespace TypeInference

/-! ## Changes -/

namespace State

variable {s s' s'' : State}

/-- How operations change the variables and the cache. -/
inductive Evolves : State → State → Prop
  | refl (s : State) : Evolves s s
  | trans {s s' s'' : State} : Evolves s s' → Evolves s' s'' → Evolves s s''
  | fresh (k : Vars.Kind) (s : State) : Evolves s { s with vars := k.fresh s.vars }
  | steps {s : State} {vars : Vars} : s.vars.Steps vars → Evolves s { s with vars }
  | found {s : State} {v : Var} {vars : Vars} : s.vars.find v = .ok vars → Evolves s { s with vars }
  | cached (s : State) (key : Projection) (entry : CacheEntry) :
    Evolves s { s with cache := s.cache.insert key entry }
  /-- Everything else in the state may change freely. -/
  | recorded {s s' : State} : s'.vars = s.vars → s'.cache = s.cache → Evolves s s'
  /-- Work whose changes are taken back. -/
  | probed {s s' : State} : Evolves s.opened s' → Evolves s (s'.rollback s.mark)
  /-- Work inside a snapshot that is closed. -/
  | committed {s s' : State} : Evolves s.opened s' → Evolves s s'.commit

/-- What holds of the state at all times: the variables are sound, and nothing is logged without an
open snapshot. -/
structure WellFormed (s : State) : Prop where
  vars : s.vars.Sound
  kept : s.Kept

theorem compressed_opened (s : State) (k : Vars.Kind) :
    (k.table s.vars).Compressed (k.table s.opened.vars) :=
  Table.compressed_of_cells (by cases k <;> rfl)

theorem compressed_commit (s : State) (k : Vars.Kind) :
    (k.table s.vars).Compressed (k.table s.commit.vars) :=
  Table.compressed_of_cells (by cases k <;> rfl)

theorem sound_opened (h : s.vars.Sound) : s.opened.vars.Sound := h.compressed s.compressed_opened

theorem sound_commit (h : s.vars.Sound) : s.commit.vars.Sound := h.compressed s.compressed_commit

theorem Later.wellFormed (h : s.Later s') (hs : s.WellFormed) (hvars : s'.vars.Sound) :
    s'.WellFormed := ⟨hvars, h.kept hs.kept⟩

/-- A state stays well-formed when a snapshot is opened. -/
theorem wellFormed_opened (hs : s.WellFormed) : s.opened.WellFormed :=
  ⟨sound_opened hs.vars, kept_opened s⟩

/-- Every change leads from a well-formed state to a well-formed one, from which the first can be
restored. -/
theorem Evolves.spec (h : s.Evolves s') (hs : s.WellFormed) : s'.WellFormed ∧ s.Later s' := by
  induction h with
  | refl s => exact ⟨hs, .refl s⟩
  | trans _ _ ih ih' =>
    obtain ⟨hs', hlater⟩ := ih hs
    obtain ⟨hs'', hlater'⟩ := ih' hs'
    exact ⟨hs'', hlater.trans hlater'⟩
  | fresh k s =>
    have hlater : s.Later { s with vars := k.fresh s.vars } :=
      ⟨Vars.later_put (Table.later_fresh _), .refl _⟩
    exact ⟨hlater.wellFormed hs (hs.vars.fresh k), hlater⟩
  | @steps s vars hsteps =>
    have hlater : s.Later { s with vars } := ⟨Vars.Steps.later hsteps, .refl _⟩
    exact ⟨hlater.wellFormed hs (Vars.Steps.sound hs.vars hsteps), hlater⟩
  | @found s v vars hfound =>
    have hlater : s.Later { s with vars } := ⟨Vars.later_find hfound, .refl _⟩
    exact ⟨hlater.wellFormed hs (hs.vars.find hfound), hlater⟩
  | cached s key entry =>
    have hlater : s.Later { s with cache := s.cache.insert key entry } :=
      ⟨.refl _, ProjectionCache.later_insert ..⟩
    exact ⟨hlater.wellFormed hs hs.vars, hlater⟩
  | @recorded s s' hvars hcache =>
    have hlater : s.Later s' := ⟨hvars ▸ .refl _, hcache ▸ .refl _⟩
    exact ⟨hlater.wellFormed hs (hvars ▸ hs.vars), hlater⟩
  | @probed s s' _ ih =>
    -- Whatever was done inside, the variables and the cache are the old ones again.
    rw [(ih (wellFormed_opened hs)).2.rollback_eq]
    have hlater : s.Later (s'.restore s.snapshot) := ⟨.refl _, .refl _⟩
    exact ⟨hlater.wellFormed hs hs.vars, hlater⟩
  | committed _ ih =>
    obtain ⟨hs', hlater⟩ := ih (wellFormed_opened hs)
    have hlater' := hlater.commit hs.kept
    exact ⟨hlater'.wellFormed hs (sound_commit hs'.vars), hlater'⟩

end State

namespace History

variable {change : State → State → Prop} {P : State → Prop} {v : Versions State Mark}

/-- Histories of changes that evolve the state are in well-formed states. -/
theorem holds (hchange : ∀ ⦃s s'⦄, s.WellFormed → P s → change s s' → s.Evolves s' ∧ P s')
    (hstart : P {}) (hopened : ∀ ⦃s⦄, P s → P s.opened) (hcommit : ∀ ⦃s⦄, P s → P s.commit)
    (hsnapshot : ∀ ⦃s s' : State⦄, s'.snapshot = s.snapshot → P s → P s')
    (h : History change v) : v.current.WellFormed ∧ P v.current := by
  have hnested := h.nested (P := fun s => s.vars.Sound ∧ P s) ?_ ⟨Vars.sound_empty, hstart⟩
    (fun _ hs => hs.imp State.sound_opened (@hopened _))
    (fun _ hs => hs.imp State.sound_commit (@hcommit _)) ?_
  · exact ⟨⟨hnested.holds.1, hnested.kept⟩, hnested.holds.2⟩
  · intro s s' hkept ⟨hsound, hP⟩ h
    obtain ⟨hevolves, hP'⟩ := hchange ⟨hsound, hkept⟩ hP h
    obtain ⟨hs', hlater⟩ := hevolves.spec ⟨hsound, hkept⟩
    exact ⟨hlater, hs'.vars, hP'⟩
  · intro s s' heq ⟨hsound, hP⟩
    have hvars : s'.vars = s.vars := congrArg Snapshot.vars heq
    exact ⟨hvars ▸ hsound, hsnapshot heq hP⟩

theorem wellFormed_of_evolves (hchange : ∀ ⦃s s'⦄, s.WellFormed → change s s' → s.Evolves s')
    (h : History change v) : v.current.WellFormed :=
  (h.holds (P := fun _ => True) (fun _ _ hs _ h => ⟨hchange hs h, trivial⟩) trivial
    (fun _ _ => trivial) (fun _ _ => trivial) fun _ _ _ _ => trivial).1

end History

/-! ## Computations -/

namespace Infer

variable {α β : Type} {scope : Scope} {s' s : State} {a : α} {x : Infer α} {f : α → Infer β}

theorem bind_eq_ok {b : β} (h : (x >>= f) scope s = .ok (b, s')) :
    ∃ a s₁, x scope s = .ok (a, s₁) ∧ f a scope s₁ = .ok (b, s') := by
  obtain ⟨⟨a, s₁⟩, hx, hf⟩ := Except.bind_eq_ok h
  exact ⟨a, s₁, hx, hf⟩

theorem bind_eq_error {e : Fault} (h : (x >>= f) scope s = .error e) :
    x scope s = .error e ∨ ∃ a s₁, x scope s = .ok (a, s₁) ∧ f a scope s₁ = .error e := by
  change (x scope s >>= fun p => f p.1 scope p.2) = .error e at h
  cases hx : x scope s with
  | error =>
    rw [hx] at h
    cases h
    exact .inl rfl
  | ok p =>
    rw [hx] at h
    exact .inr ⟨p.1, p.2, rfl, h⟩

theorem lift_eq_ok {x : Except Fault α} (h : (liftM x : Infer α) scope s = .ok (a, s')) :
    x = .ok a ∧ s' = s := by
  obtain ⟨b, hx, ⟨⟩⟩ := Except.bind_eq_ok h
  exact ⟨hx, rfl⟩

theorem onVars_eq_ok {act : VarM α} (h : onVars act scope s = .ok (a, s')) :
    ∃ vars, act s.vars = .ok (a, vars) ∧ s' = { s with vars } := by
  obtain ⟨_, _, ⟨⟩, h⟩ := bind_eq_ok h
  obtain ⟨⟨b, vars⟩, s₁, hrun, h⟩ := bind_eq_ok h
  obtain ⟨hrun, rfl⟩ := lift_eq_ok hrun
  cases h
  exact ⟨vars, hrun, rfl⟩

theorem readVars_eq_ok {f : Vars → Except Fault α} (h : readVars f scope s = .ok (a, s')) :
    f s.vars = .ok a ∧ s' = s := by
  obtain ⟨_, _, ⟨⟩, h⟩ := bind_eq_ok h
  exact lift_eq_ok h

/-- The computation changes the state only in the ways of `State.Evolves`. -/
def Evolving (x : Infer α) : Prop :=
  ∀ ⦃scope s a s'⦄, s.WellFormed → x scope s = .ok (a, s') → s.Evolves s'

end Infer

end TypeInference
