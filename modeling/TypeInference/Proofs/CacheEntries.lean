import TypeInference.Proofs.CachedObligations
import TypeInference.Proofs.Histories

/-!
# The life of cache entries

A projection is in progress from the moment its normalization begins until its answer is known.
Whatever else a call does, it leaves the projections that were in progress as they are and leaves no
other one in progress. An answer is final: a type may only lose the obligations that came with it,
and only once it has no open variables (`CacheEntry.Ages`).
-/

namespace TypeInference

/-! ## Projections of variables -/

variable {q p : Projection}

theorem Ty.isTyVar_erase (t : Ty) : t.erase.isTyVar = t.isTyVar := by
  rw [erase_eq]
  cases t <;> rfl

theorem Projection.isTyVar_of_beq (h : (p == q) = true) : p.self.isTyVar = q.self.isTyVar := by
  have hself : p.self.erase = q.self.erase := congrArg Projection.self (beq_iff.1 h)
  rw [← Ty.isTyVar_erase, hself, Ty.isTyVar_erase]

/-! ## Types without open variables -/

namespace Vars

variable {vs vs' : Vars} {t : Ty}

theorem Sound.resolve_of_vars (hs : vs.Sound) (ht : t.vars = []) : vs.resolve t = .ok t := by
  have hnone : ∀ v ∈ t.vars, False := fun v hv => by simp [ht] at hv
  have hground : vs.Grounded t := grounded_iff.2 fun v hv => (hnone v hv).elim
  obtain ⟨r, hr⟩ := (hs.resolve_settles .var t).exists_ok hground
  have hassign : t.assign (vs.extend .var) = t.assign .var :=
    Ty.assign_congr fun v hv => (hnone v hv).elim
  rw [resolve, hr, hs.resolve_eq hr, hassign, Ty.assign_var_self]

theorem Grows.isOpen_eq_false (hg : vs.Grows vs') (hs' : vs'.Sound)
    (h : vs.isOpen t = .ok false) : vs'.isOpen t = .ok false := by
  obtain ⟨u, hu, hclosed⟩ := Except.bind_eq_ok h
  have hvars : u.vars = [] := Ty.hasVar_eq_false_iff.1 (Except.ok.inj hclosed)
  have hsame : (vs'.resolve t).toOption = some u := by
    have := hg.resolve_eq hs' hu .var
    rw [← resolve, ← resolve, hs'.resolve_of_vars hvars] at this
    exact this
  obtain ⟨r, hr, rfl⟩ := Except.exists_ok_of_toOption (f := id) (by rw [hsame]; rfl)
  rw [isOpen, hr]
  exact hclosed

end Vars

/-! ## What may become of entries -/

/-- What an entry may become: a type whose variables are all determined needs no obligations. -/
inductive CacheEntry.Ages (vs : Vars) : CacheEntry → CacheEntry → Prop
  | same (entry : CacheEntry) : Ages vs entry entry
  | pruned {result : Normalized Ty} : vs.isOpen result.value = .ok false →
    Ages vs (.normalized result) (.normalized (.plain result.value))

namespace CacheEntry.Ages

variable {vs vs' : Vars} {entry entry' entry'' : CacheEntry}

theorem trans (h : Ages vs entry entry') (h' : Ages vs entry' entry'') : Ages vs entry entry'' := by
  cases h with
  | same => exact h'
  | pruned hclosed =>
    cases h' with
    | same | pruned => exact .pruned hclosed

theorem grows (h : Ages vs entry entry') (hg : vs.Grows vs') (hs' : vs'.Sound) :
    Ages vs' entry entry' := by
  cases h with
  | same => exact .same _
  | pruned hclosed => exact .pruned (hg.isOpen_eq_false hs' hclosed)

theorem inProgress_iff (h : Ages vs entry entry') : entry' = .inProgress ↔ entry = .inProgress := by
  cases h with
  | same => exact Iff.rfl
  | pruned _ => exact iff_of_false nofun nofun

end CacheEntry.Ages

namespace State

variable {s s' s'' : State} {key : Projection} {entry : CacheEntry}

/-- Entries of the cache only age, and those that are new are not in progress. -/
structure Lasts (s s' : State) : Prop where
  kept : ∀ key entry, s.cache.get? key = some entry →
    ∃ entry', s'.cache.get? key = some entry' ∧ entry.Ages s'.vars entry'
  added : ∀ key entry, s.cache.get? key = none → s'.cache.get? key = some entry →
    entry ≠ .inProgress ∧ key.self.isTyVar = false

namespace Lasts

theorem of_get? (h : ∀ key, s'.cache.get? key = s.cache.get? key) : Lasts s s' where
  kept key entry hentry := ⟨entry, (h key).trans hentry, .same entry⟩
  added key entry hnone hsome := by
    rw [h, hnone] at hsome
    cases hsome

theorem trans (h : Lasts s s') (h' : Lasts s' s'') (hg : s'.vars.Grows s''.vars)
    (hs'' : s''.vars.Sound) : Lasts s s'' where
  kept key entry hentry := by
    obtain ⟨entry', hentry', hages⟩ := h.kept key entry hentry
    obtain ⟨entry'', hentry'', hages'⟩ := h'.kept key entry' hentry'
    exact ⟨entry'', hentry'', (hages.grows hg hs'').trans hages'⟩
  added key entry hnone hsome := by
    cases hmiddle : s'.cache.get? key with
    | none => exact h'.added key entry hmiddle hsome
    | some entry' =>
      obtain ⟨hne, hself⟩ := h.added key entry' hnone hmiddle
      obtain ⟨entry'', hentry'', hages⟩ := h'.kept key entry' hmiddle
      rw [hsome] at hentry''
      cases hentry''
      exact ⟨fun heq => hne (hages.inProgress_iff.1 heq), hself⟩

theorem inProgress_iff (h : Lasts s s') :
    s'.cache.get? key = some .inProgress ↔ s.cache.get? key = some .inProgress := by
  constructor
  · intro hsome
    cases hentry : s.cache.get? key with
    | none => exact absurd rfl (h.added key _ hentry hsome).1
    | some entry =>
      obtain ⟨entry', hentry', hages⟩ := h.kept key entry hentry
      rw [hsome] at hentry'
      cases hentry'
      rw [hages.inProgress_iff.1 rfl]
  · intro hentry
    obtain ⟨entry', hentry', hages⟩ := h.kept key _ hentry
    rw [hentry', hages.inProgress_iff.2 rfl]

/-- Between its beginning and its end a normalization only lets the other entries age, so as a
whole it does no more than to add its own. -/
theorem of_normalization (habsent : s.cache.get? key = none) (hself : key.self.isTyVar = false)
    (h : Lasts { s with cache := s.cache.insert key .inProgress } s') (hentry : entry ≠ .inProgress) :
    Lasts s { s' with cache := s'.cache.insert key entry } where
  kept k e he := by
    have hk : ¬ (k == key) = true := by
      intro hk
      rw [ProjectionCache.get?_congr hk, habsent] at he
      cases he
    obtain ⟨e', he', hages⟩ := h.kept k e (by rwa [ProjectionCache.get?_insert, if_neg hk])
    exact ⟨e', by rwa [ProjectionCache.get?_insert, if_neg hk], hages⟩
  added k e hnone hsome := by
    rw [ProjectionCache.get?_insert] at hsome
    by_cases hk : (k == key) = true
    · rw [if_pos hk] at hsome
      cases hsome
      exact ⟨hentry, (Projection.isTyVar_of_beq hk).trans hself⟩
    · rw [if_neg hk] at hsome
      refine h.added k e ?_ hsome
      rwa [ProjectionCache.get?_insert, if_neg hk]

/-- An entry without open variables may lose its obligations. -/
theorem of_pruned {result : Normalized Ty} (hcached : s.cache.get? key = some (.normalized result))
    (hclosed : s.vars.isOpen result.value = .ok false) :
    Lasts s { s with cache := s.cache.insert key (.normalized (.plain result.value)) } where
  kept k e he := by
    rw [ProjectionCache.get?_insert]
    by_cases hk : (k == key) = true
    · rw [ProjectionCache.get?_congr hk, hcached] at he
      cases he
      exact ⟨_, if_pos hk, .pruned hclosed⟩
    · exact ⟨e, by rwa [if_neg hk], .same e⟩
  added k e hnone hsome := by
    rw [ProjectionCache.get?_insert] at hsome
    by_cases hk : (k == key) = true
    · rw [ProjectionCache.get?_congr hk, hcached] at hnone
      cases hnone
    · rw [if_neg hk, hnone] at hsome
      cases hsome

end Lasts

end State

/-! ## Normalization -/

namespace Infer

variable {scope : Scope} {s s' : State} {α : Type} {p : Projection} {found : Option (Normalized Ty)}
  {depth n : Nat}

/-- Every part of an inference keeps the entries of the cache. -/
theorem carries_lasts : Carries fun s s' => s.WellFormed → s.Evolves s' ∧ s.Lasts s' where
  refl s _ := ⟨.refl s, .of_get? fun _ => rfl⟩
  trans h h' hs := by
    obtain ⟨hev, hlasts⟩ := h hs
    have hs' := (hev.spec hs).1
    obtain ⟨hev', hlasts'⟩ := h' hs'
    exact ⟨hev.trans hev', hlasts.trans hlasts' (hev'.grows hs') (hev'.spec hs').1.vars⟩
  vars hev _ := ⟨hev, .of_get? fun _ => rfl⟩
  recorded h _ := ⟨.recorded h.vars h.cache, .of_get? fun _ => by rw [h.cache]⟩
  probed hs hev _ _ := by
    refine ⟨.probed hev, .of_get? fun key => ?_⟩
    rw [(hev.spec (State.wellFormed_opened hs)).2.rollback_eq]
    rfl
  committed := by
    intro s s' hs hev h _
    have hopened := State.wellFormed_opened hs
    have hs' := (hev.spec hopened).1
    have hclosing : s'.Lasts s'.commit := .of_get? fun _ => rfl
    have hlasts := (h hopened).2.trans hclosing (State.grows_commit hs'.vars)
      (State.sound_commit hs'.vars)
    exact ⟨.committed hev, hlasts.kept, hlasts.added⟩

/-- The normalization of inner projections. -/
inductive InnerOp (n : Nat) : (α : Type) → Infer α → Prop
  | call (p : Projection) (depth : Nat) :
    InnerOp n (Option (Normalized Ty)) (normalizeWithin n p depth)

theorem cacheStart_eq_ok {found : Option CacheEntry} (h : cacheStart p scope s = .ok (found, s')) :
    (∃ entry, found = some entry ∧ s.cache.get? p = some entry ∧ s' = s) ∨
    (found = none ∧ s.cache.get? p = none ∧
      s' = { s with cache := s.cache.insert p .inProgress }) := by
  rw [cacheStart_run, ProjectionCache.start] at h
  cases hget : s.cache.get? p with
  | some entry =>
    rw [hget] at h
    cases h
    exact .inl ⟨entry, rfl, rfl, rfl⟩
  | none =>
    rw [hget] at h
    cases h
    exact .inr ⟨rfl, rfl, rfl⟩

theorem lasts_of_answerFromCache {entry : CacheEntry} (hcached : s.cache.get? p = some entry)
    (h : answerFromCache p entry scope s = .ok (found, s')) : s.Lasts s' := by
  cases entry with
  | ambiguous | inProgress | error =>
    cases h
    exact .of_get? fun _ => rfl
  | normalized cached =>
    obtain ⟨isOpen, s₁, hopen, h⟩ := bind_eq_ok h
    obtain ⟨hopen, rfl⟩ := readVars_eq_ok hopen
    cases isOpen with
    | true =>
      cases h
      exact .of_get? fun _ => rfl
    | false =>
      cases h
      exact .of_pruned hcached hopen

/-- A projection that is not on a variable is answered by the cache, or by what it projects to. -/
theorem normalizeWithin_eq_ok (h : normalizeWithin (n + 1) p depth scope s = .ok (found, s')) :
    ∃ q, s.vars.resolveProjection p = .ok q ∧
      (q.self.isTyVar = true ∧ found = none ∧ s' = s ∨
        q.self.isTyVar = false ∧
          ((∃ entry, s.cache.get? q = some entry ∧
              answerFromCache q entry scope s = .ok (found, s')) ∨
            s.cache.get? q = none ∧ ∃ answer s₁,
              project (normalizeWithin n) q depth scope
                { s with cache := s.cache.insert q .inProgress } = .ok (answer, s₁) ∧
              remember q answer scope s₁ = .ok (found, s'))) := by
  obtain ⟨q, s₁, hq, hrest⟩ := bind_eq_ok h
  obtain ⟨hq, rfl⟩ := readVars_eq_ok hq
  refine ⟨q, hq, ?_⟩
  cases hself : q.self.isTyVar with
  | true =>
    rw [hself] at hrest
    cases hrest
    exact .inl ⟨rfl, rfl, rfl⟩
  | false =>
    rw [hself] at hrest
    obtain ⟨cached, s₂, hstart, hfound⟩ := bind_eq_ok hrest
    refine .inr ⟨rfl, ?_⟩
    rcases cacheStart_eq_ok hstart with ⟨entry, rfl, hcached, rfl⟩ | ⟨rfl, habsent, rfl⟩
    · exact .inl ⟨entry, hcached, hfound⟩
    · exact .inr ⟨habsent, bind_eq_ok hfound⟩

/-- Remembering an answer replaces the mark that the projection is in progress. -/
theorem remember_eq_ok {answer : Selection (Option (Normalized Ty))} (hs : s.WellFormed)
    (h : remember p answer scope s = .ok (found, s')) :
    ∃ s₁ entry, s.Evolves s₁ ∧ s.Lasts s₁ ∧ entry ≠ .inProgress ∧
      s' = { s₁ with cache := s₁.cache.insert p entry } := by
  have hsame : s.Lasts s := .of_get? fun _ => rfl
  match answer, h with
  | .ok (some result), h =>
    obtain ⟨kept, s₁, hkept, h⟩ := bind_eq_ok h
    cases h
    -- Choosing what to keep does not touch the cache.
    have hregular : Regular scope (fun _ => True) (fun _ _ => False) (forCache result) :=
      (Orderly.forCache within_true).anyway
    obtain ⟨hev, hlasts⟩ := hregular.spec carries_lasts (fun hx => hx.elim) hs hkept
    exact ⟨s₁, .normalized kept, hev, (hlasts hs).2, nofun, rfl⟩
  | .ok none, h =>
    cases h
    exact ⟨s, .normalized (.plain p.toTy), .refl s, hsame, nofun, rfl⟩
  | .err, h =>
    cases h
    exact ⟨s, .error, .refl s, hsame, nofun, rfl⟩
  | .ambiguous, h =>
    cases h
    exact ⟨s, .ambiguous, .refl s, hsame, nofun, rfl⟩

/-- Projecting keeps what the normalizations inside it keep. -/
theorem relates_project {R : State → State → Prop} (hR : Carries R)
    (hinner : ∀ p depth, Relates scope R (normalizeWithin n p depth)) :
    Relates scope R (project (normalizeWithin n) p depth) := by
  have hregular : Regular scope (fun _ => True) (InnerOp n) (project (normalizeWithin n) p depth) :=
    Orderly.anyway <| .project within_true (fun _ _ q d _ _ hq _ => .standIn hq
      ⟨fun _ => .atom (.call q d),
        (orderly_normalizeWithin (E := fun _ => True) trivial trivial hq).stays⟩
      (deeper_failsWith trivial d)) (deeper_failsWith trivial depth)
  refine hregular.spec hR ?_
  rintro _ _ ⟨q, d⟩
  exact hinner q d

/-- Normalizing leaves every entry but that of its own projection to the normalizations inside, and
these find that one in progress. -/
theorem relates_normalizeWithin (n : Nat) (p : Projection) (depth : Nat) :
    Relates scope (fun s s' => s.WellFormed → s.Evolves s' ∧ s.Lasts s')
      (normalizeWithin n p depth) := by
  induction n generalizing p depth with
  | zero =>
    intro _ _ _ _ h
    cases h
  | succ n ih =>
    intro s found s' hs h
    have hregular : Regular scope (fun _ => True) CacheOp (normalizeWithin (n + 1) p depth) :=
      (orderly_normalizeWithin trivial trivial within_true).anyway
    have hev := (hregular.spec carries_true (fun hx => hx.relates) hs h).1
    suffices s.Lasts s' from ⟨hev, fun _ => ⟨hev, this⟩⟩
    obtain ⟨q, -, ⟨-, rfl, rfl⟩ | ⟨hself, ⟨entry, hcached, hfound⟩ |
      ⟨habsent, answer, s₃, hproject, hremember⟩⟩⟩ := normalizeWithin_eq_ok h
    · exact .of_get? fun _ => rfl
    · exact lasts_of_answerFromCache hcached hfound
    · have hs₂ := ((State.Evolves.cached s q .inProgress).spec hs).1
      obtain ⟨hev₃, hlasts₃⟩ := relates_project carries_lasts ih hs₂ hproject
      have hs₃ := (hev₃.spec hs₂).1
      obtain ⟨s₄, entry, hev₄, hlasts₄, hentry, rfl⟩ := remember_eq_ok hs₃ hremember
      have hlasts := (hlasts₃ hs₂).2.trans hlasts₄ (hev₄.grows hs₃) (hev₄.spec hs₃).1.vars
      exact hlasts.of_normalization habsent hself hentry

end Infer

/-! ## Calls -/

open Infer

variable {scope : Scope} {s s' : State} {v : Versions State Mark} {key p : Projection}

theorem Infer.Calls.lasts (hs : s.WellFormed) (h : Calls scope s s') : s.Lasts s' := by
  refine ((h.relates (K := NormalizeOp) carries_lasts ?_ hs).2 hs).2
  intro _ _ hx
  cases hx with
  | call p depth => exact relates_normalizeWithin scope.fuel.nesting p depth

theorem Infer.normalizeWithin_of_inProgress (hq : s.vars.resolveProjection p = .ok q)
    (hself : q.self.isTyVar = false) (hprogress : s.cache.get? q = some .inProgress) (n depth : Nat) :
    normalizeWithin (n + 1) p depth scope s = .ok (some (.plain .unknown), s) := by
  have hread : readVars (·.resolveProjection p) scope s = .ok (q, s) := readVars_of_ok hq
  have hstart : cacheStart q scope s = .ok (some .inProgress, s) := by
    rw [cacheStart_run, ProjectionCache.start, hprogress]
  rw [normalizeWithin, bind_of_ok hread, hself, if_neg Bool.false_ne_true, bind_of_ok hstart]
  rfl

/-- Only projections of types that are known at the head get into the cache. -/
theorem History.isTyVar_of_cached (h : History (Works scope) v) {entry : CacheEntry}
    (hentry : v.current.cache.get? key = some entry) : key.self.isTyVar = false := by
  have hholds := h.holds
    (P := fun s => ∀ key entry, s.cache.get? key = some entry → key.self.isTyVar = false) ?_ ?_
    (fun _ hP => hP) (fun _ hP => hP) ?_
  · exact hholds.2 key entry hentry
  · intro s s' hs hP hwork
    refine ⟨hwork.evolves hs, fun key entry hentry => ?_⟩
    cases hold : s.cache.get? key with
    | some entry' => exact hP key entry' hold
    | none =>
      cases hwork with
      | call h => exact ((h.lasts hs).added key entry hold hentry).2
      | @started p _ _ hp hstart =>
        rcases cacheStart_eq_ok hstart with ⟨_, hfound, -⟩ | ⟨-, -, rfl⟩
        · cases hfound
        · rw [ProjectionCache.get?_insert] at hentry
          by_cases hk : (key == p) = true
          · exact (Projection.isTyVar_of_beq hk).trans hp
          · rw [if_neg hk, hold] at hentry
            cases hentry
      | recorded h =>
        have hcache : s'.cache = s.cache := congrArg Snapshot.cache h
        rw [hcache, hold] at hentry
        cases hentry
  · intro key entry h
    cases h
  · intro s s' hsnapshot hP
    have hcache : s'.cache = s.cache := congrArg Snapshot.cache hsnapshot
    rwa [hcache]

/-- Whatever has happened before, and in the middle of normalizations too: a call leaves the same
projections in progress; entries that are ambiguous or errors stay as they are; a normal form stays,
and its obligations go only if no variable in it is open. And a projection that is met while it is
in progress is unknown, which changes nothing. -/
theorem History.cache_lifecycle (h : History (Works scope) v) :
    (∀ s', Calls scope v.current s' →
      (∀ key, s'.cache.get? key = some .inProgress ↔
        v.current.cache.get? key = some .inProgress) ∧
      (∀ key, v.current.cache.get? key = some .ambiguous → s'.cache.get? key = some .ambiguous) ∧
      (∀ key, v.current.cache.get? key = some .error → s'.cache.get? key = some .error) ∧
      ∀ key result, v.current.cache.get? key = some (.normalized result) →
        s'.cache.get? key = some (.normalized result) ∨
        s'.cache.get? key = some (.normalized (.plain result.value)) ∧
          s'.vars.isOpen result.value = .ok false) ∧
    ∀ p q depth, v.current.vars.resolveProjection p = .ok q →
      v.current.cache.get? q = some .inProgress →
      (∀ n, normalizeWithin (n + 1) p depth scope v.current =
        .ok (some (.plain .unknown), v.current)) ∧
      (0 < scope.fuel.nesting → normalize? p depth scope v.current =
        .ok (some (.plain .unknown), v.current)) := by
  have hs : v.current.WellFormed := h.wellFormed_of_evolves fun _ _ hs h => h.evolves hs
  constructor
  · intro s' hcall
    have hlasts := hcall.lasts hs
    refine ⟨fun key => hlasts.inProgress_iff, ?_, ?_, ?_⟩
    · intro key hkey
      obtain ⟨_, hkey', ⟨_⟩⟩ := hlasts.kept key _ hkey
      exact hkey'
    · intro key hkey
      obtain ⟨_, hkey', ⟨_⟩⟩ := hlasts.kept key _ hkey
      exact hkey'
    · intro key result hkey
      obtain ⟨_, hkey', hages⟩ := hlasts.kept key _ hkey
      cases hages with
      | same => exact Or.inl hkey'
      | pruned hclosed => exact Or.inr ⟨hkey', hclosed⟩
  · intro p q depth hq hprogress
    have hnested : ∀ n depth, normalizeWithin (n + 1) p depth scope v.current =
        .ok (some (.plain .unknown), v.current) :=
      normalizeWithin_of_inProgress hq (h.isTyVar_of_cached hprogress) hprogress
    refine ⟨fun n => hnested n depth, fun hnesting => ?_⟩
    show normalizeWithin scope.fuel.nesting p depth scope v.current = _
    rw [← Nat.succ_pred_eq_of_pos hnesting]
    exact hnested _ depth

/-- While one projection is in progress, another one turns out to be an error and the same one is
asked for again. -/
theorem History.cache_lifecycle_nested :
    let outer : Projection := ⟨⟨.slice .bool, ⟨0⟩, []⟩, "Item"⟩
    let inner : Projection := ⟨⟨.bool, ⟨0⟩, []⟩, "Item"⟩
    ∃ v s', History (Works .bare) v ∧ v.current.cache.get? outer = some .inProgress ∧
      normalize? inner 0 .bare v.current = .ok (some (.plain .unknown), s') ∧
      s'.cache.get? inner = some .error ∧ s'.cache.get? outer = some .inProgress ∧
      normalize? outer 0 .bare v.current = .ok (some (.plain .unknown), v.current) := by
  intro outer inner
  have hstart : History (Works .bare) { current := {} } := .start
  have h := hstart.forward (.change (.started (p := outer) rfl rfl))
  obtain ⟨hcalls, hnested⟩ := h.cache_lifecycle
  have hcall := hcalls _ (.operation (.normalize inner 0) rfl)
  refine ⟨_, _, h, rfl, rfl, ?_⟩
  exact ⟨rfl, (hcall.1 outer).2 rfl, (hnested outer outer 0 rfl rfl).2 (by decide)⟩

end TypeInference
