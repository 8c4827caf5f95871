import TypeInference.Proofs.Operations

/-!
# Bounded sequences of dereferences

Dereferencing a type again and again need not come to an end: an impl can lead back to a type that
has been seen, or to a larger one each time. `DerefRun` is the sequence of steps without any bound
on it. A dereference sequence is such a run that was broken off, if at all, at the limit or at a type
that it has already gone through (`Infer.derefSequence_bounded`).
-/

namespace TypeInference

open Infer

/-- With `n` dereferences `t` is followed by the other types of the list. What would come after them
is given where the run was broken off, and is none where it had come to its end. -/
inductive DerefRun (scope : Scope) : Nat → State → Ty → List Ty → Option Ty → State → Prop
  | brokenOff (s : State) (t : Ty) : DerefRun scope 0 s t [] (some t) s
  /-- Raw pointers are not followed. -/
  | pointer (s : State) (t : Ty) (m : Mutability) : DerefRun scope 0 s (.ptr t m) [.ptr t m] none s
  | final {t : Ty} {s s' : State} : (∀ u m, t ≠ .ptr u m) → deref t scope s = .ok (none, s') →
    DerefRun scope 1 s t [t] none s'
  | step {n : Nat} {t target u : Ty} {seq : List Ty} {next : Option Ty} {s s₁ s₂ s' : State} :
    (∀ u m, t ≠ .ptr u m) → deref t scope s = .ok (some target, s₁) →
    resolveSettled target scope s₁ = .ok (u, s₂) → DerefRun scope n s₂ u seq next s' →
    DerefRun scope (n + 1) s t (t :: seq) next s'

variable {scope : Scope} {s s' : State} {t u : Ty} {seq out : List Ty} {next : Option Ty}
  {n room : Nat} {f : Fault}

/-- No two types of the list are the same. -/
def Distinct (seq : List Ty) : Prop := seq.Pairwise fun a b => a.same b = false

/-- The second list is the first, followed by a slice exactly if the last of the types is an array,
and then by that of its elements. -/
def Sliced (seq out : List Ty) : Prop :=
  (∃ elem len, seq.getLast? = some (.array elem len) ∧ out = seq ++ [.slice elem]) ∨
    (∀ elem len, seq.getLast? ≠ some (.array elem len)) ∧ out = seq

theorem Sliced.isPrefix (h : Sliced seq out) : seq <+: out := by
  rcases h with ⟨elem, len, -, rfl⟩ | ⟨-, rfl⟩
  · exact List.prefix_append ..
  · exact List.prefix_rfl

theorem Sliced.length_le (h : Sliced seq out) : out.length ≤ seq.length + 1 := by
  rcases h with ⟨elem, len, -, rfl⟩ | ⟨-, rfl⟩
  · rw [List.length_append, List.length_singleton]
  · exact Nat.le_succ _

/-! ## Runs -/

namespace DerefRun

theorem steps_le (h : DerefRun scope n s t seq next s') : n ≤ seq.length := by
  induction h with
  | brokenOff | pointer => exact Nat.zero_le _
  | final => exact le_rfl
  | step _ _ _ _ ih => exact Nat.succ_le_succ ih

theorem ne_pointer (h : DerefRun scope n s t seq next s') :
    ∀ u ∈ seq.dropLast, ∀ pointee m, u ≠ .ptr pointee m := by
  induction h with
  | brokenOff | pointer | final => exact nofun
  | @step n t target u seq next s s₁ s₂ s' hptr _ _ _ ih =>
    cases seq with
    | nil => exact nofun
    | cons v seq =>
      rw [List.dropLast_cons_cons]
      intro w hw
      rcases List.mem_cons.1 hw with rfl | hw
      · exact hptr
      · exact ih w hw

/-- The types of a run are in range, also the one where it was broken off. -/
theorem inRange (h : DerefRun scope n s t seq next s') (hscope : scope.IsClosed) (hs : s.InRange)
    (ht : Within s.vars.Has t) : s'.InRange ∧ ∀ u, next = some u → Within s'.vars.Has u := by
  have hderef {t : Ty} {s : State} (hs : s.InRange) (ht : Within s.vars.Has t) :=
    Contained.of_orderly (fun _ => .deref ht) hscope hs le_rfl
  induction h with
  | brokenOff s t => exact ⟨hs, fun u hu => by cases hu; exact ht⟩
  | pointer => exact ⟨hs, nofun⟩
  | final _ hrun => exact ⟨(hderef hs ht).throughout.after hrun, nofun⟩
  | step _ hrun hsettled _ ih =>
    have hs₁ := (hderef hs ht).throughout.after hrun
    have htarget := within_some.1 ((hderef hs ht).ok _ _ hrun).2
    have hstays := Contained.of_orderly (fun _ => .resolveSettled htarget) hscope hs₁ le_rfl
    exact ih (hstays.throughout.after hsettled) (hstays.ok _ _ hsettled).2

end DerefRun

namespace Infer

/-! ## Failures -/

/-- Nothing but the normalization of its target makes a dereference fail. -/
theorem deref_eq_error (h : deref t scope s = .error f) :
    ∃ trait, scope.known.deref = some trait ∧
      normalize? ⟨⟨t, trait, []⟩, "Target"⟩ 0 scope s = .error f := by
  have htrait (h : derefThroughTrait t scope s = .error f) :
      ∃ trait, scope.known.deref = some trait ∧
        normalize? ⟨⟨t, trait, []⟩, "Target"⟩ 0 scope s = .error f := by
    rcases bind_eq_error h with ⟨⟨⟩⟩ | ⟨_, _, ⟨⟩, hrest⟩
    cases hknown : scope.known.deref with
    | none =>
      rw [hknown] at hrest
      cases hrest
    | some trait =>
      rw [hknown] at hrest
      rcases bind_eq_error hrest with hnormalize | ⟨found, s₁, -, hlast⟩
      · exact ⟨trait, rfl, hnormalize⟩
      · rcases found with _ | ⟨value, obligations⟩
        · cases hlast
        · cases value <;> cases hlast
  unfold deref at h
  split at h
  · cases h
  · cases h
  · rcases bind_eq_error h with ⟨⟨⟩⟩ | ⟨_, _, ⟨⟩, hrest⟩
    split at hrest
    · cases hrest
    · exact htrait hrest
  · cases h
  · cases h
  · cases h
  · exact htrait h

/-- Nothing but the obligations makes resolution fail that waits for them. -/
theorem resolveSettled_eq_error (hscope : scope.IsClosed) (hs : s.InRange)
    (ht : Within s.vars.Has t) (h : resolveSettled t scope s = .error f) :
    settlePending scope s = .error f := by
  have hresolve {s : State} (hs : s.InRange) {t : Ty} (ht : Within s.vars.Has t) :
      ∃ r, resolve t scope s = .ok (r, s) ∧ Within s.vars.Has r := by
    obtain ⟨r, hr, hr'⟩ := hs.vars.exists_resolve ht
    refine ⟨r, ?_, hr'⟩
    change ((s.vars.resolve t).bind fun a => Except.ok (a, s)) = _
    rw [hr]
    rfl
  obtain ⟨r, hr, hr'⟩ := hresolve hs ht
  rcases bind_eq_error h with herror | ⟨r', s₁, hrun, hrest⟩
  · rw [hr] at herror
    cases herror
  rw [hr] at hrun
  cases hrun
  split at hrest
  · rcases bind_eq_error hrest with herror | ⟨_, s₂, hsettled, hlast⟩
    · exact herror
    · have hstays := Contained.of_orderly (fun _ => .settlePending) hscope hs le_rfl
      obtain ⟨r₂, hr₂, -⟩ := hresolve (hstays.throughout.after hsettled)
        (hr'.mono (hstays.ok _ _ hsettled).1)
      rw [hr₂] at hlast
      cases hlast
  · cases hrest

/-! ## Sequences -/

theorem autoderef_eq_ok {found : Option Ty} (h : autoderef t scope s = .ok (found, s')) :
    (found = none ∧ ∃ n, DerefRun scope n s t [t] none s') ∨
      ∃ target u s₁, found = some u ∧ (∀ pointee m, t ≠ .ptr pointee m) ∧
        deref t scope s = .ok (some target, s₁) ∧ resolveSettled target scope s₁ = .ok (u, s') := by
  unfold autoderef at h
  split at h
  · cases h
    exact .inl ⟨rfl, 0, .pointer ..⟩
  · next hptr =>
    obtain ⟨target, s₁, hderef, hnext⟩ := bind_eq_ok h
    cases target with
    | none =>
      cases hnext
      exact .inl ⟨rfl, 1, .final hptr hderef⟩
    | some target =>
      obtain ⟨u, s₂, hsettled, ⟨⟩⟩ := bind_eq_ok hnext
      exact .inr ⟨target, u, s₁, rfl, hptr, hderef, hsettled⟩

theorem autoderef_eq_error (h : autoderef t scope s = .error f) :
    deref t scope s = .error f ∨ ∃ target s₁, deref t scope s = .ok (some target, s₁) ∧
      resolveSettled target scope s₁ = .error f := by
  unfold autoderef at h
  split at h
  · cases h
  rcases bind_eq_error h with hderef | ⟨target, s₁, hderef, hnext⟩
  · exact .inl hderef
  · cases target with
    | none => cases hnext
    | some target =>
      rcases bind_eq_error hnext with hsettled | ⟨_, _, -, ⟨⟩⟩
      exact .inr ⟨target, s₁, hderef, hsettled⟩

theorem derefRun_of_derefFrom (h : derefFrom room seq t scope s = .ok (out, s')) :
    ∃ n us next, out = seq ++ us ∧ DerefRun scope n s t us next s' ∧ us.length ≤ room ∧
      (Distinct seq → Distinct out) ∧
      ∀ u, next = some u → us.length = room ∨ ∃ w ∈ out, w.same u = true := by
  induction room generalizing seq t s with
  | zero =>
    cases h
    exact ⟨0, [], some t, (List.append_nil _).symm, .brokenOff .., le_rfl, id, fun _ _ => Or.inl rfl⟩
  | succ room ih =>
    rw [derefFrom] at h
    by_cases hseen : (seq.any (· == t)) = true
    · rw [if_pos hseen] at h
      cases h
      refine ⟨0, [], some t, (List.append_nil _).symm, .brokenOff .., Nat.zero_le _, id, ?_⟩
      rintro _ ⟨⟩
      exact .inr (List.any_eq_true.1 hseen)
    rw [if_neg hseen] at h
    have hdistinct (h : Distinct seq) : Distinct (seq ++ [t]) := by
      refine List.pairwise_append.2 ⟨h, List.pairwise_singleton .., fun a ha b hb => ?_⟩
      rw [List.mem_singleton.1 hb]
      exact Bool.eq_false_iff.2 fun hsame => hseen (List.any_eq_true.2 ⟨a, ha, hsame⟩)
    obtain ⟨found, s₁, hderef, hrest⟩ := bind_eq_ok h
    rcases autoderef_eq_ok hderef with ⟨rfl, n, hrun⟩ | ⟨target, u, s₂, rfl, hptr, hderef, hsettled⟩
    · cases hrest
      exact ⟨n, [t], none, rfl, hrun, Nat.le_add_left .., hdistinct, nofun⟩
    · obtain ⟨n, us, next, rfl, hrun, hlength, hout, hend⟩ := ih hrest
      refine ⟨n + 1, t :: us, next, by rw [List.append_assoc]; rfl,
        .step hptr hderef hsettled hrun, Nat.succ_le_succ hlength, hout ∘ hdistinct, fun u hu => ?_⟩
      exact (hend u hu).imp_left (congrArg (· + 1))

theorem isPrefix_derefFrom_succ (hnew : seq.any (· == t) = false)
    (h : derefFrom (room + 1) seq t scope s = .ok (out, s')) : seq ++ [t] <+: out := by
  obtain ⟨n, us, next, rfl, hrun, -, -, hend⟩ := derefRun_of_derefFrom h
  cases hrun with
  | brokenOff =>
    rcases hend t rfl with ⟨⟨⟩⟩ | hseen
    rw [List.append_nil] at hseen
    exact absurd (List.any_eq_true.2 hseen) (Bool.eq_false_iff.1 hnew)
  | pointer | final => exact List.prefix_rfl
  | step => exact (List.prefix_append_right_inj seq).2 (List.prefix_append [t] _)

/-- What fails is the dereference of the type where the run is broken off, or resolving its target. -/
theorem derefRun_of_derefFrom_eq_error (h : derefFrom room seq t scope s = .error f) :
    ∃ n us u s₁, DerefRun scope n s t us (some u) s₁ ∧ n < room ∧
      (deref u scope s₁ = .error f ∨ ∃ target s₂, deref u scope s₁ = .ok (some target, s₂) ∧
        resolveSettled target scope s₂ = .error f) := by
  induction room generalizing seq t s with
  | zero => cases h
  | succ room ih =>
    rw [derefFrom] at h
    split at h
    · cases h
    rcases bind_eq_error h with hderef | ⟨found, s₁, hderef, hrest⟩
    · exact ⟨0, [], t, s, .brokenOff .., Nat.zero_lt_succ _, autoderef_eq_error hderef⟩
    rcases autoderef_eq_ok hderef with ⟨rfl, -⟩ | ⟨target, u, s₂, rfl, hptr, hderef, hsettled⟩
    · cases hrest
    · obtain ⟨n, us, v, s₃, hrun, hn, hfails⟩ := ih hrest
      exact ⟨n + 1, t :: us, v, s₃, .step hptr hderef hsettled hrun, Nat.succ_lt_succ hn, hfails⟩

theorem derefSequence_eq_ok (h : derefSequence t scope s = .ok (out, s')) :
    ∃ first s₀ seq, resolveSettled t scope s = .ok (first, s₀) ∧
      derefFrom scope.config.autoderefLimit [] first scope s₀ = .ok (seq, s') ∧ Sliced seq out := by
  obtain ⟨first, s₀, hsettled, hrest⟩ := bind_eq_ok h
  obtain ⟨_, _, ⟨⟩, hrest⟩ := bind_eq_ok hrest
  obtain ⟨seq, s₁, hfrom, hlast⟩ := bind_eq_ok hrest
  cases hend : seq.getLast? with
  | none =>
    rw [hend] at hlast
    cases hlast
    exact ⟨first, s₀, _, hsettled, hfrom, Or.inr ⟨by rw [hend]; exact nofun, rfl⟩⟩
  | some last =>
    rw [hend] at hlast
    cases last with
    | array elem len =>
      cases hlast
      exact ⟨first, s₀, seq, hsettled, hfrom, Or.inl ⟨elem, len, hend, rfl⟩⟩
    | _ =>
      cases hlast
      exact ⟨first, s₀, _, hsettled, hfrom, Or.inr ⟨by rw [hend]; exact nofun, rfl⟩⟩

theorem derefSequence_eq_error (h : derefSequence t scope s = .error f) :
    resolveSettled t scope s = .error f ∨ ∃ first s₀, resolveSettled t scope s = .ok (first, s₀) ∧
      derefFrom scope.config.autoderefLimit [] first scope s₀ = .error f := by
  rcases bind_eq_error h with herror | ⟨first, s₀, hsettled, hrest⟩
  · exact .inl herror
  rcases bind_eq_error hrest with ⟨⟨⟩⟩ | ⟨_, _, ⟨⟩, hrest⟩
  rcases bind_eq_error hrest with hfrom | ⟨seq, s₁, -, hlast⟩
  · exact .inr ⟨first, s₀, hsettled, hfrom⟩
  · generalize seq.getLast? = last at hlast
    rcases last with _ | last
    · cases hlast
    · cases last <;> cases hlast

/-- A dereference sequence is a run of at most as many dereferences as the limit allows, through
different types and with no raw pointer before the last, and after an array its slice. It is broken
off only at the limit or at a type that it contains. Where all that is in play is in range, the
sequence is there unless a normalization or an obligation made one of these dereferences fail. -/
theorem derefSequence_bounded (scope : Scope) (s : State) (t : Ty) :
    (∀ out s', derefSequence t scope s = .ok (out, s') → ∃ first s₀ n seq next,
      resolveSettled t scope s = .ok (first, s₀) ∧ DerefRun scope n s₀ first seq next s' ∧
      n ≤ scope.config.autoderefLimit ∧ seq.length ≤ scope.config.autoderefLimit ∧
      out.length ≤ scope.config.autoderefLimit + 1 ∧
      Distinct seq ∧
      (∀ u ∈ seq.dropLast, ∀ pointee m, u ≠ .ptr pointee m) ∧
      (∀ u, next = some u →
        seq.length = scope.config.autoderefLimit ∨ ∃ w ∈ seq, w.same u = true) ∧
      Sliced seq out) ∧
    (scope.IsClosed → s.InRange → Within s.vars.Has t → ∀ f, derefSequence t scope s = .error f →
      settlePending scope s = .error f ∨ ∃ first s₀ n seq u s₁,
        resolveSettled t scope s = .ok (first, s₀) ∧ DerefRun scope n s₀ first seq (some u) s₁ ∧
        n < scope.config.autoderefLimit ∧
        ((∃ trait, scope.known.deref = some trait ∧
          normalize? ⟨⟨u, trait, []⟩, "Target"⟩ 0 scope s₁ = .error f) ∨
        ∃ target s₂, deref u scope s₁ = .ok (some target, s₂) ∧
          settlePending scope s₂ = .error f)) := by
  constructor
  · intro out s' h
    obtain ⟨first, s₀, seq, hsettled, hfrom, hslice⟩ := derefSequence_eq_ok h
    obtain ⟨n, us, next, hus, hrun, hlength, hdistinct, hend⟩ := derefRun_of_derefFrom hfrom
    obtain rfl : us = seq := hus.symm
    exact ⟨first, s₀, n, us, next, hsettled, hrun, hrun.steps_le.trans hlength, hlength,
      hslice.length_le.trans (Nat.succ_le_succ hlength), hdistinct .nil, hrun.ne_pointer, hend, hslice⟩
  · intro hscope hs ht f h
    rcases derefSequence_eq_error h with herror | ⟨first, s₀, hsettled, hfrom⟩
    · exact Or.inl (resolveSettled_eq_error hscope hs ht herror)
    obtain ⟨n, us, u, s₁, hrun, hn, hfails⟩ := derefRun_of_derefFrom_eq_error hfrom
    have hstays := Contained.of_orderly (fun _ => .resolveSettled ht) hscope hs le_rfl
    obtain ⟨hs₁, hu⟩ := hrun.inRange hscope (hstays.throughout.after hsettled)
      (hstays.ok _ _ hsettled).2
    refine Or.inr ⟨first, s₀, n, us, u, s₁, hsettled, hrun, hn, hfails.imp deref_eq_error ?_⟩
    rintro ⟨target, s₂, hderef, herror⟩
    have hderefs := Contained.of_orderly (fun _ => .deref (hu u rfl)) hscope hs₁ le_rfl
    exact ⟨target, s₂, hderef, resolveSettled_eq_error hscope (hderefs.throughout.after hderef)
      (within_some.1 (hderefs.ok _ _ hderef).2) herror⟩

end Infer

/-- One dereference is allowed, and no projection can be normalized. -/
def Scope.shallow : Scope where
  items := .empty
  known := { deref := some ⟨0⟩ }
  config := { autoderefLimit := 1 }
  owner := .arrayLen 0
  body := ⟨#[], #[], [], ⟨0⟩⟩
  names := ⟨∅, ∅, ∅, none⟩
  env := .empty
  fuel := { nesting := 0 }

theorem Scope.isClosed_shallow : Scope.shallow.IsClosed where
  items := by
    have hnone {α : Type} [Mentioning α] : TypeInference.Within (fun _ => False) (#[] : Array α) :=
      within_array.2 (by simp)
    exact Within.closed (within_items.2 ⟨hnone, hnone, hnone, hnone, hnone⟩)
  env := Within.closed (within_nil (α := WherePredicate))
  names := Within.closed (within_names.2 ⟨within_nil, within_nil, within_nil⟩)
  body := Within.closed (within_array.2 (by simp [shallow]))

/-- A reference is broken off at the limit. What is dereferenced through the trait fails. -/
theorem Infer.derefSequence_bounded_shallow :
    (∃ n s₀ u s', derefSequence (.reference .bool .shared) .shallow {} =
        .ok ([.reference .bool .shared], s') ∧
      DerefRun .shallow n s₀ (.reference .bool .shared) [.reference .bool .shared] (some u) s') ∧
    derefSequence .bool .shallow {} = .error .exhausted ∧
    ∃ trait s₁, Scope.shallow.known.deref = some trait ∧
      normalize? ⟨⟨.bool, trait, []⟩, "Target"⟩ 0 .shallow s₁ = .error .exhausted := by
  refine ⟨?_, rfl, ?_⟩
  · obtain ⟨s', hok⟩ : ∃ s', derefSequence (.reference .bool .shared) .shallow {} =
        .ok ([.reference .bool .shared], s') := ⟨_, rfl⟩
    obtain ⟨first, s₀, n, seq, next, hfirst, hrun, -, -, -, -, -, -, hsliced⟩ :=
      (derefSequence_bounded .shallow {} _).1 _ s' hok
    cases hfirst
    obtain rfl : seq = [.reference .bool .shared] := by
      rcases hsliced with ⟨_, _, _, hout⟩ | ⟨-, hout⟩
      · cases seq with
        | nil => cases hout
        | cons first rest => cases rest <;> cases hout
      · exact hout.symm
    cases hrun with
    | final _ hlast => cases hlast
    | step hptr hderef hsettled hrest =>
      cases hrest
      exact ⟨_, _, _, s', hok, .step hptr hderef hsettled (.brokenOff ..)⟩
  · obtain ⟨⟨⟩⟩ | ⟨first, s₀, n, seq, u, s₁, hfirst, hrun, hn, hfails⟩ :=
      (derefSequence_bounded .shallow {} .bool).2 Scope.isClosed_shallow .start nofun .exhausted rfl
    cases hfirst
    obtain rfl : n = 0 := Nat.lt_one_iff.1 hn
    cases hrun
    rcases hfails with ⟨trait, hknown, hnormalize⟩ | ⟨_, _, ⟨⟩, _⟩
    exact ⟨trait, _, hknown, hnormalize⟩

end TypeInference
