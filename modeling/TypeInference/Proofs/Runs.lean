/-!
# Runs of computations that can fail

Inversion rules: what is known of the parts of a computation once the whole has given a result, or
has failed.
-/

namespace TypeInference

variable {α β γ ε σ : Type} {b : β}

theorem of_ite {P : α → Prop} {c : Prop} [Decidable c] {x y : α} (hx : P x) (hy : P y) :
    P (if c then x else y) := by
  split
  · exact hx
  · exact hy

namespace Except

variable {xs : List α} {P : α → Prop} {x : Except ε α} {f : α → Except ε Bool}

theorem ok_bind (a : α) (f : α → Except ε β) : (Except.ok a >>= f) = f a := rfl

theorem bind_eq_ok {f : α → Except ε β} (h : (x >>= f) = .ok b) : ∃ a, x = .ok a ∧ f a = .ok b := by
  cases x with
  | error e => cases h
  | ok a => exact ⟨a, rfl, h⟩

theorem bind_pure_eq_map (x : Except ε α) (f : α → β) : (do return f (← x)) = x.map f := by
  cases x <;> rfl

theorem map_eq_ok {f : α → β} (h : x.map f = .ok b) : ∃ a, x = .ok a ∧ f a = b := by
  cases x with
  | error e => cases h
  | ok a => exact ⟨a, rfl, Except.ok.inj h⟩

theorem exists_ok_of_toOption {f : α → β} (h : x.toOption.map f = some b) :
    ∃ a, x = .ok a ∧ f a = b := by
  cases x with
  | error e => cases h
  | ok a => exact ⟨a, rfl, Option.some.inj h⟩

/-- A run of which `f` was computed has ended well. -/
theorem exists_ok_of_fst {r : Except ε α × σ} {f : α → β} (h : r.1.toOption.map f = some b) :
    ∃ a s, r = (.ok a, s) ∧ f a = b := by
  obtain ⟨a, ha, hb⟩ := exists_ok_of_toOption h
  exact ⟨a, r.2, Prod.ext ha rfl, hb⟩

theorem exists_ok_of_mapM_eq_ok {f : α → Except ε β} {ys : List β} (h : xs.mapM f = .ok ys) :
    ∀ x ∈ xs, ∃ y, f x = .ok y := by
  induction xs generalizing ys with
  | nil => simp
  | cons x xs ih =>
    rw [List.mapM_cons] at h
    obtain ⟨y, hy, h⟩ := bind_eq_ok h
    obtain ⟨zs, hzs, h⟩ := bind_eq_ok h
    intro z hz
    rcases List.mem_cons.1 hz with rfl | hz
    · exact ⟨y, hy⟩
    · exact ih hzs z hz

/-- A search finds out whether something is in a list. -/
theorem exists_anyM_eq_ok (h : ∀ x ∈ xs, ∃ b, f x = .ok b ∧ (b = true ↔ P x)) :
    ∃ b, xs.anyM f = .ok b ∧ (b = true ↔ ∃ x ∈ xs, P x) := by
  induction xs with
  | nil => exact ⟨false, rfl, by simp⟩
  | cons x xs ih =>
    obtain ⟨b, hb, hiff⟩ := h x (.head _)
    obtain ⟨c, hc, hrest⟩ := ih fun y hy => h y (.tail _ hy)
    simp only [List.anyM, hb, List.mem_cons, exists_eq_or_imp, ← hiff, ← hrest]
    cases b with
    | true => exact ⟨true, rfl, by simp⟩
    | false => exact ⟨c, hc, by simp⟩

/-- A search that finds nothing has looked everywhere. -/
theorem eq_ok_false_of_anyM (h : xs.anyM f = .ok false) : ∀ x ∈ xs, f x = .ok false := by
  induction xs with
  | nil => simp
  | cons x xs ih =>
    rw [List.anyM] at h
    obtain ⟨b, hb, h⟩ := bind_eq_ok h
    cases b with
    | true => cases h
    | false =>
      intro y hy
      rcases List.mem_cons.1 hy with rfl | hy
      · exact hb
      · exact ih h y hy

/-- What each step keeps is kept in the end. -/
theorem foldlM_keeps {f : β → α → Except ε β} {P : β → Prop} {b' : β}
    (hstep : ∀ a ∈ xs, ∀ b b', P b → f b a = .ok b' → P b') (h : xs.foldlM f b = .ok b') (hb : P b) :
    P b' := by
  induction xs generalizing b with
  | nil =>
    cases h
    exact hb
  | cons a xs ih =>
    rw [List.foldlM_cons] at h
    obtain ⟨b₁, hfirst, hrest⟩ := bind_eq_ok h
    have hb₁ := hstep a (.head _) b b₁ hb hfirst
    exact ih (fun a ha => hstep a (.tail _ ha)) hrest hb₁

/-- Two computations fail alike or give related results. -/
inductive Matched (R : α → β → Prop) : Except ε α → Except ε β → Prop
  | ok {a : α} {b : β} : R a b → Matched R (.ok a) (.ok b)
  | error (e : ε) : Matched R (.error e) (.error e)

namespace Matched

variable {R : α → β → Prop} {δ : Type} {S : γ → δ → Prop} {x : Except ε α} {y : Except ε β}
  {f : α → Except ε γ}

theorem bind {g : β → Except ε δ} (h : Matched R x y)
    (hnext : ∀ a b, R a b → Matched S (f a) (g b)) : Matched S (x >>= f) (y >>= g) := by
  cases h with
  | ok hab => exact hnext _ _ hab
  | error e => exact .error e

theorem bind_left {g : α → Except ε δ} (hnext : ∀ a, Matched S (f a) (g a)) :
    Matched S (x >>= f) (x >>= g) := by
  cases x with
  | ok a => exact hnext a
  | error e => exact .error e

theorem mono {S : α → β → Prop} (h : Matched R x y) (hRS : ∀ a b, R a b → S a b) :
    Matched S x y := by
  cases h with
  | ok hab => exact .ok (hRS _ _ hab)
  | error e => exact .error e

theorem and_left (h : Matched R x y) (hP : ∀ a, x = .ok a → P a) :
    Matched (fun a b => P a ∧ R a b) x y := by
  cases h with
  | ok hab => exact .ok ⟨hP _ rfl, hab⟩
  | error e => exact .error e

end Matched

end Except

namespace StateT

theorem bind_run (x : StateT σ (Except ε) α) (f : α → StateT σ (Except ε) β) (s : σ) :
    (x >>= f) s = x s >>= fun p => f p.1 p.2 := rfl

theorem pure_run (a : α) (s : σ) : (pure a : StateT σ (Except ε) α) s = .ok (a, s) := rfl

theorem get_run (s : σ) : (get : StateT σ (Except ε) σ) s = .ok (s, s) := rfl

theorem set_run (s s' : σ) : (set s' : StateT σ (Except ε) PUnit) s = .ok (PUnit.unit, s') := rfl

theorem lift_run (x : Except ε α) (s : σ) :
    (liftM x : StateT σ (Except ε) α) s = x >>= fun a => .ok (a, s) := rfl

theorem bind_eq_ok {x : StateT σ (Except ε) α} {f : α → StateT σ (Except ε) β} {s t : σ}
    (h : (x >>= f) s = .ok (b, t)) : ∃ a s', x s = .ok (a, s') ∧ f a s' = .ok (b, t) := by
  obtain ⟨⟨a, s'⟩, hx, hf⟩ := Except.bind_eq_ok h
  exact ⟨a, s', hx, hf⟩

end StateT

end TypeInference
