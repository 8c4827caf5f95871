import TypeInference.Decl.Basic
import TypeInference.Proofs.Substitutions

/-!
# Projections inside types

A traversal hands every node of a type to a function once its components have been replaced. What
is a projection then was one before, of the same trait. So of the traits whose projections a type
mentions, no others are ever asked for while it is traversed (`Ty.mapM_closed`), and a substitution
of types without projections adds none.
-/

namespace TypeInference

namespace Ty

variable {t c : Ty} {tr : TraitId}

/-- The trait of a projection. -/
def projectionTrait? : Ty → Option TraitId
  | .projection _ trait _ _ => some trait
  | _ => none

/-- The traits of the projections inside a type. -/
def projectionTraits (t : Ty) : List TraitId :=
  t.subterms.filterMap projectionTrait?

theorem mem_projectionTraits_iff :
    tr ∈ t.projectionTraits ↔
      t.projectionTrait? = some tr ∨ ∃ c ∈ t.components, tr ∈ c.projectionTraits := by
  simp only [projectionTraits, List.mem_filterMap]
  rw [subterms_eq]
  simp only [List.mem_cons, List.mem_flatMap, exists_eq_or_imp]
  constructor
  · rintro (h | ⟨u, ⟨c, hc, hu⟩, h⟩)
    · exact .inl h
    · exact .inr ⟨c, hc, u, hu, h⟩
  · rintro (h | ⟨c, hc, u, hu, h⟩)
    · exact .inl h
    · exact .inr ⟨u, ⟨c, hc, hu⟩, h⟩

/-- Other components leave it a projection of the same trait, or none. -/
theorem projectionTrait?_rebuild (t : Ty) (ts : List Ty) :
    (t.rebuild ts).projectionTrait? = t.projectionTrait? := by cases t <;> rfl

theorem projectionTraits_of_component (hc : c ∈ t.components) (h : tr ∈ c.projectionTraits) :
    tr ∈ t.projectionTraits :=
  mem_projectionTraits_iff.2 (Or.inr ⟨c, hc, h⟩)

end Ty

/-! ## Traversals -/

section

variable {m : Type → Type} [Monad m] [LawfulMonad m] {P : ∀ {α : Type}, m α → Prop}

theorem Ty.mapM_closed (hP : Sequential m P) {f : Ty → m Ty} {t : Ty}
    (h : ∀ r, (∀ tr, r.projectionTrait? = some tr → tr ∈ t.projectionTraits) → P (f r)) :
    P (t.mapM f) := by
  induction t using Ty.componentInduction with
  | node t ih =>
    rw [mapM_eq, mapComponentsM_eq, bind_map_left]
    refine hP.bind (TypeInference.mapM_closed hP fun c hc => ?_) fun ts => ?_
    · exact ih c hc fun r hr => h r fun tr htr => projectionTraits_of_component hc (hr tr htr)
    · refine h _ fun tr htr => mem_projectionTraits_iff.2 (.inl ?_)
      exact (projectionTrait?_rebuild t ts).symm.trans htr

end

/-! ## Substitutions -/

namespace Subst

variable {s : Subst} {t : Ty} {tr : TraitId}

/-- The types of the substitution contain no projections. -/
def Plain (s : Subst) : Prop := ∀ p, (s.lookup p).projectionTraits = []

theorem mem_projectionTraits_apply (h : tr ∈ (s.apply t).projectionTraits) :
    tr ∈ t.projectionTraits ∨ ∃ p, .param p ∈ t.subterms ∧ tr ∈ (s.lookup p).projectionTraits := by
  induction t using Ty.paramInduction with
  | param p => exact .inr ⟨p, Ty.mem_subterms_self _, h⟩
  | node t ht ih =>
    have htrait : (t.mapComponents s.apply).projectionTrait? = t.projectionTrait? := by
      cases t <;> rfl
    rw [apply_node ht, Ty.mem_projectionTraits_iff, htrait, Ty.components_mapComponents] at h
    rcases h with h | ⟨c', hc', h⟩
    · exact .inl (Ty.mem_projectionTraits_iff.2 (Or.inl h))
    · obtain ⟨c, hc, rfl⟩ := List.mem_map.1 hc'
      rcases ih c hc h with h | ⟨p, hp, h⟩
      · exact .inl (Ty.projectionTraits_of_component hc h)
      · exact .inr ⟨p, Ty.mem_subterms_of_component hc hp, h⟩

theorem Plain.mem_projectionTraits (hs : s.Plain) (h : tr ∈ (s.apply t).projectionTraits) :
    tr ∈ t.projectionTraits := by
  rcases mem_projectionTraits_apply h with h | ⟨p, -, h⟩
  · exact h
  · rw [hs p] at h
    cases h

end Subst

end TypeInference
