import Mathlib.Data.Finset.Card
import Mathlib.Data.Finset.Range
import Mathlib.Logic.Relation

/-!
# Acyclic relations and trails

Several recursions follow references between numbered things: from a variable to its parent, from
a class of variables to the classes its value mentions. Where the references are acyclic no way
along them visits a number twice, so the number of things bounds the length of every way.

A *trail* records how far a bounded recursion has come: the numbers it has passed are distinct, all
of them lead to where it is now, and together with the steps it has left they are as many as there
are things.
-/

namespace TypeInference

open Relation

/-- No way leads from a number back to itself. -/
def Acyclic (r : Nat → Nat → Prop) : Prop := ∀ a, ¬ TransGen r a a

namespace Acyclic

variable {r r' : Nat → Nat → Prop}

/-- Redirecting references to numbers that refer to nothing makes no cycle. -/
theorem redirect (h : Acyclic r) (hedge : ∀ a b, r' a b → r a b ∨ ∀ c, ¬ r' b c) :
    Acyclic r' := by
  -- Every number on a way that goes on refers to something, so such a way was there before.
  have hway : ∀ a b, TransGen r' a b → (∃ c, r' b c) → TransGen r a b := by
    intro a b hab
    induction hab with
    | single hab =>
      rintro ⟨c, hc⟩
      exact (hedge _ _ hab).elim .single fun hnone => absurd hc (hnone c)
    | tail _ hbc ih =>
      rintro ⟨d, hd⟩
      refine (hedge _ _ hbc).elim (fun hold => ?_) fun hnone => absurd hd (hnone d)
      exact (ih ⟨_, hbc⟩).tail hold
  intro a ha
  obtain ⟨b, hb, -⟩ := TransGen.head'_iff.1 ha
  exact h a (hway a a ha ⟨b, hb⟩)

/-- New references out of one number make no cycle if none of the things they lead to leads back
to it. -/
theorem extend (h : Acyclic r) {v : Nat}
    (hedge : ∀ a b, r' a b → r a b ∨ a = v ∧ ¬ ReflTransGen r b v) : Acyclic r' := by
  -- What does not lead to `v` is left by old references only, and these stay away from `v`.
  have hclosed : ∀ {a b}, ¬ ReflTransGen r a v → r' a b → r a b ∧ ¬ ReflTransGen r b v := by
    intro a b ha hab
    rcases hedge a b hab with hold | ⟨rfl, -⟩
    · exact ⟨hold, fun hb => ha (hb.head hold)⟩
    · exact absurd .refl ha
  have haway : ∀ {a b}, ¬ ReflTransGen r a v → TransGen r' a b →
      TransGen r a b ∧ ¬ ReflTransGen r b v := by
    intro a b ha hab
    induction hab with
    | single hab =>
      obtain ⟨hold, hb⟩ := hclosed ha hab
      exact ⟨.single hold, hb⟩
    | tail _ hbc ih =>
      obtain ⟨hold, hc⟩ := hclosed ih.2 hbc
      exact ⟨ih.1.tail hold, hc⟩
  have hway : ∀ {a b}, TransGen r' a b → TransGen r a b ∨ ¬ ReflTransGen r b v := by
    intro a b hab
    induction hab with
    | single hab => exact (hedge _ _ hab).imp .single And.right
    | tail _ hbc ih =>
      rcases ih with hold | hb
      · exact (hedge _ _ hbc).imp hold.tail And.right
      · exact .inr (hclosed hb hbc).2
  intro a ha
  rcases hway ha with hold | haw
  · exact h a hold
  · exact h a (haway haw ha).1

end Acyclic

/-- A recursion that follows `r` among `size` things has come to `v` and has `n` steps left. -/
def Trail (r : Nat → Nat → Prop) (size n v : Nat) : Prop :=
  ∃ passed : Finset Nat, (∀ u ∈ passed, u < size ∧ TransGen r u v) ∧ size ≤ n + passed.card

namespace Trail

variable {r r' : Nat → Nat → Prop} {size n v w : Nat}

theorem start (h : size ≤ n) : Trail r size n v :=
  ⟨∅, by simp, by simpa using h⟩

theorem exists_insert (hr : Acyclic r) (hv : v < size) (h : Trail r size n v) :
    ∃ passed : Finset Nat, (∀ u ∈ passed, u < size ∧ (u = v ∨ TransGen r u v)) ∧
      size + 1 ≤ n + passed.card := by
  obtain ⟨passed, hpassed, hcard⟩ := h
  have hnew : v ∉ passed := fun hmem => hr v (hpassed v hmem).2
  refine ⟨insert v passed, ?_, ?_⟩
  · intro u hu
    rcases Finset.mem_insert.1 hu with rfl | hu
    · exact ⟨hv, Or.inl rfl⟩
    · exact ⟨(hpassed u hu).1, Or.inr (hpassed u hu).2⟩
  · rw [Finset.card_insert_of_notMem hnew]
    omega

theorem pos (hr : Acyclic r) (hv : v < size) (h : Trail r size n v) : 0 < n := by
  obtain ⟨passed, hpassed, hcard⟩ := exists_insert hr hv h
  have hsub : passed ⊆ Finset.range size := fun u hu => Finset.mem_range.2 (hpassed u hu).1
  have hle := Finset.card_le_card hsub
  rw [Finset.card_range] at hle
  omega

/-- As long as there is something at the end of a trail there is a step left, and going on uses it
up. -/
theorem exists_succ (hr : Acyclic r) (hv : v < size) (h : Trail r size n v) :
    ∃ m, n = m + 1 ∧ ∀ w, TransGen r v w → Trail r size m w := by
  obtain ⟨m, rfl⟩ := Nat.exists_eq_succ_of_ne_zero (pos hr hv h).ne'
  refine ⟨m, rfl, ?_⟩
  intro w hvw
  obtain ⟨passed, hpassed, hcard⟩ := exists_insert hr hv h
  refine ⟨passed, ?_, by omega⟩
  intro u hu
  rcases hpassed u hu with ⟨hlt, rfl | huv⟩
  · exact ⟨hlt, hvw⟩
  · exact ⟨hlt, huv.trans hvw⟩

theorem mono (hway : ∀ u, TransGen r u v → TransGen r' u w) (h : Trail r size n v) :
    Trail r' size n w := by
  obtain ⟨passed, hpassed, hcard⟩ := h
  exact ⟨passed, fun u hu => ⟨(hpassed u hu).1, hway u (hpassed u hu).2⟩, hcard⟩

end Trail

end TypeInference
