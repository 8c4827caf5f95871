import TypeInference.Vars.Table
import TypeInference.Proofs.Runs
import TypeInference.Proofs.Trails

/-!
# Classes of variables

In a table that is a *forest*, following parents from any variable ends at a root. Everything else
speaks of tables through the three functions that are observed: the number of variables, the root of
a variable and what is stored at a root. This module says what each change does to them. Looking up
a root compresses paths and is not observed at all.
-/

namespace TypeInference.Table

variable {α : Type} {t t' t'' : Table α} {v w r a b r' ra rb : Nat} {winner loser n : Nat}
  {c : Cell α} {x : Option α}

/-! ## Cells -/

theorem size_update (v : Nat) (f : Cell α → Cell α) : (t.update v f).size = t.size := by
  unfold update
  split
  · simp only [size, Journal.write, Array.size_modify]
  · rfl

theorem cell?_update (v w : Nat) (f : Cell α → Cell α) :
    (t.update v f).cell? w = if v = w then (t.cell? w).map f else t.cell? w := by
  unfold update
  split
  · next old _ => simp only [cell?, Journal.write, Array.getElem?_modify]
  · next hnone =>
    split
    · next heq => rw [← heq, hnone, Option.map_none]
    · rfl

theorem size_fresh : t.fresh.size = t.size + 1 := by
  simp only [fresh, size, Journal.write, Array.size_push]

theorem size_lt_fresh (t : Table α) : t.size < t.fresh.size := by
  rw [size_fresh]
  exact Nat.lt_succ_self _

theorem cell?_fresh (v : Nat) :
    t.fresh.cell? v = if v = t.size then some ⟨t.size, none⟩ else t.cell? v := by
  simp only [fresh, cell?, size, Journal.write, Array.getElem?_push]
  rfl

theorem cell?_eq_none_iff : t.cell? v = none ↔ t.size ≤ v :=
  Array.getElem?_eq_none_iff

theorem lt_size_of_cell? (h : t.cell? v = some c) : v < t.size := by
  by_contra hge
  rw [cell?_eq_none_iff.2 (Nat.le_of_not_lt hge)] at h
  cases h

theorem stored?_eq_of_cell? (h : t'.cell? v = t.cell? v) : t'.stored? v = t.stored? v := by
  rw [stored?, stored?, h]

/-! ## Ways to a root -/

/-- Following parents from a variable leads to a root. -/
inductive Leads (t : Table α) : Nat → Nat → Prop
  | root {v : Nat} {c : Cell α} : t.cell? v = some c → c.parent = v → Leads t v v
  | step {v r : Nat} {c : Cell α} :
    t.cell? v = some c → c.parent ≠ v → Leads t c.parent r → Leads t v r

/-- Every variable has a root. -/
def Forest (t : Table α) : Prop := ∀ v < t.size, ∃ r, t.Leads v r

namespace Leads

theorem lt_size (h : t.Leads v r) : v < t.size := by
  cases h with
  | root hcell _ | step hcell _ _ => exact lt_size_of_cell? hcell

/-- A variable has one root. -/
theorem unique (h : t.Leads v r) (h' : t.Leads v r') : r = r' := by
  -- Both ways start at the same cell, so they both end there or both go on to the same parent.
  induction h with
  | root hcell hroot =>
    cases h' with
    | root _ _ => rfl
    | step hcell' hne _ =>
      rw [hcell] at hcell'
      cases hcell'
      exact absurd hroot hne
  | step hcell hne _ ih =>
    cases h' with
    | root hcell' hroot =>
      rw [hcell] at hcell'
      cases hcell'
      exact absurd hroot hne
    | step hcell' _ hnext =>
      rw [hcell] at hcell'
      cases hcell'
      exact ih hnext

theorem root_cell (h : t.Leads v r) : ∃ c, t.cell? r = some c ∧ c.parent = r := by
  induction h with
  | root hcell hroot => exact ⟨_, hcell, hroot⟩
  | step _ _ _ ih => exact ih

theorem root_self (h : t.Leads v r) : t.Leads r r := by
  obtain ⟨c, hcell, hroot⟩ := h.root_cell
  exact .root hcell hroot

end Leads

/-- The parent of a variable that is not a root. -/
def Parent (t : Table α) (v p : Nat) : Prop :=
  ∃ c, t.cell? v = some c ∧ c.parent ≠ v ∧ c.parent = p

/-- The parents of a forest make no cycle. -/
theorem Forest.acyclic (h : t.Forest) : Acyclic t.Parent := by
  have hway : ∀ {v r}, t.Leads v r → ¬ Relation.TransGen t.Parent v v := by
    intro v r hv
    induction hv with
    | root hcell hroot =>
      intro hcycle
      obtain ⟨p, ⟨c, hcell', hne, -⟩, -⟩ := Relation.TransGen.head'_iff.1 hcycle
      rw [hcell] at hcell'
      cases hcell'
      exact hne hroot
    | step hcell hne _ ih =>
      -- A cycle through a variable is one through its parent.
      intro hcycle
      obtain ⟨p, ⟨c, hcell', hne', rfl⟩, hback⟩ := Relation.TransGen.head'_iff.1 hcycle
      rw [hcell] at hcell'
      cases hcell'
      exact ih (Relation.TransGen.tail' hback ⟨_, hcell, hne, rfl⟩)
  intro v hcycle
  obtain ⟨p, ⟨c, hcell, -⟩, -⟩ := Relation.TransGen.head'_iff.1 hcycle
  obtain ⟨r, hr⟩ := h v (lt_size_of_cell? hcell)
  exact hway hr hcycle

/-! ## Roots -/

theorem leads_of_rootWithin (h : t.rootWithin n v = .ok r) : t.Leads v r := by
  induction n generalizing v with
  | zero => cases h
  | succ n ih =>
    unfold rootWithin at h
    split at h
    · cases h
    · next c hcell =>
      split at h
      · next hroot =>
        cases h
        exact .root hcell hroot
      · next hne => exact .step hcell hne (ih h)

theorem rootWithin_of_leads (hf : t.Forest) (h : t.Leads v r) (htrail : Trail t.Parent t.size n v) :
    t.rootWithin n v = .ok r := by
  -- Along the way the trail leaves a step for every variable that is still ahead.
  induction h generalizing n with
  | root hcell hroot =>
    obtain ⟨n, rfl, -⟩ := htrail.exists_succ hf.acyclic (lt_size_of_cell? hcell)
    rw [rootWithin, hcell]
    exact if_pos hroot
  | step hcell hne _ ih =>
    obtain ⟨n, rfl, hnext⟩ := htrail.exists_succ hf.acyclic (lt_size_of_cell? hcell)
    rw [rootWithin, hcell]
    simp only [if_neg hne]
    exact ih (hnext _ (.single ⟨_, hcell, hne, rfl⟩))

/-- The root of a variable is where its parents lead; the bound on their number is never in the
way. -/
theorem root_eq_ok_iff (hf : t.Forest) : t.root v = .ok r ↔ t.Leads v r :=
  ⟨leads_of_rootWithin, fun h => rootWithin_of_leads hf h (.start (Nat.le_succ _))⟩

theorem root_of_size_le (h : t.size ≤ v) : t.root v = .error (.dangling .variable v) := by
  rw [root, rootWithin, cell?_eq_none_iff.2 h]

theorem lt_size_of_root (h : t.root v = .ok r) : v < t.size :=
  (leads_of_rootWithin h).lt_size

theorem root_lt_size (h : t.root v = .ok r) : r < t.size :=
  (leads_of_rootWithin h).root_self.lt_size

theorem exists_root (hf : t.Forest) (h : v < t.size) : ∃ r, t.root v = .ok r := by
  obtain ⟨r, hr⟩ := hf v h
  exact ⟨r, (root_eq_ok_iff hf).2 hr⟩

/-- A root is its own root. -/
theorem root_root (h : t.root v = .ok r) : t.root r = .ok r := by
  obtain ⟨c, hcell, hroot⟩ := (leads_of_rootWithin h).root_cell
  rw [root, rootWithin, hcell]
  exact if_pos hroot

theorem value_eq (h : t.root v = .ok r) : t.value v = .ok (t.stored? r) := by
  rw [value, h]
  rfl

theorem value_eq_ok_iff : t.value v = .ok x ↔ ∃ r, t.root v = .ok r ∧ t.stored? r = x := by
  constructor
  · intro h
    obtain ⟨r, hr, hx⟩ := Except.bind_eq_ok h
    exact ⟨r, hr, Except.ok.inj hx⟩
  · rintro ⟨r, hr, rfl⟩
    exact value_eq hr

/-- Where ways lead from their old root to a new one, so does looking up the root. -/
theorem root_eq_map (hf : t.Forest) (hsize : t'.size = t.size) {f : Nat → Nat}
    (h : ∀ v r, t.Leads v r → t'.Leads v (f r)) :
    t'.Forest ∧ ∀ v, t'.root v = (t.root v).map f := by
  have hf' : t'.Forest := by
    intro v hv
    obtain ⟨r, hr⟩ := hf v (hsize ▸ hv)
    exact ⟨f r, h v r hr⟩
  refine ⟨hf', ?_⟩
  intro v
  by_cases hv : v < t.size
  · obtain ⟨r, hr⟩ := exists_root hf hv
    rw [hr, (root_eq_ok_iff hf').2 (h v r ((root_eq_ok_iff hf).1 hr))]
    rfl
  · -- outside of both tables the same variable is reported
    have hge := Nat.le_of_not_lt hv
    rw [root_of_size_le hge, root_of_size_le (hsize ▸ hge)]
    rfl

/-! ## New variables -/

theorem forest_empty : (∅ : Table α).Forest :=
  fun _ h => absurd h (Nat.not_lt_zero _)

theorem leads_fresh (h : t.Leads v r) : t.fresh.Leads v r := by
  induction h with
  | root hcell hroot =>
    refine .root ?_ hroot
    rw [cell?_fresh, if_neg (lt_size_of_cell? hcell).ne, hcell]
  | step hcell hne _ ih =>
    refine .step ?_ hne ih
    rw [cell?_fresh, if_neg (lt_size_of_cell? hcell).ne, hcell]

theorem leads_fresh_size : t.fresh.Leads t.size t.size :=
  .root (by rw [cell?_fresh, if_pos rfl]) rfl

theorem forest_fresh (hf : t.Forest) : t.fresh.Forest := by
  intro v hv
  rw [size_fresh] at hv
  rcases Nat.lt_succ_iff_lt_or_eq.1 hv with hlt | rfl
  · obtain ⟨r, hr⟩ := hf v hlt
    exact ⟨r, leads_fresh hr⟩
  · exact ⟨t.size, leads_fresh_size⟩

/-- A new variable is its own root. -/
theorem root_fresh (hf : t.Forest) (v : Nat) :
    t.fresh.root v = if v = t.size then .ok t.size else t.root v := by
  have hf' := forest_fresh hf
  split
  · next heq =>
    subst heq
    exact (root_eq_ok_iff hf').2 leads_fresh_size
  · next hne =>
    by_cases hv : v < t.size
    · obtain ⟨r, hr⟩ := exists_root hf hv
      rw [hr]
      exact (root_eq_ok_iff hf').2 (leads_fresh ((root_eq_ok_iff hf).1 hr))
    · rw [root_of_size_le (Nat.le_of_not_lt hv), root_of_size_le]
      rw [size_fresh]
      omega

theorem stored?_fresh (v : Nat) : t.fresh.stored? v = t.stored? v := by
  rw [stored?, stored?, cell?_fresh]
  split
  · next heq =>
    rw [heq, cell?_eq_none_iff.2 (Nat.le_refl _)]
    rfl
  · rfl

/-! ## Path compression -/

/-- Table `t'` is `t` with shorter ways to the same roots. -/
structure Compressed (t t' : Table α) : Prop where
  size_eq : t'.size = t.size
  stored_eq : ∀ v, t'.stored? v = t.stored? v
  leads : ∀ v r, t.Leads v r → t'.Leads v r

namespace Compressed

theorem refl (t : Table α) : Compressed t t :=
  ⟨rfl, fun _ => rfl, fun _ _ h => h⟩

theorem trans (h : Compressed t t') (h' : Compressed t' t'') : Compressed t t'' where
  size_eq := h'.size_eq.trans h.size_eq
  stored_eq v := (h'.stored_eq v).trans (h.stored_eq v)
  leads v r hv := h'.leads v r (h.leads v r hv)

theorem forest (h : Compressed t t') (hf : t.Forest) : t'.Forest :=
  (root_eq_map hf h.size_eq h.leads).1

theorem root_eq (h : Compressed t t') (hf : t.Forest) (v : Nat) : t'.root v = t.root v := by
  rw [(root_eq_map hf h.size_eq h.leads).2 v]
  cases t.root v <;> rfl

theorem value_eq (h : Compressed t t') (hf : t.Forest) (v : Nat) : t'.value v = t.value v := by
  rw [value, value, h.root_eq hf]
  cases t.root v with
  | error e => rfl
  | ok r => exact congrArg Except.ok (h.stored_eq r)

end Compressed

theorem compressed_of_cells (h : t'.cells.current = t.cells.current) : Compressed t t' := by
  have hcell : ∀ v, t'.cell? v = t.cell? v := fun v => by rw [cell?, cell?, h]
  refine ⟨by rw [size, size, h], fun v => stored?_eq_of_cell? (hcell v), ?_⟩
  intro v r hv
  induction hv with
  | root hc hroot => exact .root ((hcell _).trans hc) hroot
  | step hc hne _ ih => exact .step ((hcell _).trans hc) hne ih

/-- Pointing a variable at its root changes no root. -/
theorem compressed_update (h : t.Leads v r) :
    Compressed t (t.update v ({ · with parent := r })) where
  size_eq := size_update v _
  stored_eq w := by
    rw [stored?, stored?, cell?_update]
    split
    · cases t.cell? w <;> rfl
    · rfl
  leads w x hw := by
    have hcell' {w : Nat} {c : Cell α} (hne : v ≠ w) (hcell : t.cell? w = some c) :
        (t.update v ({ · with parent := r })).cell? w = some c := by
      rw [cell?_update, if_neg hne, hcell]
    induction hw with
    | @root w c hcell hroot =>
      by_cases hvw : v = w
      · -- a root is its own root, so nothing changes for it
        subst hvw
        refine .root (c := { c with parent := r }) ?_ (h.unique (.root hcell hroot))
        rw [cell?_update, if_pos rfl, hcell, Option.map_some]
      · exact .root (hcell' hvw hcell) hroot
    | @step w x c hcell hne hnext ih =>
      by_cases hvw : v = w
      · -- the way from `v` now has one step, to a root that stays one
        subst hvw
        obtain rfl : r = x := h.unique (.step hcell hne hnext)
        obtain ⟨d, hcell_r, hroot_r⟩ := h.root_cell
        have hrv : v ≠ r := by
          rintro rfl
          rw [hcell] at hcell_r
          cases hcell_r
          exact hne hroot_r
        refine .step (c := { c with parent := r }) ?_ hrv.symm
          (.root (hcell' hrv hcell_r) hroot_r)
        rw [cell?_update, if_pos rfl, hcell, Option.map_some]
      · exact .step (hcell' hvw hcell) hne ih

theorem compressed_of_findWithin (h : findWithin n v t = .ok (r, t')) :
    t.Leads v r ∧ Compressed t t' := by
  induction n generalizing v r t' with
  | zero => cases h
  | succ n ih =>
    unfold findWithin at h
    split at h
    · cases h
    · next c hcell =>
      split at h
      · next hroot =>
        cases h
        exact ⟨.root hcell hroot, .refl t⟩
      · next hne =>
        obtain ⟨⟨r', t₁⟩, hfind, h⟩ := Except.bind_eq_ok h
        obtain ⟨hparent, hcomp⟩ := ih hfind
        have hv : t.Leads v r' := .step hcell hne hparent
        cases h
        refine ⟨hv, ?_⟩
        split
        · exact hcomp
        · exact hcomp.trans (compressed_update (hcomp.leads v _ hv))

theorem fst_findWithin (n v : Nat) : (findWithin n v t).map (·.1) = t.rootWithin n v := by
  induction n generalizing v with
  | zero => rfl
  | succ n ih =>
    unfold findWithin rootWithin
    split
    · rfl
    · split
      · rfl
      · rw [← ih]
        cases findWithin n _ t <;> rfl

/-- Looking up a root compresses the way to it. -/
theorem find_eq_ok (h : t.find v = .ok (r, t')) : t.root v = .ok r ∧ Compressed t t' := by
  refine ⟨?_, (compressed_of_findWithin h).2⟩
  rw [root, ← fst_findWithin, ← find, h]
  rfl

theorem exists_find (h : t.root v = .ok r) :
    ∃ t', t.find v = .ok (r, t') ∧ Compressed t t' := by
  rw [root, ← fst_findWithin, ← find] at h
  obtain ⟨p, hfind, rfl⟩ := Except.map_eq_ok h
  exact ⟨p.2, hfind, (find_eq_ok hfind).2⟩

/-! ## Merging -/

/-- Table `t'` is `t` with the class of the root `loser` merged into that of the root `winner`. -/
structure Merged (t : Table α) (winner loser : Nat) (t' : Table α) : Prop where
  forest : t'.Forest
  size_eq : t'.size = t.size
  root_eq : ∀ v, t'.root v = (t.root v).map fun r => if r = loser then winner else r
  stored_winner : t'.stored? winner = (t.stored? winner).or (t.stored? loser)
  stored_eq : ∀ v, v ≠ winner → t'.stored? v = t.stored? v

theorem stored?_update_value (h : t.cell? v = some c) (w : Nat) :
    (t.update v ({ · with value := x })).stored? w = if w = v then x else t.stored? w := by
  rw [stored?, cell?_update]
  by_cases hvw : v = w
  · subst hvw
    rw [if_pos rfl, if_pos rfl, h]
    rfl
  · rw [if_neg hvw, if_neg (Ne.symm hvw), stored?]

theorem leads_update_value (h : t.Leads w r) : (t.update v ({ · with value := x })).Leads w r := by
  have hcell' {w : Nat} {c : Cell α} (hcell : t.cell? w = some c) :
      ∃ c', (t.update v ({ · with value := x })).cell? w = some c' ∧ c'.parent = c.parent := by
    rw [cell?_update, hcell]
    split
    · exact ⟨_, rfl, rfl⟩
    · exact ⟨_, rfl, rfl⟩
  induction h with
  | root hcell hroot =>
    obtain ⟨c', hc', hparent⟩ := hcell' hcell
    exact .root hc' (hparent.trans hroot)
  | step hcell hne _ ih =>
    obtain ⟨c', hc', hparent⟩ := hcell' hcell
    rw [← hparent] at hne ih
    exact .step hc' hne ih

/-- Making a root the child of another one redirects the ways that led to it. -/
theorem leads_update_parent (hne : winner ≠ loser) (hwinner : t.Leads winner winner)
    (hloser : t.Leads loser loser) (h : t.Leads v r) :
    (t.update loser ({ · with parent := winner })).Leads v (if r = loser then winner else r) := by
  have hcell' {w : Nat} {c : Cell α} (hne : w ≠ loser) (hcell : t.cell? w = some c) :
      (t.update loser ({ · with parent := winner })).cell? w = some c := by
    rw [cell?_update, if_neg hne.symm, hcell]
  obtain ⟨d, hcell_w, hroot_w⟩ := hwinner.root_cell
  induction h with
  | @root v c hcell hroot =>
    by_cases hv : v = loser
    · -- what was a root now has one more step to go
      subst hv
      rw [if_pos rfl]
      refine .step (c := { c with parent := winner }) ?_ hne (.root (hcell' hne hcell_w) hroot_w)
      rw [cell?_update, if_pos rfl, hcell, Option.map_some]
    · rw [if_neg hv]
      exact .root (hcell' hv hcell) hroot
  | @step v r c hcell hnext _ ih =>
    -- A variable on the way is not `loser`, which had no parent other than itself.
    have hv : v ≠ loser := by
      rintro rfl
      obtain ⟨d, hcell_l, hroot_l⟩ := hloser.root_cell
      rw [hcell] at hcell_l
      cases hcell_l
      exact hnext hroot_l
    exact .step (hcell' hv hcell) hnext ih

/-- Linking two roots merges their classes. -/
theorem merged_link (hf : t.Forest) (hne : winner ≠ loser) (hwinner : t.root winner = .ok winner)
    (hloser : t.root loser = .ok loser) : Merged t winner loser (t.link winner loser) := by
  have hw := (root_eq_ok_iff hf).1 hwinner
  have hl := (root_eq_ok_iff hf).1 hloser
  obtain ⟨c, hcell, -⟩ := hw.root_cell
  -- The table after the first of the two writes.
  let u := t.update loser ({ · with parent := winner })
  have hu_leads : ∀ v r, t.Leads v r → u.Leads v (if r = loser then winner else r) :=
    fun _ _ => leads_update_parent hne hw hl
  have hu_stored : ∀ v, u.stored? v = t.stored? v := by
    intro v
    rw [stored?, stored?, cell?_update]
    split
    · cases t.cell? v <;> rfl
    · rfl
  have hu_cell : u.cell? winner = some c := by
    rw [cell?_update, if_neg hne.symm, hcell]
  by_cases hinherit : ((u.stored? winner).isNone && (t.stored? loser).isSome) = true
  · -- the value of `loser` goes to a class that has none
    have hlink : t.link winner loser = u.update winner ({ · with value := t.stored? loser }) :=
      if_pos hinherit
    rw [Bool.and_eq_true, Option.isNone_iff_eq_none, hu_stored] at hinherit
    have hsize : (t.link winner loser).size = t.size := by
      rw [hlink, size_update, size_update]
    obtain ⟨hforest, hroot⟩ := root_eq_map hf hsize fun v r hv => by
      rw [hlink]
      exact leads_update_value (hu_leads v r hv)
    refine ⟨hforest, hsize, hroot, ?_, ?_⟩
    · rw [hlink, stored?_update_value hu_cell, if_pos rfl, hinherit.1, Option.none_or]
    · intro v hv
      rw [hlink, stored?_update_value hu_cell, if_neg hv, hu_stored]
  · have hlink : t.link winner loser = u := if_neg hinherit
    have hsize : (t.link winner loser).size = t.size := by
      rw [hlink, size_update]
    obtain ⟨hforest, hroot⟩ := root_eq_map hf hsize fun v r hv => by
      rw [hlink]
      exact hu_leads v r hv
    refine ⟨hforest, hsize, hroot, ?_, ?_⟩
    · rw [hlink, hu_stored]
      rw [hu_stored] at hinherit
      cases hx : t.stored? winner <;> cases hy : t.stored? loser <;> simp_all
    · intro v _
      rw [hlink, hu_stored]

/-- Merging open classes changes no value. -/
theorem Merged.value_eq (h : Merged t winner loser t') (hwinner : t.stored? winner = none)
    (hloser : t.stored? loser = none) (v : Nat) : t'.value v = t.value v := by
  unfold value
  rw [h.root_eq]
  cases t.root v with
  | error e => rfl
  | ok r =>
    show Except.ok (t'.stored? (if r = loser then winner else r)) = .ok (t.stored? r)
    by_cases hl : r = loser
    · rw [if_pos hl, h.stored_winner, hwinner, hl, hloser]
      rfl
    · rw [if_neg hl]
      by_cases hw : r = winner
      · rw [hw, h.stored_winner, hwinner, hloser]
        rfl
      · rw [h.stored_eq r hw]

theorem merged_self (hf : t.Forest) (h : Compressed t t') : Merged t r r t' where
  forest := h.forest hf
  size_eq := h.size_eq
  root_eq v := by
    rw [h.root_eq hf]
    cases t.root v with
    | error e => rfl
    | ok x =>
      show Except.ok x = .ok (if x = r then r else x)
      split
      · next heq => rw [heq]
      · rfl
  stored_winner := by
    rw [h.stored_eq]
    cases t.stored? r <;> rfl
  stored_eq v _ := h.stored_eq v

theorem Merged.of_compressed (hf : t.Forest) (h : Compressed t t')
    (h' : Merged t' winner loser t'') : Merged t winner loser t'' where
  forest := h'.forest
  size_eq := h'.size_eq.trans h.size_eq
  root_eq v := by rw [h'.root_eq, h.root_eq hf]
  stored_winner := by rw [h'.stored_winner, h.stored_eq, h.stored_eq]
  stored_eq v hv := by rw [h'.stored_eq v hv, h.stored_eq]

/-- Variables that exist can be merged. -/
theorem exists_union (hf : t.Forest) (ha : t.root a = .ok ra) (hb : t.root b = .ok rb) :
    ∃ t', t.union a b = .ok t' ∧ Merged t ra rb t' := by
  obtain ⟨t₁, hfind_a, h₁⟩ := exists_find ha
  have hf₁ := h₁.forest hf
  obtain ⟨t₂, hfind_b, h₂⟩ := exists_find ((h₁.root_eq hf b).trans hb)
  have hf₂ := h₂.forest hf₁
  have hroot : ∀ v, t₂.root v = t.root v := fun v => (h₂.root_eq hf₁ v).trans (h₁.root_eq hf v)
  have hunion : t.union a b = .ok (if ra = rb then t₂ else t₂.link ra rb) := by
    rw [union, hfind_a]
    show (t₁.find b >>= _) = _
    rw [hfind_b]
    rfl
  -- The two lookups compressed paths, which changes neither roots nor values.
  refine ⟨_, hunion, ?_⟩
  split
  · next heq =>
    subst heq
    exact merged_self hf (h₁.trans h₂)
  · next hne =>
    refine Merged.of_compressed hf (h₁.trans h₂) (merged_link hf₂ hne ?_ ?_)
    · rw [hroot, root_root ha]
    · rw [hroot, root_root hb]

/-- Merging two variables merges the classes of their roots. -/
theorem union_eq_ok (hf : t.Forest) (h : t.union a b = .ok t') :
    ∃ ra rb, t.root a = .ok ra ∧ t.root b = .ok rb ∧ Merged t ra rb t' := by
  obtain ⟨⟨ra, t₁⟩, hfind_a, h'⟩ := Except.bind_eq_ok h
  obtain ⟨⟨rb, t₂⟩, hfind_b, -⟩ := Except.bind_eq_ok h'
  obtain ⟨ha, h₁⟩ := find_eq_ok hfind_a
  have hb := (find_eq_ok hfind_b).1
  rw [h₁.root_eq hf] at hb
  -- A run that gave a result is the one that `exists_union` describes.
  obtain ⟨t'', hunion, hmerged⟩ := exists_union hf ha hb
  rw [h] at hunion
  cases hunion
  exact ⟨ra, rb, ha, hb, hmerged⟩

/-! ## Binding -/

/-- Table `t'` is `t` with the value `x` for the class of the root `r`. -/
structure Bound [BEq α] (t : Table α) (r : Nat) (x : α) (t' : Table α) : Prop where
  forest : t'.Forest
  size_eq : t'.size = t.size
  root_eq : ∀ v, t'.root v = t.root v
  stored_root : t'.stored? r = if t.stored? r == some x then t.stored? r else some x
  stored_eq : ∀ v, v ≠ r → t'.stored? v = t.stored? v

section

variable [BEq α] {x : α}

theorem Bound.stored_of_unbound (h : Bound t r x t') (hr : t.stored? r = none) :
    t'.stored? r = some x := by
  rw [h.stored_root, hr]
  rfl

theorem Bound.value_self (h : Bound t r x t') (hr : t.stored? r = none) (hv : t.root v = .ok r) :
    t'.value v = .ok (some x) := by
  rw [Table.value_eq ((h.root_eq v).trans hv), h.stored_of_unbound hr]

theorem Bound.value_other (h : Bound t r x t') (hv : t.root v ≠ .ok r) :
    t'.value v = t.value v := by
  unfold value
  rw [h.root_eq]
  cases hu : t.root v with
  | error e => rfl
  | ok u =>
    have hne : u ≠ r := fun heq => hv (by rw [hu, heq])
    exact congrArg Except.ok (h.stored_eq u hne)

/-- A variable that exists can be bound. -/
theorem exists_bind (hf : t.Forest) (hv : t.root v = .ok r) :
    ∃ t', t.bind v x = .ok t' ∧ Bound t r x t' := by
  obtain ⟨t₁, hfind, h₁⟩ := exists_find hv
  have hbind : t.bind v x = .ok (if t₁.stored? r == some x then t₁
      else t₁.update r ({ · with value := some x })) := by
    rw [bind, hfind]
    rfl
  refine ⟨_, hbind, ?_⟩
  obtain ⟨c, hcell, -⟩ := (h₁.leads v r (leads_of_rootWithin hv)).root_cell
  by_cases hsame : (t₁.stored? r == some x) = true
  · rw [if_pos hsame]
    rw [h₁.stored_eq] at hsame
    refine ⟨h₁.forest hf, h₁.size_eq, h₁.root_eq hf, ?_, fun w _ => h₁.stored_eq w⟩
    rw [if_pos hsame, h₁.stored_eq]
  · rw [if_neg hsame]
    rw [h₁.stored_eq] at hsame
    have hsize : (t₁.update r ({ · with value := some x })).size = t.size := by
      rw [size_update, h₁.size_eq]
    obtain ⟨hforest, hroot⟩ := root_eq_map (f := id) hf hsize fun v r hv =>
      leads_update_value (h₁.leads v r hv)
    refine ⟨hforest, hsize, ?_, ?_, ?_⟩
    · intro w
      rw [hroot]
      cases t.root w <;> rfl
    · rw [stored?_update_value hcell, if_pos rfl, if_neg hsame]
    · intro w hw
      rw [stored?_update_value hcell, if_neg hw, h₁.stored_eq]

/-- Binding a variable binds its root. -/
theorem bind_eq_ok (hf : t.Forest) (h : t.bind v x = .ok t') :
    ∃ r, t.root v = .ok r ∧ Bound t r x t' := by
  obtain ⟨⟨r, t₁⟩, hfind, -⟩ := Except.bind_eq_ok h
  have hv := (find_eq_ok hfind).1
  obtain ⟨t'', hbind, hbound⟩ := exists_bind (x := x) hf hv
  rw [h] at hbind
  cases hbind
  exact ⟨r, hv, hbound⟩

end

end TypeInference.Table
