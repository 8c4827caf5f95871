import TypeInference.ProjectionCache
import TypeInference.Proofs.Journals
import TypeInference.Proofs.Tables
import TypeInference.Proofs.TypeTrees

/-!
# Tables and the cache as journals

Every change to a table or to the cache of projections is logged with an entry that undoes it, so
each operation leads to a later journal. And it reads nothing but the current cells or entries, so
it does the same to a journal and to its shadow.
-/

namespace TypeInference

namespace Table

variable {α : Type} {t t' t'' : Table α} {v a b n r : Nat}

/-! ## Changes to tables can be taken back -/

/-- Table `t'` is `t` after changes that can be undone. -/
def Later (t t' : Table α) : Prop := t.cells.Later CellUndo.apply t'.cells

theorem Later.refl (t : Table α) : t.Later t := Journal.Later.refl _

theorem Later.trans (h : t.Later t') (h' : t'.Later t'') : t.Later t'' :=
  Journal.Later.trans h h'

theorem later_write {entry : CellUndo α} {change : Array (Cell α) → Array (Cell α)}
    (h : entry.apply (change t.cells.current) = t.cells.current) :
    t.Later ⟨t.cells.write entry change⟩ := by
  show t.cells.Later CellUndo.apply (t.cells.write entry change)
  exact .write h

theorem later_fresh (t : Table α) : t.Later t.fresh :=
  later_write Array.pop_push

/-- An update is undone by the old cell. -/
theorem later_update (t : Table α) (v : Nat) (f : Cell α → Cell α) : t.Later (t.update v f) := by
  unfold update
  split
  · next old hold =>
    refine later_write ?_
    have hv : v < t.cells.current.size := lt_size_of_cell? hold
    have hcell : t.cells.current[v]? = some old := hold
    -- Writing the old cell back undoes the change, at `v` and nowhere else.
    apply Array.ext_getElem?
    intro w
    rw [CellUndo.apply, Array.getElem?_setIfInBounds, Array.getElem?_modify]
    split
    · next heq =>
      subst heq
      rw [Array.size_modify, if_pos hv, hcell]
    · rfl
  · exact .refl t

theorem later_findWithin (h : findWithin n v t = .ok (r, t')) : t.Later t' := by
  induction n generalizing v r t' with
  | zero => cases h
  | succ n ih =>
    unfold findWithin at h
    split at h
    · cases h
    · split at h
      · cases h
        exact .refl t
      · obtain ⟨⟨r', t₁⟩, hfind, ⟨⟩⟩ := Except.bind_eq_ok h
        split
        · exact ih hfind
        · exact (ih hfind).trans (later_update ..)

theorem later_find (h : t.find v = .ok (r, t')) : t.Later t' :=
  later_findWithin h

theorem later_link (t : Table α) (winner loser : Nat) : t.Later (t.link winner loser) := by
  unfold link
  dsimp only
  split
  · exact (later_update ..).trans (later_update ..)
  · exact later_update ..

/-- Merging can be undone. -/
theorem later_union (h : t.union a b = .ok t') : t.Later t' := by
  obtain ⟨⟨ra, t₁⟩, hfind_a, h⟩ := Except.bind_eq_ok h
  obtain ⟨⟨rb, t₂⟩, hfind_b, h⟩ := Except.bind_eq_ok h
  have h₂ := (later_find hfind_a).trans (later_find hfind_b)
  cases h
  split
  · exact h₂
  · exact h₂.trans (later_link ..)

/-- So can binding. -/
theorem later_bind [BEq α] {x : α} (h : t.bind v x = .ok t') : t.Later t' := by
  obtain ⟨⟨r, t₁⟩, hfind, h⟩ := Except.bind_eq_ok h
  have h₁ := later_find hfind
  cases h
  split
  · exact h₁
  · exact h₁.trans (later_update ..)

/-! ## Shadows of tables -/

/-- Table `t'` is `t` inside one more snapshot. -/
def Shadow (t t' : Table α) : Prop := Journal.Shadow t.cells t'.cells

namespace Shadow

variable (h : t.Shadow t')

include h

theorem cell?_eq (v : Nat) : t'.cell? v = t.cell? v := by
  rw [cell?, cell?, h.current_eq]

theorem size_eq : t'.size = t.size := by
  rw [size, size, h.current_eq]

theorem stored?_eq (v : Nat) : t'.stored? v = t.stored? v :=
  stored?_eq_of_cell? (h.cell?_eq v)

theorem rootWithin_eq (n v : Nat) :
    t'.rootWithin n v = t.rootWithin n v := by
  induction n generalizing v with
  | zero => rfl
  | succ n ih =>
    unfold rootWithin
    rw [h.cell?_eq]
    split
    · rfl
    · rw [ih]

theorem root_eq (v : Nat) : t'.root v = t.root v := by
  rw [root, root, h.size_eq, h.rootWithin_eq]

theorem value_eq (v : Nat) : t'.value v = t.value v := by
  unfold value
  rw [h.root_eq]
  cases t.root v with
  | error e => rfl
  | ok r => exact congrArg Except.ok (h.stored?_eq r)

theorem write (entry : CellUndo α) (change : Array (Cell α) → Array (Cell α)) :
    Shadow ⟨t.cells.write entry change⟩ ⟨t'.cells.write entry change⟩ := by
  show Journal.Shadow (t.cells.write entry change) (t'.cells.write entry change)
  exact Journal.Shadow.write h

theorem fresh : t.fresh.Shadow t'.fresh :=
  h.write ..

theorem update (v : Nat) (f : Cell α → Cell α) :
    (t.update v f).Shadow (t'.update v f) := by
  unfold Table.update
  rw [h.cell?_eq]
  split
  · exact h.write ..
  · exact h

theorem findWithin (n v : Nat) :
    Except.Matched (fun p p' => p.1 = p'.1 ∧ p.2.Shadow p'.2)
      (findWithin n v t) (findWithin n v t') := by
  induction n generalizing v with
  | zero => exact .error _
  | succ n ih =>
    unfold Table.findWithin
    rw [h.cell?_eq]
    split
    · exact .error _
    · split
      · exact .ok ⟨rfl, h⟩
      · refine (ih _).bind ?_
        rintro ⟨r, t₁⟩ ⟨r', t₁'⟩ ⟨rfl, h₁⟩
        refine .ok ⟨rfl, ?_⟩
        dsimp only
        split
        · exact h₁
        · exact h₁.update ..

theorem find (v : Nat) :
    Except.Matched (fun p p' => p.1 = p'.1 ∧ p.2.Shadow p'.2) (t.find v) (t'.find v) := by
  unfold Table.find
  rw [h.size_eq]
  exact h.findWithin ..

theorem link (winner loser : Nat) :
    (t.link winner loser).Shadow (t'.link winner loser) := by
  have hupdate := h.update loser ({ · with parent := winner })
  unfold Table.link
  dsimp only
  rw [hupdate.stored?_eq, h.stored?_eq]
  split
  · exact hupdate.update ..
  · exact hupdate

/-- Merging does the same to a shadow. -/
theorem union (a b : Nat) :
    Except.Matched Shadow (t.union a b) (t'.union a b) := by
  refine (h.find a).bind ?_
  rintro ⟨ra, t₁⟩ ⟨ra', t₁'⟩ ⟨rfl, h₁⟩
  refine (h₁.find b).bind ?_
  rintro ⟨rb, t₂⟩ ⟨rb', t₂'⟩ ⟨rfl, h₂⟩
  refine .ok ?_
  dsimp only
  split
  · exact h₂
  · exact h₂.link ..

/-- So does binding. -/
theorem bind [BEq α] (v : Nat) (x : α) :
    Except.Matched Shadow (t.bind v x) (t'.bind v x) := by
  refine (h.find v).bind ?_
  rintro ⟨r, t₁⟩ ⟨r', t₁'⟩ ⟨rfl, h₁⟩
  refine .ok ?_
  dsimp only
  rw [h₁.stored?_eq]
  split
  · exact h₁
  · exact h₁.update ..

end Shadow

end Table

/-! ## The cache -/

namespace Projection

/-- The projection without the names of regions. -/
def erase (p : Projection) : Projection :=
  ⟨⟨p.self.erase, p.traitRef.trait, p.traitRef.args.map Ty.erase⟩, p.name⟩

/-- Projections count as the same if they differ in regions only. -/
theorem beq_iff {p q : Projection} : (p == q) = true ↔ p.erase = q.erase := by
  have hself : (p.traitRef.self == q.traitRef.self) = true ↔ p.self.erase = q.self.erase :=
    Ty.same_iff ..
  have hargs := Ty.sameList_iff p.traitRef.args q.traitRef.args
  show (decide (p.name = q.name) && (decide (p.traitRef.trait = q.traitRef.trait) &&
    (p.traitRef.self == q.traitRef.self) && Ty.sameList p.traitRef.args q.traitRef.args)) = true ↔ _
  simp only [Bool.and_eq_true, decide_eq_true_eq, hself, hargs, erase, Projection.mk.injEq,
    TraitRef.mk.injEq]
  tauto

theorem beq_congr {p q : Projection} (h : (p == q) = true) (k : Projection) :
    (k == p) = (k == q) := by
  rw [Bool.eq_iff_iff, beq_iff, beq_iff, beq_iff.1 h]

theorem same_refl (p : Projection) : (p == p) = true := beq_iff.2 rfl

end Projection

namespace ProjectionCache

variable {cache cache' cache'' : ProjectionCache} {key k : Projection} {entry old : CacheEntry}

theorem get?_congr (h : (k == key) = true) : cache.get? k = cache.get? key := by
  rw [get?, get?, lookup, lookup]
  simp only [Projection.beq_congr h]

theorem lookup_cons (e : Projection × CacheEntry) (entries : List (Projection × CacheEntry)) :
    lookup k (e :: entries) = if e.1 == k then some e.2 else lookup k entries := by
  simp only [lookup, List.find?_cons]
  cases e.1 == k <;> rfl

theorem lookup_replace (entries : List (Projection × CacheEntry)) :
    lookup k (replace key entry entries) =
      if k == key then (lookup k entries).map fun _ => entry else lookup k entries := by
  induction entries with
  | nil => simp [replace, lookup]
  | cons e rest ih =>
    obtain ⟨k', old⟩ := e
    rw [replace, lookup_cons]
    by_cases hkey : (k' == key) = true
    · rw [if_pos hkey, lookup_cons]
      by_cases hk : (k == key) = true
      · rw [if_pos hk, Projection.beq_congr hk, if_pos hkey, if_pos hkey]
        rfl
      · have hne : ¬ (k' == k) = true := by
          rw [Projection.beq_iff] at hkey hk ⊢
          exact fun heq => hk (heq.symm.trans hkey)
        rw [if_neg hk, if_neg hne, if_neg hne]
    · rw [if_neg hkey, lookup_cons, ih]
      by_cases hk : (k == key) = true
      · have hne : ¬ (k' == k) = true := by rwa [Projection.beq_congr hk]
        rw [if_pos hk, if_pos hk, if_neg hne, if_neg hne]
      · rw [if_neg hk, if_neg hk]

/-- An entry that was made is found for all projections that count as the same. -/
theorem get?_insert (cache : ProjectionCache) (key : Projection) (entry : CacheEntry)
    (k : Projection) :
    (cache.insert key entry).get? k = if k == key then some entry else cache.get? k := by
  unfold insert
  split
  · next old hold =>
    show lookup k (replace key entry cache.entries.current) = _
    rw [lookup_replace]
    by_cases hk : (k == key) = true
    · rw [if_pos hk, if_pos hk]
      show (cache.get? k).map _ = _
      rw [get?_congr hk, hold]
      rfl
    · rw [if_neg hk, if_neg hk]
      rfl
  · show lookup k ((key, entry) :: cache.entries.current) = _
    rw [lookup_cons]
    have hsymm : (key == k) = (k == key) := by
      rw [Bool.eq_iff_iff, Projection.beq_iff, Projection.beq_iff, eq_comm]
    rw [hsymm]
    rfl

/-- Cache `cache'` is `cache` after changes that can be undone. -/
def Later (cache cache' : ProjectionCache) : Prop := cache.entries.Later undo cache'.entries

theorem Later.refl (cache : ProjectionCache) : cache.Later cache := Journal.Later.refl _

theorem Later.trans (h : cache.Later cache') (h' : cache'.Later cache'') : cache.Later cache'' :=
  Journal.Later.trans h h'

/-- Replacing an entry is undone by the old one. -/
theorem replace_replace {entries : List (Projection × CacheEntry)}
    (h : lookup key entries = some old) :
    replace key old (replace key entry entries) = entries := by
  induction entries with
  | nil => rfl
  | cons e rest ih =>
    obtain ⟨k, v⟩ := e
    -- The first entry of `key` is the one that is looked up and the one that is replaced.
    cases hk : k == key with
    | true =>
      simp only [lookup, List.find?_cons, hk, Option.map_some, Option.some.injEq] at h
      simp only [replace, hk, if_true, h]
    | false =>
      have hrest : lookup key rest = some old := by
        simpa only [lookup, List.find?_cons, hk] using h
      simp only [replace, hk, ih hrest, Bool.false_eq_true, if_false]

theorem later_write {e : CacheUndo}
    {change : List (Projection × CacheEntry) → List (Projection × CacheEntry)}
    (h : undo e (change cache.entries.current) = cache.entries.current) :
    cache.Later ⟨cache.entries.write e change⟩ := by
  show cache.entries.Later undo (cache.entries.write e change)
  exact .write h

/-- Entries can be undone. -/
theorem later_insert (cache : ProjectionCache) (key : Projection) (entry : CacheEntry) :
    cache.Later (cache.insert key entry) := by
  unfold insert
  split
  · next old hold => exact later_write (replace_replace hold)
  · refine later_write ?_
    simp only [undo, List.eraseP_cons, Projection.same_refl, cond_true]

/-- Cache `cache'` is `cache` inside one more snapshot. -/
def Shadow (cache cache' : ProjectionCache) : Prop :=
  Journal.Shadow cache.entries cache'.entries

namespace Shadow

theorem get?_eq (h : cache.Shadow cache') (key : Projection) :
    cache'.get? key = cache.get? key := by
  rw [get?, get?, h.current_eq]

theorem write (h : cache.Shadow cache') (e : CacheUndo)
    (change : List (Projection × CacheEntry) → List (Projection × CacheEntry)) :
    Shadow ⟨cache.entries.write e change⟩ ⟨cache'.entries.write e change⟩ := by
  show Journal.Shadow (cache.entries.write e change) (cache'.entries.write e change)
  exact Journal.Shadow.write h

theorem insert (h : cache.Shadow cache') (key : Projection) (entry : CacheEntry) :
    (cache.insert key entry).Shadow (cache'.insert key entry) := by
  unfold ProjectionCache.insert
  rw [h.get?_eq]
  split
  · exact h.write ..
  · exact h.write ..

end Shadow

end ProjectionCache

end TypeInference
