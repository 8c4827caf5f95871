import Mathlib.Logic.Relation
import TypeInference.Proofs.Tables

/-!
# Tables as partitions

What a table means can be said without cells, parents and compression: its variables are divided
into classes, and every class has a representative and may have a value (`Partition`). Merging two
classes keeps the representative of the first, and its value if it has one; binding replaces the
value of a class; looking something up changes nothing.

A table answers every sequence of calls as its partition does (`Table.Represents.runAll`). In
particular no answer depends on which ways were compressed before. The classes are those of the
smallest equivalence that contains the merged pairs (`Partition.rep_runAll_eq_iff`).
-/

namespace TypeInference

open Relation

variable {α : Type}

/-! ## Calls -/

/-- What can be asked of a table. -/
inductive Table.Call (α : Type) where
  | fresh
  | root (v : Nat)
  | value (v : Nat)
  | union (a b : Nat)
  | bind (v : Nat) (x : α)

inductive Table.Answer (α : Type) where
  | variable (v : Nat)
  | value (x : Option α)
  | done

namespace Table.Call

/-- Looking something up compresses ways. -/
def run [BEq α] (t : Table α) : Call α → Except Fault (Answer α × Table α)
  | fresh => .ok (.variable t.size, t.fresh)
  | root v => do
    let (r, t) ← t.find v
    return (.variable r, t)
  | value v => do
    let (r, t) ← t.find v
    return (.value (t.stored? r), t)
  | union a b => do return (.done, ← t.union a b)
  | bind v x => do return (.done, ← t.bind v x)

/-- Makes the calls one after the other. -/
def runAll [BEq α] : List (Call α) → Table α → Except Fault (List (Answer α) × Table α)
  | [], t => .ok ([], t)
  | c :: cs, t => do
    let (answer, t) ← c.run t
    let (answers, t) ← runAll cs t
    return (answer :: answers, t)

/-- The call is about variables below `n` only. -/
def Fits (n : Nat) : Call α → Prop
  | fresh => True
  | root v | value v | bind v _ => v < n
  | union a b => a < n ∧ b < n

instance (n : Nat) (c : Call α) : Decidable (c.Fits n) := by
  cases c <;> unfold Fits <;> infer_instance

/-- How many variables there are after the call. -/
def sizeAfter (n : Nat) : Call α → Nat
  | fresh => n + 1
  | _ => n

/-- Every call is about variables that exist when it is made. -/
def AllFit : Nat → List (Call α) → Prop
  | _, [] => True
  | n, c :: cs => c.Fits n ∧ AllFit (c.sizeAfter n) cs

instance decidableAllFit : (n : Nat) → (cs : List (Call α)) → Decidable (AllFit n cs)
  | _, [] => inferInstanceAs (Decidable True)
  | n, c :: cs =>
    have := decidableAllFit (c.sizeAfter n) cs
    inferInstanceAs (Decidable (c.Fits n ∧ AllFit (c.sizeAfter n) cs))

end Table.Call

/-! ## Partitions -/

/-- Variables in classes. One that does not exist yet is in a class of its own. -/
structure Partition (α : Type) where
  size : Nat
  /-- The representative of the class of a variable. -/
  rep : Nat → Nat
  /-- The value of the class of a variable. -/
  value : Nat → Option α

namespace Partition

open Table (Call Answer)

def empty : Partition α := ⟨0, id, fun _ => none⟩

/-- There is one variable more. -/
def fresh (p : Partition α) : Partition α := { p with size := p.size + 1 }

/-- The class of `b` becomes part of that of `a`. -/
def union (p : Partition α) (a b : Nat) : Partition α where
  size := p.size
  rep v := if p.rep v = p.rep b then p.rep a else p.rep v
  value v :=
    if p.rep v = p.rep a ∨ p.rep v = p.rep b then (p.value a).or (p.value b) else p.value v

/-- The class of `v` has the value `x` from now on. -/
def bind (p : Partition α) (v : Nat) (x : α) : Partition α :=
  { p with value := fun w => if p.rep w = p.rep v then some x else p.value w }

def run (p : Partition α) : Call α → Answer α × Partition α
  | .fresh => (.variable p.size, p.fresh)
  | .root v => (.variable (p.rep v), p)
  | .value v => (.value (p.value v), p)
  | .union a b => (.done, p.union a b)
  | .bind v x => (.done, p.bind v x)

def runAll : List (Call α) → Partition α → List (Answer α) × Partition α
  | [], p => ([], p)
  | c :: cs, p =>
    let (answer, p) := p.run c
    let (answers, p) := runAll cs p
    (answer :: answers, p)

variable {p : Partition α} {a b : Nat}

theorem size_run (c : Call α) : (p.run c).2.size = c.sizeAfter p.size := by
  cases c <;> rfl

/-! ## Classes are generated by the merged pairs -/

theorem rep_run_eq (c : Call α) (h : p.rep a = p.rep b) : (p.run c).2.rep a = (p.run c).2.rep b := by
  cases c with
  | union x y =>
    show (if p.rep a = p.rep y then p.rep x else p.rep a) =
      if p.rep b = p.rep y then p.rep x else p.rep b
    rw [h]
  | _ => exact h

theorem rep_eq_or_of_rep_run_eq {c : Call α} (h : (p.run c).2.rep a = (p.run c).2.rep b) :
    p.rep a = p.rep b ∨ ∃ x y, c = .union x y ∧
      (p.rep a = p.rep x ∧ p.rep b = p.rep y ∨ p.rep a = p.rep y ∧ p.rep b = p.rep x) := by
  cases c with
  | union x y =>
    have h : (if p.rep a = p.rep y then p.rep x else p.rep a) =
        if p.rep b = p.rep y then p.rep x else p.rep b := h
    split at h
    · next ha =>
      split at h
      · next hb => exact .inl (ha.trans hb.symm)
      · exact .inr ⟨x, y, rfl, Or.inr ⟨ha, h.symm⟩⟩
    · split at h
      · next hb => exact .inr ⟨x, y, rfl, Or.inl ⟨h, hb⟩⟩
      · exact .inl h
  | _ => exact .inl h

theorem rep_union_eq : (p.union a b).rep a = (p.union a b).rep b := by
  show (if p.rep a = p.rep b then p.rep a else p.rep a) =
    if p.rep b = p.rep b then p.rep a else p.rep b
  rw [ite_self, if_pos rfl]

/-- Two variables are in one class already, or one of the calls is to merge their classes. -/
def Linked (p : Partition α) (cs : List (Call α)) (x y : Nat) : Prop :=
  p.rep x = p.rep y ∨ .union x y ∈ cs

/-- After any calls two variables are in one class if they were, or if the pairs merged since then
lead from one to the other. -/
theorem rep_runAll_eq_iff (cs : List (Call α)) :
    (runAll cs p).2.rep a = (runAll cs p).2.rep b ↔ EqvGen (p.Linked cs) a b := by
  induction cs generalizing p with
  | nil =>
    -- Without calls this is having one representative, which is an equivalence.
    refine ⟨fun h => .rel _ _ (Or.inl h), fun h => ?_⟩
    induction h with
    | rel _ _ h => exact h.resolve_right List.not_mem_nil
    | refl _ => rfl
    | symm _ _ _ ih => exact ih.symm
    | trans _ _ _ _ _ ih ih' => exact ih.trans ih'
  | cons c cs ih =>
    show (runAll cs (p.run c).2).2.rep a = (runAll cs (p.run c).2).2.rep b ↔ _
    rw [ih]
    constructor
    · intro h
      have hlinks : ∀ x y, (p.run c).2.Linked cs x y → EqvGen (p.Linked (c :: cs)) x y := by
        rintro x y (hxy | hxy)
        · rcases rep_eq_or_of_rep_run_eq hxy with hxy | ⟨x', y', hc, hxy⟩
          · exact .rel _ _ (Or.inl hxy)
          · -- The call links `x'` and `y'`, and `x` and `y` are in their classes.
            have hlink : EqvGen (p.Linked (c :: cs)) x' y' :=
              .rel _ _ (Or.inr (hc ▸ List.mem_cons_self))
            rcases hxy with ⟨hx, hy⟩ | ⟨hx, hy⟩
            · exact .trans _ _ _ (.rel _ _ (Or.inl hx))
                (.trans _ _ _ hlink (.rel _ _ (Or.inl hy.symm)))
            · exact .trans _ _ _ (.rel _ _ (Or.inl hx))
                (.trans _ _ _ (.symm _ _ hlink) (.rel _ _ (Or.inl hy.symm)))
        · exact .rel _ _ (Or.inr (List.mem_cons_of_mem c hxy))
      exact EqvGen.eqvGen_le hlinks _ _ h
    · intro h
      refine EqvGen.mono ?_ _ _ h
      rintro x y (hxy | hxy)
      · exact .inl (rep_run_eq c hxy)
      · rcases List.mem_cons.1 hxy with rfl | hxy
        · exact .inl rep_union_eq
        · exact .inr hxy

theorem rep_runAll_empty_eq_iff (cs : List (Call α)) :
    (runAll cs empty).2.rep a = (runAll cs empty).2.rep b ↔
      EqvGen (fun x y => .union x y ∈ cs) a b := by
  rw [rep_runAll_eq_iff]
  constructor
  · intro h
    have hlinks : ∀ x y, (empty (α := α)).Linked cs x y →
        EqvGen (fun x y => Call.union x y ∈ cs) x y := by
      rintro x y (rfl | hxy)
      · exact .refl _
      · exact .rel _ _ hxy
    exact EqvGen.eqvGen_le hlinks _ _ h
  · intro h
    exact EqvGen.mono (fun _ _ hxy => Or.inr hxy) _ _ h

end Partition

/-! ## Tables behave as partitions -/

namespace Table

/-- Answers agree if they are the same, values up to what counts as equal. -/
def Answer.Agrees [BEq α] : Answer α → Answer α → Prop
  | .variable v, .variable w => v = w
  | .value x, .value y => x == y
  | .done, .done => True
  | _, _ => False

/-- The roots of the table are the representatives of the partition, and the values stored there
are the values of the classes. -/
structure Represents [BEq α] (t : Table α) (p : Partition α) : Prop where
  forest : t.Forest
  size_eq : t.size = p.size
  root : ∀ v < p.size, t.root v = .ok (p.rep v)
  value : ∀ v < p.size, t.stored? (p.rep v) == p.value v
  apart : ∀ v, p.size ≤ v → p.rep v = v ∧ p.value v = none

theorem or_beq_or [BEq α] {x x' y y' : Option α} (hx : x == x') (hy : y == y') :
    x.or y == x'.or y' := by
  cases x <;> cases x' <;> first | exact hy | exact hx | cases hx

namespace Represents

variable [BEq α] {t t' : Table α} {p : Partition α} {a b v : Nat} {x : α}

theorem empty : (∅ : Table α).Represents Partition.empty where
  forest := forest_empty
  size_eq := rfl
  root v hv := absurd hv (Nat.not_lt_zero v)
  value v hv := absurd hv (Nat.not_lt_zero v)
  apart _ _ := ⟨rfl, rfl⟩

theorem compressed (h : t.Represents p) (hc : Compressed t t') : t'.Represents p where
  forest := hc.forest h.forest
  size_eq := hc.size_eq.trans h.size_eq
  root v hv := (hc.root_eq h.forest v).trans (h.root v hv)
  value v hv := by
    rw [hc.stored_eq]
    exact h.value v hv
  apart := h.apart

theorem fresh (h : t.Represents p) : t.fresh.Represents p.fresh where
  forest := forest_fresh h.forest
  size_eq := by
    rw [size_fresh, h.size_eq]
    rfl
  root v hv := by
    have hsize := h.size_eq
    have hle : v ≤ p.size := Nat.le_of_lt_succ hv
    rw [root_fresh h.forest]
    by_cases hnew : v = t.size
    · rw [if_pos hnew, ← hnew]
      exact congrArg Except.ok (h.apart v (by omega)).1.symm
    · rw [if_neg hnew]
      exact h.root v (by omega)
  value v hv := by
    rw [stored?_fresh]
    by_cases hold : v < p.size
    · exact h.value v hold
    · -- Nothing is stored yet where the new variable is its own representative.
      obtain ⟨hrep, hvalue⟩ := h.apart v (Nat.le_of_not_lt hold)
      have hnone : t.cell? v = none := cell?_eq_none_iff.2 (h.size_eq ▸ Nat.le_of_not_lt hold)
      show (t.stored? (p.rep v) == p.value v) = true
      rw [hrep, hvalue, stored?, hnone]
      rfl
  apart v hv := h.apart v (Nat.le_of_succ_le hv)

theorem union (h : t.Represents p) (ha : a < p.size) (hb : b < p.size) :
    ∃ t', t.union a b = .ok t' ∧ t'.Represents (p.union a b) := by
  obtain ⟨t', hunion, hm⟩ := exists_union h.forest (h.root a ha) (h.root b hb)
  refine ⟨t', hunion, hm.forest, hm.size_eq.trans h.size_eq, ?_, ?_, ?_⟩
  · intro v hv
    rw [hm.root_eq, h.root v hv]
    rfl
  · intro v hv
    show (t'.stored? (if p.rep v = p.rep b then p.rep a else p.rep v) ==
      if p.rep v = p.rep a ∨ p.rep v = p.rep b then (p.value a).or (p.value b) else p.value v) = true
    by_cases hmerged : p.rep v = p.rep a ∨ p.rep v = p.rep b
    · have hrep : (if p.rep v = p.rep b then p.rep a else p.rep v) = p.rep a := by
        split
        · rfl
        · next hne => exact hmerged.resolve_right hne
      rw [if_pos hmerged, hrep, hm.stored_winner]
      exact or_beq_or (h.value a ha) (h.value b hb)
    · obtain ⟨hwinner, hloser⟩ := not_or.1 hmerged
      rw [if_neg hmerged, if_neg hloser, hm.stored_eq _ hwinner]
      exact h.value v hv
  · -- The representatives of `a` and `b` exist, so a variable that does not is neither.
    have hlt : ∀ w < p.size, p.rep w < p.size := by
      intro w hw
      rw [← h.size_eq]
      exact root_lt_size (h.root w hw)
    intro v hv
    obtain ⟨hrep, hvalue⟩ := h.apart v hv
    have hwinner : p.rep v ≠ p.rep a := by
      have := hlt a ha
      rw [hrep]
      exact (Nat.lt_of_lt_of_le this hv).ne'
    have hloser : p.rep v ≠ p.rep b := by
      have := hlt b hb
      rw [hrep]
      exact (Nat.lt_of_lt_of_le this hv).ne'
    exact ⟨(if_neg hloser).trans hrep, (if_neg (not_or.2 ⟨hwinner, hloser⟩)).trans hvalue⟩

theorem bind [ReflBEq α] (h : t.Represents p) (hv : v < p.size) :
    ∃ t', t.bind v x = .ok t' ∧ t'.Represents (p.bind v x) := by
  obtain ⟨t', hbind, hb⟩ := exists_bind (x := x) h.forest (h.root v hv)
  refine ⟨t', hbind, hb.forest, hb.size_eq.trans h.size_eq, ?_, ?_, ?_⟩
  · intro w hw
    exact (hb.root_eq w).trans (h.root w hw)
  · intro w hw
    show (t'.stored? (p.rep w) == if p.rep w = p.rep v then some x else p.value w) = true
    by_cases hsame : p.rep w = p.rep v
    · rw [if_pos hsame, hsame, hb.stored_root]
      split
      · next hequal => exact hequal
      · exact beq_self_eq_true (some x)
    · rw [if_neg hsame, hb.stored_eq _ hsame]
      exact h.value w hw
  · intro w hw
    have hne : p.rep w ≠ p.rep v := by
      have := root_lt_size (h.root v hv)
      rw [h.size_eq] at this
      rw [(h.apart w hw).1]
      exact (Nat.lt_of_lt_of_le this hw).ne'
    exact ⟨(h.apart w hw).1, (if_neg hne).trans (h.apart w hw).2⟩

/-- A table answers a call as the partition does that it represents, and goes on representing
it. -/
theorem run [ReflBEq α] {c : Call α} (h : t.Represents p) (hc : c.Fits p.size) :
    ∃ answer t', c.run t = .ok (answer, t') ∧ answer.Agrees (p.run c).1 ∧
      t'.Represents (p.run c).2 := by
  cases c with
  | fresh => exact ⟨_, _, rfl, h.size_eq, h.fresh⟩
  | root v =>
    obtain ⟨t', hfind, hcompressed⟩ := exists_find (h.root v hc)
    refine ⟨.variable (p.rep v), t', ?_, rfl, h.compressed hcompressed⟩
    rw [Call.run, hfind]
    rfl
  | value v =>
    obtain ⟨t', hfind, hcompressed⟩ := exists_find (h.root v hc)
    have h' := h.compressed hcompressed
    refine ⟨.value (t'.stored? (p.rep v)), t', ?_, h'.value v hc, h'⟩
    rw [Call.run, hfind]
    rfl
  | union a b =>
    obtain ⟨t', hunion, h'⟩ := h.union hc.1 hc.2
    refine ⟨.done, t', ?_, trivial, h'⟩
    rw [Call.run, hunion]
    rfl
  | bind v x =>
    obtain ⟨t', hbind, h'⟩ := h.bind (x := x) hc
    refine ⟨.done, t', ?_, trivial, h'⟩
    rw [Call.run, hbind]
    rfl

theorem runAll [ReflBEq α] {cs : List (Call α)} (h : t.Represents p) (hcs : Call.AllFit p.size cs) :
    ∃ answers t', Call.runAll cs t = .ok (answers, t') ∧
      List.Forall₂ Answer.Agrees answers (Partition.runAll cs p).1 ∧
      t'.Represents (Partition.runAll cs p).2 := by
  induction cs generalizing t p with
  | nil => exact ⟨[], t, rfl, .nil, h⟩
  | cons c cs ih =>
    obtain ⟨hc, hcs⟩ := hcs
    obtain ⟨answer, t₁, hrun, hagrees, h₁⟩ := h.run hc
    rw [← Partition.size_run] at hcs
    obtain ⟨answers, t', hrunAll, hall, h'⟩ := ih h₁ hcs
    refine ⟨answer :: answers, t', ?_, .cons hagrees hall, h'⟩
    rw [Call.runAll, hrun]
    show (Call.runAll cs t₁ >>= _) = _
    rw [hrunAll]
    rfl

end Represents

/-- From the empty table on, every sequence of calls about existing variables gives answers, and
they are those of the partition. Two variables have one root if and only if merged pairs lead from
one to the other, and looking a root up changes neither roots nor values. -/
theorem refines_partition [BEq α] [ReflBEq α] (cs : List (Call α)) (hcs : Call.AllFit 0 cs) :
    ∃ answers t, Call.runAll cs ∅ = .ok (answers, t) ∧
      List.Forall₂ Answer.Agrees answers (Partition.runAll cs .empty).1 ∧
      (∀ v < t.size, ∃ t',
        t.find v = .ok ((Partition.runAll cs .empty).2.rep v, t') ∧
        (∀ w, t'.root w = t.root w ∧ t'.value w = t.value w) ∧
        ∃ x, t.value v = .ok x ∧ x == (Partition.runAll cs .empty).2.value v) ∧
      ∀ a < t.size, ∀ b < t.size,
        t.root a = t.root b ↔ EqvGen (fun x y => Call.union x y ∈ cs) a b := by
  obtain ⟨answers, t, hrun, hagree, h⟩ := Represents.empty.runAll hcs
  refine ⟨answers, t, hrun, hagree, ?_, ?_⟩
  · intro v hv
    have hroot := h.root v (h.size_eq ▸ hv)
    obtain ⟨t', hfind, hc⟩ := exists_find hroot
    refine ⟨t', hfind, ?_, _, value_eq hroot, h.value v (h.size_eq ▸ hv)⟩
    exact fun w => ⟨hc.root_eq h.forest w, hc.value_eq h.forest w⟩
  · intro a ha b hb
    rw [h.root a (h.size_eq ▸ ha), h.root b (h.size_eq ▸ hb), Except.ok.injEq,
      Partition.rep_runAll_empty_eq_iff]

/-- Two classes are merged one after the other into that of a variable that has no value. -/
theorem refines_partition_merging :
    Call.AllFit (α := Nat) 0 [.fresh, .fresh, .fresh, .bind 1 7, .union 0 1, .union 2 0, .root 1,
      .value 0] ∧
    ∃ answers t, Call.runAll [.fresh, .fresh, .fresh, .bind 1 7, .union 0 1, .union 2 0, .root 1,
        .value 0] (∅ : Table Nat) = .ok (answers, t) ∧
      List.Forall₂ Answer.Agrees answers [.variable 0, .variable 1, .variable 2, .done, .done,
        .done, .variable 2, .value (some 7)] := by
  have hfit : Call.AllFit (α := Nat) 0 [.fresh, .fresh, .fresh, .bind 1 7, .union 0 1, .union 2 0,
      .root 1, .value 0] := by decide
  obtain ⟨answers, t, hrun, hagree, -⟩ := refines_partition _ hfit
  exact ⟨hfit, answers, t, hrun, hagree⟩

end Table

end TypeInference
