import Mathlib.Data.Multiset.DershowitzManna
import TypeInference.Proofs.CachedObligations

/-!
# Deciding obligations ends

A round replaces obligations by those they lead to. Each of the latter is one level deeper, and the
limit on the depth cuts the chain off; but the cache hands obligations back at the depth they once
had. A projection may then lead to itself for ever, at a depth that does not grow.

Where traits are graded, an obligation leads to obligations of lower rank, or of the same rank and
deeper. So its weight decreases, whatever the cache hands back. A round that decides anything makes
the multiset of weights of the queue smaller, and the rounds come to an end.
-/

namespace TypeInference

variable {rank : TraitId → Nat} {scope : Scope} {depth limit : Nat} {o o' : Obligation}

/-! ## Weights -/

/-- A bound on how many obligations follow from one another: in each rank, as many as there are
depths up to the limit. -/
def Obligation.weight (rank : TraitId → Nat) (limit : Nat) (o : Obligation) : Nat :=
  o.rank rank * (limit + 2) + (limit + 1 - o.depth)

/-- What follows from an obligation weighs less. -/
theorem Obligation.Follows.weight_lt (hdepth : o.depth ≤ limit)
    (h : o'.Follows rank (o.rank rank) (o.depth + 1)) :
    o'.weight rank limit < o.weight rank limit := by
  unfold weight
  rcases h with hrank | ⟨hrank, hdeeper, -⟩
  · have hranks : (o'.rank rank + 1) * (limit + 2) ≤ o.rank rank * (limit + 2) :=
      Nat.mul_le_mul_right _ hrank
    rw [Nat.succ_mul] at hranks
    omega
  · have hranks : o'.rank rank * (limit + 2) ≤ o.rank rank * (limit + 2) :=
      Nat.mul_le_mul_right _ hrank
    omega

/-- The weights of the obligations in a queue. -/
def Obligation.weights (rank : TraitId → Nat) (limit : Nat) (queue : List Obligation) :
    Multiset Nat :=
  queue.map (Obligation.weight rank limit)

namespace Infer

/-! ## One obligation -/

namespace Yields

/-- What a goal rests on follows from it. -/
theorem confirm (hgraded : scope.items.Graded rank) {goal : TraitRef} {source : Source} :
    Yields scope rank (Infer.confirm goal source depth) fun nested => ∀ os, nested = some os →
      ∀ o ∈ os, o.Follows rank (rank goal.trait) depth := by
  have hnothing (agrees : Bool) (os : List Obligation)
      (hos : (if agrees then some [] else none) = some os) :
      ∀ o ∈ os, o.Follows rank (rank goal.trait) depth := by
    intro o ho
    cases agrees with
    | true =>
      cases hos
      cases ho
    | false => cases hos
  match source with
  | .impl id =>
    refine readBind (liftBind fun impl himpl => ?_)
    refine ofHeader hgraded himpl (fun os hos => by cases hos) fun subst hplain himpl => ?_
    refine (whereClauses himpl hplain fun q _ => normalize? hgraded q depth).bind
      fun bounds hbounds => pure ?_
    rintro os ⟨⟩
    exact hbounds
  | .param bound =>
    refine ite ?_ (pure fun os hos => by cases hos)
    exact (of_orderly (.combinePairs within_true within_true)).bind fun agrees _ =>
      pure (hnothing agrees)
  | .object bound =>
    refine ite ?_ (pure fun os hos => by cases hos)
    exact (of_orderly (.combinePairs within_true within_true)).bind fun agrees _ =>
      pure (hnothing agrees)
  | .builtin =>
    rw [Infer.confirm]
    split
    · exact (of_orderly (.combine within_true within_true)).bind fun agrees _ =>
        pure (hnothing agrees)
    · exact pure (hnothing true)

/-- So does what an obligation is replaced by. -/
theorem process (hgraded : scope.items.Graded rank) :
    Yields scope rank (Infer.process o) fun progress => ∀ nested, progress = .decided nested →
      o.depth ≤ scope.config.recursionLimit ∧
        ∀ o' ∈ nested, o'.Follows rank (o.rank rank) (o.depth + 1) := by
  obtain ⟨depth, predicate⟩ := o
  refine readBind ?_
  split
  · exact pure fun nested h => by cases h
  · next hlimit =>
    have hlimit := Nat.le_of_not_lt hlimit
    cases predicate with
    | trait goal =>
      refine (of_orderly (.resolveTraitRef within_true)).bind fun goal' hgoal => ?_
      have hrank := congrArg rank (trait_eq_of_resolveTraitRef hgoal)
      refine (of_orderly (.selectGoal within_true)).bind fun selected _ => ?_
      cases selected with
      | ok source =>
        refine liftBind fun d hd => ?_
        obtain rfl := eq_of_deeper hd
        refine (confirm hgraded).bind fun nested hnested => ?_
        cases nested with
        | some nested =>
          refine pure ?_
          rintro os ⟨⟩
          refine ⟨hlimit, fun o' ho' => ?_⟩
          have hfollows := hnested nested rfl o' ho'
          rw [hrank] at hfollows
          exact hfollows
        | none => exact pure fun nested h => by cases h
      | err | ambiguous => exact pure fun nested h => by cases h
    | projection p ty =>
      refine liftBind fun d hd => ?_
      obtain rfl := eq_of_deeper hd
      refine (normalize? hgraded p _).bind fun found hfound => ?_
      cases found with
      | none => exact pure fun nested h => by cases h
      | some result =>
        refine (of_orderly (.combine within_true within_true)).bind fun agrees _ => pure ?_
        cases agrees with
        | true =>
          rintro os ⟨⟩
          exact ⟨hlimit, hfound result rfl⟩
        | false =>
          rintro os ⟨⟩

end Yields

/-! ## Rounds -/

/-- What a round takes from the queue is replaced by obligations of lower weight; something is taken
if the round makes progress, and the rest waits on. -/
def Round.Reduces (rank : TraitId → Nat) (limit : Nat) (queue : List Obligation) (r : Round) :
    Prop :=
  ∃ taken, queue.Perm (r.stalled ++ taken) ∧ (r.progress = true → taken ≠ []) ∧
    ∀ o' ∈ r.nested, ∃ o ∈ taken, o'.weight rank limit < o.weight rank limit

namespace Round.Reduces

variable {limit : Nat} {queue rest nested : List Obligation} {o : Obligation} {r : Round}

theorem nil : Reduces rank limit [] ⟨false, [], []⟩ := by
  refine ⟨[], .nil, ?_, ?_⟩
  · intro h
    cases h
  · intro o' ho'
    cases ho'

theorem take (h : r.Reduces rank limit rest)
    (hnested : ∀ o' ∈ nested, o'.weight rank limit < o.weight rank limit) :
    Reduces rank limit (o :: rest) { r with progress := true, nested := nested ++ r.nested } := by
  obtain ⟨taken, hperm, -, hlower⟩ := h
  refine ⟨o :: taken, (hperm.cons o).trans List.perm_middle.symm, fun _ => List.cons_ne_nil _ _, ?_⟩
  intro o' ho'
  rcases List.mem_append.1 ho' with ho' | ho'
  · exact ⟨o, .head _, hnested o' ho'⟩
  · obtain ⟨o'', ho'', hlt⟩ := hlower o' ho'
    exact ⟨o'', List.mem_cons_of_mem o ho'', hlt⟩

theorem stall (h : r.Reduces rank limit rest) :
    Reduces rank limit (o :: rest) { r with stalled := o :: r.stalled } := by
  obtain ⟨taken, hperm, htaken, hlower⟩ := h
  exact ⟨taken, hperm.cons o, htaken, hlower⟩

/-- A round with progress makes the weights smaller. -/
theorem weights_lt (h : r.Reduces rank limit queue) (hprogress : r.progress = true) :
    Multiset.IsDershowitzMannaLT (Obligation.weights rank limit (r.stalled ++ r.nested))
      (Obligation.weights rank limit queue) := by
  obtain ⟨taken, hperm, htaken, hnested⟩ := h
  let weights := Obligation.weights rank limit
  refine ⟨weights r.stalled, weights r.nested, weights taken, ?_, ?_, ?_, ?_⟩
  · intro hempty
    exact htaken hprogress (List.map_eq_nil_iff.1 ((Multiset.coe_eq_zero _).1 hempty))
  · simp only [weights, Obligation.weights, List.map_append, Multiset.coe_add]
  · simp only [weights, Obligation.weights, Multiset.coe_add, ← List.map_append]
    exact Multiset.coe_eq_coe.2 (hperm.map _)
  · intro w hw
    obtain ⟨o', ho', rfl⟩ := List.mem_map.1 (Multiset.mem_coe.1 hw)
    obtain ⟨o, ho, hlt⟩ := hnested o' ho'
    exact ⟨_, Multiset.mem_coe.2 (List.mem_map_of_mem ho), hlt⟩

end Round.Reduces

/-- Every round reduces its queue. -/
theorem Yields.round (hgraded : scope.items.Graded rank) (strict : Bool) (queue : List Obligation) :
    Yields scope rank (Infer.round strict queue) fun found => ∀ r, found = some r →
      r.Reduces rank scope.config.recursionLimit queue := by
  induction queue with
  | nil =>
    refine Yields.pure ?_
    rintro r ⟨⟩
    exact .nil
  | cons o rest ih =>
    -- Whatever became of the first obligation, the rest of the round is inspected in the same way.
    have hrest {k : Option Round → Infer (Option Round)} {f : Round → Round}
        (hf : ∀ r : Round, r.Reduces rank scope.config.recursionLimit rest →
          (f r).Reduces rank scope.config.recursionLimit (o :: rest))
        (hnone : k none = Pure.pure none) (hsome : ∀ r, k (some r) = Pure.pure (some (f r))) :
        Yields scope rank (Infer.round strict rest >>= k) fun found => ∀ r, found = some r →
          r.Reduces rank scope.config.recursionLimit (o :: rest) := by
      refine ih.bind fun found hfound => ?_
      cases found with
      | none =>
        rw [hnone]
        exact .pure fun r hr => by cases hr
      | some r =>
        rw [hsome]
        refine .pure ?_
        rintro r' ⟨⟩
        exact hf r (hfound r rfl)
    refine (Yields.process hgraded).bind fun progress hprogress => ?_
    cases progress with
    | decided nested =>
      obtain ⟨hlimit, hnested⟩ := hprogress nested rfl
      have hlower := fun o' ho' => (hnested o' ho').weight_lt hlimit
      exact hrest (fun r hr => hr.take hlower) rfl fun _ => rfl
    | stalled => exact hrest (fun r hr => hr.stall) rfl fun _ => rfl
    | failed =>
      refine .ite (.pure fun r hr => by cases hr) ?_
      exact hrest (fun r hr => hr.take (List.forall_mem_nil _)) rfl fun _ => rfl

variable {strict : Bool} {queue queue' : List Obligation} {s s' : State}

theorem settleWithin_of_isEmpty (hempty : queue.isEmpty = true) (n : Nat) :
    settleWithin strict (n + 1) queue scope s = .ok ((true, []), s) := by
  rw [settleWithin, if_pos hempty]
  rfl

theorem settleWithin_of_error {e : Fault} (hempty : queue.isEmpty = false)
    (hround : round strict queue scope s = .error e) (n : Nat) :
    settleWithin strict (n + 1) queue scope s = .error e := by
  rw [settleWithin, hempty]
  exact bind_of_error hround

theorem settleWithin_of_none (hempty : queue.isEmpty = false)
    (hround : round strict queue scope s = .ok (none, s')) (n : Nat) :
    settleWithin strict (n + 1) queue scope s = .ok ((false, []), s') := by
  rw [settleWithin, hempty]
  exact bind_of_ok hround

theorem settleWithin_of_some {r : Round} (hempty : queue.isEmpty = false)
    (hround : round strict queue scope s = .ok (some r, s')) (n : Nat) :
    settleWithin strict (n + 1) queue scope s =
      if r.progress then settleWithin strict n (r.stalled ++ r.nested) scope s'
      else .ok ((true, r.stalled ++ r.nested), s') := by
  rw [settleWithin, hempty]
  refine ok_then hround ?_
  obtain ⟨progress, stalled, nested⟩ := r
  cases progress with
  | false | true => rfl

/-- The rounds on a queue have a result other than that there are too few of them, and more of them
do not change it. -/
def Settles (scope : Scope) (strict : Bool) (queue : List Obligation) (s : State) : Prop :=
  ∃ N result, result ≠ .error .exhausted ∧ ∀ n, N ≤ n → settleWithin strict n queue scope s = result

theorem Settles.of_eq {result : Except Fault ((Bool × List Obligation) × State)}
    (h : ∀ n, settleWithin strict (n + 1) queue scope s = result)
    (hresult : result ≠ .error .exhausted) : Settles scope strict queue s := by
  refine ⟨1, result, hresult, fun n hn => ?_⟩
  cases n with
  | zero => cases hn
  | succ n => exact h n

theorem Settles.of_ok {answer : (Bool × List Obligation) × State}
    (h : ∀ n, settleWithin strict (n + 1) queue scope s = .ok answer) :
    Settles scope strict queue s :=
  .of_eq h fun h => by cases h

theorem Settles.of_next (h : Settles scope strict queue' s')
    (hnext : ∀ n, settleWithin strict (n + 1) queue scope s =
      settleWithin strict n queue' scope s') : Settles scope strict queue s := by
  obtain ⟨N, result, hresult, h⟩ := h
  refine ⟨N + 1, result, hresult, fun n hn => ?_⟩
  cases n with
  | zero => cases hn
  | succ n => exact (hnext n).trans (h n (Nat.le_of_succ_le_succ hn))

/-- A round returns if normalization does. -/
theorem round_ne_exhausted
    (hreturns : ∀ p depth s, s.WellFormed → normalize? p depth scope s ≠ .error .exhausted)
    (strict : Bool) (queue : List Obligation) (hs : s.WellFormed) :
    round strict queue scope s ≠ .error .exhausted := by
  have : Normalizes scope (· ≠ .exhausted) NormalizeOp := normalizes_normalizeOp (by simp)
  have hregular : Regular scope (· ≠ .exhausted) NormalizeOp (round strict queue) :=
    (Orderly.round within_true).anyway
  have hfails : Fails scope (· ≠ .exhausted) (round strict queue) := by
    refine hregular.failsWith fun hx => ⟨?_, hx.relates⟩
    cases hx with
    | call p depth =>
      intro s hs e he h
      exact hreturns p depth s hs (h ▸ he)
  intro h
  exact hfails hs _ h rfl

/-- Where traits are graded, the rounds end. -/
theorem settles_of_graded (hgraded : scope.items.Graded rank)
    (hreturns : ∀ p depth s, s.WellFormed → normalize? p depth scope s ≠ .error .exhausted)
    (strict : Bool) (queue : List Obligation) (hs : s.Ranked rank) :
    Settles scope strict queue s := by
  have hwf : WellFounded (Multiset.IsDershowitzMannaLT (α := Nat)) :=
    Multiset.wellFounded_isDershowitzMannaLT
  -- The weights of the queue decrease with every round that is not the last.
  induction hqueue : Obligation.weights rank scope.config.recursionLimit queue using hwf.induction
    generalizing queue s with
  | _ weights ih =>
    subst hqueue
    cases hempty : queue.isEmpty with
    | true => exact .of_ok (settleWithin_of_isEmpty hempty)
    | false =>
      have hreturned := round_ne_exhausted hreturns strict queue hs.wellFormed
      match hround : round strict queue scope s with
      | .error e =>
        refine .of_eq (settleWithin_of_error hempty hround) fun he => hreturned ?_
        cases he
        exact hround
      | .ok (none, s') => exact .of_ok (settleWithin_of_none hempty hround)
      | .ok (some r, s') =>
        obtain ⟨hs', hreduces⟩ := Yields.round hgraded strict queue hs hround
        have hnext := settleWithin_of_some hempty hround
        cases hprogress : r.progress with
        | false =>
          exact .of_ok fun n => (hnext n).trans (by rw [hprogress]; rfl)
        | true =>
          have hlower := (hreduces r rfl).weights_lt hprogress
          refine .of_next (ih _ hlower _ hs' rfl) fun n => ?_
          rw [hnext n, hprogress]
          rfl

/-- An obligation that leads to itself and changes nothing keeps every number of rounds busy. -/
theorem settleWithin_of_repeated {o : Obligation}
    (h : process o scope s = .ok (.decided [o], s)) (strict : Bool) (n : Nat) :
    settleWithin strict n [o] scope s = .error .exhausted := by
  have hround : round strict [o] scope s = .ok (some ⟨true, [], [o]⟩, s) := bind_of_ok h
  induction n with
  | zero => rfl
  | succ n ih => exact (settleWithin_of_some rfl hround n).trans ih

end Infer

open Infer

/-- In a reachable state, if traits are graded and normalization returns, then whatever an
obligation leads to is of lower weight, and the rounds on every queue end: with enough of them they
have a result, which more of them do not change. -/
theorem Reachable.obligations_settle {v : Versions State Mark} (h : Reachable scope v)
    (hgraded : scope.items.Graded rank)
    (hreturns : ∀ p depth s, s.WellFormed → normalize? p depth scope s ≠ .error .exhausted) :
    (∀ o nested s, process o scope v.current = .ok (.decided nested, s) →
      ∀ o' ∈ nested, o'.weight rank scope.config.recursionLimit <
        o.weight rank scope.config.recursionLimit) ∧
    ∀ strict queue, ∃ N result, result ≠ .error .exhausted ∧
      ∀ n, N ≤ n → settleWithin strict n queue scope v.current = result := by
  have hs := h.ranked hgraded
  refine ⟨fun o nested s hrun o' ho' => ?_, fun strict queue => ?_⟩
  · rcases (Yields.process hgraded hs hrun).2 nested rfl with ⟨hlimit, hnested⟩
    exact (hnested o' ho').weight_lt hlimit
  · exact settles_of_graded hgraded hreturns strict queue hs

/-- The output of the slice of a Boolean, as an obligation. -/
theorem Reachable.obligations_settle_layered :
    ∃ N result, result ≠ .error .exhausted ∧ ∀ n, N ≤ n →
      settleWithin false n [.ofProjection 0 ⟨⟨.slice .bool, ⟨0⟩, []⟩, "Out"⟩ .bool]
        Scope.layered {} = result := by
  have hgraded : Items.layered.Graded fun trait => 1 - trait.index := by decide
  refine (Reachable.start.obligations_settle hgraded fun p depth s hs => ?_).2 false _
  exact normalize?_ne_exhausted (fun impl himpl trait htrait =>
      (hgraded impl himpl trait htrait).toStratified)
    (fun trait => Nat.lt_of_le_of_lt (Nat.sub_le ..) (by decide)) hs

/-! ## Obligations that lead to themselves -/

/-- A slice loops if its elements are its output, and the output of a slice is its elements. -/
def Items.cyclic : Items := { Items.empty with
  paramNames := #["Self", "T"]
  traits := #[⟨"Loop", .empty, ["Out"]⟩]
  impls := #[⟨⟨[⟨1⟩], [⟨.slice (.param ⟨1⟩), ⟨⟨0⟩, [], [⟨"Out", .param ⟨1⟩⟩]⟩⟩]⟩, some (⟨0⟩, []),
    .slice (.param ⟨1⟩), [⟨"Out", .param ⟨1⟩⟩]⟩] }

def Scope.cyclic : Scope := { Scope.bare with items := .cyclic }

/-- The output of a slice is its element. -/
def Obligation.cyclic : Obligation :=
  .ofProjection 1 (.output (.slice (.var (.ty 0)))) (.var (.ty 0))

/-- The output of a slice of an open integer type has been normalized at the first depth. -/
def State.cyclic : State where
  vars := ⟨⟨{ current := #[⟨0, some (.var (.int 0))⟩] }⟩, ⟨{ current := #[⟨0, none⟩] }⟩, ∅⟩
  cache := ⟨{ current :=
    [(.output (.slice (.var (.int 0))), .normalized ⟨.var (.ty 0), [.cyclic]⟩)] }⟩

/-- There is an obligation within the limit on the depth, and a reachable state, in which no number
of rounds is enough: the cache hands the obligation back at the depth it has. -/
theorem Infer.settling_cycles : Reachable .cyclic { current := .cyclic } ∧
    Obligation.cyclic.depth ≤ Scope.cyclic.config.recursionLimit ∧
    ∀ strict n, settleWithin strict n [.cyclic] .cyclic .cyclic = .error .exhausted := by
  have hstart : Reachable .cyclic { current := {} } := .start
  refine ⟨?_, by decide, settleWithin_of_repeated rfl⟩
  exact (hstart.operate .freshInt rfl).operate
    (.normalize (.output (.slice (.var (.int 0)))) 1) rfl

end TypeInference
