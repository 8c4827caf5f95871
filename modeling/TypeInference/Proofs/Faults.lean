import TypeInference.Body.Basic
import TypeInference.Decl.Items
import TypeInference.Proofs.Derivations

/-!
# The faults of computations

A computation *fails with* a set of faults if it has no other. What looks something up by number
fails with dangling numbers. So does all that follows values in a sound state, and unification: the
bounds on their recursions are never reached.
-/

namespace TypeInference

/-- Every fault of the computation is one of `E`. -/
def FailsWith {α : Type} (E : Fault → Prop) (x : Except Fault α) : Prop :=
  ∀ e, x = .error e → E e

/-- The faults of input that refers to something that is not there. -/
def Fault.IsDangling : Fault → Prop
  | .dangling .. => True
  | _ => False

namespace FailsWith

variable {α β : Type} {E : Fault → Prop} {x : Except Fault α} {f : α → Except Fault β}
  {p : α → Except Fault Bool} {xs : List α}

theorem ok (a : α) : FailsWith E (.ok a : Except Fault α) := by
  intro e h
  cases h

theorem error {e : Fault} (he : E e) : FailsWith E (.error e : Except Fault α) := by
  intro e' h
  cases h
  exact he

/-- The second part may rely on what the first one returns. -/
theorem bind_of_ok (hx : FailsWith E x) (hf : ∀ a, x = .ok a → FailsWith E (f a)) :
    FailsWith E (x >>= f) := by
  cases x with
  | ok a => exact hf a rfl
  | error e =>
    intro e' h
    cases h
    exact hx e rfl

theorem bind (hx : FailsWith E x) (hf : ∀ a, FailsWith E (f a)) : FailsWith E (x >>= f) :=
  hx.bind_of_ok fun a _ => hf a

theorem mapM (hf : ∀ a ∈ xs, FailsWith E (f a)) : FailsWith E (xs.mapM f) :=
  mapM_closed (P := FailsWith E) ⟨ok, bind⟩ hf

theorem anyM (hp : ∀ a ∈ xs, FailsWith E (p a)) : FailsWith E (xs.anyM p) := by
  induction xs with
  | nil => exact ok _
  | cons x xs ih =>
    refine (hp x (.head _)).bind fun found => ?_
    cases found with
    | true => exact ok true
    | false => exact ih fun a ha => hp a (List.mem_cons_of_mem x ha)

theorem allM (hp : ∀ a, FailsWith E (p a)) : FailsWith E (xs.allM p) := by
  induction xs with
  | nil => exact ok _
  | cons x xs ih =>
    refine (hp x).bind fun holds => ?_
    cases holds with
    | true => exact ih
    | false => exact ok false

end FailsWith

/-! ## Looking things up -/

section

variable {α : Type} {E : Fault → Prop}

theorem entry_failsWith {entity : Entity} {xs : Array α} {i : Nat} (hE : E (.dangling entity i)) :
    FailsWith E (entry entity xs i) := by
  unfold entry
  split
  · exact .ok _
  · exact .error hE

section

variable (hE : ∀ entity i, entity ≠ .variable → E (.dangling entity i))

include hE

namespace Items

variable (items : Items)

theorem traitMethod_failsWith (id : TraitId) (name : String) :
    FailsWith E (items.traitMethod id name) := by
  have hmethods : FailsWith E (items.traitMethods id) :=
    ((entry_failsWith (hE _ _ (by decide))).bind fun _ => .ok _).bind fun _ => .ok _
  exact hmethods.bind fun _ => .ok _

theorem implMethod_failsWith (id : ImplId) (name : String) :
    FailsWith E (items.implMethod id name) := by
  have hmethods : FailsWith E (items.implMethods id) :=
    ((entry_failsWith (hE _ _ (by decide))).bind fun _ => .ok _).bind fun _ => .ok _
  refine (entry_failsWith (hE _ _ (by decide))).bind fun impl => hmethods.bind fun own => ?_
  split
  · exact .ok _
  · split
    · refine (items.traitMethod_failsWith hE _ name).bind fun inherited => ?_
      split
      · exact (entry_failsWith (hE _ _ (by decide))).bind fun _ => .ok _
      · exact .ok _
    · exact .ok _

theorem traitOf_failsWith (id : FnId) : FailsWith E (items.traitOf id) := by
  refine (entry_failsWith (hE _ _ (by decide))).bind fun fn => ?_
  split
  · exact .ok _
  · exact (entry_failsWith (hE _ _ (by decide))).bind fun _ => .ok _
  · exact .ok _

theorem selfTy_failsWith (owner : FnOwner) : FailsWith E (items.selfTy owner) := by
  cases owner with
  | free => exact .ok _
  | impl id => exact (entry_failsWith (hE _ _ (by decide))).bind fun _ => .ok _
  | trait id => exact .ok _

end Items

namespace Body

variable (body : Body)

theorem expr_failsWith (id : ExprId) : FailsWith E (body.expr id) :=
  (entry_failsWith (hE _ _ (by decide))).bind fun _ => .ok _

theorem pat_failsWith (id : PatId) : FailsWith E (body.pat id) :=
  (entry_failsWith (hE _ _ (by decide))).bind fun _ => .ok _

theorem isClosure_failsWith (id : ExprId) : FailsWith E (body.isClosure id) :=
  (body.expr_failsWith hE id).bind fun _ => .ok _

theorem isAncestorOf_failsWith (hexhausted : E .exhausted) (ancestor expr : ExprId) :
    FailsWith E (body.isAncestorOf ancestor expr) := by
  have hclimbs : ∀ n expr, FailsWith E (body.climbsTo ancestor n expr) := by
    intro n
    induction n with
    | zero => exact fun _ => .error hexhausted
    | succ n ih =>
      intro expr
      unfold climbsTo
      split
      · exact .ok true
      · refine ((entry_failsWith (hE _ _ (by decide))).bind fun _ => .ok _).bind fun parent => ?_
        cases parent with
        | some parent => exact ih parent
        | none => exact .ok false
  exact hclimbs _ expr

end Body

end

/-! ## Following values and classes -/

variable (hE : ∀ i, E (.dangling .variable i))

include hE

theorem Vars.Settles.failsWith {Q : Prop} {x : Except Fault α} (h : Vars.Settles Q x) :
    FailsWith E x := by
  rcases h with ⟨a, rfl⟩ | ⟨-, i, rfl⟩
  · exact .ok a
  · exact .error (hE i)

namespace Table

variable {t : Table α}

theorem root_failsWith (hf : t.Forest) (v : Nat) : FailsWith E (t.root v) :=
  (Vars.Settles.root hf v).failsWith hE

theorem value_failsWith (hf : t.Forest) (v : Nat) : FailsWith E (t.value v) :=
  (Vars.Settles.value hf v).failsWith hE

theorem find_failsWith (hf : t.Forest) (v : Nat) : FailsWith E (t.find v) := by
  -- Looking a root up with path compression fails where reading it does.
  have hroot := fst_findWithin (t := t) (t.size + 1) v
  intro e h
  unfold find at h
  rw [h] at hroot
  exact root_failsWith hE hf v e hroot.symm

theorem union_failsWith (hf : t.Forest) (a b : Nat) : FailsWith E (t.union a b) := by
  refine (find_failsWith hE hf a).bind_of_ok ?_
  rintro ⟨ra, t'⟩ ha
  refine (find_failsWith hE ((find_eq_ok ha).2.forest hf) b).bind fun _ => ?_
  exact .ok _

theorem bind_failsWith [BEq α] (hf : t.Forest) (v : Nat) (x : α) : FailsWith E (t.bind v x) :=
  (find_failsWith hE hf v).bind fun _ => .ok _

end Table

namespace Vars

variable {vs vs₀ : Vars} {a b t : Ty} {v : Var}

theorem Sound.head_failsWith (hs : vs.Sound) (t : Ty) : FailsWith E (vs.head t) :=
  (hs.head_settles t).failsWith hE

theorem Sound.resolve_failsWith (hs : vs.Sound) (openVar : Var → Ty) (t : Ty) :
    FailsWith E (t.mapM (vs.resolveNode openVar)) :=
  (hs.resolve_settles openVar t).failsWith hE

theorem Sound.isOpen_failsWith (hs : vs.Sound) (t : Ty) : FailsWith E (vs.isOpen t) :=
  (hs.resolve_failsWith hE .var t).bind fun _ => .ok _

theorem Sound.isAffected_failsWith (hs : vs.Sound) (i : Nat) : FailsWith E (vs.isAffected i) := by
  refine (Table.root_failsWith hE hs.tys i).bind fun r => ?_
  split
  · exact .ok _
  · exact (Table.value_failsWith hE hs.tys i).bind fun _ => .ok _

/-- The occurs check never runs out. -/
theorem Sound.occursIn_failsWith (hs : vs.Sound) (root : Nat) (t : Ty) :
    FailsWith E (vs.occursIn root t) := by
  refine .anyM fun v _ => ?_
  cases v with
  | ty i =>
    by_cases hi : i < vs.tys.size
    · -- The variable alone can be checked, and that is the same check.
      obtain ⟨b, hb, -⟩ := hs.exists_occursIn root (t := .var (.ty i)) fun j hj => by
        cases List.mem_singleton.1 hj
        exact hi
      intro e he
      have hrun : vs.occursIn root (.var (.ty i)) = .error e := by
        rw [occursIn, mentions, Ty.vars_var, List.anyM, he]
        rfl
      rw [hb] at hrun
      cases hrun
    · intro e he
      dsimp only at he
      rw [Table.root_of_size_le (Nat.le_of_not_lt hi)] at he
      cases he
      exact hE i
  | int i | float i => exact .ok _

/-! ## Unification -/

theorem Sound.combineVar_failsWith (hs : vs.Sound) (v : Var) (t : Ty) :
    FailsWith E (combineVar (.ok .unknown) v t vs) := by
  have hgeneral (i : Nat) {t : Ty} (hvar : t.isTyVar = false) :
      FailsWith E (combineVar (.ok .unknown) (.ty i) t vs) := by
    rw [combineVar_general _ i hvar]
    refine (Table.root_failsWith hE hs.tys i).bind fun root => ?_
    refine (hs.occursIn_failsWith hE root t).bind fun cyclic => ?_
    cases cyclic with
    | true => exact (Table.bind_failsWith hE hs.tys root .unknown).bind fun _ => .ok _
    | false => exact (Table.bind_failsWith hE hs.tys root t).bind fun _ => .ok _
  obtain ⟨k, i, rfl⟩ := exists_kind v
  cases linking k t with
  | same k j =>
    rw [combineVar_same]
    exact (Table.union_failsWith hE (hs.forest k) i j).bind fun _ => .ok _
  | general hvar => exact hgeneral i hvar
  | swapped j hk =>
    rw [combineVar_swapped _ hk]
    exact hgeneral j (isTyVar_of_number hk i)
  | number x hk =>
    rw [combineVar_number _ hk]
    exact (Table.bind_failsWith hE (hs.forest k) i x).bind fun _ => .ok _
  | apart hvar hno =>
    rw [combineVar_apart _ hvar (hno i)]
    exact .ok _

end Vars

end

/-! ## Runs that keep an invariant -/

namespace Vars

/-- The run fails with `E` only. If it returns, it has taken steps, `I` holds afterwards, and it
agrees in case `S` holds. -/
structure Safe (E : Fault → Prop) (I : Vars → Prop) (S : Prop) (vs : Vars) (r : Run) : Prop where
  fails : FailsWith E r
  returns : ∀ ⦃ok vs'⦄, r = .ok (ok, vs') → Steps vs vs' ∧ I vs' ∧ (S → ok = true)

/-- What unification needs in order to keep `I`: it goes from types that are related by `Q` to types
that are, and linking a variable keeps `I`. -/
structure Governs (c : Except Fault Ty) (E : Fault → Prop) (I : Vars → Prop) (Q : Ty → Ty → Prop)
    (S : Prop) : Prop where
  tolerant : Tolerant c
  sound : ∀ {vs : Vars}, I vs → vs.Sound
  head : ∀ {vs : Vars} {a b : Ty}, I vs → Q a b →
    FailsWith E (vs.head a) ∧ FailsWith E (vs.head b)
  heads : ∀ {vs : Vars} {a b x y : Ty}, I vs → Q a b → vs.Heads a x → vs.Heads b y → Q x y
  components : ∀ {x y : Ty} {as bs : List Ty}, Q x y → HasTask x y (.components as bs) →
    ∀ {a b : Ty}, (a, b) ∈ as.zip bs → Q a b
  signature : ∀ {x y r s : Ty} {as bs : List Ty}, Q x y → HasTask x y (.signature as bs r s) →
    (∀ {a b : Ty}, (a, b) ∈ as.zip bs → Q a b) ∧ Q r s
  apart : ∀ {x y : Ty}, Q x y → HasTask x y (.decided false) → ¬ S
  link : ∀ {vs : Vars} {x y t : Ty} {v : Var}, I vs → Q x y → HasTask x y (.link v t) →
    vs.Open v → (∀ w, t = .var w → vs.Open w) → FailsWith E (combineVar c v t vs) ∧
      ∀ ok vs', combineVar c v t vs = .ok (ok, vs') → Links c vs v t ok vs' →
        I vs' ∧ (S → ok = true)

variable {c : Except Fault Ty} {E : Fault → Prop} {I : Vars → Prop} {Q : Ty → Ty → Prop} {S : Prop}
  {vs vs₀ : Vars} {a b x y : Ty} {v : Var} {as bs : List Ty} {f : Var → Ty → VarM Bool}
  {act : VarM Bool} {D : Ty → Prop}

namespace Safe

theorem error {e : Fault} (he : E e) : Safe E I S vs (.error e) :=
  ⟨.error he, fun _ _ h => by cases h⟩

theorem pure {ok : Bool} (hI : I vs) (hok : S → ok = true) : Safe E I S vs (.ok (ok, vs)) := by
  refine ⟨.ok _, fun _ _ h => ?_⟩
  cases h
  exact ⟨.refl, hI, hok⟩

theorem bind {k : Bool → VarM Bool} (h : Safe E I S vs (act vs))
    (hk : ∀ ok vs', Steps vs vs' → I vs' → (S → ok = true) → Safe E I S vs' (k ok vs')) :
    Safe E I S vs ((act >>= k) vs) := by
  refine ⟨h.fails.bind_of_ok fun p hrun => ?_, fun ok vs' hrun => ?_⟩
  · obtain ⟨hsteps, hI, hok⟩ := h.returns hrun
    exact (hk p.1 p.2 hsteps hI hok).fails
  · obtain ⟨first, vs₁, hfirst, hrest⟩ := StateT.bind_eq_ok hrun
    obtain ⟨hsteps, hI, hok⟩ := h.returns hfirst
    obtain ⟨hsteps', h'⟩ := (hk first vs₁ hsteps hI hok).returns hrest
    exact ⟨hsteps.trans hsteps', h'⟩

theorem exists_ok {r : Run} (h : Safe (fun _ => False) I S vs r) :
    ∃ ok vs', r = .ok (ok, vs') ∧ Steps vs vs' ∧ I vs' ∧ (S → ok = true) := by
  cases r with
  | error e => exact (h.fails e rfl).elim
  | ok p => exact ⟨p.1, p.2, rfl, h.returns rfl⟩

end Safe

/-- Components are unified one after the other. -/
theorem safe_combineListBy (has : ∀ a ∈ as, ∀ {b vs}, Steps vs₀ vs → I vs → Q a b →
      Safe E I S vs (combineBy c f a b vs))
    (hQ : ∀ {a b : Ty}, (a, b) ∈ as.zip bs → Q a b) (hsteps : Steps vs₀ vs) (hI : I vs) :
    Safe E I S vs (combineListBy c f as bs vs) := by
  induction as generalizing bs vs with
  | nil =>
    simp only [combineListBy]
    exact .pure hI fun _ => rfl
  | cons a as ih =>
    cases bs with
    | nil =>
      simp only [combineListBy]
      exact .pure hI fun _ => rfl
    | cons b bs =>
      simp only [combineListBy]
      refine (has a (.head _) hsteps hI (hQ (.head _))).bind ?_
      intro ok vs₁ hsteps₁ hI₁ hok
      refine (ih (fun x hx => has x (List.mem_cons_of_mem a hx))
        (fun hab => hQ (.tail _ hab)) (hsteps.trans hsteps₁) hI₁).bind ?_
      intro rest vs₂ _ hI₂ hrest
      exact .pure hI₂ fun hS => by rw [hok hS, hrest hS]; rfl

namespace Governs

variable (hG : Governs c E I Q S)

include hG

/-- What two heads ask for keeps the invariant if their components do. -/
theorem runTask {task : Task} (htask : HasTask x y task)
    (hx : ∀ u ∈ x.components, ∀ {b vs}, Steps vs₀ vs → I vs → Q u b →
      Safe E I S vs (combineBy c f u b vs))
    (ha : vs.Heads a x) (hb : vs.Heads b y) (hsteps : Steps vs₀ vs) (hI : I vs) (hQ : Q a b) :
    Safe E I S vs (runTask c f task vs) := by
  have hQ := hG.heads hI hQ ha hb
  cases task with
  | link v t =>
    obtain ⟨hv, ht⟩ := htask.isOpen ha hb
    obtain ⟨hfails, hkeep⟩ := hG.link hI hQ htask hv ht
    refine ⟨hfails, fun ok vs' hrun => ?_⟩
    have hlinks := links_of_combineVar hG.tolerant (hG.sound hI) hv ht hrun
    exact ⟨hlinks.steps, hkeep ok vs' hrun hlinks⟩
  | decided ok =>
    refine .pure hI fun hS => ?_
    cases ok with
    | true => rfl
    | false => exact absurd hS (hG.apart hQ htask)
  | components as bs =>
    exact safe_combineListBy (fun u hu => hx u (htask.mem_components.1 u hu))
      (hG.components hQ htask) hsteps hI
  | signature as bs r s =>
    have has := htask.mem_signature.1
    obtain ⟨hparams, hresult⟩ := hG.signature hQ htask
    refine (safe_combineListBy (fun u hu => hx u (has u (List.mem_append_left _ hu))) hparams hsteps
      hI).bind fun ok vs₁ hsteps₁ hI₁ hok => ?_
    cases ok with
    | true => exact hx r (has r (by simp)) (hsteps.trans hsteps₁) hI₁ hresult
    | false => exact .pure hI₁ hok

theorem combineBy (hf : ∀ v ∈ a.vars, ∀ {b vs}, Steps vs₀ vs → I vs → Q (.var v) b →
      Safe E I S vs (f v b vs))
    (hsteps : Steps vs₀ vs) (hI : I vs) (hQ : Q a b) : Safe E I S vs (combineBy c f a b vs) := by
  induction a using Ty.varInduction generalizing b vs with
  | var v =>
    simp only [Vars.combineBy]
    exact hf v (by simp) hsteps hI hQ
  | node a hnode ih =>
    cases hb : vs.head b with
    | error e =>
      rw [combineBy_of_error hnode hb]
      exact .error ((hG.head hI hQ).2 e hb)
    | ok t =>
      obtain ⟨task, htask⟩ := exists_hasTask a t
      rw [combineBy_run htask hnode hb]
      refine hG.runTask htask (fun u hu => ?_) (.node hnode) (heads_of_head hb) hsteps hI hQ
      exact ih u hu fun v hv => hf v ((Ty.mem_vars_iff hnode).2 ⟨u, hu, hv⟩)

/-- Following a variable keeps the invariant. -/
theorem followWithin {n : Nat} (hI : I vs) (hQ : Q (.var v) b)
    (htrail : ∀ i u, v = .ty i → vs.tys.root i = .ok u → Trail vs.Mentions vs.tys.size n u) :
    Safe E I S vs (followWithin c (n + 1) v b vs) := by
  -- Every variable that is followed from here belongs to a class that the trail has not passed,
  -- in whatever state the components before it have left.
  induction n using Nat.strong_induction_on generalizing v b vs with
  | _ n ih =>
    have hs := hG.sound hI
    cases hv : vs.head (.var v) with
    | error e =>
      rw [followWithin_of_error hv]
      exact .error ((hG.head hI hQ).1 e hv)
    | ok t =>
      cases hb : vs.head b with
      | error e =>
        rw [followWithin_of_other_error hv hb]
        exact .error ((hG.head hI hQ).2 e hb)
      | ok y =>
        have hheads := heads_of_head hv
        obtain ⟨task, htask⟩ := exists_hasTask t y
        rw [followWithin_run htask hv hb]
        refine hG.runTask htask (fun x hx {_ _} hsteps => ?_) hheads (heads_of_head hb) .refl hI hQ
        refine hG.combineBy (fun w hw {b' vs₁} hsteps hI₁ hQ₁ => ?_) hsteps
        have hvar := Ty.isVar_of_mem_components hx
        have hw := (Ty.mem_vars_iff hvar).2 ⟨x, hx, hw⟩
        obtain ⟨i, u, rfl, hu⟩ := hheads.exists_root_of_mem_vars hvar hw
        have hlt := Table.root_lt_size hu
        obtain ⟨m, rfl, hnext⟩ := (htrail i u rfl hu).exists_succ hs.acyclic hlt
        refine ih m (Nat.lt_succ_self m) hI₁ hQ₁ ?_
        rintro j x rfl hx
        obtain ⟨z, hz⟩ := Table.exists_root hs.tys
          ((hsteps.has_iff hs (.ty j)).1 (Table.lt_size_of_root hx))
        -- Steps keep the way from `u` to the class of `j`, though that may have another root now.
        have hreach := hheads.reaches_of_node hvar hu hw hz
        obtain ⟨r, hr, hr'⟩ := (hsteps.grows hs).root _ _ (rootVar_ty.2 hz)
        rw [rootVar_ty.2 hx] at hr
        cases hr
        exact hsteps.trail hs (rootVar_ty.1 hr') (hnext z hreach)

theorem follow (hI : I vs) (hQ : Q (.var v) b) : Safe E I S vs (follow c v b vs) := by
  rw [follow_run]
  exact hG.followWithin hI hQ fun _ _ _ _ => .start (Nat.le_refl _)

/-- So does unification. -/
theorem combineOr (hI : I vs) (hQ : Q a b) : Safe E I S vs (combineOr c a b vs) :=
  hG.combineBy (fun _ _ {_ _} _ hI hQ => hG.follow hI hQ) .refl hI hQ

end Governs

section

variable (hG : Governs (.ok .unknown) E I Q S)

include hG

theorem Governs.combinePairs (hI : I vs) (hQ : ∀ {a b : Ty}, (a, b) ∈ as.zip bs → Q a b) :
    Safe E I S vs (combinePairs as bs vs) :=
  safe_combineListBy (fun _ _ {_ _} _ hI hQ => hG.combineOr hI hQ) hQ .refl hI

theorem Governs.combineTraitRefs {r r' : TraitRef} (hS : ¬ S) (hI : I vs)
    (hQ : ∀ {a b : Ty}, (a, b) ∈ (r.self :: r.args).zip (r'.self :: r'.args) → Q a b) :
    Safe E I S vs (combineTraitRefs r r' vs) := by
  unfold Vars.combineTraitRefs
  split
  · refine (hG.combineOr hI (hQ (.head _))).bind fun ok vs₁ _ hI₁ hok => ?_
    cases ok with
    | true => exact hG.combinePairs hI₁ fun hab => hQ (.tail _ hab)
    | false => exact .pure hI₁ hok
  · exact .pure hI fun h => absurd h hS

end

/-- Unification keeps what linking variables keeps, as long as it stays among the types of which `D`
holds. -/
theorem governs_of_keeps (hcycle : Tolerant c) (hcomponent : Ty.Inherited D)
    (hI : ∀ {vs}, I vs → vs.Sound ∧ Keeps D vs)
    (hhead : ∀ {vs t}, I vs → D t → FailsWith E (vs.head t))
    (hlink : ∀ {vs v t}, I vs → D (.var v) → D t → vs.Open v → (∀ w, t = .var w → vs.Open w) →
      FailsWith E (combineVar c v t vs) ∧ ∀ ok vs', Links c vs v t ok vs' → I vs') :
    Governs c E I (fun a b => D a ∧ D b) False where
  tolerant := hcycle
  sound h := (hI h).1
  head h hQ := ⟨hhead h hQ.1, hhead h hQ.2⟩
  heads h hQ ha hb := ⟨ha.keeps (hI h).2 hQ.1, hb.keeps (hI h).2 hQ.2⟩
  components hQ htask _ _ hab := by
    obtain ⟨has, hbs⟩ := htask.each_components hcomponent hcomponent hQ.1 hQ.2
    exact ⟨has _ (List.of_mem_zip hab).1, hbs _ (List.of_mem_zip hab).2⟩
  signature hQ htask := by
    obtain ⟨⟨has, hbs⟩, hresult⟩ := htask.each_signature hcomponent hcomponent hQ.1 hQ.2
    exact ⟨fun hab => ⟨has _ (List.of_mem_zip hab).1, hbs _ (List.of_mem_zip hab).2⟩, hresult⟩
  apart _ _ := id
  link {_ _ _ t v} h hQ htask hv ht := by
    have hD : D (.var v) ∧ D t := by
      cases htask with
      | left => exact hQ
      | right => exact hQ.symm
    obtain ⟨hfails, hkeep⟩ := hlink h hD.1 hD.2 hv ht
    exact ⟨hfails, fun ok vs' _ hlinks => ⟨hkeep ok vs' hlinks, False.elim⟩⟩

theorem governs_keeps (hunknown : D .unknown) (hcomponent : Ty.Inherited D) :
    Governs (.ok .unknown) (fun _ => True) (fun vs => vs.Sound ∧ Keeps D vs)
      (fun a b => D a ∧ D b) False :=
  governs_of_keeps tolerant_unknown hcomponent id (fun _ _ _ _ => trivial)
    fun ⟨hs, hkeeps⟩ hv ht _ _ => ⟨fun _ _ => trivial, fun _ _ hlinks =>
      ⟨hlinks.steps.sound hs, hlinks.keeps hkeeps hv ht hunknown⟩⟩

/-- Unification of any types keeps variables sound. -/
theorem governs_sound (hE : ∀ i, E (.dangling .variable i)) :
    Governs (.ok .unknown) E Sound (fun _ _ => True) False where
  tolerant := tolerant_unknown
  sound := id
  head hs _ := ⟨hs.head_failsWith hE _, hs.head_failsWith hE _⟩
  heads _ _ _ _ := trivial
  components _ _ _ _ _ := trivial
  signature _ _ := ⟨fun _ => trivial, trivial⟩
  apart _ _ := id
  link hs _ _ _ _ := ⟨hs.combineVar_failsWith hE _ _, fun _ _ _ hlinks =>
    ⟨hlinks.steps.sound hs, False.elim⟩⟩

theorem makesSteps (h : ∀ {vs}, vs.Sound → Safe (fun _ => True) Sound False vs (act vs)) :
    MakesSteps act :=
  fun _ _ _ hs hrun => ((h hs).returns hrun).1

theorem combine_makesSteps (a b : Ty) : MakesSteps (combine a b) :=
  makesSteps fun hs => (governs_sound fun _ => trivial).combineOr hs trivial

theorem combinePairs_makesSteps (as bs : List Ty) : MakesSteps (combinePairs as bs) :=
  makesSteps fun hs => (governs_sound fun _ => trivial).combinePairs hs fun _ => trivial

theorem combineTraitRefs_makesSteps (a b : TraitRef) : MakesSteps (combineTraitRefs a b) :=
  makesSteps fun hs => (governs_sound fun _ => trivial).combineTraitRefs id hs fun _ => trivial

section

variable (hE : ∀ i, E (.dangling .variable i))

include hE

/-- Unification fails with dangling variables only. -/
theorem Sound.combine_failsWith (hs : vs.Sound) (a b : Ty) : FailsWith E (combine a b vs) :=
  ((governs_sound hE).combineOr hs trivial).fails

theorem Sound.combinePairs_failsWith (hs : vs.Sound) (as bs : List Ty) :
    FailsWith E (combinePairs as bs vs) :=
  ((governs_sound hE).combinePairs hs fun _ => trivial).fails

theorem Sound.combineTraitRefs_failsWith (hs : vs.Sound) (a b : TraitRef) :
    FailsWith E (combineTraitRefs a b vs) :=
  ((governs_sound hE).combineTraitRefs id hs fun _ => trivial).fails

end

end Vars

end TypeInference
