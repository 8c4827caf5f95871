import TypeInference.Vars.Basic
import TypeInference.Proofs.Tables
import TypeInference.Proofs.TypeTrees

/-!
# Resolving variables

The classes of general variables form a graph: a bound class refers to the classes of the variables
that its value mentions. Variables are *sound* when this graph is acyclic, their tables are forests
and values mention general variables of the table only. Everything that follows values then ends. It
gives a result for every type that is *grounded*: all variables exist that are met in it.
-/

namespace TypeInference.Vars

variable {n r u i : Nat} {openVar : Var → Ty}

open Relation

variable {vs : Vars} {v w : Var} {t h : Ty}

/-! ## The three tables as one -/

/-- The kinds of variables. -/
inductive Kind where
  | ty
  | int
  | float

namespace Kind

/-- What variables of a kind have for values. -/
def Value : Kind → Type
  | ty => Ty
  | int => IntTy
  | float => FloatTy

instance : (k : Kind) → BEq k.Value
  | ty => inferInstanceAs (BEq Ty)
  | int => inferInstanceAs (BEq IntTy)
  | float => inferInstanceAs (BEq FloatTy)

def var : Kind → Nat → Var
  | ty => .ty
  | int => .int
  | float => .float

def type : (k : Kind) → k.Value → Ty
  | ty => id
  | int => .int
  | float => .float

def table : (k : Kind) → Vars → Table k.Value
  | ty => Vars.tys
  | int => Vars.ints
  | float => Vars.floats

def put : (k : Kind) → Vars → Table k.Value → Vars
  | ty => fun vs tys => { vs with tys }
  | int => fun vs ints => { vs with ints }
  | float => fun vs floats => { vs with floats }

/-- One more variable of a kind. -/
def fresh (k : Kind) (vs : Vars) : Vars := k.put vs (k.table vs).fresh

theorem var_injective (k : Kind) : Function.Injective k.var := by
  intro i j h
  cases k <;> cases h <;> rfl

/-- What holds of the table that is put and of each table and itself holds of all tables. -/
theorem forall_table_put {R : {α : Type} → Table α → Table α → Prop} {k : Kind}
    {tbl : Table k.Value} (hrefl : ∀ {α : Type} (t : Table α), R t t) (h : R (k.table vs) tbl)
    (l : Kind) : R (l.table vs) (l.table (k.put vs tbl)) := by
  cases k <;> cases l <;> first | exact h | exact hrefl _

end Kind

/-- The root of a variable, in the table of its kind. -/
def rootVar (vs : Vars) : Var → Except Fault Var
  | .ty v => do return .ty (← vs.tys.root v)
  | .int v => do return .int (← vs.ints.root v)
  | .float v => do return .float (← vs.floats.root v)

/-- The value of the class of a variable, as a type. -/
def valueOf (vs : Vars) : Var → Except Fault (Option Ty)
  | .ty v => vs.tys.value v
  | .int v => do return (← vs.ints.value v).map .int
  | .float v => do return (← vs.floats.value v).map .float

/-- The variable is in the table of its kind. -/
def Has (vs : Vars) : Var → Prop
  | .ty v => v < vs.tys.size
  | .int v => v < vs.ints.size
  | .float v => v < vs.floats.size

/-- The variable occurs in the type, or in the values of variables that do, and so on. -/
inductive Meets (vs : Vars) : Ty → Var → Prop
  | here {t : Ty} {v : Var} : v ∈ t.vars → Meets vs t v
  | through {t u : Ty} {v w : Var} : w ∈ t.vars → vs.valueOf w = .ok (some u) → Meets vs u v →
    Meets vs t v

/-- All variables that are met in the type exist. -/
def Grounded (vs : Vars) (t : Ty) : Prop := ∀ v, vs.Meets t v → vs.Has v

/-- The variable represents its class, which has no value. -/
def Open (vs : Vars) (v : Var) : Prop := vs.rootVar v = .ok v ∧ vs.valueOf v = .ok none

/-- The class of `u` has a value that mentions a variable of the class of `w`. Classes are named by
their roots. -/
def Mentions (vs : Vars) (u w : Nat) : Prop :=
  ∃ t v, vs.tys.root u = .ok u ∧ vs.tys.stored? u = some t ∧ .ty v ∈ t.vars ∧
    vs.tys.root v = .ok w

/-- What holds of the variables at all times. -/
structure Sound (vs : Vars) : Prop where
  tys : vs.tys.Forest
  ints : vs.ints.Forest
  floats : vs.floats.Forest
  inRange : ∀ u t v, vs.tys.root u = .ok u → vs.tys.stored? u = some t → .ty v ∈ t.vars →
    v < vs.tys.size
  acyclic : Acyclic vs.Mentions

variable {k : Kind}

theorem exists_kind (v : Var) : ∃ k i, v = Kind.var k i := by
  cases v with
  | ty i => exact ⟨.ty, i, rfl⟩
  | int i => exact ⟨.int, i, rfl⟩
  | float i => exact ⟨.float, i, rfl⟩

theorem rootVar_eq (k : Kind) (vs : Vars) (i : Nat) :
    vs.rootVar (k.var i) = ((k.table vs).root i).map k.var := by
  cases k <;> exact Except.bind_pure_eq_map ..

theorem valueOf_eq (k : Kind) (vs : Vars) (i : Nat) :
    vs.valueOf (k.var i) = ((k.table vs).value i).map (·.map k.type) := by
  cases k with
  | ty =>
    show vs.tys.value i = (vs.tys.value i).map (·.map id)
    cases vs.tys.value i <;> simp [Except.map]
  | int | float => exact Except.bind_pure_eq_map ..

theorem has_iff : vs.Has (k.var i) ↔ i < (k.table vs).size := by cases k <;> rfl

theorem Sound.forest (hs : vs.Sound) (k : Kind) : (k.table vs).Forest := by
  cases k with
  | ty => exact hs.tys
  | int => exact hs.ints
  | float => exact hs.floats

theorem rootVar_cases (h : vs.rootVar v = .ok w) :
    ∃ k i r, v = Kind.var k i ∧ w = Kind.var k r ∧ (k.table vs).root i = .ok r := by
  obtain ⟨k, i, rfl⟩ := exists_kind v
  rw [rootVar_eq] at h
  obtain ⟨r, hr, rfl⟩ := Except.map_eq_ok h
  exact ⟨k, i, r, rfl, rfl, hr⟩

theorem rootVar_iff : vs.rootVar (k.var i) = .ok (k.var r) ↔ (k.table vs).root i = .ok r := by
  rw [rootVar_eq]
  cases (k.table vs).root i <;> simp [Except.map, k.var_injective.eq_iff]

theorem rootVar_ty {v : Nat} : vs.rootVar (.ty v) = .ok (.ty r) ↔ vs.tys.root v = .ok r :=
  rootVar_iff (k := .ty)

/-- A root is its own root. -/
theorem rootVar_rootVar (h : vs.rootVar v = .ok w) : vs.rootVar w = .ok w := by
  obtain ⟨k, i, r, rfl, rfl, hr⟩ := rootVar_cases h
  exact rootVar_iff.2 (Table.root_root hr)

theorem has_of_rootVar (h : vs.rootVar v = .ok w) : vs.Has v := by
  obtain ⟨k, i, r, rfl, rfl, hr⟩ := rootVar_cases h
  exact has_iff.2 (Table.lt_size_of_root hr)

/-- A variable has the value of its root. -/
theorem valueOf_rootVar (h : vs.rootVar v = .ok w) : vs.valueOf w = vs.valueOf v := by
  obtain ⟨k, i, r, rfl, rfl, hr⟩ := rootVar_cases h
  rw [valueOf_eq, valueOf_eq, Table.value_eq hr, Table.value_eq (Table.root_root hr)]

theorem exists_rootVar_of_valueOf {x : Option Ty} (h : vs.valueOf v = .ok x) :
    ∃ r, vs.rootVar v = .ok r := by
  obtain ⟨k, i, rfl⟩ := exists_kind v
  rw [valueOf_eq] at h
  obtain ⟨x, hx, -⟩ := Except.map_eq_ok h
  obtain ⟨r, hr, -⟩ := Table.value_eq_ok_iff.1 hx
  exact ⟨_, rootVar_iff.2 hr⟩

theorem exists_valueOf_of_rootVar (h : vs.rootVar v = .ok w) : ∃ x, vs.valueOf v = .ok x := by
  obtain ⟨k, i, r, rfl, rfl, hr⟩ := rootVar_cases h
  rw [valueOf_eq, Table.value_eq hr]
  exact ⟨_, rfl⟩

theorem valueOf_cases (h : vs.valueOf v = .ok (some t)) :
    (∃ i u, v = .ty i ∧ vs.tys.root i = .ok u ∧ vs.tys.stored? u = some t) ∨
    (∃ i k, v = .int i ∧ t = .int k) ∨ (∃ i k, v = .float i ∧ t = .float k) := by
  cases v with
  | ty i =>
    obtain ⟨u, hu, hstored⟩ := Table.value_eq_ok_iff.1 h
    exact .inl ⟨i, u, rfl, hu, hstored⟩
  | int i | float i =>
    obtain ⟨_ | k, -, hx⟩ := Except.bind_eq_ok h
    · cases hx
    · cases hx
      simp

theorem exists_root_of_valueOf (h : vs.valueOf v = .ok (some t)) (hw : w ∈ t.vars) :
    ∃ i u, v = .ty i ∧ vs.tys.root i = .ok u ∧ vs.tys.stored? u = some t := by
  rcases valueOf_cases h with hgeneral | ⟨_, _, -, rfl⟩ | ⟨_, _, -, rfl⟩
  · exact hgeneral
  · cases hw
  · cases hw

theorem mentions_of_valueOf {v w x : Nat} (hv : vs.tys.root v = .ok u)
    (ht : vs.valueOf (.ty v) = .ok (some t)) (hw : .ty w ∈ t.vars) (hx : vs.tys.root w = .ok x) :
    vs.Mentions u x := by
  rw [valueOf, Table.value_eq hv] at ht
  exact ⟨t, w, Table.root_root hv, Except.ok.inj ht, hw, hx⟩

theorem Sound.lt_size_of_valueOf (hs : vs.Sound) {w : Nat}
    (ht : vs.valueOf v = .ok (some t)) (hw : .ty w ∈ t.vars) : w < vs.tys.size := by
  obtain ⟨i, u, rfl, hu, hstored⟩ := exists_root_of_valueOf ht hw
  exact hs.inRange u t w (Table.root_root hu) hstored hw

theorem Sound.exists_rootVar (hs : vs.Sound) (hv : vs.Has v) : ∃ r, vs.rootVar v = .ok r := by
  obtain ⟨k, i, rfl⟩ := exists_kind v
  obtain ⟨r, hr⟩ := Table.exists_root (hs.forest k) (has_iff.1 hv)
  exact ⟨_, rootVar_iff.2 hr⟩

/-! ## Types whose variables exist -/

theorem has_of_valueOf {x : Option Ty} (h : vs.valueOf v = .ok x) : vs.Has v := by
  obtain ⟨r, hr⟩ := exists_rootVar_of_valueOf h
  exact has_of_rootVar hr

theorem Grounded.has (h : vs.Grounded (.var v)) : vs.Has v := h v (.here (by simp))

/-- A type is grounded if its variables are. -/
theorem grounded_iff : vs.Grounded t ↔ ∀ v ∈ t.vars, vs.Grounded (.var v) := by
  constructor
  · intro h v hv w hw
    cases hw with
    | here hw =>
      rw [Ty.vars_var, List.mem_singleton] at hw
      exact h w (.here (hw ▸ hv))
    | through hu hvalue hw =>
      rw [Ty.vars_var, List.mem_singleton] at hu
      exact h w (.through (hu ▸ hv) hvalue hw)
  · intro h w hw
    cases hw with
    | here hw => exact (h w hw).has
    | through hu hvalue hw => exact h _ hu w (.through (by simp) hvalue hw)

/-- A bound variable is grounded if its value is. -/
theorem grounded_of_valueOf (hvalue : vs.valueOf v = .ok (some t)) :
    vs.Grounded (.var v) ↔ vs.Grounded t := by
  constructor
  · intro h w hw
    exact h w (.through (by simp) hvalue hw)
  · intro h w hw
    cases hw with
    | here hw =>
      rw [Ty.vars_var, List.mem_singleton] at hw
      exact hw ▸ has_of_valueOf hvalue
    -- The variable has one value, so what it meets further on is met there.
    | through hu hvalue' hw =>
      rw [Ty.vars_var, List.mem_singleton] at hu
      rw [hu, hvalue] at hvalue'
      cases hvalue'
      exact h w hw

theorem grounded_of_unbound (hvalue : vs.valueOf v = .ok none) : vs.Grounded (.var v) := by
  intro w hw
  cases hw with
  | here hw =>
    rw [Ty.vars_var, List.mem_singleton] at hw
    exact hw ▸ has_of_valueOf hvalue
  | through hu hvalue' _ =>
    rw [Ty.vars_var, List.mem_singleton] at hu
    rw [hu, hvalue] at hvalue'
    cases hvalue'

/-! ## What a variable stands for at the outermost level -/

/-- Following values as long as they are variables leads from a type to another. -/
inductive Heads (vs : Vars) : Ty → Ty → Prop
  | node {t : Ty} : t.isVar = false → Heads vs t t
  | bound {v : Var} {t h : Ty} : vs.valueOf v = .ok (some t) → Heads vs t h → Heads vs (.var v) h
  | unbound {v r : Var} : vs.valueOf v = .ok none → vs.rootVar v = .ok r →
    Heads vs (.var v) (.var r)

/-- What is found by following values is what they lead to. -/
theorem heads_of_headWithin (hn : vs.headWithin n t = .ok h) : vs.Heads t h := by
  induction n generalizing t with
  | zero => cases hn
  | succ n ih =>
    cases t with
    | var v =>
      cases v with
      | ty v =>
        obtain ⟨x, hx, hn⟩ := Except.bind_eq_ok hn
        cases x with
        | some t => exact .bound hx (ih hn)
        | none =>
          obtain ⟨r, hr, ⟨⟩⟩ := Except.bind_eq_ok hn
          exact .unbound hx (rootVar_ty.2 hr)
      | int v | float v =>
        obtain ⟨x, hx, hn⟩ := Except.bind_eq_ok hn
        cases x with
        | some k =>
          cases hn
          exact .bound (by rw [valueOf, hx]; rfl) (.node rfl)
        | none =>
          obtain ⟨r, hr, ⟨⟩⟩ := Except.bind_eq_ok hn
          exact .unbound (by rw [valueOf, hx]; rfl) (by rw [rootVar, hr]; rfl)
    | _ =>
      cases hn
      exact .node rfl

theorem heads_of_head (hh : vs.head t = .ok h) : vs.Heads t h := heads_of_headWithin hh

namespace Heads

/-- A variable at the end is open. -/
theorem isOpen (hh : vs.Heads t (.var v)) : vs.Open v := by
  generalize ht : Ty.var v = u at hh
  induction hh with
  | node hnode =>
    rw [← ht] at hnode
    cases hnode
  | bound _ _ ih => exact ih ht
  | unbound hvalue hroot =>
    cases ht
    exact ⟨rootVar_rootVar hroot, (valueOf_rootVar hroot).trans hvalue⟩

/-- Every class that is mentioned at the end is mentioned at the start, or by values on the way. -/
theorem reaches (hh : vs.Heads t h) {w x : Nat} (hw : .ty w ∈ h.vars) (hx : vs.tys.root w = .ok x) :
    ∃ v u, .ty v ∈ t.vars ∧ vs.tys.root v = .ok u ∧ ReflTransGen vs.Mentions u x := by
  -- Each value on the way adds one reference in front.
  induction hh with
  | node _ => exact ⟨w, x, hw, hx, .refl⟩
  | @bound v t h hvalue _ ih =>
    obtain ⟨v', u', hv', hu', hreach⟩ := ih hw
    obtain ⟨i, u, rfl, hu, -⟩ := exists_root_of_valueOf hvalue hv'
    exact ⟨i, u, by simp, hu, .head (mentions_of_valueOf hu hvalue hv' hu') hreach⟩
  | @unbound v r _ hroot =>
    rw [Ty.vars_var, List.mem_singleton] at hw
    subst hw
    obtain ⟨k, i, r, rfl, hr, hi⟩ := rootVar_cases hroot
    cases k with
    | int | float => cases hr
    | ty =>
      cases hr
      cases (Table.root_root hi).symm.trans hx
      exact ⟨i, w, by simp [Kind.var], hi, .refl⟩

theorem reaches_of_node (hh : vs.Heads (.var (.ty i)) h) (hnode : h.isVar = false)
    (hi : vs.tys.root i = .ok u) {w x : Nat} (hw : .ty w ∈ h.vars) (hx : vs.tys.root w = .ok x) :
    TransGen vs.Mentions u x := by
  cases hh with
  | node hvar => cases hvar
  | bound hvalue hrest =>
    obtain ⟨v', u', hv', hu', hreach⟩ := hrest.reaches hw hx
    exact .head' (mentions_of_valueOf hi hvalue hv' hu') hreach
  | unbound _ _ => cases hnode

theorem exists_root_of_mem_vars (hh : vs.Heads (.var v) h) (hnode : h.isVar = false)
    (hw : w ∈ h.vars) : ∃ i u, v = .ty i ∧ vs.tys.root i = .ok u := by
  cases hh with
  | node hvar => cases hvar
  | unbound _ _ => cases hnode
  | bound hvalue hrest =>
    rcases valueOf_cases hvalue with ⟨i, u, rfl, hu, -⟩ | ⟨i, k, rfl, rfl⟩ | ⟨i, k, rfl, rfl⟩
    · exact ⟨i, u, rfl, hu⟩
    · cases hrest
      cases hw
    · cases hrest
      cases hw

theorem grounded_iff (hh : vs.Heads t h) : vs.Grounded t ↔ vs.Grounded h := by
  induction hh with
  | node _ => exact Iff.rfl
  | bound hvalue _ ih => exact (grounded_of_valueOf hvalue).trans ih
  | unbound hvalue hroot =>
    have hvalue' := (valueOf_rootVar hroot).trans hvalue
    exact iff_of_true (grounded_of_unbound hvalue) (grounded_of_unbound hvalue')

end Heads

/-! ## Computations that only fail for want of a variable -/

/-- The computation gives a result, or names a variable that does not exist, which cannot be if
`Q` holds. -/
def Settles {α : Type} (Q : Prop) (x : Except Fault α) : Prop :=
  (∃ a, x = .ok a) ∨ ¬ Q ∧ ∃ i, x = .error (.dangling .variable i)

namespace Settles

variable {α β : Type} {Q Q' : Prop} {x : Except Fault α}

theorem ok (a : α) : Settles Q (.ok a) := Or.inl ⟨a, rfl⟩

theorem bind {f : α → Except Fault β} (hx : Settles Q x) (hf : ∀ a, x = .ok a → Settles Q (f a)) :
    Settles Q (x >>= f) := by
  rcases hx with ⟨a, rfl⟩ | ⟨hQ, i, rfl⟩
  · exact hf a rfl
  · exact .inr ⟨hQ, i, rfl⟩

theorem mono (hQ : Q → Q') (hx : Settles Q' x) : Settles Q x :=
  hx.imp id fun h => ⟨fun hq => h.1 (hQ hq), h.2⟩

theorem exists_ok (hx : Settles Q x) (hQ : Q) : ∃ a, x = .ok a :=
  hx.resolve_right fun h => h.1 hQ

theorem mapM_onVar {g : Var → Except Fault Ty} (hg : ∀ v ∈ t.vars, Settles Q (g v)) :
    Settles Q (t.mapM (Ty.onVar g)) :=
  Ty.mapM_onVar_closed (P := Settles Q) ⟨ok, fun hx hk => hx.bind fun a _ => hk a⟩ hg

theorem root {t : Table α} (hf : t.Forest) (v : Nat) : Settles (v < t.size) (t.root v) := by
  by_cases hv : v < t.size
  · exact .inl (Table.exists_root hf hv)
  · exact .inr ⟨hv, v, Table.root_of_size_le (Nat.le_of_not_lt hv)⟩

theorem value {t : Table α} (hf : t.Forest) (v : Nat) : Settles (v < t.size) (t.value v) :=
  (root hf v).bind fun _ _ => .ok _

end Settles

/-- Following values ends, for each class on the way is another one. -/
theorem Sound.headWithin_settles (hs : vs.Sound)
    (htrail : ∀ i u, t = .var (.ty i) → vs.tys.root i = .ok u →
      Trail vs.Mentions vs.tys.size n u) : Settles (vs.Grounded t) (vs.headWithin (n + 1) t) := by
  -- Only general variables lead on, each to a class that the trail has not passed.
  induction n using Nat.strong_induction_on generalizing t with
  | _ n ih =>
    cases t with
    | var v =>
      have hscope : vs.Grounded (.var v) → vs.Has v := Grounded.has
      cases v with
      | ty i =>
        refine ((Settles.value hs.tys i).mono hscope).bind ?_
        intro x hx
        obtain ⟨u, hu, hstored⟩ := Table.value_eq_ok_iff.1 hx
        cases x with
        | none => exact ((Settles.root hs.tys i).mono hscope).bind fun _ _ => .ok _
        | some t =>
          have hlt := Table.root_lt_size hu
          obtain ⟨m, rfl, hnext⟩ := (htrail i u rfl hu).exists_succ hs.acyclic hlt
          refine (ih m (Nat.lt_succ_self m) ?_).mono (grounded_of_valueOf (v := .ty i) hx).1
          rintro j u' rfl hu'
          exact hnext u' (.single (mentions_of_valueOf hu hx (by simp) hu'))
      | int i | float i =>
        refine ((Settles.value (by first | exact hs.ints | exact hs.floats) i).mono hscope).bind ?_
        intro x _
        cases x with
        | some k => exact .ok _
        | none =>
          refine ((Settles.root (by first | exact hs.ints | exact hs.floats) i).mono hscope).bind ?_
          exact fun _ _ => .ok _
    | _ => exact .ok _

theorem Sound.head_settles (hs : vs.Sound) (t : Ty) : Settles (vs.Grounded t) (vs.head t) :=
  hs.headWithin_settles fun _ _ _ _ => .start (Nat.le_refl _)

/-! ## The occurs check -/

/-- A type mentions a class, itself or through values. -/
def Occurs (vs : Vars) (root : Nat) (t : Ty) : Prop :=
  ∃ v u, .ty v ∈ t.vars ∧ vs.tys.root v = .ok u ∧ ReflTransGen vs.Mentions u root

theorem reaches_iff {root : Nat} (hu : vs.tys.root i = .ok u) : ReflTransGen vs.Mentions u root ↔
      u = root ∨ ∃ t, vs.tys.stored? u = some t ∧ vs.Occurs root t := by
  constructor
  · intro hreach
    rcases ReflTransGen.cases_head hreach with heq | ⟨x, ⟨t, w, -, ht, hw, hx⟩, hrest⟩
    · exact .inl heq
    · exact .inr ⟨t, ht, w, x, hw, hx, hrest⟩
  · rintro (rfl | ⟨t, ht, w, x, hw, hx, hrest⟩)
    · exact .refl
    · exact .head ⟨t, w, Table.root_root hu, ht, hw, hx⟩ hrest

/-- The occurs check gives the right answer. -/
theorem Sound.exists_mentions (hs : vs.Sound) {root : Nat}
    (ht : ∀ v, .ty v ∈ t.vars → v < vs.tys.size)
    (htrail : ∀ v u, .ty v ∈ t.vars → vs.tys.root v = .ok u →
      Trail vs.Mentions vs.tys.size n u) :
    ∃ b, vs.mentions root (n + 1) t = .ok b ∧ (b = true ↔ vs.Occurs root t) := by
  induction n using Nat.strong_induction_on generalizing t with
  | _ n ih =>
    -- Whether a type mentions a class is decided variable by variable.
    have hoccurs : vs.Occurs root t ↔ ∃ v ∈ t.vars, vs.Occurs root (.var v) := by
      simp only [Occurs, Ty.vars_var, List.mem_singleton]
      constructor
      · rintro ⟨i, u, hi, hu, hreach⟩
        exact ⟨_, hi, i, u, rfl, hu, hreach⟩
      · rintro ⟨_, hi, i, u, rfl, hu, hreach⟩
        exact ⟨i, u, hi, hu, hreach⟩
    rw [hoccurs, mentions]
    apply Except.exists_anyM_eq_ok
    intro v hv
    cases v with
    | int i | float i => exact ⟨false, rfl, by simp [Occurs]⟩
    | ty i =>
      obtain ⟨u, hu⟩ := Table.exists_root hs.tys (ht i hv)
      have hlt := Table.root_lt_size hu
      have hvar : vs.Occurs root (.var (.ty i)) ↔
          u = root ∨ ∃ t, vs.tys.stored? u = some t ∧ vs.Occurs root t := by
        rw [← reaches_iff hu]
        simp [Occurs, hu]
      simp only [hvar, hu, Table.value_eq hu, Except.ok_bind]
      -- A variable mentions its own class, and what its value mentions.
      by_cases hroot : u = root
      · rw [if_pos hroot]
        exact ⟨true, rfl, by simp [hroot]⟩
      · rw [if_neg hroot]
        cases hstored : vs.tys.stored? u with
        | none => exact ⟨false, rfl, by simp [hroot]⟩
        | some t' =>
          obtain ⟨m, rfl, hnext⟩ := (htrail i u hv hu).exists_succ hs.acyclic hlt
          have hvalue : vs.valueOf (.ty i) = .ok (some t') := by
            rw [valueOf, Table.value_eq hu, hstored]
          obtain ⟨b, hb, hiff⟩ := ih m (Nat.lt_succ_self m)
            (fun w hw => hs.lt_size_of_valueOf hvalue hw)
            (fun w x hw hx => hnext x (.single (mentions_of_valueOf hu hvalue hw hx)))
          exact ⟨b, hb, by simp [hiff, hroot]⟩

theorem Sound.exists_occursIn (hs : vs.Sound) (root : Nat)
    (ht : ∀ v, .ty v ∈ t.vars → v < vs.tys.size) :
    ∃ b, vs.occursIn root t = .ok b ∧ (b = true ↔ vs.Occurs root t) :=
  hs.exists_mentions ht fun _ _ _ _ => .start (Nat.le_refl _)

theorem lt_size_of_occursIn {root : Nat} (h : vs.occursIn root t = .ok false) (hi : .ty i ∈ t.vars) :
    i < vs.tys.size := by
  have hvar := Except.eq_ok_false_of_anyM h (.ty i) hi
  obtain ⟨u, hu, -⟩ := Except.bind_eq_ok hvar
  exact Table.lt_size_of_root hu

theorem Sound.not_occurs (hs : vs.Sound) {root : Nat} (h : vs.occursIn root t = .ok false) :
    ¬ vs.Occurs root t := by
  obtain ⟨b, hb, hiff⟩ := hs.exists_occursIn root fun i hi => lt_size_of_occursIn h hi
  rw [h] at hb
  cases hb
  simpa using hiff

/-! ## Resolution ends -/

theorem resolveVar_succ (openVar : Var → Ty) (n : Nat) (v : Var) :
    vs.resolveVar openVar (n + 1) v = (do
      match ← vs.head (.var v) with
      | .var root => return openVar root
      | t => t.mapM (Ty.onVar (vs.resolveVar openVar n))) := rfl

/-- Resolving a variable ends, for each class on the way is another one. -/
theorem Sound.resolveVar_settles (hs : vs.Sound) (openVar : Var → Ty)
    (htrail : ∀ i u, v = .ty i → vs.tys.root i = .ok u → Trail vs.Mentions vs.tys.size n u) :
    Settles (vs.Grounded (.var v)) (vs.resolveVar openVar (n + 1) v) := by
  induction n using Nat.strong_induction_on generalizing v with
  | _ n ih =>
    rw [resolveVar_succ]
    refine (hs.head_settles (.var v)).bind ?_
    intro h hh
    have hheads := heads_of_head hh
    cases hvar : h.isVar with
    | true =>
      cases h with
      | var r => exact .ok _
      | _ => cases hvar
    | false =>
      -- The variables inside the head belong to classes that the trail has not passed.
      have hmap : Settles (vs.Grounded (.var v))
          (h.mapM (Ty.onVar (vs.resolveVar openVar n))) := by
        refine .mapM_onVar ?_
        intro x hx
        obtain ⟨i, u, rfl, hu⟩ := hheads.exists_root_of_mem_vars hvar hx
        have hlt := Table.root_lt_size hu
        obtain ⟨m, rfl, hnext⟩ := (htrail i u rfl hu).exists_succ hs.acyclic hlt
        refine (ih m (Nat.lt_succ_self m) ?_).mono
          fun hQ => grounded_iff.1 (hheads.grounded_iff.1 hQ) x hx
        rintro j u' rfl hu'
        exact hnext u' (hheads.reaches_of_node hvar hu hx hu')
      cases h with
      | var r => cases hvar
      | _ => exact hmap

theorem resolveNode_eq (openVar : Var → Ty) :
    vs.resolveNode openVar = Ty.onVar (vs.resolveVar openVar (vs.tys.size + 1)) := by
  funext t
  cases t <;> rfl

theorem Sound.resolve_settles (hs : vs.Sound) (openVar : Var → Ty) (t : Ty) :
    Settles (vs.Grounded t) (t.mapM (vs.resolveNode openVar)) := by
  rw [resolveNode_eq]
  refine .mapM_onVar ?_
  intro v hv
  exact (hs.resolveVar_settles openVar fun _ _ _ _ => .start (Nat.le_refl _)).mono
    fun hQ => grounded_iff.1 hQ v hv

/-- What a resolved variable is made of: its head, with the variables in it resolved. -/
theorem resolveVar_eq_ok {r : Ty} (hr : vs.resolveVar openVar (n + 1) v = .ok r) :
    (∃ w, vs.Heads (.var v) (.var w) ∧ r = openVar w) ∨
    ∃ h σ, vs.Heads (.var v) h ∧ h.isVar = false ∧
      (∀ w ∈ h.vars, vs.resolveVar openVar n w = .ok (σ w)) ∧ h.assign σ = r := by
  rw [resolveVar_succ] at hr
  obtain ⟨h, hh, hr⟩ := Except.bind_eq_ok hr
  have hheads := heads_of_head hh
  cases h with
  | var w => exact .inl ⟨w, hheads, (Except.ok.inj hr).symm⟩
  | _ =>
    obtain ⟨σ, hσ, hr⟩ := Ty.mapM_onVar_eq_ok_iff.1 hr
    exact .inr ⟨_, σ, hheads, rfl, hσ, hr⟩

theorem grounded_of_resolveVar {r : Ty} (hr : vs.resolveVar openVar n v = .ok r) :
    vs.Grounded (.var v) := by
  -- A resolved variable has a head, and everything in the head was resolved in turn.
  induction n generalizing v r with
  | zero => cases hr
  | succ n ih =>
    rcases resolveVar_eq_ok hr with ⟨w, hheads, -⟩ | ⟨h, σ, hheads, -, hσ, -⟩
    · exact hheads.grounded_iff.2 (grounded_of_unbound hheads.isOpen.2)
    · exact hheads.grounded_iff.2 (grounded_iff.2 fun w hw => ih (hσ w hw))

/-- Only grounded types resolve. -/
theorem grounded_of_resolve {r : Ty} (hr : t.mapM (vs.resolveNode openVar) = .ok r) :
    vs.Grounded t := by
  rw [resolveNode_eq] at hr
  obtain ⟨σ, hσ, -⟩ := Ty.mapM_onVar_eq_ok_iff.1 hr
  exact grounded_iff.2 fun v hv => grounded_of_resolveVar (hσ v hv)

end TypeInference.Vars
