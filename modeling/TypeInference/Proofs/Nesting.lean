import TypeInference.Proofs.Interruptions

/-!
# Bodies inside bodies

A constant without a declared type is inferred inside the body that uses it, so inferences nest. The
session keeps a stack of the bodies that are being inferred. What is done `n` levels down can be
replaced by something else (`Session.inferOver`), and the replacement is only ever called with `n`
more bodies on the stack, all of them different (`Session.Deeper`). So there are at most as many
levels as there are bodies, and the bound on the recursion is never met.
-/

namespace TypeInference

/-! ## Computations that do the same -/

namespace SessionM

variable {α β : Type} {stack : List Owner}

/-- As long as the bodies on `stack` are being inferred, both computations do the same, and they
leave the stack as it is. -/
def Same (stack : List Owner) (x y : SessionM α) : Prop :=
  ∀ σ, σ.running = stack → x σ = y σ ∧ (x σ).2.running = stack

namespace Same

variable {x y : SessionM α} {f g : α → SessionM β}

theorem of_running (hx : ∀ σ, (x σ).2.running = σ.running) : Same stack x x :=
  fun σ hσ => ⟨rfl, (hx σ).trans hσ⟩

theorem bindOf (hx : Same stack x y) (hf : ∀ σ a σ', x σ = (.ok a, σ') → Same stack (f a) (g a)) :
    Same stack (x >>= f) (y >>= g) := by
  intro σ hσ
  obtain ⟨heq, hrunning⟩ := hx σ hσ
  rw [bind_run, bind_run, ← heq]
  rcases hrun : x σ with ⟨e | a, σ₁⟩ <;> rw [hrun] at hrunning
  · exact ⟨rfl, hrunning⟩
  · exact hf σ a σ₁ hrun σ₁ hrunning

theorem bind (hx : Same stack x y) (hf : ∀ a, Same stack (f a) (g a)) :
    Same stack (x >>= f) (y >>= g) :=
  hx.bindOf fun _ a _ _ => hf a

theorem symm (h : Same stack x y) : Same stack y x := by
  intro σ hσ
  obtain ⟨heq, hrunning⟩ := h σ hσ
  exact ⟨heq.symm, heq ▸ hrunning⟩

theorem trans {z : SessionM α} (h : Same stack x y) (h' : Same stack y z) : Same stack x z := by
  intro σ hσ
  obtain ⟨heq, hrunning⟩ := h σ hσ
  exact ⟨heq.trans (h' σ hσ).1, hrunning⟩

end Same

end SessionM

namespace Walk

variable {α : Type} {stack : List Owner} {body : Body}

/-- The walks do the same in every scope of the body. -/
def Same (stack : List Owner) (body : Body) (x y : Walk α) : Prop :=
  ∀ (scope : Scope) (w : WalkState), scope.body = body →
    SessionM.Same stack (x.go scope w) (y.go scope w)

theorem Same.of_interruptible {x : Walk α} (hx : Interruptible body x) : Same stack body x x :=
  fun scope w hbody => .of_running (hx scope w hbody).running

theorem Same.session {x y : SessionM α} (h : SessionM.Same stack x y) :
    Same stack body (liftM x : Walk α) (liftM y) := by
  intro scope w _
  rw [go_session, go_session]
  exact h.bind fun _ => .of_running fun _ => rfl

/-- Walks with constants that do the same do the same. -/
theorem Same.congruence : Congruence body (fun _ => True) (Same stack body) where
  toInferring := .of_lift fun x => .of_interruptible (.lift x)
  pure a := .of_interruptible (.pure a)
  bindOf hx hf scope w hbody := by
    rw [go_bind, go_bind]
    refine SessionM.Same.bindOf (hx scope w hbody) ?_
    rintro σ ⟨a, w₁⟩ σ' hrun
    exact hf a ⟨scope, w, w₁, σ, σ', hbody, hrun⟩ scope w₁ hbody
  scopeBind _ _ hf scope w hbody := hf scope hbody scope w hbody
  exhausted := .of_interruptible (.throw nofun)
  lookUpPath id := .of_interruptible (.lookUpPath id)
  checkCancelled := .of_interruptible (.session .checkCancelled)
  jumps := .of_interruptible .jumps
  setYielded ty _ := .of_interruptible (.setYielded ty)
  inside b _ hx scope w hbody := by
    rw [inside_run, inside_run]
    exact (hx scope _ hbody).bind fun _ => .of_running fun _ => rfl

end Walk

/-! ## Levels -/

namespace Session

variable (s : Session) {owner : Owner} {const' const : ConstId → SessionM Ty}

/-- The owners of the bodies, each once. -/
def owners : List Owner := (s.program.bodies.map (·.1)).dedup

/-- On top of `stack` there are `n` more bodies, and all are different. -/
structure Deeper (n : Nat) (stack deeper : List Owner) : Prop where
  nodup : deeper.Nodup
  added : ∃ added : List Owner, deeper = added ++ stack ∧ added.length = n ∧ added ⊆ s.owners

/-- Infers a body, and leaves what is `n` levels down to `below`. -/
def inferOver (below : Owner → SessionM Outcome) : Nat → Owner → SessionM Outcome
  | 0, owner => below owner
  | n + 1, owner => s.start (fun id => s.rootTy id (inferOver below n (.const id))) owner

variable {s} {stack deeper : List Owner} {n : Nat}

theorem mem_owners {found : Body × Names} (h : s.program.body? owner = some found) :
    owner ∈ s.owners := by
  obtain ⟨⟨o, rest⟩, hfind, -⟩ := Option.map_eq_some_iff.1 h
  have howner : o = owner := by simpa using List.find?_some hfind
  rw [owners, List.mem_dedup, ← howner]
  exact List.mem_map.2 ⟨_, List.mem_of_find?_eq_some hfind, rfl⟩

theorem Deeper.le_length (h : s.Deeper n stack deeper) : n ≤ s.owners.length := by
  obtain ⟨added, rfl, rfl, hsubset⟩ := h.added
  have hnodup : added.Nodup := h.nodup.of_append_left
  exact (hnodup.subperm hsubset).length_le

theorem Deeper.zero (h : stack.Nodup) : s.Deeper 0 stack stack := ⟨h, [], rfl, rfl, nofun⟩

theorem Deeper.succ (howner : owner ∈ s.owners) (h : s.Deeper n (owner :: stack) deeper) :
    s.Deeper (n + 1) stack deeper := by
  obtain ⟨added, rfl, rfl, hsubset⟩ := h.added
  refine ⟨h.nodup, added ++ [owner], ?_, ?_, ?_⟩
  · rw [List.append_assoc]
    rfl
  · rw [List.length_append]
    rfl
  · exact List.append_subset.2 ⟨hsubset, List.cons_subset.2 ⟨howner, List.nil_subset _⟩⟩

theorem inferWithin_eq (n : Nat) :
    s.inferWithin n = s.inferOver (fun _ => throw (.fault .exhausted)) n := by
  induction n with
  | zero => rfl
  | succ n ih =>
    funext owner
    rw [inferWithin, inferOver, ih]

theorem inferWithin_add (m n : Nat) : s.inferWithin (n + m) = s.inferOver (s.inferWithin m) n := by
  induction n with
  | zero =>
    rw [Nat.zero_add]
    rfl
  | succ n ih =>
    funext owner
    rw [Nat.add_right_comm, inferWithin, inferOver, ih]

/-! ## What a level depends on -/

theorem same_whileRunning {α : Type} {x y : SessionM α} (h : SessionM.Same (owner :: stack) x y) :
    SessionM.Same stack (whileRunning owner x) (whileRunning owner y) := by
  intro σ hσ
  obtain ⟨heq, hrunning⟩ := h { σ with running := owner :: σ.running } (congrArg _ hσ)
  rw [whileRunning_run, whileRunning_run, ← heq]
  exact ⟨rfl, congrArg List.tail hrunning⟩

theorem same_rootTy {x y : SessionM Outcome} {id : ConstId} (h : SessionM.Same stack x y) :
    SessionM.Same stack (s.rootTy id x) (s.rootTy id y) := by
  intro σ hσ
  obtain ⟨heq, hrunning⟩ := h σ hσ
  rw [rootTy_run, rootTy_run, ← heq]
  exact ⟨rfl, hrunning⟩

theorem same_inferBody (h : ∀ id, SessionM.Same stack (const id) (const' id)) {body : Body}
    {names : Names} : SessionM.Same stack (s.inferBody const owner body names)
      (s.inferBody const' owner body names) := by
  unfold inferBody
  split
  · exact .of_running fun _ => rfl
  · next env _ =>
    refine SessionM.Same.bind ?_ fun _ => .of_running fun _ => rfl
    show SessionM.Same stack ((Walk.wholeBody _).go (s.scope owner body names env) {})
      ((Walk.wholeBody _).go (s.scope owner body names env) {})
    rw [Walk.wholeBody_run, Walk.wholeBody_run]
    have hwalk : Walk.Same stack body (Walk.entries (Walk.visitor const body.walkDepth) owner)
        (Walk.entries (Walk.visitor const' body.walkDepth) owner) :=
      Walk.Same.congruence.entries const const' (fun _ => trivial) (fun id => .session (h id)) _ owner
    exact Walk.Same.congruence.bind hwalk (fun _ => .of_interruptible (.lift _)) _ _ rfl

theorem same_start (h : owner ∉ stack → owner ∈ s.owners →
      ∀ id, SessionM.Same (owner :: stack) (const id) (const' id)) :
    SessionM.Same stack (s.start const owner) (s.start const' owner) := by
  intro σ hσ
  rw [start_run, start_run]
  by_cases hrunning : owner ∈ σ.running
  · rw [if_pos hrunning, if_pos hrunning]
    exact ⟨rfl, hσ⟩
  · rw [if_neg hrunning, if_neg hrunning]
    have hcheck := SessionM.Interruptible.checkCancelled.running
    refine SessionM.Same.bind (.of_running hcheck) (fun _ => ?_) σ hσ
    cases hbody : s.program.body? owner with
    | none => exact .of_running fun _ => rfl
    | some found =>
      exact same_whileRunning (same_inferBody (h (hσ ▸ hrunning) (mem_owners hbody)))

/-- What is left to others is only called for with different bodies on the stack, one for each
level. -/
theorem same_inferOver {below below' : Owner → SessionM Outcome} (hstack : stack.Nodup)
    (h : ∀ deeper owner, s.Deeper n stack deeper →
      SessionM.Same deeper (below owner) (below' owner)) :
    SessionM.Same stack (s.inferOver below n owner) (s.inferOver below' n owner) := by
  induction n generalizing stack owner with
  | zero => exact h stack owner (.zero hstack)
  | succ n ih =>
    refine same_start fun hnew howner _ => same_rootTy ?_
    refine ih (List.nodup_cons.2 ⟨hnew, hstack⟩) fun deeper o hdeeper => ?_
    exact h deeper o (hdeeper.succ howner)

theorem same_inferWithin {m : Nat} (hm : s.owners.length < m) (hn : s.owners.length < n)
    (hstack : stack.Nodup) :
    SessionM.Same stack (s.inferWithin m owner) (s.inferWithin n owner) := by
  have hmore {m : Nat} (hm : s.owners.length < m) (k : Nat) :
      SessionM.Same stack (s.inferWithin m owner) (s.inferWithin (m + k) owner) := by
    rw [inferWithin_eq, inferWithin_add]
    refine same_inferOver hstack fun deeper o hdeeper => ?_
    exact absurd hdeeper.le_length (Nat.not_le_of_lt hm)
  have hright := hmore hn m
  rw [Nat.add_comm] at hright
  exact (hmore hm n).trans hright.symm

theorem owners_length_le : s.owners.length ≤ s.program.bodies.length := by
  have h := (List.dedup_sublist (s.program.bodies.map (·.1))).length_le
  rwa [List.length_map] at h

/-- What is inferred one after the other. -/
def after (s : Session) (owners : List Owner) (σ : SessionState) : SessionState :=
  owners.foldl (fun σ owner => (s.infer owner σ).2) σ

theorem after_spec (owners : List Owner) {σ : SessionState} (hσ : σ.Calm) :
    (s.after owners σ).Calm ∧ (s.after owners σ).running = σ.running := by
  induction owners generalizing σ with
  | nil => exact ⟨hσ, rfl⟩
  | cons owner owners ih =>
    have hinfer : (s.infer owner).Interruptible := s.interruptible_inferWithin _ owner
    obtain ⟨hcalm, hrunning⟩ := ih (hinfer.calm σ hσ).2
    exact ⟨hcalm, hrunning.trans (hinfer.running σ)⟩

/-- Sessions have no memory. However an inference ends, the bodies being inferred are those from
before, and none of them is started on once more. What is needed `n` levels down is asked for with
`n` more bodies being inferred, all of them different, so there are no more levels than bodies. And
what was inferred before does not matter. -/
theorem infer_has_no_memory (s : Session) :
    (∀ owner σ, (s.infer owner σ).2.running = σ.running) ∧
    (∀ owner σ, owner ∈ σ.running → s.infer owner σ = (.error (.cycle owner), σ)) ∧
    (∀ n below owner σ, σ.running.Nodup →
      (∀ o σ', s.Deeper n σ.running σ'.running → below o σ' = s.infer o σ') →
      s.inferOver below n owner σ = s.infer owner σ) ∧
    (∀ n stack deeper, s.Deeper n stack deeper → deeper.Nodup ∧ n ≤ s.owners.length) ∧
    ∀ owners owner σ, σ.Calm → (s.infer owner (s.after owners σ)).1 = (s.infer owner σ).1 := by
  have hinfer (owner : Owner) : (s.infer owner).Interruptible := s.interruptible_inferWithin _ owner
  have henough : s.owners.length < s.program.bodies.length + 1 :=
    Nat.lt_succ_of_le owners_length_le
  refine ⟨fun owner => (hinfer owner).running, ?_, ?_, ?_, ?_⟩
  · intro owner σ hrunning
    rw [infer, inferWithin, start_run, if_pos hrunning]
  · intro n below owner σ hnodup hbelow
    have hover : SessionM.Same σ.running (s.inferOver below n owner)
        (s.inferOver (s.inferWithin (s.program.bodies.length + 1)) n owner) := by
      refine same_inferOver hnodup fun deeper o hdeeper σ' hσ' => ?_
      have hsame : below o σ' = s.infer o σ' := hbelow o σ' (hσ' ▸ hdeeper)
      rw [hsame]
      exact ⟨rfl, ((hinfer o).running σ').trans hσ'⟩
    rw [← inferWithin_add] at hover
    exact ((hover.trans (same_inferWithin (by omega) henough hnodup)) σ rfl).1
  · intro n stack deeper h
    exact ⟨h.nodup, h.le_length⟩
  · intro owners owner σ hσ
    obtain ⟨hcalm, hrunning⟩ := s.after_spec owners hσ
    rcases (hinfer owner).agrees _ σ hrunning hσ with ⟨hcancelled, -⟩ | hsame
    · exact absurd hcancelled ((hinfer owner).calm _ hcalm).1
    · exact hsame

/-- Two constants without a declared type, each of which is the other. -/
def mutualConstants : Session where
  program := {
    items := { Items.empty with consts := #[⟨"A", none⟩, ⟨"B", none⟩] }
    known := {}
    bodies := [
      (.const ⟨0⟩, .ofNodes [.path ["B"]] [] [],
        Names.empty.setPath ⟨0⟩ [⟨.const ⟨1⟩, .empty⟩]),
      (.const ⟨1⟩, .ofNodes [.path ["A"]] [] [],
        Names.empty.setPath ⟨0⟩ [⟨.const ⟨0⟩, .empty⟩])] }

/-- Both are inferred, whichever comes first, and nothing is asked for three levels down. -/
theorem infer_has_no_memory_mutualConstants :
    (mutualConstants.infer (.const ⟨0⟩) {}).1.toOption.isSome = true ∧
    (mutualConstants.infer (.const ⟨0⟩) (mutualConstants.after [.const ⟨1⟩] {})).1 =
      (mutualConstants.infer (.const ⟨0⟩) {}).1 ∧
    mutualConstants.inferOver (fun _ => throw .cancelled) 3 (.const ⟨0⟩) {} =
      mutualConstants.infer (.const ⟨0⟩) {} := by
  obtain ⟨-, -, hover, hdeeper, hafter⟩ := infer_has_no_memory mutualConstants
  refine ⟨by decide +kernel, hafter _ _ _ ⟨rfl, rfl⟩, hover 3 _ _ _ List.nodup_nil ?_⟩
  intro o σ' h
  exact absurd (hdeeper _ _ _ h).2 (by decide)

end Session

end TypeInference
