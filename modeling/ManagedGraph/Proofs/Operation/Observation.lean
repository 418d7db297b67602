import Mathlib.Order.Defs.Unbundled
import ManagedGraph.Dialogue

/-!
# Operations that only observe

Some operations change nothing that a later answer could show. Relative to a preorder of
states, an operation *moves* along it when it leads from each state to a later one, and it
*ignores* it when it answers alike at both. Both hold of a sequence when they hold of its
parts, and then the answers of the parts are those at the state in which the sequence starts
(`answer_bind_of_moves`, `of_mem_log_hold`).
-/

namespace ManagedGraph.Operation

variable {ε σ τ α β : Type} {R : σ → σ → Prop} {op : Operation ε σ α}
variable {first : Operation ε σ α} {second : α → Operation ε σ β}

/-- The state after an operation follows the state before it. -/
def Moves (R : σ → σ → Prop) (op : Operation ε σ α) : Prop :=
  ∀ s, R s (op s).state

/-- The answer of an operation is the same at a state that follows. -/
def Ignores (R : σ → σ → Prop) (op : Operation ε σ α) : Prop :=
  ∀ s t, R s t → (op t).answer = (op s).answer

/-- An operation that moves along a relation and does not see such moves. -/
structure Observes (R : σ → σ → Prop) (op : Operation ε σ α) : Prop where
  moves : op.Moves R
  ignores : op.Ignores R

/-! ## Sequences -/

/-- A sequence stops where its first part fails, and else ends as its second part does. -/
theorem state_bind (s : σ) :
    ((first >>= second) s).state =
      match (first s).answer with
      | .ok a => (second a (first s).state).state
      | .error _ => (first s).state := by
  cases h : (first s).answer with
  | error report => rw [bind_of_error h]
  | ok a => rw [bind_of_ok h]

/-- An entry of the log of a sequence was made by its first part, or by its second part at
the state that the first leaves. -/
theorem mem_log_bind {s : σ} {entry : ε} (h : entry ∈ ((first >>= second) s).log) :
    entry ∈ (first s).log ∨
      ∃ a, (first s).answer = .ok a ∧ entry ∈ (second a (first s).state).log := by
  cases ha : (first s).answer with
  | error report =>
      rw [bind_of_error ha] at h
      exact Or.inl h
  | ok a =>
      rw [bind_of_ok ha, List.mem_append] at h
      rcases h with h | h
      · exact Or.inl h
      · exact Or.inr ⟨a, rfl, h⟩

/-- What is read from the state is known to everything else. -/
theorem read_bind (f : σ → α) (next : α → Operation ε σ β) (s : σ) :
    (read f >>= next) s = next (f s) s := rfl

/-- Two sequences with the same second part end alike if their first parts do. -/
theorem bind_congr {s t : σ} {first' : Operation ε σ α} (h : first s = first' t) :
    (first >>= second) s = (first' >>= second) t := by
  change andThen first second s = andThen first' second t
  unfold andThen
  rw [h]

/-- A second part that ignores the move of the first answers as if it came first. -/
theorem answer_bind_of_moves (hfirst : first.Moves R) (hsecond : ∀ a, (second a).Ignores R)
    (s : σ) :
    ((first >>= second) s).answer = (first s).answer.bind fun a => (second a s).answer := by
  cases h : (first s).answer with
  | error report =>
      rw [bind_of_error h]
      rfl
  | ok a =>
      rw [bind_of_ok h]
      exact hsecond a s _ (hfirst s)

/-- What is done with an answer at the end does not see the state. -/
theorem answer_bind_pure (f : α → β) (s : σ) :
    ((op >>= fun a => pure (f a)) s).answer = (op s).answer.map f :=
  answer_bind_of_moves (R := fun _ _ => True) (fun _ => trivial) (fun _ _ _ _ => rfl) s

/-- Nor does it change the state. -/
theorem state_bind_pure (f : α → β) (s : σ) :
    ((op >>= fun a => pure (f a)) s).state = (op s).state := by
  rw [state_bind]
  cases (op s).answer <;> rfl

/-- Nor is it logged. -/
theorem log_bind_pure (f : α → β) (s : σ) :
    ((op >>= fun a => pure (f a)) s).log = (op s).log := by
  cases h : (op s).answer with
  | error report => rw [bind_of_error h]
  | ok a =>
      rw [bind_of_ok h]
      exact List.append_nil _

/-- In all, it shows in the answer only. -/
theorem outcome_bind_pure (f : α → β) (s : σ) :
    (op >>= fun a => pure (f a)) s = ⟨(op s).answer.map f, (op s).state, (op s).log⟩ := by
  rw [← answer_bind_pure, ← state_bind_pure f, ← log_bind_pure f]

/-- A sequence that ends by answering is its first part. -/
protected theorem bind_pure (op : Operation ε σ α) : op >>= pure = op := by
  funext s
  have hsame : (op s).answer.map (fun a => a) = (op s).answer := by
    cases (op s).answer <;> rfl
  rw [outcome_bind_pure (fun a => a), hsame]

/-- In a sequence of three it does not matter which two are taken together. -/
protected theorem bind_assoc {γ : Type} (third : β → Operation ε σ γ) :
    first >>= second >>= third = first >>= fun a => second a >>= third := by
  funext s
  cases hfirst : (first s).answer with
  | error report =>
      have hboth : ((first >>= second) s).answer = .error report := by rw [bind_of_error hfirst]
      rw [bind_of_error hboth, bind_of_error hfirst, bind_of_error hfirst]
  | ok a =>
      rw [bind_of_ok hfirst]
      cases hsecond : (second a (first s).state).answer with
      | error report =>
          have hboth : ((first >>= second) s).answer = .error report := by
            rw [bind_of_ok hfirst, hsecond]
          rw [bind_of_error hboth, bind_of_error hsecond, bind_of_ok hfirst]
      | ok b =>
          have hboth : ((first >>= second) s).answer = .ok b := by
            rw [bind_of_ok hfirst, hsecond]
          rw [bind_of_ok hboth, bind_of_ok hsecond, bind_of_ok hfirst]
          simp only [List.append_assoc]

instance : LawfulMonad (Operation ε σ) :=
  LawfulMonad.mk' _ Operation.bind_pure answer_bind fun _ _ => Operation.bind_assoc

/-- Two parts that do not see each other succeed together exactly when both succeed from the
start. -/
theorem answer_both_eq_ok_iff {γ : Type} {other : Operation ε σ β} (hfirst : first.Moves R)
    (hother : other.Ignores R) (f : α → β → γ) (s : σ) (c : γ) :
    ((first >>= fun a => other >>= fun b => pure (f a b)) s).answer = .ok c ↔
      ∃ a b, (first s).answer = .ok a ∧ (other s).answer = .ok b ∧ c = f a b := by
  have hrest (a : α) : (other >>= fun b => pure (f a b) : Operation ε σ γ).Ignores R := by
    intro s t hst
    rw [answer_bind_pure, answer_bind_pure, hother s t hst]
  rw [answer_bind_of_moves hfirst hrest]
  cases (first s).answer with
  | error report => simp [Except.bind]
  | ok a =>
      simp only [Except.bind, answer_bind_pure]
      cases (other s).answer with
      | error report => simp [Except.map]
      | ok b => simp [Except.map, eq_comm]

/-- Neither part of a sequence sees what came before it, so the whole does not. -/
theorem Ignores.bind (hmoves : first.Moves R) (hfirst : first.Ignores R)
    (hsecond : ∀ a, (second a).Ignores R) : (first >>= second).Ignores R := by
  intro s t hst
  have hanswers : (fun a => (second a t).answer) = fun a => (second a s).answer := by
    funext a
    exact hsecond a s t hst
  rw [answer_bind_of_moves hmoves hsecond t, answer_bind_of_moves hmoves hsecond s,
    hfirst s t hst, hanswers]

section Preorder

variable [IsPreorder σ R]

theorem Moves.bind (hfirst : first.Moves R) (hsecond : ∀ a, (second a).Moves R) :
    (first >>= second).Moves R := by
  intro s
  rw [state_bind]
  cases (first s).answer with
  | error report => exact hfirst s
  | ok a => exact trans_of R (hfirst s) (hsecond a _)

theorem Observes.bind (hfirst : first.Observes R) (hsecond : ∀ a, (second a).Observes R) :
    (first >>= second).Observes R where
  moves := hfirst.moves.bind fun a => (hsecond a).moves
  ignores := .bind hfirst.moves hfirst.ignores fun a => (hsecond a).ignores

theorem observes_pure (a : α) : (pure a : Operation ε σ α).Observes R :=
  ⟨fun s => refl_of R s, fun _ _ _ => rfl⟩

theorem observes_consult (entry : ε) (outcome : Except Report α) :
    (consult entry outcome : Operation ε σ α).Observes R :=
  ⟨fun s => refl_of R s, fun _ _ _ => rfl⟩

theorem observes_read {f : σ → α} (h : ∀ s t, R s t → f t = f s) :
    (read f : Operation ε σ α).Observes R :=
  ⟨fun s => refl_of R s, fun s t hst => congrArg Except.ok (h s t hst)⟩

end Preorder

/-! ## Parts of a state -/

theorem observes_logging {ε' : Type} (entry : ε → ε') (h : op.Observes R) :
    (op.logging entry).Observes R :=
  ⟨h.moves, h.ignores⟩

/-- An operation on a part observes a relation of the whole that contains the moves it makes
and relates the parts. -/
theorem observes_within {S : τ → τ → Prop} {get : τ → σ} {set : τ → σ → τ}
    (hset : ∀ t s, R (get t) s → S t (set t s)) (hget : ∀ t u, S t u → R (get t) (get u))
    (h : op.Observes R) : (op.within get set).Observes S where
  moves := by
    intro t
    exact hset t _ (h.moves (get t))
  ignores := by
    intro t u htu
    exact h.ignores (get t) (get u) (hget t u htu)

/-- What is done with the answer of an operation on a part can be done on the part. -/
theorem within_bind_pure (get : τ → σ) (set : τ → σ → τ) (f : α → β) :
    (op.within get set >>= fun a => pure (f a)) = (op >>= fun a => pure (f a)).within get set := by
  funext t
  have hright : (op >>= fun a => pure (f a)).within get set t =
      let outcome := (op >>= fun a => (pure (f a) : Operation ε σ β)) (get t)
      ⟨outcome.answer, set t outcome.state, outcome.log⟩ := rfl
  rw [hright]
  cases h : (op (get t)).answer with
  | error report =>
      have hleft : (op.within get set t).answer = .error report := h
      rw [bind_of_error h, bind_of_error hleft]
      rfl
  | ok a =>
      have hleft : (op.within get set t).answer = .ok a := h
      rw [bind_of_ok h, bind_of_ok hleft]
      rfl

/-! ## Dialogues -/

section Dialogue

variable {entry : Request → Except Report Request → ε}
variable {intercept : Request → Operation ε σ Request}

/-- After a request the dialogue goes on where the interceptor left the state. -/
theorem hold_ask (request : Request) (next : Except Report Request → Dialogue α) (s : σ) :
    (Dialogue.ask request next).hold entry intercept s =
      let here := intercept request s
      let rest := (next here.answer).hold entry intercept here.state
      ⟨rest.answer, rest.state, here.log ++ entry request here.answer :: rest.log⟩ := rfl

/-- A dialogue with an interceptor that only observes does so as well. -/
theorem observes_hold [IsPreorder σ R] (h : ∀ request, (intercept request).Observes R)
    (d : Dialogue α) : (d.hold entry intercept).Observes R := by
  induction d with
  | done outcome => exact ⟨fun s => refl_of R s, fun _ _ _ => rfl⟩
  | ask request next ih =>
      constructor
      · intro s
        rw [hold_ask]
        exact trans_of R ((h request).moves s) ((ih _).moves _)
      · intro s t hst
        -- the rest does not see what the interceptor did to the state
        have hrest (s : σ) := (ih (intercept request s).answer).ignores s _ ((h request).moves s)
        rw [hold_ask, hold_ask]
        simp only
        rw [hrest t, hrest s, (h request).ignores s t hst]
        exact (ih _).ignores s t hst

/-- What was logged in a dialogue was logged by the interceptor, or it is a request with the
answer that the interceptor has at the start. -/
theorem of_mem_log_hold (h : ∀ request, (intercept request).Observes R) {d : Dialogue α} {s : σ}
    {e : ε} (he : e ∈ (d.hold entry intercept s).log) :
    (∃ request t, e ∈ (intercept request t).log) ∨
      ∃ request, e = entry request (intercept request s).answer := by
  induction d generalizing s with
  | done outcome => exact absurd he List.not_mem_nil
  | ask request next ih =>
      rw [hold_ask] at he
      simp only [List.mem_append, List.mem_cons] at he
      rcases he with he | rfl | he
      · exact Or.inl ⟨request, s, he⟩
      · exact Or.inr ⟨request, rfl⟩
      · rcases ih _ he with hlogged | ⟨r, rfl⟩
        · exact Or.inl hlogged
        · have hanswer := (h r).ignores s _ ((h request).moves s)
          exact Or.inr ⟨r, congrArg (entry r) hanswer⟩

end Dialogue

end ManagedGraph.Operation
