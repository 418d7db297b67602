import ManagedGraph.Proofs.Operation.Observation

/-!
# Operations in step

An operation *simulates* another one along a relation of states when from related states both end
in related states, with related answers or with one failure. It is *in step* along the relation if
it simulates itself and answers related states alike. Sequences and dialogues of operations in step
are in step (`InStep.bind`, `inStep_hold`).
-/

namespace ManagedGraph

/-- Two related answers, or one failure. -/
inductive AnswersAlike {α β : Type} (Q : α → β → Prop) : Except Report α → Except Report β → Prop
  | ok {a : α} {b : β} (h : Q a b) : AnswersAlike Q (.ok a) (.ok b)
  | error (report : Report) : AnswersAlike Q (.error report) (.error report)

theorem AnswersAlike.refl {α : Type} {Q : α → α → Prop} (hQ : ∀ a, Q a a) {x : Except Report α} :
    AnswersAlike Q x x := by
  cases x with
  | ok a => exact .ok (hQ a)
  | error report => exact .error report

@[simp] theorem answersAlike_eq_iff {α : Type} {x y : Except Report α} :
    AnswersAlike Eq x y ↔ x = y := by
  constructor
  · rintro (⟨rfl⟩ | _) <;> rfl
  · rintro rfl
    exact .refl fun _ => rfl

namespace Operation

variable {ε σ τ α α' β β' : Type} {R : σ → σ → Prop} {P : α → α' → Prop} {Q : β → β' → Prop}
variable {op : Operation ε σ α} {op' : Operation ε σ α'}
variable {first : Operation ε σ α} {first' : Operation ε σ α'}
variable {second : α → Operation ε σ β} {second' : α' → Operation ε σ β'}

/-- From related states, both operations end in related states, with answers alike. -/
def Simulates (R : σ → σ → Prop) (P : α → α' → Prop) (op : Operation ε σ α)
    (op' : Operation ε σ α') : Prop :=
  ∀ s t, R s t → AnswersAlike P (op s).answer (op' t).answer ∧ R (op s).state (op' t).state

theorem Simulates.bind (hfirst : Simulates R P first first')
    (hsecond : ∀ a b, P a b → Simulates R Q (second a) (second' b)) :
    Simulates R Q (first >>= second) (first' >>= second') := by
  intro s t hst
  obtain ⟨hanswers, hstates⟩ := hfirst s t hst
  generalize hs : (first s).answer = x, ht : (first' t).answer = y at hanswers
  cases hanswers with
  | error report =>
      -- neither comes to its second part
      rw [bind_of_error hs, bind_of_error ht]
      exact ⟨.error report, hstates⟩
  | ok h =>
      rw [bind_of_ok hs, bind_of_ok ht]
      exact hsecond _ _ h _ _ hstates

theorem simulates_pure {a : α} {b : α'} (h : P a b) :
    Simulates R P (pure a : Operation ε σ α) (pure b) :=
  fun _ _ hst => ⟨.ok h, hst⟩

theorem simulates_logging {ε' : Type} (entry : ε → ε') (h : Simulates R P op op') :
    Simulates R P (op.logging entry) (op'.logging entry) :=
  h

/-- Operations on a part are in step along a relation of the whole that relates the parts and
lets related ones be put in place. -/
theorem simulates_within {S : τ → τ → Prop} {get : τ → σ} {set : τ → σ → τ}
    (hget : ∀ t u, S t u → R (get t) (get u))
    (hset : ∀ t u s s', S t u → R s s' → S (set t s) (set u s')) (h : Simulates R P op op') :
    Simulates S P (op.within get set) (op'.within get set) := by
  intro t u htu
  obtain ⟨hanswers, hstates⟩ := h (get t) (get u) (hget t u htu)
  exact ⟨hanswers, hset t u _ _ htu hstates⟩

/-! ## One operation at related states -/

/-- From related states an operation ends in related states, with the same answer. -/
def InStep (R : σ → σ → Prop) (op : Operation ε σ α) : Prop :=
  op.Simulates R Eq op

theorem InStep.answer_eq (h : op.InStep R) {s t : σ} (hst : R s t) :
    (op s).answer = (op t).answer :=
  answersAlike_eq_iff.1 (h s t hst).1

theorem InStep.state (h : op.InStep R) {s t : σ} (hst : R s t) : R (op s).state (op t).state :=
  (h s t hst).2

/-- It is enough to look at answers and states apart. -/
theorem inStep_of (hanswer : ∀ s t, R s t → (op s).answer = (op t).answer)
    (hstate : ∀ s t, R s t → R (op s).state (op t).state) : op.InStep R :=
  fun s t hst => ⟨answersAlike_eq_iff.2 (hanswer s t hst), hstate s t hst⟩

theorem InStep.bind {second : α → Operation ε σ β} (hfirst : first.InStep R)
    (hsecond : ∀ a, (second a).InStep R) : (first >>= second).InStep R := by
  apply Simulates.bind hfirst
  rintro a _ rfl
  exact hsecond a

theorem inStep_pure (a : α) : (pure a : Operation ε σ α).InStep R :=
  simulates_pure rfl

theorem inStep_read {f : σ → α} (h : ∀ s t, R s t → f s = f t) :
    (read f : Operation ε σ α).InStep R :=
  inStep_of (fun s t hst => congrArg Except.ok (h s t hst)) fun _ _ hst => hst

theorem inStep_consult (entry : ε) (outcome : Except Report α) :
    (consult entry outcome : Operation ε σ α).InStep R :=
  inStep_of (fun _ _ _ => rfl) fun _ _ hst => hst

theorem inStep_hold {entry : Request → Except Report Request → ε}
    {intercept : Request → Operation ε σ Request} (h : ∀ request, (intercept request).InStep R)
    (d : Dialogue α) : (d.hold entry intercept).InStep R := by
  induction d with
  | done outcome => exact inStep_of (fun _ _ _ => rfl) fun _ _ hst => hst
  | ask request next ih =>
      intro s t hst
      rw [hold_ask, hold_ask]
      simp only
      -- the request is answered alike, so the dialogue goes on alike
      rw [(h request).answer_eq hst]
      exact ih _ _ _ ((h request).state hst)

end Operation

end ManagedGraph
