import ManagedGraph.Report

/-!
# Operations

An operation works on a state, may consult services, and ends with an answer or a failure.
Its outcome holds the answer, the state left behind and a log of what was consulted. A
failure keeps the state and the log of what came before it, and ends the operation.
-/

namespace ManagedGraph

/-- What an operation leaves behind. -/
structure Outcome (ε σ α : Type) where
  answer : Except Report α
  state : σ
  log : List ε

/-- A computation on a state `σ` that answers with an `α` and logs entries of type `ε`. -/
def Operation (ε σ α : Type) : Type :=
  σ → Outcome ε σ α

namespace Operation

variable {ε σ τ α β : Type}

/-- The operation that only answers. -/
def answer (a : α) : Operation ε σ α := fun s =>
  ⟨.ok a, s, []⟩

/-- One operation after another; the second depends on the answer of the first. -/
def andThen (first : Operation ε σ α) (second : α → Operation ε σ β) : Operation ε σ β :=
  fun s =>
    match first s with
    | ⟨.error r, s, log⟩ => ⟨.error r, s, log⟩
    | ⟨.ok a, s, log⟩ =>
        match second a s with
        | ⟨answer, s, more⟩ => ⟨answer, s, log ++ more⟩

instance : Monad (Operation ε σ) where
  pure := answer
  bind := andThen

/-- The operation that only changes the state. -/
def update (f : σ → σ) : Operation ε σ Unit := fun s =>
  ⟨.ok (), f s, []⟩

/-- The operation that only reads the state. -/
def read (f : σ → α) : Operation ε σ α := fun s =>
  ⟨.ok (f s), s, []⟩

/-- The operation that logs an entry and takes its answer from elsewhere. -/
def consult (entry : ε) (answer : Except Report α) : Operation ε σ α := fun s =>
  ⟨answer, s, [entry]⟩

/-- An operation on a part of a larger state. -/
def within (get : τ → σ) (set : τ → σ → τ) (op : Operation ε σ α) : Operation ε τ α := fun t =>
  match op (get t) with
  | ⟨answer, s, log⟩ => ⟨answer, set t s, log⟩

/-- An operation whose log entries are read as entries of another log. -/
def logging {ε' : Type} (entry : ε → ε') (op : Operation ε σ α) : Operation ε' σ α := fun s =>
  match op s with
  | ⟨answer, s, log⟩ => ⟨answer, s, log.map entry⟩

/-! ## Laws -/

theorem answer_bind (a : α) (f : α → Operation ε σ β) :
    (pure a : Operation ε σ α) >>= f = f a := rfl

theorem bind_of_error {first : Operation ε σ α} {second : α → Operation ε σ β} {s : σ}
    {r : Report} (h : (first s).answer = .error r) :
    (first >>= second) s = ⟨.error r, (first s).state, (first s).log⟩ := by
  change andThen first second s = _
  unfold andThen
  rcases hf : first s with ⟨a, t, log⟩
  rw [hf] at h
  simp only at h
  subst h
  rfl

theorem bind_of_ok {first : Operation ε σ α} {second : α → Operation ε σ β} {s : σ} {a : α}
    (h : (first s).answer = .ok a) :
    (first >>= second) s =
      ⟨(second a (first s).state).answer, (second a (first s).state).state,
        (first s).log ++ (second a (first s).state).log⟩ := by
  change andThen first second s = _
  unfold andThen
  rcases hf : first s with ⟨b, t, log⟩
  rw [hf] at h
  simp only at h
  subst h
  rfl

end Operation

end ManagedGraph
