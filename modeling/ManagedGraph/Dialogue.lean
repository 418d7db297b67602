import ManagedGraph.Graph
import ManagedGraph.Request

/-!
# Graph resolvers

A graph resolver is known by what it asks: a resolution is a dialogue in which it presents
requests one after another, each depending on the answers so far, and ends with a graph or
a failure.
-/

namespace ManagedGraph

/-- A course of requests that ends with an outcome. -/
inductive Dialogue (α : Type) where
  /-- The end. -/
  | done (outcome : Except Report α)
  /-- A request, and how it goes on after each answer. -/
  | ask (request : Request) (next : Except Report Request → Dialogue α)

/-- What resolves the dependencies and constraints of a configuration to a graph. -/
abbrev GraphResolver := Configuration → Dialogue ResolvedGraph

/-- What is logged while a build is resolved. -/
inductive BuildEvent where
  /-- The POM service was called. -/
  | call (call : PomCall)
  /-- The graph resolver was started on a configuration. -/
  | run (configuration : Configuration)
  /-- The graph resolver presented a request and got an answer. -/
  | request (request : Request) (answer : Except Report Request)

namespace Dialogue

variable {ε σ α : Type}

/-- Holds a dialogue with an interceptor and logs each request with its answer. -/
def hold (entry : Request → Except Report Request → ε)
    (intercept : Request → Operation ε σ Request) : Dialogue α → Operation ε σ α
  | done outcome => fun s => ⟨outcome, s, []⟩
  | ask request next => fun s =>
      match intercept request s with
      | ⟨answer, s, log⟩ =>
          match (next answer).hold entry intercept s with
          | ⟨outcome, s, more⟩ => ⟨outcome, s, log ++ entry request answer :: more⟩

end Dialogue

end ManagedGraph
