import ManagedGraph.Configuration

/-!
# Resolved graphs

A resolved graph lists its components, the root first; a component is addressed by its
position and has its outgoing edges in the order they were declared. Graphs grow from
their root by `insert`, which keeps identities apart, and `addEdge`.
-/

namespace ManagedGraph

/-- What a component is. -/
inductive Identity where
  /-- A module fetched from a repository. -/
  | module (version : ModuleVersion)
  /-- A module built by the current build; it has no POM to consult. -/
  | project (path : String) (version : ModuleVersion)
deriving DecidableEq, Repr

namespace Identity

/-- The module and its version. -/
def version : Identity → ModuleVersion
  | module v => v
  | project _ v => v

/-- The module, whatever its version. -/
def moduleId (identity : Identity) : ModuleId :=
  identity.version.id

/-- The module version of a repository module; a project has none. -/
def external? : Identity → Option ModuleVersion
  | module v => some v
  | project _ _ => none

/-- The written form. -/
def display : Identity → String
  | module v => v.display
  | project path _ => "project " ++ path

end Identity

/-- An outgoing edge of a component. -/
inductive Edge where
  /-- A dependency that resolved to the component at a position. -/
  | resolved (requested : Selector) (target : Nat)
  /-- A dependency that could not be satisfied. -/
  | unresolved (attempted : Selector) (failure : String)
  /-- A constraint that shaped the selection of a version without being a dependency. -/
  | constraint (requested : Selector) (target : Option Nat)
deriving DecidableEq, Repr

namespace Edge

/-- The position a resolved dependency leads to. -/
def target? : Edge → Option Nat
  | resolved _ target => some target
  | _ => none

/-- The module an unsatisfied dependency asked for. -/
def attempted? : Edge → Option ModuleId
  | unresolved attempted _ => attempted.moduleId?
  | _ => none

end Edge

/-- A component and its outgoing edges. -/
structure Component where
  identity : Identity
  edges : List Edge
deriving DecidableEq, Repr

namespace Component

/-- The module of a component. -/
def moduleId (c : Component) : ModuleId :=
  c.identity.moduleId

end Component

/-- A graph of components, the root first. -/
structure ResolvedGraph where
  components : List Component
  /-- There is a root. -/
  components_ne_nil : components ≠ []
deriving DecidableEq, Repr

namespace ResolvedGraph

/-- The number of components, the root included. -/
def size (g : ResolvedGraph) : Nat :=
  g.components.length

/-- The component every path starts from. -/
def root (g : ResolvedGraph) : Component :=
  g.components.head g.components_ne_nil

/-- The module of the component at a position. -/
def moduleId? (g : ResolvedGraph) (i : Nat) : Option ModuleId :=
  (g.components[i]?).map Component.moduleId

/-- The edges of the component at a position. -/
def edges (g : ResolvedGraph) (i : Nat) : List Edge :=
  ((g.components[i]?).map Component.edges).getD []

/-- The repository modules of a graph, in order. -/
def externalModules (g : ResolvedGraph) : List ModuleVersion :=
  g.components.filterMap fun c => c.identity.external?

/-- The position of the first component of a module. -/
def find? (g : ResolvedGraph) (id : ModuleId) : Option Nat :=
  g.components.findIdx? fun c => c.moduleId == id

/-- Whether some component belongs to a module. -/
def contains (g : ResolvedGraph) (id : ModuleId) : Bool :=
  (g.find? id).isSome

/-- Every resolved edge leads to a component of the graph. -/
def Closed (g : ResolvedGraph) : Prop :=
  ∀ c ∈ g.components, ∀ e ∈ c.edges, ∀ t, e.target? = some t → t < g.size

instance (g : ResolvedGraph) : Decidable g.Closed :=
  decidable_of_iff (∀ c ∈ g.components, ∀ e ∈ c.edges, ∀ t ∈ e.target?, t < g.size) Iff.rfl

/-! ## Growing a graph -/

/-- The graph that consists of its root. -/
def start (root : Identity) : ResolvedGraph :=
  ⟨[⟨root, []⟩], by simp⟩

/-- The position of a component, which is added at the end if there is none of that
identity. -/
def insert (g : ResolvedGraph) (identity : Identity) : ResolvedGraph × Nat :=
  match g.components.findIdx? fun c => c.identity == identity with
  | some i => (g, i)
  | none => (⟨g.components ++ [⟨identity, []⟩], by simp⟩, g.size)

/-- The graph with one more edge at the end of those of a component. -/
def addEdge (g : ResolvedGraph) (source : Nat) (edge : Edge) : ResolvedGraph :=
  ⟨g.components.modify source fun c => { c with edges := c.edges ++ [edge] }, by
    intro h
    have hlen := congrArg List.length h
    simp [g.components_ne_nil] at hlen⟩

end ResolvedGraph

end ManagedGraph
