import ManagedGraph.Graph
import Mathlib.Logic.Relation

/-!
# What a graph reaches

Resolved edges lead from component to component, and unresolved ones name the modules that
a component failed to reach. A flat exclude rule deletes edges wherever they are: `without`
is the graph that is left, and `leads_without` and `attempts_without` say which of its
edges remain.
-/

namespace ManagedGraph

namespace ResolvedGraph

/-- A resolved edge leads from one component to another. -/
def Leads (g : ResolvedGraph) (i t : Nat) : Prop :=
  ∃ edge ∈ g.edges i, edge.target? = some t

/-- An unresolved edge of a component asked for a module. -/
def Attempts (g : ResolvedGraph) (i : Nat) (id : ModuleId) : Prop :=
  ∃ edge ∈ g.edges i, edge.attempted? = some id

/-- Resolved edges lead from the root to a component, in any number of steps. -/
def Reaches (g : ResolvedGraph) (i : Nat) : Prop :=
  Relation.ReflTransGen g.Leads 0 i

/-- Some edge, reachable or not, leads to a module or asked for it. -/
def Candidate (g : ResolvedGraph) (id : ModuleId) : Prop :=
  ∃ i, (∃ t, g.Leads i t ∧ g.moduleId? t = some id) ∨ g.Attempts i id

/-- A module is that of the root or of a component reachable from it, or a reachable
component asked for it. -/
def Yields (g : ResolvedGraph) (id : ModuleId) : Prop :=
  id = g.root.moduleId ∨ ∃ i, g.Reaches i ∧ (g.moduleId? i = some id ∨ g.Attempts i id)

/-- No edge leads to the root, and no two components lead to the same one. -/
structure IsTree (g : ResolvedGraph) : Prop where
  root : ∀ i, ¬ g.Leads i 0
  parent : ∀ i j t, g.Leads i t → g.Leads j t → i = j

theorem moduleId?_zero (g : ResolvedGraph) : g.moduleId? 0 = some g.root.moduleId := by
  rcases g with ⟨components, hne⟩
  cases components with
  | nil => exact absurd rfl hne
  | cons c rest => rfl

/-- In a closed graph every edge leads to a component. -/
theorem Closed.lt_size_of_leads {g : ResolvedGraph} (hg : g.Closed) {i t : Nat}
    (h : g.Leads i t) : t < g.size := by
  rcases h with ⟨edge, hedge, ht⟩
  cases hc : g.components[i]? with
  | none => simp [edges, hc] at hedge
  | some c =>
      have hmem : edge ∈ c.edges := by simpa [edges, hc] using hedge
      exact hg c (List.mem_of_getElem? hc) edge hmem t ht

theorem Closed.lt_size_of_reaches {g : ResolvedGraph} (hg : g.Closed) {i : Nat}
    (h : g.Reaches i) : i < g.size := by
  rcases Relation.ReflTransGen.cases_tail h with hroot | ⟨j, -, hleads⟩
  · rw [hroot]
    exact List.length_pos_iff.2 g.components_ne_nil
  · exact hg.lt_size_of_leads hleads

/-- In a closed graph every component that an edge leads to has a module. -/
theorem Closed.moduleId?_of_leads {g : ResolvedGraph} (hg : g.Closed) {i t : Nat}
    (h : g.Leads i t) : ∃ id, g.moduleId? t = some id := by
  have hlt : t < g.size := hg.lt_size_of_leads h
  cases hc : g.components[t]? with
  | none => exact absurd (List.getElem?_eq_none_iff.1 hc) (Nat.not_le.2 hlt)
  | some c => exact ⟨c.moduleId, by simp [moduleId?, hc]⟩

/-! ## Deleting edges everywhere -/

/-- Whether a resolved edge leads to one of some modules, or an unresolved one asked for
one of them. -/
def touches (g : ResolvedGraph) (ids : ModuleSet) : Edge → Bool
  | .resolved _ t => (g.moduleId? t).any (· ∈ ids)
  | .unresolved attempted _ => attempted.moduleId?.any (· ∈ ids)
  | .constraint _ _ => false

/-- The graph with the edges to some modules deleted from all components. -/
def without (g : ResolvedGraph) (ids : ModuleSet) : ResolvedGraph :=
  ⟨g.components.map fun c => { c with edges := c.edges.filter fun e => !g.touches ids e }, by
    simpa using g.components_ne_nil⟩

variable {g : ResolvedGraph} {ids : ModuleSet}

@[simp] theorem moduleId?_without (i : Nat) : (g.without ids).moduleId? i = g.moduleId? i := by
  cases h : g.components[i]? with
  | none => simp [moduleId?, without, h]
  | some c => simp [moduleId?, without, h, Component.moduleId]

@[simp] theorem root_moduleId_without : (g.without ids).root.moduleId = g.root.moduleId := by
  have h : (g.without ids).moduleId? 0 = g.moduleId? 0 := moduleId?_without 0
  rw [moduleId?_zero, moduleId?_zero] at h
  exact Option.some.inj h

theorem edges_without (i : Nat) :
    (g.without ids).edges i = (g.edges i).filter fun e => !g.touches ids e := by
  cases h : g.components[i]? with
  | none => simp [edges, without, h]
  | some c => simp [edges, without, h]

theorem touches_eq_false_iff_of_target {edge : Edge} {t : Nat} (ht : edge.target? = some t) :
    g.touches ids edge = false ↔ ∀ id, g.moduleId? t = some id → id ∉ ids := by
  cases edge with
  | resolved requested target =>
      obtain rfl : target = t := by simpa [Edge.target?] using ht
      cases hid : g.moduleId? target <;> simp [touches, hid]
  | unresolved attempted failure => simp [Edge.target?] at ht
  | constraint requested target => simp [Edge.target?] at ht

theorem touches_eq_false_iff_of_attempted {edge : Edge} {id : ModuleId}
    (h : edge.attempted? = some id) : g.touches ids edge = false ↔ id ∉ ids := by
  cases edge with
  | resolved requested target => simp [Edge.attempted?] at h
  | unresolved attempted failure =>
      have hid : attempted.moduleId? = some id := by simpa [Edge.attempted?] using h
      simp [touches, hid]
  | constraint requested target => simp [Edge.attempted?] at h

/-- The resolved edges that remain are those to other modules. -/
theorem leads_without {i t : Nat} :
    (g.without ids).Leads i t ↔ g.Leads i t ∧ ∀ id, g.moduleId? t = some id → id ∉ ids := by
  simp only [Leads, edges_without, List.mem_filter, Bool.not_eq_true']
  constructor
  · rintro ⟨edge, ⟨hedge, hkept⟩, ht⟩
    exact ⟨⟨edge, hedge, ht⟩, (touches_eq_false_iff_of_target ht).1 hkept⟩
  · rintro ⟨⟨edge, hedge, ht⟩, hids⟩
    exact ⟨edge, ⟨hedge, (touches_eq_false_iff_of_target ht).2 hids⟩, ht⟩

/-- The unresolved edges that remain are those that asked for other modules. -/
theorem attempts_without {i : Nat} {id : ModuleId} :
    (g.without ids).Attempts i id ↔ g.Attempts i id ∧ id ∉ ids := by
  simp only [Attempts, edges_without, List.mem_filter, Bool.not_eq_true']
  constructor
  · rintro ⟨edge, ⟨hedge, hkept⟩, h⟩
    exact ⟨⟨edge, hedge, h⟩, (touches_eq_false_iff_of_attempted h).1 hkept⟩
  · rintro ⟨⟨edge, hedge, h⟩, hid⟩
    exact ⟨edge, ⟨hedge, (touches_eq_false_iff_of_attempted h).2 hid⟩, h⟩

end ResolvedGraph

end ManagedGraph
