import ManagedGraph.Proofs.Graph.Reach

/-!
# Growing a graph

A graph grows from its root by components and edges, and whoever grows it is handed the position
of each component. If edges are only added with positions that were handed out, no edge ever
leads out of the graph (`closed_of_permitsAll`): a position stays good once it is handed out,
since components are only added at the end.
-/

namespace ManagedGraph

namespace ResolvedGraph

variable {g : ResolvedGraph} {identity : Identity} {source : Nat} {edge : Edge}

/-! ## One step -/

theorem closed_start (root : Identity) : (start root).Closed := by
  intro c hc edge hedge
  obtain rfl : c = ⟨root, []⟩ := List.mem_singleton.1 hc
  exact absurd hedge List.not_mem_nil

/-- A component is found where it is, or else it is added at the end. -/
theorem insert_cases (g : ResolvedGraph) (identity : Identity) :
    (∃ i c, g.components[i]? = some c ∧ c.identity = identity ∧ g.insert identity = (g, i)) ∨
      (∀ c ∈ g.components, c.identity ≠ identity) ∧
        (g.insert identity).1.components = g.components ++ [⟨identity, []⟩] ∧
          (g.insert identity).2 = g.size := by
  unfold insert
  split
  · rename_i i hfound
    obtain ⟨hlt, hidentity, -⟩ := List.findIdx?_eq_some_iff_getElem.1 hfound
    exact Or.inl ⟨i, g.components[i], List.getElem?_eq_getElem hlt, by simpa using hidentity, rfl⟩
  · rename_i hnone
    refine Or.inr ⟨?_, rfl, rfl⟩
    intro c hc
    simpa using List.findIdx?_eq_none_iff.1 hnone c hc

/-- The position of a component lies in the graph that has it. -/
theorem insert_lt_size (g : ResolvedGraph) (identity : Identity) :
    (g.insert identity).2 < (g.insert identity).1.size := by
  rcases g.insert_cases identity with ⟨i, c, hc, -, heq⟩ | ⟨-, hcomponents, hposition⟩
  · rw [heq]
    exact (List.getElem?_eq_some_iff.1 hc).1
  · simp [size, hcomponents, hposition]

theorem size_le_insert (g : ResolvedGraph) (identity : Identity) :
    g.size ≤ (g.insert identity).1.size := by
  rcases g.insert_cases identity with ⟨i, c, -, -, heq⟩ | ⟨-, hcomponents, -⟩
  · have hsize : (g.insert identity).1.size = g.size := by rw [heq]
    exact Nat.le_of_eq hsize.symm
  · simp [size, hcomponents]

@[simp] theorem size_addEdge : (g.addEdge source edge).size = g.size := by
  simp [size, addEdge]

theorem Closed.insert (h : g.Closed) (identity : Identity) : (g.insert identity).1.Closed := by
  intro c hc edge hedge t ht
  have hsize := g.size_le_insert identity
  rcases g.insert_cases identity with ⟨i, found, -, -, heq⟩ | ⟨-, hcomponents, -⟩
  · rw [heq] at hc ⊢
    exact h c hc edge hedge t ht
  · rw [hcomponents, List.mem_append, List.mem_singleton] at hc
    rcases hc with hc | rfl
    · have hlt := h c hc edge hedge t ht
      omega
    · -- the new component has no edges
      exact absurd hedge List.not_mem_nil

theorem Closed.addEdge (h : g.Closed) (source : Nat) (hedge : ∀ t, edge.target? = some t → t < g.size) :
    (g.addEdge source edge).Closed := by
  intro c hc e he t ht
  rw [size_addEdge]
  obtain ⟨i, hi⟩ := List.mem_iff_getElem?.1 hc
  obtain ⟨own, hown, rfl⟩ : ∃ own, g.components[i]? = some own ∧
      (if source = i then { own with edges := own.edges ++ [edge] } else own) = c := by
    simpa [ResolvedGraph.addEdge, List.getElem?_modify] using hi
  have hmem : own ∈ g.components := List.mem_of_getElem? hown
  split at he
  · rcases List.mem_append.1 he with he | he
    · exact h own hmem e he t ht
    · obtain rfl : e = edge := List.mem_singleton.1 he
      exact hedge t ht
  · exact h own hmem e he t ht

end ResolvedGraph

/-! ## Whole growth -/

/-- A step in the growth of a graph. -/
inductive Growth where
  /-- Asks for the position of a component, which is added if there is none of that identity. -/
  | component (identity : Identity)
  /-- Adds an edge to the component at a position. -/
  | edge (source : Nat) (edge : Edge)
deriving DecidableEq

/-- The positions that an edge names. -/
def Edge.positions : Edge → List Nat
  | resolved _ target => [target]
  | unresolved _ _ => []
  | constraint _ target => target.toList

/-- A graph as it grows. -/
structure Growing where
  graph : ResolvedGraph
  /-- The positions handed out so far, that of the root first. -/
  handed : List Nat

namespace Growing

/-- A graph that consists of its root. -/
def start (root : Identity) : Growing :=
  ⟨.start root, [0]⟩

/-- Takes a step. -/
def take (b : Growing) : Growth → Growing
  | .component identity =>
      { graph := (b.graph.insert identity).1
        handed := b.handed ++ [(b.graph.insert identity).2] }
  | .edge source edge => { b with graph := b.graph.addEdge source edge }

/-- Takes steps one after another. -/
def takeAll (b : Growing) (steps : List Growth) : Growing :=
  steps.foldl take b

/-- A step names only positions that were handed out. -/
def Permits (b : Growing) : Growth → Prop
  | .component _ => True
  | .edge source edge => source ∈ b.handed ∧ ∀ i ∈ edge.positions, i ∈ b.handed

/-- Each of some steps names only positions that were handed out before it. -/
def PermitsAll (b : Growing) : List Growth → Prop
  | [] => True
  | step :: rest => b.Permits step ∧ (b.take step).PermitsAll rest

instance (b : Growing) (step : Growth) : Decidable (b.Permits step) :=
  match step with
  | .component _ => inferInstanceAs (Decidable True)
  | .edge source edge =>
      inferInstanceAs (Decidable (source ∈ b.handed ∧ ∀ i ∈ edge.positions, i ∈ b.handed))

instance decidablePermitsAll : (b : Growing) → (steps : List Growth) → Decidable (b.PermitsAll steps)
  | _, [] => inferInstanceAs (Decidable True)
  | b, step :: rest =>
      have := decidablePermitsAll (b.take step) rest
      inferInstanceAs (Decidable (b.Permits step ∧ (b.take step).PermitsAll rest))

/-- No edge leads out of the graph, and no position that was handed out is outside. -/
structure Sound (b : Growing) : Prop where
  closed : b.graph.Closed
  handed : ∀ i ∈ b.handed, i < b.graph.size

variable {b : Growing} {step : Growth} {steps : List Growth}

theorem sound_start (root : Identity) : (start root).Sound := by
  refine ⟨ResolvedGraph.closed_start root, ?_⟩
  intro i hi
  obtain rfl : i = 0 := List.mem_singleton.1 hi
  exact Nat.one_pos

theorem Sound.take (h : b.Sound) (hstep : b.Permits step) : (b.take step).Sound := by
  cases step with
  | component identity =>
      refine ⟨h.closed.insert identity, ?_⟩
      intro i hi
      rcases List.mem_append.1 hi with hi | hi
      · exact Nat.lt_of_lt_of_le (h.handed i hi) (b.graph.size_le_insert identity)
      · obtain rfl := List.mem_singleton.1 hi
        exact b.graph.insert_lt_size identity
  | edge source edge =>
      obtain ⟨-, hpositions⟩ := hstep
      constructor
      · apply h.closed.addEdge source
        intro t ht
        have ht : t ∈ edge.positions := by cases edge <;> simp_all [Edge.target?, Edge.positions]
        exact h.handed t (hpositions t ht)
      · intro i hi
        have hlt := h.handed i hi
        simpa [Growing.take] using hlt

theorem Sound.takeAll (h : b.Sound) (hsteps : b.PermitsAll steps) : (b.takeAll steps).Sound := by
  induction steps generalizing b with
  | nil => exact h
  | cons step rest ih =>
      obtain ⟨hstep, hrest⟩ := hsteps
      exact ih (h.take hstep) hrest

/-- A graph that grows with positions it handed out is closed. -/
theorem closed_of_permitsAll {root : Identity} (h : (start root).PermitsAll steps) :
    ((start root).takeAll steps).graph.Closed :=
  ((sound_start root).takeAll h).closed

end Growing

end ManagedGraph
