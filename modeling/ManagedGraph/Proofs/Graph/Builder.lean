import ManagedGraph.Proofs.Graph.Growing
import Mathlib.Data.List.Nodup
import Std.Data.HashMap.Lemmas

/-!
# Building a graph with an index

A builder finds the components of a graph through an index of their positions instead of looking
through all of them. Arena and index are written one after the other, and an edge that starts
outside the arena ends everything. If edges start at positions that were returned, the index stays
in step with the arena (`InStep`), so the builder makes the graph that grows by `insert` and
`addEdge`, and returns the positions that are handed out there. What such a graph holds is then
said by the calls alone (`Records`).
-/

namespace ManagedGraph

deriving instance Hashable for ModuleId, ModuleVersion, Identity

/-! ## Components of a growing graph -/

namespace ResolvedGraph

/-- The identities of the components, in order. -/
def identities (g : ResolvedGraph) : List Identity :=
  g.components.map Component.identity

variable {g : ResolvedGraph} {identity : Identity} {source i : Nat} {edge : Edge}

theorem identities_addEdge : (g.addEdge source edge).identities = g.identities := by
  apply List.ext_getElem?
  intro i
  simp only [identities, addEdge, List.getElem?_map, List.getElem?_modify]
  cases g.components[i]? with
  | none => rfl
  | some c => by_cases h : source = i <;> simp [h]

/-- A component is found at its position, or it is added behind all others. -/
theorem insert_components (g : ResolvedGraph) (identity : Identity) :
    (∃ i, g.identities[i]? = some identity ∧ g.insert identity = (g, i)) ∨
      identity ∉ g.identities ∧
        (g.insert identity).1.components = g.components ++ [⟨identity, []⟩] ∧
          (g.insert identity).2 = g.identities.length := by
  rcases g.insert_cases identity with ⟨i, c, hc, hidentity, heq⟩ | ⟨hnew, hcomponents, hposition⟩
  · exact Or.inl ⟨i, by simp [identities, hc, hidentity], heq⟩
  · refine Or.inr ⟨?_, hcomponents, by simp [identities, hposition, size]⟩
    intro hmem
    obtain ⟨c, hc, hidentity⟩ := List.mem_map.1 hmem
    exact hnew c hc hidentity

theorem identities_of_components {h : ResolvedGraph}
    (hcomponents : h.components = g.components ++ [⟨identity, []⟩]) :
    h.identities = g.identities ++ [identity] := by
  simp [identities, hcomponents]

/-- A component is added without edges. -/
theorem edges_insert : (g.insert identity).1.edges i = g.edges i := by
  rcases g.insert_cases identity with ⟨j, c, -, -, heq⟩ | ⟨-, hcomponents, -⟩
  · rw [heq]
  · unfold edges
    rw [hcomponents, List.getElem?_append]
    split
    · rfl
    · rename_i hge
      rw [List.getElem?_eq_none (Nat.le_of_not_lt hge)]
      cases h : [(⟨identity, []⟩ : Component)][i - g.components.length]? with
      | none => rfl
      | some c =>
          obtain rfl := List.mem_singleton.1 (List.mem_of_getElem? h)
          rfl

/-- An edge is added behind those of its source. -/
theorem edges_addEdge (hsource : source < g.size) :
    (g.addEdge source edge).edges i = g.edges i ++ if source = i then [edge] else [] := by
  unfold edges addEdge
  rw [List.getElem?_modify]
  by_cases h : source = i
  · subst h
    simp [List.getElem?_eq_getElem hsource]
  · simp [h]

end ResolvedGraph

/-! ## What the steps of a growth add up to -/

namespace Growth

/-- The identity that a step asks for. -/
def identity? : Growth → Option Identity
  | .component identity => some identity
  | .edge _ _ => none

/-- The edge that a step adds to the component at a position. -/
def edgeFrom? (i : Nat) : Growth → Option Edge
  | .component _ => none
  | .edge source added => if source = i then some added else none

end Growth

namespace Growing

/-- The root, and then the identities that some steps ask for. -/
def asked (root : Identity) (steps : List Growth) : List Identity :=
  root :: steps.filterMap Growth.identity?

/-- An edge starts at a position that was handed out. -/
def StartsWithin (b : Growing) : Growth → Prop
  | .component _ => True
  | .edge source _ => source ∈ b.handed

/-- Each edge among some steps starts at a position that was handed out before. -/
def AllStartWithin (b : Growing) : List Growth → Prop
  | [] => True
  | step :: rest => b.StartsWithin step ∧ (b.take step).AllStartWithin rest

instance (b : Growing) (step : Growth) : Decidable (b.StartsWithin step) :=
  match step with
  | .component _ => inferInstanceAs (Decidable True)
  | .edge source _ => inferInstanceAs (Decidable (source ∈ b.handed))

instance decidableAllStartWithin :
    (b : Growing) → (steps : List Growth) → Decidable (b.AllStartWithin steps)
  | _, [] => inferInstanceAs (Decidable True)
  | b, step :: rest =>
      have := decidableAllStartWithin (b.take step) rest
      inferInstanceAs (Decidable (b.StartsWithin step ∧ (b.take step).AllStartWithin rest))

/-- A graph shows the steps it has grown by: which identities were asked for, in the order in which
each was first asked for, which positions were handed out for them, and the edges that were added to
each component. -/
structure Records (root : Identity) (steps : List Growth) (b : Growing) : Prop where
  identities : b.graph.identities = (asked root steps).eraseDups
  handed : b.handed.map (fun i => b.graph.identities[i]?) = (asked root steps).map some
  edges : ∀ i, b.graph.edges i = steps.filterMap (Growth.edgeFrom? i)

variable {root : Identity} {steps : List Growth} {step : Growth} {b : Growing}

theorem records_start (root : Identity) : (start root).Records root [] := by
  refine ⟨rfl, rfl, ?_⟩
  intro i
  cases i <;> rfl

/-- A position that was handed out lies in the graph. -/
theorem Records.exists_identity (h : b.Records root steps) {i : Nat} (hi : i ∈ b.handed) :
    ∃ identity, b.graph.identities[i]? = some identity := by
  have hmem : b.graph.identities[i]? ∈ b.handed.map fun i => b.graph.identities[i]? :=
    List.mem_map_of_mem hi
  rw [h.handed] at hmem
  obtain ⟨identity, -, hidentity⟩ := List.mem_map.1 hmem
  exact ⟨identity, hidentity.symm⟩

theorem Records.lt_size (h : b.Records root steps) {i : Nat} (hi : i ∈ b.handed) :
    i < b.graph.size := by
  obtain ⟨identity, hidentity⟩ := h.exists_identity hi
  simpa [ResolvedGraph.identities, ResolvedGraph.size] using (List.getElem?_eq_some_iff.1 hidentity).1

theorem asked_concat_component {identity : Identity} :
    asked root (steps ++ [.component identity]) = asked root steps ++ [identity] := by
  simp [asked, Growth.identity?]

theorem asked_concat_edge {source : Nat} {edge : Edge} :
    asked root (steps ++ [.edge source edge]) = asked root steps := by
  simp [asked, Growth.identity?]

theorem eraseDups_concat {as : List Identity} {x : Identity} :
    (as ++ [x]).eraseDups = if x ∈ as then as.eraseDups else as.eraseDups ++ [x] := by
  rw [List.eraseDups_append]
  by_cases h : x ∈ as <;> simp [List.removeAll, h, List.eraseDups_cons]

/-- What stands at a position that was handed out stays there when others are added behind it. -/
theorem Records.getElem?_append (h : b.Records root steps) {i : Nat} (hi : i ∈ b.handed)
    (more : List Identity) : (b.graph.identities ++ more)[i]? = b.graph.identities[i]? := by
  obtain ⟨identity, hidentity⟩ := h.exists_identity hi
  exact List.getElem?_append_left (List.getElem?_eq_some_iff.1 hidentity).1

theorem Records.component (h : b.Records root steps) (identity : Identity) :
    (b.take (.component identity)).Records root (steps ++ [.component identity]) := by
  have hedges (i : Nat) : (b.graph.insert identity).1.edges i =
      (steps ++ [Growth.component identity]).filterMap (Growth.edgeFrom? i) := by
    simp [ResolvedGraph.edges_insert, h.edges, Growth.edgeFrom?]
  rcases b.graph.insert_components identity with ⟨i, hi, heq⟩ | ⟨hnew, hcomponents, hposition⟩
  · have hmem : identity ∈ asked root steps := by
      rw [← List.mem_eraseDups, ← h.identities]
      exact List.mem_of_getElem? hi
    refine ⟨?_, ?_, hedges⟩
    · rw [asked_concat_component, eraseDups_concat, if_pos hmem, ← h.identities]
      simp only [Growing.take, heq]
    · rw [asked_concat_component, List.map_append, ← h.handed]
      simp [Growing.take, heq, hi]
  · have hidentities := ResolvedGraph.identities_of_components hcomponents
    have hmem : identity ∉ asked root steps := by
      rwa [← List.mem_eraseDups, ← h.identities]
    refine ⟨?_, ?_, hedges⟩
    · rw [asked_concat_component, eraseDups_concat, if_neg hmem, ← h.identities]
      exact hidentities
    · -- the new component stands behind all those that were handed out
      have hold := List.map_congr_left fun i hi => h.getElem?_append (i := i) hi [identity]
      rw [asked_concat_component, List.map_append, ← h.handed]
      simp only [Growing.take, hidentities, hposition, List.map_append, hold]
      simp

theorem Records.edge {source : Nat} (h : b.Records root steps) (hsource : source ∈ b.handed)
    (edge : Edge) : (b.take (.edge source edge)).Records root (steps ++ [.edge source edge]) := by
  have hlt : source < b.graph.size := h.lt_size hsource
  refine ⟨?_, ?_, ?_⟩
  · rw [asked_concat_edge, ← h.identities]
    exact ResolvedGraph.identities_addEdge
  · rw [asked_concat_edge, ← h.handed]
    simp only [Growing.take, ResolvedGraph.identities_addEdge]
  · intro i
    simp only [Growing.take, ResolvedGraph.edges_addEdge hlt, h.edges, List.filterMap_append]
    by_cases hi : source = i <;> simp [Growth.edgeFrom?, hi]

theorem Records.take (h : b.Records root steps) (hstep : b.StartsWithin step) :
    (b.take step).Records root (steps ++ [step]) := by
  cases step with
  | component identity => exact h.component identity
  | edge source edge => exact h.edge hstep edge

theorem Records.takeAll {later : List Growth} (h : b.Records root steps)
    (hlater : b.AllStartWithin later) : (b.takeAll later).Records root (steps ++ later) := by
  induction later generalizing b steps with
  | nil => simpa [Growing.takeAll] using h
  | cons step rest ih =>
      obtain ⟨hstep, hrest⟩ := hlater
      have hmore := ih (h.take hstep) hrest
      rwa [List.append_assoc] at hmore

end Growing

/-! ## The builder -/

/-- An arena of components, and the position of each of them by its identity. -/
structure Builder where
  components : List Component
  index : Std.HashMap Identity Nat

namespace Builder

/-- The position of a component, which is added at the end if the index knows none of that
identity. -/
def addComponent (b : Builder) (identity : Identity) : Builder × Nat :=
  match b.index[identity]? with
  | some i => (b, i)
  | none =>
      ({ components := b.components ++ [⟨identity, []⟩]
         index := b.index.insert identity b.components.length }, b.components.length)

/-- One more edge at the end of those of a component. This fails outside the arena. -/
def addDependency? (b : Builder) (source : Nat) (edge : Edge) : Option Builder :=
  if source < b.components.length then
    some { b with
      components := b.components.modify source fun c => { c with edges := c.edges ++ [edge] } }
  else none

/-- A builder that has its root only. -/
def new (root : Identity) : Builder :=
  (addComponent ⟨[], ∅⟩ root).1

/-- The arena holds the components of a graph, and the index knows the position of each, and no
other. -/
structure InStep (b : Builder) (g : ResolvedGraph) : Prop where
  components : b.components = g.components
  index : ∀ (identity : Identity) (i : Nat),
    b.index[identity]? = some i ↔ g.identities[i]? = some identity

variable {b : Builder} {g : ResolvedGraph} {identity : Identity} {source i : Nat} {edge : Edge}

theorem addComponent_of_some (h : b.index[identity]? = some i) :
    b.addComponent identity = (b, i) := by
  simp [addComponent, h]

theorem addComponent_of_none (h : b.index[identity]? = none) :
    b.addComponent identity =
      ({ components := b.components ++ [⟨identity, []⟩]
         index := b.index.insert identity b.components.length }, b.components.length) := by
  simp [addComponent, h]

theorem inStep_new (root : Identity) : (new root).InStep (.start root) := by
  have hnone : (∅ : Std.HashMap Identity Nat)[root]? = none := Std.HashMap.getElem?_empty
  unfold new
  rw [addComponent_of_none hnone]
  refine ⟨rfl, ?_⟩
  intro identity i
  cases i <;> simp [Std.HashMap.getElem?_insert, ResolvedGraph.identities, ResolvedGraph.start]

/-- An index can know one position for an identity only. -/
theorem InStep.nodup (h : b.InStep g) : g.identities.Nodup := by
  rw [List.nodup_iff_getElem?_ne_getElem?]
  intro i j hij hj heq
  have hidentity : g.identities[j]? = some g.identities[j] := List.getElem?_eq_getElem hj
  have hi := (h.index _ _).2 (heq.trans hidentity)
  rw [(h.index _ _).2 hidentity] at hi
  exact Nat.ne_of_gt hij (Option.some.inj hi)

/-- A builder changes nothing and returns a position exactly if the component there has the identity
that was asked for. -/
theorem InStep.addComponent_eq_self_iff (h : b.InStep g) :
    b.addComponent identity = (b, i) ↔ g.identities[i]? = some identity := by
  rw [← h.index]
  cases hindex : b.index[identity]? with
  | none =>
      rw [addComponent_of_none hindex, iff_false_right (by simp)]
      intro heq
      have hlengths := congrArg (fun x => x.1.components.length) heq
      simp at hlengths
  | some j => simp [addComponent_of_some hindex]

/-- A component that is added stands behind all others. -/
theorem getElem?_concat_eq_some_iff {ids : List Identity} {other : Identity} :
    (ids ++ [identity])[i]? = some other ↔
      ids[i]? = some other ∨ i = ids.length ∧ identity = other := by
  rcases Nat.lt_trichotomy i ids.length with hlt | rfl | hgt
  · rw [List.getElem?_append_left hlt]
    simp [Nat.ne_of_lt hlt]
  · simp
  · have hlength : (ids ++ [identity]).length ≤ i := by
      rw [List.length_append]
      exact hgt
    rw [List.getElem?_eq_none hlength, List.getElem?_eq_none (Nat.le_of_lt hgt)]
    simp [Nat.ne_of_gt hgt]

theorem InStep.addComponent (h : b.InStep g) (identity : Identity) :
    (b.addComponent identity).1.InStep (g.insert identity).1 ∧
      (b.addComponent identity).2 = (g.insert identity).2 := by
  rcases g.insert_components identity with ⟨i, hi, heq⟩ | ⟨hnew, hcomponents, hposition⟩
  · rw [h.addComponent_eq_self_iff.2 hi, heq]
    exact ⟨h, rfl⟩
  · have hnone : b.index[identity]? = none := by
      rw [Option.eq_none_iff_forall_ne_some]
      intro i hi
      exact hnew (List.mem_of_getElem? ((h.index _ _).1 hi))
    have hlength : b.components.length = g.identities.length := by
      simp [h.components, ResolvedGraph.identities]
    rw [addComponent_of_none hnone]
    refine ⟨⟨?_, ?_⟩, ?_⟩
    · rw [hcomponents, h.components]
    · intro other i
      rw [ResolvedGraph.identities_of_components hcomponents, getElem?_concat_eq_some_iff,
        Std.HashMap.getElem?_insert, ← h.index, hlength]
      by_cases hother : identity = other
      · subst hother
        simp [hnone, eq_comm]
      · simp [hother]
    · rw [hposition, hlength]

theorem InStep.addDependency (h : b.InStep g) (edge : Edge) (hsource : source < g.size) :
    ∃ more, b.addDependency? source edge = some more ∧ more.InStep (g.addEdge source edge) := by
  have hlt : source < b.components.length := by
    rw [h.components]
    exact hsource
  refine ⟨_, if_pos hlt, by simp [ResolvedGraph.addEdge, h.components], ?_⟩
  rw [ResolvedGraph.identities_addEdge]
  exact h.index

end Builder

/-- A builder at work, with the positions it has returned so far. -/
structure Building where
  builder : Builder
  returned : List Nat

namespace Building

/-- At the start the position of the root is known. -/
def start (root : Identity) : Building :=
  ⟨.new root, [0]⟩

/-- One call. -/
def call? (x : Building) : Growth → Option Building
  | .component identity =>
      some ⟨(x.builder.addComponent identity).1, x.returned ++ [(x.builder.addComponent identity).2]⟩
  | .edge source edge =>
      (x.builder.addDependency? source edge).map fun builder => { x with builder := builder }

/-- One call after another. -/
def callAll? (x : Building) (calls : List Growth) : Option Building :=
  calls.foldlM call? x

/-- A builder makes a graph, and returns the positions that are handed out as the graph grows. -/
structure InStep (x : Building) (b : Growing) : Prop where
  builder : x.builder.InStep b.graph
  returned : x.returned = b.handed

variable {x : Building} {b : Growing} {root : Identity} {steps later : List Growth} {step : Growth}

theorem inStep_start (root : Identity) : (start root).InStep (.start root) :=
  ⟨Builder.inStep_new root, rfl⟩

theorem InStep.call (h : x.InStep b) (hrecords : b.Records root steps)
    (hstep : b.StartsWithin step) : ∃ y, x.call? step = some y ∧ y.InStep (b.take step) := by
  cases step with
  | component identity =>
      obtain ⟨hbuilder, hposition⟩ := h.builder.addComponent identity
      exact ⟨_, rfl, hbuilder, by simp [Growing.take, h.returned, hposition]⟩
  | edge source edge =>
      obtain ⟨more, hmore, hbuilder⟩ := h.builder.addDependency edge (hrecords.lt_size hstep)
      exact ⟨⟨more, x.returned⟩, by simp [call?, hmore], hbuilder, h.returned⟩

theorem InStep.callAll (h : x.InStep b) (hrecords : b.Records root steps)
    (hlater : b.AllStartWithin later) :
    ∃ y, x.callAll? later = some y ∧ y.InStep (b.takeAll later) := by
  induction later generalizing x b steps with
  | nil => exact ⟨x, rfl, h⟩
  | cons step rest ih =>
      obtain ⟨hstep, hrest⟩ := hlater
      obtain ⟨y, hy, hnext⟩ := h.call hrecords hstep
      obtain ⟨z, hz, hall⟩ := ih hnext (hrecords.take hstep) hrest
      refine ⟨z, ?_, hall⟩
      rw [callAll?, List.foldlM_cons, hy]
      exact hz

/-- If the edges of some calls start at positions that were returned before, then all calls succeed
on a new builder. It makes the graph that grows by the same steps and returns the same positions.
The components have distinct identities, in the order in which each was first added, the root at
position zero, and the index knows just their positions. Each position returned is that of the
component with exactly the identity asked for; a call for an identity that is there returns its
position and changes nothing. The edges of a component are those added to its position, in order. -/
theorem arena_and_index_in_step (root : Identity) (calls : List Growth)
    (h : (Growing.start root).AllStartWithin calls) :
    let grown := (Growing.start root).takeAll calls
    let identities := grown.graph.identities
    ∃ x : Building, (start root).callAll? calls = some x ∧
      x.builder.components = grown.graph.components ∧ x.returned = grown.handed ∧
      identities.Nodup ∧ identities = (Growing.asked root calls).eraseDups ∧
      identities[0]? = some root ∧
      (∀ (identity : Identity) (i : Nat),
        x.builder.index[identity]? = some i ↔ identities[i]? = some identity) ∧
      x.returned.map (fun i => identities[i]?) = (Growing.asked root calls).map some ∧
      (∀ (identity : Identity) (i : Nat),
        x.builder.addComponent identity = (x.builder, i) ↔ identities[i]? = some identity) ∧
      ∀ i, grown.graph.edges i = calls.filterMap (Growth.edgeFrom? i) := by
  intro grown identities
  have hstart := Growing.records_start root
  have hrecords : grown.Records root calls := hstart.takeAll h
  obtain ⟨x, hx, hstep⟩ := (inStep_start root).callAll hstart h
  have hroot : grown.graph.identities[0]? = some root := by
    rw [hrecords.identities, Growing.asked, List.eraseDups_cons, List.getElem?_cons_zero]
  have hreturned : x.returned.map (fun i => grown.graph.identities[i]?) =
      (Growing.asked root calls).map some := by
    rw [hstep.returned]
    exact hrecords.handed
  exact ⟨x, hx, hstep.builder.components, hstep.returned, hstep.builder.nodup,
    hrecords.identities, hroot, hstep.builder.index, hreturned,
    fun _ _ => hstep.builder.addComponent_eq_self_iff, hrecords.edges⟩

/-- The root of a small build. -/
def app : Identity :=
  .project ":" ⟨⟨"org", "app"⟩, "1.0"⟩

/-- Two modules are added, the first of them twice, and the root asks for both, the second first. -/
def repeating : List Growth :=
  let module (artifact : String) : Identity := .module ⟨⟨"org", artifact⟩, "1.0"⟩
  let resolved (artifact : String) (t : Nat) : Edge :=
    .resolved (.module ⟨⟨"org", artifact⟩, none⟩) t
  [.component (module "a"), .edge 1 (resolved "a" 1), .component (module "b"),
    .edge 0 (resolved "b" 2), .component (module "a"), .edge 0 (resolved "a" 1)]

theorem arena_and_index_in_step_repeating :
    (Growing.start app).AllStartWithin repeating ∧
      ∃ x : Building, (start app).callAll? repeating = some x ∧ x.returned = [0, 1, 2, 1] ∧
        x.builder.index[app]? = some 0 ∧ x.builder.addComponent app = (x.builder, 0) := by
  have hstarts : (Growing.start app).AllStartWithin repeating := by decide
  obtain ⟨x, hx, -, hreturned, -, -, hroot, hindex, -, hagain, -⟩ :=
    arena_and_index_in_step app repeating hstarts
  have hhanded : ((Growing.start app).takeAll repeating).handed = [0, 1, 2, 1] := by decide
  exact ⟨hstarts, x, hx, hreturned.trans hhanded, (hindex app 0).2 hroot, (hagain app 0).2 hroot⟩

end Building

end ManagedGraph
