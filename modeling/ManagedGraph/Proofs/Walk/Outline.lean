import ManagedGraph.Proofs.Walk.Paths
import ManagedGraph.Proofs.Walk.Pruned

/-!
# What a walk depends on

A walk reads little of a graph: the module of each component, and for each edge the component it
leads to or the module it asked for in vain. This is the outline of the graph. Constraints,
versions, selectors, unresolved projects and the texts of failures are not in it. Of the
exclusions it reads the patterns, from whichever table they come; what is malformed is carried
along and suppresses nothing.

So two walks over one outline, with the same patterns registered for each module, go in step:
their entries are at the same components, with the same patterns in force (`alike_entries`), and
they end in the same outcome (`outcome_of_outline`).
-/

namespace ManagedGraph

/-- Lists that are related entry by entry contribute the same if related entries do. -/
theorem flatMap_eq_of_forall₂ {α β γ : Type} {R : α → β → Prop} {f : α → List γ} {f' : β → List γ}
    {l : List α} {l' : List β} (h : List.Forall₂ R l l') (hentry : ∀ a b, R a b → f a = f' b) :
    l.flatMap f = l'.flatMap f' := by
  induction h with
  | nil => rfl
  | @cons a b rest rest' hab _ ih => rw [List.flatMap_cons, List.flatMap_cons, hentry a b hab, ih]

/-! ## Outlines -/

/-- Where an edge goes: to a component, or to a module that was not found. A constraint goes
nowhere, and nor does an edge to a project that was not found. -/
def Edge.goal? : Edge → Option (Nat ⊕ ModuleId)
  | resolved _ target => some (.inl target)
  | unresolved attempted _ => attempted.moduleId?.map .inr
  | constraint _ _ => none

namespace ResolvedGraph

/-- Where the edges of a component go, in order. -/
def goals (g : ResolvedGraph) (i : Nat) : List (Nat ⊕ ModuleId) :=
  (g.edges i).filterMap Edge.goal?

/-- The module of each component, and where its edges go. -/
def outline (g : ResolvedGraph) : List (ModuleId × List (Nat ⊕ ModuleId)) :=
  g.components.map fun c => (c.moduleId, c.edges.filterMap Edge.goal?)

variable {g g' : ResolvedGraph}

theorem moduleId?_eq_outline (g : ResolvedGraph) (i : Nat) :
    g.moduleId? i = (g.outline[i]?).map Prod.fst := by
  unfold moduleId? outline
  rw [List.getElem?_map, Option.map_map]
  rfl

theorem goals_eq_outline (g : ResolvedGraph) (i : Nat) :
    g.goals i = ((g.outline[i]?).map Prod.snd).getD [] := by
  unfold goals edges outline
  rw [List.getElem?_map, Option.map_map]
  cases g.components[i]? <;> rfl

theorem filterMap_target? (edges : List Edge) :
    edges.filterMap Edge.target? = (edges.filterMap Edge.goal?).filterMap Sum.getLeft? := by
  rw [List.filterMap_filterMap]
  congr 1
  funext edge
  cases edge with
  | resolved requested target => rfl
  | unresolved attempted failure => cases attempted <;> rfl
  | constraint requested target => rfl

theorem filterMap_attempted? (edges : List Edge) :
    edges.filterMap Edge.attempted? = (edges.filterMap Edge.goal?).filterMap Sum.getRight? := by
  rw [List.filterMap_filterMap]
  congr 1
  funext edge
  cases edge with
  | resolved requested target => rfl
  | unresolved attempted failure => cases attempted <;> rfl
  | constraint requested target => rfl

end ResolvedGraph

/-! ## Patterns -/

namespace ExclusionSet

/-- The exclusions of a set that are not malformed. -/
def wellFormed (patterns : ExclusionSet) : ExclusionSet :=
  patterns.filter fun p => !p.isMalformed

variable {a b : ExclusionSet}

theorem mem_wellFormed {p : Exclusion} : p ∈ a.wellFormed ↔ p ∈ a ∧ p.isMalformed = false := by
  simp [wellFormed, Std.ExtTreeSet.mem_filter]

theorem wellFormed_union (a b : ExclusionSet) :
    (a ∪ b : ExclusionSet).wellFormed = a.wellFormed ∪ b.wellFormed := by
  apply Std.ExtTreeSet.ext_mem
  intro p
  simp only [mem_wellFormed, Std.ExtTreeSet.mem_union_iff]
  exact or_and_right

/-- What is malformed suppresses nothing. -/
theorem suppresses_wellFormed (a : ExclusionSet) (id : ModuleId) :
    a.wellFormed.suppresses id = a.suppresses id := by
  rw [Bool.eq_iff_iff, suppresses_eq_true_iff, suppresses_eq_true_iff]
  constructor
  · rintro ⟨p, hp, hid⟩
    exact ⟨p, (mem_wellFormed.1 hp).1, hid⟩
  · rintro ⟨p, hp, hid⟩
    have hformed : p.isMalformed = false := by
      cases p with
      | pattern group artifact => rfl
      | malformed raw => exact absurd hid (by simp [Exclusion.suppresses])
    exact ⟨p, mem_wellFormed.2 ⟨hp, hformed⟩, hid⟩

theorem suppresses_congr (h : a.wellFormed = b.wellFormed) (id : ModuleId) :
    a.suppresses id = b.suppresses id := by
  rw [← suppresses_wellFormed a, h, suppresses_wellFormed]

end ExclusionSet

namespace Walk

variable {g g' : ResolvedGraph} {sources sources' : ExclusionSources} {e e' : Entry}

/-! ## One entry -/

/-- An entry leads on to the components of its goals that are not suppressed. -/
theorem targets_eq_goals (g : ResolvedGraph) (sources : ExclusionSources) (e : Entry) :
    e.targets g sources =
      ((g.goals e.component).filterMap Sum.getLeft?).filter fun t =>
        (g.moduleId? t).any fun id => !(e.patterns g sources).suppresses id := by
  unfold ResolvedGraph.goals Entry.targets
  rw [← ResolvedGraph.filterMap_target?, List.filter_filterMap]
  congr 1
  funext edge
  cases edge.target? with
  | none => rfl
  | some t =>
      cases hid : g.moduleId? t with
      | none => simp [Option.filter, hid]
      | some id => cases h : (e.patterns g sources).suppresses id <;> simp [Option.filter, hid, h]

/-- An entry attempts the modules of its goals that are not suppressed. -/
theorem attempts_eq_goals (g : ResolvedGraph) (sources : ExclusionSources) (e : Entry) :
    e.attempts g sources =
      ((g.goals e.component).filterMap Sum.getRight?).filter fun id =>
        !(e.patterns g sources).suppresses id := by
  unfold ResolvedGraph.goals Entry.attempts
  rw [← ResolvedGraph.filterMap_attempted?, List.filter_filterMap]
  congr 1
  funext edge
  cases edge.attempted? with
  | none => rfl
  | some id => cases h : (e.patterns g sources).suppresses id <;> simp [Option.filter, h]

/-- Two entries are at the same component and inherit the same patterns. -/
structure Alike (e e' : Entry) : Prop where
  component : e'.component = e.component
  inherited : e'.inherited.wellFormed = e.inherited.wellFormed

section TwoWalks

variable (hgraph : g'.outline = g.outline)
variable (hsources : ∀ owner,
  (sources'.registered owner).wellFormed = (sources.registered owner).wellFormed)

include hgraph

theorem moduleId?_of_outline (i : Nat) : g'.moduleId? i = g.moduleId? i := by
  rw [g'.moduleId?_eq_outline, g.moduleId?_eq_outline, hgraph]

theorem goals_of_outline (i : Nat) : g'.goals i = g.goals i := by
  rw [g'.goals_eq_outline, g.goals_eq_outline, hgraph]

include hsources

/-- The same patterns are in force below entries that are alike. -/
theorem Alike.patterns (h : Alike e e') :
    (e'.patterns g' sources').wellFormed = (e.patterns g sources).wellFormed := by
  unfold Entry.patterns
  rw [h.component, moduleId?_of_outline hgraph]
  cases g.moduleId? e.component with
  | none => exact h.inherited
  | some owner =>
      simp only
      rw [ExclusionSet.wellFormed_union, ExclusionSet.wellFormed_union, h.inherited, hsources]

theorem Alike.suppresses (h : Alike e e') (id : ModuleId) :
    (e'.patterns g' sources').suppresses id = (e.patterns g sources).suppresses id :=
  ExclusionSet.suppresses_congr (h.patterns hgraph hsources) id

theorem Alike.targets (h : Alike e e') : e'.targets g' sources' = e.targets g sources := by
  simp only [targets_eq_goals, h.component, goals_of_outline hgraph, moduleId?_of_outline hgraph,
    h.suppresses hgraph hsources]

theorem Alike.attempts (h : Alike e e') : e'.attempts g' sources' = e.attempts g sources := by
  simp only [attempts_eq_goals, h.component, goals_of_outline hgraph,
    h.suppresses hgraph hsources]

/-! ## Whole walks -/

/-- The walks take entries that are alike, one by one. -/
theorem alike_entries : List.Forall₂ Alike (entries g sources) (entries g' sources') := by
  apply forall₂_visit
  · intro e _ e' h
    refine ⟨h.targets hgraph hsources, ?_⟩
    intro t
    -- what is in force below the entries is what their targets inherit
    exact ⟨rfl, h.patterns hgraph hsources⟩
  · exact .cons ⟨rfl, rfl⟩ .nil

theorem included_of_outline : included g' sources' = included g sources := by
  unfold included
  congr 1
  apply flatMap_eq_of_forall₂ (alike_entries hgraph hsources).flip
  intro e' e h
  rw [h.component, moduleId?_of_outline hgraph, h.attempts hgraph hsources]

omit hsources in
/-- The candidates are the modules of all goals. -/
theorem candidates_of_outline : candidates g' = candidates g := by
  have hgoals (h : ResolvedGraph) : candidates h =
      Std.ExtTreeSet.ofList (h.outline.flatMap fun component =>
        component.2.filterMap (Sum.elim h.moduleId? some)) := by
    unfold candidates ResolvedGraph.outline
    rw [List.flatMap_map]
    congr 2
    funext c
    rw [List.filterMap_filterMap]
    congr 1
    funext edge
    cases edge with
    | resolved requested target => rfl
    | unresolved attempted failure => cases attempted <;> rfl
    | constraint requested target => rfl
  have hmodules : g'.moduleId? = g.moduleId? := funext (moduleId?_of_outline hgraph)
  rw [hgoals g', hgoals g, hgraph, hmodules]

end TwoWalks

/-- Let two graphs have as many components, with the same modules and edges that go to the same
components and ask for the same modules in vain, and let two pairs of tables register the same
patterns for each module. Then the walks end in the same outcome. -/
theorem outcome_of_outline (g g' : ResolvedGraph) (sources sources' : ExclusionSources)
    (hgraph : g'.outline = g.outline)
    (hsources : ∀ owner,
      (sources'.registered owner).wellFormed = (sources.registered owner).wellFormed) :
    outcome g' sources' = outcome g sources := by
  unfold outcome
  rw [candidates_of_outline hgraph, included_of_outline hgraph hsources]

/-- A graph with the outline of `meeting`, which differs from it wherever it may. -/
def disguised : ResolvedGraph :=
  let module (artifact : String) : ModuleId := ⟨"org", artifact⟩
  let requested : Selector := .module ⟨module "d", some "latest.release"⟩
  ⟨[⟨.module ⟨module "app", "2.0"⟩,
      [.constraint requested (some 4), .resolved requested 1, .resolved (.project ":b") 2]⟩,
    ⟨.project ":a" ⟨module "a", ""⟩, [.unresolved (.project ":e") "no project", .resolved requested 3]⟩,
    ⟨.module ⟨module "b", "1.+"⟩, [.resolved (.project ":d") 3, .constraint requested none]⟩,
    ⟨.module ⟨module "c", "1.0"⟩, [.resolved requested 1, .constraint requested (some 0),
      .resolved requested 4, .unresolved (.module ⟨module "e", some "3.0"⟩) "timed out"]⟩,
    ⟨.project "" ⟨module "d", "9"⟩, [.unresolved (.project ":d") "no project"]⟩], by simp⟩

/-- The pattern of `meetingSources` in the other table, among declarations that are malformed. -/
def disguisedSources : ExclusionSources where
  declared := ((∅ : Exclusions).add ⟨"org", "app"⟩ [.malformed "org.a"]).add ⟨"org", "b"⟩
    [.malformed "*"]
  fromPoms := (∅ : Exclusions).add ⟨"org", "app"⟩ [.malformed "d", .pattern "org" "d"]

theorem outcome_disguised :
    disguised.outline = meeting.outline ∧ disguised ≠ meeting ∧
      (∀ owner, (disguisedSources.registered owner).wellFormed =
        (meetingSources.registered owner).wellFormed) ∧
      outcome disguised disguisedSources = outcome meeting meetingSources := by
  have hsources (owner : ModuleId) : (disguisedSources.registered owner).wellFormed =
      (meetingSources.registered owner).wellFormed := by
    apply Std.ExtTreeSet.ext_mem
    intro p
    cases p with
    | pattern group artifact =>
        simp [ExclusionSet.mem_wellFormed, ExclusionSources.registered, disguisedSources,
          meetingSources, Exclusions.mem_patterns_add, Std.ExtTreeSet.mem_union_iff]
    | malformed raw => simp [ExclusionSet.mem_wellFormed, Exclusion.isMalformed]
  exact ⟨by decide, by decide, hsources, outcome_of_outline meeting disguised meetingSources
    disguisedSources (by decide) hsources⟩

end Walk

end ManagedGraph
