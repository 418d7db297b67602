import ManagedGraph.Dialogue

/-!
# Resolving from a table

A graph resolver over a fixed table of modules and projects. It goes breadth-first through
the dependencies of a configuration. The first version selected for a module is used for
all edges to it, exclude rules remove a module everywhere, a dynamic version selects the
greatest one in the table, and projects are not expanded.

Each step takes an edge off the list of open ones, and edges are added only when a module
of the table is selected for the first time.
-/

namespace ManagedGraph

/-- The modules and projects that a resolver knows. -/
structure ModuleTable where
  /-- The dependencies of each module version. -/
  modules : List (ModuleVersion × List Coordinates)
  /-- The module of each project, by build path. -/
  projects : List (String × ModuleVersion)

namespace ModuleTable

/-- The dependencies of a module version; the last entry counts. -/
def dependencies? (t : ModuleTable) (m : ModuleVersion) : Option (List Coordinates) :=
  (t.modules.reverse.find? fun entry => entry.1 == m).map Prod.snd

/-- The module of a project; the last entry counts. -/
def project? (t : ModuleTable) (path : String) : Option ModuleVersion :=
  (t.projects.reverse.find? fun entry => entry.1 == path).map Prod.snd

/-- The greatest of some versions as text. -/
def greatest : List String → Option String
  | [] => none
  | version :: rest =>
      match greatest rest with
      | some best => if version < best then some best else some version
      | none => some version

/-- The version that a wanted one selects for a module. -/
def pick (t : ModuleTable) (id : ModuleId) (wanted : String) : Option String :=
  if Version.isDynamic wanted then
    greatest ((t.modules.filter fun entry => entry.1.id == id).map fun entry => entry.1.version)
  else some wanted

/-- The module version that a request selects, with its dependencies. -/
def select (t : ModuleTable) (id : ModuleId) (target : Option String) :
    Option (ModuleVersion × List Coordinates) := do
  let wanted ← target
  let version ← t.pick id wanted
  let dependencies ← t.dependencies? ⟨id, version⟩
  pure (⟨id, version⟩, dependencies)

/-- A resolution under way: the graph so far and the component selected for each module. -/
structure Search where
  graph : ResolvedGraph
  selected : Std.ExtTreeMap ModuleId Nat

/-- The number of entries of the table whose module is not selected. -/
def unselected (t : ModuleTable) (selected : Std.ExtTreeMap ModuleId Nat) : Nat :=
  t.modules.countP fun entry => !selected.contains entry.1.id

theorem mem_modules_of_select {t : ModuleTable} {id : ModuleId} {target : Option String}
    {m : ModuleVersion} {dependencies : List Coordinates}
    (h : t.select id target = some (m, dependencies)) :
    m.id = id ∧ ∃ entry ∈ t.modules, entry.1 = m := by
  simp only [select, dependencies?, Option.bind_eq_bind, Option.bind_eq_some_iff,
    Option.map_eq_some_iff, Option.pure_def, Option.some.injEq, Prod.mk.injEq] at h
  rcases h with ⟨-, -, version, -, -, ⟨entry, hfind, -⟩, rfl, -⟩
  refine ⟨rfl, entry, ?_, ?_⟩
  · exact List.mem_reverse.1 (List.mem_of_find?_eq_some hfind)
  · simpa using List.find?_some hfind

/-- Selecting a module of the table leaves fewer unselected. -/
theorem unselected_insert_lt {t : ModuleTable} {selected : Std.ExtTreeMap ModuleId Nat}
    {m : ModuleVersion} {i : Nat} (hm : ∃ entry ∈ t.modules, entry.1 = m)
    (hs : selected[m.id]? = none) :
    t.unselected (selected.insert m.id i) < t.unselected selected := by
  unfold unselected
  rcases hm with ⟨entry, hentry, rfl⟩
  have hnew : selected.contains entry.1.id = false := by
    rw [Std.ExtTreeMap.contains_eq_isSome_getElem?, hs]
    rfl
  have le (l : List (ModuleVersion × List Coordinates)) :
      l.countP (fun e => !(selected.insert entry.1.id i).contains e.1.id) ≤
        l.countP (fun e => !selected.contains e.1.id) := by
    apply List.countP_mono_left
    intro e _ he
    simp only [Std.ExtTreeMap.contains_insert, Bool.not_or, Bool.and_eq_true] at he
    exact he.2
  rcases List.append_of_mem hentry with ⟨before, after, happ⟩
  rw [happ]
  have hb := le before
  have ha := le after
  simp only [Std.ExtTreeMap.contains_insert] at hb ha
  simp only [List.countP_append, List.countP_cons, hnew, Std.ExtTreeMap.contains_insert]
  simp only [Std.compare_self, beq_self_eq_true, Bool.true_or, Bool.not_true, Bool.not_false,
    if_true, Bool.false_eq_true, if_false]
  omega

/-- The graph with an edge for each constraint, which leads to the component selected for
its module. -/
def withConstraints (search : Search) (constraints : List Coordinates) : ResolvedGraph :=
  constraints.foldl (fun g c => g.addEdge 0 (.constraint (.module c) search.selected[c.id]?))
    search.graph

/-- Goes on with the open edges, each given by the component it leaves and its selector. -/
def explore (t : ModuleTable) (configuration : Configuration) (search : Search) :
    List (Nat × Selector) → Dialogue ResolvedGraph
  | [] => .done (.ok (withConstraints search configuration.constraints))
  | (source, .project path) :: rest =>
      match t.project? path with
      | none =>
          t.explore configuration
            { search with
              graph := search.graph.addEdge source
                (.unresolved (.project path) ("no project " ++ path)) } rest
      | some m =>
          -- the dependencies of a project do not join
          let (graph, i) := search.graph.insert (.project path m)
          t.explore configuration
            { search with graph := graph.addEdge source (.resolved (.project path) i) } rest
  | (source, .module c) :: rest =>
      if configuration.excludes c.id then t.explore configuration search rest
      else
        .ask (.ofSelector (.module c)) fun answer =>
          match answer with
          | .error r => .done (.error r)
          | .ok request =>
              -- the first version selected for a module serves all edges to it
              match _hs : search.selected[c.id]? with
              | some i =>
                  t.explore configuration
                    { search with
                      graph := search.graph.addEdge source (.resolved (.module c) i) } rest
              | none =>
                  match _hm : t.select c.id request.target with
                  | none =>
                      t.explore configuration
                        { search with
                          graph := search.graph.addEdge source (.unresolved (.module c)
                            ("could not resolve " ++ c.id.display)) } rest
                  | some (m, dependencies) =>
                      let (graph, i) := search.graph.insert (.module m)
                      t.explore configuration
                        { graph := graph.addEdge source (.resolved (.module c) i)
                          selected := search.selected.insert m.id i }
                        (rest ++ dependencies.map fun d => (i, .module d))
termination_by edges => (t.unselected search.selected, edges.length)
decreasing_by
  all_goals first
    | exact Prod.Lex.right _ (by simp)
    | (apply Prod.Lex.left
       have h := mem_modules_of_select _hm
       exact unselected_insert_lt h.2 (by rw [h.1]; exact _hs))

/-- The root of every resolved graph. -/
def root : Identity :=
  .project ":" ⟨⟨"com.example", "root"⟩, "1.0"⟩

/-- The table as a graph resolver. -/
def resolver (t : ModuleTable) : GraphResolver := fun configuration =>
  t.explore configuration ⟨.start root, ∅⟩ (configuration.dependencies.map fun d => (0, d))

end ModuleTable

end ManagedGraph
