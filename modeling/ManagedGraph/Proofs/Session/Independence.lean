import ManagedGraph.Proofs.Catalog.Lookup
import ManagedGraph.Proofs.Session.Passes

/-!
# Unrelated configurations

Resolving a configuration records its direct versions in its own scope, settles the scopes it
draws on and extends the catalog. None of this shows when another configuration is resolved
that does not draw on that scope (`answer_resolve_of_unrelated`).
-/

namespace ManagedGraph.Session

variable {poms : PomService} {resolver : GraphResolver} {a b : Configuration}

/-- The scope of a configuration is watched by no configuration that does not extend it. -/
theorem view_subset_compl_own (h : a.name ∉ b.hierarchy) : b.view ⊆ {some a.name}ᶜ := by
  rintro scope hscope rfl
  exact h (Configuration.some_mem_view.1 hscope)

/-- After another configuration was resolved, a configuration is prepared as it would have
been before, but for scopes that have settled. -/
theorem settling_prepare_resolve (hb : b.name ∉ a.hierarchy) (s : Session) :
    Settling poms Set.univ {some a.name}ᶜ (prepare b s)
      (prepare b (resolve poms resolver a s).state) := by
  have hown : some b.name ∉ a.view := by
    intro h
    exact hb (Configuration.some_mem_view.1 h)
  have hprepared : Settling poms a.view {some a.name}ᶜ (prepare b s)
      (prepare b (resolve poms resolver a s).state) :=
    (moves_resolve s).prepare hown
  exact hprepared.mono (Set.subset_univ _) subset_rfl

/-- Resolving a configuration first, well or not, does not change what resolving another one
gives, if neither draws on the scope of the other and the complete graphs of both agree on the
versions of the modules they share. -/
theorem answer_resolve_of_unrelated (s : Session) (hpoms : poms.Separate)
    (ha : a.name ∉ b.hierarchy) (hb : b.name ∉ a.hierarchy)
    (hversions : ∀ ga gb, (trial poms resolver a s).answer = .ok ga →
      (trial poms resolver b s).answer = .ok gb →
      ∀ x ∈ ga.externalModules, ∀ y ∈ gb.externalModules, x.id = y.id → x.version = y.version) :
    (resolve poms resolver b (resolve poms resolver a s).state).answer =
      (resolve poms resolver b s).answer := by
  apply answer_resolve_congr (view_subset_compl_own ha) (settling_prepare_resolve hb s)
  intro gb hgb
  rcases catalog_resolve poms resolver a s with hsame | ⟨ga, hga, hextended⟩
  · rw [hsame]
  · rw [hextended]
    exact Catalog.answer_resolve_resolve hpoms (hversions ga gb hga hgb)

/-- A course of requests for the modules among some selectors, each joining the graph below the
root at the version it is answered with. -/
def requestAll (g : ResolvedGraph) : List Selector → Dialogue ResolvedGraph
  | [] => .done (.ok g)
  | .project _ :: rest => requestAll g rest
  | .module c :: rest =>
      .ask (.ofSelector (.module c)) fun answer =>
        match answer with
        | .error report => .done (.error report)
        | .ok request =>
            match request.target with
            | some version =>
                let (graph, i) := g.insert (.module ⟨c.id, version⟩)
                requestAll (graph.addEdge 0 (.resolved (.module c) i)) rest
            | none => requestAll (g.addEdge 0 (.unresolved (.module c) "no version")) rest

/-- A resolver that stops at the direct dependencies of a configuration. -/
def direct : GraphResolver := fun c =>
  requestAll (.start (.project ":" ⟨⟨"org", "root"⟩, "1.0"⟩)) c.dependencies

/-- A module that a BOM manages, with an exclusion on one of its dependencies. -/
def libPom : EffectivePom :=
  ⟨⟨⟨"org", "lib"⟩, some "2.0"⟩, [],
    [⟨⟨⟨"org", "tool"⟩, some "0.8"⟩, none, none, none, false, [.pattern "org" "extra"]⟩], ∅⟩

/-- A service that knows a BOM and a module that it manages. -/
def bomAndLib : PomService :=
  .ofEach fun reference _ =>
    match [Scope.firstBom, libPom].find? fun pom => pom.coordinates = reference.coordinates with
    | some pom => .ok pom
    | none => .error (.ofProblem (.external ("no POM for " ++ reference.coordinates.display)))

/-- A session in which the BOM is imported globally and not yet resolved. -/
def withGlobalBom : Session :=
  let s := new .default ∅
  { s with scopes := s.scopes.importBom none (.plain Scope.firstBom.coordinates) }

/-- Two configurations that share a module but no scope of their own. -/
def compileClasspath : Configuration :=
  ⟨"compileClasspath", ["implementation"],
    [.module ⟨⟨"org", "lib"⟩, none⟩, .module ⟨⟨"org", "util"⟩, some "1.0"⟩], [], []⟩

def testRuntime : Configuration :=
  ⟨"testRuntime", ["test"], [.module ⟨⟨"org", "lib"⟩, none⟩], [], []⟩

/-- The modules of the complete graph of a configuration. -/
def trialModules (c : Configuration) (s : Session) : Option (List ModuleVersion) :=
  (trial bomAndLib direct c s).answer.toOption.map ResolvedGraph.externalModules

/-- The first resolution imports the BOM and remembers the exclusions of the shared module. -/
theorem answer_resolve_of_shared_module :
    trialModules compileClasspath withGlobalBom =
        some [⟨⟨"org", "lib"⟩, "2.0"⟩, ⟨⟨"org", "util"⟩, "1.0"⟩] ∧
      trialModules testRuntime withGlobalBom = some [⟨⟨"org", "lib"⟩, "2.0"⟩] ∧
      (resolve bomAndLib direct testRuntime
          (resolve bomAndLib direct compileClasspath withGlobalBom).state).answer =
        (resolve bomAndLib direct testRuntime withGlobalBom).answer := by
  have hcompile : trialModules compileClasspath withGlobalBom =
      some [⟨⟨"org", "lib"⟩, "2.0"⟩, ⟨⟨"org", "util"⟩, "1.0"⟩] := by decide
  have htest : trialModules testRuntime withGlobalBom = some [⟨⟨"org", "lib"⟩, "2.0"⟩] := by decide
  have hpoms : bomAndLib.Separate := PomService.separate_ofEach _
  refine ⟨hcompile, htest, ?_⟩
  apply answer_resolve_of_unrelated withGlobalBom hpoms (by decide) (by decide)
  intro ga gb hga hgb
  simp only [trialModules, hga, hgb, Except.toOption, Option.map_some, Option.some.injEq]
    at hcompile htest
  rw [hcompile, htest]
  decide

end ManagedGraph.Session
