import ManagedGraph.Proofs.Session.Independence

/-!
# Versions of direct dependencies

If the settings say so, the version that a configuration declares on a dependency is recorded
in the scope of the configuration, where it wins over everything else for good
(`Scope.Wins`). It is recorded when the configuration is resolved, and only if its scope still
takes declarations by then: a look-up for a configuration that extends it may have settled the
scope before. Otherwise the order of resolutions does not matter
(`forces_direct_version_in_any_order`).
-/

namespace ManagedGraph

namespace Scope

/-- A scope gives a module a version, or importing its BOMs failed. -/
def Wins (s : Scope) (id : ModuleId) (version : String) : Prop :=
  (∃ cause, s.state = .failed cause) ∨
    s.state ≠ .resolving ∧ s.versions[id]? = some version

variable {s : Scope} {id : ModuleId} {version : String} {declarations : List Declaration}

/-- What was declared wins over the BOMs. -/
theorem Wins.settle (h : s.Wins id version) (poms : PomService) (properties : Properties) :
    (s.settle poms properties).Wins id version := by
  cases ho : s.isOpen with
  | false => rwa [settle_of_not_isOpen ho]
  | true =>
      have hversion : s.versions[id]? = some version := by
        rcases h with ⟨cause, hfailed⟩ | ⟨-, hversion⟩
        · exact absurd (isOpen_iff.1 ho) (by simp [hfailed])
        · exact hversion
      cases hfetch : poms.fetch s.boms properties with
      | error report => exact Or.inl ⟨report.rootCause, by rw [settle_of_error ho hfetch]⟩
      | ok found =>
          refine Or.inr ⟨by simp [state_settle_of_ok ho hfetch], ?_⟩
          rw [versions_settle_of_ok ho hfetch, hversion]
          rfl

/-- While a scope takes declarations, the last one of a module wins. -/
theorem wins_declareAll (ho : s.isOpen = true)
    (hlast : lastDeclared declarations id = some version) :
    (s.declareAll declarations).Wins id version := by
  refine Or.inr ⟨by simp [isOpen_iff.1 ho], ?_⟩
  rw [versions_declareAll declarations ho, hlast]
  rfl

theorem Wins.declareAll (h : s.Wins id version)
    (hlast : lastDeclared declarations id = some version) :
    (s.declareAll declarations).Wins id version := by
  cases ho : s.isOpen with
  | true => exact wins_declareAll ho hlast
  | false => rwa [declareAll_of_not_isOpen ho]

/-- A settled scope answers with the version that wins, or with its failure. -/
theorem Wins.verdict (h : s.Wins id version) (ho : s.isOpen = false) :
    (s.verdict fun s => s.versions[id]?) = .ok (some version) ∨
      ∃ cause, s.state = .failed cause ∧
        (s.verdict fun s => s.versions[id]?) = .error (s.importFailure cause) := by
  cases hstate : s.state with
  | unresolved => exact absurd (isOpen_iff.2 hstate) (by simp [ho])
  | failed cause => exact Or.inr ⟨cause, rfl, verdict_of_failed _ hstate⟩
  | resolving =>
      rcases h with ⟨cause, hfailed⟩ | ⟨hresolving, -⟩
      · exact absurd hstate (by simp [hfailed])
      · exact absurd hstate hresolving
  | resolved =>
      rcases h with ⟨cause, hfailed⟩ | ⟨-, hversion⟩
      · exact absurd hstate (by simp [hfailed])
      · exact Or.inl (by rw [verdict_of_resolved _ hstate, hversion])

end Scope

/-- The only declaration of a module in a configuration. -/
theorem Configuration.lastDeclared_declarations {c : Configuration} {id : ModuleId}
    {version : String}
    (hdeclared : (c.dependencies.filter fun d => d.moduleId? = some id) =
      [.module ⟨id, some version⟩])
    (hconcrete : Version.isConcrete version = true) :
    lastDeclared c.declarations id = some version := by
  have hother (d : Selector) (hd : d.moduleId? ≠ some id) :
      d.declaration?.bind (Declaration.version? id) = none := by
    rcases d with ⟨owner, _ | v⟩ | path
    · rfl
    · have howner : owner ≠ id := by
        rintro rfl
        exact hd rfl
      simp [Selector.declaration?, Declaration.version?, howner]
    · rfl
  have hstated : c.dependencies.filterMap (fun d =>
      d.declaration?.bind (Declaration.version? id)) = [version] := by
    calc c.dependencies.filterMap (fun d => d.declaration?.bind (Declaration.version? id))
        = (c.dependencies.filter fun d => d.moduleId? = some id).filterMap fun d =>
            d.declaration?.bind (Declaration.version? id) := by
          rw [List.filterMap_filter]
          congr 1
          funext d
          by_cases hd : d.moduleId? = some id
          · simp [hd]
          · simp [hd, hother d hd]
      _ = [version] := by
          rw [hdeclared]
          simp [Selector.declaration?, Declaration.version?, hconcrete]
  unfold lastDeclared declarations
  rw [List.filterMap_filterMap]
  exact congrArg List.getLast? hstated

/-- A configuration that declares a version declares something. -/
theorem Configuration.declarations_ne_nil {c : Configuration} {id : ModuleId} {version : String}
    (h : lastDeclared c.declarations id = some version) : c.declarations ≠ [] := by
  intro hnil
  simp [hnil, lastDeclared] at h

namespace Session

variable {poms : PomService} {resolver : GraphResolver} {c : Configuration} {s t : Session}
variable {id : ModuleId} {version : String} {queried watched : Set (Option String)}

/-! ## The scope of a configuration -/

/-- The scope of a configuration gives a module a version, or it has failed. -/
def Wins (s : Session) (c : Configuration) (id : ModuleId) (version : String) : Prop :=
  ∃ own, s.scopes.get? (some c.name) = some own ∧ own.Wins id version

/-- The scope of a configuration takes declarations, if it exists. -/
def Open (s : Session) (c : Configuration) : Prop :=
  ∀ own ∈ s.scopes.get? (some c.name), own.isOpen = true

theorem Wins.of_settling (h : s.Wins c id version) (hst : Settling poms queried watched s t)
    (hown : some c.name ∈ watched) : t.Wins c id version := by
  rcases h with ⟨own, hget, hwins⟩
  rcases hst.scopes.get? _ hown with hsame | ⟨-, hsettled⟩
  · exact ⟨own, hsame.trans hget, hwins⟩
  · rw [Scopes.settled?, hget] at hsettled
    exact ⟨_, hsettled, hwins.settle poms s.scopes.properties⟩

/-- Recording a version makes it win in a scope that takes declarations. -/
theorem wins_prepare (hon : s.settings.overriddenByDependencies = true)
    (hlast : lastDeclared c.declarations id = some version) (h : s.Open c) :
    (prepare c s).Wins c id version := by
  have hget := get?_prepare hon (Configuration.declarations_ne_nil hlast)
  refine ⟨_, hget, Scope.wins_declareAll ?_ hlast⟩
  cases hown : s.scopes.get? (some c.name) with
  | none => rfl
  | some own => exact h own hown

/-- Recording it again does not change that. -/
theorem Wins.prepare (h : s.Wins c id version)
    (hlast : lastDeclared c.declarations id = some version) :
    (prepare c s).Wins c id version := by
  rcases h with ⟨own, hget, hwins⟩
  cases hon : s.settings.overriddenByDependencies with
  | true =>
      refine ⟨_, get?_prepare hon (Configuration.declarations_ne_nil hlast), ?_⟩
      rw [hget]
      exact hwins.declareAll hlast
  | false =>
      have hsame : Session.prepare c s = s := by
        unfold Session.prepare
        rw [hon]
        rfl
      rw [hsame]
      exact ⟨own, hget, hwins⟩

/-! ## Runs -/

/-- The session after some resolutions, each with a resolver of its own. A resolution that fails
does not keep the next from being made. -/
def after (poms : PomService) (s : Session) (calls : List (GraphResolver × Configuration)) :
    Session :=
  calls.foldl (fun s call => (resolve poms call.1 call.2 s).state) s

variable {calls : List (GraphResolver × Configuration)}

theorem after_cons (call : GraphResolver × Configuration)
    (rest : List (GraphResolver × Configuration)) :
    after poms s (call :: rest) = after poms (resolve poms call.1 call.2 s).state rest := rfl

/-- Resolutions leave the modules of the build as they are. -/
theorem localModules_after : (after poms s calls).localModules = s.localModules := by
  induction calls generalizing s with
  | nil => rfl
  | cons call rest ih => exact ih.trans (moves_resolve s).localModules

/-- Resolving the configuration keeps a version that wins once the session is prepared. -/
theorem Wins.resolve (h : (Session.prepare c s).Wins c id version) :
    (Session.resolve poms resolver c s).state.Wins c id version :=
  h.of_settling (settling_resolve s) (Set.mem_univ _)

/-- Whatever is resolved, a version that wins in a scope keeps winning. -/
theorem Wins.after (hnames : ∀ call ∈ calls, call.2.name = c.name → call.2 = c)
    (hlast : lastDeclared c.declarations id = some version) (h : s.Wins c id version) :
    (after poms s calls).Wins c id version := by
  induction calls generalizing s with
  | nil => exact h
  | cons call rest ih =>
      have hrest : ∀ other ∈ rest, other.2.name = c.name → other.2 = c :=
        fun other hother => hnames other (List.mem_cons_of_mem _ hother)
      rw [after_cons]
      apply ih hrest
      by_cases hname : call.2.name = c.name
      · rw [hnames call List.mem_cons_self hname]
        exact (h.prepare hlast).resolve
      · -- another configuration declares in a scope of its own and at most settles this one
        apply h.of_settling (moves_resolve s)
        intro hown
        exact hname (Option.some.inj hown).symm

/-! ## The first resolution -/

/-- The session of a build that has made its declarations. -/
def ofDeclarations (settings : Settings) (localModules : ModuleSet)
    (declared : List (Option String × Declaration)) : Session :=
  { new settings localModules with scopes := (Scopes.new settings.properties).declareAll declared }

/-- A scope that does not exist or that no configuration draws on is left as it is. -/
theorem get?_after (hnames : ∀ call ∈ calls, call.2.name ≠ c.name)
    (h : s.scopes.get? (some c.name) = none ∨ ∀ call ∈ calls, c.name ∉ call.2.hierarchy) :
    (after poms s calls).scopes.get? (some c.name) = s.scopes.get? (some c.name) := by
  induction calls generalizing s with
  | nil => rfl
  | cons call rest ih =>
      have hrest : ∀ other ∈ rest, other.2.name ≠ c.name :=
        fun other hother => hnames other (List.mem_cons_of_mem _ hother)
      have hown : some c.name ∈ ({some call.2.name} : Set (Option String))ᶜ := by
        intro hmem
        exact hnames call List.mem_cons_self (Option.some.inj hmem).symm
      have hstep : (resolve poms call.1 call.2 s).state.scopes.get? (some c.name) =
          s.scopes.get? (some c.name) := by
        rcases (moves_resolve s).scopes.get? _ hown with hsame | ⟨hqueried, hsettled⟩
        · exact hsame
        · rcases h with hnone | hunextended
          · rw [hsettled, Scopes.settled?, hnone]
            rfl
          · have hextended : c.name ∈ call.2.hierarchy :=
              Configuration.some_mem_view.1 hqueried
            exact absurd hextended (hunextended call List.mem_cons_self)
      have hlater : (resolve poms call.1 call.2 s).state.scopes.get? (some c.name) = none ∨
          ∀ other ∈ rest, c.name ∉ other.2.hierarchy := by
        rcases h with hnone | hunextended
        · exact Or.inl (hstep.trans hnone)
        · exact Or.inr fun other hother => hunextended other (List.mem_cons_of_mem _ hother)
      rw [after_cons, ih hrest hlater, hstep]

/-- A scope takes declarations as long as no other configuration can have settled it. -/
theorem open_after (settings : Settings) (localModules : ModuleSet)
    {declared : List (Option String × Declaration)}
    (hnames : ∀ call ∈ calls, call.2.name ≠ c.name)
    (h : Scopes.declaredIn (some c.name) declared = [] ∨ ∀ call ∈ calls, c.name ∉ call.2.hierarchy) :
    (after poms (ofDeclarations settings localModules declared) calls).Open c := by
  have hnew : (Scopes.new settings.properties).get? (some c.name) = none := by
    simp [Scopes.new, Scopes.get?]
  have hstart : (ofDeclarations settings localModules declared).scopes.get? (some c.name) =
      if Scopes.declaredIn (some c.name) declared = [] then none
      else some (Scope.new.declareAll (Scopes.declaredIn (some c.name) declared)) := by
    have hget := Scopes.get?_declareAll (Scopes.new settings.properties) declared (some c.name)
    rw [hnew] at hget
    exact hget
  have hcase : (ofDeclarations settings localModules declared).scopes.get? (some c.name) = none ∨
      ∀ call ∈ calls, c.name ∉ call.2.hierarchy := by
    rcases h with hnone | hunextended
    · exact Or.inl (by rw [hstart, if_pos hnone])
    · exact Or.inr hunextended
  intro own hown
  rw [get?_after hnames hcase, hstart] at hown
  split at hown
  · exact absurd hown (by simp)
  · obtain rfl := Option.some.inj hown
    rw [Scope.isOpen_declareAll]
    rfl

/-- A version that is recorded when the configuration is first resolved wins ever after. -/
theorem wins_prepare_after (hon : s.settings.overriddenByDependencies = true)
    (hnames : ∀ call ∈ calls, call.2.name = c.name → call.2 = c)
    (hlast : lastDeclared c.declarations id = some version)
    (hopen : (after poms s (calls.takeWhile fun call => call.2.name ≠ c.name)).Open c) :
    (Session.prepare c (after poms s calls)).Wins c id version := by
  induction calls generalizing s with
  | nil => exact wins_prepare hon hlast hopen
  | cons call rest ih =>
      have hrest : ∀ other ∈ rest, other.2.name = c.name → other.2 = c :=
        fun other hother => hnames other (List.mem_cons_of_mem _ hother)
      rw [after_cons]
      by_cases hname : call.2.name = c.name
      · -- this is the first resolution, and the version is recorded here
        have hfirst : s.Open c := by simpa [after, hname] using hopen
        rw [hnames call List.mem_cons_self hname]
        exact ((wins_prepare hon hlast hfirst).resolve.after hrest hlast).prepare hlast
      · have hsettings : (resolve poms call.1 call.2 s).state.settings = s.settings :=
          (moves_resolve s).settings
        apply ih _ hrest
        · simpa [after, hname] using hopen
        · rw [hsettings, hon]

/-! ## Requests -/

/-- What the first scope of a hierarchy gives is given for the configuration. -/
theorem answer_managedVersion_of_wins (poms : PomService) (h : s.Wins c id version) :
    (Scopes.managedVersion (some c) id poms s.scopes).answer = .ok (some version) ∨
      ∃ own cause, s.scopes.settled? poms (some c.name) = some own ∧ own.state = .failed cause ∧
        (Scopes.managedVersion (some c) id poms s.scopes).answer =
          .error (own.importFailure cause) := by
  rcases h with ⟨own, hget, hwins⟩
  have hsettled : s.scopes.settled? poms (some c.name) =
      some (own.settle poms s.scopes.properties) := by
    rw [Scopes.settled?, hget]
    rfl
  have hask : (Scopes.ask poms (fun s => s.versions[id]?) (some c.name) s.scopes).answer =
      ((own.settle poms s.scopes.properties).verdict fun s => s.versions[id]?).map some := by
    rw [Scopes.answer_ask, hsettled]
  have hfirst := Scopes.answer_firstVersion_cons poms id c.name c.extendsFrom s.scopes
  rw [hask] at hfirst
  rcases (hwins.settle poms s.scopes.properties).verdict Scope.isOpen_settle with
    hversion | ⟨cause, hcause, hfailure⟩
  · left
    rw [hversion] at hfirst
    exact hfirst
  · right
    rw [hfailure] at hfirst
    exact ⟨_, cause, hsettled, hcause, hfirst⟩

/-- A request for a module whose version wins is forced to it, unless it asks for a dynamic
version. -/
theorem answerTo_of_wins (h : s.Wins c id version) (hlocal : s.localModules.contains id = false)
    {request : Request} {requested : Option String}
    (hrequest : request.requested = .module ⟨id, requested⟩)
    (hdynamic : requested.any Version.isDynamic = false) :
    answerTo poms c s request = .ok { request with forced := some version } ∨
      ∃ own cause, s.scopes.settled? poms (some c.name) = some own ∧ own.state = .failed cause ∧
        answerTo poms c s request = .error (own.importFailure cause) := by
  have hleaves : (⟨poms, c, s.localModules⟩ : VersionSelector).leaves ⟨id, requested⟩ = false := by
    simp [VersionSelector.leaves, hlocal, hdynamic]
  unfold answerTo
  rw [Scopes.answer_intercept hrequest hleaves]
  rcases answer_managedVersion_of_wins poms h with
    hversion | ⟨own, cause, hown, hcause, hfailure⟩
  · exact Or.inl (by rw [hversion]; rfl)
  · exact Or.inr ⟨own, cause, hown, hcause, by rw [hfailure]; rfl⟩

/-- In a resolution, every request for a module at no version or at one that is not dynamic is
forced to a version. If the BOMs of the scope of the configuration cannot be imported, it fails
with that instead. -/
def Forces (poms : PomService) (resolver : GraphResolver) (c : Configuration) (s : Session)
    (id : ModuleId) (version : String) : Prop :=
  ∀ request answer requested,
    .request request answer ∈ (resolve poms resolver c s).log →
    request.requested = .module ⟨id, requested⟩ → requested.any Version.isDynamic = false →
    answer = .ok { request with forced := some version } ∨
      ∃ own cause, (resolve poms resolver c s).state.scopes.settled? poms (some c.name) = some own ∧
        own.state = .failed cause ∧ answer = .error (own.importFailure cause)

theorem forces_of_wins (h : (Session.prepare c s).Wins c id version)
    (hlocal : s.localModules.contains id = false) : Forces poms resolver c s id version := by
  intro request answer requested hlog hrequest hdynamic
  have hsettled : (resolve poms resolver c s).state.scopes.settled? poms (some c.name) =
      (Session.prepare c s).scopes.settled? poms (some c.name) :=
    (settling_resolve s).scopes.settled? (Set.mem_univ _)
  have hmodules : (Session.prepare c s).localModules.contains id = false := by
    rw [← hlocal]
    unfold Session.prepare
    split <;> rfl
  rw [answer_of_mem_log_resolve hlog, hsettled]
  exact answerTo_of_wins h hmodules hrequest hdynamic

/-- Let each name stand for one configuration, and let a configuration declare a module once, at
a concrete version. In whatever order configurations are resolved, all its requests for the
module are forced to that version, provided that its own scope still takes declarations when it
is first resolved. That is so if nothing was declared in that scope, and also if no configuration
that extends it was resolved before. -/
theorem forces_direct_version_in_any_order (poms : PomService) (settings : Settings)
    (localModules : ModuleSet) (declared : List (Option String × Declaration))
    (calls : List (GraphResolver × Configuration)) (resolver : GraphResolver) (c : Configuration)
    (id : ModuleId) (version : String) (hon : settings.overriddenByDependencies = true)
    (hnames : ∀ call ∈ calls, call.2.name = c.name → call.2 = c)
    (hdeclared : (c.dependencies.filter fun d => d.moduleId? = some id) =
      [.module ⟨id, some version⟩])
    (hconcrete : Version.isConcrete version = true) (hlocal : localModules.contains id = false)
    (hfirst : let start := ofDeclarations settings localModules declared
      let before := calls.takeWhile fun call => call.2.name ≠ c.name
      (after poms start before).Open c ∨ Scopes.declaredIn (some c.name) declared = [] ∨
        ∀ call ∈ before, c.name ∉ call.2.hierarchy) :
    Forces poms resolver c (after poms (ofDeclarations settings localModules declared) calls) id
      version := by
  have hothers : ∀ call ∈ calls.takeWhile fun call => call.2.name ≠ c.name,
      call.2.name ≠ c.name := by
    intro call hcall
    simpa using List.all_eq_true.1 List.all_takeWhile call hcall
  have hopen : (after poms (ofDeclarations settings localModules declared)
      (calls.takeWhile fun call => call.2.name ≠ c.name)).Open c := by
    rcases hfirst with hopen | hcase
    · exact hopen
    · exact open_after settings localModules hothers hcase
  have hlast : lastDeclared c.declarations id = some version :=
    Configuration.lastDeclared_declarations hdeclared hconcrete
  apply forces_of_wins (wins_prepare_after hon hnames hlast hopen)
  rw [localModules_after]
  exact hlocal

/-- A configuration that declares a version of a module which a BOM manages as well, and one that
extends it. -/
def implementation : Configuration :=
  ⟨"implementation", [], [.module ⟨⟨"org", "lib"⟩, some "1.0"⟩], [], []⟩

def runtimeClasspath : Configuration :=
  ⟨"runtimeClasspath", ["implementation"], [.module ⟨⟨"org", "lib"⟩, none⟩], [], []⟩

/-- The BOM is imported globally, and another module is declared in the scope of the
configuration. -/
def bomAndUtil : List (Option String × Declaration) :=
  [(none, .bom (.plain Scope.firstBom.coordinates)),
    (some "implementation", .explicit ⟨"org", "util"⟩ "3.0" [])]

/-- The request for the declared module. -/
def libRequest : Request :=
  .ofSelector (.module ⟨⟨"org", "lib"⟩, some "1.0"⟩)

/-- Resolutions that begin with one that does not touch the scope of the configuration. -/
def ownFirst : List (GraphResolver × Configuration) :=
  [(direct, testRuntime), (direct, implementation), (direct, runtimeClasspath)]

/-- A resolution of the one that extends the configuration. -/
def extensionFirst : List (GraphResolver × Configuration) :=
  [(direct, runtimeClasspath)]

/-- The build after some resolutions. -/
def build (calls : List (GraphResolver × Configuration)) : Session :=
  after bomAndLib (ofDeclarations .default ∅ bomAndUtil) calls

theorem forces_version_of_implementation :
    .request libRequest (.ok { libRequest with forced := some "1.0" }) ∈
        (resolve bomAndLib direct implementation (build ownFirst)).log ∧
      Forces bomAndLib direct implementation (build ownFirst) ⟨"org", "lib"⟩ "1.0" := by
  constructor
  · exact List.mem_of_getElem? (i := 1) (by rfl)
  · apply forces_direct_version_in_any_order bomAndLib .default ∅ bomAndUtil ownFirst direct
      implementation ⟨"org", "lib"⟩ "1.0" rfl (by decide) (by decide) (by decide) (by decide)
    exact Or.inr (Or.inr (by decide))

/-- If the one that extends it is resolved first, the scope of the configuration is settled by
then, and the request is forced to the version of the BOM, although no import failed. -/
theorem not_forces_once_settled :
    Settings.default.overriddenByDependencies = true ∧
      (∀ call ∈ extensionFirst, call.2.name = implementation.name → call.2 = implementation) ∧
      (implementation.dependencies.filter fun d => d.moduleId? = some ⟨"org", "lib"⟩) =
        [.module ⟨⟨"org", "lib"⟩, some "1.0"⟩] ∧
      Version.isConcrete "1.0" = true ∧ (∅ : ModuleSet).contains ⟨"org", "lib"⟩ = false ∧
      ((resolve bomAndLib direct implementation (build extensionFirst)).state.scopes.settled?
        bomAndLib (some implementation.name)).map Scope.state = some .resolved ∧
      .request libRequest (.ok { libRequest with forced := some "2.0" }) ∈
        (resolve bomAndLib direct implementation (build extensionFirst)).log ∧
      ¬ Forces bomAndLib direct implementation (build extensionFirst) ⟨"org", "lib"⟩ "1.0" := by
  have hlog : .request libRequest (.ok { libRequest with forced := some "2.0" }) ∈
      (resolve bomAndLib direct implementation (build extensionFirst)).log :=
    List.mem_of_getElem? (i := 1) (by rfl)
  refine ⟨rfl, by decide, by decide, by decide, by decide, by decide, hlog, ?_⟩
  intro hforces
  rcases hforces _ _ (some "1.0") hlog rfl (by decide) with hversion | ⟨own, cause, -, -, hfailed⟩
  · exact absurd hversion (by decide)
  · exact absurd hfailed (by simp)

end Session

end ManagedGraph
