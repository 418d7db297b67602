import Mathlib.Data.Set.Basic
import ManagedGraph.Proofs.Operation.Observation
import ManagedGraph.Proofs.Scope.Imports

/-!
# Queries settle scopes

A query of the scopes of a build settles the scopes it looks into and answers from what they
settle to, so neither its answer nor that of a later query depends on which of them were
settled before. Hence every look-up for a configuration observes `Settling`
(`observes_intercept`, `observes_exclusions`), as long as the scopes it draws on are watched.
-/

namespace ManagedGraph

/-- The scopes that a configuration draws on: the global one and those of its hierarchy. -/
def Configuration.view (c : Configuration) : Set (Option String) :=
  {scope | ∀ name ∈ scope, name ∈ c.hierarchy}

namespace Configuration

variable {c : Configuration}

@[simp] theorem none_mem_view : none ∈ c.view := by
  simp [view]

@[simp] theorem some_mem_view {name : String} : some name ∈ c.view ↔ name ∈ c.hierarchy := by
  simp [view]

theorem view_subset_univ_inter {watched : Set (Option String)} (h : c.view ⊆ watched) :
    c.view ⊆ Set.univ ∩ watched :=
  Set.subset_inter (Set.subset_univ _) h

end Configuration

namespace Scopes

variable {poms : PomService} {scope : Option String} {c d : Scopes}

/-! ## Single scopes -/

/-- What a scope settles to, if it exists. -/
def settled? (poms : PomService) (c : Scopes) (scope : Option String) : Option Scope :=
  (c.get? scope).map (Scope.settle poms c.properties)

@[simp] theorem get?_set (c : Scopes) (scope other : Option String) (s : Scope) :
    (c.set scope s).get? other = if scope = other then some s else c.get? other := by
  cases scope <;> cases other <;> simp [set, get?, Std.ExtTreeMap.getElem?_insert]

@[simp] theorem properties_set (c : Scopes) (scope : Option String) (s : Scope) :
    (c.set scope s).properties = c.properties := by
  cases scope <;> rfl

theorem get?_change (c : Scopes) (scope other : Option String) (f : Scope → Scope) :
    (c.change scope f).get? other =
      if scope = other then some (f ((c.get? scope).getD .new)) else c.get? other :=
  get?_set c scope other _

@[simp] theorem properties_change (c : Scopes) (scope : Option String) (f : Scope → Scope) :
    (c.change scope f).properties = c.properties :=
  properties_set c scope _

/-! ## Settling -/

/-- Of the watched scopes, those that were queried may have been settled, and nothing else
has happened to any of them. -/
structure Settling (poms : PomService) (queried watched : Set (Option String)) (c d : Scopes) :
    Prop where
  properties : d.properties = c.properties
  get? : ∀ scope ∈ watched, d.get? scope = c.get? scope ∨
    scope ∈ queried ∧ d.get? scope = c.settled? poms scope

variable {queried watched : Set (Option String)}

namespace Settling

/-- A watched scope settles to the same as before. -/
theorem settled? (h : Settling poms queried watched c d) (hscope : scope ∈ watched) :
    d.settled? poms scope = c.settled? poms scope := by
  unfold Scopes.settled?
  rw [h.properties]
  rcases h.get? scope hscope with hsame | ⟨-, hsettled⟩
  · rw [hsame]
  · rw [hsettled, Scopes.settled?, Option.map_map]
    have htwice : Scope.settle poms c.properties ∘ Scope.settle poms c.properties =
        Scope.settle poms c.properties := by
      funext s
      exact Scope.settle_settle poms c.properties
    rw [htwice]

/-- A watched scope declares the same as before. -/
theorem declaresAlike (h : Settling poms queried watched c d) (hscope : scope ∈ watched) :
    ((c.get? scope).getD .new).DeclaresAlike ((d.get? scope).getD .new) := by
  rcases h.get? scope hscope with hsame | ⟨-, hsettled⟩
  · rw [hsame]
    exact .refl _
  · rw [hsettled, Scopes.settled?]
    cases c.get? scope with
    | none => exact .refl _
    | some own => exact Scope.declaresAlike_settle own poms c.properties

theorem refl (c : Scopes) : Settling poms queried watched c c :=
  ⟨rfl, fun _ _ => Or.inl rfl⟩

theorem trans {e : Scopes} (h : Settling poms queried watched c d)
    (h' : Settling poms queried watched d e) : Settling poms queried watched c e where
  properties := h'.properties.trans h.properties
  get? := by
    intro scope hscope
    rcases h'.get? scope hscope with hsame | ⟨hqueried, hsettled⟩
    · rw [hsame]
      exact h.get? scope hscope
    · rw [hsettled]
      exact Or.inr ⟨hqueried, h.settled? hscope⟩

instance isPreorder : IsPreorder Scopes (Settling poms queried watched) where
  refl := refl
  trans _ _ _ := trans

/-- More queries and fewer watched scopes allow more. -/
theorem mono {queried' watched' : Set (Option String)} (h : Settling poms queried watched c d)
    (hqueried : queried ⊆ queried') (hwatched : watched' ⊆ watched) :
    Settling poms queried' watched' c d where
  properties := h.properties
  get? := by
    intro scope hscope
    rcases h.get? scope (hwatched hscope) with hsame | ⟨hmem, hsettled⟩
    · exact Or.inl hsame
    · exact Or.inr ⟨hqueried hmem, hsettled⟩

/-- The same change of a scope that was not queried, made before and after. -/
theorem change (h : Settling poms queried watched c d) (hscope : scope ∉ queried)
    (f : Scope → Scope) :
    Settling poms queried watched (c.change scope f) (d.change scope f) where
  properties := by simp [h.properties]
  get? := by
    intro other hother
    have hsettled (hne : scope ≠ other) :
        (c.change scope f).settled? poms other = c.settled? poms other := by
      simp [Scopes.settled?, get?_change, hne]
    by_cases heq : scope = other
    · subst heq
      rcases h.get? scope hother with hsame | ⟨hqueried, -⟩
      · simp [get?_change, hsame]
      · exact absurd hqueried hscope
    · rw [get?_change, get?_change, if_neg heq, if_neg heq, hsettled heq]
      exact h.get? other hother

end Settling

/-- A change of a scope that is not watched. -/
theorem settling_change (hscope : scope ∉ watched) (f : Scope → Scope) :
    Settling poms queried watched c (c.change scope f) where
  properties := properties_change c scope f
  get? := by
    intro other hother
    have hne : scope ≠ other := by
      rintro rfl
      exact hscope hother
    exact Or.inl (by rw [get?_change, if_neg hne])

/-- A queried scope is put in its place as it settles. -/
theorem settling_set {s : Scope} (hscope : scope ∈ queried) (hs : c.settled? poms scope = some s) :
    Settling poms queried watched c (c.set scope s) where
  properties := properties_set c scope s
  get? := by
    intro other _
    by_cases heq : scope = other
    · subst heq
      exact Or.inr ⟨hscope, by rw [get?_set, if_pos rfl, hs]⟩
    · exact Or.inl (by rw [get?_set, if_neg heq])

/-! ## Queries -/

variable {α : Type} (read : Scope → α) {names : List String} {configuration : Configuration}

/-- A query answers from what the scope settles to. -/
theorem answer_ask (c : Scopes) :
    (ask poms read scope c).answer =
      match c.settled? poms scope with
      | none => .ok none
      | some s => (s.verdict read).map some := by
  unfold ask settled?
  cases c.get? scope <;> rfl

/-- A query puts the scope in place as it settles. -/
theorem get?_ask (scope other : Option String) (c : Scopes) :
    (ask poms read scope c).state.get? other =
      if scope = other then c.settled? poms scope else c.get? other := by
  cases hget : c.get? scope with
  | some own =>
      simp only [ask, settled?, hget]
      exact get?_set c scope other _
  | none =>
      simp only [ask, settled?, hget, Option.map_none]
      split
      · rename_i heq
        rw [← heq, hget]
      · rfl

theorem properties_ask (scope : Option String) (c : Scopes) :
    (ask poms read scope c).state.properties = c.properties := by
  unfold ask
  cases c.get? scope with
  | some own => exact properties_set c scope _
  | none => rfl

theorem observes_ask (hscope : scope ∈ queried ∩ watched) :
    (ask poms read scope).Observes (Settling poms queried watched) where
  moves := by
    intro c
    unfold ask
    cases hget : c.get? scope with
    | none => exact Settling.refl c
    | some s => exact settling_set hscope.1 (by rw [settled?, hget]; rfl)
  ignores := by
    intro c d h
    rw [answer_ask, answer_ask, h.settled? hscope.2]

theorem observes_askGlobal (hscope : none ∈ queried ∩ watched) :
    (askGlobal poms read).Observes (Settling poms queried watched) where
  moves := by
    intro c
    exact (observes_ask read hscope).moves c
  ignores := by
    intro c d h
    have hglobal : d.global.settle poms d.properties = c.global.settle poms c.properties :=
      Option.some.inj (h.settled? hscope.2)
    exact congrArg (Scope.verdict read) hglobal

theorem observes_askAll (hnames : ∀ name ∈ names, some name ∈ queried ∩ watched) :
    (askAll poms read names).Observes (Settling poms queried watched) := by
  induction names with
  | nil => exact Operation.observes_pure []
  | cons name rest ih =>
      have hrest : ∀ name ∈ rest, some name ∈ queried ∩ watched :=
        fun name hname => hnames name (List.mem_cons_of_mem _ hname)
      apply (observes_ask read (hnames name List.mem_cons_self)).bind
      intro here
      apply (ih hrest).bind
      intro others
      exact Operation.observes_pure _

theorem observes_firstVersion (id : ModuleId) (hglobal : none ∈ queried ∩ watched)
    (hnames : ∀ name ∈ names, some name ∈ queried ∩ watched) :
    (firstVersion poms id names).Observes (Settling poms queried watched) := by
  induction names with
  | nil => exact observes_askGlobal _ hglobal
  | cons name rest ih =>
      have hrest : ∀ name ∈ rest, some name ∈ queried ∩ watched :=
        fun name hname => hnames name (List.mem_cons_of_mem _ hname)
      apply (observes_ask _ (hnames name List.mem_cons_self)).bind
      intro found
      rcases found with _ | _ | version
      · exact ih hrest
      · exact ih hrest
      · exact Operation.observes_pure _

/-- The first named scope decides if it fails or manages the module; else the rest does. -/
theorem answer_firstVersion_cons (poms : PomService) (id : ModuleId) (name : String)
    (rest : List String) (c : Scopes) :
    (firstVersion poms id (name :: rest) c).answer =
      match (ask poms (fun s => s.versions[id]?) (some name) c).answer with
      | .error report => .error report
      | .ok (some (some version)) => .ok (some version)
      | .ok _ => (firstVersion poms id rest
          (ask poms (fun s => s.versions[id]?) (some name) c).state).answer := by
  rw [firstVersion]
  cases hask : (ask poms (fun s => s.versions[id]?) (some name) c).answer with
  | error report => rw [Operation.bind_of_error hask]
  | ok found =>
      rw [Operation.bind_of_ok hask]
      rcases found with _ | _ | version <;> rfl

/-- A request that is not left alone is decided by the managed version of its module. -/
theorem intercept_of_leaves_eq_false {v : VersionSelector} {request : Request}
    {coordinates : Coordinates} (hrequest : request.requested = .module coordinates)
    (hleaves : v.leaves coordinates = false) :
    v.intercept request =
      managedVersion (some v.configuration) coordinates.id v.poms >>= fun version =>
        pure (version.elim request request.force) := by
  unfold VersionSelector.intercept
  rw [hrequest]
  simp only [hleaves, Bool.false_eq_true, if_false]
  congr 1
  funext version
  cases version <;> rfl

/-- A request that is not left alone is forced to the managed version, if there is one. -/
theorem answer_intercept {v : VersionSelector} {request : Request} {coordinates : Coordinates}
    (hrequest : request.requested = .module coordinates) (hleaves : v.leaves coordinates = false)
    (c : Scopes) :
    (v.intercept request c).answer =
      (managedVersion (some v.configuration) coordinates.id v.poms c).answer.map fun version =>
        version.elim request request.force := by
  rw [intercept_of_leaves_eq_false hrequest hleaves, Operation.answer_bind_pure]

section View

variable (hview : configuration.view ⊆ queried ∩ watched)

include hview

theorem observes_exclusions :
    (exclusions (some configuration) poms).Observes (Settling poms queried watched) := by
  apply (observes_askGlobal _ (hview Configuration.none_mem_view)).bind
  intro base
  apply (observes_askAll _ fun name hname => hview (Configuration.some_mem_view.2 hname)).bind
  intro others
  exact Operation.observes_pure _

/-- Forcing versions onto the requests of a configuration settles scopes that it draws on. -/
theorem observes_intercept {localModules : ModuleSet} (request : Request) :
    ((⟨poms, configuration, localModules⟩ : VersionSelector).intercept request).Observes
      (Settling poms queried watched) := by
  unfold VersionSelector.intercept
  cases request.requested with
  | project path => exact Operation.observes_pure request
  | module coordinates =>
      simp only
      split
      · exact Operation.observes_pure request
      · have hnames : ∀ name ∈ configuration.hierarchy, some name ∈ queried ∩ watched :=
          fun name hname => hview (Configuration.some_mem_view.2 hname)
        apply (observes_firstVersion coordinates.id (hview Configuration.none_mem_view) hnames).bind
        intro version
        cases version with
        | none => exact Operation.observes_pure request
        | some version => exact Operation.observes_pure _

end View

end Scopes

end ManagedGraph
