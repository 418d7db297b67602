import ManagedGraph.Configuration
import ManagedGraph.Scope

/-!
# All scopes of a build

A build has a global scope and a scope per name, created when something is declared in it.
A look-up for a configuration goes through the scopes of its hierarchy, most specific
first, and falls back to the global scope.
-/

namespace ManagedGraph

/-- The scopes of a build and the properties its BOMs are resolved with. -/
structure Scopes where
  global : Scope
  named : Std.ExtTreeMap String Scope
  properties : Properties

namespace Scopes

/-- No declarations in any scope. -/
def new (properties : Properties) : Scopes :=
  ⟨.new, ∅, properties⟩

/-- The scope of a name, or the global one. -/
def get? (c : Scopes) (scope : Option String) : Option Scope :=
  match scope with
  | none => some c.global
  | some name => c.named[name]?

/-- Puts a scope in place. -/
def set (c : Scopes) (scope : Option String) (s : Scope) : Scopes :=
  match scope with
  | none => { c with global := s }
  | some name => { c with named := c.named.insert name s }

/-- Changes a scope, which is created if there is none of that name. -/
def change (c : Scopes) (scope : Option String) (f : Scope → Scope) : Scopes :=
  c.set scope (f ((c.get? scope).getD .new))

/-! ## Declarations -/

/-- Creates a scope if there is none of that name. -/
def touch (c : Scopes) (scope : Option String) : Scopes :=
  c.change scope fun s => s

/-- Records a version inferred from a direct dependency. -/
def addImplicit (c : Scopes) (scope : Option String) (id : ModuleId) (version : String) :
    Scopes :=
  c.change scope fun s => s.addImplicit id version

/-- Records a version declared by the user. -/
def addExplicit (c : Scopes) (scope : Option String) (id : ModuleId) (version : String)
    (exclusions : List Exclusion) : Scopes :=
  c.change scope fun s => s.addExplicit id version exclusions

/-- Appends a BOM to the imports of a scope. -/
def importBom (c : Scopes) (scope : Option String) (reference : PomReference) : Scopes :=
  c.change scope fun s => s.importBom reference

/-! ## Queries -/

variable {α : Type}

/-- A query of a scope; a scope that does not exist has no answer. -/
def ask (poms : PomService) (read : Scope → α) (scope : Option String) :
    Operation PomCall Scopes (Option α) := fun c =>
  match c.get? scope with
  | none => ⟨.ok none, c, []⟩
  | some s =>
      match Scope.query read poms c.properties s with
      | ⟨answer, s, log⟩ => ⟨answer.map some, c.set scope s, log⟩

/-- A query of the global scope. -/
def askGlobal (poms : PomService) (read : Scope → α) : Operation PomCall Scopes α := fun c =>
  match Scope.query read poms c.properties c.global with
  | ⟨answer, s, log⟩ => ⟨answer, { c with global := s }, log⟩

/-- A query of each of the named scopes that exist, in order, up to the first failure. -/
def askAll (poms : PomService) (read : Scope → α) :
    List String → Operation PomCall Scopes (List α)
  | [] => pure []
  | name :: rest => do
      let here ← ask poms read (some name)
      let others ← askAll poms read rest
      pure (here.toList ++ others)

/-- The managed version of a module in the first of the named scopes that has one, or else
in the global scope. -/
def firstVersion (poms : PomService) (id : ModuleId) :
    List String → Operation PomCall Scopes (Option String)
  | [] => askGlobal poms fun s => s.versions[id]?
  | name :: rest => do
      match ← ask poms (fun s => s.versions[id]?) (some name) with
      | some (some version) => pure (some version)
      | _ => firstVersion poms id rest

/-- The names of the scopes that a configuration draws on, most specific first. -/
def hierarchyOf (configuration : Option Configuration) : List String :=
  match configuration with
  | some c => c.hierarchy
  | none => []

/-- The managed version of a module for a configuration, or in the global scope alone. -/
def managedVersion (configuration : Option Configuration) (id : ModuleId) (poms : PomService) :
    Operation PomCall Scopes (Option String) :=
  firstVersion poms id (hierarchyOf configuration)

/-- The exclusions of the global scope and of the hierarchy of a configuration. -/
def exclusions (configuration : Option Configuration) (poms : PomService) :
    Operation PomCall Scopes Exclusions := do
  let base ← askGlobal poms Scope.exclusions
  let others ← askAll poms Scope.exclusions (hierarchyOf configuration)
  pure (others.foldl Exclusions.merge base)

/-- The version table of one scope; a scope that does not exist manages nothing. -/
def scopeVersions (scope : Option String) (poms : PomService) :
    Operation PomCall Scopes VersionTable := do
  let table ← ask poms Scope.versions scope
  pure (table.getD ∅)

/-- The versions in effect for a configuration: the global table overlaid by those of its
hierarchy, least specific first. -/
def hierarchyVersions (configuration : Configuration) (poms : PomService) :
    Operation PomCall Scopes VersionTable := do
  let base ← askGlobal poms Scope.versions
  let others ← askAll poms Scope.versions configuration.hierarchy.reverse
  pure (others.foldl (· ∪ ·) base)

end Scopes

end ManagedGraph
