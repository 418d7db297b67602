import ManagedGraph.Scope

/-!
# Declarations

What is declared in a scope is taken one declaration after another while the scope is open.
The last declaration of a module decides its version (`versions_declareAll`), and the BOMs
are imported in the order in which they were declared (`boms_declareAll`).
-/

namespace ManagedGraph

/-- Of all entries that write to one place, the last one is read. -/
theorem view_foldl {σ α β : Type} (view : σ → Option β) {write : σ → α → σ}
    {written : α → Option β} (I : σ → Prop) (hkept : ∀ s a, I s → I (write s a))
    (hwrite : ∀ s a, I s → view (write s a) = (written a).or (view s)) (entries : List α) {s : σ}
    (hs : I s) :
    view (entries.foldl write s) = (entries.filterMap written).getLast?.or (view s) := by
  induction entries generalizing s with
  | nil => simp
  | cons a rest ih =>
      rw [List.foldl_cons, ih (hkept s a hs), hwrite s a hs, List.filterMap_cons]
      cases written a with
      | none => simp
      | some b => cases h : (rest.filterMap written).getLast? <;> simp [List.getLast?_cons, h]

/-- What entries add to one place stays there, whatever is added later. -/
theorem gathers_foldl {σ α : Type} (holds : σ → Prop) {write : σ → α → σ} {adds : α → Prop}
    (I : σ → Prop) (hkept : ∀ s a, I s → I (write s a))
    (hwrite : ∀ s a, I s → (holds (write s a) ↔ holds s ∨ adds a)) (entries : List α) {s : σ}
    (hs : I s) : holds (entries.foldl write s) ↔ holds s ∨ ∃ a ∈ entries, adds a := by
  induction entries generalizing s with
  | nil => simp
  | cons a rest ih =>
      rw [List.foldl_cons, ih (hkept s a hs), hwrite s a hs]
      simp [or_assoc]

/-- A declaration made in a scope. -/
inductive Declaration where
  /-- A version inferred from a direct dependency. -/
  | implicit (id : ModuleId) (version : String)
  /-- A version stated by the user, with exclusions below the module. -/
  | explicit (id : ModuleId) (version : String) (exclusions : List Exclusion)
  /-- An import of a BOM. -/
  | bom (reference : PomReference)
deriving DecidableEq

namespace Declaration

/-- The version that a declaration states for a module. An inferred version counts only if
it is concrete. -/
def version? (id : ModuleId) : Declaration → Option String
  | implicit owner version =>
      if owner = id ∧ Version.isConcrete version = true then some version else none
  | explicit owner version _ => if owner = id then some version else none
  | bom _ => none

/-- The BOM that a declaration imports. -/
def reference? : Declaration → Option PomReference
  | bom reference => some reference
  | _ => none

end Declaration

/-- The version that the last of some declarations states for a module. -/
def lastDeclared (declarations : List Declaration) (id : ModuleId) : Option String :=
  (declarations.filterMap (Declaration.version? id)).getLast?

/-- A version declared last for a module was stated explicitly, or it is concrete. -/
theorem concrete_of_lastDeclared {declarations : List Declaration} {id : ModuleId}
    {version : String} (h : lastDeclared declarations id = some version) :
    (∃ exclusions, .explicit id version exclusions ∈ declarations) ∨
      Version.isConcrete version = true := by
  have hmem : version ∈ declarations.filterMap (Declaration.version? id) :=
    List.mem_of_getLast? h
  rcases List.mem_filterMap.1 hmem with ⟨d, hd, hversion⟩
  cases d with
  | implicit owner v =>
      obtain ⟨⟨-, hv⟩, rfl⟩ : (owner = id ∧ Version.isConcrete v = true) ∧ v = version := by
        simpa [Declaration.version?] using hversion
      exact Or.inr hv
  | explicit owner v exclusions =>
      obtain ⟨rfl, rfl⟩ : owner = id ∧ v = version := by
        simpa [Declaration.version?] using hversion
      exact Or.inl ⟨exclusions, hd⟩
  | bom reference => simp [Declaration.version?] at hversion

namespace Scope

/-- Takes a declaration. -/
def declare (s : Scope) : Declaration → Scope
  | .implicit id version => s.addImplicit id version
  | .explicit id version exclusions => s.addExplicit id version exclusions
  | .bom reference => s.importBom reference

/-- Takes declarations one after another. -/
def declareAll (s : Scope) (declarations : List Declaration) : Scope :=
  declarations.foldl declare s

variable {s : Scope} {d : Declaration} {declarations : List Declaration}

/-! ## One declaration -/

theorem isOpen_iff : s.isOpen = true ↔ s.state = .unresolved := by
  simp [isOpen]

@[simp] theorem isOpen_new : new.isOpen = true := rfl

/-- A declaration does not resolve a scope. -/
@[simp] theorem state_declare : (s.declare d).state = s.state := by
  cases d with
  | implicit id version => simp only [declare, addImplicit]; split <;> rfl
  | explicit id version exclusions => simp only [declare, addExplicit]; split <;> rfl
  | bom reference => simp only [declare, importBom]; split <;> rfl

/-- A scope that is not open takes no declaration. -/
theorem declare_of_not_isOpen (h : s.isOpen = false) : s.declare d = s := by
  cases d <;> simp [declare, addImplicit, addExplicit, importBom, h]

theorem isOpen_declare : (s.declare d).isOpen = s.isOpen := by
  simp [isOpen]

theorem versions_declare (h : s.isOpen = true) (id : ModuleId) :
    (s.declare d).versions[id]? = (d.version? id).or s.versions[id]? := by
  cases d with
  | implicit owner version =>
      by_cases hv : Version.isConcrete version = true <;> by_cases ho : owner = id <;>
        simp [declare, addImplicit, Declaration.version?, Std.ExtTreeMap.getElem?_insert, h, hv, ho]
  | explicit owner version exclusions =>
      by_cases ho : owner = id <;>
        simp [declare, addExplicit, Declaration.version?, Std.ExtTreeMap.getElem?_insert, h, ho]
  | bom reference => simp [declare, importBom, Declaration.version?, h]

theorem boms_declare (h : s.isOpen = true) :
    (s.declare d).boms = s.boms ++ d.reference?.toList := by
  cases d with
  | implicit id version => simp only [declare, addImplicit]; split <;> simp [Declaration.reference?]
  | explicit id version exclusions => simp [declare, addExplicit, Declaration.reference?, h]
  | bom reference => simp [declare, importBom, Declaration.reference?, h]

/-! ## All declarations -/

@[simp] theorem state_declareAll : (s.declareAll declarations).state = s.state := by
  induction declarations generalizing s with
  | nil => rfl
  | cons d rest ih =>
      have hrest : ((s.declare d).declareAll rest).state = (s.declare d).state := ih
      exact hrest.trans state_declare

theorem declareAll_append (s : Scope) (before later : List Declaration) :
    s.declareAll (before ++ later) = (s.declareAll before).declareAll later :=
  List.foldl_append

theorem isOpen_declareAll : (s.declareAll declarations).isOpen = s.isOpen := by
  simp [isOpen]

theorem declareAll_of_not_isOpen (h : s.isOpen = false) : s.declareAll declarations = s := by
  induction declarations with
  | nil => rfl
  | cons d rest ih =>
      have hrest : s.declareAll (d :: rest) = (s.declare d).declareAll rest := rfl
      rw [hrest, declare_of_not_isOpen h, ih]

/-- The last declaration of a module decides its version. -/
theorem versions_declareAll (declarations : List Declaration) (h : s.isOpen = true)
    (id : ModuleId) :
    (s.declareAll declarations).versions[id]? =
      (lastDeclared declarations id).or s.versions[id]? := by
  apply view_foldl (fun s : Scope => s.versions[id]?) (fun s => s.isOpen = true)
  · intro s d hs
    rw [isOpen_declare, hs]
  · intro s d hs
    exact versions_declare hs id
  · exact h

/-- BOMs are imported in the order in which they were declared. -/
theorem boms_declareAll (h : s.isOpen = true) :
    (s.declareAll declarations).boms =
      s.boms ++ declarations.filterMap Declaration.reference? := by
  induction declarations generalizing s with
  | nil => simp [declareAll]
  | cons d rest ih =>
      have hrest : (s.declareAll (d :: rest)).boms =
          (s.declare d).boms ++ rest.filterMap Declaration.reference? :=
        ih (isOpen_declare.trans h)
      rw [hrest, boms_declare h, List.append_assoc, List.filterMap_cons]
      cases d.reference? <;> simp

/-- As long as no version is inferred, a table holds what was declared explicitly and no more. -/
theorem versions_declareAll_of_explicit (hs : s.versions = s.explicitVersions)
    (hexplicit : ∀ id version, .implicit id version ∉ declarations) :
    (s.declareAll declarations).versions = (s.declareAll declarations).explicitVersions := by
  induction declarations generalizing s with
  | nil => exact hs
  | cons d rest ih =>
      have hfirst : (s.declare d).versions = (s.declare d).explicitVersions := by
        cases d with
        | implicit id version => exact absurd List.mem_cons_self (hexplicit id version)
        | explicit id version exclusions =>
            simp only [declare, addExplicit]
            split <;> simp [hs]
        | bom reference =>
            simp only [declare, importBom]
            split <;> exact hs
      have hrest : ∀ id version, .implicit id version ∉ rest := by
        intro id version h
        exact hexplicit id version (List.mem_cons_of_mem d h)
      exact ih hfirst hrest

end Scope

end ManagedGraph
