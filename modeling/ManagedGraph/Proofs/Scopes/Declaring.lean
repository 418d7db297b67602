import ManagedGraph.Proofs.Scope.Declarations
import ManagedGraph.Proofs.Scopes.Settling

/-!
# Declarations in the scopes of a build

A declaration is made in one scope, which is created for it, and touches no other
(`get?_declareAll`). Declarations in scopes that are not watched go unnoticed, and
declarations in scopes that were not queried keep what was settled apart.
-/

namespace ManagedGraph.Scopes

variable {poms : PomService} {scope : Option String} {c d : Scopes}
variable {queried watched : Set (Option String)} {entries : List (Option String × Declaration)}

/-- Takes a declaration in a scope, which is created if there is none of that name. -/
def declare (c : Scopes) (scope : Option String) (d : Declaration) : Scopes :=
  c.change scope fun s => s.declare d

/-- Takes declarations, each in its scope, one after another. -/
def declareAll (c : Scopes) (entries : List (Option String × Declaration)) : Scopes :=
  entries.foldl (fun c entry => c.declare entry.1 entry.2) c

/-- The declarations made in one scope. -/
def declaredIn (scope : Option String) (entries : List (Option String × Declaration)) :
    List Declaration :=
  (entries.filter fun entry => entry.1 = scope).map Prod.snd

theorem declareAll_cons (c : Scopes) (entry : Option String × Declaration)
    (rest : List (Option String × Declaration)) :
    c.declareAll (entry :: rest) = (c.declare entry.1 entry.2).declareAll rest := rfl

/-- A scope takes the declarations made in it and no others. Without any it is as it was. -/
theorem get?_declareAll (c : Scopes) (entries : List (Option String × Declaration))
    (scope : Option String) :
    (c.declareAll entries).get? scope =
      if declaredIn scope entries = [] then c.get? scope
      else some (((c.get? scope).getD .new).declareAll (declaredIn scope entries)) := by
  induction entries generalizing c with
  | nil => rfl
  | cons entry rest ih =>
      obtain ⟨here, d⟩ := entry
      rw [declareAll_cons, ih, declare, get?_change]
      by_cases heq : here = scope
      · subst heq
        have hcons : declaredIn here ((here, d) :: rest) = d :: declaredIn here rest := by
          simp [declaredIn]
        rw [hcons]
        by_cases hrest : declaredIn here rest = [] <;> simp [hrest, Scope.declareAll]
      · have hcons : declaredIn scope ((here, d) :: rest) = declaredIn scope rest := by
          simp [declaredIn, heq]
        rw [hcons, if_neg heq]

/-- A scope that does not exist declares what a new one would. -/
theorem getD_get?_declareAll (c : Scopes) (entries : List (Option String × Declaration))
    (scope : Option String) :
    ((c.declareAll entries).get? scope).getD .new =
      ((c.get? scope).getD .new).declareAll (declaredIn scope entries) := by
  rw [get?_declareAll]
  split
  · rename_i hnone
    rw [hnone]
    rfl
  · rfl

@[simp] theorem properties_declareAll (c : Scopes) (entries : List (Option String × Declaration)) :
    (c.declareAll entries).properties = c.properties := by
  induction entries generalizing c with
  | nil => rfl
  | cons entry rest ih =>
      rw [declareAll_cons, ih]
      exact properties_change c entry.1 _

/-- Declarations in scopes that are not watched. -/
theorem settling_declareAll (h : ∀ entry ∈ entries, entry.1 ∉ watched) :
    Settling poms queried watched c (c.declareAll entries) := by
  induction entries generalizing c with
  | nil => exact Settling.refl c
  | cons entry rest ih =>
      have hrest : ∀ entry ∈ rest, entry.1 ∉ watched :=
        fun e he => h e (List.mem_cons_of_mem _ he)
      have hhere : Settling poms queried watched c (c.declare entry.1 entry.2) :=
        settling_change (h entry List.mem_cons_self) _
      exact hhere.trans (ih hrest)

/-- The same declarations, made before and after, in scopes that were not queried. -/
theorem Settling.declareAll (h : Settling poms queried watched c d)
    (hentries : ∀ entry ∈ entries, entry.1 ∉ queried) :
    Settling poms queried watched (c.declareAll entries) (d.declareAll entries) := by
  induction entries generalizing c d with
  | nil => exact h
  | cons entry rest ih =>
      have hrest : ∀ entry ∈ rest, entry.1 ∉ queried :=
        fun e he => hentries e (List.mem_cons_of_mem _ he)
      exact ih (h.change (hentries entry List.mem_cons_self) _) hrest

end ManagedGraph.Scopes
