import ManagedGraph.Graph
import ManagedGraph.Exclusion.Table

/-!
# Exclusions along paths

A graph resolver applies an exclude rule everywhere, while an exclusion only prunes what
lies below the module that declares it. A walk goes through a graph breadth-first and
carries, for each component, the exclusions gathered on the path that reached it first.
The modules that no surviving path reaches can then be excluded everywhere with the same
effect.

A component is marked as seen when it joins the queue, so it is walked at most once, and
the components not seen together with the queue shrink at every step.
-/

namespace ManagedGraph

/-- The exclusions a walk respects: those the build declares and those found in POMs. -/
structure ExclusionSources where
  declared : Exclusions
  fromPoms : Exclusions

namespace ExclusionSources

/-- All exclusions that apply to the dependencies of a module. -/
def registered (sources : ExclusionSources) (owner : ModuleId) : ExclusionSet :=
  sources.declared.patterns owner ∪ sources.fromPoms.patterns owner

end ExclusionSources

namespace Walk

/-- A component on the way, with the exclusions gathered above it. -/
structure Entry where
  component : Nat
  inherited : ExclusionSet

/-- The exclusions in force below an entry: the inherited ones and its own. -/
def Entry.patterns (g : ResolvedGraph) (sources : ExclusionSources) (e : Entry) : ExclusionSet :=
  match g.moduleId? e.component with
  | some id => e.inherited ∪ sources.registered id
  | none => e.inherited

/-- The components that the edges of an entry lead to, without the suppressed ones. -/
def Entry.targets (g : ResolvedGraph) (sources : ExclusionSources) (e : Entry) : List Nat :=
  (g.edges e.component).filterMap fun edge =>
    match edge.target? with
    | none => none
    | some t =>
        match g.moduleId? t with
        | none => none
        | some id => if (e.patterns g sources).suppresses id then none else some t

/-- The modules that the edges of an entry failed to reach, without the suppressed ones. -/
def Entry.attempts (g : ResolvedGraph) (sources : ExclusionSources) (e : Entry) :
    List ModuleId :=
  (g.edges e.component).filterMap fun edge =>
    match edge.attempted? with
    | none => none
    | some id => if (e.patterns g sources).suppresses id then none else some id

/-- The positions of a list that are new, each once, in order. -/
def fresh (seen : List Nat) : List Nat → List Nat
  | [] => []
  | t :: rest => if t ∈ seen then fresh seen rest else t :: fresh (t :: seen) rest

/-- The number of components not seen. -/
def unseen (g : ResolvedGraph) (seen : List Nat) : Nat :=
  (List.range g.size).countP fun i => decide (i ∉ seen)

/-! ## Every component is walked at most once -/

theorem mem_fresh {seen ts : List Nat} {t : Nat} :
    t ∈ fresh seen ts ↔ t ∈ ts ∧ t ∉ seen := by
  induction ts generalizing seen with
  | nil => simp [fresh]
  | cons u rest ih =>
      unfold fresh
      split
      · rename_i hu
        rw [ih]
        constructor
        · rintro ⟨ht, hs⟩
          exact ⟨List.mem_cons_of_mem _ ht, hs⟩
        · rintro ⟨ht, hs⟩
          rcases List.mem_cons.1 ht with rfl | ht
          · exact absurd hu hs
          · exact ⟨ht, hs⟩
      · rename_i hu
        rw [List.mem_cons, ih]
        constructor
        · rintro (rfl | ⟨ht, hs⟩)
          · exact ⟨List.mem_cons_self, hu⟩
          · exact ⟨List.mem_cons_of_mem _ ht, fun h => hs (List.mem_cons_of_mem _ h)⟩
        · rintro ⟨ht, hs⟩
          by_cases htu : t = u
          · exact Or.inl htu
          · refine Or.inr ⟨(List.mem_cons.1 ht).resolve_left htu, ?_⟩
            intro h
            exact (List.mem_cons.1 h).elim htu hs

theorem nodup_fresh {seen ts : List Nat} : (fresh seen ts).Nodup := by
  induction ts generalizing seen with
  | nil => simp [fresh]
  | cons u rest ih =>
      unfold fresh
      split
      · exact ih
      · refine List.nodup_cons.2 ⟨?_, ih⟩
        intro h
        exact (mem_fresh.1 h).2 List.mem_cons_self

/-- Seeing one more component leaves one fewer unseen. -/
theorem unseen_cons {g : ResolvedGraph} {seen : List Nat} {t : Nat} (ht : t < g.size)
    (hs : t ∉ seen) : unseen g (t :: seen) + 1 = unseen g seen := by
  -- in a list without repetitions the two counts differ by `t` alone
  have count (l : List Nat) (hl : l.Nodup) :
      l.countP (fun i => decide (i ∉ t :: seen)) + (if t ∈ l then 1 else 0) =
        l.countP (fun i => decide (i ∉ seen)) := by
    induction l with
    | nil => simp
    | cons i rest ih =>
        have hrest := ih (List.nodup_cons.1 hl).2
        have hi := (List.nodup_cons.1 hl).1
        by_cases hit : i = t
        · subst hit
          simp [hs, hi] at hrest ⊢
          omega
        · have hti : t ≠ i := fun h => hit h.symm
          by_cases hmem : i ∈ seen
          · simp [hit, hti, hmem] at hrest ⊢
            omega
          · simp [hit, hti, hmem] at hrest ⊢
            omega
  have h := count (List.range g.size) List.nodup_range
  simpa [unseen, ht] using h

/-- Seeing new components leaves that many fewer unseen. -/
theorem unseen_append {g : ResolvedGraph} {seen new : List Nat} (hnew : new.Nodup)
    (hlt : ∀ t ∈ new, t < g.size) (hs : ∀ t ∈ new, t ∉ seen) :
    unseen g (new ++ seen) + new.length = unseen g seen := by
  induction new with
  | nil => simp
  | cons t rest ih =>
      have hrest := ih (List.nodup_cons.1 hnew).2 (fun u hu => hlt u (List.mem_cons_of_mem _ hu))
        (fun u hu => hs u (List.mem_cons_of_mem _ hu))
      have ht : t ∉ rest ++ seen := by
        intro h
        rcases List.mem_append.1 h with h | h
        · exact (List.nodup_cons.1 hnew).1 h
        · exact hs t List.mem_cons_self h
      have hone := unseen_cons (hlt t List.mem_cons_self) ht
      simp only [List.cons_append, List.length_cons]
      omega

/-- A target is a component of the graph. -/
theorem lt_size_of_mem_targets {g : ResolvedGraph} {sources : ExclusionSources} {e : Entry}
    {t : Nat} (h : t ∈ e.targets g sources) : t < g.size := by
  unfold Entry.targets at h
  rcases List.mem_filterMap.1 h with ⟨edge, -, hedge⟩
  split at hedge
  · exact absurd hedge (by simp)
  · rename_i u hu
    split at hedge
    · exact absurd hedge (by simp)
    · rename_i id hid
      split at hedge
      · exact absurd hedge (by simp)
      · simp only [Option.some.injEq] at hedge
        subst hedge
        rcases Option.map_eq_some_iff.1 hid with ⟨c, hc, -⟩
        exact (List.getElem?_eq_some_iff.1 hc).1

/-- The components that join the queue at an entry. -/
def Entry.joining (g : ResolvedGraph) (sources : ExclusionSources) (seen : List Nat)
    (e : Entry) : List Nat :=
  fresh seen (e.targets g sources)

theorem unseen_joining (g : ResolvedGraph) (sources : ExclusionSources) (seen : List Nat)
    (e : Entry) :
    unseen g (e.joining g sources seen ++ seen) + (e.joining g sources seen).length =
      unseen g seen := by
  apply unseen_append nodup_fresh
  · intro t ht
    exact lt_size_of_mem_targets (mem_fresh.1 ht).1
  · intro t ht
    exact (mem_fresh.1 ht).2

/-! ## The walk -/

/-- The entries taken from the queue, in order. -/
def visit (g : ResolvedGraph) (sources : ExclusionSources) (seen : List Nat) :
    List Entry → List Entry
  | [] => []
  | e :: rest =>
      let joining := e.joining g sources seen
      let patterns := e.patterns g sources
      -- what joins the queue is seen from here on, not only once it is taken
      e :: visit g sources (joining ++ seen) (rest ++ joining.map fun t => ⟨t, patterns⟩)
termination_by queue => unseen g seen + queue.length
decreasing_by
  have h := unseen_joining g sources seen e
  simp only [List.length_append, List.length_map, List.length_cons]
  omega

@[simp] theorem visit_nil {g : ResolvedGraph} {sources : ExclusionSources} {seen : List Nat} :
    visit g sources seen [] = [] := by
  rw [visit]

/-- The first entry is taken, and the components it adds wait at the end of the queue. -/
theorem visit_cons {g : ResolvedGraph} {sources : ExclusionSources} {seen : List Nat} {e : Entry}
    {rest : List Entry} :
    visit g sources seen (e :: rest) =
      e :: visit g sources (e.joining g sources seen ++ seen)
        (rest ++ (e.joining g sources seen).map fun t => ⟨t, e.patterns g sources⟩) := by
  rw [visit]

/-- The entries of the walk that starts at the root with no exclusions. -/
def entries (g : ResolvedGraph) (sources : ExclusionSources) : List Entry :=
  visit g sources [0] [⟨0, ∅⟩]

/-- What a walk found. -/
structure Outcome where
  /-- The modules reached without crossing an exclusion. -/
  included : ModuleSet
  /-- The candidates that are not included. -/
  excluded : ModuleSet
deriving DecidableEq

/-- The modules that some edge of a graph leads to or fails to reach. -/
def candidates (g : ResolvedGraph) : ModuleSet :=
  Std.ExtTreeSet.ofList (g.components.flatMap fun c => c.edges.filterMap fun edge =>
    match edge.target? with
    | some t => g.moduleId? t
    | none => edge.attempted?)

/-- The modules of the entries of a walk, and those they attempted. -/
def included (g : ResolvedGraph) (sources : ExclusionSources) : ModuleSet :=
  Std.ExtTreeSet.ofList ((entries g sources).flatMap fun e =>
    (g.moduleId? e.component).toList ++ e.attempts g sources)

/-- Which modules of a graph the exclusions prune. -/
def outcome (g : ResolvedGraph) (sources : ExclusionSources) : Outcome :=
  { included := included g sources
    excluded := candidates g \ included g sources }

/-- The exclude rules with the same effect, in order. -/
def Outcome.rules (o : Outcome) : List ModuleId :=
  o.excluded.toList

end Walk

end ManagedGraph
