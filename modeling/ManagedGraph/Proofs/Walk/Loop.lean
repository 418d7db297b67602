import ManagedGraph.Proofs.Graph.Growing
import ManagedGraph.Proofs.Walk.Entries

/-!
# The loop of a walk

A walk runs as a loop that takes one entry off its queue at a time. An iteration looks into the
graph at the component of the entry and at all components that its edges lead to, and it only
happens if all of these are there. The queue may grow while it is consumed, and cycles offer
components again and again; but a component is seen from the moment it joins the queue, so each
iteration takes one off the components that are unseen or wait (`remaining_advance`). Hence the
loop ends, after at most as many iterations as there are components, and it has taken the entries
of the walk (`loop_ends`).
-/

namespace ManagedGraph

namespace Walk

/-- The positions at which the walk looks into a graph at an entry: its component, and those that
its resolved edges lead to, suppressed or not. -/
def Entry.lookUps (g : ResolvedGraph) (e : Entry) : List Nat :=
  e.component :: (g.edges e.component).filterMap Edge.target?

/-- The loop of a walk between two iterations. -/
structure Loop where
  /-- The entries taken off the queue so far. -/
  taken : List Entry
  /-- The queue. -/
  waiting : List Entry
  seen : List Nat

namespace Loop

/-- Before the first iteration the root waits. -/
def start : Loop :=
  ⟨[], [⟨0, ∅⟩], [0]⟩

/-- Takes an entry off the queue, of which the rest stays, and adds what joins because of it. -/
def advance (g : ResolvedGraph) (sources : ExclusionSources) (l : Loop) (e : Entry)
    (rest : List Entry) : Loop where
  taken := l.taken ++ [e]
  waiting := rest ++ (e.joining g sources l.seen).map fun t => ⟨t, e.patterns g sources⟩
  seen := e.joining g sources l.seen ++ l.seen

/-- One iteration. There is none when the queue is empty, nor one that looks outside the graph. -/
def iterate? (g : ResolvedGraph) (sources : ExclusionSources) (l : Loop) : Option Loop :=
  match l.waiting with
  | [] => none
  | e :: rest => if ∀ i ∈ e.lookUps g, i < g.size then some (l.advance g sources e rest) else none

/-- A number of iterations, if there are so many. -/
def run? (g : ResolvedGraph) (sources : ExclusionSources) : Nat → Loop → Option Loop
  | 0, l => some l
  | n + 1, l => (l.iterate? g sources).bind (run? g sources n)

/-- How many iterations there can be: one for each component that is unseen or waits. -/
def remaining (g : ResolvedGraph) (l : Loop) : Nat :=
  unseen g l.seen + l.waiting.length

/-- The components that have joined the queue so far. -/
def joined (l : Loop) : List Nat :=
  (l.taken ++ l.waiting).map Entry.component

/-- What has joined the queue is reached from the root and seen, and has joined once. -/
structure Sound (g : ResolvedGraph) (l : Loop) : Prop where
  reaches : ∀ i ∈ l.joined, g.Reaches i
  seen : ∀ i ∈ l.joined, i ∈ l.seen
  nodup : l.joined.Nodup

variable {g : ResolvedGraph} {sources : ExclusionSources} {l : Loop} {e : Entry} {rest : List Entry}

theorem sound_start (g : ResolvedGraph) : start.Sound g := by
  have honly (i : Nat) (hi : i ∈ start.joined) : i = 0 := by simpa [joined, start] using hi
  constructor
  · intro i hi
    rw [honly i hi]
    exact Relation.ReflTransGen.refl
  · intro i hi
    rw [honly i hi]
    exact List.mem_singleton_self 0
  · exact List.pairwise_singleton _ 0

/-- At the start there can be as many iterations as there are components. -/
theorem remaining_start (g : ResolvedGraph) : start.remaining g = g.size := by
  have hroot : 0 < g.size := List.length_pos_iff.2 g.components_ne_nil
  have hall : unseen g [] = g.size := by simp [unseen]
  have hone : unseen g [0] + 1 = unseen g [] := unseen_cons hroot List.not_mem_nil
  show unseen g [0] + 1 = g.size
  omega

/-! ## One iteration -/

/-- In a closed graph the walk looks at components of the graph only. -/
theorem lookUps_lt_size (hg : g.Closed) (he : g.Reaches e.component) :
    ∀ i ∈ e.lookUps g, i < g.size := by
  intro i hi
  rcases List.mem_cons.1 hi with rfl | hi
  · exact hg.lt_size_of_reaches he
  · obtain ⟨edge, hedge, ht⟩ := List.mem_filterMap.1 hi
    exact hg.lt_size_of_leads ⟨edge, hedge, ht⟩

theorem joined_advance (hwaiting : l.waiting = e :: rest) :
    (l.advance g sources e rest).joined = l.joined ++ e.joining g sources l.seen := by
  have hcomponents (ts : List Nat) (patterns : ExclusionSet) :
      (ts.map fun t => (⟨t, patterns⟩ : Entry)).map Entry.component = ts := by
    rw [List.map_map]
    exact List.map_id ts
  simp [joined, advance, hwaiting, hcomponents]

/-- An iteration uses up one of those that remain, however many components join. -/
theorem remaining_advance (hwaiting : l.waiting = e :: rest) :
    (l.advance g sources e rest).remaining g + 1 = l.remaining g := by
  have hunseen := unseen_joining g sources l.seen e
  unfold remaining advance
  simp only [hwaiting, List.length_append, List.length_map, List.length_cons]
  omega

theorem Sound.advance (h : l.Sound g) (hwaiting : l.waiting = e :: rest) :
    (l.advance g sources e rest).Sound g := by
  have he : e.component ∈ l.joined := by simp [joined, hwaiting]
  constructor
  · intro i hi
    rw [joined_advance hwaiting, List.mem_append] at hi
    rcases hi with hi | hi
    · exact h.reaches i hi
    · have htarget : i ∈ e.targets g sources := (mem_fresh.1 hi).1
      exact (h.reaches e.component he).tail (mem_targets.1 htarget).1
  · intro i hi
    rw [joined_advance hwaiting, List.mem_append] at hi
    rcases hi with hi | hi
    · exact List.mem_append_right _ (h.seen i hi)
    · exact List.mem_append_left _ hi
  · rw [joined_advance hwaiting, List.nodup_append]
    refine ⟨h.nodup, nodup_fresh, ?_⟩
    -- what joins is unseen, and what joined before is seen
    rintro i hi t ht rfl
    exact (mem_fresh.1 ht).2 (h.seen i hi)

/-- While something waits there is an iteration. -/
theorem iterate?_of_waiting (hg : g.Closed) (h : l.Sound g) (hwaiting : l.waiting = e :: rest) :
    l.iterate? g sources = some (l.advance g sources e rest) := by
  have he : e.component ∈ l.joined := by simp [joined, hwaiting]
  have hlookUps := lookUps_lt_size hg (h.reaches e.component he)
  unfold iterate?
  rw [hwaiting]
  exact if_pos hlookUps

/-! ## All iterations -/

/-- The loop runs until nothing waits, and it takes what the walk takes. -/
theorem Sound.run (sources : ExclusionSources) (hg : g.Closed) (h : l.Sound g) :
    ∃ n done, n ≤ l.remaining g ∧ run? g sources n l = some done ∧ done.waiting = [] ∧
      done.Sound g ∧ done.taken = l.taken ++ visit g sources l.seen l.waiting ∧
      done.taken.length = l.taken.length + n := by
  induction hremaining : l.remaining g generalizing l with
  | zero =>
      have hnone : l.waiting = [] := by
        apply List.length_eq_zero_iff.1
        unfold remaining at hremaining
        omega
      exact ⟨0, l, Nat.le_refl 0, rfl, hnone, h, by simp [hnone], rfl⟩
  | succ k ih =>
      cases hwaiting : l.waiting with
      | nil => exact ⟨0, l, Nat.zero_le _, rfl, hwaiting, h, by simp, rfl⟩
      | cons e rest =>
          let next := l.advance g sources e rest
          have hfewer : next.remaining g + 1 = l.remaining g := remaining_advance hwaiting
          have hmore : next.taken.length = l.taken.length + 1 := by simp [next, Loop.advance]
          obtain ⟨n, done, hn, hrun, hdone, hsound, htaken, hlength⟩ :=
            ih (h.advance hwaiting) (l := next) (by omega)
          refine ⟨n + 1, done, by omega, ?_, hdone, hsound, ?_, ?_⟩
          · rw [run?, iterate?_of_waiting hg h hwaiting]
            exact hrun
          · rw [htaken, visit_cons, List.append_cons]
            rfl
          · omega

end Loop

/-- However a graph has grown from its root, if its edges were added with positions that were
handed out, the loop of a walk through it ends. There are at most as many iterations as there are
components, and each looks at components of the graph only. They take the entries of the walk off
the queue, no two of the same component and none of a component that the root does not reach. -/
theorem loop_ends (root : Identity) (steps : List Growth) (sources : ExclusionSources)
    (h : (Growing.start root).PermitsAll steps) :
    let g := ((Growing.start root).takeAll steps).graph
    ∃ n done, Loop.run? g sources n .start = some done ∧ done.waiting = [] ∧
      done.taken = entries g sources ∧ done.taken.length = n ∧ n ≤ g.size ∧
      (done.taken.map Entry.component).Nodup ∧ ∀ e ∈ done.taken, g.Reaches e.component := by
  intro g
  have hg : g.Closed := Growing.closed_of_permitsAll h
  obtain ⟨n, done, hn, hrun, hdone, hsound, htaken, hlength⟩ :=
    (Loop.sound_start g).run sources hg
  have hjoined : done.joined = done.taken.map Entry.component := by
    unfold Loop.joined
    rw [hdone, List.append_nil]
  refine ⟨n, done, hrun, hdone, htaken, ?_, ?_, ?_, ?_⟩
  · simpa [Loop.start] using hlength
  · rw [← Loop.remaining_start g]
    exact hn
  · rw [← hjoined]
    exact hsound.nodup
  · intro e he
    apply hsound.reaches
    rw [hjoined]
    exact List.mem_map_of_mem he

/-- A root that asks for two modules, the first of them twice. Both lead back to the first, and one
constraint leads back to the root. -/
def circling : List Growth :=
  let module (artifact : String) : Identity := .module ⟨⟨"org", artifact⟩, "1.0"⟩
  let resolved (artifact : String) (t : Nat) : Edge :=
    .resolved (.module ⟨⟨"org", artifact⟩, none⟩) t
  [.component (module "a"), .edge 0 (resolved "a" 1), .component (module "b"),
    .edge 0 (resolved "b" 2), .edge 0 (resolved "a" 1), .edge 1 (resolved "a" 1),
    .edge 1 (resolved "b" 2), .component (module "a"), .edge 2 (resolved "a" 1),
    .edge 2 (.constraint (.module ⟨⟨"org", "app"⟩, none⟩) (some 0))]

/-- The graph grown in this way. -/
def circle : ResolvedGraph :=
  ((Growing.start (.project ":" ⟨⟨"org", "app"⟩, "1.0"⟩)).takeAll circling).graph

/-- The first module excludes the second. -/
def circleSources : ExclusionSources :=
  ⟨(∅ : Exclusions).add ⟨"org", "a"⟩ [.pattern "org" "b"], ∅⟩

theorem loop_ends_circle :
    (Growing.start (.project ":" ⟨⟨"org", "app"⟩, "1.0"⟩)).PermitsAll circling ∧
      ∃ n done, Loop.run? circle circleSources n .start = some done ∧ done.waiting = [] ∧
        done.taken = entries circle circleSources ∧ n ≤ 3 := by
  have hpermits : (Growing.start (.project ":" ⟨⟨"org", "app"⟩, "1.0"⟩)).PermitsAll circling := by
    decide
  obtain ⟨n, done, hrun, hdone, htaken, -, hn, -, -⟩ := loop_ends _ circling circleSources hpermits
  have hsize : circle.size = 3 := by decide
  exact ⟨hpermits, n, done, hrun, hdone, htaken, hsize ▸ hn⟩

example : (Loop.run? circle circleSources 3 .start).map (fun done =>
    (done.taken.map Entry.component, done.waiting.length)) = some ([0, 1, 2], 0) := by decide

end Walk

end ManagedGraph
