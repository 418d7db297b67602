import ManagedGraph.Proofs.Walk.Entries

/-!
# The walk level by level

Levels are given without a queue: the first holds the root, and each later one is written
down by going through the entries of the level before it and through their edges, in order,
and noting a component where no entry so far has it and nothing inherited or registered
suppresses it (`Frontier.inForce`). The queue of the walk holds what is left of one level and
what is noted of the next (`visit_level`), so the entries of the walk are those of the levels,
one after another (`exists_entries_eq_levels`).
-/

namespace ManagedGraph

namespace Walk

/-! ## Levels -/

/-- The entries of a level noted so far, and those of all levels before it. -/
structure Frontier where
  earlier : List Entry
  level : List Entry

namespace Frontier

/-- The components of all entries so far. -/
def known (f : Frontier) : List Nat :=
  (f.earlier ++ f.level).map Entry.component

/-- Notes an entry at the end of a level, unless its component is known. -/
def note (f : Frontier) (e : Entry) : Frontier :=
  if e.component ∈ f.known then f else { f with level := f.level ++ [e] }

/-- What is in force below an entry: all that it inherits, and all that either table registers
for the module of its component. -/
def inForce (g : ResolvedGraph) (sources : ExclusionSources) (e : Entry) : ExclusionSet :=
  .ofList (e.inherited.toList ++ (g.moduleId? e.component).toList.flatMap fun owner =>
    (sources.declared.patterns owner).toList ++ (sources.fromPoms.patterns owner).toList)

/-- Notes the component that an edge of an entry leads to, with what is in force below that
entry, if nothing of that suppresses its module. -/
def follow (g : ResolvedGraph) (sources : ExclusionSources) (e : Entry) (f : Frontier)
    (edge : Edge) : Frontier :=
  match edge.target? with
  | none => f
  | some t =>
      match g.moduleId? t with
      | none => f
      | some id =>
          if ∀ p ∈ (inForce g sources e).toList, p.suppresses id = false then
            f.note ⟨t, inForce g sources e⟩
          else f

/-- Follows the edges of an entry in order. -/
def expand (g : ResolvedGraph) (sources : ExclusionSources) (f : Frontier) (e : Entry) :
    Frontier :=
  (g.edges e.component).foldl (follow g sources e) f

/-- The level after a given one: all of its entries are expanded in order. -/
def next (g : ResolvedGraph) (sources : ExclusionSources) (f : Frontier) : Frontier :=
  f.level.foldl (expand g sources) ⟨f.earlier ++ f.level, []⟩

end Frontier

/-- The levels up to a given one. The first consists of the root, which inherits nothing. -/
def frontier (g : ResolvedGraph) (sources : ExclusionSources) : Nat → Frontier
  | 0 => ⟨[], [⟨0, ∅⟩]⟩
  | n + 1 => (frontier g sources n).next g sources

/-- The entries of a level. -/
def level (g : ResolvedGraph) (sources : ExclusionSources) (n : Nat) : List Entry :=
  (frontier g sources n).level

variable {g : ResolvedGraph} {sources : ExclusionSources}

/-! ## Expanding an entry -/

namespace Frontier

theorem mem_inForce {e : Entry} {p : Exclusion} :
    p ∈ inForce g sources e ↔ p ∈ e.inherited ∨ Registers g sources e.component p := by
  simp [inForce, Registers, Std.ExtTreeSet.mem_ofList, Std.ExtTreeSet.mem_toList]

/-- The walk carries on what is in force. -/
theorem patterns_eq_inForce {e : Entry} : e.patterns g sources = inForce g sources e := by
  apply Std.ExtTreeSet.ext_mem
  intro p
  rw [mem_patterns, mem_inForce]

theorem forall_mem_inForce_iff {e : Entry} {id : ModuleId} :
    (∀ p ∈ (inForce g sources e).toList, p.suppresses id = false) ↔
      (e.patterns g sources).suppresses id = false := by
  simp only [patterns_eq_inForce, ExclusionSet.suppresses_eq_false_iff, Std.ExtTreeSet.mem_toList]

theorem expand_eq_foldl_note {f : Frontier} {e : Entry} :
    f.expand g sources e =
      (e.targets g sources).foldl (fun f t => f.note ⟨t, e.patterns g sources⟩) f := by
  unfold expand Entry.targets
  rw [List.foldl_filterMap]
  congr
  funext f edge
  unfold follow
  cases edge.target? with
  | none => rfl
  | some t =>
      cases hid : g.moduleId? t with
      | none => simp [hid]
      | some id =>
          simp only [hid, forall_mem_inForce_iff, patterns_eq_inForce]
          by_cases h : (inForce g sources e).suppresses id <;> simp [h]

theorem known_append {f : Frontier} {new : List Entry} :
    ({ f with level := f.level ++ new } : Frontier).known =
      f.known ++ new.map Entry.component := by
  simp [known]

/-- Noting components in order notes the fresh ones. -/
theorem foldl_note_eq {f : Frontier} {patterns : ExclusionSet} {seen ts : List Nat}
    (hseen : ∀ t, t ∈ seen ↔ t ∈ f.known) :
    ts.foldl (fun f t => f.note ⟨t, patterns⟩) f =
      { f with level := f.level ++ (fresh seen ts).map fun t => ⟨t, patterns⟩ } := by
  induction ts generalizing f seen with
  | nil => simp [fresh]
  | cons t rest ih =>
      rw [List.foldl_cons]
      by_cases ht : t ∈ seen
      · have hnote : f.note ⟨t, patterns⟩ = f := if_pos ((hseen t).1 ht)
        rw [hnote, ih hseen]
        simp [fresh, ht]
      · have hnote : f.note ⟨t, patterns⟩ = { f with level := f.level ++ [⟨t, patterns⟩] } :=
          if_neg fun h => ht ((hseen t).2 h)
        have hseen' (u : Nat) : u ∈ t :: seen ↔ u ∈ (f.note ⟨t, patterns⟩).known := by
          rw [hnote, known_append, List.mem_cons, hseen]
          simp [or_comm]
        rw [ih hseen', hnote]
        simp [fresh, ht]

/-- Expanding an entry notes what joins the queue at it. -/
theorem expand_eq {f : Frontier} {e : Entry} {seen : List Nat}
    (hseen : ∀ t, t ∈ seen ↔ t ∈ f.known) :
    f.expand g sources e =
      { f with
        level := f.level ++
          (e.joining g sources seen).map fun t => ⟨t, e.patterns g sources⟩ } := by
  rw [expand_eq_foldl_note, foldl_note_eq hseen]
  rfl

/-- Expanding some entries keeps the levels before theirs as they are. -/
theorem earlier_foldl_expand {f : Frontier} {todo : List Entry} :
    (todo.foldl (expand g sources) f).earlier = f.earlier := by
  induction todo generalizing f with
  | nil => rfl
  | cons e rest ih =>
      rw [List.foldl_cons, ih, expand_eq fun t => Iff.rfl]

end Frontier

/-! ## The queue of the walk -/

/-- The walk takes the rest of a level before what joins the queue meanwhile, and that is
what expanding the rest of the level notes. -/
theorem visit_level {f : Frontier} {seen : List Nat} (todo : List Entry)
    (hseen : ∀ t, t ∈ seen ↔ t ∈ f.known) :
    ∃ seen', (∀ t, t ∈ seen' ↔ t ∈ (todo.foldl (Frontier.expand g sources) f).known) ∧
      visit g sources seen (todo ++ f.level) =
        todo ++ visit g sources seen' (todo.foldl (Frontier.expand g sources) f).level := by
  induction todo generalizing f seen with
  | nil => exact ⟨seen, hseen, rfl⟩
  | cons e rest ih =>
      let joined : List Entry :=
        (e.joining g sources seen).map fun t => ⟨t, e.patterns g sources⟩
      have hexpand : f.expand g sources e = { f with level := f.level ++ joined } :=
        Frontier.expand_eq hseen
      have hseen' (t : Nat) :
          t ∈ e.joining g sources seen ++ seen ↔ t ∈ (f.expand g sources e).known := by
        rw [hexpand, Frontier.known_append, List.mem_append, hseen]
        simp [joined, or_comm]
      -- what joins at `e` waits behind the rest of the level
      rcases ih hseen' with ⟨seen', hknown, hvisit⟩
      refine ⟨seen', hknown, ?_⟩
      have hwaits : rest ++ f.level ++ joined = rest ++ (f.expand g sources e).level := by
        rw [hexpand, List.append_assoc]
      rw [List.cons_append, visit_cons, hwaits, hvisit]
      rfl

theorem earlier_frontier_succ (n : Nat) :
    (frontier g sources (n + 1)).earlier = (frontier g sources n).earlier ++ level g sources n :=
  Frontier.earlier_foldl_expand

/-- The walk takes the levels before a given one and goes on from that one. -/
theorem entries_eq_earlier_append (g : ResolvedGraph) (sources : ExclusionSources) (n : Nat) :
    ∃ seen, (∀ t, t ∈ seen ↔ t ∈ (frontier g sources n).known) ∧
      entries g sources =
        (frontier g sources n).earlier ++ visit g sources seen (level g sources n) := by
  induction n with
  | zero => exact ⟨[0], by simp [frontier, Frontier.known], rfl⟩
  | succ n ih =>
      rcases ih with ⟨seen, hseen, hentries⟩
      -- a new level begins with nothing noted, but with the same components known
      let start : Frontier :=
        ⟨(frontier g sources n).earlier ++ (frontier g sources n).level, []⟩
      have hstart (t : Nat) : t ∈ seen ↔ t ∈ start.known := by
        rw [hseen]
        simp [start, Frontier.known]
      rcases visit_level (level g sources n) hstart with ⟨seen', hseen', hvisit⟩
      refine ⟨seen', hseen', ?_⟩
      have hnext : visit g sources seen (level g sources n) =
          level g sources n ++ visit g sources seen' (level g sources (n + 1)) := by
        have hnil : level g sources n ++ start.level = level g sources n := List.append_nil _
        rw [hnil] at hvisit
        exact hvisit
      calc entries g sources
          = (frontier g sources n).earlier ++ visit g sources seen (level g sources n) := hentries
        _ = (frontier g sources n).earlier ++
              (level g sources n ++ visit g sources seen' (level g sources (n + 1))) := by
            rw [hnext]
        _ = (frontier g sources (n + 1)).earlier ++
              visit g sources seen' (level g sources (n + 1)) := by
            rw [earlier_frontier_succ, List.append_assoc]

theorem earlier_frontier (n : Nat) :
    (frontier g sources n).earlier = (List.range n).flatMap (level g sources) := by
  induction n with
  | zero => rfl
  | succ n ih =>
      rw [earlier_frontier_succ, ih, List.range_succ, List.flatMap_append]
      simp

/-- After an empty level come only empty ones. -/
theorem level_eq_nil_of_le {n m : Nat} (h : level g sources n = []) (hnm : n ≤ m) :
    level g sources m = [] := by
  induction hnm with
  | refl => exact h
  | @step m _ ih =>
      have hlevel : (frontier g sources m).level = [] := ih
      simp [level, frontier, Frontier.next, hlevel]

/-- Some level is empty: each other one adds an entry to the walk, which ends. -/
theorem exists_level_eq_nil (g : ResolvedGraph) (sources : ExclusionSources) :
    ∃ n, level g sources n = [] := by
  apply Classical.byContradiction
  intro hall
  -- with no empty level, the levels would outgrow the entries of the walk
  have hlen (n : Nat) : n ≤ (frontier g sources n).earlier.length := by
    rw [earlier_frontier]
    induction n with
    | zero => exact Nat.zero_le _
    | succ n ih =>
        have hpos : 0 < (level g sources n).length :=
          List.length_pos_iff.2 fun h => hall ⟨n, h⟩
        rw [List.range_succ, List.flatMap_append, List.length_append]
        simp only [List.flatMap_singleton]
        omega
  rcases entries_eq_earlier_append g sources ((entries g sources).length + 1) with
    ⟨seen, -, hentries⟩
  have hbound := congrArg List.length hentries
  have hlast := hlen ((entries g sources).length + 1)
  rw [List.length_append] at hbound
  omega

/-- The entries of the walk are those of the levels, one level after another. -/
theorem exists_entries_eq_levels (g : ResolvedGraph) (sources : ExclusionSources) :
    ∃ n, entries g sources = (List.range n).flatMap (level g sources) ∧
      ∀ m, n ≤ m → level g sources m = [] := by
  rcases exists_level_eq_nil g sources with ⟨n, hn⟩
  rcases entries_eq_earlier_append g sources n with ⟨seen, -, hentries⟩
  refine ⟨n, ?_, fun m hm => level_eq_nil_of_le hn hm⟩
  rw [hentries, hn, visit_nil, List.append_nil, earlier_frontier]

theorem mem_entries_iff_mem_level {e : Entry} :
    e ∈ entries g sources ↔ ∃ n, e ∈ level g sources n := by
  rcases exists_entries_eq_levels g sources with ⟨n, hentries, hempty⟩
  rw [hentries, List.mem_flatMap]
  constructor
  · rintro ⟨m, -, he⟩
    exact ⟨m, he⟩
  · rintro ⟨m, he⟩
    have hm : m < n := by
      apply Nat.lt_of_not_le
      intro hnm
      rw [hempty m hnm] at he
      exact List.not_mem_nil he
    exact ⟨m, List.mem_range.2 hm, he⟩

/-- The walk takes the entries of the levels in order. It includes their modules and those that
their unresolved edges asked for and that neither an inherited exclusion nor one registered there
suppresses, and it excludes all other modules that some edge leads to or asked for. -/
theorem outcome_of_levels (g : ResolvedGraph) (sources : ExclusionSources) :
    (∃ n, entries g sources = (List.range n).flatMap (level g sources) ∧
        ∀ m, n ≤ m → level g sources m = []) ∧
      (∀ id, id ∈ (outcome g sources).included ↔
        ∃ n, ∃ e ∈ level g sources n, g.moduleId? e.component = some id ∨
          (g.Attempts e.component id ∧
            ∀ p, p ∈ e.inherited ∨ Registers g sources e.component p →
              p.suppresses id = false)) ∧
      ∀ id, id ∈ (outcome g sources).excluded ↔
        g.Candidate id ∧ id ∉ (outcome g sources).included := by
  refine ⟨exists_entries_eq_levels g sources, ?_, fun id => mem_excluded⟩
  intro id
  have hattempts (e : Entry) : id ∈ e.attempts g sources ↔ g.Attempts e.component id ∧
      ∀ p, p ∈ e.inherited ∨ Registers g sources e.component p → p.suppresses id = false := by
    simp only [mem_attempts, ExclusionSet.suppresses_eq_false_iff, mem_patterns]
  rw [mem_included]
  constructor
  · rintro ⟨e, he, hfound⟩
    rcases mem_entries_iff_mem_level.1 he with ⟨n, hn⟩
    exact ⟨n, e, hn, hfound.imp_right (hattempts e).1⟩
  · rintro ⟨n, e, hn, hfound⟩
    exact ⟨e, mem_entries_iff_mem_level.2 ⟨n, hn⟩, hfound.imp_right (hattempts e).2⟩

end Walk

end ManagedGraph
