import ManagedGraph.Proofs.Pom.Building

/-!
# Chains of parents and imports

From a POM that is built, links lead to its parent and to the BOMs that its effective document
imports. From a parent that is merged, a link leads to the parent of that. Each link takes one of
the levels that a build has, whichever kind it is (`Chain.lt_of_build`), and a build looks into no
file but those of chains within its levels (`readsOnly_build`). So it always ends, and where
links lead around a cycle or on without end it ends in a failure (`chains_end_within_limit`).
-/

namespace ManagedGraph

namespace Repository

open Pom

/-! ## Links -/

/-- A place on a chain of parents and imports. -/
inductive Stop where
  /-- A POM is built. -/
  | build (m : ModuleVersion)
  /-- A parent is merged into its child. -/
  | parent (m : ModuleVersion)

/-- What is read at a stop. -/
def Stop.module : Stop → ModuleVersion
  | build m => m
  | parent m => m

/-- Where a chain leads next. -/
inductive Link (r : Repository) (overrides : Properties) : Stop → Stop → Prop where
  | parent {s : Stop} {d : Document} {p : ParentReference} (hread : r.read s.module = .ok d)
      (hparent : d.parent = some p) : Link r overrides s (.parent p.module)
  | bom {m bom : ModuleVersion} {d : Document} {ancestors : List Document}
      (hlineage : r.Lineage m d ancestors)
      (hbom : bom.coordinates ∈ (d.effective ancestors overrides).imports) :
      Link r overrides (.build m) (.build bom)

/-- A number of links from one stop to another. -/
inductive Chain (r : Repository) (overrides : Properties) : Nat → Stop → Stop → Prop where
  | here {s : Stop} : Chain r overrides 0 s s
  | link {n : Nat} {s t u : Stop} (hlink : r.Link overrides s t) (hrest : Chain r overrides n t u) :
      Chain r overrides (n + 1) s u

/-- Links lead from a stop to a cycle. -/
def Circular (r : Repository) (overrides : Properties) (s : Stop) : Prop :=
  ∃ n k t, r.Chain overrides n s t ∧ r.Chain overrides (k + 1) t t

/-- Links lead on from a stop without end. -/
def Endless (r : Repository) (overrides : Properties) (s : Stop) : Prop :=
  ∃ stops : Nat → Stop, stops 0 = s ∧ ∀ n, r.Link overrides (stops n) (stops (n + 1))

variable {r : Repository} {overrides : Properties} {m : ModuleVersion} {depth n : Nat}
  {s t u : Stop}

theorem Chain.append {k : Nat} (h : r.Chain overrides n s t) (h' : r.Chain overrides k t u) :
    r.Chain overrides (n + k) s u := by
  induction h with
  | here => simpa using h'
  | link hlink _ ih =>
      rw [Nat.add_right_comm]
      exact .link hlink (ih h')

/-- Around a cycle there are chains of any length. -/
theorem Circular.exists_chain (h : r.Circular overrides s) (limit : Nat) :
    ∃ n t, limit ≤ n ∧ r.Chain overrides n s t := by
  obtain ⟨n, k, t, hstart, hcycle⟩ := h
  -- each further round makes the chain longer
  have hrounds : ∀ limit, ∃ n, limit ≤ n ∧ r.Chain overrides n t t := by
    intro limit
    induction limit with
    | zero => exact ⟨0, Nat.le_refl 0, .here⟩
    | succ limit ih =>
        obtain ⟨n, hn, hchain⟩ := ih
        exact ⟨n + (k + 1), by omega, hchain.append hcycle⟩
  obtain ⟨rounds, hle, hchain⟩ := hrounds limit
  exact ⟨n + rounds, t, by omega, hstart.append hchain⟩

theorem Endless.exists_chain (h : r.Endless overrides s) (n : Nat) :
    ∃ t, r.Chain overrides n s t := by
  obtain ⟨stops, rfl, hlink⟩ := h
  refine ⟨stops n, ?_⟩
  induction n with
  | zero => exact .here
  | succ n ih => exact ih.append (.link (hlink n) .here)

/-! ## Links take levels -/

/-- From a parent, links lead through the lineage and nowhere else. -/
theorem Lineage.chain_le {d : Document} {ancestors : List Document}
    (h : r.Lineage m d ancestors) (hchain : r.Chain overrides n (.parent m) t) :
    n ≤ ancestors.length := by
  induction n generalizing m d ancestors with
  | zero => exact Nat.zero_le _
  | succ n ih =>
      cases hchain with
      | link hlink hrest =>
          cases hlink with
          | parent hread hparent =>
              obtain ⟨parent, rest, rfl, hlineage⟩ := h.exists_parent hread hparent
              exact Nat.succ_le_succ (ih hlineage hrest)

/-- What is built has no chain of as many links as there are levels. -/
theorem Chain.lt_of_build {whole : EffectivePom} (hchain : r.Chain overrides n (.build m) t)
    (h : r.build overrides depth m.coordinates = .ok whole) : n < depth := by
  induction depth generalizing n m whole with
  | zero => exact absurd h not_build_zero
  | succ depth ih =>
      obtain ⟨m', d, ancestors, boms, hm, hlineage, hlength, hboms, -⟩ := build_eq_ok_iff.1 h
      obtain rfl := ModuleVersion.coordinates_injective hm
      cases hchain with
      | here => exact Nat.succ_pos depth
      | link hlink hrest =>
          cases hlink with
          | parent hread hparent =>
              -- the chain stays in the lineage, which has to fit as a whole
              obtain ⟨parent, rest, rfl, hparents⟩ := hlineage.exists_parent hread hparent
              have hle := hparents.chain_le hrest
              rw [List.length_cons] at hlength
              omega
          | bom hlineage' hbom =>
              obtain ⟨rfl, rfl⟩ := hlineage.unique hlineage'
              obtain ⟨pom, -, hpom⟩ := exists_of_forall₂ hboms hbom
              exact Nat.succ_lt_succ (ih hrest hpom)

/-! ## What is read -/

/-- An answer that a repository gives is settled by finitely many files, each of a certain kind. -/
def ReadsOnly {α : Type} (r : Repository) (kind : String → Prop) (answer : Repository → α) : Prop :=
  ∃ paths : List String, (∀ path ∈ paths, kind path) ∧
    ∀ files : Files, (∀ path ∈ paths, files path = r.files path) →
      answer ⟨r.root, files⟩ = answer r

namespace ReadsOnly

variable {α β ε : Type} {kind : String → Prop}

theorem const (a : α) : r.ReadsOnly kind fun _ => a :=
  ⟨[], by simp, fun _ _ => rfl⟩

theorem map {answer : Repository → α} (f : α → β) (h : r.ReadsOnly kind answer) :
    r.ReadsOnly kind fun r => f (answer r) := by
  obtain ⟨paths, hkind, hsettled⟩ := h
  exact ⟨paths, hkind, fun files hfiles => congrArg f (hsettled files hfiles)⟩

theorem bind {first : Repository → Except ε α} {next : α → Repository → Except ε β}
    (hfirst : r.ReadsOnly kind first)
    (hnext : ∀ a, first r = .ok a → r.ReadsOnly kind (next a)) :
    r.ReadsOnly kind fun r => first r >>= fun a => next a r := by
  obtain ⟨paths, hkind, hsettled⟩ := hfirst
  cases ha : first r with
  | error e =>
      refine ⟨paths, hkind, ?_⟩
      intro files hfiles
      simp only [hsettled files hfiles, ha]
      rfl
  | ok a =>
      obtain ⟨more, hmore, hthen⟩ := hnext a ha
      refine ⟨paths ++ more, ?_, ?_⟩
      · intro path hpath
        rcases List.mem_append.1 hpath with hpath | hpath
        · exact hkind path hpath
        · exact hmore path hpath
      · intro files hfiles
        have hbefore : first ⟨r.root, files⟩ = .ok a := by
          rw [hsettled files fun path hpath => hfiles path (List.mem_append_left _ hpath), ha]
        have hafter : next a ⟨r.root, files⟩ = next a r :=
          hthen files fun path hpath => hfiles path (List.mem_append_right _ hpath)
        simp only [hbefore, ha]
        exact hafter

theorem mapM {f : α → Repository → Except ε β} {l : List α}
    (h : ∀ a ∈ l, r.ReadsOnly kind (f a)) : r.ReadsOnly kind fun r => l.mapM fun a => f a r := by
  induction l with
  | nil => exact const _
  | cons a rest ih =>
      simp only [List.mapM_cons]
      apply bind (h a List.mem_cons_self)
      intro b _
      apply bind (ih fun a ha => h a (List.mem_cons_of_mem _ ha))
      intro more _
      exact const _

end ReadsOnly

variable {kind : String → Prop}

theorem readsOnly_read (h : kind (pomPath r.root m)) : r.ReadsOnly kind fun r => r.read m := by
  refine ⟨[pomPath r.root m], by simpa using h, ?_⟩
  intro files hfiles
  simp only [read, hfiles _ (List.mem_singleton_self _)]

theorem readsOnly_load
    (h : ∀ n t, r.Chain overrides n s t → n < depth → kind (pomPath r.root t.module)) :
    r.ReadsOnly kind fun r => r.load depth s.module := by
  induction depth generalizing s with
  | zero => exact .const _
  | succ depth ih =>
      apply ReadsOnly.bind (readsOnly_read (h 0 s .here (Nat.succ_pos depth)))
      intro d hread
      cases hparent : d.parent with
      | none => exact .const _
      | some p =>
          apply ReadsOnly.bind
          · apply ih (s := .parent p.module)
            intro n t hchain hn
            exact h (n + 1) t (.link (.parent hread hparent) hchain) (Nat.succ_lt_succ hn)
          · intro parent _
            exact .const _

/-- A build reads the files of chains that are within its levels, and no others. -/
theorem readsOnly_build {c : Coordinates}
    (h : ∀ m n t, c = m.coordinates → r.Chain overrides n (.build m) t → n < depth →
      kind (pomPath r.root t.module)) :
    r.ReadsOnly kind fun r => r.build overrides depth c := by
  induction depth generalizing c with
  | zero =>
      obtain ⟨id, version | version⟩ := c
      · exact .const _
      · exact .const _
  | succ depth ih =>
      obtain ⟨id, version | version⟩ := c
      · exact .const _
      · let m : ModuleVersion := ⟨id, version⟩
        have hbuild : (fun r : Repository => r.build overrides (depth + 1) ⟨id, some version⟩) =
            fun r => r.build overrides (depth + 1) m.coordinates := rfl
        simp only [hbuild, build_coordinates]
        apply ReadsOnly.bind
        · apply ReadsOnly.bind (readsOnly_load (h m · · rfl))
          intro merged _
          exact .const _
        · intro document hdocument
          obtain ⟨d, ancestors, hlineage, -, rfl⟩ := effective_eq_ok_iff.1 hdocument
          apply ReadsOnly.bind
          · apply ReadsOnly.mapM
            intro bom hbom
            apply ih
            rintro bom n t rfl hchain hn
            exact h m (n + 1) t rfl (.link (.bom hlineage hbom) hchain) (Nat.succ_lt_succ hn)
          · intro boms _
            exact .const _

/-- Resolving references ends after finitely many files, none of which is more than sixteen links
away. If links lead from one of the references around a cycle, or on without end, it fails. If it
succeeds, no chain from any of the references has more than sixteen links. -/
theorem chains_end_within_limit (r : Repository) (references : List PomReference)
    (properties : Properties) :
    r.ReadsOnly
        (fun path => ∃ reference ∈ references, ∃ m n t, reference.coordinates = m.coordinates ∧
          r.Chain (properties ∪ reference.properties) n (.build m) t ∧ n ≤ 16 ∧
          path = pomPath r.root t.module)
        (fun r => r.service.strict references properties) ∧
      (∀ reference ∈ references, ∀ m, reference.coordinates = m.coordinates →
        r.Circular (properties ∪ reference.properties) (.build m) ∨
          r.Endless (properties ∪ reference.properties) (.build m) →
        ∃ report, r.service.strict references properties = .error report) ∧
      ∀ poms, r.service.strict references properties = .ok poms →
        ∀ reference ∈ references, ∃ m, reference.coordinates = m.coordinates ∧
          ∀ n t, r.Chain (properties ∪ reference.properties) n (.build m) t → n ≤ 16 := by
  have hbounded : ∀ poms, r.service.strict references properties = .ok poms →
      ∀ reference ∈ references, ∃ m, reference.coordinates = m.coordinates ∧
        ∀ n t, r.Chain (properties ∪ reference.properties) n (.build m) t → n ≤ 16 := by
    intro poms hpoms reference hreference
    obtain ⟨pom, -, hpom⟩ := exists_of_forall₂ (strict_service_eq_ok_iff.1 hpoms) hreference
    obtain ⟨m, _, _, _, hm, -⟩ := build_eq_ok_iff.1 hpom
    rw [resolve, hm] at hpom
    exact ⟨m, hm, fun n t hchain => Nat.le_of_lt_succ (hchain.lt_of_build hpom)⟩
  refine ⟨?_, ?_, hbounded⟩
  · apply ReadsOnly.mapM
    intro reference hreference
    apply ReadsOnly.map
    apply readsOnly_build
    intro m n t hm hchain hn
    exact ⟨reference, hreference, m, n, t, hm, hchain, Nat.le_of_lt_succ hn, rfl⟩
  · intro reference hreference m hm hendless
    cases hstrict : r.service.strict references properties with
    | error report => exact ⟨report, rfl⟩
    | ok poms =>
        -- a chain longer than the limit contradicts success
        obtain ⟨m', hm', hle⟩ := hbounded poms hstrict reference hreference
        obtain rfl := ModuleVersion.coordinates_injective (hm.symm.trans hm')
        have hlong : ∃ n t, chainLimit + 1 ≤ n ∧
            r.Chain (properties ∪ reference.properties) n (.build m) t := by
          rcases hendless with hcircular | hendless
          · exact hcircular.exists_chain (chainLimit + 1)
          · obtain ⟨t, hchain⟩ := hendless.exists_chain (chainLimit + 1)
            exact ⟨chainLimit + 1, t, Nat.le_refl _, hchain⟩
        obtain ⟨n, t, hn, hchain⟩ := hlong
        exact absurd (hle n t hchain) (Nat.not_le_of_lt hn)

namespace Sample

/-- A parent imports its child, so the child imports itself. -/
theorem circular_loop (overrides : Properties) :
    repository.Circular overrides (.build (first "loop")) := by
  have hmanagement {d : Document} {ancestors : List Document}
      (h : (d.under ancestors).management = loop.management) :
      (d.effective ancestors overrides).management = loop.management := by
    rw [Document.management_effective, h]
    simp (disch := decide) [loop, bomImport, Declaration.mapTexts,
      Document.interpolate_of_plain]
  have himport : (first "knot").coordinates ∈
      (loop.management.filter Declaration.isBomImport).map Declaration.coordinates :=
    List.mem_singleton_self _
  have hfirst : repository.Link overrides (.build (first "loop")) (.build (first "knot")) := by
    apply Link.bom lineage_loop
    rw [Document.imports, hmanagement rfl]
    exact himport
  have hagain : repository.Link overrides (.build (first "knot")) (.build (first "knot")) := by
    apply Link.bom lineage_knot
    rw [Document.imports, hmanagement rfl]
    exact himport
  exact ⟨1, 0, .build (first "knot"), .link hfirst .here, .link hagain .here⟩

theorem loop_fails_and_app_resolves :
    repository.Circular (caller ∪ ∅) (.build (first "loop")) ∧
      (∃ report, repository.service.strict [appReference, .plain (first "loop").coordinates]
        caller = .error report) ∧
      repository.service.strict [appReference] caller = .ok [appPom] ∧
      ∃ m, appReference.coordinates = m.coordinates ∧
        ∀ n t, repository.Chain given n (.build m) t → n ≤ 16 := by
  have hloop := circular_loop (caller ∪ ∅)
  refine ⟨hloop, ?_, strict_app, ?_⟩
  · obtain ⟨-, hfails, -⟩ := chains_end_within_limit repository
      [appReference, .plain (first "loop").coordinates] caller
    exact hfails _ (List.mem_cons_of_mem _ (List.mem_singleton_self _)) _ rfl (Or.inl hloop)
  · obtain ⟨-, -, hbounded⟩ := chains_end_within_limit repository [appReference] caller
    exact hbounded _ strict_app _ (List.mem_singleton_self _)

end Sample

end Repository

end ManagedGraph
