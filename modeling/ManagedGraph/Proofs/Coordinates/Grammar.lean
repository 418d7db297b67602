import ManagedGraph.Exclusion
import ManagedGraph.Proofs.Text.Parts

/-!
# The written forms of modules

A module is written as its group and its artifact with a colon between them, and one of its versions
with another colon and the version behind that. Modules and exclusions are divided at the first
colon, coordinates at every one. All the same they read the same texts (`grammars_agree`): those
whose parts are neither empty nor have a colon of their own. What was read is written as it stood,
and what is written is read back exactly if its parts are of this kind.
-/

namespace ManagedGraph

/-- The names of a module can be parts of a written form. -/
def ModuleId.Writable (id : ModuleId) : Prop :=
  Text.IsPart ':' id.group ∧ Text.IsPart ':' id.artifact

/-- So can the version, if there is one. -/
def Coordinates.Writable (c : Coordinates) : Prop :=
  c.id.Writable ∧ ∀ version ∈ c.version, Text.IsPart ':' version

theorem ModuleId.writable_ofList_iff {group artifact : List Char} :
    (ModuleId.mk (.ofList group) (.ofList artifact)).Writable ↔
      (group ≠ [] ∧ ':' ∉ group) ∧ artifact ≠ [] ∧ ':' ∉ artifact :=
  and_congr Text.isPart_ofList_iff Text.isPart_ofList_iff

variable {text : String} {id : ModuleId} {c : Coordinates}

/-! ## Texts of two and of three parts -/

section Division

variable {group artifact version : List Char}

/-- A text is divided at its first colon into a part and all the rest. -/
theorem breakOn_colon_iff :
    Text.breakOn [':'] text.toList = some (group, artifact) ↔
      ':' ∉ group ∧ text = String.ofList group ++ ":" ++ String.ofList artifact := by
  rw [Text.breakOn_singleton_eq_some_iff, ← String.toList_inj]
  simp

/-- A text is divided at all its colons into two parts. -/
theorem splitOn_colon_pair_iff :
    text.toList.splitOn ':' = [group, artifact] ↔
      (':' ∉ group ∧ ':' ∉ artifact) ∧
        text = String.ofList group ++ ":" ++ String.ofList artifact := by
  rw [Text.splitOn_eq_iff (by simp), ← String.toList_inj]
  simp [List.intercalate_cons_cons]

/-- A text is divided at all its colons into three parts. -/
theorem splitOn_colon_triple_iff :
    text.toList.splitOn ':' = [group, artifact, version] ↔
      (':' ∉ group ∧ ':' ∉ artifact ∧ ':' ∉ version) ∧
        text = String.ofList group ++ ":" ++ String.ofList artifact ++ ":" ++
          String.ofList version := by
  rw [Text.splitOn_eq_iff (by simp), ← String.toList_inj]
  simp [List.intercalate_cons_cons]

end Division

/-! ## What is read -/

/-- A text whose parts can stand in a written form is one. -/
theorem written_of_breakOn {group artifact : List Char}
    (h : Text.breakOn [':'] text.toList = some (group, artifact)) (hgroup : group ≠ [])
    (hartifact : artifact ≠ []) (hcolon : ':' ∉ artifact) :
    (ModuleId.mk (.ofList group) (.ofList artifact)).Writable ∧
      text = String.ofList group ++ ":" ++ String.ofList artifact := by
  obtain ⟨hfirst, htext⟩ := breakOn_colon_iff.1 h
  exact ⟨ModuleId.writable_ofList_iff.2 ⟨⟨hgroup, hfirst⟩, hartifact, hcolon⟩, htext⟩

/-- The written form of a module is divided between its group and its artifact. -/
theorem breakOn_of_writable (h : id.Writable)
    (htext : text = id.group ++ ":" ++ id.artifact) :
    Text.breakOn [':'] text.toList = some (id.group.toList, id.artifact.toList) :=
  breakOn_colon_iff.2 ⟨h.1.2, by simpa using htext⟩

/-- A module is read from its written form and from no other text. -/
theorem ModuleId.parse?_eq_some_iff :
    parse? text = some id ↔ id.Writable ∧ text = id.display := by
  constructor
  · intro h
    unfold parse? at h
    cases hbreak : Text.breakOn [':'] text.toList with
    | none => simp [hbreak] at h
    | some parts =>
        obtain ⟨group, artifact⟩ := parts
        simp only [hbreak, Option.ite_none_left_eq_some, Bool.or_eq_true, List.isEmpty_iff,
          List.contains_eq_mem, decide_eq_true_eq, not_or, Option.some.injEq] at h
        obtain ⟨⟨⟨hgroup, hartifact⟩, hcolon⟩, rfl⟩ := h
        exact written_of_breakOn hbreak hgroup hartifact hcolon
  · rintro ⟨hid, htext⟩
    have hbreak := breakOn_of_writable hid htext
    obtain ⟨⟨hgroup, -⟩, hartifact, hcolon⟩ := hid
    simp [parse?, hbreak, hgroup, hartifact, hcolon]

/-- A pattern is read from its written form and from no other text. -/
theorem Exclusion.parse_eq_pattern_iff {group artifact : String} :
    parse text = pattern group artifact ↔
      (ModuleId.mk group artifact).Writable ∧ text = (pattern group artifact).display := by
  constructor
  · intro h
    unfold parse at h
    split at h
    · rename_i first rest hbreak
      split at h
      · rename_i hparts
        simp only [Bool.and_eq_true, Bool.not_eq_true', List.isEmpty_eq_false_iff,
          List.contains_eq_mem, decide_eq_false_iff_not] at hparts
        obtain ⟨⟨hgroup, hartifact⟩, hcolon⟩ := hparts
        obtain ⟨rfl, rfl⟩ : String.ofList first = group ∧ String.ofList rest = artifact := by
          simpa using h
        exact written_of_breakOn hbreak hgroup hartifact hcolon
      · exact absurd h (by simp)
    · exact absurd h (by simp)
  · rintro ⟨hid, htext⟩
    have hbreak := breakOn_of_writable hid htext
    obtain ⟨⟨hgroup, -⟩, hartifact, hcolon⟩ := hid
    simp [parse, hbreak, hgroup, hartifact, hcolon]

/-- Coordinates are read from their written form and from no other text. -/
theorem Coordinates.parse?_eq_some_iff :
    parse? text = some c ↔ c.Writable ∧ text = c.display := by
  constructor
  · intro h
    unfold parse? at h
    split at h
    · rename_i group artifact hsplit
      obtain ⟨⟨hfirst, hsecond⟩, htext⟩ := splitOn_colon_pair_iff.1 hsplit
      simp only [Option.ite_none_left_eq_some, Bool.or_eq_true, List.isEmpty_iff, not_or,
        Option.some.injEq] at h
      obtain ⟨⟨hgroup, hartifact⟩, rfl⟩ := h
      have hid := ModuleId.writable_ofList_iff.2 ⟨⟨hgroup, hfirst⟩, hartifact, hsecond⟩
      exact ⟨⟨hid, by simp⟩, htext⟩
    · rename_i group artifact version hsplit
      obtain ⟨⟨hfirst, hsecond, hthird⟩, htext⟩ := splitOn_colon_triple_iff.1 hsplit
      simp only [Option.ite_none_left_eq_some, Bool.or_eq_true, List.isEmpty_iff, not_or,
        Option.some.injEq] at h
      obtain ⟨⟨⟨hgroup, hartifact⟩, hversion⟩, rfl⟩ := h
      have hid := ModuleId.writable_ofList_iff.2 ⟨⟨hgroup, hfirst⟩, hartifact, hsecond⟩
      have hlast := Text.isPart_ofList_iff.2 ⟨hversion, hthird⟩
      exact ⟨⟨hid, by simpa using hlast⟩, htext⟩
    · exact absurd h (by simp)
  · obtain ⟨⟨group, artifact⟩, version | version⟩ := c
    · rintro ⟨⟨⟨⟨hgroup, hcolon⟩, hartifact, hcolon'⟩, -⟩, htext⟩
      have hsplit : text.toList.splitOn ':' = [group.toList, artifact.toList] :=
        splitOn_colon_pair_iff.2 ⟨⟨hcolon, hcolon'⟩,
          by simpa [display, ModuleId.display] using htext⟩
      simp [parse?, hsplit, hgroup, hartifact]
    · rintro ⟨⟨⟨⟨hgroup, hcolon⟩, hartifact, hcolon'⟩, hversion⟩, htext⟩
      obtain ⟨hversion, hcolon''⟩ := hversion version rfl
      have hsplit : text.toList.splitOn ':' =
          [group.toList, artifact.toList, version.toList] :=
        splitOn_colon_triple_iff.2 ⟨⟨hcolon, hcolon', hcolon''⟩,
          by simpa [display, ModuleId.display] using htext⟩
      simp [parse?, hsplit, hgroup, hartifact, hversion]

/-! ## What is written -/

/-- An exclusion is shown as it was written, whether or not it could be read. -/
theorem Exclusion.display_parse (text : String) : (parse text).display = text := by
  cases h : parse text with
  | pattern group artifact => exact (parse_eq_pattern_iff.1 h).2.symm
  | malformed raw =>
      -- what is kept of a malformed text is the text itself
      unfold parse at h
      split at h
      · split at h
        · exact absurd h (by simp)
        · exact (Exclusion.malformed.inj h).symm
      · exact (Exclusion.malformed.inj h).symm

/-- Without a version, coordinates are written as their module. -/
theorem Coordinates.parse?_eq_some_none_iff :
    parse? text = some ⟨id, none⟩ ↔ ModuleId.parse? text = some id := by
  rw [parse?_eq_some_iff, ModuleId.parse?_eq_some_iff]
  simp [Writable, display]

/-- Modules, coordinates without a version and patterns are read from the same texts: a group and
an artifact with a colon between them, neither empty and neither with a colon of its own.
Coordinates are also read from three such parts, and from nothing else. What was read is written
as it stood, a malformed exclusion too. What is written is read back exactly if its parts are not
empty and have no colon. -/
theorem grammars_agree :
    (∀ text group artifact,
      let isPair :=
        Text.IsPart ':' group ∧ Text.IsPart ':' artifact ∧ text = group ++ ":" ++ artifact
      (ModuleId.parse? text = some ⟨group, artifact⟩ ↔ isPair) ∧
      (Coordinates.parse? text = some ⟨⟨group, artifact⟩, none⟩ ↔ isPair) ∧
      (Exclusion.parse text = .pattern group artifact ↔ isPair)) ∧
    (∀ text group artifact version,
      Coordinates.parse? text = some ⟨⟨group, artifact⟩, some version⟩ ↔
        Text.IsPart ':' group ∧ Text.IsPart ':' artifact ∧ Text.IsPart ':' version ∧
          text = group ++ ":" ++ artifact ++ ":" ++ version) ∧
    (∀ text,
      (∀ id ∈ ModuleId.parse? text, id.display = text) ∧
      (∀ c ∈ Coordinates.parse? text, c.display = text) ∧
      (Exclusion.parse text).display = text) ∧
    (∀ id : ModuleId, ModuleId.parse? id.display = some id ↔ id.Writable) ∧
    (∀ c : Coordinates, Coordinates.parse? c.display = some c ↔ c.Writable) ∧
    (∀ m : ModuleVersion,
      Coordinates.parse? m.display = some m.coordinates ↔ m.coordinates.Writable) ∧
    ∀ group artifact,
      let e := Exclusion.pattern group artifact
      Exclusion.parse e.display = e ↔ (ModuleId.mk group artifact).Writable := by
  have hmodule (text group artifact : String) :
      ModuleId.parse? text = some ⟨group, artifact⟩ ↔
        Text.IsPart ':' group ∧ Text.IsPart ':' artifact ∧ text = group ++ ":" ++ artifact := by
    rw [ModuleId.parse?_eq_some_iff, ModuleId.Writable, and_assoc]
    rfl
  have hexclusion (text group artifact : String) :
      Exclusion.parse text = .pattern group artifact ↔
        Text.IsPart ':' group ∧ Text.IsPart ':' artifact ∧ text = group ++ ":" ++ artifact := by
    rw [Exclusion.parse_eq_pattern_iff, ModuleId.Writable, and_assoc]
    rfl
  refine ⟨?_, ?_, ?_, ?_, ?_, ?_, ?_⟩
  · intro text group artifact isPair
    refine ⟨hmodule text group artifact, ?_, hexclusion text group artifact⟩
    rw [Coordinates.parse?_eq_some_none_iff, hmodule]
  · intro text group artifact version
    rw [Coordinates.parse?_eq_some_iff]
    simp [Coordinates.Writable, ModuleId.Writable, Coordinates.display, ModuleId.display, and_assoc]
  · intro text
    refine ⟨?_, ?_, Exclusion.display_parse text⟩
    · intro id hid
      exact (ModuleId.parse?_eq_some_iff.1 hid).2.symm
    · intro c hc
      exact (Coordinates.parse?_eq_some_iff.1 hc).2.symm
  · intro id
    exact ModuleId.parse?_eq_some_iff.trans (and_iff_left rfl)
  · intro c
    exact Coordinates.parse?_eq_some_iff.trans (and_iff_left rfl)
  · intro m
    exact Coordinates.parse?_eq_some_iff.trans (and_iff_left rfl)
  · intro group artifact e
    exact Exclusion.parse_eq_pattern_iff.trans (and_iff_left rfl)

/-- A library, one of its versions, and texts with a colon too many. -/
theorem grammars_agree_on_library :
    ModuleId.parse? "org:lib" = some ⟨"org", "lib"⟩ ∧
      (ModuleId.mk "org" "lib").display = "org:lib" ∧
      Coordinates.parse? "org:lib:1.0" = some ⟨⟨"org", "lib"⟩, some "1.0"⟩ ∧
      (Coordinates.mk ⟨"org", "lib"⟩ (some "1.0")).display = "org:lib:1.0" ∧
      Exclusion.parse "org:lib:1.0" ≠ .pattern "org" "lib:1.0" ∧
      Coordinates.parse? ":org:lib" ≠ some ⟨⟨"", "org"⟩, some "lib"⟩ := by
  obtain ⟨hpairs, htriples, htexts, -⟩ := grammars_agree
  have hlib : ModuleId.parse? "org:lib" = some ⟨"org", "lib"⟩ :=
    (hpairs _ _ _).1.2 (by decide)
  have hversion : Coordinates.parse? "org:lib:1.0" = some ⟨⟨"org", "lib"⟩, some "1.0"⟩ :=
    (htriples _ _ _ _).2 (by decide)
  refine ⟨hlib, (htexts _).1 _ hlib, hversion, (htexts _).2.1 _ hversion, ?_, ?_⟩
  · intro h
    exact absurd ((hpairs _ _ _).2.2.1 h) (by decide)
  · intro h
    exact absurd ((htriples _ _ _ _).1 h) (by decide)

end ManagedGraph
