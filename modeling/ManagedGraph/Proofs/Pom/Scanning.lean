import ManagedGraph.Proofs.Pom.References

/-!
# The loop of an interpolation

Interpolation runs as a loop that looks for a reference from a position on. A reference that stays
is passed, and the position moves behind it; another one is replaced by its value, and the position
stays where it is, since the value may hold references in turn. So what lies before the position is
made of references that stay, and no later round touches it (`PassedOver.finish`). If the loop ends
before its limit, no reference lies ahead either, and looking at the text again from its beginning
meets the same references, all of which stay (`interpolation_settles`).
-/

namespace ManagedGraph.Pom

namespace Interpolation

/-- The reference to a name stays in place: the name is unknown, or its value refers to it. -/
def Stays (value? : List Char → Option (List Char)) (name : List Char) : Prop :=
  ∀ value, value? name = some value → Text.occurs (reference name) value = true

/-- The loop between two rounds. -/
structure Scan where
  /-- The text before the position. -/
  passed : List Char
  /-- The text from the position on. -/
  ahead : List Char
  /-- How many references were replaced. -/
  replaced : Nat
deriving DecidableEq

namespace Scan

/-- Before the first round the position is at the beginning. -/
def start (s : List Char) : Scan :=
  ⟨[], s, 0⟩

/-- The whole text. -/
def text (x : Scan) : List Char :=
  x.passed ++ x.ahead

/-- A reference stays, and the position moves behind it. -/
def pass (x : Scan) (p : Part) (after : List Char) : Scan :=
  ⟨x.passed ++ p.text, after, x.replaced⟩

/-- A reference is replaced, and the position stays. -/
def replace (x : Scan) (before value after : List Char) : Scan :=
  ⟨x.passed, before ++ value ++ after, x.replaced + 1⟩

/-- One round. There is none at the limit, nor if no reference lies ahead. -/
def advance? (value? : List Char → Option (List Char)) (limit : Nat) (x : Scan) : Option Scan :=
  if x.replaced < limit then
    match firstReference x.ahead with
    | none => none
    | some (before, name, after) =>
        match value? name with
        | none => some (x.pass ⟨before, name⟩ after)
        | some value =>
            if Text.occurs (reference name) value then some (x.pass ⟨before, name⟩ after)
            else some (x.replace before value after)
  else none

variable {value? : List Char → Option (List Char)} {limit : Nat} {x y : Scan}

/-! ## One round -/

theorem advance?_eq_none_iff :
    x.advance? value? limit = none ↔ limit ≤ x.replaced ∨ firstReference x.ahead = none := by
  unfold advance?
  by_cases hlimit : x.replaced < limit
  · rw [if_pos hlimit]
    cases firstReference x.ahead with
    | none => simp
    | some found =>
        simp only [reduceCtorEq, or_false]
        rw [iff_false_right (Nat.not_le_of_lt hlimit)]
        split
        · simp
        · split <;> simp
  · simp [hlimit, Nat.le_of_not_lt hlimit]

/-- A round deals with the first reference ahead: it passes it if it stays, and replaces it if
not. -/
theorem advance?_cases (h : x.advance? value? limit = some y) :
    x.replaced < limit ∧ ∃ before name after,
      firstReference x.ahead = some (before, name, after) ∧
        (Stays value? name ∧ y = x.pass ⟨before, name⟩ after ∨
          ∃ value, value? name = some value ∧ Text.occurs (reference name) value = false ∧
            y = x.replace before value after) := by
  unfold advance? at h
  split at h
  · rename_i hlimit
    refine ⟨hlimit, ?_⟩
    split at h
    · simp at h
    · rename_i before name after hfirst
      refine ⟨before, name, after, hfirst, ?_⟩
      split at h
      · rename_i hunknown
        exact Or.inl ⟨by simp [Stays, hunknown], (Option.some.inj h).symm⟩
      · rename_i value hvalue
        split at h
        · rename_i hself
          exact Or.inl ⟨by simp [Stays, hvalue, hself], (Option.some.inj h).symm⟩
        · rename_i hfree
          exact Or.inr ⟨value, hvalue, by simpa using hfree, (Option.some.inj h).symm⟩
  · simp at h

/-- A round uses up one of the replacements that are left, or some of the text ahead. -/
theorem advance?_decreases (h : x.advance? value? limit = some y) :
    Prod.Lex (· < ·) (· < ·) (limit - y.replaced, y.ahead.length)
      (limit - x.replaced, x.ahead.length) := by
  obtain ⟨hlimit, before, name, after, hfirst, ⟨-, rfl⟩ | ⟨value, -, -, rfl⟩⟩ := advance?_cases h
  · exact Prod.Lex.right _ (length_lt_of_firstReference hfirst)
  · apply Prod.Lex.left
    simp only [replace]
    omega

/-! ## The whole loop -/

/-- The loop when it has ended. -/
def finish (value? : List Char → Option (List Char)) (limit : Nat) (x : Scan) : Scan :=
  match _h : x.advance? value? limit with
  | none => x
  | some y => y.finish value? limit
termination_by (limit - x.replaced, x.ahead.length)
decreasing_by exact advance?_decreases _h

theorem finish_of_none (h : x.advance? value? limit = none) : x.finish value? limit = x := by
  rw [finish]
  split
  · rfl
  · rename_i hsome
    exact absurd (h.symm.trans hsome) (by simp)

theorem finish_of_some (h : x.advance? value? limit = some y) :
    x.finish value? limit = y.finish value? limit := by
  rw [finish]
  split
  · rename_i hnone
    exact absurd (h.symm.trans hnone) (by simp)
  · rename_i hsome
    rw [Option.some.inj (h.symm.trans hsome)]

/-- What holds at the start of the loop and is kept by each round holds at its end. -/
theorem finish_induction {P : Scan → Prop}
    (hround : ∀ x y, x.advance? value? limit = some y → P x → P y) (h : P x) :
    P (x.finish value? limit) := by
  induction x using finish.induct value? limit with
  | case1 x hnone =>
      rw [finish_of_none hnone]
      exact h
  | case2 x y hsome ih =>
      rw [finish_of_some hsome]
      exact ih (hround x y hsome h)

theorem advance?_finish (x : Scan) : (x.finish value? limit).advance? value? limit = none := by
  induction x using finish.induct value? limit with
  | case1 x hnone =>
      rw [finish_of_none hnone]
      exact hnone
  | case2 x y hsome ih =>
      rw [finish_of_some hsome]
      exact ih

/-- What is before the position stays, and what is ahead is substituted. -/
theorem text_finish (x : Scan) :
    (x.finish value? limit).text =
      x.passed ++ substitute value? (limit - x.replaced) x.ahead := by
  induction x using finish.induct value? limit with
  | case1 x hnone =>
      rw [finish_of_none hnone, text]
      rcases advance?_eq_none_iff.1 hnone with hlimit | hfirst
      · rw [Nat.sub_eq_zero_of_le hlimit, substitute_zero]
      · rw [substitute_of_none hfirst]
  | case2 x y hsome ih =>
      obtain ⟨hlimit, before, name, after, hfirst, hround⟩ := advance?_cases hsome
      obtain ⟨left, hleft⟩ : ∃ left, limit - x.replaced = left + 1 :=
        Nat.exists_eq_succ_of_ne_zero (by omega)
      rw [finish_of_some hsome, ih, hleft]
      rcases hround with ⟨hstays, rfl⟩ | ⟨value, hvalue, hfree, rfl⟩
      · rw [substitute_of_kept hfirst hstays]
        simp [pass, Part.text, hleft]
      · have hone : limit - (x.replaced + 1) = left := by omega
        rw [substitute_of_value hfirst hvalue hfree]
        simp [replace, hone]

/-! ## What is passed -/

/-- What lies before the position is made of references that stay, each the next one. -/
def PassedOver (value? : List Char → Option (List Char)) (x : Scan) : Prop :=
  ∃ parts : List Part, x.passed = parts.flatMap Part.text ∧
    ∀ p ∈ parts, p.IsNext ∧ Stays value? p.name

theorem passedOver_start (s : List Char) : (start s).PassedOver value? :=
  ⟨[], rfl, by simp⟩

theorem PassedOver.advance (hround : x.advance? value? limit = some y)
    (h : x.PassedOver value?) : y.PassedOver value? := by
  obtain ⟨parts, hpassed, hparts⟩ := h
  obtain ⟨-, before, name, after, hfirst, ⟨hstays, rfl⟩ | ⟨value, -, -, rfl⟩⟩ :=
    advance?_cases hround
  · obtain ⟨hnext, -⟩ := firstReference_eq_some_iff.1 hfirst
    refine ⟨parts ++ [⟨before, name⟩], by simp [pass, hpassed], ?_⟩
    intro p hp
    rcases List.mem_append.1 hp with hp | hp
    · exact hparts p hp
    · obtain rfl := List.mem_singleton.1 hp
      exact ⟨hnext, hstays⟩
  · exact ⟨parts, hpassed, hparts⟩

theorem PassedOver.finish (h : x.PassedOver value?) :
    (x.finish value? limit).PassedOver value? :=
  finish_induction (fun _ _ => PassedOver.advance) h

/-- If the loop has not come to its limit, all references of its text stay. -/
theorem stays_of_replaced_lt (h : x.PassedOver value?)
    (hend : (x.finish value? limit).replaced < limit) :
    ∀ p ∈ (split (x.finish value? limit).text).parts, Stays value? p.name := by
  have hover : (x.finish value? limit).PassedOver value? := h.finish
  obtain ⟨parts, hpassed, hparts⟩ := hover
  have hnone : firstReference (x.finish value? limit).ahead = none :=
    (advance?_eq_none_iff.1 (advance?_finish x)).resolve_left (Nat.not_le_of_lt hend)
  -- looked at from the beginning, the text has just the references that were passed
  have hsplit : split (x.finish value? limit).text = ⟨parts, (x.finish value? limit).ahead⟩ := by
    refine split_eq_iff.2 ⟨?_, fun p hp => (hparts p hp).1, firstReference_eq_none_iff.1 hnone⟩
    rw [Split.text, ← hpassed, text]
  rw [hsplit]
  exact fun p hp => (hparts p hp).2

end Scan

/-- A text whose references all stay is not changed. -/
theorem substitute_of_stays {value? : List Char → Option (List Char)} {budget : Nat}
    {s : List Char} (h : ∀ p ∈ (split s).parts, Stays value? p.name) :
    substitute value? budget s = s := by
  cases budget with
  | zero => exact substitute_zero
  | succ budget =>
      induction s using split.induct with
      | case1 s hnone => exact substitute_of_none hnone
      | case2 s before name after hsome ih =>
          obtain ⟨-, hs⟩ := firstReference_eq_some_iff.1 hsome
          rw [split_of_some hsome] at h
          obtain ⟨hname, hrest⟩ := List.forall_mem_cons.1 h
          rw [substitute_of_kept hsome hname, ih hrest, hs]

end Interpolation

namespace Declaration

/-- The texts of a declaration that are interpolated. -/
def interpolands (d : Declaration) : List String :=
  [d.group, d.artifact] ++ d.version.toList ++ d.scope.toList ++ d.classifier.toList ++
    d.type.toList ++ d.exclusions.flatMap fun e => e.group :: e.artifact.toList

variable {f g : String → String} {d : Declaration}

theorem mapTexts_mapTexts : (d.mapTexts f).mapTexts g = d.mapTexts fun s => g (f s) := by
  simp [mapTexts, Function.comp_def]

/-- Nothing but the texts is changed. -/
theorem mapTexts_congr (h : ∀ s ∈ d.interpolands, f s = g s) : d.mapTexts f = d.mapTexts g := by
  have hoptional {o : Option String} (ho : ∀ s ∈ o, s ∈ d.interpolands) : o.map f = o.map g :=
    Option.map_congr fun s hs => h s (ho s hs)
  have hexclusion : ∀ e ∈ d.exclusions, (⟨f e.group, e.artifact.map f⟩ : DeclaredExclusion) =
      ⟨g e.group, e.artifact.map g⟩ := by
    intro e he
    have hmem {s : String} (hs : s ∈ e.group :: e.artifact.toList) : s ∈ d.interpolands :=
      List.mem_append_right _ (List.mem_flatMap.2 ⟨e, he, hs⟩)
    rw [h e.group (hmem List.mem_cons_self),
      hoptional fun s hs => hmem (List.mem_cons_of_mem _ (Option.mem_toList.2 hs))]
  have hgroup : f d.group = g d.group := h d.group (by simp [interpolands])
  have hartifact : f d.artifact = g d.artifact := h d.artifact (by simp [interpolands])
  have hversion : d.version.map f = d.version.map g := hoptional (by simp +contextual [interpolands])
  have hscope : d.scope.map f = d.scope.map g := hoptional (by simp +contextual [interpolands])
  have hclassifier : d.classifier.map f = d.classifier.map g :=
    hoptional (by simp +contextual [interpolands])
  have htype : d.type.map f = d.type.map g := hoptional (by simp +contextual [interpolands])
  simp only [mapTexts, hgroup, hartifact, hversion, hscope, hclassifier, htype,
    List.map_congr_left hexclusion]

theorem interpolands_mapTexts : (d.mapTexts f).interpolands = d.interpolands.map f := by
  have htoList (o : Option String) : (o.map f).toList = o.toList.map f := by cases o <;> rfl
  simp [interpolands, mapTexts, htoList, List.flatMap_map, List.map_flatMap]

end Declaration

namespace Document

open Interpolation

/-- The value of a name, as interpolation looks it up. -/
def valueOf (d : Document) (name : List Char) : Option (List Char) :=
  (d.value? (String.ofList name)).map String.toList

/-- The loop of an interpolation when it has ended. -/
def scan (d : Document) (s : String) : Scan :=
  (Scan.start s.toList).finish d.valueOf limit

/-- The interpolation of a text ends before its limit. -/
def EndsInTime (d : Document) (s : String) : Prop :=
  (d.scan s).replaced < limit

/-- The texts of a document that are interpolated. -/
def interpolands (d : Document) : List String :=
  (d.dependencies ++ d.management).flatMap Declaration.interpolands

variable {d : Document} {s : String}

theorem interpolate_eq (d : Document) (s : String) :
    d.interpolate s = String.ofList (substitute d.valueOf limit s.toList) := rfl

/-- The loop computes the interpolated text. -/
theorem text_scan (d : Document) (s : String) : (d.scan s).text = (d.interpolate s).toList := by
  rw [interpolate_eq, String.toList_ofList]
  exact Scan.text_finish (Scan.start s.toList)

/-- Without references there is nothing to replace. -/
theorem endsInTime_of_plain (h : firstReference s.toList = none) : d.EndsInTime s := by
  have hlimit : 0 < limit := by decide
  rw [EndsInTime, scan, Scan.finish_of_none (Scan.advance?_eq_none_iff.2 (Or.inr h))]
  exact hlimit

theorem stays_of_endsInTime (h : d.EndsInTime s) :
    ∀ p ∈ (split (d.interpolate s).toList).parts, Stays d.valueOf p.name := by
  rw [← text_scan]
  exact Scan.stays_of_replaced_lt (Scan.passedOver_start s.toList) h

theorem interpolate_of_stays (h : ∀ p ∈ (split s.toList).parts, Stays d.valueOf p.name) :
    d.interpolate s = s := by
  rw [interpolate_eq, substitute_of_stays h, String.ofList_toList]

theorem interpolate_interpolate (h : d.EndsInTime s) :
    d.interpolate (d.interpolate s) = d.interpolate s :=
  interpolate_of_stays (stays_of_endsInTime h)

/-- The interpolation of declarations leaves all values as they were. -/
theorem interpolate_resolveProperties (d : Document) :
    d.resolveProperties.interpolate = d.interpolate := rfl

theorem resolveProperties_resolveProperties (h : ∀ s ∈ d.interpolands, d.EndsInTime s) :
    d.resolveProperties.resolveProperties = d.resolveProperties := by
  have hagain : ∀ e ∈ d.dependencies ++ d.management,
      (e.mapTexts d.interpolate).mapTexts d.interpolate = e.mapTexts d.interpolate := by
    intro e he
    rw [Declaration.mapTexts_mapTexts]
    apply Declaration.mapTexts_congr
    intro s hs
    exact interpolate_interpolate (h s (List.mem_flatMap.2 ⟨e, he, hs⟩))
  have hlist {l : List Declaration} (hl : l ⊆ d.dependencies ++ d.management) :
      (l.map (Declaration.mapTexts d.interpolate)).map (Declaration.mapTexts d.interpolate) =
        l.map (Declaration.mapTexts d.interpolate) := by
    rw [List.map_map]
    exact List.map_congr_left fun e he => hagain e (hl he)
  have hdependencies := hlist (List.subset_append_left d.dependencies d.management)
  have hmanagement := hlist (List.subset_append_right d.dependencies d.management)
  rw [resolveProperties, interpolate_resolveProperties]
  simp only [resolveProperties, hdependencies, hmanagement]

/-- An interpolation that ends before its limit leaves a text in which every reference that is
still found from left to right is unknown or refers to itself in its value, so interpolating it
again changes nothing. Hence interpolating the declarations of a document once is interpolating
them twice, if none of their texts comes to the limit. -/
theorem interpolation_settles (d : Document) :
    (∀ s, (d.scan s).text = (d.interpolate s).toList ∧
      (d.EndsInTime s →
        d.interpolate (d.interpolate s) = d.interpolate s ∧
          ∀ p ∈ (split (d.interpolate s).toList).parts, Stays d.valueOf p.name)) ∧
      ((∀ s ∈ d.interpolands, d.EndsInTime s) →
        d.resolveProperties.resolveProperties = d.resolveProperties) := by
  refine ⟨fun s => ⟨text_scan d s, fun h => ?_⟩, resolveProperties_resolveProperties⟩
  exact ⟨interpolate_interpolate h, stays_of_endsInTime h⟩

/-- A value holds two references, one of which refers to itself. A text has a reference to it
behind one to an unknown name. -/
def chained : Document :=
  { blank with
    properties := Std.ExtTreeMap.ofList [("a", "${b}-${c}"), ("b", "1"), ("c", "${c}")]
    dependencies := [⟨"org", "lib", some "${x}${a}", none, false, none, none, []⟩] }

theorem interpolation_settles_chained :
    chained.EndsInTime "${x}${a}" ∧ chained.interpolate "${x}${a}" = "${x}1-${c}" ∧
      chained.interpolate "${x}1-${c}" = "${x}1-${c}" ∧
      chained.resolveProperties.resolveProperties = chained.resolveProperties := by
  have hscan : chained.scan "${x}${a}" = ⟨"${x}1-${c}".toList, [], 2⟩ := by
    unfold scan
    rw [Scan.finish_of_some rfl, Scan.finish_of_some rfl, Scan.finish_of_some rfl,
      Scan.finish_of_some rfl, Scan.finish_of_none rfl]
    rfl
  have hends : chained.EndsInTime "${x}${a}" := by
    rw [EndsInTime, hscan]
    decide
  have hresult : chained.interpolate "${x}${a}" = "${x}1-${c}" := by
    rw [← String.toList_inj, ← text_scan, hscan]
    rfl
  obtain ⟨hsettles, htwice⟩ := interpolation_settles chained
  obtain ⟨hagain, -⟩ := (hsettles "${x}${a}").2 hends
  rw [hresult] at hagain
  refine ⟨hends, hresult, hagain, htwice ?_⟩
  intro s hs
  obtain rfl | rfl | rfl : s = "org" ∨ s = "lib" ∨ s = "${x}${a}" := by
    simpa [interpolands, chained, Declaration.interpolands, blank] using hs
  · exact endsInTime_of_plain rfl
  · exact endsInTime_of_plain rfl
  · exact hends

end Document

end ManagedGraph.Pom
